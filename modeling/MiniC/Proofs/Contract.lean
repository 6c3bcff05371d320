/-
# MiniC.Proofs.Contract — a logic for rules that read words.

A `Contract` says which words a rule may read and what it may give back for them.  `Reads m k r C`
says what becomes of `r` on every parser that can take at most `k` tokens, with at most `m` of them
looked at besides the one in front:

* it succeeds on a word of the contract with every bracket closed, and leaves it so, or
* it refuses a token, what stands before that token opens a word of the contract, and if it asks for a
  closing bracket it names the innermost open one, or
* the reader fails.

So it never runs out of budget.  With `m` zero it says moreover that a token is refused as soon as it
is looked at, and that no token behind it has been looked at; the one exception is a contract that
allows `void` to be refused late.

A contract is met step by step: once `w` has been read, what remains to be done has to meet what
remains of the contract, `C.after w`.  That some word opens with what was read needs a reason only
where a token is refused; everywhere else it follows, since a rule that meets a contract shows it to
have words (`Reads.viable`).  A bracket that is opened is left to what remains, which has to close it.
-/
import MiniC.Proofs.Delivery
import MiniC.Proofs.Nesting

namespace MiniC

/-- The token that a refusal is about, if it is about one. -/
def SyntaxError.found? : SyntaxError → Option Token
  | .unexpected _ found _ _ | .unmatched _ found _ _ => some found
  | .invalidByte .. | .unclosedComment .. => none

/-! ## Contracts -/

/-- Words of `L` one after another. -/
def Many (L : List Terminal → Prop) (w : List Terminal) : Prop :=
  ∃ ws : List (List Terminal), (∀ x ∈ ws, L x) ∧ w = ws.flatten

theorem Many.nil {L : List Terminal → Prop} : Many L [] := ⟨[], by simp, rfl⟩

theorem Many.cons {L : List Terminal → Prop} {w v : List Terminal} (hw : L w) (hv : Many L v) :
    Many L (w ++ v) := by
  obtain ⟨ws, hws, rfl⟩ := hv
  exact ⟨w :: ws, by simpa using ⟨hw, hws⟩, by simp⟩

/-- Which words a rule may read, and what it may give back for each of them. -/
structure Contract (α : Type) where
  /-- The word may be read, and this be given back for it. -/
  reads : List Terminal → α → Prop
  /-- After this word `void` may be refused with the token behind it looked at. -/
  late : List Terminal → Prop := fun _ => False

namespace Contract

variable {α : Type}

/-- What remains of a contract once `w` has been read. -/
def after (C : Contract α) (w : List Terminal) : Contract α where
  reads v a := C.reads (w ++ v) a
  late v := C.late (w ++ v)

theorem after_after (C : Contract α) (u v : List Terminal) :
    (C.after u).after v = C.after (u ++ v) := by
  simp only [after, List.append_assoc]

@[simp] theorem reads_after (C : Contract α) (u v : List Terminal) (a : α) :
    (C.after u).reads v a ↔ C.reads (u ++ v) a := Iff.rfl

/-- Some word of the contract opens with `u`. -/
def Viable (C : Contract α) (u : List Terminal) : Prop := ∃ c a, C.reads (u ++ c) a

/-- Nothing is refused late. -/
class Prompt (C : Contract α) : Prop where
  not_late (u : List Terminal) : ¬ C.late u

instance {reads : List Terminal → α → Prop} : Prompt { reads } := ⟨fun _ => id⟩

instance {C : Contract α} [C.Prompt] {w : List Terminal} : (C.after w).Prompt :=
  ⟨fun u => Prompt.not_late (C := C) (w ++ u)⟩

/-- One word and no other. -/
def word (w : List Terminal) : Contract α where
  reads v _ := v = w

instance {w : List Terminal} : (word w : Contract α).Prompt := ⟨fun _ => id⟩

/-- The words of a symbol of the grammar. -/
def symbol (s : Symbol) : Contract α where
  reads w _ := Derives s w

instance {s : Symbol} : (symbol s : Contract α).Prompt := ⟨fun _ => id⟩

/-- One word of `L` for at least one node. -/
def once (L : List Terminal → Prop) (late : List Terminal → Prop := fun _ => False) :
    Contract (List Node) where
  reads w nodes := L w ∧ nodes ≠ []
  late := late

instance {L : List Terminal → Prop} : (once L).Prompt := ⟨fun _ => id⟩

/-- Any number of words of `L`, added to the nodes seen before; no node means no word. -/
def many (L : List Terminal → Prop) (seen : List Node)
    (late : List Terminal → Prop := fun _ => False) : Contract (List Node) where
  reads w nodes := Many L w ∧ (nodes = [] → seen = [] ∧ w = [])
  late := late

instance {L : List Terminal → Prop} {seen : List Node} : (many L seen).Prompt := ⟨fun _ => id⟩

end Contract

/-! ## What becomes of a rule -/

/-- How a rule may end that started on `p`, has to close `s` if that is a bracket, has to meet `C`, and
may leave `m` tokens looked at besides the one in front. -/
inductive Outcome {α : Type} (s : Option Token) (m : Nat) (C : Contract α) (p : Parser) :
    EStateM.Result Failure Parser α → Prop
  | ok {a : α} {p' : Parser} {w : List Token} :
      p.Took w p' → p'.ahead.length ≤ m + 1 → C.reads (w.map Token.terminal) a →
      Leads s w none → Outcome s m C p (.ok a p')
  | stuck {e : SyntaxError} {found : Token} {p' : Parser} {w v rest : List Token} :
      p.Took w p' → p'.ahead = v ++ found :: rest → (∀ t ∈ v, t.atEnd = false) →
      e.found? = some found → C.Viable ((w ++ v).map Token.terminal) →
      (rest.length ≤ m ∨ rest.length ≤ m + 1 ∧ found.lexeme = .keyword .void ∧
        C.late ((w ++ v).map Token.terminal)) →
      (∀ z, Leaves z s → e.NamesInnermost (z ++ (w ++ v))) →
      Outcome s m C p (.error (.refused e) p')
  | unreadable {e : SyntaxError} {p' : Parser} {ds : List Token} {r r' : Reader} :
      p.reader.Delivers ds r → r.next = (.error e, r') → Outcome s m C p (.error (.refused e) p')

namespace Outcome

variable {α : Type} {m : Nat} {C D : Contract α} {p p' : Parser} {w : List Token}
  {s s' : Option Token} {o : EStateM.Result Failure Parser α}

theorem mono (h : Outcome s m D p o) (hreads : ∀ w a, D.reads w a → C.reads w a)
    (hlate : ∀ u, D.late u → C.late u) : Outcome s m C p o := by
  cases h with
  | ok htook hshort hword hleads => exact .ok htook hshort (hreads _ _ hword) hleads
  | stuck htook hahead hlive hfound hviable hrest hnames =>
      obtain ⟨c, a, hword⟩ := hviable
      refine .stuck htook hahead hlive hfound ⟨c, a, hreads _ _ hword⟩ ?_ hnames
      exact hrest.imp_right fun ⟨hone, hvoid, hu⟩ => ⟨hone, hvoid, hlate _ hu⟩
  | unreadable hdeliv hfail => exact .unreadable hdeliv hfail

/-- What was taken before counts toward the word and may open or close a bracket. -/
theorem of_took (htook : p.Took w p') (hleads : Leads s w s')
    (h : Outcome s' m (C.after (w.map Token.terminal)) p' o) : Outcome s m C p o := by
  cases h with
  | ok htook' hshort hword hleads' =>
      refine .ok (htook.trans htook') hshort ?_ (hleads.trans hleads')
      rw [List.map_append]
      exact hword
  | @stuck e found p'' w' v rest htook' hahead hlive hfound hviable hrest hnames =>
      have hsplit : (w ++ w' ++ v).map Token.terminal
          = w.map Token.terminal ++ (w' ++ v).map Token.terminal := by simp
      refine .stuck (htook.trans htook') hahead hlive hfound ?_ ?_ ?_
      · obtain ⟨c, a, hword⟩ := hviable
        rw [hsplit]
        exact ⟨c, a, by rw [List.append_assoc]; exact hword⟩
      · rw [hsplit]
        exact hrest
      · intro z hz
        have hbehind := hnames (z ++ w) (hleads z hz)
        rwa [List.append_assoc, ← List.append_assoc w] at hbehind
  | unreadable hdeliv hfail =>
      obtain ⟨ds, hds, -⟩ := htook.drawn
      exact .unreadable (hds.append hdeliv) hfail

/-- What was taken before counts toward the word, and its brackets are closed. -/
theorem of_nested (htook : p.Took w p') (hnested : Nested w)
    (h : Outcome s m (C.after (w.map Token.terminal)) p' o) : Outcome s m C p o :=
  of_took htook (.of_nested hnested) h

end Outcome

namespace Rule

variable {α β : Type} {C : Contract α} {D : Contract β} {r : Rule α} {k : Nat}
  {a : List Token} {t : Token} {s : Option Token} {m : Nat}

/-- `r` meets `C` on every parser with these tokens ahead that can take at most `k`, and closes `s` if a
bracket is left open before it. -/
def ReadsAt (m : Nat) (a : List Token) (k : Nat) (r : Rule α) (C : Contract α)
    (s : Option Token := none) : Prop :=
  ∀ p : Parser, p.ahead = a → p.Within k → Outcome s m C p (r p)

/-- The same on every parser with at most `m + 1` tokens ahead. -/
def Reads (m k : Nat) (r : Rule α) (C : Contract α) (s : Option Token := none) : Prop :=
  ∀ a : List Token, a.length ≤ m + 1 → ReadsAt m a k r C s

theorem ReadsAt.mono_of {C' : Contract α} (h : ReadsAt m a k r C s)
    (hlate : ∀ u, C.late u → C'.late u) (hreads : ∀ w b, C.reads w b → C'.reads w b) :
    ReadsAt m a k r C' s :=
  fun p hp hk => (h p hp hk).mono hreads hlate

theorem ReadsAt.mono {C' : Contract α} [C.Prompt] (h : ReadsAt m a k r C s)
    (hreads : ∀ w b, C.reads w b → C'.reads w b) : ReadsAt m a k r C' s :=
  h.mono_of (fun u hu => absurd hu (Contract.Prompt.not_late u)) hreads

theorem Reads.mono_of {C' : Contract α} (h : Reads m k r C s)
    (hlate : ∀ u, C.late u → C'.late u) (hreads : ∀ w b, C.reads w b → C'.reads w b) :
    Reads m k r C' s :=
  fun a ha => (h a ha).mono_of hlate hreads

theorem Reads.mono {C' : Contract α} [C.Prompt] (h : Reads m k r C s)
    (hreads : ∀ w b, C.reads w b → C'.reads w b) : Reads m k r C' s :=
  fun a ha => (h a ha).mono hreads

theorem Reads.of_le {j : Nat} (h : Reads m k r C s) (hle : j ≤ k) : Reads m j r C s :=
  fun a ha p hp hj => h a ha p hp (hj.mono hle)

/-- With a token in front. -/
theorem Reads.at_cons (h : Reads m k r C s) (ha : a.length ≤ m) : ReadsAt m (t :: a) k r C s :=
  h (t :: a) (Nat.succ_le_succ ha)

/-- After the token in front has been taken. -/
theorem Reads.at_tail (h : Reads m k r C s) (ha : a.length ≤ m) : ReadsAt m a k r C s :=
  h a (Nat.le_succ_of_le ha)

/-! ## A contract that is met has words -/

/-- A parser whose source is empty, with the end mark looked at. -/
def idle : Parser :=
  { reader := Reader.new [] "", ahead := [{ lexeme := .endOfStream none }] }

theorem idle_delivers {ds : List Token} {r : Reader} (h : idle.reader.Delivers ds r) :
    r = idle.reader := by
  generalize hr : idle.reader = r₀ at h
  induction h with
  | nil => rfl
  | cons hnext _ ih =>
      subst hr
      rw [Reader.next_of_rest_nil rfl] at hnext
      obtain ⟨-, rfl⟩ := by simpa using hnext
      exact ih rfl

/-- Nothing can be taken where the end mark is in front. -/
theorem idle_took {w v rest : List Token} {p : Parser} (h : idle.Took w p)
    (hahead : p.ahead = v ++ rest) (hv : ∀ t ∈ v, t.atEnd = false) : w ++ v = [] := by
  obtain ⟨ds, -, heq⟩ := h.drawn
  match hwv : w ++ v with
  | [] => rfl
  | t :: ts =>
      have hlive : t.atEnd = false := by
        have hmem : t ∈ w ++ v := by simp [hwv]
        exact (List.mem_append.mp hmem).elim (h.live t) (hv t)
      rw [hahead, ← List.append_assoc, hwv] at heq
      obtain ⟨rfl, -⟩ := by simpa [idle] using heq
      simp [Token.atEnd, Token.kind, Lexeme.kind] at hlive

theorem idle_took_nil {w : List Token} {p : Parser} (h : idle.Took w p) : w = [] := by
  simpa using idle_took (v := []) h rfl (by simp)

/-- On an idle parser a rule ends without taking a token, and each way to end shows a word. -/
theorem Reads.viable (h : Reads m k r C s) : C.Viable [] := by
  have hidle : idle.Within k := by
    intro w p htook
    rw [idle_took_nil htook]
    exact Nat.zero_le k
  have ho := h idle.ahead (by simp [idle]) idle rfl hidle
  generalize r idle = o at ho
  cases ho with
  | @ok b p' w htook _ hword =>
      obtain rfl := idle_took_nil htook
      exact ⟨[], b, by simpa using hword⟩
  | stuck htook hahead hlive _ hviable _ =>
      rw [idle_took htook hahead hlive] at hviable
      exact hviable
  | unreadable hdeliv hfail =>
      obtain rfl := idle_delivers hdeliv
      rw [Reader.next_of_rest_nil rfl] at hfail
      simp at hfail

/-! ## Sequence -/

theorem ReadsAt.bind_viable {f : β → Rule α} {x : Rule β} (hx : ReadsAt m a k x D)
    (hlate : ∀ u, D.late u → C.late u) (hviable : ∀ w b, D.reads w b → C.Viable w)
    (hf : ∀ w b j, D.reads w b → j + w.length ≤ k → Reads m j (f b) (C.after w) s) :
    ReadsAt m a k (x >>= f) C s := by
  intro p hp hk
  have ho := hx p hp hk
  generalize hrun : x p = o at ho
  cases ho with
  | @ok b p' w htook hshort hword hleads =>
      rw [bind_ok hrun]
      refine .of_nested htook hleads.nested
        (hf _ b (k - w.length) hword ?_ p'.ahead hshort p' rfl (hk.after htook))
      have hlen := hk w p' htook
      rw [List.length_map]
      omega
  | @stuck e found p' w v rest htook hahead hlive hfound hopen hrest hnames =>
      rw [bind_error hrun]
      refine .stuck htook hahead hlive hfound ?_
        (hrest.imp_right fun ⟨hone, hvoid, hu⟩ => ⟨hone, hvoid, hlate _ hu⟩) ?_
      · obtain ⟨c, b, hword⟩ := hopen
        obtain ⟨c', a', hword'⟩ := hviable _ b hword
        exact ⟨c ++ c', a', by rw [← List.append_assoc]; exact hword'⟩
      · -- Whatever is still open was opened by `x` itself.
        intro z _
        have hown : e.NamesInnermost (w ++ v) := hnames [] (.nested .nil)
        exact hown.behind z
  | unreadable hdeliv hfail =>
      rw [bind_error hrun]
      exact .unreadable hdeliv hfail

theorem ReadsAt.bind_of {f : β → Rule α} {x : Rule β} (hx : ReadsAt m a k x D)
    (hlate : ∀ u, D.late u → C.late u)
    (hf : ∀ w b, D.reads w b → Reads m (k - w.length) (f b) (C.after w) s) :
    ReadsAt m a k (x >>= f) C s := by
  refine hx.bind_viable hlate ?_ ?_
  · intro w b hword
    obtain ⟨c, a', hword'⟩ := (hf w b hword).viable
    exact ⟨c, a', hword'⟩
  · intro w b j hword hj
    exact (hf w b hword).of_le (by omega)

theorem ReadsAt.bind [D.Prompt] {f : β → Rule α} {x : Rule β} (hx : ReadsAt m a k x D)
    (hf : ∀ w b, D.reads w b → Reads m (k - w.length) (f b) (C.after w) s) :
    ReadsAt m a k (x >>= f) C s :=
  hx.bind_of (fun u hu => absurd hu (Contract.Prompt.not_late u)) hf

theorem Reads.bind [D.Prompt] {f : β → Rule α} {x : Rule β} (hx : Reads m k x D)
    (hf : ∀ w b, D.reads w b → Reads m (k - w.length) (f b) (C.after w) s) :
    Reads m k (x >>= f) C s :=
  fun a ha => (hx a ha).bind hf

/-- Sequence after a fixed word. -/
theorem Reads.word_bind {f : β → Rule α} {x : Rule β} {w : List Terminal}
    (hx : Reads m k x (.word w)) (hf : ∀ b, Reads m (k - w.length) (f b) (C.after w) s) :
    Reads m k (x >>= f) C s :=
  hx.bind fun _ b hword => by
    obtain rfl := hword
    exact hf b

/-- Sequence after a word of a symbol. -/
theorem Reads.symbol_bind {f : β → Rule α} {x : Rule β} {sym : Symbol}
    (hx : Reads m k x (.symbol sym))
    (hf : ∀ w b, Derives sym w → Reads m (k - w.length) (f b) (C.after w) s) :
    Reads m k (x >>= f) C s :=
  hx.bind hf

/-! ## Single steps -/

/-- A rule may end where no bracket is left to be closed. -/
theorem reads_pure {b : α} (h : C.reads [] b) : Reads m k (pure b) C :=
  fun _ ha p hp _ => .ok (Parser.Took.refl p) (by rw [hp]; exact ha) h .nil

theorem readsAt_note_bind {e : Event} {f : Unit → Rule α} (h : ReadsAt m a k (f ()) C s) :
    ReadsAt m a k (note e >>= f) C s := by
  intro p hp hk
  have htook := took_of_note p e
  exact .of_nested htook .nil (h { p with journal := e :: p.journal } hp (hk.after htook))

theorem readsAt_peek_bind {f : Token → Rule α} (h : ReadsAt m (t :: a) k (f t) C s) :
    ReadsAt m (t :: a) k (peek >>= f) C s := by
  intro p hp hk
  rw [bind_ok (peek_of_ahead hp)]
  exact h p hp hk

/-- Looking where a token has to be drawn for it. -/
theorem readsAt_draw_bind {x : Rule Token} {f : Token → Rule α}
    (hx : ∀ p : Parser, p.ahead = a → x p = draw p)
    (h : ∀ t, ReadsAt m (a ++ [t]) k (f t) C s) : ReadsAt m a k (x >>= f) C s := by
  intro p hp hk
  rcases hnext : p.reader.next with ⟨answer, r⟩
  cases answer with
  | ok t =>
      obtain ⟨p', hrun, hahead, hreader⟩ := draw_ok hnext
      have htook := took_of_draw hnext hahead hreader
      rw [bind_ok ((hx p hp).trans hrun)]
      exact .of_nested htook .nil (h t p' (by rw [hahead, hp]) (hk.after htook))
  | error e =>
      obtain ⟨p', hrun⟩ := draw_error hnext
      rw [bind_error ((hx p hp).trans hrun)]
      exact .unreadable (.nil _) hnext

/-- Looking at the token in front: whichever it is, the rest has it in front. -/
theorem reads_peek_bind {f : Token → Rule α}
    (h : ∀ t a, a.length ≤ m → ReadsAt m (t :: a) k (f t) C s) : Reads m k (peek >>= f) C s := by
  intro a ha
  cases a with
  | nil => exact readsAt_draw_bind (fun _ => peek_of_nil) fun t => h t [] (Nat.zero_le m)
  | cons t a => exact readsAt_peek_bind (h t a (Nat.le_of_succ_le_succ ha))

/-- Looking at the second token. -/
theorem readsAt_peekSecond_bind {f : Token → Rule α} (ha : a.length ≤ m)
    (h : ∀ u b, b.length ≤ m → ReadsAt m (t :: u :: b) k (f u) C s) :
    ReadsAt m (t :: a) k (peekSecond >>= f) C s := by
  cases a with
  | nil => exact readsAt_draw_bind (fun _ => peekSecond_of_single) fun u => h u [] (Nat.zero_le m)
  | cons u a =>
      intro p hp hk
      rw [bind_ok (peekSecond_of_ahead hp)]
      exact h u a (Nat.le_of_succ_le ha) p hp hk

/-- Taking a token leaves one token less, and may open or close a bracket. -/
theorem readsAt_take_leads {f : Token → Rule α} {s' : Option Token} (hlive : t.atEnd = false)
    (hleads : Leads s [t] s')
    (h : ∀ j, k = j + 1 → ReadsAt m a j (f t) (C.after [t.terminal]) s') :
    ReadsAt m (t :: a) k (take >>= f) C s := by
  intro p hp hk
  have htook := took_of_take hp hlive
  obtain ⟨j, rfl⟩ : ∃ j, k = j + 1 := ⟨k - 1, by have := hk _ _ htook; simp at this; omega⟩
  rw [bind_ok (take_of_ahead hp)]
  exact .of_took htook hleads (h j rfl _ rfl (hk.after htook))

theorem readsAt_take_bind {f : Token → Rule α} {c : Terminal} (ht : t.terminal = c)
    (hc : c.isPlain = true) (h : ∀ j, k = j + 1 → ReadsAt m a j (f t) (C.after [c]) s) :
    ReadsAt m (t :: a) k (take >>= f) C s := by
  subst ht
  exact readsAt_take_leads (Token.live_of_isPlain hc) (.plain (Token.not_bracket_of_isPlain hc)) h

/-- An opening bracket is to be closed from then on. -/
theorem readsAt_open_bind {f : Token → Rule α} {b r : Bracket} (ht : t.lexeme = .bracket b)
    (hb : b.closing? = some r)
    (h : ∀ j, k = j + 1 → t.closing? = some r →
      ReadsAt m a j (f t) (C.after [.bracket b]) (some t)) :
    ReadsAt m (t :: a) k (take >>= f) C := by
  have hterm : t.terminal = .bracket b := congrArg Lexeme.terminal ht
  have hclosing : t.closing? = some r := (Token.closing?_of_lexeme ht).trans hb
  refine readsAt_take_leads (Token.live hterm rfl) (.opened t) fun j hj => ?_
  rw [hterm]
  exact h j hj hclosing

theorem readsAt_takeLeaf_bind {f : Node → Rule α} {c : Terminal} (ht : t.terminal = c)
    (hc : c.isPlain = true) (h : ∀ j, k = j + 1 → ReadsAt m a j (f (.leaf t)) (C.after [c]) s) :
    ReadsAt m (t :: a) k (takeLeaf >>= f) C s := by
  simp only [takeLeaf, bind_assoc, pure_bind]
  exact readsAt_take_bind ht hc h

theorem readsAt_takeLeaf {C : Contract Node} {c : Terminal} (ht : t.terminal = c)
    (hc : c.isPlain = true) (ha : a.length ≤ m + 1) (h : C.reads [c] (.leaf t)) :
    ReadsAt m (t :: a) k takeLeaf C := by
  refine readsAt_take_bind ht hc fun j _ => ?_
  exact reads_pure (C := C.after [c]) h a ha

/-! ## Refusing -/

theorem readsAt_refuse {expected : Expectation} (ha : a.length ≤ m) (h : C.Viable []) :
    ReadsAt m (t :: a) k (refuse expected t) C s := by
  intro p hp _
  exact .stuck (Parser.Took.refl p) (v := []) hp (by simp) rfl h (.inl ha) fun _ _ => trivial

/-- The second token is refused: the first one counts as read. -/
theorem readsAt_refuse_second {u : Token} {expected : Expectation} (hlive : t.atEnd = false)
    (ha : a.length ≤ m) (h : C.Viable [t.terminal]) :
    ReadsAt m (t :: u :: a) k (refuse expected u) C s := by
  intro p hp _
  exact .stuck (Parser.Took.refl p) (v := [t]) hp (by simpa using hlive) rfl h (.inl ha)
    fun _ _ => trivial

/-- Expecting a token of one terminal. -/
theorem reads_expect {fits : Lexeme → Bool} {expected : Expectation} {c : Terminal}
    (hfits : ∀ l, fits l = true → l.terminal = c) (hc : c.isPlain = true) :
    Reads m k (expect fits expected) (.word [c]) := by
  refine reads_peek_bind fun t a ha => ?_
  by_cases h : fits t.lexeme = true
  · rw [if_pos h, ← bind_pure take]
    refine readsAt_take_bind (hfits _ h) hc fun j _ => (reads_pure ?_).at_tail ha
    rfl
  · rw [if_neg h]
    refine readsAt_refuse ha ⟨[c], t, ?_⟩
    rfl

/-- Expecting one lexeme and no other. -/
theorem reads_expect_eq {l : Lexeme} {expected : Expectation} (hl : l.terminal.isPlain = true) :
    Reads m k (expect (· == l) expected) (.word [l.terminal]) :=
  reads_expect (fun l' hl' => by rw [eq_of_beq hl']) hl

/-- Expecting a token that is known to be in front. -/
theorem readsAt_expect {fits : Lexeme → Bool} {expected : Expectation} {f : Token → Rule α}
    (hfits : fits t.lexeme = true) (h : ReadsAt m (t :: a) k (take >>= f) C s) :
    ReadsAt m (t :: a) k (expect fits expected >>= f) C s := by
  rw [expect, bind_assoc]
  refine readsAt_peek_bind ?_
  rw [if_pos hfits]
  exact h

theorem reads_expectSemicolon : Reads m k expectSemicolon (.word [.semicolon]) :=
  reads_expect (fun _ hl => Lexeme.terminal_of_kind (eq_of_beq hl) (by decide)) rfl

theorem reads_expectIdentifier {expected : Expectation} :
    Reads m k (expectIdentifier expected) (.word [.identifier]) := by
  refine (reads_expect (c := .identifier) ?_ rfl).word_bind fun t => reads_pure ?_
  · intro l hl
    exact Lexeme.terminal_of_kind (eq_of_beq hl) (by decide)
  · rfl

/-! ## Brackets -/

/-- An opening bracket that is expected is to be closed from then on. -/
theorem reads_open_bind {f : Token → Rule α} {b r : Bracket} (hb : b.closing? = some r)
    (h : ∀ opening : Token, opening.closing? = some r →
      Reads m (k - 1) (f opening) (C.after [.bracket b]) (some opening)) :
    Reads m k (expectBracket b >>= f) C := by
  intro a ha
  rw [expectBracket, expect, bind_assoc]
  refine reads_peek_bind (fun t a ha => ?_) a ha
  by_cases ht : (t.lexeme == .bracket b) = true
  · rw [if_pos ht]
    refine readsAt_open_bind (eq_of_beq ht) hb fun j hj hopen => ?_
    exact ((h t hopen).of_le (by omega)).at_tail ha
  · rw [if_neg ht]
    -- The bracket could stand here, and behind it any word of what follows.
    have hopening : ({ lexeme := .bracket b } : Token).closing? = some r := hb
    obtain ⟨c, e, hword⟩ := (h _ hopening).viable
    have hrefuse : ReadsAt m (t :: a) k (refuse (.bracket b) t) C :=
      readsAt_refuse ha ⟨.bracket b :: c, e, hword⟩
    exact hrefuse

/-- The bracket that was opened is closed, or named as the innermost open one. -/
theorem reads_close_bind {f : Unit → Rule α} {r : Bracket} {opening : Token}
    (hopen : opening.closing? = some r)
    (h : Reads m (k - 1) (f ()) (C.after [.bracket r])) :
    Reads m k (close r opening >>= f) C (some opening) := by
  rw [close, bind_assoc]
  refine reads_peek_bind fun t a ha => ?_
  by_cases ht : t.isBracket r = true
  · have hlexeme : t.lexeme = .bracket r := eq_of_beq ht
    have hterm : t.terminal = .bracket r := congrArg Lexeme.terminal hlexeme
    rw [if_pos ht, bind_assoc]
    refine readsAt_take_leads (Token.live hterm rfl) (.closed hopen hlexeme) fun j hj => ?_
    rw [hterm]
    exact (h.of_le (by omega)).at_tail ha
  · rw [if_neg ht]
    intro p hp _
    obtain ⟨c, e, hword⟩ := h.viable
    refine .stuck (Parser.Took.refl p) (v := []) hp (by simp) rfl ⟨.bracket r :: c, e, hword⟩
      (.inl ha) ?_
    intro z hz
    -- All brackets between `opening` and here are closed, which makes it the innermost open one.
    cases hz with
    | @one z v _ hbefore hbetween =>
        refine ⟨z, v, r, List.append_nil _, hbetween, hopen, rfl, ?_⟩
        intro hlexeme
        exact ht (beq_of_eq hlexeme)

/-! ## Loops -/

/-- One round of a loop: either `more` holds and a word of `L` is read before the rest of the loop,
or the loop stops here. -/
def ReadsRound (m k : Nat) (more : Rule Bool) (item : Rule (List Node)) (L : List Terminal → Prop)
    (late : List Terminal → Prop := fun _ => False) : Prop :=
  ∀ (C : Contract (List Node)) (next : List Node → Rule (List Node)) (stop : List Node),
    (∀ w, L w → C.Viable w) → (∀ u, late u → C.late u) →
    (∀ w nodes j, L w → nodes ≠ [] → j + w.length ≤ k → Reads m j (next nodes) (C.after w)) →
    C.reads [] stop →
    Reads m k (more >>= fun b => if b = true then item >>= next else pure stop) C

section Loops

variable {more : Rule Bool} {item : Rule (List Node)} {L late : List Terminal → Prop} {n : Nat}

theorem readsRound_peek {test : Token → Bool}
    (hitem : ∀ t a, a.length ≤ m → test t = true → ReadsAt m (t :: a) k item (.once L late)) :
    ReadsRound m k (peek >>= fun t => pure (test t)) item L late := by
  intro C next stop hviable hlate hnext hstop
  simp only [bind_assoc, pure_bind]
  refine reads_peek_bind fun t a ha => ?_
  by_cases h : test t = true
  · rw [if_pos h]
    refine (hitem t a ha h).bind_viable hlate (fun w _ hw => hviable w hw.1) ?_
    exact fun w nodes j hw hj => hnext w nodes j hw.1 hw.2 hj
  · rw [if_neg h]
    exact (reads_pure hstop).at_cons ha

/-- A comma asks for another item and is read before it. -/
theorem readsRound_comma (hitem : Reads m k item (.once L)) :
    ReadsRound m k takeComma item fun w => ∃ v, L v ∧ w = .comma :: v := by
  intro C next stop hviable hlate hnext hstop
  simp only [takeComma, bind_assoc]
  refine reads_peek_bind fun t a ha => ?_
  by_cases h : (t.kind == .comma) = true
  · have ht : t.terminal = .comma := Token.terminal_of_kind h (by decide)
    have hcomma : ReadsAt m (t :: a) k (take >>= fun _ => item)
        (.once fun w => ∃ v, L v ∧ w = .comma :: v) := by
      refine readsAt_take_bind ht rfl fun j hj => ?_
      refine ((hitem.of_le (by omega)).mono ?_).at_tail ha
      rintro w nodes ⟨hw, hne⟩
      exact ⟨⟨w, hw, rfl⟩, hne⟩
    simp only [h, if_true, bind_assoc, pure_bind]
    rw [← bind_assoc]
    refine hcomma.bind_viable hlate (fun w _ hw => hviable w hw.1) ?_
    exact fun w nodes j hw hj => hnext w nodes j hw.1 hw.2 hj
  · simp only [h, Bool.false_eq_true, if_false, pure_bind]
    exact (reads_pure hstop).at_cons ha

theorem reads_repeatOnto (hpos : ∀ w, L w → w ≠ [])
    (hround : ∀ j ≤ k, ReadsRound m j more item L late)
    (hlate : ∀ w v, L w → late v → late (w ++ v)) (seen : List Node) (hk : k < n) :
    Reads m k (repeatOnto more item n seen) (.many L seen late) := by
  induction n generalizing k seen with
  | zero => omega
  | succ n ih =>
      refine hround k (Nat.le_refl k) _ _ _ ?_ (fun _ hu => hu) ?_ ?_
      · intro w hw
        refine ⟨[], [.branch .empty []], ?_, by simp⟩
        exact Many.cons hw Many.nil
      · intro w nodes j hw hne hj
        have hlen : 0 < w.length := List.length_pos_iff.mpr (hpos w hw)
        refine (ih (k := j) (fun i hi => hround i (by omega)) (nodes.reverse ++ seen)
          (by omega)).mono_of (fun v hv => hlate w v hw hv) ?_
        rintro v nodes' ⟨hmany, hnil⟩
        refine ⟨hmany.cons hw, fun h => ?_⟩
        have hseen := (hnil h).1
        simp only [List.append_eq_nil_iff, List.reverse_eq_nil_iff] at hseen
        exact absurd hseen.1 hne
      · exact ⟨Many.nil, fun h => ⟨by simpa using h, rfl⟩⟩

theorem reads_repeatWhile (hpos : ∀ w, L w → w ≠ [])
    (hround : ∀ j ≤ k, ReadsRound m j more item L late)
    (hlate : ∀ w v, L w → late v → late (w ++ v)) (hk : k < n) :
    Reads m k (repeatWhile more item n) (.many L [] late) :=
  reads_repeatOnto hpos hround hlate [] hk

/-- A rule for one node, as an item of a loop. -/
theorem ReadsAt.once {r : Rule Node} (h : ReadsAt m a k r { reads := fun w _ => L w, late }) :
    ReadsAt m a k (r >>= fun n => pure [n]) (.once L late) := by
  refine h.bind_of (fun _ hu => hu) fun w n hw => reads_pure ?_
  simpa [Contract.after, Contract.once] using hw

end Loops

end Rule

end MiniC
