/-
# MiniC.Proofs.Mirror — readers that answer alike to the end of their sources.

A `Mirror` relates readers so that their next answers correspond and the readers after them are
related again.  Then all that the two deliver corresponds, up to the end mark or the first error, and
so does every run of a rule on the two streams: `Alike.mirrors`.  A run may look at a token before or
after its double does, so parsers are related by the tokens that rules have yet to see, not by what
has been drawn.
-/
import MiniC.Proofs.Laziness

namespace MiniC

namespace Likeness

/-! ## Answers -/

/-- Answers that correspond, and so do the readers behind them. -/
inductive Answers (L : Likeness) (errors : SyntaxError → SyntaxError → Prop)
    (readers : Reader → Reader → Prop) :
    Except SyntaxError Token × Reader → Except SyntaxError Token × Reader → Prop
  | ok {t t' : Token} {r r' : Reader} :
      L.tokens t t' → readers r r' → Answers L errors readers (.ok t, r) (.ok t', r')
  | error {e e' : SyntaxError} {r r' : Reader} :
      errors e e' → Answers L errors readers (.error e, r) (.error e', r')

/-- A relation between readers that every answer keeps. -/
structure Mirror (L : Likeness) where
  readers : Reader → Reader → Prop
  errors : SyntaxError → SyntaxError → Prop
  next : ∀ {r r' : Reader}, readers r r' → L.Answers errors readers r.next r'.next

namespace Mirror

variable {L : Likeness} {M : L.Mirror} {r r' r₁ r₁' : Reader} {t t' mark : Token}
  {ts us : List Token} {e : SyntaxError}

theorem next_ok (h : M.readers r r') (hnext : r.next = (.ok t, r₁)) :
    ∃ t' r₁', r'.next = (.ok t', r₁') ∧ L.tokens t t' ∧ M.readers r₁ r₁' := by
  have hstep := M.next h
  rw [hnext] at hstep
  generalize r'.next = answer at hstep ⊢
  cases hstep with
  | ok ht hr => exact ⟨_, _, rfl, ht, hr⟩

theorem next_ok_back (h : M.readers r r') (hnext : r'.next = (.ok t', r₁')) :
    ∃ t r₁, r.next = (.ok t, r₁) ∧ L.tokens t t' ∧ M.readers r₁ r₁' := by
  have hstep := M.next h
  rw [hnext] at hstep
  generalize r.next = answer at hstep ⊢
  cases hstep with
  | ok ht hr => exact ⟨_, _, rfl, ht, hr⟩

theorem next_error (h : M.readers r r') (hnext : r.next = (.error e, r₁)) :
    ∃ e' r₁', r'.next = (.error e', r₁') ∧ M.errors e e' := by
  have hstep := M.next h
  rw [hnext] at hstep
  generalize r'.next = answer at hstep ⊢
  cases hstep with
  | error he => exact ⟨_, _, rfl, he⟩

/-! ## Deliveries -/

theorem delivers (h : M.readers r r') (hdeliv : r.Delivers ts r₁) :
    ∃ ts' r₁', r'.Delivers ts' r₁' ∧ List.Forall₂ L.tokens ts ts' ∧ M.readers r₁ r₁' := by
  induction hdeliv generalizing r' with
  | nil => exact ⟨[], r', .nil r', .nil, h⟩
  | cons hnext _ ih =>
      obtain ⟨t', q, hnext', ht, hq⟩ := next_ok h hnext
      obtain ⟨ts', r₁', hdeliv', hts, hr⟩ := ih hq
      exact ⟨t' :: ts', r₁', .cons hnext' hdeliv', .cons ht hts, hr⟩

theorem delivers_back (h : M.readers r r') (hdeliv : r'.Delivers us r₁') :
    ∃ ts r₁, r.Delivers ts r₁ ∧ List.Forall₂ L.tokens ts us ∧ M.readers r₁ r₁' := by
  induction hdeliv generalizing r with
  | nil => exact ⟨[], r, .nil r, .nil, h⟩
  | cons hnext' _ ih =>
      obtain ⟨t, q, hnext, ht, hq⟩ := next_ok_back h hnext'
      obtain ⟨ts, r₁, hdeliv, hts, hr⟩ := ih hq
      exact ⟨t :: ts, r₁, .cons hnext hdeliv, .cons ht hts, hr⟩

theorem live_of_like (h : List.Forall₂ L.tokens ts us) (hlive : ∀ t ∈ ts, t.atEnd = false) :
    ∀ u ∈ us, u.atEnd = false := by
  induction h with
  | nil => simp
  | cons ht _ ih =>
      rw [List.forall_mem_cons] at hlive ⊢
      exact ⟨(atEnd_eq ht).symm.trans hlive.1, ih hlive.2⟩

theorem holds (h : M.readers r r') (hholds : r.Holds ts mark) :
    ∃ ts' mark', r'.Holds ts' mark' ∧ List.Forall₂ L.tokens ts ts' ∧ L.tokens mark mark' := by
  obtain ⟨r₁, hdeliv⟩ := hholds.delivers
  obtain ⟨r₂, hts, hmark⟩ := hdeliv.split
  obtain ⟨ts', r₂', hts', hlike, hr₂⟩ := delivers h hts
  cases hmark with
  | cons hnext _ =>
      obtain ⟨mark', r₁', hnext', hlast, -⟩ := next_ok hr₂ hnext
      have hend : mark'.atEnd = true := (atEnd_eq hlast).symm.trans hholds.atEnd
      exact ⟨ts', mark', ⟨⟨r₁', hts'.append (.single hnext')⟩, live_of_like hlike hholds.live, hend⟩,
        hlike, hlast⟩

theorem fails (h : M.readers r r') (hfails : r.Fails ts e) :
    ∃ ts' e', r'.Fails ts' e' ∧ List.Forall₂ L.tokens ts ts' ∧ M.errors e e' := by
  obtain ⟨r₁, r₂, hdeliv, hnext⟩ := hfails.delivers
  obtain ⟨ts', r₁', hdeliv', hlike, hr₁⟩ := delivers h hdeliv
  obtain ⟨e', r₂', hnext', he⟩ := next_error hr₁ hnext
  exact ⟨ts', e', ⟨⟨r₁', r₂', hdeliv', hnext'⟩, live_of_like hlike hfails.live⟩, hlike, he⟩

/-- Readers that are related once each has given some tokens, and these correspond. -/
def later (M : L.Mirror) : L.Mirror where
  readers r r' := ∃ ts us r₁ r₁', r.Delivers ts r₁ ∧ r'.Delivers us r₁' ∧
    List.Forall₂ L.tokens ts us ∧ M.readers r₁ r₁'
  errors := M.errors
  next := by
    rintro r r' ⟨ts, us, r₁, r₁', hts, hus, hlike, hr⟩
    cases hlike with
    | nil =>
        cases hts
        cases hus
        have hstep := M.next hr
        generalize r.next = answer at hstep ⊢
        generalize r'.next = answer' at hstep ⊢
        cases hstep with
        | ok ht hafter => exact .ok ht ⟨[], [], _, _, .nil _, .nil _, .nil, hafter⟩
        | error he => exact .error he
    | cons ht hlike =>
        cases hts with
        | cons hnext hts =>
            cases hus with
            | cons hnext' hus =>
                rw [hnext, hnext']
                exact .ok ht ⟨_, _, r₁, r₁', hts, hus, hlike, hr⟩

/-! ## Runs -/

variable (M) in
/-- What rules have yet to see of `p` corresponds to what they have yet to see of `q`, and `q` may
have drawn more of it. -/
def Trails (p q : Parser) : Prop :=
  ∃ ds r, p.reader.Delivers ds r ∧ List.Forall₂ L.tokens (p.ahead ++ ds) q.ahead ∧
    M.readers r q.reader

variable (M) in
/-- Two runs ended alike.  Nothing is said where the budget of the first ran out. -/
inductive Ends {α β : Type} (R : α → β → Prop) :
    EStateM.Result Failure Parser α → EStateM.Result Failure Parser β → Prop
  | ok {a : α} {b : β} {p q : Parser} : R a b → M.Trails p q → Ends R (.ok a p) (.ok b q)
  | refused {e e' : SyntaxError} {p q : Parser} :
      L.OfError e e' → Ends R (.error (.refused e) p) (.error (.refused e') q)
  | unreadable {e e' : SyntaxError} {p q : Parser} :
      M.errors e e' → Ends R (.error (.refused e) p) (.error (.refused e') q)
  | exhausted {p : Parser} {result : EStateM.Result Failure Parser β} :
      Ends R (.error .exhausted p) result

variable (M) in
/-- From states that correspond the two rules end alike. -/
def Mirrors {α β : Type} (R : α → β → Prop) (x : Rule α) (y : Rule β) : Prop :=
  ∀ p q, M.Trails p q → M.Ends R (x p) (y q)

variable {α β : Type} {R : α → β → Prop} {p q : Parser}

theorem Ends.bind {γ δ : Type} {S : γ → δ → Prop} {x : Rule γ} {y : Rule δ} {f : γ → Rule α}
    {g : δ → Rule β} (h : M.Ends S (x p) (y q))
    (hrest : ∀ c d p' q', x p = .ok c p' → y q = .ok d q' → S c d → M.Trails p' q' →
      M.Ends R (f c p') (g d q')) : M.Ends R ((x >>= f) p) ((y >>= g) q) := by
  generalize hx : x p = result at h
  generalize hy : y q = result' at h
  cases h with
  | ok hcd htrails =>
      rw [Rule.bind_ok hx, Rule.bind_ok hy]
      exact hrest _ _ _ _ hx hy hcd htrails
  | refused he =>
      rw [Rule.bind_error hx, Rule.bind_error hy]
      exact .refused he
  | unreadable he =>
      rw [Rule.bind_error hx, Rule.bind_error hy]
      exact .unreadable he
  | exhausted =>
      rw [Rule.bind_error hx]
      exact .exhausted

theorem ends_draw (hahead : L.OfAhead p q) (hreader : M.readers p.reader q.reader) :
    M.Ends L.tokens (Rule.draw p) (Rule.draw q) := by
  rcases hnext : p.reader.next with ⟨answer, r⟩
  cases answer with
  | ok t =>
      obtain ⟨t', r', hnext', ht, hr⟩ := next_ok hreader hnext
      obtain ⟨p', hrun, hp, hpr⟩ := Rule.draw_ok hnext
      obtain ⟨q', hrun', hq, hqr⟩ := Rule.draw_ok hnext'
      rw [hrun, hrun']
      refine .ok ht ⟨[], p'.reader, .nil _, ?_, ?_⟩
      · rw [List.append_nil, hp, hq]
        exact List.rel_append hahead (.cons ht .nil)
      · rw [hpr, hqr]
        exact hr
  | error e =>
      obtain ⟨e', r', hnext', he⟩ := next_error hreader hnext
      obtain ⟨p', hrun⟩ := Rule.draw_error hnext
      obtain ⟨q', hrun'⟩ := Rule.draw_error hnext'
      rw [hrun, hrun']
      exact .unreadable he

/-- One parser draws what the other has drawn already. -/
theorem exists_draw {ds : List Token} {r : Reader} (hdeliv : p.reader.Delivers (t :: ds) r)
    (hlike : List.Forall₂ L.tokens (p.ahead ++ t :: ds) q.ahead) (hr : M.readers r q.reader) :
    ∃ p', Rule.draw p = .ok t p' ∧ p'.ahead = p.ahead ++ [t] ∧ M.Trails p' q := by
  cases hdeliv with
  | cons hnext hrest =>
      obtain ⟨p', hrun, hahead, hreader⟩ := Rule.draw_ok hnext
      refine ⟨p', hrun, hahead, ds, r, hreader ▸ hrest, ?_, hr⟩
      rw [hahead, List.append_assoc]
      exact hlike

theorem Trails.of_ahead_eq_nil (h : M.Trails p q) (hp : p.ahead = []) :
    M.Ends L.tokens (Rule.draw p) (Rule.peek q) := by
  obtain ⟨ds, r, hdeliv, hlike, hr⟩ := h
  cases ds with
  | nil =>
      cases hdeliv
      have hahead : L.OfAhead p q := by rwa [List.append_nil] at hlike
      have hq : q.ahead = [] := by
        rw [OfAhead, hp] at hahead
        exact List.forall₂_nil_left_iff.mp hahead
      rw [Rule.peek_of_nil hq]
      exact ends_draw hahead hr
  | cons t ds =>
      obtain ⟨p', hrun, -, htrails⟩ := exists_draw hdeliv hlike hr
      rw [hp] at hlike
      obtain ⟨t', a, ht, -, hq⟩ := List.forall₂_cons_left_iff.mp hlike
      rw [hrun, Rule.peek_of_ahead hq]
      exact .ok ht htrails

theorem mirrors_peek : M.Mirrors L.tokens Rule.peek Rule.peek := by
  intro p q h
  cases hp : p.ahead with
  | nil =>
      rw [Rule.peek_of_nil hp]
      exact h.of_ahead_eq_nil hp
  | cons t a =>
      obtain ⟨ds, r, hdeliv, hlike, hr⟩ := h
      have hfront := hlike
      rw [hp] at hfront
      obtain ⟨t', a', ht, -, hq⟩ := List.forall₂_cons_left_iff.mp hfront
      rw [Rule.peek_of_ahead hp, Rule.peek_of_ahead hq]
      exact .ok ht ⟨ds, r, hdeliv, hlike, hr⟩

/-- After a look both have a token in front. -/
theorem ends_peek_bind {f : Token → Rule α} {g : Token → Rule β} (h : M.Trails p q)
    (hrest : ∀ t t' a a' p q, L.tokens t t' → M.Trails p q → p.ahead = t :: a →
      q.ahead = t' :: a' → M.Ends R (f t p) (g t' q)) :
    M.Ends R ((Rule.peek >>= f) p) ((Rule.peek >>= g) q) := by
  apply (mirrors_peek p q h).bind
  intro t t' p' q' hp hq ht htrails
  obtain ⟨a, ha⟩ := Rule.ahead_of_peek hp
  obtain ⟨a', ha'⟩ := Rule.ahead_of_peek hq
  exact hrest t t' a a' p' q' ht htrails ha ha'

theorem mirrors_take : M.Mirrors L.tokens Rule.take Rule.take := by
  intro p q h
  refine ends_peek_bind h fun t t' a a' p q ht htrails hp hq => ?_
  obtain ⟨ds, r, hdeliv, hlike, hr⟩ := htrails
  refine .ok ht ⟨ds, r, hdeliv, ?_, hr⟩
  rw [hp, hq, List.cons_append, List.forall₂_cons] at hlike
  show List.Forall₂ L.tokens (p.ahead.tail ++ ds) q.ahead.tail
  rw [hp, hq]
  exact hlike.2

theorem mirrors_peekSecond : M.Mirrors L.tokens Rule.peekSecond Rule.peekSecond := by
  intro p q h
  refine ends_peek_bind h fun s s' a a' p q hs htrails hp hq => ?_
  obtain ⟨ds, r, hdeliv, hlike, hr⟩ := htrails
  have hboth := hlike
  rw [hp, hq, List.cons_append, List.forall₂_cons] at hboth
  rw [Rule.get_bind, Rule.get_bind, hp, hq]
  cases a with
  | cons t a =>
      obtain ⟨t', a', ht, -, rfl⟩ := List.forall₂_cons_left_iff.mp hboth.2
      exact .ok ht ⟨ds, r, hdeliv, hlike, hr⟩
  | nil =>
      cases ds with
      | nil =>
          obtain rfl := List.forall₂_nil_left_iff.mp hboth.2
          cases hdeliv
          rw [List.append_nil] at hlike
          exact ends_draw hlike hr
      | cons t ds =>
          -- The second parser has drawn this token; only the first one has to.
          obtain ⟨t', a', ht, -, rfl⟩ := List.forall₂_cons_left_iff.mp hboth.2
          obtain ⟨p', hrun, -, htrails⟩ := exists_draw hdeliv hlike hr
          show M.Ends L.tokens (Rule.draw p) _
          rw [hrun]
          exact .ok ht htrails

theorem Mirrors.look {x : Rule Token} {f : Token → Rule α} {g : Token → Rule β}
    (hx : M.Mirrors L.tokens x x) (hrest : ∀ t t', L.tokens t t' → M.Mirrors R (f t) (g t')) :
    M.Mirrors R (x >>= f) (x >>= g) := by
  intro p q h
  apply (hx p q h).bind
  intro t t' p' q' _ _ ht htrails
  exact hrest t t' ht p' q' htrails

end Mirror

/-- Rules that make the same moves end alike on streams that correspond to the end. -/
theorem Alike.mirrors {L : Likeness} {M : L.Mirror} {α β : Type} {R : α → β → Prop} {x : Rule α}
    {y : Rule β} (h : L.Alike R x y) : M.Mirrors R x y := by
  induction h with
  | pure hab => exact fun p q hpq => .ok hab hpq
  | look hlook _ ih =>
      cases hlook with
      | peek => exact Mirror.mirrors_peek.look ih
      | peekSecond => exact Mirror.mirrors_peekSecond.look ih
      | take => exact Mirror.mirrors_take.look ih
  | @note e e' _ _ _ _ ih =>
      intro p q hpq
      exact ih { p with journal := e :: p.journal } { q with journal := e' :: q.journal } hpq
  | refuse he => exact fun p q _ => .refused (he p q)
  | exhausted => exact fun p q _ => .exhausted

end Likeness

/-! ## Whole sources -/

/-- Both succeed or both fail, and what they give corresponds. -/
inductive Agree {ε α : Type} (E : ε → ε → Prop) (R : α → α → Prop) :
    Except ε α → Except ε α → Prop
  | ok {a b : α} : R a b → Agree E R (.ok a) (.ok b)
  | error {e e' : ε} : E e e' → Agree E R (.error e) (.error e')

theorem Agree.imp {ε α : Type} {E E' : ε → ε → Prop} {R R' : α → α → Prop} {x y : Except ε α}
    (h : Agree E R x y) (hE : ∀ e e', E e e' → E' e e') (hR : ∀ a b, R a b → R' a b) :
    Agree E' R' x y := by
  cases h with
  | ok hab => exact .ok (hR _ _ hab)
  | error he => exact .error (hE _ _ he)

/-- Failures to read that correspond, and refusals that do. -/
def Failure.Mirrored {L : Likeness} (M : L.Mirror) (f f' : Failure) : Prop :=
  ∃ e e', f = .refused e ∧ f' = .refused e' ∧ (M.errors e e' ∨ L.OfError e e')

namespace Options

variable {o : Options} {name : Option String} {source source' : Bytes} {L : Likeness} {M : L.Mirror}

theorem stream_of_mirror (h : M.readers (Reader.new source (o.fileName name))
    (Reader.new source' (o.fileName name))) :
    List.Forall₂ L.tokens (o.stream source name) (o.stream source' name) := by
  unfold Options.stream
  rcases (Reader.new source (o.fileName name)).drainOnto_spec [] with
    ⟨ts, mark, hholds, -, -⟩ | ⟨ts, e, hfails, -, -⟩
  · obtain ⟨ts', mark', hholds', hts, hmark⟩ := Likeness.Mirror.holds h hholds
    rw [hholds.stream_eq, hholds'.stream_eq]
    exact List.rel_append hts (.cons hmark .nil)
  · obtain ⟨ts', e', hfails', hts, -⟩ := Likeness.Mirror.fails h hfails
    rw [hfails.stream_eq, hfails'.stream_eq]
    exact hts

theorem tokenize_of_mirror (h : M.readers (Reader.new source (o.fileName name))
    (Reader.new source' (o.fileName name))) :
    Agree M.errors (List.Forall₂ L.tokens) (o.tokenize source name).1
      (o.tokenize source' name).1 := by
  rcases (Reader.new source (o.fileName name)).drainOnto_spec [] with
    ⟨ts, mark, hholds, -, -⟩ | ⟨ts, e, hfails, -, -⟩
  · obtain ⟨ts', mark', hholds', hts, hmark⟩ := Likeness.Mirror.holds h hholds
    rw [(o.tokenize_eq_ok_iff source name).mpr ⟨ts, mark, hholds, rfl⟩,
      (o.tokenize_eq_ok_iff source' name).mpr ⟨ts', mark', hholds', rfl⟩]
    exact .ok (List.rel_append hts (.cons hmark .nil))
  · obtain ⟨ts', e', hfails', -, he⟩ := Likeness.Mirror.fails h hfails
    rw [(o.tokenize_eq_error_iff source name).mpr ⟨ts, hfails⟩,
      (o.tokenize_eq_error_iff source' name).mpr ⟨ts', hfails'⟩]
    exact .error he

theorem parse_of_mirror (h : M.readers (Reader.new source (o.fileName name))
    (Reader.new source' (o.fileName name))) (hlen : source.length ≤ source'.length) :
    Agree (Failure.Mirrored M)
      (fun r r' => ∃ es es', r.tree = .ofItems r.file es ∧ r'.tree = .ofItems r'.file es' ∧
        L.OfNodes es es')
      (o.parse source name).1 (o.parse source' name).1 := by
  have htrails : M.Trails (o.start source name) (o.start source' name) :=
    ⟨[], _, .nil _, .nil, h⟩
  have hbudget : (o.start source name).budget ≤ (o.start source' name).budget :=
    Nat.add_le_add_right (Nat.add_le_add_left hlen 0) 2
  have hmoves : L.Alike L.OfNodes (Rule.items o.strict (o.start source name).budget)
      (Rule.items o.strict (o.start source' name).budget) := Rule.alike_items hbudget
  have hends := hmoves.mirrors _ _ htrails
  have hout := o.items_outcome source name
  generalize hrun : Rule.items o.strict (o.start source name).budget (o.start source name)
    = result at hends hout
  generalize hrun' : Rule.items o.strict (o.start source' name).budget (o.start source' name)
    = result' at hends
  cases hends with
  | ok hlike _ =>
      rw [o.parse_eq_ok source name hrun, o.parse_eq_ok source' name hrun']
      exact .ok ⟨_, _, rfl, rfl, hlike⟩
  | refused he =>
      rw [o.parse_of_error source name hrun, o.parse_of_error source' name hrun']
      exact .error ⟨_, _, rfl, rfl, .inr he⟩
  | unreadable he =>
      rw [o.parse_of_error source name hrun, o.parse_of_error source' name hrun']
      exact .error ⟨_, _, rfl, rfl, .inl he⟩
  | exhausted => cases hout

end Options

end MiniC
