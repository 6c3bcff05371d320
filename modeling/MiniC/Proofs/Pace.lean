/-
# MiniC.Proofs.Pace — how many tokens rules take, and why their budgets last.

`Parser.toCome` counts the tokens still to be taken, without the end mark.  Looking ahead leaves it as
it is and taking a token lowers it, so it measures what a parser has left to do.

With a budget above that number a rule reads a word or refuses a token, and with a lower one it does
the same unless it runs out.  So two budgets above it do as well as each other (`eq_of_reads`), and a
rule whose words are not empty takes a token whenever it succeeds (`takes_of_reads`), whatever its
budget.

A rule that recurs is a body that is given another rule.  `Agree k x y` says of two rules that they do
the same wherever fewer than `k` tokens are to come; each body takes a token before it uses what it is
given, so over rules that agree below the tokens to come it does the same.
-/
import MiniC.Proofs.Laziness
import MiniC.Proofs.Reading

namespace MiniC

/-! ## Tokens to come -/

namespace Reader

variable {r r' : Reader} {t : Token}

/-- How many tokens a reader still has to give. -/
def toCome (r : Reader) : Nat := (r.stream.map cost).sum

/-- A token read is one less to come, and the end of the source costs nothing. -/
theorem toCome_of_next (h : r.next = (.ok t, r')) : cost t + r'.toCome = r.toCome := by
  cases hend : t.atEnd with
  | false =>
      unfold toCome
      rw [stream_of_next h hend, List.map_cons, List.sum_cons]
  | true =>
      -- The end mark is all that is left, before and after.
      have hholds : r.Holds [] t := ⟨⟨r', .single h⟩, by simp, hend⟩
      have hagain : r'.Holds [] t := ⟨⟨r', .single (next_again h hend)⟩, by simp, hend⟩
      unfold toCome
      rw [hholds.stream_eq, hagain.stream_eq]
      simp [cost, hend]

theorem Delivers.toCome_eq {ds : List Token} (h : r.Delivers ds r') :
    (ds.map cost).sum + r'.toCome = r.toCome := by
  induction h with
  | nil => exact Nat.zero_add _
  | cons hnext _ ih => rw [List.map_cons, List.sum_cons, Nat.add_assoc, ih, toCome_of_next hnext]

/-- Every token has a byte. -/
theorem toCome_le (r : Reader) : r.toCome ≤ r.rest.length := by
  obtain ⟨⟨r', hdeliv⟩, -⟩ := r.delivers_stream
  exact Nat.le_trans (Nat.le_add_left _ _) hdeliv.rest_length_le

end Reader

namespace Parser

variable {p p' : Parser} {t : Token} {a : List Token}

/-- How many tokens are still to be taken, the end mark not counted. -/
def toCome (p : Parser) : Nat := (p.ahead.map Reader.cost).sum + p.reader.toCome

theorem toCome_le_left (p : Parser) : p.toCome ≤ p.left :=
  Nat.add_le_add_left p.reader.toCome_le _

/-- What is taken is no longer to come. -/
theorem Took.toCome_eq {w : List Token} (h : p.Took w p') : w.length + p'.toCome = p.toCome := by
  obtain ⟨ds, hds, heq⟩ := h.drawn
  have hcosts := congrArg (fun ts => (ts.map Reader.cost).sum) heq
  simp only [List.map_append, List.sum_append, sum_cost_of_live h.live] at hcosts
  have hreader := hds.toCome_eq
  unfold toCome
  omega

/-- The measure counts what a rule may still take. -/
theorem within_toCome (p : Parser) : p.Within p.toCome := by
  intro w p' h
  exact Nat.le_of_add_right_le (Nat.le_of_eq h.toCome_eq)

theorem toCome_of_draw (h : Rule.draw p = .ok t p') : p'.toCome = p.toCome := by
  obtain ⟨hnext, hahead, -⟩ := Rule.draw_eq_ok h
  have htook := (Rule.took_of_draw hnext hahead rfl).toCome_eq
  rwa [List.length_nil, Nat.zero_add] at htook

theorem toCome_of_ahead (h : p.ahead = t :: a) :
    { p with ahead := a }.toCome + Reader.cost t = p.toCome := by
  show (a.map Reader.cost).sum + p.reader.toCome + Reader.cost t = p.toCome
  unfold toCome
  rw [h, List.map_cons, List.sum_cons]
  omega

theorem toCome_tail_le (p : Parser) : { p with ahead := p.ahead.tail }.toCome ≤ p.toCome := by
  cases hahead : p.ahead with
  | nil =>
      unfold toCome
      rw [hahead]
      exact Nat.le_refl _
  | cons t a =>
      have hcost := toCome_of_ahead hahead
      exact Nat.le_of_add_right_le (Nat.le_of_eq hcost)

end Parser

namespace Rule

variable {α β : Type}

/-- No primitive step makes more to come. -/
theorem kept_toCome (k : Nat) : Kept fun p => p.toCome ≤ k where
  draw hp h := Nat.le_trans (Nat.le_of_eq (Parser.toCome_of_draw h)) hp
  drop hp := Nat.le_trans (Parser.toCome_tail_le _) hp
  note _ hp := hp

/-! ## Taking -/

/-- The rule gives no token back. -/
def Keeps (x : Rule α) : Prop := ∀ p a p', x p = .ok a p' → p'.toCome ≤ p.toCome

/-- The rule takes a token whenever it succeeds. -/
def Takes (x : Rule α) : Prop := ∀ p a p', x p = .ok a p' → p'.toCome < p.toCome

section Taking

variable {x y : Rule α} {f : α → Rule β}

/-- Two runs that are alike are made of primitive steps, and each of these keeps the measure. -/
theorem keeps_of_alike {L : Likeness} {R : α → β → Prop} {y : Rule β} (h : L.Alike R x y) : Keeps x :=
  fun p _ _ hrun => (kept_toCome p.toCome).of_alike h (Nat.le_refl _) hrun

theorem keeps_pure {a : α} : Keeps (pure a : Rule α) := by
  rintro p _ _ ⟨⟩
  exact Nat.le_refl _

/-- What the first of two steps takes, the two of them take. -/
theorem Takes.bind (hx : Takes x) (hf : ∀ a, Keeps (f a)) : Takes (x >>= f) := by
  intro p b p' h
  obtain ⟨a, q, ha, hb⟩ := exists_of_bind_ok h
  exact Nat.lt_of_le_of_lt (hf a q b p' hb) (hx p a q ha)

theorem Keeps.bind_takes (hx : Keeps x) (hf : ∀ a, Takes (f a)) : Takes (x >>= f) := by
  intro p b p' h
  obtain ⟨a, q, ha, hb⟩ := exists_of_bind_ok h
  exact Nat.lt_of_lt_of_le (hf a q b p' hb) (hx p a q ha)

/-- Where `x` meets a contract it does not run out, and so a rule with more to spend does the same. -/
theorem eq_of_reads {R : α → α → Prop} {C : Contract α} {p : Parser}
    (hxy : Likeness.same.Alike R x y) (hR : ∀ a b, R a b → a = b)
    (hx : Reads p.ahead.length p.toCome x C) : x p = y p := by
  rcases hxy.eq_of_same hR p with ⟨p', hrun⟩ | heq
  · have hout := hx p.ahead (Nat.le_succ _) p rfl p.within_toCome
    rw [hrun] at hout
    cases hout
  · exact heq

/-- A run that succeeds would have done so on any larger budget, and there it has read a word. -/
theorem takes_of_reads {f : Nat → Rule Node} {C : Contract Node}
    (halike : ∀ {n m : Nat}, n ≤ m → Likeness.same.Alike Likeness.same.OfNode (f n) (f m))
    (hreads : ∀ {m k n : Nat}, k + 1 < n → Reads m k (f n) C)
    (hne : ∀ w e, C.reads w e → w ≠ []) (n : Nat) : Takes (f n) := by
  intro p e p' hrun
  have hlarge := halike (Nat.le_max_left n (p.toCome + 2))
  have hout := hreads (n := max n (p.toCome + 2)) (Nat.le_max_right n (p.toCome + 2)) p.ahead
    (Nat.le_succ _) p rfl p.within_toCome
  rcases hlarge.eq_of_same (fun _ _ => Likeness.OfNode.eq_of_same) p with ⟨_, hrun'⟩ | heq
  · rw [hrun] at hrun'
    cases hrun'
  · rw [← heq, hrun] at hout
    cases hout with
    | @ok _ _ w htook _ hword _ =>
        have hpos : 0 < w.length := by
          have hne' := hne _ _ hword
          rwa [Ne, List.map_eq_nil_iff, ← Ne, ← List.length_pos_iff] at hne'
        have hcount := htook.toCome_eq
        omega

end Taking

/-! ## Rules that agree on what is to come -/

/-- Wherever fewer than `k` tokens are to come the two rules do the same, and give no token back. -/
def Agree (k : Nat) (x y : Rule α) : Prop :=
  ∀ p : Parser, p.toCome < k → x p = y p ∧ ∀ a p', x p = .ok a p' → p'.toCome ≤ p.toCome

section Agree

variable {k n : Nat} {x y : Rule α} {f g : α → Rule β} {p q : Parser} {t : Token} {a : List Token}

theorem Keeps.agree (h : Keeps x) : Agree k x x := fun p _ => ⟨rfl, h p⟩

/-- Rules that agree may be followed by rules that agree. -/
theorem Agree.bind (hx : Agree k x y) (hf : ∀ a, Agree k (f a) (g a)) :
    Agree k (x >>= f) (y >>= g) := by
  intro p hp
  obtain ⟨heq, hkeeps⟩ := hx p hp
  cases hrun : x p with
  | error failure q =>
      rw [bind_error hrun, bind_error (heq.symm.trans hrun)]
      exact ⟨rfl, by simp⟩
  | ok a q =>
      have hq : q.toCome ≤ p.toCome := hkeeps a q hrun
      obtain ⟨heq', hkeeps'⟩ := hf a q (Nat.lt_of_le_of_lt hq hp)
      rw [bind_ok hrun, bind_ok (heq.symm.trans hrun)]
      exact ⟨heq', fun b p' hrest => Nat.le_trans (hkeeps' b p' hrest) hq⟩

theorem Agree.bind_pure {f : α → β} (hx : Agree k x y) :
    Agree k (x >>= fun a => pure (f a)) (y >>= fun a => pure (f a)) :=
  hx.bind fun _ => keeps_pure.agree

/-- Before rules that agree stands one that is the same on both sides. -/
theorem Agree.behind (hf : ∀ a, Agree k (f a) (g a)) (hx : Keeps x) : Agree k (x >>= f) (x >>= g) :=
  hx.agree.bind hf

/-- The two rules do the same with `p`. -/
def SameOn (p : Parser) (x y : Rule α) : Prop := x p = y p

/-- What is looked at is in front for the rest. -/
theorem sameOn_peek {f g : Token → Rule β}
    (h : ∀ t q a, q.ahead = t :: a → q.toCome ≤ p.toCome → SameOn q (f t) (g t)) :
    SameOn p (peek >>= f) (peek >>= g) := by
  unfold SameOn
  cases hpeek : peek p with
  | error failure q => rw [bind_error hpeek, bind_error hpeek]
  | ok t q =>
      obtain ⟨a, hahead⟩ := ahead_of_peek hpeek
      rw [bind_ok hpeek, bind_ok hpeek]
      exact h t q a hahead (keeps_of_alike (alike_look (L := .lexemes) .peek) p t q hpeek)

theorem sameOn_note {e : Event} (h : SameOn { q with journal := e :: q.journal } x y) :
    SameOn q (note e >>= fun _ => x) (note e >>= fun _ => y) := h

/-- Behind a token that is taken fewer are to come. -/
theorem sameOn_take {f g : Token → Rule β} (hq : q.ahead = t :: a) (hlive : t.atEnd = false)
    (h : Agree q.toCome (f t) (g t)) : SameOn q (take >>= f) (take >>= g) := by
  rw [SameOn, bind_ok (take_of_ahead hq), bind_ok (take_of_ahead hq)]
  refine (h _ ?_).1
  have hcount := (took_of_take hq hlive).toCome_eq
  rw [List.length_singleton] at hcount
  omega

end Agree

/-! ## Bodies of rules that recur -/

/-- What the body makes of a parser depends on the rule it is given only where fewer tokens are to
come. -/
def Descends (body : Rule Node → Rule Node) : Prop :=
  ∀ x y p, Takes x → (∀ q : Parser, q.toCome < p.toCome → x q = y q) → body x p = body y p

section Bodies

variable {k n : Nat} {x y : Rule Node}

/-- It is enough to look at the token in front and to go on from there. -/
theorem descends_of_peek {f : Rule Node → Token → Rule Node}
    (h : ∀ x y t q a, q.ahead = t :: a → Agree q.toCome x y → SameOn q (f x t) (f y t)) :
    Descends fun x => peek >>= f x := by
  intro x y p hx hxy
  refine sameOn_peek fun t q a hq hle => h x y t q a hq fun r hr => ?_
  exact ⟨hxy r (Nat.lt_of_lt_of_le hr hle), fun e r' hrun => Nat.le_of_lt (hx r e r' hrun)⟩

/-- By induction on the rounds; none of them makes more to come than there was. -/
theorem agree_repeatOnto {more : Rule Bool} {item item' : Rule (List Node)} {seen : List Node}
    (hmore : Keeps more) (hitem : Agree k item item') :
    Agree k (repeatOnto more item n seen) (repeatOnto more item' n seen) := by
  induction n generalizing seen with
  | zero => exact fun p _ => ⟨rfl, fun _ _ hrun => by cases hrun⟩
  | succ n ih =>
      refine Agree.behind (fun c => ?_) hmore
      cases c with
      | true => exact hitem.bind fun _ => ih
      | false => exact keeps_pure.agree

theorem agree_chain {l : Level} (h : Agree k x y) : Agree k (chain l x n) (chain l y n) := by
  have hleaf : Keeps takeLeaf := keeps_of_alike (L := .lexemes) alike_takeLeaf
  have hmore : Keeps (peek >>= fun t => pure (t.isOperator l.operators)) :=
    keeps_of_alike (L := .lexemes) (.look .peek fun _ _ ht => .pure (Likeness.isOperator_eq ht _))
  refine h.bind fun first => Agree.bind_pure ?_
  exact agree_repeatOnto hmore (.behind (fun _ => h.bind_pure) hleaf)

/-- Four chains, one inside the other. -/
theorem agree_conditionOf (h : Agree k x y) : Agree k (conditionOf x n) (conditionOf y n) :=
  agree_chain (agree_chain (agree_chain (agree_chain h)))

theorem keeps_close {b : Bracket} {opening : Token} : Keeps (close b opening) :=
  keeps_of_alike (alike_close (L := .lexemes) rfl)

/-- The parenthesis is taken before the sum in it. -/
theorem descends_factorOf (n : Nat) : Descends (factorOf n) := by
  refine descends_of_peek fun x y t q a hq hxy => ?_
  split
  · next ht =>
      refine sameOn_take hq (Token.live_of_lexeme ht rfl) ?_
      refine (agree_chain (agree_chain hxy)).bind fun value => ?_
      exact .behind (fun _ => keeps_pure.agree) keeps_close
  · rfl
  · rfl
  · rfl

/-- The negation or the parenthesis is taken before what follows it. -/
theorem descends_boolFactorOf (n : Nat) : Descends (boolFactorOf n) := by
  refine descends_of_peek fun x y t q a hq hxy => ?_
  split
  · next ht =>
      simp only [takeLeaf, bind_assoc, pure_bind]
      refine sameOn_take hq (Token.live_of_lexeme ht rfl) ?_
      exact (agree_conditionOf hxy).bind_pure
  · next ht =>
      refine sameOn_take hq (Token.live_of_lexeme ht rfl) ?_
      refine (agree_conditionOf hxy).bind fun value => .behind (fun _ => ?_) keeps_close
      exact (keeps_of_alike (alike_resume (Likeness.OfNode.same_refl value) (Nat.le_refl n))).agree
  · rfl

/-! ## Statements -/

theorem keeps_condition {strict : Bool} : Keeps (condition strict n) :=
  keeps_of_alike (L := .lexemes) (alike_condition (Nat.le_refl n))

theorem keeps_forClause : Keeps (forClause n) :=
  keeps_of_alike (L := .lexemes) (alike_forClause (Nat.le_refl n))

theorem keeps_expect {fits : Lexeme → Bool} {expected : Expectation} : Keeps (expect fits expected) :=
  keeps_of_alike (L := .lexemes) alike_expect

section Statements

variable {strict : Bool} {q : Parser} {t : Token} {a : List Token}

/-- The brace is taken before any statement is read. -/
theorem sameOn_blockOf (hq : q.ahead = t :: a) (ht : t.lexeme = .bracket .leftCurlyBracket)
    (h : Agree q.toCome x y) : SameOn q (blockOf x n) (blockOf y n) := by
  have hmore : Keeps insideBody := keeps_of_alike (L := .lexemes) alike_insideBody
  rw [SameOn, blockOf, blockOf, expectBracket, expect, bind_assoc, bind_assoc, bind_ok (peek_of_ahead hq),
    bind_ok (peek_of_ahead hq), if_pos (beq_of_eq ht)]
  refine sameOn_take hq (Token.live_of_lexeme ht rfl) ?_
  refine (agree_repeatOnto hmore h.bind_pure).bind fun body => ?_
  exact .behind (fun _ => keeps_pure.agree) keeps_close

theorem sameOn_ifOf (hq : q.ahead = t :: a) (hlive : t.atEnd = false) (h : Agree q.toCome x y) :
    SameOn q (ifOf strict x n) (ifOf strict y n) := by
  refine sameOn_take hq hlive (.behind (fun condition => ?_) keeps_condition)
  refine h.bind fun thenBranch => .behind (fun _ => ?_) keeps_expect
  exact h.bind_pure

theorem sameOn_whileOf (hq : q.ahead = t :: a) (hlive : t.atEnd = false) (h : Agree q.toCome x y) :
    SameOn q (whileOf strict x n) (whileOf strict y n) :=
  sameOn_take hq hlive (.behind (fun _ => h.bind_pure) keeps_condition)

/-- The keyword is taken first, and nothing up to the body gives a token back. -/
theorem sameOn_forOf (hq : q.ahead = t :: a) (hlive : t.atEnd = false) (h : Agree q.toCome x y) :
    SameOn q (forOf strict x n) (forOf strict y n) := by
  refine sameOn_take hq hlive (.behind (fun opening => ?_) keeps_expect)
  refine .behind (fun start => .behind (fun _ => ?_) keeps_expect) keeps_forClause
  refine .behind (fun condition => .behind (fun _ => ?_) ?_) keeps_forClause
  · refine .behind (fun _ => .behind (fun step => ?_) keeps_forClause) keeps_expect
    exact .behind (fun _ => h.bind_pure) keeps_close
  · exact keeps_of_alike (alike_checkCondition (Likeness.OfNode.same_refl condition))

/-- The bracket or the keyword is taken before the statements inside. -/
theorem descends_stmtOf (strict : Bool) (n : Nat) : Descends (stmtOf strict n) := by
  refine descends_of_peek fun x y t q a hq hxy => ?_
  refine sameOn_note ?_
  split
  · next ht => exact sameOn_blockOf hq ht hxy
  · next ht => exact sameOn_ifOf hq (Token.live_of_lexeme ht rfl) hxy
  · next ht => exact sameOn_whileOf hq (Token.live_of_lexeme ht rfl) hxy
  · next ht => exact sameOn_forOf hq (Token.live_of_lexeme ht rfl) hxy
  all_goals rfl

end Statements

end Bodies

end Rule

end MiniC
