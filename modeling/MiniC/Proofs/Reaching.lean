/-
# MiniC.Proofs.Reaching — running a rule on tokens that are known.

`Reaches x w z y` says that, wherever `w` and then `z` are to come, `x` takes `w` and goes on as `y`.
With `pure a` for `y` it says that `x` reads exactly `w` and gives `a`.  What follows, `z`, is only
looked at.  Steps compose from the front, so a rule is run by going through its body once.
-/
import MiniC.Proofs.Delivery
import MiniC.Proofs.Grammar

namespace MiniC

namespace Parser

/-- A token to come is ahead already or is the reader's next answer. -/
theorem Shows.front {p : Parser} {t : Token} {z : List Token} (h : p.Shows (t :: z)) :
    (∃ a, p.ahead = t :: a) ∨ p.ahead = [] ∧ ∃ r, p.reader.next = (.ok t, r) := by
  obtain ⟨ds, r, hds, rest, heq⟩ := h
  cases hahead : p.ahead with
  | nil =>
      rw [hahead, List.cons_append, List.nil_append] at heq
      subst heq
      cases hds with
      | cons hnext _ => exact .inr ⟨rfl, _, hnext⟩
  | cons s a =>
      rw [hahead] at heq
      obtain ⟨rfl, -⟩ := List.cons.inj heq
      exact .inl ⟨a, rfl⟩

end Parser

/-- A token that is another terminal is not this bracket. -/
theorem Token.isBracket_eq_false {t : Token} {b : Bracket} (h : t.terminal ≠ .bracket b) :
    t.isBracket b = false := by
  rw [Bool.eq_false_iff, Ne, isBracket, beq_iff_eq]
  exact fun hl => h (congrArg Lexeme.terminal hl)

namespace Rule

variable {α β : Type} {x y : Rule α} {s t : Token} {p : Parser} {u v w z : List Token}

/-! ## Looking and taking -/

/-- Where `t` is to come, looking gives `t`.  It then stands first among the tokens read ahead. -/
theorem exists_peek (h : p.Shows (t :: z)) :
    ∃ p' a, p.Took [] p' ∧ peek p = .ok t p' ∧ p'.ahead = t :: a := by
  rcases h.front with ⟨a, hahead⟩ | ⟨hnil, r, hnext⟩
  · exact ⟨p, a, .refl p, peek_of_ahead hahead, hahead⟩
  · obtain ⟨p', hrun, hahead, hreader⟩ := draw_ok hnext
    refine ⟨p', [], took_of_draw hnext hahead hreader, (peek_of_nil hnil).trans hrun, ?_⟩
    rw [hahead, hnil, List.nil_append]

theorem exists_take (h : p.Shows (t :: z)) (hlive : t.atEnd = false) :
    ∃ p', p.Took [t] p' ∧ take p = .ok t p' := by
  obtain ⟨p', a, htook, hpeek, hahead⟩ := exists_peek h
  refine ⟨{ p' with ahead := a }, htook.trans (took_of_take hahead hlive), ?_⟩
  have hsame : take p = take p' := by
    rw [take, bind_ok hpeek, bind_ok (peek_of_ahead hahead)]
  rw [hsame, take_of_ahead hahead]

/-- The second token is read ahead behind the first, and neither is taken. -/
theorem exists_peekSecond (h : p.Shows (s :: t :: z)) :
    ∃ p', p.Took [] p' ∧ peekSecond p = .ok t p' := by
  obtain ⟨p₁, a, htook, hpeek, hahead⟩ := exists_peek h
  have hsame : peekSecond p = peekSecond p₁ := by
    rw [peekSecond, bind_ok hpeek, bind_ok (peek_of_ahead hahead)]
  have hshows : p₁.Shows (s :: t :: z) := h.after (w := []) htook
  rw [hsame]
  cases a with
  | cons s' a =>
      obtain ⟨ds, r, hds, rest, heq⟩ := hshows
      rw [hahead] at heq
      obtain ⟨rfl, -⟩ := List.cons.inj (List.cons.inj heq).2
      exact ⟨p₁, htook, peekSecond_of_ahead hahead⟩
  | nil =>
      obtain ⟨ds, r, hds, rest, heq⟩ := hshows
      rw [hahead, List.cons_append, List.singleton_append] at heq
      obtain ⟨-, rfl⟩ := List.cons.inj heq
      cases hds with
      | cons hnext _ =>
          obtain ⟨p', hrun, hahead', hreader⟩ := draw_ok hnext
          refine ⟨p', ?_, (peekSecond_of_single hahead).trans hrun⟩
          exact htook.trans (took_of_draw hnext hahead' hreader)

/-! ## Steps -/

/-- Wherever `w` and then `z` are to come, `x` takes `w` and goes on as `y`. -/
def Reaches (x : Rule α) (w z : List Token) (y : Rule α) : Prop :=
  ∀ p : Parser, p.Shows (w ++ z) → ∃ p', p.Took w p' ∧ x p = y p'

namespace Reaches

theorem refl (x : Rule α) : Reaches x [] z x := fun p _ => ⟨p, .refl p, rfl⟩

/-- The words of two runs come one after the other. -/
theorem trans {x' : Rule α} (h : Reaches x w (v ++ z) y) (h' : Reaches y v z x') :
    Reaches x (w ++ v) z x' := by
  intro p hp
  rw [List.append_assoc] at hp
  obtain ⟨p₁, htook, hrun⟩ := h p hp
  obtain ⟨p₂, htook', hrun'⟩ := h' p₁ (hp.after htook)
  exact ⟨p₂, htook.trans htook', hrun.trans hrun'⟩

/-- A first part that reads `w` and gives `a`, and then the rest. -/
theorem seq {x : Rule β} {f : β → Rule α} {b : β} (h : Reaches x w (v ++ z) (pure b))
    (h' : Reaches (f b) v z y) : Reaches (x >>= f) (w ++ v) z y := by
  intro p hp
  rw [List.append_assoc] at hp
  obtain ⟨p₁, htook, hrun⟩ := h p hp
  obtain ⟨p₂, htook', hrun'⟩ := h' p₁ (hp.after htook)
  exact ⟨p₂, htook.trans htook', (bind_ok hrun f).trans hrun'⟩

/-- A first part that only looks. -/
theorem look {x : Rule β} {f : β → Rule α} {b : β} (h : Reaches x [] (w ++ z) (pure b))
    (h' : Reaches (f b) w z y) : Reaches (x >>= f) w z y := h.seq h'

/-- The last part. -/
theorem last {x : Rule β} {f : β → Rule α} {b : β} (h : Reaches x w z (pure b))
    (h' : Reaches (f b) [] z y) : Reaches (x >>= f) w z y := by
  have hseq := Reaches.seq (v := []) h h'
  rwa [List.append_nil] at hseq

/-- On the same tokens a rule gives the same. -/
theorem unique {a b : α} (h : Reaches x w z (pure a)) (h' : Reaches x w z (pure b))
    (hp : p.Shows (w ++ z)) : a = b := by
  obtain ⟨p₁, -, hrun⟩ := h p hp
  obtain ⟨p₂, -, hrun'⟩ := h' p hp
  rw [hrun] at hrun'
  exact (EStateM.Result.ok.inj hrun').1

end Reaches

theorem reaches_peek : Reaches peek [] (t :: z) (pure t) := by
  intro p hp
  obtain ⟨p', a, htook, hrun, -⟩ := exists_peek hp
  exact ⟨p', htook, hrun⟩

theorem reaches_peekSecond : Reaches peekSecond [] (s :: t :: z) (pure t) := by
  intro p hp
  obtain ⟨p', htook, hrun⟩ := exists_peekSecond hp
  exact ⟨p', htook, hrun⟩

theorem reaches_take (hlive : t.atEnd = false) : Reaches take [t] z (pure t) := by
  intro p hp
  obtain ⟨p', htook, hrun⟩ := exists_take hp hlive
  exact ⟨p', htook, hrun⟩

theorem reaches_note {e : Event} : Reaches (note e) [] z (pure ()) := fun p _ =>
  ⟨{ p with journal := e :: p.journal }, took_of_note p e, rfl⟩

theorem reaches_takeLeaf (hlive : t.atEnd = false) :
    Reaches takeLeaf [t] z (pure (.leaf t)) :=
  (reaches_take hlive).last (.refl _)

/-! ## Expected tokens -/

/-- A token that fits is taken and given. -/
theorem reaches_expect {fits : Lexeme → Bool} {expected : Expectation} (hfits : fits t.lexeme = true)
    (hlive : t.atEnd = false) : Reaches (expect fits expected) [t] z (pure t) := by
  refine reaches_peek.look ?_
  rw [if_pos hfits]
  exact reaches_take hlive

theorem reaches_expectSemicolon (ht : t.terminal = .semicolon) :
    Reaches expectSemicolon [t] z (pure t) :=
  reaches_expect (beq_of_eq (Token.kind_of_terminal ht)) (Token.live ht rfl)

theorem reaches_expectBracket {b : Bracket} (ht : t.terminal = .bracket b) :
    Reaches (expectBracket b) [t] z (pure t) :=
  reaches_expect (by simp [Token.lexeme_of_terminal ht rfl]) (Token.live ht rfl)

theorem reaches_expectIdentifier {expected : Expectation} (ht : t.terminal = .identifier) :
    Reaches (expectIdentifier expected) [t] z (pure (.leaf t)) := by
  have hkind : (t.lexeme.kind == .identifier) = true := beq_of_eq (Token.kind_of_terminal ht)
  exact (reaches_expect hkind (Token.live ht rfl)).last (.refl _)

/-- A bracket that closes the right kind is taken without a look at the one that opened it. -/
theorem reaches_close {b : Bracket} {opening : Token} (ht : t.terminal = .bracket b) :
    Reaches (close b opening) [t] z (pure ()) := by
  refine reaches_peek.look ?_
  rw [if_pos (by simp [Token.isBracket, Token.lexeme_of_terminal ht rfl])]
  exact (reaches_take (Token.live ht rfl)).last (.refl _)

/-! ## Loops -/

section Loops

variable {more : Rule Bool} {item : Rule (List Node)} {nodes seen : List Node} {n : Nat}

/-- One round of a loop. -/
theorem reaches_repeatOnto_more (hmore : Reaches more u (v ++ z) (pure true))
    (hitem : Reaches item v z (pure nodes)) :
    Reaches (repeatOnto more item (n + 1) seen) (u ++ v) z
      (repeatOnto more item n (nodes.reverse ++ seen)) := by
  refine hmore.seq ?_
  rw [if_pos rfl]
  exact hitem.last (.refl _)

/-- A loop that stops gives its nodes in the order they were read in. -/
theorem reaches_repeatOnto_stop (hstop : Reaches more [] z (pure false)) :
    Reaches (repeatOnto more item (n + 1) seen) [] z (pure seen.reverse) := by
  refine hstop.look ?_
  rw [if_neg (by simp)]
  exact .refl _

/-- One round of a loop takes `w` and adds `e`, whatever follows. -/
def Round (more : Rule Bool) (item : Rule (List Node)) (w : List Token) (e : Node) : Prop :=
  ∀ z n seen, Reaches (repeatOnto more item (n + 1) seen) w z (repeatOnto more item n (e :: seen))

/-- Rounds in a row, with budget left for more. -/
theorem reaches_rounds {parts : List (List Token × Node)}
    (hparts : ∀ x ∈ parts, Round more item x.1 x.2) :
    Reaches (repeatOnto more item (parts.length + n) seen) (parts.flatMap Prod.fst) z
      (repeatOnto more item n ((parts.map Prod.snd).reverse ++ seen)) := by
  induction parts generalizing seen with
  | nil =>
      rw [List.length_nil, Nat.zero_add]
      exact .refl _
  | cons x parts ih =>
      rw [List.flatMap_cons, List.length_cons, Nat.add_right_comm]
      refine (hparts x (by simp) _ _ seen).trans ?_
      have hrest : Reaches (repeatOnto more item (parts.length + n) (x.2 :: seen))
          (parts.flatMap Prod.fst) z
          (repeatOnto more item n ((parts.map Prod.snd).reverse ++ x.2 :: seen)) :=
        ih fun y hy => hparts y (List.mem_cons_of_mem x hy)
      simpa using hrest

/-- As many rounds as there are parts, and a budget of one more for the round that stops. -/
theorem reaches_repeatOnto {parts : List (List Token × Node)}
    (hparts : ∀ x ∈ parts, Round more item x.1 x.2) (hstop : Reaches more [] z (pure false))
    (hn : parts.length < n) :
    Reaches (repeatOnto more item n seen) (parts.flatMap Prod.fst) z
      (pure (seen.reverse ++ parts.map Prod.snd)) := by
  obtain ⟨k, rfl⟩ : ∃ k, n = parts.length + (k + 1) := ⟨n - parts.length - 1, by omega⟩
  have hlast : Reaches (repeatOnto more item (k + 1) ((parts.map Prod.snd).reverse ++ seen)) [] z
      (pure ((parts.map Prod.snd).reverse ++ seen).reverse) := reaches_repeatOnto_stop hstop
  rw [List.reverse_append, List.reverse_reverse] at hlast
  have hall := Reaches.trans (v := []) (reaches_rounds hparts) hlast
  rwa [List.append_nil] at hall

theorem reaches_repeatWhile {parts : List (List Token × Node)}
    (hparts : ∀ x ∈ parts, Round more item x.1 x.2) (hstop : Reaches more [] z (pure false))
    (hn : parts.length < n) :
    Reaches (repeatWhile more item n) (parts.flatMap Prod.fst) z (pure (parts.map Prod.snd)) :=
  reaches_repeatOnto hparts hstop hn

end Loops

end Rule

end MiniC
