/-
# MiniC.Proofs.Lockstep — two runs of a rule on streams that look alike.

What a rule does depends on the lexemes it looks at.  Where the tokens stand, what text follows the
last of them and how large the budget is make no difference, as long as the budget lasts.  So a run
tells what any other run does on a stream that opens in the same way: it ends alike, and before it
has looked any further.

How tokens correspond is left open in a `Likeness`; nodes and refusals then correspond if they are
the same but for their tokens and places.  If only equal tokens correspond, the two runs are on one
stream and differ in nothing but a budget that may run out.
-/
import Mathlib.Data.List.Forall2
import MiniC.Proofs.Contract

namespace MiniC

/-! ## Likeness -/

/-- A way in which the tokens of two streams correspond, and with them the places of nodes. -/
structure Likeness where
  tokens : Token → Token → Prop
  places : Location → Location → Prop
  exists_like : ∀ t, ∃ t', tokens t t'
  lexeme_eq : ∀ {t t' : Token}, tokens t t' → t.lexeme = t'.lexeme
  location : ∀ {t t' : Token}, tokens t t' → places t.location t'.location

namespace Likeness

/-- The same lexemes, wherever they stand. -/
def lexemes : Likeness where
  tokens t t' := t.lexeme = t'.lexeme
  places _ _ := True
  exists_like t := ⟨t, rfl⟩
  lexeme_eq h := h
  location _ := trivial

/-- Tokens that are equal. -/
def same : Likeness where
  tokens := Eq
  places := Eq
  exists_like t := ⟨t, rfl⟩
  lexeme_eq := congrArg Token.lexeme
  location := congrArg Token.location

theorem forall₂_lexemes {ts us : List Token} :
    List.Forall₂ lexemes.tokens ts us ↔ ts.map Token.lexeme = us.map Token.lexeme := by
  rw [← List.forall₂_eq_eq_eq, List.forall₂_map_left_iff, List.forall₂_map_right_iff]
  rfl

variable (L : Likeness)

/-- Nodes of one shape, over tokens that correspond. -/
inductive OfNode : Node → Node → Prop
  | mk {kind : NodeKind} {children children' : List Node} {token token' : Option Token}
      {location location' : Option Location} :
      List.Forall₂ OfNode children children' → Option.Rel L.tokens token token' →
      Option.Rel L.places location location' →
      OfNode ⟨kind, children, token, location⟩ ⟨kind, children', token', location'⟩

abbrev OfNodes : List Node → List Node → Prop := List.Forall₂ L.OfNode

/-- Refusals for one reason, of tokens that correspond. -/
inductive OfError : SyntaxError → SyntaxError → Prop
  | unexpected {expected : Expectation} {found found' : Token} {line line' hint : Option Bytes} :
      L.tokens found found' →
      OfError (.unexpected expected found line hint) (.unexpected expected found' line' hint)
  | unmatched {expected : Expectation} {found found' opening opening' : Token}
      {line line' : Option Bytes} :
      L.tokens found found' → L.tokens opening opening' →
      OfError (.unmatched expected found opening line) (.unmatched expected found' opening' line')

/-- Steps noted of tokens that correspond. -/
inductive OfEvent : Event → Event → Prop
  | item {t t' : Token} : L.tokens t t' → OfEvent (.item t) (.item t')
  | statement {t t' : Token} : L.tokens t t' → OfEvent (.statement t) (.statement t')

/-- The tokens looked at and not yet taken correspond. -/
def OfAhead (p q : Parser) : Prop := List.Forall₂ L.tokens p.ahead q.ahead

variable {L} {t t' : Token} {n n' : Node} {children children' : List Node} {kind : NodeKind}

/-! ## Tests that see lexemes only -/

theorem isBracket_eq (h : L.tokens t t') (b : Bracket) : t.isBracket b = t'.isBracket b := by
  rw [Token.isBracket, L.lexeme_eq h, Token.isBracket]

theorem isKeyword_eq (h : L.tokens t t') (among : List Keyword) :
    t.isKeyword among = t'.isKeyword among := by
  rw [Token.isKeyword, L.lexeme_eq h, Token.isKeyword]

theorem isOperator_eq (h : L.tokens t t') (among : List Operator) :
    t.isOperator among = t'.isOperator among := by
  rw [Token.isOperator, L.lexeme_eq h, Token.isOperator]

theorem isTypeKeyword_eq (h : L.tokens t t') : t.isTypeKeyword = t'.isTypeKeyword := by
  rw [Token.isTypeKeyword, L.lexeme_eq h, Token.isTypeKeyword]

theorem kind_eq (h : L.tokens t t') : t.kind = t'.kind := by
  rw [Token.kind, L.lexeme_eq h, Token.kind]

theorem atEnd_eq (h : L.tokens t t') : t.atEnd = t'.atEnd := by
  rw [Token.atEnd, kind_eq h, Token.atEnd]

theorem isEmpty_eq (h : L.OfNodes children children') : children.isEmpty = children'.isEmpty := by
  cases h with
  | nil | cons => rfl

/-! ## Nodes made of what corresponds -/

namespace OfNode

theorem leaf (h : L.tokens t t') : L.OfNode (.leaf t) (.leaf t') :=
  .mk .nil (.some h) (.some (L.location h))

theorem location (h : L.OfNode n n') : Option.Rel L.places n.location n'.location := by
  cases h with
  | mk _ _ hplace => exact hplace

theorem kind_eq (h : L.OfNode n n') : n.kind = n'.kind := by
  cases h with
  | mk => rfl

theorem branch (h : L.OfNodes children children') :
    L.OfNode (.branch kind children) (.branch kind children') := by
  refine .mk h .none ?_
  cases h with
  | nil => exact .none
  | cons hhead _ => exact hhead.location

theorem branchAt (ht : L.tokens t t') (h : L.OfNodes children children') :
    L.OfNode (.branchAt t.location kind children) (.branchAt t'.location kind children') :=
  .mk h .none (.some (L.location ht))

theorem isArithmetic_eq (h : L.OfNode n n') : n.isArithmetic = n'.isArithmetic := by
  rw [Node.isArithmetic, h.kind_eq, Node.isArithmetic]

theorem isBoolean_eq (h : L.OfNode n n') : n.isBoolean = n'.isBoolean := by
  rw [Node.isBoolean, h.kind_eq, Node.isBoolean]

/-- Whether a type is `void` shows in its first keyword. -/
theorem isVoid_eq (h : L.OfNode n n') : Rule.isVoid n = Rule.isVoid n' := by
  cases h with
  | mk hchildren =>
      cases hchildren with
      | nil => rfl
      | cons hhead _ =>
          cases hhead with
          | mk _ htoken =>
              cases htoken with
              | none => rfl
              | some ht => exact isKeyword_eq ht [.void]

end OfNode

section Induction

/-- `P` passes from the children of like nodes to the nodes. -/
def Passes (L : Likeness) (P : Node → Node → Prop) : Prop :=
  ∀ (kind : NodeKind) {children children' : List Node} {token token' : Option Token}
    {location location' : Option Location}, List.Forall₂ P children children' →
    Option.Rel L.tokens token token' → Option.Rel L.places location location' →
    P ⟨kind, children, token, location⟩ ⟨kind, children', token', location'⟩

variable {P : Node → Node → Prop}

mutual

/-- What is true of nodes with like children is true of like nodes. -/
theorem OfNode.lift (hP : L.Passes P) : ∀ n n' : Node, L.OfNode n n' → P n n'
  | ⟨kind, children, _, _⟩, _, h => by
    cases h with
    | mk hchildren htoken hplace =>
        exact hP kind (OfNode.liftAll hP children _ hchildren) htoken hplace

theorem OfNode.liftAll (hP : L.Passes P) :
    ∀ ns ns' : List Node, L.OfNodes ns ns' → List.Forall₂ P ns ns'
  | [], _, h => by
    cases h
    exact .nil
  | n :: ns, _, h => by
    cases h with
    | cons hn hns => exact .cons (OfNode.lift hP n _ hn) (OfNode.liftAll hP ns _ hns)

end

end Induction

end Likeness

/-! ## Moves -/

/-- The line that a refusal shows is that of the token it refuses, in the source of `r`. -/
def SyntaxError.Quotes (e : SyntaxError) (r : Reader) : Prop :=
  ∀ t ∈ e.found?, e.sourceLine = r.lineText t.line

namespace Likeness

variable (L : Likeness) {α β γ δ : Type}

/-- The moves that bring a token to sight. -/
inductive Look : Rule Token → Prop
  | peek : Look Rule.peek
  | peekSecond : Look Rule.peekSecond
  | take : Look Rule.take

/-- Two rules that make the same moves, as long as what they see corresponds: they look, note and
refuse in the same places, and end with results related by `R`.  A refusal quotes the line of the
token that it refuses.  The first rule may run out of budget. -/
inductive Alike (R : α → β → Prop) : Rule α → Rule β → Prop
  | pure {a : α} {b : β} : R a b → Alike R (pure a) (pure b)
  | look {x : Rule Token} {f : Token → Rule α} {g : Token → Rule β} :
      Look x → (∀ t t', L.tokens t t' → Alike R (f t) (g t')) → Alike R (x >>= f) (x >>= g)
  | note {e e' : Event} {x : Rule α} {y : Rule β} :
      L.OfEvent e e' → Alike R x y →
      Alike R (Rule.note e >>= fun _ => x) (Rule.note e' >>= fun _ => y)
  | refuse {e e' : Parser → SyntaxError} :
      (∀ p q, L.OfError (e p) (e' q)) → (∀ p, (e p).Quotes p.reader) →
      (∀ q, (e' q).Quotes q.reader) →
      Alike R (get >>= fun p => throw (.refused (e p))) (get >>= fun q => throw (.refused (e' q)))
  | exhausted {y : Rule β} : Alike R (throw .exhausted) y

variable {L} {R : α → β → Prop} {S : γ → δ → Prop} {x : Rule α} {y : Rule β}

namespace Alike

theorem bind {f : α → Rule γ} {g : β → Rule δ} (h : L.Alike R x y)
    (hrest : ∀ a b, R a b → L.Alike S (f a) (g b)) : L.Alike S (x >>= f) (y >>= g) := by
  induction h with
  | pure hab =>
      rw [pure_bind, pure_bind]
      exact hrest _ _ hab
  | look hlook _ ih =>
      rw [bind_assoc, bind_assoc]
      exact .look hlook ih
  | note he _ ih =>
      rw [bind_assoc, bind_assoc]
      exact .note he ih
  | refuse he hquotes hquotes' => exact .refuse he hquotes hquotes'
  | exhausted => exact .exhausted

/-- A test that gives the same on both sides. -/
theorem ite {c c' : Bool} {x' : Rule α} {y' : Rule β} (hc : c = c') (h : L.Alike R x y)
    (h' : L.Alike R x' y') :
    L.Alike R (if c = true then x else x') (if c' = true then y else y') := by
  subst hc
  cases c with
  | true => exact h
  | false => exact h'

end Alike

end Likeness

/-! ## Runs -/

/-- Between `p` and `p'` the tokens `ds` were drawn, and what is ahead is the last of them. -/
structure Parser.Drew (p : Parser) (ds : List Token) (p' : Parser) : Prop where
  delivers : p.reader.Delivers ds p'.reader
  ahead : p'.ahead <:+ p.ahead ++ ds

namespace Parser.Drew

variable {p p' p'' : Parser} {ds es : List Token}

theorem refl (p : Parser) : p.Drew [] p := ⟨.nil _, by simp⟩

theorem trans (h : p.Drew ds p') (h' : p'.Drew es p'') : p.Drew (ds ++ es) p'' := by
  refine ⟨h.delivers.append h'.delivers, h'.ahead.trans ?_⟩
  obtain ⟨w, hw⟩ := h.ahead
  exact ⟨w, by rw [← List.append_assoc, hw, List.append_assoc]⟩

end Parser.Drew

/-- The reader fails over text, not over a token. -/
theorem Reader.found?_of_next {r r' : Reader} {e : SyntaxError} (h : r.next = (.error e, r')) :
    e.found? = none := by
  unfold Reader.next at h
  split at h
  · obtain ⟨rfl, -⟩ := by simpa using h
    rfl
  · simp at h
  · split at h
    · simp at h
    · obtain ⟨rfl, -⟩ := by simpa using h
      rfl

theorem Reader.source_next (r : Reader) : r.next.2.source = r.source := by
  unfold Reader.next
  split
  · rfl
  · rfl
  · split <;> rfl

/-- Where a run stopped. -/
def Rule.stop {α : Type} : EStateM.Result Failure Parser α → Parser
  | .ok _ p | .error _ p => p

namespace Likeness

variable (L : Likeness) {α β : Type}

/-- Two runs ended alike, the second with its reader at `r`. -/
inductive EndsLike (R : α → β → Prop) (r : Reader) :
    EStateM.Result Failure Parser α → EStateM.Result Failure Parser β → Prop
  | ok {a : α} {b : β} {p q : Parser} :
      R a b → L.OfAhead p q → q.reader = r → EndsLike R r (.ok a p) (.ok b q)
  | refused {e e' : SyntaxError} {p q : Parser} :
      L.OfError e e' → EndsLike R r (.error (.refused e) p) (.error (.refused e') q)

/-- A run on `p` is followed by one on a parser with this reader, by results: if the reader has tokens
like those drawn from `p`, the second run ended as the first one did.  Nothing is said where a budget
ran out or the reader of `p` failed. -/
inductive FollowedBy (R : α → β → Prop) (p : Parser) (reader : Reader) :
    EStateM.Result Failure Parser α → EStateM.Result Failure Parser β → Prop
  | ends {result : EStateM.Result Failure Parser α} {result' : EStateM.Result Failure Parser β}
      {ds : List Token} :
      p.Drew ds (Rule.stop result) →
      (∀ ds' r, List.Forall₂ L.tokens ds ds' → reader.Delivers ds' r →
        L.EndsLike R r result result') →
      FollowedBy R p reader result result'
  | exhausted {p' : Parser} {result' : EStateM.Result Failure Parser β} :
      FollowedBy R p reader (.error .exhausted p') result'
  | unreadable {e : SyntaxError} {p' : Parser} {result' : EStateM.Result Failure Parser β} :
      e.found? = none → FollowedBy R p reader (.error (.refused e) p') result'

/-- Every run of `x` is followed by one of `y` that starts with like tokens looked at. -/
def Follows (R : α → β → Prop) (x : Rule α) (y : Rule β) : Prop :=
  ∀ p q, L.OfAhead p q → L.FollowedBy R p q.reader (x p) (y q)

variable {L} {p p' q q' : Parser} {R : α → β → Prop} {a : α} {b : β}

theorem OfAhead.exists_like (p : Parser) : ∃ q, L.OfAhead p q := by
  have hlist : ∀ ts : List Token, ∃ ts', List.Forall₂ L.tokens ts ts' := by
    intro ts
    induction ts with
    | nil => exact ⟨[], .nil⟩
    | cons t ts ih =>
        obtain ⟨t', ht⟩ := L.exists_like t
        obtain ⟨ts', hts⟩ := ih
        exact ⟨t' :: ts', .cons ht hts⟩
  obtain ⟨ahead, hahead⟩ := hlist p.ahead
  exact ⟨{ p with ahead }, hahead⟩

/-- Nothing was drawn. -/
theorem FollowedBy.still (hab : R a b) (hahead : L.OfAhead p' q') (hp : p'.reader = p.reader)
    (hq : q'.reader = q.reader) (hsuffix : p'.ahead <:+ p.ahead) :
    L.FollowedBy R p q.reader (.ok a p') (.ok b q') := by
  have hdrew : p.Drew [] p' := by
    refine ⟨?_, by rwa [List.append_nil]⟩
    rw [hp]
    exact .nil _
  refine .ends hdrew ?_
  intro ds' r hds hdeliv
  cases hds
  cases hdeliv
  exact .ok hab hahead hq

/-- If what the second reader gives is alike, so is what is drawn from it. -/
theorem follows_draw : L.Follows L.tokens Rule.draw Rule.draw := by
  intro p q h
  rcases hnext : p.reader.next with ⟨answer, r⟩
  cases answer with
  | ok t =>
      obtain ⟨p', hrun, hahead, hreader⟩ := Rule.draw_ok hnext
      have hdrew : p.Drew [t] p' := by
        refine ⟨?_, hahead ▸ List.suffix_refl _⟩
        rw [hreader]
        exact .single hnext
      rw [hrun]
      refine .ends hdrew ?_
      intro ds' r' hds hdeliv
      obtain ⟨t', _, ht, hnil, rfl⟩ := List.forall₂_cons_left_iff.mp hds
      cases hnil
      cases hdeliv with
      | cons hnext' hdone =>
          cases hdone
          obtain ⟨q', hrun', hahead', hreader'⟩ := Rule.draw_ok hnext'
          rw [hrun']
          refine .ok ht ?_ hreader'
          rw [OfAhead, hahead, hahead']
          exact List.rel_append h (.cons ht .nil)
  | error e =>
      obtain ⟨p', hrun⟩ := Rule.draw_error hnext
      rw [hrun]
      exact .unreadable (Reader.found?_of_next hnext)

/-- A stream like two in a row splits into two, and so does its delivery. -/
theorem exists_split {ds es fs : List Token} {r r' : Reader}
    (h : List.Forall₂ L.tokens (ds ++ es) fs) (hdeliv : r.Delivers fs r') :
    ∃ ds' es' r₁, List.Forall₂ L.tokens ds ds' ∧ List.Forall₂ L.tokens es es' ∧
      r.Delivers ds' r₁ ∧ r₁.Delivers es' r' := by
  rw [← List.take_append_drop ds.length fs] at hdeliv
  obtain ⟨r₁, htake, hdrop⟩ := hdeliv.split
  refine ⟨_, _, r₁, ?_, ?_, htake, hdrop⟩
  · simpa using List.forall₂_take ds.length h
  · simpa using List.forall₂_drop ds.length h

/-- Both runs go on behind tokens that correspond. -/
theorem FollowedBy.behind {p₁ q₁ : Parser} {ds ds' : List Token}
    {result : EStateM.Result Failure Parser α} {result' : EStateM.Result Failure Parser β}
    (hdrew : p.Drew ds p₁) (hds : List.Forall₂ L.tokens ds ds')
    (hdeliv : q.reader.Delivers ds' q₁.reader) (h : L.FollowedBy R p₁ q₁.reader result result') :
    L.FollowedBy R p q.reader result result' := by
  cases h with
  | ends hdrew' hends =>
      refine .ends (hdrew.trans hdrew') fun fs r hfs hall => ?_
      obtain ⟨ds₁, es, r₁, hds₁, hes, hfirst, hsecond⟩ := exists_split hfs hall
      have hlength : ds'.length = ds₁.length := hds.length_eq.symm.trans hds₁.length_eq
      obtain ⟨-, rfl⟩ := hdeliv.unique hfirst hlength
      exact hends es r hes hsecond
  | exhausted => exact .exhausted
  | unreadable he => exact .unreadable he

/-- The second reader has no tokens like those that the first run has drawn, so nothing is left to show
but what the first run draws. -/
theorem FollowedBy.alone {p₁ : Parser} {ds : List Token} {r₁ : Reader}
    {result : EStateM.Result Failure Parser α} {result₁ result' : EStateM.Result Failure Parser β}
    (hdrew : p.Drew ds p₁)
    (hnone : ¬ ∃ ds' r, List.Forall₂ L.tokens ds ds' ∧ q.reader.Delivers ds' r)
    (h : L.FollowedBy R p₁ r₁ result result₁) : L.FollowedBy R p q.reader result result' := by
  cases h with
  | ends hdrew' _ =>
      refine .ends (hdrew.trans hdrew') fun fs r hfs hall => ?_
      obtain ⟨ds₁, es, r₂, hds₁, -, hfirst, -⟩ := exists_split hfs hall
      exact absurd ⟨ds₁, r₂, hds₁, hfirst⟩ hnone
  | exhausted => exact .exhausted
  | unreadable he => exact .unreadable he

/-- A move that brings a token to sight, and then what is done with it. -/
theorem Follows.look {x : Rule Token} {f : Token → Rule α} {g : Token → Rule β}
    (hx : L.Follows L.tokens x x) (hrest : ∀ t t', L.tokens t t' → L.Follows R (f t) (g t')) :
    L.Follows R (x >>= f) (x >>= g) := by
  intro p q hpq
  have hlook := hx p q hpq
  generalize hp : x p = result at hlook
  cases hlook with
  | @ends _ _ ds hdrew hends =>
      cases result with
      | error failure p₁ =>
          rw [Rule.bind_error hp f]
          refine .ends hdrew fun ds' r hds hdeliv => ?_
          generalize hq : x q = result' at hends
          cases hends ds' r hds hdeliv with
          | refused he =>
              rw [Rule.bind_error hq g]
              exact .refused he
      | ok t p₁ =>
          rw [Rule.bind_ok hp f]
          by_cases hlike : ∃ ds' r, List.Forall₂ L.tokens ds ds' ∧ q.reader.Delivers ds' r
          · obtain ⟨ds', r, hds, hdeliv⟩ := hlike
            generalize hq : x q = result' at hends
            cases hends ds' r hds hdeliv with
            | @ok _ t' _ q₁ ht hahead hreader =>
                rw [Rule.bind_ok hq g]
                subst hreader
                exact (hrest t t' ht p₁ q₁ hahead).behind hdrew hds hdeliv
          -- The second run does not matter here, so the rest may be followed by any like one.
          · obtain ⟨t', ht⟩ := L.exists_like t
            obtain ⟨q₁, hq₁⟩ := OfAhead.exists_like (L := L) p₁
            exact (hrest t t' ht p₁ q₁ hq₁).alone hdrew hlike
  | exhausted =>
      rw [Rule.bind_error hp f]
      exact .exhausted
  | unreadable he =>
      rw [Rule.bind_error hp f]
      exact .unreadable he

theorem follows_peek : L.Follows L.tokens Rule.peek Rule.peek := by
  intro p q h
  cases hp : p.ahead with
  | nil =>
      have hq : q.ahead = [] := by
        rw [OfAhead, hp] at h
        exact List.forall₂_nil_left_iff.mp h
      rw [Rule.peek_of_nil hp, Rule.peek_of_nil hq]
      exact follows_draw p q h
  | cons t a =>
      obtain ⟨t', a', ht, -, hq⟩ : ∃ t' a', L.tokens t t' ∧ List.Forall₂ L.tokens a a' ∧
          q.ahead = t' :: a' := by
        rw [OfAhead, hp] at h
        exact List.forall₂_cons_left_iff.mp h
      rw [Rule.peek_of_ahead hp, Rule.peek_of_ahead hq]
      exact .still ht h rfl rfl (List.suffix_refl _)

theorem follows_take : L.Follows L.tokens Rule.take Rule.take := by
  refine follows_peek.look fun t t' ht p q h => ?_
  refine .still ht ?_ rfl rfl (List.tail_suffix _)
  show List.Forall₂ L.tokens p.ahead.tail q.ahead.tail
  rw [← List.drop_one, ← List.drop_one]
  exact List.forall₂_drop 1 h

/-- Two tokens are read ahead on both sides, or one is and the next is drawn on both. -/
theorem follows_peekSecond : L.Follows L.tokens Rule.peekSecond Rule.peekSecond := by
  refine follows_peek.look fun s s' _ p q h => ?_
  rw [Rule.get_bind, Rule.get_bind]
  have hboth : List.Forall₂ L.tokens p.ahead q.ahead := h
  generalize hp : p.ahead = a at hboth ⊢
  generalize hq : q.ahead = a' at hboth ⊢
  cases hboth with
  | nil => exact follows_draw p q h
  | cons _ hrest =>
      cases hrest with
      | nil => exact follows_draw p q h
      | cons ht _ => exact .still ht h rfl rfl (List.suffix_refl _)

/-- Rules that make the same moves end alike. -/
theorem Alike.follows {x : Rule α} {y : Rule β} (h : L.Alike R x y) : L.Follows R x y := by
  induction h with
  | pure hab =>
      intro p q hpq
      exact .still hab hpq rfl rfl (List.suffix_refl _)
  | look hlook _ ih =>
      cases hlook with
      | peek => exact follows_peek.look ih
      | peekSecond => exact follows_peekSecond.look ih
      | take => exact follows_take.look ih
  | @note e e' x y _ _ ih =>
      intro p q hpq
      have hlater := ih { p with journal := e :: p.journal } { q with journal := e' :: q.journal } hpq
      show L.FollowedBy R p q.reader (x { p with journal := e :: p.journal })
        (y { q with journal := e' :: q.journal })
      generalize x { p with journal := e :: p.journal } = result at hlater ⊢
      cases hlater with
      | ends hdrew hends => exact .ends ⟨hdrew.delivers, hdrew.ahead⟩ hends
      | exhausted => exact .exhausted
      | unreadable he => exact .unreadable he
  | refuse he =>
      intro p q hpq
      exact .ends (.refl p) fun ds' r _ _ => .refused (he p q)
  | exhausted =>
      intro p q hpq
      exact .exhausted

/-! ## One stream -/

theorem rel_eq_iff {γ : Type} {a b : Option γ} : Option.Rel Eq a b ↔ a = b := by
  constructor
  · intro h
    cases h with
    | some h => rw [h]
    | none => rfl
  · rintro rfl
    cases a with
    | none => exact .none
    | some => exact .some rfl

/-- Nodes that are alike over equal tokens are equal. -/
theorem OfNode.eq_of_same {n n' : Node} (h : same.OfNode n n') : n = n' := by
  refine OfNode.lift (fun kind children children' token token' location location' hchildren ht hl => ?_)
    n n' h
  rw [List.forall₂_eq_eq_eq] at hchildren
  rw [hchildren, rel_eq_iff.mp ht, rel_eq_iff.mp hl]

mutual

theorem OfNode.same_refl : ∀ n : Node, same.OfNode n n
  | ⟨_, children, _, _⟩ => .mk (OfNodes.same_refl children) (rel_eq_iff.mpr rfl) (rel_eq_iff.mpr rfl)

theorem OfNodes.same_refl : ∀ ns : List Node, same.OfNodes ns ns
  | [] => .nil
  | n :: ns => .cons (OfNode.same_refl n) (OfNodes.same_refl ns)

end

theorem OfNodes.eq_of_same {ns ns' : List Node} (h : same.OfNodes ns ns') : ns = ns' := by
  rw [← List.forall₂_eq_eq_eq]
  exact h.imp fun _ _ => OfNode.eq_of_same

theorem OfEvent.eq_of_same {e e' : Event} (h : same.OfEvent e e') : e = e' := by
  cases h with
  | item ht => exact congrArg Event.item ht
  | statement ht => exact congrArg Event.statement ht

/-- Refusals of one token, both with its line, are the same. -/
theorem OfError.eq_of_same {e e' : SyntaxError} {r : Reader} (h : same.OfError e e')
    (hquotes : e.Quotes r) (hquotes' : e'.Quotes r) : e = e' := by
  cases h with
  | @unexpected expected found _ line line' hint hfound =>
      obtain rfl : found = _ := hfound
      have hline : line = line' := (hquotes found rfl).trans (hquotes' found rfl).symm
      rw [hline]
  | @unmatched expected found _ opening _ line line' hfound hopening =>
      obtain rfl : found = _ := hfound
      obtain rfl : opening = _ := hopening
      have hline : line = line' := (hquotes found rfl).trans (hquotes' found rfl).symm
      rw [hline]

/-- On one stream the second rule does what the first one does, unless that one runs out of budget. -/
theorem Alike.eq_of_same {R : α → α → Prop} {x y : Rule α} (h : same.Alike R x y)
    (hR : ∀ a b, R a b → a = b) (p : Parser) :
    (∃ p', x p = .error .exhausted p') ∨ x p = y p := by
  induction h generalizing p with
  | pure hab => exact .inr (by rw [hR _ _ hab])
  | @look x f g _ _ ih =>
      cases hx : x p with
      | error failure q => exact .inr ((Rule.bind_error hx f).trans (Rule.bind_error hx g).symm)
      | ok t q =>
          rw [Rule.bind_ok hx, Rule.bind_ok hx]
          exact ih t t rfl q
  | @note e e' x y he _ ih =>
      rw [he.eq_of_same]
      exact ih { p with journal := e' :: p.journal }
  | @refuse e e' he hquotes hquotes' =>
      have heq : e p = e' p := (he p p).eq_of_same (hquotes p) (hquotes' p)
      right
      show EStateM.Result.error (Failure.refused (e p)) p = .error (.refused (e' p)) p
      rw [heq]
  | exhausted => exact .inl ⟨p, rfl⟩

end Likeness

namespace Rule

variable {L : Likeness} {t t' : Token} {n m : Nat}

open Likeness

/-! ## Single tokens -/

/-- Looks and takes are moves by themselves. -/
theorem alike_look {x : Rule Token} (h : Look x) : L.Alike L.tokens x x := by
  have hlook : L.Alike L.tokens (x >>= pure) (x >>= pure) := .look h fun t t' ht => .pure ht
  rwa [bind_pure] at hlook

theorem alike_takeLeaf : L.Alike L.OfNode takeLeaf takeLeaf :=
  .look .take fun _ _ ht => .pure (.leaf ht)

theorem alike_refuse {α β : Type} {R : α → β → Prop} {expected : Expectation} (ht : L.tokens t t') :
    L.Alike R (refuse expected t) (refuse expected t') :=
  .refuse (fun _ _ => .unexpected ht) (by rintro p _ ⟨⟩; rfl) (by rintro q _ ⟨⟩; rfl)

/-- The test sees the lexeme only, so both sides take their tokens or both refuse them. -/
theorem alike_expect {fits : Lexeme → Bool} {expected : Expectation} :
    L.Alike L.tokens (expect fits expected) (expect fits expected) := by
  refine .look .peek fun t t' ht => .ite ?_ (alike_look .take) (alike_refuse ht)
  rw [L.lexeme_eq ht]

theorem alike_expectIdentifier {expected : Expectation} :
    L.Alike L.OfNode (expectIdentifier expected) (expectIdentifier expected) :=
  alike_expect.bind fun _ _ ht => .pure (.leaf ht)

/-- A bracket that does not match is refused with the one that it should close, and these are alike
too. -/
theorem alike_close {b : Bracket} (ht : L.tokens t t') :
    L.Alike (fun _ _ => True) (close b t) (close b t') := by
  refine .look .peek fun s s' hs => .ite (isBracket_eq hs b) ?_ ?_
  · exact .look .take fun _ _ _ => .pure trivial
  · exact .refuse (fun _ _ => .unmatched hs ht) (by rintro p _ ⟨⟩; rfl) (by rintro q _ ⟨⟩; rfl)

/-! ## Loops -/

section Loops

variable {more : Rule Bool} {item item' : Rule (List Node)} {seen seen' : List Node}

/-- By induction on the rounds of the first loop; the second one has as many to spend. -/
theorem alike_repeatOnto (hmore : L.Alike Eq more more) (hitem : L.Alike L.OfNodes item item')
    (hseen : L.OfNodes seen seen') (hnm : n ≤ m) :
    L.Alike L.OfNodes (repeatOnto more item n seen) (repeatOnto more item' m seen') := by
  induction n generalizing m seen seen' with
  | zero => exact .exhausted
  | succ n ih =>
      obtain ⟨m, rfl⟩ : ∃ k, m = k + 1 := ⟨m - 1, by omega⟩
      refine hmore.bind fun c c' hc => .ite hc ?_ ?_
      · refine hitem.bind fun nodes nodes' hnodes => ih ?_ (by omega)
        exact List.rel_append (List.rel_reverse hnodes) hseen
      · exact .pure (List.rel_reverse hseen)

theorem alike_repeatWhile (hmore : L.Alike Eq more more) (hitem : L.Alike L.OfNodes item item')
    (hnm : n ≤ m) : L.Alike L.OfNodes (repeatWhile more item n) (repeatWhile more item' m) :=
  alike_repeatOnto hmore hitem .nil hnm

end Loops

theorem alike_single {x y : Rule Node} (h : L.Alike L.OfNode x y) :
    L.Alike L.OfNodes (x >>= fun e => pure [e]) (y >>= fun e => pure [e]) :=
  h.bind fun _ _ he => .pure (.cons he .nil)

theorem alike_takeComma : L.Alike Eq takeComma takeComma := by
  refine .look .peek fun t t' ht => .ite ?_ ?_ ?_
  · rw [kind_eq ht]
  · exact .look .take fun _ _ _ => .pure rfl
  · exact .pure rfl

theorem alike_insideBody : L.Alike Eq insideBody insideBody := by
  refine .look .peek fun t t' ht => .pure ?_
  rw [isBracket_eq ht, atEnd_eq ht]

end Rule

end MiniC
