/-
# MiniC.Proofs.Nesting — brackets that are closed in order.

`Nested ts` says that the brackets among `ts` pair up: each is closed by one of its own kind, inner ones
before outer ones.  Between two steps of a rule at most one bracket that the rule itself has opened is
still to be closed, since what a smaller rule opens it has closed before the next step begins.  So it is
enough to say which bracket, if any, some tokens leave open (`Leaves`), and which one is open behind
further tokens (`Leads`).

A refusal for want of a closing bracket names the one it should have closed;
`SyntaxError.NamesInnermost` says that this is the innermost one still open.
-/
import MiniC.Proofs.Grammar

namespace MiniC

/-! ## Pairs -/

/-- The bracket that closes an opening one. -/
def Bracket.closing? : Bracket → Option Bracket
  | .leftParenthesis => some .rightParenthesis
  | .leftCurlyBracket => some .rightCurlyBracket
  | .rightParenthesis | .rightCurlyBracket => none

/-- Neither a bracket nor the end mark. -/
def Terminal.isPlain : Terminal → Bool
  | .bracket _ | .endOfStream => false
  | _ => true

namespace Token

variable {t : Token} {b : Bracket}

/-- The bracket that closes this token, if it is an opening one. -/
def closing? (t : Token) : Option Bracket :=
  match t.lexeme with
  | .bracket b => b.closing?
  | _ => none

theorem closing?_of_lexeme (h : t.lexeme = .bracket b) : t.closing? = b.closing? := by
  unfold closing?
  rw [h]

theorem not_bracket_of_isPlain (h : t.terminal.isPlain = true) (b : Bracket) :
    t.lexeme ≠ .bracket b := by
  intro hl
  rw [terminal, hl] at h
  cases h

theorem live_of_isPlain (h : t.terminal.isPlain = true) : t.atEnd = false := by
  refine atEnd_eq_false fun hend => ?_
  rw [hend] at h
  cases h

theorem not_bracket_of_atEnd (h : t.atEnd = true) (b : Bracket) : t.lexeme ≠ .bracket b := by
  intro hlexeme
  unfold atEnd kind at h
  rw [hlexeme] at h
  cases h

end Token

/-! ## Nesting -/

/-- Every bracket is closed by one of its own kind, inner ones before outer ones. -/
inductive Nested : List Token → Prop
  | nil : Nested []
  | plain {t : Token} {ts : List Token} :
      (∀ b, t.lexeme ≠ .bracket b) → Nested ts → Nested (t :: ts)
  | pair {opening closing : Token} {r : Bracket} {inner ts : List Token} :
      opening.closing? = some r → closing.lexeme = .bracket r → Nested inner → Nested ts →
      Nested (opening :: (inner ++ closing :: ts))

theorem Nested.append {ts us : List Token} (h : Nested ts) (h' : Nested us) : Nested (ts ++ us) := by
  induction h with
  | nil => exact h'
  | plain hplain _ ih => exact .plain hplain ih
  | pair hopen hclose hinner _ _ ih =>
      have hpair := Nested.pair hopen hclose hinner ih
      simpa using hpair

/-- What `z` leaves open: this one bracket, or none. -/
inductive Leaves : List Token → Option Token → Prop
  | nested {z : List Token} : Nested z → Leaves z none
  | one {z v : List Token} {opening : Token} :
      Nested z → Nested v → Leaves (z ++ opening :: v) (some opening)

/-- Behind tokens that leave `s` open, `w` leaves `s'` open. -/
def Leads (s : Option Token) (w : List Token) (s' : Option Token) : Prop :=
  ∀ z, Leaves z s → Leaves (z ++ w) s'

namespace Leads

variable {s s' s'' : Option Token} {w v : List Token} {opening closing : Token} {r : Bracket}

theorem trans (h : Leads s w s') (h' : Leads s' v s'') : Leads s (w ++ v) s'' := by
  intro z hz
  rw [← List.append_assoc]
  exact h' _ (h z hz)

theorem of_nested (h : Nested w) : Leads s w s := by
  intro z hz
  cases hz with
  | nested hz => exact .nested (hz.append h)
  | one hz hv =>
      rw [List.append_assoc, List.cons_append]
      exact .one hz (hv.append h)

theorem nil : Leads s [] s := of_nested .nil

theorem plain {t : Token} (h : ∀ b, t.lexeme ≠ .bracket b) : Leads s [t] s :=
  of_nested (.plain h .nil)

/-- Tokens that leave nothing open where nothing was open are nested. -/
theorem nested (h : Leads none w none) : Nested w := by
  cases h [] (.nested .nil) with
  | nested hw => exact hw

theorem opened (opening : Token) : Leads none [opening] (some opening) := by
  rintro z ⟨hz⟩
  exact .one hz .nil

theorem closed (hopen : opening.closing? = some r) (hclose : closing.lexeme = .bracket r) :
    Leads (some opening) [closing] none := by
  intro z hz
  cases hz with
  | one hz hv =>
      rw [List.append_assoc]
      exact .nested (hz.append (.pair hopen hclose hv .nil))

end Leads

/-! ## Refusals for want of a bracket -/

/-- If the refusal is for want of a closing bracket, the one that it names is the innermost one that
`ts` leaves open, and it asks for the bracket that would close it. -/
def SyntaxError.NamesInnermost (ts : List Token) : SyntaxError → Prop
  | .unmatched expected found opening _ => ∃ before between r, ts = before ++ opening :: between ∧
      Nested between ∧ opening.closing? = some r ∧ expected = .bracket r ∧ found.lexeme ≠ .bracket r
  | _ => True

/-- What stands before makes no difference. -/
theorem SyntaxError.NamesInnermost.behind {e : SyntaxError} {ts : List Token}
    (h : e.NamesInnermost ts) (z : List Token) : e.NamesInnermost (z ++ ts) := by
  cases e with
  | unmatched expected found opening line =>
      obtain ⟨before, between, r, rfl, hrest⟩ := h
      exact ⟨z ++ before, between, r, (List.append_assoc z before _).symm, hrest⟩
  | _ => trivial

end MiniC
