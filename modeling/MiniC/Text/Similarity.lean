/-
# MiniC.Text.Similarity — how alike two words are.

Two words share their longest common run, and to the left and to the right of it whatever they
share there.  Their likeness is the share of letters so matched, in both words together; words with
at least three fifths in common count as close.
-/

namespace MiniC.Text

/-- Length of the common beginning. -/
def commonStart : List Char → List Char → Nat
  | a :: as, b :: bs => if a = b then 1 + commonStart as bs else 0
  | _, _ => 0

/-- A run that two words have in common: where it starts in each, and its length. -/
structure Run where
  left : Nat
  right : Nat
  length : Nat
deriving DecidableEq, Repr

/-- The longest common run; of several, the one that starts first in `a`, then first in `b`. -/
def longestRun (a b : List Char) : Run :=
  let starts := (List.range a.length).flatMap fun i => (List.range b.length).map fun j => (i, j)
  starts.foldl
    (fun best (i, j) =>
      let n := commonStart (a.drop i) (b.drop j)
      if best.length < n then ⟨i, j, n⟩ else best)
    ⟨0, 0, 0⟩

/-- Letters matched, with at most `depth` runs inside one another. -/
def matchedWithin : Nat → List Char → List Char → Nat
  | 0, _, _ => 0
  | depth + 1, a, b =>
    let run := longestRun a b
    if run.length = 0 then 0
    else
      run.length
        + matchedWithin depth (a.take run.left) (b.take run.right)
        + matchedWithin depth (a.drop (run.left + run.length)) (b.drop (run.right + run.length))

/-- Letters of `a` matched in `b`.  Each run leaves shorter words, so the length bounds the depth. -/
def matched (a b : String) : Nat := matchedWithin a.length a.toList b.toList

/-- A word from a list, with how many of its letters match and how many there are in both. -/
structure Candidate where
  word : String
  matched : Nat
  total : Nat
deriving DecidableEq, Repr

namespace Candidate

def isClose (c : Candidate) : Bool := 3 * c.total ≤ 10 * c.matched

/-- Comes before `d`: more alike, or as alike and later in the alphabet. -/
def before (c d : Candidate) : Bool :=
  if c.matched * d.total = d.matched * c.total then d.word < c.word
  else d.matched * c.total < c.matched * d.total

end Candidate

/-- Puts a candidate in its place in a row, best first. -/
def place (c : Candidate) : List Candidate → List Candidate
  | [] => [c]
  | d :: ds => if c.before d then c :: d :: ds else d :: place c ds

/-- The words close to `word`, best first, `count` of them at most.  No more letters match than the
shorter of two words has, so most words of another length are passed without a look. -/
def closest (count : Nat) (word : String) (words : List String) : List String :=
  let comparable := words.filter fun w =>
    Candidate.isClose ⟨w, min w.length word.length, w.length + word.length⟩
  let candidates := comparable.map fun w => ⟨w, matched w word, w.length + word.length⟩
  (((candidates.filter Candidate.isClose).foldr place []).take count).map Candidate.word

end MiniC.Text
