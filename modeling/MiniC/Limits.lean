/-
# MiniC.Limits — how large a number or a text may be.

What picks one of many, or says how many there are, is a signed word of 64 bits.  A row of spaces
needs such a length, and room to be held in.
-/
import MiniC.Bytes

namespace MiniC

/-- Fits a signed word of 64 bits. -/
def isIndex (i : Int) : Bool := Int64.minValue.toInt ≤ i && i ≤ Int64.maxValue.toInt

/-- What is said of a number that is no index. -/
def noIndexMessage : Bytes := utf8 "cannot fit 'int' into an index-sized integer"

/-- The longest row of spaces there is room for. -/
def longestRow : Nat := 64 * 1024 * 1024 * 1024

/-- Why a row of spaces cannot be made. -/
inductive Excess where
  /-- Its length is no index. -/
  | noIndex
  /-- There is no room for it. -/
  | noRoom
deriving DecidableEq, Repr

namespace Excess

/-- Nothing is left to say where there is no room. -/
def message : Excess → Bytes
  | .noIndex => noIndexMessage
  | .noRoom => []

/-- What is wrong with a row of `n` spaces, if anything. -/
def ofLength? (n : Nat) : Option Excess :=
  if !isIndex n then some .noIndex
  else if longestRow < n then some .noRoom
  else none

end Excess

end MiniC
