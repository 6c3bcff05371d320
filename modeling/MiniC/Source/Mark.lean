/-
# MiniC.Source.Mark — a reading position, kept up to date byte by byte.

Only a line feed starts a new line; a carriage return is a byte like any other.  Columns count
bytes, so a character of several bytes takes several columns.
-/
import MiniC.Bytes

namespace MiniC

/-- How far a source has been read: bytes passed, current line and column (from one), and the
offset at which the current line starts. -/
structure Mark where
  offset : Nat := 0
  line : Nat := 1
  column : Nat := 1
  lineStart : Nat := 0
deriving DecidableEq, Repr

namespace Mark

/-- The mark after passing one byte. -/
def step (m : Mark) (b : UInt8) : Mark :=
  if b = Byte.lineFeed then
    { offset := m.offset + 1, line := m.line + 1, column := 1, lineStart := m.offset + 1 }
  else
    { m with offset := m.offset + 1, column := m.column + 1 }

/-- The mark after passing a piece of text. -/
def past (m : Mark) (text : Bytes) : Mark := text.foldl step m

end Mark

end MiniC
