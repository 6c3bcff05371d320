/-
# MiniC.Source.Location — where something stands in a named source.

Lines and columns start at one.  They are integers, not naturals, because a location may also be
written down by hand, and nothing here depends on its being sensible.
-/
import MiniC.Bytes

namespace MiniC

/-- A place in a named source. -/
structure Location where
  file : String
  line : Int
  column : Int
deriving DecidableEq, Repr

namespace Location

/-- Prints as `file:line:column`. -/
def render (l : Location) : Bytes :=
  utf8 l.file ++ utf8 ":" ++ decimal l.line ++ utf8 ":" ++ decimal l.column

end Location

end MiniC
