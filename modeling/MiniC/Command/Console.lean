/-
# MiniC.Command.Console — what reaches the two output channels.

Text of the command itself has terminal control sequences taken out first: an escape character, an
opening square bracket, any number of digits, semicolons and question marks, and a letter.

The standard channel takes characters only: a text with a stray byte is refused whole, and the
refusal says where.  The error channel takes everything and spells a stray byte by its number.
-/
import MiniC.Text.Quoted

namespace MiniC.Console

/-! ## Control sequences -/

def escape : Glyph := .char (Char.ofNat 27)

def isParameter : Glyph → Bool
  | .char c => c.isDigit || c == ';' || c == '?'
  | .stray _ => false

def isFinal : Glyph → Bool
  | .char c => c.isAlpha
  | .stray _ => false

/-- How much of a control sequence has been seen; what was held back is given back if it turns out
to be none. -/
inductive Held where
  | nothing
  | escape
  /-- The parameters so far, newest first. -/
  | sequence (parameters : List Glyph)
deriving DecidableEq, Repr

namespace Held

/-- What to show if the sequence breaks off here. -/
def shown : Held → List Glyph
  | .nothing => []
  | .escape => [Console.escape]
  | .sequence parameters => Console.escape :: .char '[' :: parameters.reverse

end Held

/-- Takes control sequences out, after what is held back. -/
def filterFrom : Held → List Glyph → List Glyph
  | held, [] => held.shown
  | .escape, g :: rest =>
    if g = .char '[' then filterFrom (.sequence []) rest
    else if g = escape then escape :: filterFrom .escape rest
    else escape :: g :: filterFrom .nothing rest
  | .sequence parameters, g :: rest =>
    if isParameter g then filterFrom (.sequence (g :: parameters)) rest
    else if isFinal g then filterFrom .nothing rest
    else
      (Held.sequence parameters).shown ++
        if g = escape then filterFrom .escape rest else g :: filterFrom .nothing rest
  | .nothing, g :: rest =>
    if g = escape then filterFrom .escape rest else g :: filterFrom .nothing rest

/-- The text without control sequences. -/
def filterControls (gs : List Glyph) : List Glyph := filterFrom .nothing gs

/-! ## Channels -/

/-- The first run of stray bytes: where it starts, its first byte, and how many follow. -/
structure Refusal where
  position : Nat
  first : UInt8
  more : Nat
deriving DecidableEq, Repr

namespace Refusal

def message (r : Refusal) : Bytes :=
  let subject :=
    if r.more = 0 then
      "character '" ++ String.ofList (Text.numberedStray r.first) ++ "' in position " ++ toString r.position
    else
      "characters in position " ++ toString r.position ++ "-" ++ toString (r.position + r.more)
  utf8 ("'utf-8' codec can't encode " ++ subject ++ ": surrogates not allowed")

end Refusal

/-- The first run of stray bytes in a text, `position` characters into it. -/
def refusal? (position : Nat) : List Glyph → Option Refusal
  | [] => none
  | .stray b :: rest => some ⟨position, b, (rest.takeWhile Glyph.isStray).length⟩
  | .char _ :: rest => refusal? (position + 1) rest

/-- What the standard channel makes of a text. -/
def standard (gs : List Glyph) : Except Refusal Bytes :=
  match refusal? 0 gs with
  | some r => .error r
  | none => .ok (Glyph.encode gs)

/-- One glyph on the error channel. -/
def errorGlyph : Glyph → Bytes
  | .char c => String.utf8EncodeChar c
  | .stray b => utf8 (String.ofList (Text.numberedStray b))

/-- What the error channel makes of a text. -/
def error (gs : List Glyph) : Bytes := gs.flatMap errorGlyph

/-- A line of the command's own, as glyphs to be written. -/
def line (text : Bytes) : List Glyph := filterControls (Glyph.decode (text ++ [Byte.lineFeed]))

end MiniC.Console
