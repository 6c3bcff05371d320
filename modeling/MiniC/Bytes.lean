/-
# MiniC.Bytes — raw text.

Source text is a list of bytes and stays one through tokens, tree dumps and error messages, so a
byte that belongs to no character is carried along unharmed.  Wording of our own enters as UTF-8
(`utf8`).  Decoding into characters happens only where a reader's screen needs it
(`MiniC.Text.Glyph`).
-/

namespace MiniC

/-- Raw text: the bytes in order, with no promise that they spell characters. -/
abbrev Bytes := List UInt8

/-- The UTF-8 bytes of a string. -/
def utf8 (s : String) : Bytes := s.toList.flatMap String.utf8EncodeChar

/-! ## Bytes with a meaning in source text -/

namespace Byte

def lineFeed : UInt8 := 10
def carriageReturn : UInt8 := 13
def space : UInt8 := 32
def hash : UInt8 := 35
def star : UInt8 := 42
def comma : UInt8 := 44
def slash : UInt8 := 47
def semicolon : UInt8 := 59

/-- Space, tab, line feed, carriage return, vertical tab and form feed. -/
def isBlank (b : UInt8) : Bool := b == 32 || (9 ≤ b && b ≤ 13)

def isDigit (b : UInt8) : Bool := 48 ≤ b && b ≤ 57

/-- ASCII letters and the underscore: what a name may start with. -/
def isWordStart (b : UInt8) : Bool := (65 ≤ b && b ≤ 90) || (97 ≤ b && b ≤ 122) || b == 95

/-- What a name may go on with. -/
def isWordByte (b : UInt8) : Bool := isWordStart b || isDigit b

end Byte

namespace Bytes

/-- Drops every carriage return at the end. -/
def trimReturns (bs : Bytes) : Bytes :=
  (bs.reverse.dropWhile (· == Byte.carriageReturn)).reverse

/-- The bytes before the first line feed, or all of them. -/
def firstLine (bs : Bytes) : Bytes := bs.takeWhile (· != Byte.lineFeed)

/-- The line after `n` line feeds; none if there are fewer. -/
def lineAfter : Nat → Bytes → Option Bytes
  | 0, bs => some (firstLine bs)
  | n + 1, bs =>
    match bs.dropWhile (· != Byte.lineFeed) with
    | [] => none
    | _ :: rest => lineAfter n rest

/-- `n` copies of the text, one after another. -/
def copies (n : Nat) (bs : Bytes) : Bytes := (List.replicate n bs).flatten

/-- The pieces joined by `separator`. -/
def join (separator : Bytes) (pieces : List Bytes) : Bytes := List.intercalate separator pieces

end Bytes

/-! ## Numbers as text -/

/-- Decimal text, with a minus sign below zero. -/
def decimal (n : Int) : Bytes := utf8 (toString n)

/-- Upper-case hexadecimal text, filled with zeros to two places; a minus sign takes one of them. -/
def hexPair (n : Int) : Bytes :=
  let digits := (Nat.toDigits 16 n.natAbs).map Char.toUpper
  utf8 (String.ofList (if n < 0 then '-' :: digits else if digits.length < 2 then '0' :: digits else digits))

end MiniC
