/-
# MiniC.Text.Quoted — text in quotes, on one line and in visible characters only.

The quote is a single one, or a double one if the text holds single quotes and no double quote.
The quote itself and the backslash get a backslash in front; tab, line feed and carriage return are
`\t`, `\n` and `\r`; any other character that cannot be shown is written by its number, as `\x`,
`\u` or `\U` with two, four or eight lower-case hexadecimal digits.  A stray byte is written as the
number `0xDC00` plus the byte, which belongs to no character.
-/
import MiniC.Text.Glyph
import MiniC.Text.Printable

namespace MiniC.Text

/-- Lower-case hexadecimal digits, filled with zeros to `width` places. -/
def hexDigits (width n : Nat) : List Char :=
  let digits := Nat.toDigits 16 n
  List.replicate (width - digits.length) '0' ++ digits

/-- A character by its number, in the shortest of the three forms. -/
def numbered (n : Nat) : List Char :=
  if n < 0x100 then '\\' :: 'x' :: hexDigits 2 n
  else if n < 0x10000 then '\\' :: 'u' :: hexDigits 4 n
  else '\\' :: 'U' :: hexDigits 8 n

/-- A stray byte by its number. -/
def numberedStray (b : UInt8) : List Char := numbered (0xDC00 + b.toNat)

/-- One glyph as it stands between quotes of the kind `mark`. -/
def escape (mark : Char) : Glyph → List Char
  | .stray b => numberedStray b
  | .char c =>
    if c = mark ∨ c = '\\' then ['\\', c]
    else if c = '\t' then ['\\', 't']
    else if c = '\n' then ['\\', 'n']
    else if c = '\r' then ['\\', 'r']
    else if isPrintable c then [c]
    else numbered c.toNat

/-- The kind of quote a text gets. -/
def quoteMark (gs : List Glyph) : Char :=
  if gs.contains (.char '\'') && !gs.contains (.char '"') then '"' else '\''

/-- The text in quotes. -/
def quote (text : Bytes) : Bytes :=
  let gs := Glyph.decode text
  let mark := quoteMark gs
  utf8 (String.ofList (mark :: gs.flatMap (escape mark) ++ [mark]))

end MiniC.Text
