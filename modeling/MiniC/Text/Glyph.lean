/-
# MiniC.Text.Glyph — bytes as a reader's screen sees them.

`decode` reads UTF-8 strictly: overlong forms, surrogates and values above U+10FFFF are no
characters.  A byte that belongs to no character is kept as a `stray`, so nothing is lost and
`encode` gives the bytes back.
-/
import MiniC.Bytes

namespace MiniC

/-- One character, or one byte that belongs to none. -/
inductive Glyph where
  | char (c : Char)
  | stray (b : UInt8)
deriving DecidableEq, Repr

namespace Glyph

/-- The value of `k` continuation bytes added to the bits read before them. -/
def gather : Nat → Nat → Bytes → Option Nat
  | 0, bits, _ => some bits
  | _ + 1, _, [] => none
  | k + 1, bits, b :: rest =>
    if 0x80 ≤ b ∧ b < 0xC0 then gather k (bits * 64 + (b.toNat - 0x80)) rest else none

/-- The character with number `n`, if it is one and needs the length it was written with. -/
def scalar? (least n : Nat) : Option Char :=
  if least ≤ n ∧ n.isValidChar then some (Char.ofNat n) else none

/-- The character a text opens with, and how many bytes follow its first. -/
def charAt? : Bytes → Option (Char × Nat)
  | [] => none
  | b :: rest =>
    if b < 0x80 then some (Char.ofNat b.toNat, 0)
    else if b < 0xC0 then none
    else if b < 0xE0 then (gather 1 (b.toNat - 0xC0) rest >>= scalar? 0x80).map (·, 1)
    else if b < 0xF0 then (gather 2 (b.toNat - 0xE0) rest >>= scalar? 0x800).map (·, 2)
    else if b < 0xF8 then (gather 3 (b.toNat - 0xF0) rest >>= scalar? 0x10000).map (·, 3)
    else none

/-- Decodes after `skip` bytes that belong to the character before. -/
def decodeFrom : Nat → Bytes → List Glyph
  | _, [] => []
  | skip + 1, _ :: rest => decodeFrom skip rest
  | 0, b :: rest =>
    match charAt? (b :: rest) with
    | some (c, more) => .char c :: decodeFrom more rest
    | none => .stray b :: decodeFrom 0 rest

/-- The characters of a text, with the bytes that belong to none in their places. -/
def decode (text : Bytes) : List Glyph := decodeFrom 0 text

/-- The bytes of a glyph. -/
def bytes : Glyph → Bytes
  | .char c => String.utf8EncodeChar c
  | .stray b => [b]

/-- The bytes of a row of glyphs. -/
def encode (gs : List Glyph) : Bytes := gs.flatMap bytes

def isStray : Glyph → Bool
  | .stray _ => true
  | .char _ => false

end Glyph

end MiniC
