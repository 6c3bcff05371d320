/-
# MiniC.Token.Munch — the longest lexeme a text opens with.

The first byte decides the class; within a class the longest match wins.  A `#` takes the rest of
its line, a word every word byte, a number every digit, an operator the longer of two spellings.
-/
import MiniC.Token.Basic

namespace MiniC

/-- A lexeme read off the front of a text, and how many bytes of it that took. -/
structure Munch where
  lexeme : Lexeme
  length : Nat
deriving DecidableEq, Repr

namespace Munch

/-- A `#` line without its line feed; the carriage returns at its end are passed, not kept. -/
def preprocessor (text : Bytes) : Munch :=
  let line := Bytes.firstLine text
  ⟨.preprocessor (some (Bytes.trimReturns line)), line.length⟩

def word (text : Bytes) : Munch :=
  let run := text.takeWhile Byte.isWordByte
  ⟨Lexeme.ofWord run, run.length⟩

def number (text : Bytes) : Munch :=
  let run := text.takeWhile Byte.isDigit
  ⟨.number (some run), run.length⟩

/-- An operator, a bracket, a comma or a semicolon. -/
def sign? (text : Bytes) : Option Munch :=
  match Operator.at? text with
  | some o => some ⟨.operator o, (utf8 o.spelling).length⟩
  | none =>
    match Bracket.at? text with
    | some b => some ⟨.bracket b, (utf8 b.spelling).length⟩
    | none =>
      if text.head? = some Byte.comma then some ⟨.comma none, 1⟩
      else if text.head? = some Byte.semicolon then some ⟨.semicolon none, 1⟩
      else none

/-- The longest lexeme that `text` opens with, if its first byte starts one. -/
def first? : Bytes → Option Munch
  | [] => none
  | b :: rest =>
    if b = Byte.hash then some (preprocessor (b :: rest))
    else if Byte.isWordStart b then some (word (b :: rest))
    else if Byte.isDigit b then some (number (b :: rest))
    else sign? (b :: rest)

/-- A lexeme takes at least one byte. -/
theorem first?_length_pos {text : Bytes} {m : Munch} (h : first? text = some m) : 0 < m.length := by
  cases text with
  | nil => simp [first?] at h
  | cons b rest =>
    simp only [first?] at h
    split at h
    · next hash =>
      obtain rfl := Option.some.inj h
      subst hash
      simp [preprocessor, Bytes.firstLine, Byte.hash, Byte.lineFeed]
    · split at h
      · next start =>
        obtain rfl := Option.some.inj h
        simp [word, Byte.isWordByte, start]
      · split at h
        · next digit =>
          obtain rfl := Option.some.inj h
          simp [number, digit]
        · simp only [sign?] at h
          split at h
          · next o _ =>
            obtain rfl := Option.some.inj h
            cases o <;> decide
          · split at h
            · next b _ =>
              obtain rfl := Option.some.inj h
              cases b <;> decide
            · split at h
              · obtain rfl := Option.some.inj h
                exact Nat.one_pos
              · split at h
                · obtain rfl := Option.some.inj h
                  exact Nat.one_pos
                · simp at h

end Munch

end MiniC
