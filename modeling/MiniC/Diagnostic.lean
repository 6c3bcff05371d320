/-
# MiniC.Diagnostic — what can be wrong with a source, and how that is told.

A `SyntaxError` is a cause: a byte that starts no token, a comment that is never closed, a token
that does not fit, a bracket that is never closed.  Its `diagnostic` puts the cause into words; the
layout of a diagnostic — place, wording, the line with a caret under the column, a hint — is
decided in one function, `Diagnostic.render`.
-/
import MiniC.Limits
import MiniC.Token.Basic

namespace MiniC

/-! ## Layout -/

/-- A message with the place it is about. -/
structure Diagnostic where
  message : Bytes
  location : Option Location := none
  hint : Option Bytes := none
  sourceLine : Option Bytes := none
deriving DecidableEq, Repr

namespace Diagnostic

def headline (d : Diagnostic) : Bytes :=
  match d.location with
  | some l => l.render ++ utf8 ": error: " ++ d.message
  | none => utf8 "error: " ++ d.message

/-- Spaces in front of a caret under a column. -/
def caretMargin (column : Int) : Nat := 4 + column.toNat - 1

/-- The source line, moved in by four, and under it a caret below the column.  A line without a
place is not shown, nor a caret without a positive column. -/
def excerpt (d : Diagnostic) : List Bytes :=
  match d.sourceLine, d.location with
  | some line, some l =>
    (utf8 "    " ++ line) ::
      if l.column > 0 then [List.replicate (caretMargin l.column) Byte.space ++ utf8 "^"] else []
  | _, _ => []

/-- Why the text cannot be made, if it cannot: the caret stands too far out. -/
def excess? (d : Diagnostic) : Option Excess :=
  match d.sourceLine, d.location with
  | some _, some l => if l.column > 0 then Excess.ofLength? (caretMargin l.column) else none
  | _, _ => none

def hintLines (d : Diagnostic) : List Bytes :=
  match d.hint with
  | some hint => if hint.isEmpty then [] else [utf8 "hint: " ++ hint]
  | none => []

/-- The whole text, one line each for headline, source line, caret and hint. -/
def render (d : Diagnostic) : Bytes :=
  Bytes.join [Byte.lineFeed] (d.headline :: d.excerpt ++ d.hintLines)

end Diagnostic

/-! ## What a rule of the grammar was looking for -/

inductive Expectation where
  | declaration
  | identifier
  | argumentName
  | callAfterVoid
  | objectType
  | typeSpecifier
  | bracket (b : Bracket)
  | semicolon
  | bodyOrSemicolon
  | member
  | statement
  | assignAfterName
  | assign
  | elseBranch
  | booleanOperator
  | operand
  /-- Something put into words by hand. -/
  | described (text : Bytes)
deriving DecidableEq, Repr

namespace Expectation

def render : Expectation → Bytes
  | .declaration => utf8 "declaration or definition"
  | .identifier => utf8 "identifier"
  | .argumentName => utf8 "argument name"
  | .callAfterVoid => utf8 "'(' after a void declaration"
  | .objectType => utf8 "variable type ('void' is only valid for return types)"
  | .typeSpecifier => utf8 "type specifier"
  | .bracket b => utf8 "'" ++ utf8 b.spelling ++ utf8 "'"
  | .semicolon => utf8 "';'"
  | .bodyOrSemicolon => utf8 "';' or '\x7b' after function signature"
  | .member => utf8 "struct member declaration"
  | .statement => utf8 "statement"
  | .assignAfterName => utf8 "'=' after identifier"
  | .assign => utf8 "'='"
  | .elseBranch => utf8 "'else'"
  | .booleanOperator => utf8 "one of '||', '&&', '==', '!=', '>', '>=', '<', '<='"
  | .operand => utf8 "identifier, number or '('"
  | .described text => text

end Expectation

/-! ## Causes -/

/-- Why a source is refused.  `position` is a byte offset. -/
inductive SyntaxError where
  /-- A byte that starts no token.  `message` and `hint` replace the usual wording. -/
  | invalidByte (byte position : Int) (location : Option Location) (sourceLine : Option Bytes)
      (message hint : Option Bytes)
  /-- A comment opened at `position` and never closed. -/
  | unclosedComment (position : Int) (location : Option Location) (sourceLine : Option Bytes)
  /-- A token that does not fit. -/
  | unexpected (expected : Expectation) (found : Token) (sourceLine hint : Option Bytes)
  /-- A token where the bracket that closes `opening` should stand. -/
  | unmatched (expected : Expectation) (found opening : Token) (sourceLine : Option Bytes)
deriving DecidableEq, Repr

namespace SyntaxError

/-- The usual wording for a byte that starts no token: the byte itself too, if it can be shown. -/
def invalidByteMessage (byte : Int) : Bytes :=
  if 0x20 ≤ byte ∧ byte < 0x7F then
    utf8 "invalid byte '" ++ [UInt8.ofNat byte.toNat] ++ utf8 "' (0x" ++ hexPair byte ++ utf8 ")"
  else
    utf8 "invalid byte 0x" ++ hexPair byte

/-- A lone half of `&&` or `||` gets a hint. -/
def invalidByteHint (byte : Int) : Option Bytes :=
  if byte = 38 then some (utf8 "only '&&' is supported")
  else if byte = 124 then some (utf8 "only '||' is supported")
  else none

/-- The byte a comment starts with, which stands for the comment when it is never closed. -/
def commentByte : Int := 47

def message : SyntaxError → Bytes
  | .invalidByte byte _ _ _ message _ => message.getD (invalidByteMessage byte)
  | .unclosedComment .. => utf8 "unterminated multi-line comment"
  | .unexpected expected found _ _ | .unmatched expected found _ _ =>
    utf8 "expected " ++ expected.render ++ utf8 ", found " ++ found.render

def location : SyntaxError → Option Location
  | .invalidByte _ _ location _ _ _ => location
  | .unclosedComment _ location _ => location
  | .unexpected _ found _ _ | .unmatched _ found _ _ => some found.location

def hint : SyntaxError → Option Bytes
  | .invalidByte byte _ _ _ _ hint => hint <|> invalidByteHint byte
  | .unclosedComment .. => some (utf8 "add closing */ to terminate the comment")
  | .unexpected _ _ _ hint => hint
  | .unmatched _ _ opening _ =>
    some (utf8 "unmatched " ++ opening.render ++ utf8 " opened at " ++ opening.location.render)

def sourceLine : SyntaxError → Option Bytes
  | .invalidByte _ _ _ line _ _ => line
  | .unclosedComment _ _ line => line
  | .unexpected _ _ line _ => line
  | .unmatched _ _ _ line => line

/-- Byte offset of what is wrong. -/
def position : SyntaxError → Int
  | .invalidByte _ position _ _ _ _ => position
  | .unclosedComment position _ _ => position
  | .unexpected _ found _ _ | .unmatched _ found _ _ => found.offset

/-- The cause in words. -/
def diagnostic (e : SyntaxError) : Diagnostic :=
  { message := e.message, location := e.location, hint := e.hint, sourceLine := e.sourceLine }

def render (e : SyntaxError) : Bytes := e.diagnostic.render

end SyntaxError

end MiniC
