/-
# MiniC.Token.Basic — lexemes, and tokens: lexemes at a place.

A lexeme is a kind together with what that kind carries: a keyword, operator or bracket carries
which one it is, every other kind may carry text.  A token adds the file, line, column and byte
offset at which the lexeme starts.  Two tokens are equal when all of that agrees.
-/
import MiniC.Token.Vocabulary
import MiniC.Source.Location

namespace MiniC

/-! ## Kinds -/

/-- What sort of token something is. -/
inductive TokenKind where
  | preprocessor | keyword | identifier | number | operator | bracket
  | comma | semicolon | endOfStream
deriving DecidableEq, Repr

namespace TokenKind

def all : List TokenKind :=
  [.preprocessor, .keyword, .identifier, .number, .operator, .bracket,
   .comma, .semicolon, .endOfStream]

def label : TokenKind → String
  | .preprocessor => "Preprocessor"
  | .keyword => "KeyWord"
  | .identifier => "Identifier"
  | .number => "Number"
  | .operator => "Operator"
  | .bracket => "Bracket"
  | .comma => "Comma"
  | .semicolon => "Semicolon"
  | .endOfStream => "EndOfStream"

end TokenKind

/-! ## Lexemes -/

/-- A kind with what it carries.  Reading source gives text to preprocessor lines, identifiers and
numbers, and none to the last three. -/
inductive Lexeme where
  | keyword (word : Keyword)
  | operator (op : Operator)
  | bracket (b : Bracket)
  | preprocessor (text : Option Bytes)
  | identifier (text : Option Bytes)
  | number (text : Option Bytes)
  | comma (text : Option Bytes)
  | semicolon (text : Option Bytes)
  | endOfStream (text : Option Bytes)
deriving DecidableEq, Repr

namespace Lexeme

def kind : Lexeme → TokenKind
  | .keyword _ => .keyword
  | .operator _ => .operator
  | .bracket _ => .bracket
  | .preprocessor _ => .preprocessor
  | .identifier _ => .identifier
  | .number _ => .number
  | .comma _ => .comma
  | .semicolon _ => .semicolon
  | .endOfStream _ => .endOfStream

/-- The text a lexeme carries; keywords, operators and brackets carry none. -/
def text? : Lexeme → Option Bytes
  | .keyword _ | .operator _ | .bracket _ => none
  | .preprocessor text | .identifier text | .number text => text
  | .comma text | .semicolon text | .endOfStream text => text

/-- Prints the kind, then in parentheses which word or sign it is, or the text in quotes exactly as
it stands. -/
def render (l : Lexeme) : Bytes :=
  let label := utf8 l.kind.label
  match l with
  | .keyword k => label ++ utf8 "(" ++ utf8 k.label ++ utf8 ")"
  | .operator o => label ++ utf8 "(" ++ utf8 o.label ++ utf8 ")"
  | .bracket b => label ++ utf8 "(" ++ utf8 b.label ++ utf8 ")"
  | _ =>
    match l.text? with
    | some text => label ++ utf8 "(\"" ++ text ++ utf8 "\")"
    | none => label

/-- The lexeme of a word: a keyword if the whole of it spells one, else an identifier. -/
def ofWord (word : Bytes) : Lexeme :=
  match Keyword.ofSpelling? word with
  | some k => .keyword k
  | none => .identifier (some word)

end Lexeme

/-! ## Tokens -/

/-- A lexeme and where it starts. -/
structure Token where
  lexeme : Lexeme
  line : Int := 1
  column : Int := 1
  offset : Int := 0
  file : String := "<input>"
deriving DecidableEq, Repr

namespace Token

def kind (t : Token) : TokenKind := t.lexeme.kind

def location (t : Token) : Location := { file := t.file, line := t.line, column := t.column }

def render (t : Token) : Bytes := t.lexeme.render

/-- Prints the token with its line and column. -/
def describe (t : Token) : Bytes :=
  utf8 "Token(" ++ t.render ++ utf8 ", " ++ decimal t.line ++ utf8 ":" ++ decimal t.column ++ utf8 ")"

/-- The mark that closes every token stream. -/
def atEnd (t : Token) : Bool := t.kind == .endOfStream

/-- The token is one of the given keywords, or any keyword if none is given. -/
def isKeyword (t : Token) (among : List Keyword) : Bool :=
  match t.lexeme with
  | .keyword k => among.isEmpty || among.contains k
  | _ => false

/-- The token is one of the given operators, or any operator if none is given. -/
def isOperator (t : Token) (among : List Operator) : Bool :=
  match t.lexeme with
  | .operator o => among.isEmpty || among.contains o
  | _ => false

def isBracket (t : Token) (b : Bracket) : Bool := t.lexeme == .bracket b

def isTypeKeyword (t : Token) : Bool :=
  match t.lexeme with
  | .keyword k => k.isType
  | _ => false

end Token

end MiniC
