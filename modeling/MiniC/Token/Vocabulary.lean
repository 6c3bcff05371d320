/-
# MiniC.Token.Vocabulary — the closed sets of words and signs.

Keywords, operators and brackets, each with the label under which it is printed and the spelling
under which it is read.  `all` lists a set in its official order.
-/
import MiniC.Bytes

namespace MiniC

/-! ## Keywords -/

inductive Keyword where
  | if | else | for | while | return | break
  | int | short | long | unsigned | signed | float | double | char | void
  | struct
deriving DecidableEq, Repr

namespace Keyword

def all : List Keyword :=
  [.if, .else, .for, .while, .return, .break,
   .int, .short, .long, .unsigned, .signed, .float, .double, .char, .void,
   .struct]

def label : Keyword → String
  | .if => "If"
  | .else => "Else"
  | .for => "For"
  | .while => "While"
  | .return => "Return"
  | .break => "Break"
  | .int => "Int"
  | .short => "Short"
  | .long => "Long"
  | .unsigned => "Unsigned"
  | .signed => "Signed"
  | .float => "Float"
  | .double => "Double"
  | .char => "Char"
  | .void => "Void"
  | .struct => "Struct"

def spelling : Keyword → String
  | .if => "if"
  | .else => "else"
  | .for => "for"
  | .while => "while"
  | .return => "return"
  | .break => "break"
  | .int => "int"
  | .short => "short"
  | .long => "long"
  | .unsigned => "unsigned"
  | .signed => "signed"
  | .float => "float"
  | .double => "double"
  | .char => "char"
  | .void => "void"
  | .struct => "struct"

/-- The keywords of which types are made. -/
def isType : Keyword → Bool
  | .int | .short | .long | .unsigned | .signed | .float | .double | .char | .void => true
  | _ => false

/-- The keyword that `word` spells. -/
def ofSpelling? (word : Bytes) : Option Keyword := all.find? fun k => utf8 k.spelling == word

end Keyword

/-! ## Operators -/

inductive Operator where
  | add | minus | mul | division | assign
  | greater | greaterEqual | less | lessEqual | equal | notEqual
  | logicAnd | logicOr | logicNot | not
deriving DecidableEq, Repr

namespace Operator

def all : List Operator :=
  [.add, .minus, .mul, .division, .assign,
   .greater, .greaterEqual, .less, .lessEqual, .equal, .notEqual,
   .logicAnd, .logicOr, .logicNot, .not]

def label : Operator → String
  | .add => "Add"
  | .minus => "Minus"
  | .mul => "Mul"
  | .division => "Division"
  | .assign => "Assign"
  | .greater => "Greater"
  | .greaterEqual => "GreaterEqual"
  | .less => "Less"
  | .lessEqual => "LessEqual"
  | .equal => "Equal"
  | .notEqual => "NotEqual"
  | .logicAnd => "LogicAnd"
  | .logicOr => "LogicOr"
  | .logicNot => "LogicNot"
  | .not => "Not"

def spelling : Operator → String
  | .add => "+"
  | .minus => "-"
  | .mul => "*"
  | .division => "/"
  | .assign => "="
  | .greater => ">"
  | .greaterEqual => ">="
  | .less => "<"
  | .lessEqual => "<="
  | .equal => "=="
  | .notEqual => "!="
  | .logicAnd => "&&"
  | .logicOr => "||"
  | .logicNot => "!"
  | .not => "~"

/-- The operators of two bytes, then those of one: whoever tries them in this order takes the
longest spelling that fits. -/
def longestFirst : List Operator :=
  all.filter (fun o => o.spelling.length == 2) ++ all.filter (fun o => o.spelling.length == 1)

/-- The longest operator whose spelling opens the text. -/
def at? (text : Bytes) : Option Operator :=
  longestFirst.find? fun o => (utf8 o.spelling).isPrefixOf text

end Operator

/-! ## Brackets -/

inductive Bracket where
  | leftParenthesis | rightParenthesis | leftCurlyBracket | rightCurlyBracket
deriving DecidableEq, Repr

namespace Bracket

def all : List Bracket :=
  [.leftParenthesis, .rightParenthesis, .leftCurlyBracket, .rightCurlyBracket]

def label : Bracket → String
  | .leftParenthesis => "LeftParenthesis"
  | .rightParenthesis => "RightParenthesis"
  | .leftCurlyBracket => "LeftCurlyBracket"
  | .rightCurlyBracket => "RightCurlyBracket"

def spelling : Bracket → String
  | .leftParenthesis => "("
  | .rightParenthesis => ")"
  | .leftCurlyBracket => "\x7b"
  | .rightCurlyBracket => "\x7d"

/-- The bracket whose spelling opens the text. -/
def at? (text : Bytes) : Option Bracket := all.find? fun b => (utf8 b.spelling).isPrefixOf text

end Bracket

end MiniC
