/-
# MiniC.Grammar.Unit — top-level items, and a parser run from start to end.

An item is a preprocessor line, a structure, a variable definition, or a function: declared if a
semicolon follows its arguments, defined if a block does.  Only a function may be `void`.

A parser runs once.  It keeps its tree if it succeeds; if the source is refused it keeps none, and
stands wherever reading stopped, as does its reader.  The reader is not the parser's own: it may be
read past the parser, and a new parser may go on with it.
-/
import MiniC.Grammar.Statement

namespace MiniC

namespace Rule

/-- What follows the name of a function. -/
def functionRest (strict : Bool) (type name : Node) (budget : Nat) : Rule Node := do
  let opening ← expectBracket .leftParenthesis
  let args ← arguments budget
  close .rightParenthesis opening
  let t ← peek
  match t.lexeme with
  | .semicolon _ =>
    let _ ← take
    return .branch .funcDeclare (type :: name :: args)
  | .bracket .leftCurlyBracket =>
    let body ← block strict budget
    return .branch .funcDefine (type :: name :: args ++ [body])
  | _ => refuse .bodyOrSemicolon t

/-- A function or a variable definition. -/
def declaration (strict : Bool) (budget : Nat) : Rule Node := do
  let type ← variableType true
  let name ← expectIdentifier .identifier
  let t ← peek
  if t.isBracket .leftParenthesis then functionRest strict type name budget
  else if isVoid type then refuse .callAfterVoid t
  else variableRest type name budget

/-- One top-level item. -/
def item (strict : Bool) (budget : Nat) : Rule Node := do
  let t ← peek
  note (.item t)
  match t.lexeme with
  | .preprocessor _ => takeLeaf
  | .keyword .struct => structDefine budget
  | .keyword k => if k.isType then declaration strict budget else refuse .declaration t
  | _ => refuse .declaration t

/-- All top-level items up to the end. -/
def items (strict : Bool) (budget : Nat) : Rule (List Node) :=
  repeatWhile (return !(← peek).atEnd) (return [← item strict budget]) budget

end Rule

namespace Parser

/-- Reads everything the reader still holds into a tree. -/
def run (p : Parser) : Except Failure Tree × Parser :=
  if p.started then (.error .alreadyRun, p)
  else
    match Rule.items p.strict p.budget { p with started := true } with
    | .ok items after =>
      let tree := Tree.ofItems p.reader.file items
      (.ok tree, { after with tree := some tree })
    | .error (.refused reason) after =>
      (.error (.refused reason), { after with journal := .aborted reason :: after.journal })
    | .error failure after => (.error failure, after)

/-- Changes how conditions are read, for a run still to come. -/
def setStrict (p : Parser) (strict : Bool) : Parser := { p with strict }

/-- Takes the next token straight from the reader, past the tokens looked at. -/
def readPast (p : Parser) : Except SyntaxError Token × Parser :=
  let (delivery, reader) := p.reader.next
  (delivery, { p with reader })

/-- A new parser that goes on with the same reader. -/
def renew (p : Parser) (strict : Bool) : Parser := Parser.new p.reader strict

/-- The tree of a parser that has succeeded, each node on a line of its own. -/
def dump (p : Parser) (indent : Indent) : Except Failure Bytes :=
  match p.tree with
  | some tree => .ok (tree.write indent)
  | none => .error .noTree

end Parser

end MiniC
