/-
# MiniC.Grammar.Statement — statements and blocks.

The token in front decides the rule; only a name asks for one more, since it begins an assignment.
Every `if` has its `else`.  A loop `for` always has four children: a clause left out is an `Empty`
node.  Under strict reading a condition must have a boolean operator at its top.
-/
import MiniC.Grammar.Expression
import MiniC.Grammar.Declaration

namespace MiniC.Rule

/-! ## Conditions and clauses -/

/-- Under strict reading, refuses what follows a condition without a boolean operator. -/
def checkCondition (strict : Bool) (condition : Node) : Rule Unit := do
  if strict && !condition.isBoolean then refuse .booleanOperator (← peek)

/-- A condition in parentheses. -/
def condition (strict : Bool) (budget : Nat) : Rule Node := do
  let opening ← expectBracket .leftParenthesis
  let inner ← boolExpr budget
  checkCondition strict inner
  close .rightParenthesis opening
  return inner

/-- A name, an equals sign and a value. -/
def assignment (budget : Nat) : Rule Node := do
  let target ← expectIdentifier .identifier
  let _ ← expect (· == .operator .assign) .assign
  let value ← boolExpr budget
  return .branch .assignStmt [target, value]

/-- An assignment, an expression, or nothing. -/
def forClause (budget : Nat) : Rule Node := do
  let t ← peek
  match t.lexeme with
  | .semicolon _ | .bracket .rightParenthesis => return .branchAt t.location .empty []
  | .identifier _ =>
    if (← peekSecond).isOperator [.assign] then assignment budget else boolExpr budget
  | _ => boolExpr budget

/-! ## Statements, given how to read a smaller one -/

/-- Statements in curly brackets; the block starts at its bracket. -/
def blockOf (stmt : Rule Node) (budget : Nat) : Rule Node := do
  let opening ← expectBracket .leftCurlyBracket
  let body ← repeatWhile insideBody (return [← stmt]) budget
  close .rightCurlyBracket opening
  return .branchAt opening.location .stmtBlock body

def ifOf (strict : Bool) (stmt : Rule Node) (budget : Nat) : Rule Node := do
  let keyword ← take
  let condition ← condition strict budget
  let thenBranch ← stmt
  let _ ← expect (· == .keyword .else) .elseBranch
  let elseBranch ← stmt
  return .branchAt keyword.location .ifStmt [condition, thenBranch, elseBranch]

def whileOf (strict : Bool) (stmt : Rule Node) (budget : Nat) : Rule Node := do
  let keyword ← take
  let condition ← condition strict budget
  let body ← stmt
  return .branchAt keyword.location .whileLoop [condition, body]

def forOf (strict : Bool) (stmt : Rule Node) (budget : Nat) : Rule Node := do
  let keyword ← take
  let opening ← expectBracket .leftParenthesis
  let start ← forClause budget
  let _ ← expectSemicolon
  let condition ← forClause budget
  checkCondition (strict && condition.kind != .empty) condition
  let _ ← expectSemicolon
  let step ← forClause budget
  close .rightParenthesis opening
  let body ← stmt
  return .branchAt keyword.location .forLoop [start, condition, step, body]

/-! ## Statements -/

def breakStmt : Rule Node := do
  let keyword ← take
  let _ ← expectSemicolon
  return .branchAt keyword.location .breakStmt []

/-- What a `return` gives back, if anything. -/
def returnValue (budget : Nat) : Rule (List Node) := do
  if (← peek).kind == .semicolon then return [] else return [← boolExpr budget]

def returnStmt (budget : Nat) : Rule Node := do
  let keyword ← take
  let value ← returnValue budget
  let _ ← expectSemicolon
  return .branchAt keyword.location .returnStmt value

/-- An assignment and its semicolon; a name that no equals sign follows is refused there. -/
def assignStmt (budget : Nat) : Rule Node := do
  let second ← peekSecond
  if second.isOperator [.assign] then
    let statement ← assignment budget
    let _ ← expectSemicolon
    return statement
  else
    refuse .assignAfterName second

/-- A semicolon alone. -/
def emptyStmt : Rule Node := return .branchAt (← take).location .empty []

/-- A statement, given how to read those inside it. -/
def stmtOf (strict : Bool) (budget : Nat) (inner : Rule Node) : Rule Node := do
  let t ← peek
  note (.statement t)
  match t.lexeme with
  | .bracket .leftCurlyBracket => blockOf inner budget
  | .keyword .if => ifOf strict inner budget
  | .keyword .while => whileOf strict inner budget
  | .keyword .for => forOf strict inner budget
  | .keyword .break => breakStmt
  | .keyword .return => returnStmt budget
  | .keyword k => if k.isType then variableDefine budget else refuse .statement t
  | .semicolon _ => emptyStmt
  | .identifier _ => assignStmt budget
  | _ => refuse .statement t

/-- Any statement. -/
def stmt (strict : Bool) : Nat → Rule Node
  | 0 => throw .exhausted
  | budget + 1 => stmtOf strict budget (stmt strict budget)

def block (strict : Bool) (budget : Nat) : Rule Node := blockOf (stmt strict budget) budget

end MiniC.Rule
