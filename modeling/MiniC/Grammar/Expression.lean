/-
# MiniC.Grammar.Expression — arithmetic and boolean expressions.

Six levels of operators bind ever more tightly: `||`, `&&`, equality, comparison, `+ -`, `* /`.
Each level is a chain `B (op B)*` over the next one and makes one flat node for the whole chain, or
none if it met no operator.  Below the arithmetic levels stand names, numbers and parentheses;
below the boolean ones stand arithmetic, negation and parentheses.

A parenthesis at the boolean level may turn out to hold arithmetic, as in `(a + b) * c`; if an
arithmetic operator follows it, the arithmetic chain goes on from there.
-/
import MiniC.Grammar.Parser

namespace MiniC

/-! ## Levels -/

/-- A level of operators, loosest first. -/
inductive Level where
  | or | and | equality | comparison | additive | multiplicative
deriving DecidableEq, Repr

namespace Level

def operators : Level → List Operator
  | .or => [.logicOr]
  | .and => [.logicAnd]
  | .equality => [.equal, .notEqual]
  | .comparison => [.greater, .greaterEqual, .less, .lessEqual]
  | .additive => [.add, .minus]
  | .multiplicative => [.mul, .division]

/-- The kind of node that a chain of this level makes. -/
def kind : Level → NodeKind
  | .or => .boolExpr
  | .and => .boolExprAnd
  | .equality => .boolExprEqual
  | .comparison => .boolExprCmp
  | .additive => .expr
  | .multiplicative => .exprMul

end Level

namespace Rule

/-! ## Chains -/

/-- The node of a chain: a single operand stands for itself. -/
def chainNode (level : Level) : List Node → Node
  | [only] => only
  | children => .branch level.kind children

/-- Goes on with a chain of which the first operand has been read. -/
def chainFrom (level : Level) (operand : Rule Node) (budget : Nat) (first : Node) : Rule Node := do
  let rest ← repeatWhile (return (← peek).isOperator level.operators)
    (do let op ← takeLeaf; return [op, ← operand]) budget
  return chainNode level (first :: rest)

/-- A chain of operands. -/
def chain (level : Level) (operand : Rule Node) (budget : Nat) : Rule Node := do
  chainFrom level operand budget (← operand)

/-! ## Arithmetic -/

/-- A product of factors. -/
def productOf (factor : Rule Node) (budget : Nat) : Rule Node := chain .multiplicative factor budget

/-- A sum of products of factors. -/
def sumOf (factor : Rule Node) (budget : Nat) : Rule Node :=
  chain .additive (productOf factor budget) budget

/-- A factor, given how to read those in parentheses. -/
def factorOf (budget : Nat) (inner : Rule Node) : Rule Node := do
  let t ← peek
  match t.lexeme with
  | .bracket .leftParenthesis =>
    let opening ← take
    let value ← sumOf inner budget
    close .rightParenthesis opening
    return value
  | .identifier _ | .number _ => takeLeaf
  | _ => refuse .operand t

/-- A name, a number, or a sum in parentheses. -/
def factor : Nat → Rule Node
  | 0 => throw .exhausted
  | budget + 1 => factorOf budget (factor budget)

def sum (budget : Nat) : Rule Node := sumOf (factor budget) budget

/-- Goes on with a sum of which the first factor has been read. -/
def sumFrom (budget : Nat) (first : Node) : Rule Node := do
  let product ← chainFrom .multiplicative (factor budget) budget first
  chainFrom .additive (productOf (factor budget) budget) budget product

/-! ## Boolean expressions -/

/-- The four boolean levels over one kind of operand. -/
def conditionOf (operand : Rule Node) (budget : Nat) : Rule Node :=
  chain .or (chain .and (chain .equality (chain .comparison operand budget) budget) budget) budget

/-- The operators with which arithmetic goes on. -/
def arithmeticOperators : List Operator := Level.additive.operators ++ Level.multiplicative.operators

/-- Goes on behind a parenthesis: arithmetic in it may be the first factor of a sum. -/
def resume (budget : Nat) (inner : Node) : Rule Node := do
  if inner.isArithmetic then
    if (← peek).isOperator arithmeticOperators then sumFrom budget inner else return inner
  else
    return inner

/-- A boolean factor, given how to read those behind a negation or in parentheses. -/
def boolFactorOf (budget : Nat) (inner : Rule Node) : Rule Node := do
  let t ← peek
  match t.lexeme with
  | .operator .logicNot =>
    let op ← takeLeaf
    let operand ← conditionOf inner budget
    return .branch .boolExprNot [op, operand]
  | .bracket .leftParenthesis =>
    let opening ← take
    let value ← conditionOf inner budget
    close .rightParenthesis opening
    resume budget value
  | _ => sum budget

/-- A negation, a boolean expression in parentheses, or a sum. -/
def boolFactor : Nat → Rule Node
  | 0 => throw .exhausted
  | budget + 1 => boolFactorOf budget (boolFactor budget)

/-- A boolean expression. -/
def boolExpr (budget : Nat) : Rule Node := conditionOf (boolFactor budget) budget

end Rule

end MiniC
