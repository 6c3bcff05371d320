/-
# MiniC.Tree.Node — the nodes of a syntax tree.

A node has a kind, its children in source order, for a leaf the token it wraps, and the place where
it starts.  An operator level holds operands and operators alternately, `[B₀, op₁, B₁, …]`; a level
at which no operator stood makes no node.

The place is an annotation: `same` compares kind, token and children only.
-/
import MiniC.Token.Basic

namespace MiniC

/-! ## Kinds -/

inductive NodeKind where
  | translationUnit
  | funcDefine | funcDeclare | funcArg | variableDefine | structDefine | variableType
  | stmtBlock | ifStmt | whileLoop | forLoop | assignStmt | returnStmt | breakStmt | empty
  | expr | exprMul
  | boolExpr | boolExprAnd | boolExprEqual | boolExprCmp | boolExprNot
  | terminal
deriving DecidableEq, Repr

namespace NodeKind

def all : List NodeKind :=
  [.translationUnit,
   .funcDefine, .funcDeclare, .funcArg, .variableDefine, .structDefine, .variableType,
   .stmtBlock, .ifStmt, .whileLoop, .forLoop, .assignStmt, .returnStmt, .breakStmt, .empty,
   .expr, .exprMul,
   .boolExpr, .boolExprAnd, .boolExprEqual, .boolExprCmp, .boolExprNot,
   .terminal]

def label : NodeKind → String
  | .translationUnit => "TranslationUnit"
  | .funcDefine => "FuncDefine"
  | .funcDeclare => "FuncDeclare"
  | .funcArg => "FuncArg"
  | .variableDefine => "VariableDefine"
  | .structDefine => "StructDefine"
  | .variableType => "VariableType"
  | .stmtBlock => "StmtBlock"
  | .ifStmt => "IfStmt"
  | .whileLoop => "WhileLoop"
  | .forLoop => "ForLoop"
  | .assignStmt => "AssignStmt"
  | .returnStmt => "ReturnStmt"
  | .breakStmt => "BreakStmt"
  | .empty => "Empty"
  | .expr => "Expr"
  | .exprMul => "ExprMul"
  | .boolExpr => "BoolExpr"
  | .boolExprAnd => "BoolExprAnd"
  | .boolExprEqual => "BoolExprEqual"
  | .boolExprCmp => "BoolExprCmp"
  | .boolExprNot => "BoolExprNot"
  | .terminal => "Terminal"

/-- Sums, products, and leaves, which may stand in them. -/
def isArithmetic : NodeKind → Bool
  | .terminal | .expr | .exprMul => true
  | _ => false

/-- The levels made by a logical operator, a comparison or a negation. -/
def isBoolean : NodeKind → Bool
  | .boolExpr | .boolExprAnd | .boolExprEqual | .boolExprCmp | .boolExprNot => true
  | _ => false

end NodeKind

/-! ## Nodes -/

structure Node where
  kind : NodeKind
  children : List Node := []
  token : Option Token := none
  location : Option Location := none
deriving Repr

namespace Node

/-- A token as a node. -/
def leaf (t : Token) : Node := { kind := .terminal, token := some t, location := some t.location }

/-- A node that starts where its first child starts. -/
def branch (kind : NodeKind) (children : List Node) : Node :=
  { kind, children, location := children.head?.bind location }

/-- A node that starts at a given place. -/
def branchAt (location : Location) (kind : NodeKind) (children : List Node) : Node :=
  { kind, children, location := some location }

def isTerminal (n : Node) : Bool := n.kind == .terminal

def isArithmetic (n : Node) : Bool := n.kind.isArithmetic

def isBoolean (n : Node) : Bool := n.kind.isBoolean

/-- Child number `i`, counted from zero, or from the end if negative. -/
def child? (n : Node) (i : Int) : Option Node :=
  let k := if i < 0 then i + n.children.length else i
  if k < 0 then none else n.children[k.toNat]?

/-- One line for the node alone: its kind, or the token of a leaf. -/
def render (n : Node) : Bytes :=
  if n.isTerminal then
    utf8 "Terminal(" ++ (n.token.elim (utf8 "None") Token.render) ++ utf8 ")"
  else
    utf8 n.kind.label

mutual

/-- The description of a node in front of a text.  Each byte is put down once, however deep the
node. -/
def describeOnto (after : Bytes) : Node → Bytes
  | ⟨kind, children, token, location⟩ =>
    if kind = .terminal then render ⟨kind, children, token, location⟩ ++ after
    else utf8 kind.label ++ utf8 "[" ++ describeAllOnto (utf8 "]" ++ after) children

/-- The descriptions of several nodes, with commas between them, in front of a text. -/
def describeAllOnto (after : Bytes) : List Node → Bytes
  | [] => after
  | [c] => describeOnto after c
  | c :: cs => describeOnto (utf8 ", " ++ describeAllOnto after cs) c

end

/-- One line for the node with all below it: children in square brackets.  What a leaf holds below
itself is not shown. -/
def describe (n : Node) : Bytes := describeOnto [] n

mutual

/-- Equal but for the places of the nodes; the places of their tokens count. -/
def same : Node → Node → Bool
  | ⟨k, cs, t, _⟩, ⟨k', cs', t', _⟩ => k == k' && t == t' && sameAll cs cs'

def sameAll : List Node → List Node → Bool
  | [], [] => true
  | c :: cs, c' :: cs' => same c c' && sameAll cs cs'
  | _, _ => false

end

mutual

/-- Number of nodes, the root included. -/
def size : Node → Nat
  | ⟨_, children, _, _⟩ => 1 + sizeAll children

def sizeAll : List Node → Nat
  | [] => 0
  | c :: cs => size c + sizeAll cs

end

end Node

end MiniC
