/-
# MiniC.Proofs.Printing — well-formed trees, and how they are written.

A tree is well formed if every node has the children that its kind calls for: what stands in a tree
that was read, but said of trees alone, wherever they come from.  `Node.write` gives the lexemes of a
tree in source order.  It puts back what a tree leaves out: keywords of control, brackets, commas,
semicolons and equals signs.  Every operand that is no leaf goes into parentheses, so no rule of
precedence is needed to see which tree is meant.

Places carry no meaning here; `Node.bare` takes them away.
-/
import Mathlib.Data.List.Forall2
import MiniC.Proofs.Spelling

namespace MiniC

/-! ## Trees without places -/

/-- The lexeme alone. -/
def Token.bare (t : Token) : Token := { lexeme := t.lexeme }

namespace Node

mutual

/-- The node without places, its own and those of all tokens and nodes below it. -/
def bare : Node → Node
  | ⟨kind, children, token, _⟩ => ⟨kind, bareAll children, token.map Token.bare, none⟩

def bareAll : List Node → List Node
  | [] => []
  | c :: cs => c.bare :: bareAll cs

end

variable {kind : NodeKind} {children : List Node} {token : Option Token}
  {location : Option Location} {t : Token}

@[simp]
theorem bareAll_eq_map (children : List Node) : bareAll children = children.map bare := by
  induction children with
  | nil => rfl
  | cons c cs ih => rw [bareAll, ih, List.map_cons]

@[simp]
theorem bare_mk : bare ⟨kind, children, token, location⟩
    = ⟨kind, children.map bare, token.map Token.bare, none⟩ := by
  rw [bare, bareAll_eq_map]

@[simp]
theorem bare_leaf : (leaf t).bare = ⟨.terminal, [], some t.bare, none⟩ := bare_mk

@[simp]
theorem bare_branch : (branch kind children).bare = ⟨kind, children.map bare, none, none⟩ := bare_mk

@[simp]
theorem bare_branchAt {place : Location} :
    (branchAt place kind children).bare = ⟨kind, children.map bare, none, none⟩ := bare_mk

/-! ## Writing -/

/-- A node next to its lexemes. -/
abbrev Part := Node × List Lexeme

namespace Part

def isLeaf (x : Part) : Bool := x.1.isTerminal

/-- A part that is no leaf goes into parentheses. -/
def operand (x : Part) : List Lexeme :=
  if x.isLeaf then x.2
  else .bracket .leftParenthesis :: (x.2 ++ [.bracket .rightParenthesis])

/-- An assignment or nothing at all becomes a statement by a semicolon. -/
def statement (x : Part) : List Lexeme :=
  match x.1.kind with
  | .assignStmt | .empty => x.2 ++ [.semicolon none]
  | _ => x.2

/-- Parts with commas between them. -/
def separated : List Part → List Lexeme
  | [] => []
  | x :: xs => x.2 ++ xs.flatMap fun y => .comma none :: y.2

/-- Parts in curly brackets. -/
def enclosed (xs : List Part) (each : Part → List Lexeme) : List Lexeme :=
  .bracket .leftCurlyBracket :: (xs.flatMap each ++ [.bracket .rightCurlyBracket])

/-- A type, a name and arguments in parentheses. -/
def signature (type name : Part) (args : List Part) : List Lexeme :=
  type.2 ++ (name.2 ++ .bracket .leftParenthesis :: (separated args ++ [.bracket .rightParenthesis]))

end Part

/-- The lexemes of a node of which the children have been written. -/
def assemble (kind : NodeKind) (token : Option Token) (parts : List Part) : List Lexeme :=
  match kind, parts with
  | .terminal, _ => (token.map Token.lexeme).toList
  | .translationUnit, xs | .variableType, xs | .funcArg, xs => xs.flatMap Prod.snd
  | .variableDefine, type :: names => type.2 ++ (Part.separated names ++ [.semicolon none])
  | .structDefine, xs =>
    .keyword .struct :: ((xs.takeWhile Part.isLeaf).flatMap Prod.snd
      ++ (Part.enclosed (xs.dropWhile Part.isLeaf) Prod.snd ++ [.semicolon none]))
  | .funcDeclare, type :: name :: args => Part.signature type name args ++ [.semicolon none]
  | .funcDefine, type :: name :: xs =>
    Part.signature type name xs.dropLast ++ xs.getLast?.toList.flatMap Prod.snd
  | .stmtBlock, xs => Part.enclosed xs Part.statement
  | .ifStmt, [c, a, b] =>
    .keyword .if :: .bracket .leftParenthesis :: (c.2 ++ .bracket .rightParenthesis ::
      (a.statement ++ .keyword .else :: b.statement))
  | .whileLoop, [c, a] =>
    .keyword .while :: .bracket .leftParenthesis :: (c.2 ++ .bracket .rightParenthesis :: a.statement)
  | .forLoop, [a, b, c, s] =>
    .keyword .for :: .bracket .leftParenthesis :: (a.2 ++ .semicolon none ::
      (b.2 ++ .semicolon none :: (c.2 ++ .bracket .rightParenthesis :: s.statement)))
  | .assignStmt, [name, value] => name.2 ++ .operator .assign :: value.2
  | .returnStmt, xs => .keyword .return :: (xs.flatMap Prod.snd ++ [.semicolon none])
  | .breakStmt, _ => [.keyword .break, .semicolon none]
  | .expr, xs | .exprMul, xs | .boolExpr, xs | .boolExprAnd, xs | .boolExprEqual, xs
  | .boolExprCmp, xs | .boolExprNot, xs => xs.flatMap Part.operand
  | _, _ => []

mutual

/-- The lexemes of a tree, in source order. -/
def write : Node → List Lexeme
  | ⟨kind, children, token, _⟩ => assemble kind token (writeAll children)

/-- Several nodes, each next to its lexemes. -/
def writeAll : List Node → List Part
  | [] => []
  | c :: cs => (c, c.write) :: writeAll cs

end

/-- A node next to its lexemes. -/
def part (n : Node) : Part := (n, n.write)

theorem writeAll_eq_map (children : List Node) : writeAll children = children.map part := by
  induction children with
  | nil => rfl
  | cons c cs ih => rw [writeAll, ih, List.map_cons, part]

theorem write_mk : write ⟨kind, children, token, location⟩
    = assemble kind token (children.map part) := by
  rw [write, writeAll_eq_map]

/-! ## Well-formed trees -/

/-- A leaf over a lexeme that passes. -/
inductive IsLeaf (passes : Lexeme → Prop) : Node → Prop
  | mk {t : Token} {location : Option Location} :
      passes t.lexeme → IsLeaf passes ⟨.terminal, [], some t, location⟩

/-- A leaf over a legal lexeme of one kind. -/
def IsLegal (kind : TokenKind) : Node → Prop := IsLeaf fun l => l.isLegal = true ∧ l.kind = kind

/-- A leaf over a name that is no keyword. -/
abbrev IsName : Node → Prop := IsLegal .identifier

inductive IsType (among : List (List Keyword)) : Node → Prop
  | mk {us : List Keyword} {children : List Node} {location : Option Location} :
      us ∈ among → List.Forall₂ (fun k => IsLeaf (· = .keyword k)) us children →
      IsType among ⟨.variableType, children, none, location⟩

inductive IsVariable : Node → Prop
  | mk {type first : Node} {others : List Node} {location : Option Location} :
      IsType TypeWords.object type → IsName first → (∀ x ∈ others, IsName x) →
      IsVariable ⟨.variableDefine, type :: first :: others, none, location⟩

inductive IsArg : Node → Prop
  | mk {type name : Node} {location : Option Location} :
      IsType TypeWords.object type → IsName name → IsArg ⟨.funcArg, [type, name], none, location⟩

/-- Expressions.  A chain has an operand and then one or more operators of its level with an operand
each; the operands of arithmetic are arithmetic. -/
inductive IsExpr : Node → Prop
  | name {n : Node} : IsName n → IsExpr n
  | number {n : Node} : IsLegal .number n → IsExpr n
  | not {op e : Node} {location : Option Location} :
      IsLeaf (· = .operator .logicNot) op → IsExpr e →
      IsExpr ⟨.boolExprNot, [op, e], none, location⟩
  | chain {l : Level} {first : Node} {links : List (Node × Node)} {location : Option Location} :
      IsExpr first → links ≠ [] →
      (∀ x ∈ links, IsLeaf (fun y => ∃ o ∈ l.joins, y = .operator o) x.1) →
      (∀ x ∈ links, IsExpr x.2) →
      (l.kind.isArithmetic = true → ∀ e ∈ first :: links.map Prod.snd, e.isArithmetic = true) →
      IsExpr ⟨l.kind, first :: links.flatMap fun x => [x.1, x.2], none, location⟩

inductive IsAssignment : Node → Prop
  | mk {name value : Node} {location : Option Location} :
      IsName name → IsExpr value → IsAssignment ⟨.assignStmt, [name, value], none, location⟩

/-- What may stand between the semicolons of a `for`. -/
inductive IsClause : Node → Prop
  | none {location : Option Location} : IsClause ⟨.empty, [], none, location⟩
  | assignment {n : Node} : IsAssignment n → IsClause n
  | expression {n : Node} : IsExpr n → IsClause n

inductive IsStmt : Node → Prop
  | block {body : List Node} {location : Option Location} :
      (∀ x ∈ body, IsStmt x) → IsStmt ⟨.stmtBlock, body, none, location⟩
  | ifStmt {c a b : Node} {location : Option Location} :
      IsExpr c → IsStmt a → IsStmt b → IsStmt ⟨.ifStmt, [c, a, b], none, location⟩
  | whileLoop {c a : Node} {location : Option Location} :
      IsExpr c → IsStmt a → IsStmt ⟨.whileLoop, [c, a], none, location⟩
  | forLoop {a b c s : Node} {location : Option Location} :
      IsClause a → IsClause b → IsClause c → IsStmt s →
      IsStmt ⟨.forLoop, [a, b, c, s], none, location⟩
  | breakStmt {location : Option Location} : IsStmt ⟨.breakStmt, [], none, location⟩
  | returnNothing {location : Option Location} : IsStmt ⟨.returnStmt, [], none, location⟩
  | returnValue {e : Node} {location : Option Location} :
      IsExpr e → IsStmt ⟨.returnStmt, [e], none, location⟩
  | assignStmt {n : Node} : IsAssignment n → IsStmt n
  | localVariables {n : Node} : IsVariable n → IsStmt n
  | empty {location : Option Location} : IsStmt ⟨.empty, [], none, location⟩

inductive IsItem : Node → Prop
  | line {n : Node} : IsLegal .preprocessor n → IsItem n
  | structDefine {name members : List Node} {location : Option Location} :
      name.length ≤ 1 → (∀ x ∈ name, IsName x) → (∀ x ∈ members, IsVariable x) →
      IsItem ⟨.structDefine, name ++ members, none, location⟩
  | funcDeclare {type name : Node} {args : List Node} {location : Option Location} :
      IsType TypeWords.result type → IsName name → (∀ x ∈ args, IsArg x) →
      IsItem ⟨.funcDeclare, type :: name :: args, none, location⟩
  | funcDefine {type name : Node} {args body : List Node} {location place : Option Location} :
      IsType TypeWords.result type → IsName name → (∀ x ∈ args, IsArg x) →
      (∀ x ∈ body, IsStmt x) →
      IsItem ⟨.funcDefine, type :: name :: args ++ [⟨.stmtBlock, body, none, place⟩], none, location⟩
  | global {n : Node} : IsVariable n → IsItem n

/-- A whole tree, every node of which has the children its kind calls for. -/
inductive IsUnit : Node → Prop
  | mk {items : List Node} {location : Option Location} :
      (∀ x ∈ items, IsItem x) → IsUnit ⟨.translationUnit, items, none, location⟩

end Node

end MiniC
