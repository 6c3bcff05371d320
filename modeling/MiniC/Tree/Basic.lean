/-
# MiniC.Tree.Basic — whole syntax trees: traversal and printing.

`walk` visits the nodes top down and left to right, each with its depth.  It keeps the nodes still
to visit on a stack of its own, so a deep tree costs no deep recursion.  Counting, searching and
printing all go through `walk`; a printed tree has one line per node, moved in by its depth.
-/
import MiniC.Limits
import MiniC.Tree.Node

namespace MiniC

/-- A syntax tree: a node of which the kind is a translation unit. -/
structure Tree where
  root : Node
  isUnit : root.kind = .translationUnit
deriving Repr

/-- Why a node is no tree, or has no such part. -/
inductive TreeError where
  | rootKind (kind : NodeKind)
  | noChild
  /-- A number that picks no child of any node. -/
  | noIndex
deriving DecidableEq, Repr

namespace TreeError

def message : TreeError → Bytes
  | .rootKind kind => utf8 "tree root must be a TranslationUnit, not " ++ utf8 kind.label
  | .noChild => utf8 "tuple index out of range"
  | .noIndex => noIndexMessage

end TreeError

namespace Tree

/-- The tree under a node, if it is a translation unit. -/
def ofNode (n : Node) : Except TreeError Tree :=
  if h : n.kind = .translationUnit then .ok ⟨n, h⟩ else .error (.rootKind n.kind)

/-- The tree of top-level items of a source. -/
def ofItems (file : String) (items : List Node) : Tree :=
  ⟨Node.branchAt { file, line := 1, column := 1 } .translationUnit items, rfl⟩

def items (t : Tree) : List Node := t.root.children

/-- Names the tree by its number of top-level items. -/
def describe (t : Tree) : Bytes :=
  utf8 "SyntaxTree(" ++ decimal t.items.length ++ utf8 " top-level items)"

/-- The node reached from `n` by taking child after child; the first step that fails decides how. -/
def descendFrom (n : Node) : List Int → Except TreeError Node
  | [] => .ok n
  | i :: path =>
    if !isIndex i then .error .noIndex
    else
      match n.child? i with
      | some c => descendFrom c path
      | none => .error .noChild

/-- The node reached from the root. -/
def descend (t : Tree) (path : List Int) : Except TreeError Node := descendFrom t.root path

/-! ## Traversal -/

/-- The children of a node at depth `d`, with their own depth. -/
def below (d : Nat) (n : Node) : List (Nat × Node) := n.children.map (d + 1, ·)

/-- The nodes on a stack of nodes with their depths, counted with all below them. -/
def pending (stack : List (Nat × Node)) : Nat := Node.sizeAll (stack.map (·.2))

theorem sizeAll_append (xs ys : List Node) :
    Node.sizeAll (xs ++ ys) = Node.sizeAll xs + Node.sizeAll ys := by
  induction xs with
  | nil => simp [Node.sizeAll]
  | cons x xs ih => simp [Node.sizeAll, ih, Nat.add_assoc]

theorem pending_visit (d : Nat) (n : Node) (stack : List (Nat × Node)) :
    pending (below d n ++ stack) < pending ((d, n) :: stack) := by
  obtain ⟨_, children, _, _⟩ := n
  simp [pending, below, Function.comp_def, sizeAll_append, Node.sizeAll, Node.size]

/-- Visits everything on the stack, top first; `seen` holds the nodes visited before, newest
first. -/
def walkFrom (seen : List (Nat × Node)) : List (Nat × Node) → List (Nat × Node)
  | [] => seen.reverse
  | (d, n) :: stack => walkFrom ((d, n) :: seen) (below d n ++ stack)
termination_by stack => pending stack
decreasing_by exact pending_visit d n stack

/-- Every node with its depth, parents before children, children from left to right. -/
def walk (t : Tree) : List (Nat × Node) := walkFrom [] [(0, t.root)]

def nodeCount (t : Tree) : Nat := t.walk.length

/-- The nodes of one kind, in the order of `walk`. -/
def findAll (t : Tree) (kind : NodeKind) : List Node :=
  (t.walk.map (·.2)).filter (·.kind == kind)

end Tree

/-! ## Printing -/

/-- What a line is moved in by for each level of depth: a text, so many times over. -/
structure Indent where
  text : Bytes := utf8 "  "
  times : Nat := 1
deriving DecidableEq, Repr

namespace Indent

/-- What stands in front of a node at a depth.  Nothing of it is made for a depth of zero. -/
def margin (i : Indent) (depth : Nat) : Bytes := Bytes.copies (depth * i.times) i.text

end Indent

namespace Tree

/-- One line per node, moved in by its depth. -/
def lines (t : Tree) (indent : Indent) : List Bytes :=
  t.walk.map fun (depth, n) => indent.margin depth ++ n.render

/-- The lines with line feeds between them. -/
def render (t : Tree) (indent : Indent) : Bytes := Bytes.join [Byte.lineFeed] (t.lines indent)

/-- The lines, each closed by a line feed. -/
def write (t : Tree) (indent : Indent) : Bytes := (t.lines indent).flatMap (· ++ [Byte.lineFeed])

end Tree

end MiniC
