/-
# MiniC.Proofs.Walk — the order in which a tree is walked.

`Tree.walk` works through a stack of its own.  Here the same order is said by recursion on the tree:
a node comes first, then all that is below it, child by child.  What holds of the nodes of a tree in
this order is proved by induction on how the tree was made.

Counting, finding and printing go through `walk` and so follow the recursion too
(`Tree.walk_is_recursive_preorder`).
-/
import MiniC.Tree.Basic

namespace MiniC

namespace Node

mutual

/-- The node and all below it with their depths, where the node itself is at depth `d`. -/
def preorder (d : Nat) : Node → List (Nat × Node)
  | ⟨kind, children, token, location⟩ =>
    (d, ⟨kind, children, token, location⟩) :: preorderAll (d + 1) children

def preorderAll (d : Nat) : List Node → List (Nat × Node)
  | [] => []
  | c :: cs => preorder d c ++ preorderAll d cs

end

/-- The node and all below it, parents before children, children from left to right. -/
def nodes (n : Node) : List Node := (preorder 0 n).map (·.2)

theorem preorderAll_eq (d : Nat) (cs : List Node) : preorderAll d cs = cs.flatMap (preorder d) := by
  induction cs with
  | nil => rfl
  | cons c cs ih => rw [preorderAll, ih, List.flatMap_cons]

/-- A node comes before its children, which are one deeper. -/
theorem preorder_eq (d : Nat) (n : Node) :
    preorder d n = (d, n) :: n.children.flatMap (preorder (d + 1)) := by
  obtain ⟨kind, children, token, location⟩ := n
  rw [preorder, preorderAll_eq]

mutual

/-- The depth at which a walk starts has no say in which nodes it meets. -/
theorem map_preorder (d d' : Nat) : ∀ n : Node,
    (preorder d n).map (·.2) = (preorder d' n).map (·.2)
  | ⟨kind, children, token, location⟩ => by
    rw [preorder, preorder, List.map_cons, List.map_cons,
      map_preorderAll (d + 1) (d' + 1) children]

theorem map_preorderAll (d d' : Nat) : ∀ cs : List Node,
    (preorderAll d cs).map (·.2) = (preorderAll d' cs).map (·.2)
  | [] => rfl
  | c :: cs => by
    rw [preorderAll, preorderAll, List.map_append, List.map_append, map_preorder d d' c,
      map_preorderAll d d' cs]

end

mutual

/-- Nothing below a node is less deep than the node. -/
theorem le_of_mem_preorder (d : Nat) : ∀ (n : Node), ∀ x ∈ preorder d n, d ≤ x.1
  | ⟨kind, children, token, location⟩ => by
    rw [preorder, List.forall_mem_cons]
    refine ⟨Nat.le_refl d, fun x hx => ?_⟩
    exact Nat.le_of_succ_le (le_of_mem_preorderAll (d + 1) children x hx)

theorem le_of_mem_preorderAll (d : Nat) : ∀ (cs : List Node), ∀ x ∈ preorderAll d cs, d ≤ x.1
  | [] => by simp [preorderAll]
  | c :: cs => by
    rw [preorderAll, List.forall_mem_append]
    exact ⟨le_of_mem_preorder d c, le_of_mem_preorderAll d cs⟩

end

mutual

/-- A walk meets each node once. -/
theorem length_preorder (d : Nat) : ∀ n : Node, (preorder d n).length = n.size
  | ⟨kind, children, token, location⟩ => by
    rw [preorder, List.length_cons, length_preorderAll (d + 1) children, size, Nat.add_comm]

theorem length_preorderAll (d : Nat) : ∀ cs : List Node, (preorderAll d cs).length = sizeAll cs
  | [] => rfl
  | c :: cs => by
    rw [preorderAll, List.length_append, length_preorder d c, length_preorderAll d cs, sizeAll]

end

/-- How deep the nodes are makes no difference to their order. -/
theorem nodes_eq (n : Node) : n.nodes = n :: n.children.flatMap nodes := by
  rw [nodes, preorder_eq, List.map_cons, List.map_flatMap]
  have hchild : ∀ c : Node, (preorder (0 + 1) c).map (·.2) = c.nodes := map_preorder 1 0
  simp only [hchild]

@[simp] theorem nodes_leaf (t : Token) : (leaf t).nodes = [leaf t] := nodes_eq (leaf t)

@[simp] theorem nodes_branch (kind : NodeKind) (children : List Node) :
    (branch kind children).nodes = branch kind children :: children.flatMap nodes :=
  nodes_eq _

@[simp] theorem nodes_branchAt (l : Location) (kind : NodeKind) (children : List Node) :
    (branchAt l kind children).nodes = branchAt l kind children :: children.flatMap nodes :=
  nodes_eq _

end Node

namespace Tree

/-- The loop over a stack: what it has seen, then the walks of what is still on the stack. -/
theorem walkFrom_eq (seen stack : List (Nat × Node)) :
    walkFrom seen stack = seen.reverse ++ stack.flatMap fun x => x.2.preorder x.1 := by
  fun_induction walkFrom seen stack with
  | case1 seen => simp
  | case2 seen d n stack ih =>
      -- What is below the node stands on the stack before all that was there already.
      have hbelow : (below d n).flatMap (fun x => x.2.preorder x.1)
          = n.children.flatMap (Node.preorder (d + 1)) := by
        rw [below, List.flatMap_map]
      rw [ih, List.flatMap_append, hbelow, List.flatMap_cons, Node.preorder_eq]
      simp

theorem walk_eq (t : Tree) : t.walk = t.root.preorder 0 := by
  rw [walk, walkFrom_eq]
  simp

/-- The nodes that a walk meets. -/
theorem map_walk (t : Tree) : t.walk.map (·.2) = t.root.nodes := by
  rw [walk_eq]
  rfl

/-- What a walk meets is the root, or, further down, a node of some item. -/
theorem mem_walk_ofItems {file : String} {es : List Node} {x : Nat × Node}
    (h : x ∈ (ofItems file es).walk) :
    x = (0, (ofItems file es).root) ∨ x.1 ≠ 0 ∧ x.2 ∈ es.flatMap Node.nodes := by
  rw [walk_eq, Node.preorder_eq, List.mem_cons] at h
  refine h.imp_right fun hx => ?_
  obtain ⟨e, he, hx⟩ := List.mem_flatMap.mp hx
  have hdepth := Node.le_of_mem_preorder (0 + 1) e x hx
  refine ⟨by omega, List.mem_flatMap.mpr ⟨e, he, ?_⟩⟩
  rw [Node.nodes, Node.map_preorder 0 (0 + 1)]
  exact List.mem_map_of_mem hx

end Tree

/-! ## What goes through a walk -/

namespace Bytes

theorem join_append (separator : Bytes) {pieces : List Bytes} (h : pieces ≠ []) :
    join separator pieces ++ separator = pieces.flatMap (· ++ separator) := by
  induction pieces with
  | nil => exact absurd rfl h
  | cons piece pieces ih =>
      cases pieces with
      | nil => simp [join]
      | cons next pieces =>
          rw [List.flatMap_cons, ← ih (List.cons_ne_nil next pieces)]
          simp [join, List.intercalate_cons_cons]

theorem copies_mul (m n : Nat) (bs : Bytes) : copies (m * n) bs = copies m (copies n bs) := by
  rw [copies, ← List.flatten_replicate_replicate, List.flatten_flatten, List.map_replicate]
  rfl

end Bytes

namespace Tree

variable (t : Tree) (indent : Indent)

/-- The text of a tree has one line for each node, indented by its depth. -/
theorem lines_eq_map_preorder : t.lines indent = (t.root.preorder 0).map fun x =>
    Bytes.copies x.1 (Bytes.copies indent.times indent.text) ++ x.2.render := by
  rw [lines, walk_eq]
  refine List.map_congr_left fun x _ => ?_
  rw [← Bytes.copies_mul]
  rfl

theorem lines_ne_nil : t.lines indent ≠ [] := by
  rw [lines_eq_map_preorder, Node.preorder_eq]
  simp

/-- The walk with a stack is the recursive one: the root at depth zero comes first, then child by child,
from left to right, all that is below it, one deeper.  It is so for every tree, whether or not a parser
made it: a leaf may have children.

Hence the number of nodes is the size of the tree, finding nodes of a kind keeps them in this order, and
writing the tree puts down one line for each node, which is the printed text and one line feed more. -/
theorem walk_is_recursive_preorder :
    t.walk = t.root.preorder 0 ∧
    t.nodeCount = t.root.size ∧
    (∀ kind, t.findAll kind = ((t.root.preorder 0).map (·.2)).filter (·.kind == kind)) ∧
    ∀ indent : Indent,
      t.write indent = (t.root.preorder 0).flatMap (fun x =>
        Bytes.copies x.1 (Bytes.copies indent.times indent.text) ++ x.2.render ++ [Byte.lineFeed]) ∧
      t.write indent = t.render indent ++ [Byte.lineFeed] := by
  refine ⟨t.walk_eq, ?_, fun kind => ?_, fun indent => ⟨?_, ?_⟩⟩
  · rw [nodeCount, walk_eq, Node.length_preorder]
  · rw [findAll, walk_eq]
  · rw [write, lines_eq_map_preorder, List.flatMap_map]
  · exact (Bytes.join_append _ (t.lines_ne_nil indent)).symm

end Tree

end MiniC
