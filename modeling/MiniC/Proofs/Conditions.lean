/-
# MiniC.Proofs.Conditions — rules that may refuse a condition.

Under strict reading a condition without a boolean operator at its top is refused as soon as it has
been read.  So on a word that makes a tree, a rule gives the tree if no node of it has such a
condition; else it stops at the token that ends the condition of the first such node.  `Judges` says
both at once: `Judges x w z a i` with the offence `i`, which is none if `x` gives `a`.

Steps compose as those of `Reaches` do, and of two offences the first one counts.  With strict reading
off there are none, and `Judges` is `Reaches`.
-/
import MiniC.Proofs.Trees
import MiniC.Proofs.Walk

namespace MiniC

/-! ## Offences -/

/-- The condition of an `if`, a `while` or a `for` has a boolean operator at its top.  A `for` may have
none; other nodes have no condition. -/
def Node.hasBooleanCondition (n : Node) : Bool :=
  match n.kind with
  | .ifStmt | .whileLoop => n.children[0]?.any isBoolean
  | .forLoop => n.children[1]?.any fun c => c.isBoolean || c.kind == .empty
  | _ => true

/-- The first of the nodes that strict reading refuses. -/
def offence (strict : Bool) (ns : List Node) : Option Node :=
  if strict then ns.find? (fun n => !n.hasBooleanCondition) else none

/-- Behind the tokens `w`, this token ends the condition of the node. -/
inductive EndsCondition : Node → List Token → Token → Prop
  | parenthesis {kind : NodeKind} {k : Keyword} {keyword opening closing : Token}
      {before c : List Token} {e : Node} {branches : List Node} :
      (kind, k) ∈ [(.ifStmt, .if), (.whileLoop, .while)] → keyword.terminal = .keyword k →
      opening.terminal = .leftParen → Builds none (.level .or) c e → closing.terminal = .rightParen →
      EndsCondition (.branchAt keyword.location kind (e :: branches))
        (before ++ keyword :: opening :: c) closing
  | clause {keyword opening first second : Token} {before u v : List Token} {a b : Node}
      {others : List Node} :
      keyword.terminal = .keyword .for → opening.terminal = .leftParen →
      BuildsClause first u a → first.terminal = .semicolon →
      BuildsClause second v b → second.terminal = .semicolon →
      EndsCondition (.branchAt keyword.location .forLoop (a :: b :: others))
        (before ++ keyword :: opening :: (u ++ first :: v)) second

/-- What comes before a node does not matter to the end of its condition. -/
theorem EndsCondition.prepend {s : Node} {u w : List Token} {found : Token}
    (h : EndsCondition s w found) : EndsCondition s (u ++ w) found := by
  cases h with
  | parenthesis hk ht hopen hc hclose =>
      rw [← List.append_assoc]
      exact .parenthesis hk ht hopen hc hclose
  | clause ht hopen hu hfirst hv hsecond =>
      rw [← List.append_assoc]
      exact .clause ht hopen hu hfirst hv hsecond

section Offence

variable {strict : Bool} {n : Node} {ns ms : List Node}

/-- The first offence of two lists is that of the first list, if it has one. -/
theorem offence_append :
    offence strict (ns ++ ms) = (offence strict ns).or (offence strict ms) := by
  cases strict with
  | false => rfl
  | true => exact List.find?_append

theorem offence_eq_none (h : ∀ n ∈ ns, n.hasBooleanCondition = true) :
    offence strict ns = none := by
  cases strict with
  | false => rfl
  | true => exact List.find?_eq_none.mpr fun n hn => by simp [h n hn]

/-- Nodes that pass may be left out in front. -/
theorem offence_append_of_none (h : ∀ n ∈ ns, n.hasBooleanCondition = true) :
    offence strict (ns ++ ms) = offence strict ms := by
  rw [offence_append, offence_eq_none h, Option.none_or]

/-- With strict reading off every node passes. -/
theorem offence_cons_of_pass (h : (strict && !n.hasBooleanCondition) = false) :
    offence strict (n :: ns) = offence strict ns := by
  cases strict with
  | false => rfl
  | true =>
      have hn : n.hasBooleanCondition = true := by simpa using h
      simp [offence, hn]

/-- A node is looked at before the nodes below it. -/
theorem offence_cons_of_refuse (h : (strict && !n.hasBooleanCondition) = true) :
    offence strict (n :: ns) = some n := by
  obtain ⟨rfl, hn⟩ := Bool.and_eq_true_iff.mp h
  simp [offence, hn]

end Offence

/-! ## Nodes without conditions -/

/-- No node here has a condition to be refused. -/
def Node.Unconditional (n : Node) : Prop := ∀ m ∈ n.nodes, m.hasBooleanCondition = true

/-- The kinds of nodes that have a condition. -/
def NodeKind.isConditional : NodeKind → Bool
  | .ifStmt | .whileLoop | .forLoop => true
  | _ => false

namespace Node

/-- Three kinds have a condition, so all others pass. -/
theorem hasBooleanCondition_of_kind {n : Node} (h : n.kind.isConditional = false) :
    n.hasBooleanCondition = true := by
  unfold hasBooleanCondition
  cases hkind : n.kind <;> simp_all [NodeKind.isConditional]

/-- A node of another kind is unconditional if its children are. -/
theorem unconditional {n : Node} (hkind : n.kind.isConditional = false)
    (h : ∀ c ∈ n.children, c.Unconditional) : n.Unconditional := by
  rw [Unconditional, nodes_eq, List.forall_mem_cons]
  refine ⟨hasBooleanCondition_of_kind hkind, fun m hm => ?_⟩
  obtain ⟨c, hc, hm⟩ := List.mem_flatMap.mp hm
  exact h c hc m hm

theorem unconditional_branch {kind : NodeKind} {cs : List Node} (hkind : kind.isConditional = false)
    (h : ∀ c ∈ cs, c.Unconditional) : (branch kind cs).Unconditional := unconditional hkind h

theorem unconditional_leaf (t : Token) : (leaf t).Unconditional :=
  unconditional rfl (List.forall_mem_nil _)

theorem unconditional_leaves (w : List Token) : ∀ c ∈ w.map leaf, c.Unconditional := by
  intro c hc
  obtain ⟨t, -, rfl⟩ := List.mem_map.mp hc
  exact unconditional_leaf t

end Node

/-- No chain of operators is a statement. -/
theorem Level.isConditional_kind (l : Level) : l.kind.isConditional = false := by
  cases l <;> rfl

section Unconditional

open Node

variable {w : List Token} {e : Node} {es : List Node}

mutual

/-- Expressions have no statements in them, hence no conditions. -/
theorem Builds.unconditional {next : Option Operator} {s : Symbol} {w : List Token} {e : Node}
    (h : Builds next s w e) : e.Unconditional := by
  match h with
  | .operand h | .group _ _ h | .sum h | .paren _ _ h => exact h.unconditional
  | .chain h => exact unconditional_branch (Level.isConditional_kind _) h.unconditional
  | .not _ _ h =>
      have hoperand := h.unconditional
      exact unconditional_branch rfl (by simp [unconditional_leaf, hoperand])
  | .name _ | .number _ => exact unconditional_leaf _

theorem Spine.unconditional {next : Option Operator} {l : Level} {w : List Token}
    {children : List Node} (h : Spine next l w children) : ∀ c ∈ children, c.Unconditional := by
  match h with
  | .pair ha _ _ hb =>
      have hfirst := ha.unconditional
      have hlast := hb.unconditional
      simp [unconditional_leaf, hfirst, hlast]
  | .more hsub _ _ hb =>
      have hchildren := hsub.unconditional
      have hlast := hb.unconditional
      intro c hc
      rcases List.mem_append.mp hc with hc | hc
      · exact hchildren c hc
      · simp only [List.mem_cons, List.not_mem_nil, or_false] at hc
        rcases hc with rfl | rfl
        · exact unconditional_leaf _
        · exact hlast

end

/-- What the parts of a row are, its nodes are. -/
theorem Row.forall_mem {B : List Token → Node → Prop} {P : Node → Prop} (h : Row B w es)
    (hB : ∀ w e, B w e → P e) : ∀ e ∈ es, P e := by
  cases h with
  | mk hparts =>
      intro e he
      obtain ⟨x, hx, rfl⟩ := List.mem_map.mp he
      exact hB _ _ (hparts x hx)

theorem AfterComma.node {B : List Token → Node → Prop} (h : AfterComma B w e) : ∃ v, B v e := by
  cases h with
  | mk _ h => exact ⟨_, h⟩

theorem BuildsType.unconditional {among : List (List Keyword)} (h : BuildsType among w e) :
    e.Unconditional := by
  rw [h.node]
  exact unconditional_branch rfl (unconditional_leaves w)

theorem BuildsVariable.unconditional (h : BuildsVariable w e) : e.Unconditional := by
  cases h with
  | mk htype _ hothers _ =>
      have hnames := hothers.forall_mem (P := Unconditional) fun w e h => by
        obtain ⟨_, ⟨_⟩⟩ := h.node
        exact unconditional_leaf _
      refine unconditional_branch rfl ?_
      rw [List.forall_mem_cons, List.forall_mem_cons]
      exact ⟨htype.unconditional, unconditional_leaf _, hnames⟩

theorem BuildsArg.unconditional (h : BuildsArg w e) : e.Unconditional := by
  cases h with
  | mk htype _ => exact unconditional_branch rfl (by simp [htype.unconditional, unconditional_leaf])

/-- The arguments of a function are types and names. -/
theorem BuildsArgs.unconditional (h : BuildsArgs w es) : ∀ e ∈ es, e.Unconditional := by
  cases h with
  | none | void => simp
  | some hfirst hothers =>
      refine List.forall_mem_cons.mpr ⟨hfirst.unconditional, hothers.forall_mem fun w e h => ?_⟩
      obtain ⟨_, harg⟩ := h.node
      exact harg.unconditional

/-- The children of a function up to its body: its type, its name and its arguments. -/
theorem unconditional_signature {among : List (List Keyword)} {v : List Token} {name : Token}
    (htype : BuildsType among v e) (hargs : BuildsArgs w es) :
    ∀ c ∈ e :: .leaf name :: es, c.Unconditional := by
  rw [List.forall_mem_cons, List.forall_mem_cons]
  exact ⟨htype.unconditional, unconditional_leaf name, hargs.unconditional⟩

theorem BuildsAssignment.unconditional (h : BuildsAssignment w e) : e.Unconditional := by
  cases h with
  | mk _ _ h => exact unconditional_branch rfl (by simp [unconditional_leaf, h.unconditional])

/-- The clauses of a `for` are expressions or assignments.  That the second one is its condition is a
matter of the `for`, not of the clause. -/
theorem BuildsClause.unconditional {next : Token} (h : BuildsClause next w e) :
    e.Unconditional := by
  cases h with
  | none => exact unconditional rfl (List.forall_mem_nil _)
  | assignment h => exact h.unconditional
  | expression h => exact h.unconditional

end Unconditional

/-! ## Judgements -/

namespace Rule

variable {α β : Type} {x : Rule β} {f : β → Rule α} {y : Rule α} {a : α} {b : β}
  {u v w z : List Token} {i j : Option Node}

/-- Wherever `w` and then `z` are to come, `x` takes `w` and gives `a` if there is no offence.  If there
is one, `x` refuses the token that ends the condition of that node. -/
inductive Judges (x : Rule α) (w z : List Token) (a : α) : Option Node → Prop
  | passed : Reaches x w z (pure a) → Judges x w z a none
  | refused {s : Node} {u v : List Token} {found : Token} :
      w = u ++ found :: v → EndsCondition s u found →
      Reaches x u (found :: (v ++ z)) (refuse .booleanOperator found) → Judges x w z a (some s)

/-- What a rule refuses, the rest of its caller never sees. -/
theorem Reaches.refused {e : Expectation} {found : Token} (h : Reaches x w z (refuse e found)) :
    Reaches (x >>= f) w z (refuse e found) := by
  intro p hp
  obtain ⟨p', htook, hrun⟩ := h p hp
  exact ⟨p', htook, bind_error hrun f⟩

/-- A step that reads no condition, then one that may. -/
theorem Reaches.seqJudges (h : Reaches x w (v ++ z) (pure b)) (h' : Judges (f b) v z a j) :
    Judges (x >>= f) (w ++ v) z a j := by
  cases h' with
  | passed h' => exact .passed (h.seq h')
  | @refused s u v found hv hends hrefuse =>
      subst hv
      refine .refused (List.append_assoc w u _).symm hends.prepend ?_
      exact Reaches.seq (by simpa using h) hrefuse

/-- A step that takes nothing, then one that may read a condition. -/
theorem Reaches.lookJudges (h : Reaches x [] (w ++ z) (pure b)) (h' : Judges (f b) w z a j) :
    Judges (x >>= f) w z a j := h.seqJudges h'

/-- A rule that reads no condition. -/
theorem Reaches.judges {strict : Bool} {r : Rule Node} {e : Node} (h : Reaches r w z (pure e))
    (he : e.Unconditional) : Judges r w z e (offence strict e.nodes) := by
  rw [offence_eq_none he]
  exact .passed h

namespace Judges

/-- No offence, no refusal: the tree is given. -/
theorem reaches (h : Judges y w z a none) : Reaches y w z (pure a) := by
  cases h with
  | passed h => exact h

/-- Of two offences the first one counts. -/
theorem seq (h : Judges x w (v ++ z) b i) (h' : Judges (f b) v z a j) :
    Judges (x >>= f) (w ++ v) z a (i.or j) := by
  cases h with
  | passed h => exact h.seqJudges h'
  | @refused s u u' found hw hends hrefuse =>
      -- The second rule is never run, and what it would take is left to come.
      subst hw
      refine .refused (v := u' ++ v) (by simp) hends ?_
      rw [List.append_assoc]
      exact hrefuse.refused

/-- A step that may read a condition, then one that does not. -/
theorem seqReaches (h : Judges x w (v ++ z) b i) (h' : Reaches (f b) v z (pure a)) :
    Judges (x >>= f) (w ++ v) z a i := by
  have hseq := h.seq (.passed h')
  rwa [Option.or_none] at hseq

theorem last (h : Judges x w z b i) (h' : Reaches (f b) [] z (pure a)) :
    Judges (x >>= f) w z a i := by
  have hseq := Judges.seqReaches (v := []) h h'
  rwa [List.append_nil] at hseq

end Judges

/-! ## Loops -/

/-- A loop gives the nodes of all its rounds, or stops in the first round that has an offence.  The
induction is on the rounds to come; those behind are in `seen`, and there was no offence in them. -/
theorem judges_repeatOnto {more : Rule Bool} {item : Rule (List Node)} {strict : Bool}
    {parts : List (List Token × Node)} {n : Nat} {seen : List Node}
    (hmore : ∀ x ∈ parts, ∀ z, Reaches more [] (x.1 ++ z) (pure true))
    (hitem : ∀ x ∈ parts, ∀ z, Judges item x.1 z [x.2] (offence strict x.2.nodes))
    (hstop : Reaches more [] z (pure false)) (hn : parts.length < n) :
    Judges (repeatOnto more item n seen) (parts.flatMap Prod.fst) z
      (seen.reverse ++ parts.map Prod.snd)
      (offence strict ((parts.map Prod.snd).flatMap Node.nodes)) := by
  induction parts generalizing n seen with
  | nil =>
      obtain ⟨n, rfl⟩ : ∃ k, n = k + 1 := ⟨n - 1, by omega⟩
      rw [offence_eq_none (by simp)]
      exact .passed (by simpa using reaches_repeatOnto_stop hstop)
  | cons x parts ih =>
      obtain ⟨n, rfl⟩ : ∃ k, n = k + 1 := ⟨n - 1, by omega⟩
      rw [List.forall_mem_cons] at hmore hitem
      have hrest : Judges (repeatOnto more item n (x.2 :: seen)) (parts.flatMap Prod.fst) z
          ((x.2 :: seen).reverse ++ parts.map Prod.snd)
          (offence strict ((parts.map Prod.snd).flatMap Node.nodes)) :=
        ih hmore.2 hitem.2 (Nat.lt_of_succ_lt_succ hn)
      rw [List.reverse_cons, List.append_assoc] at hrest
      rw [List.map_cons, List.flatMap_cons, List.flatMap_cons, offence_append]
      refine Reaches.lookJudges (b := true) ?_ ?_
      · rw [List.append_assoc]
        exact hmore.1 _
      · rw [if_pos rfl]
        exact (hitem.1 _).seq hrest

end Rule

end MiniC
