/-
# MiniC.Proofs.Locations — nodes start in the order in which they are walked.

A node starts where its first child starts, or at a keyword or bracket of its own, or, if it is a clause
that was left out, at the token behind it.  Whichever of the three it is, the node starts at a token of
the word that made it, or at the one behind that word.  Words stand side by side in a source, so nothing
more is needed to see that a walk never goes back.  `InOrder` says this of a word and of the nodes that it
made, and words in a row have it if each of them has it.
-/
import MiniC.Proofs.Places
import MiniC.Proofs.Shape
import MiniC.Proofs.Yield

namespace MiniC

/-! ## Places in a row -/

/-- On an earlier line, or further to the left on the same line. -/
def Location.Before (l m : Location) : Prop := l.line < m.line ∨ l.line = m.line ∧ l.column < m.column

namespace Location.Before

variable {l m : Location}

theorem irrefl (l : Location) : ¬ l.Before l := by
  unfold Location.Before
  omega

theorem asymm (h : l.Before m) : ¬ m.Before l := by
  unfold Location.Before at h ⊢
  omega

end Location.Before

namespace Bytes

variable (source : Bytes) (n : Nat)

/-- One byte further on, only a line feed changes the line. -/
theorem lineOf_succ : lineOf source (n + 1)
    = if source[n]? = some Byte.lineFeed then lineOf source n + 1 else lineOf source n := by
  unfold lineOf
  rw [List.take_add_one, List.count_append, ← Nat.add_assoc]
  cases hb : source[n]? with
  | none => rfl
  | some b =>
      by_cases hfeed : b = Byte.lineFeed
      · simp [hfeed]
      · simp [hfeed]

/-- And only a line feed starts the columns again. -/
theorem columnOf_succ : columnOf source (n + 1)
    = if source[n]? = some Byte.lineFeed then 1 else columnOf source n + 1 := by
  have hle := lineStartOf_le source n
  unfold columnOf
  rw [lineStartOf_succ]
  split <;> omega

variable {n}

/-- Further on in a source is further down, or further to the right on the same line. -/
theorem place_lt {i : Nat} (h : i < n) : lineOf source i < lineOf source n ∨
    lineOf source i = lineOf source n ∧ columnOf source i < columnOf source n := by
  induction h with
  | refl =>
      rw [lineOf_succ, columnOf_succ]
      split <;> omega
  | step _ ih =>
      rw [lineOf_succ, columnOf_succ]
      split <;> omega

end Bytes

/-- Places come in the order of their offsets. -/
theorem Location.IsAt.before {l m : Location} {source : Bytes} {i j : Int} (hl : l.IsAt source i)
    (hm : m.IsAt source j) (h : i < j) : l.Before m := by
  obtain ⟨a, -, rfl, hline, hcolumn⟩ := hl
  obtain ⟨b, -, rfl, hline', hcolumn'⟩ := hm
  have hplace := Bytes.place_lt source (Int.ofNat_lt.mp h)
  unfold Location.Before
  omega

/-- No place is before the first one. -/
theorem Location.IsAt.not_before_first {l : Location} {source : Bytes} {i : Int} {file : String}
    (h : l.IsAt source i) : ¬ l.Before { file, line := 1, column := 1 } := by
  obtain ⟨n, -, -, hline, hcolumn⟩ := h
  have hfirst : 1 ≤ Bytes.lineOf source n ∧ 1 ≤ Bytes.columnOf source n :=
    ⟨Nat.le_add_right 1 _, Nat.le_add_left 1 _⟩
  show ¬ (l.line < 1 ∨ l.line = 1 ∧ l.column < 1)
  omega

/-! ## Nodes in a row -/

/-- The first node starts before the second. -/
def Node.StartsBefore (n m : Node) : Prop :=
  ∃ l k, n.location = some l ∧ m.location = some k ∧ l.Before k

/-- The node starts where the token stands; a leaf is over that token. -/
structure Node.StartsAt (n : Node) (t : Token) : Prop where
  location : n.location = some t.location
  leaf : n.isTerminal = true → n.token = some t

/-- The first token stands before the second. -/
def Token.Before (t u : Token) : Prop := t.location.Before u.location

theorem Node.StartsAt.startsBefore {n m : Node} {t u : Token} (hn : n.StartsAt t) (hm : m.StartsAt u)
    (h : t.Before u) : n.StartsBefore m := ⟨_, _, hn.location, hm.location, h⟩

/-- The relation is about the places of the two nodes and nothing else. -/
theorem Node.startsBefore_iff {n m : Node} {l k : Location} (hn : n.location = some l)
    (hm : m.location = some k) : n.StartsBefore m ↔ l.Before k := by
  constructor
  · rintro ⟨l', k', hl, hk, h⟩
    rw [hn, Option.some.injEq] at hl
    rw [hm, Option.some.injEq] at hk
    rwa [hl, hk]
  · exact fun h => ⟨l, k, hn, hm, h⟩

/-- A node is one of its own nodes. -/
theorem Node.mem_nodes (n : Node) : n ∈ n.nodes := by
  rw [nodes_eq]
  exact List.mem_cons_self

theorem Node.mem_flatMap_nodes {n : Node} {es : List Node} (h : n ∈ es) : n ∈ es.flatMap nodes :=
  List.mem_flatMap.mpr ⟨n, h, n.mem_nodes⟩

/-- A walk over the nodes and all below them goes back nowhere; children start one behind the other and
none before its parent; and so do the nodes themselves. -/
structure Ascending (es : List Node) : Prop where
  walk : (es.flatMap Node.nodes).Pairwise fun n m => ¬ m.StartsBefore n
  children : ∀ n ∈ es.flatMap Node.nodes, n.children.Pairwise Node.StartsBefore ∧
    ∀ c ∈ n.children, ¬ c.StartsBefore n
  row : es.Pairwise Node.StartsBefore

namespace Ascending

variable {es fs : List Node}

theorem nil : Ascending [] := ⟨by simp, by simp, .nil⟩

theorem append (h : Ascending es) (h' : Ascending fs)
    (hcross : ∀ n ∈ es.flatMap Node.nodes, ∀ m ∈ fs.flatMap Node.nodes, n.StartsBefore m) :
    Ascending (es ++ fs) := by
  refine ⟨?_, ?_, ?_⟩
  · rw [List.flatMap_append, List.pairwise_append]
    refine ⟨h.walk, h'.walk, fun n hn m hm => ?_⟩
    obtain ⟨l, k, hl, hk, hbefore⟩ := hcross n hn m hm
    rw [Node.startsBefore_iff hk hl]
    exact hbefore.asymm
  · rw [List.flatMap_append, List.forall_mem_append]
    exact ⟨h.children, h'.children⟩
  · rw [List.pairwise_append]
    exact ⟨h.row, h'.row, fun e he f hf =>
      hcross e (Node.mem_flatMap_nodes he) f (Node.mem_flatMap_nodes hf)⟩

/-- A node over others that starts no later than they do. -/
theorem node {n : Node} (h : Ascending n.children)
    (hfirst : ∀ m ∈ n.children.flatMap Node.nodes, ¬ m.StartsBefore n) : Ascending [n] := by
  have hnodes : [n].flatMap Node.nodes = n :: n.children.flatMap Node.nodes := by
    rw [List.flatMap_singleton, Node.nodes_eq]
  refine ⟨?_, ?_, List.pairwise_singleton ..⟩
  · rw [hnodes, List.pairwise_cons]
    exact ⟨hfirst, h.walk⟩
  · rw [hnodes, List.forall_mem_cons]
    exact ⟨⟨h.row, fun c hc => hfirst c (Node.mem_flatMap_nodes hc)⟩, h.children⟩

end Ascending

/-- The nodes, with all below them, start at tokens of `w`, and in order. -/
structure InOrder (w : List Token) (es : List Node) : Prop extends Ascending es where
  starts : ∀ n ∈ es.flatMap Node.nodes, ∃ t ∈ w, n.StartsAt t

namespace InOrder

variable {t : Token} {u v w : List Token} {es fs : List Node} {kind : NodeKind}

theorem nil : InOrder [] [] := ⟨.nil, by simp⟩

theorem mono (h : InOrder w es) (hsub : ∀ t ∈ w, t ∈ v) : InOrder v es := by
  refine ⟨h.toAscending, fun n hn => ?_⟩
  obtain ⟨t, ht, hstart⟩ := h.starts n hn
  exact ⟨t, hsub t ht, hstart⟩

/-- What two words in a row have made is in order, as the one stands before the other. -/
theorem append (h : InOrder u es) (h' : InOrder v fs) (huv : ∀ t ∈ u, ∀ s ∈ v, t.Before s) :
    InOrder (u ++ v) (es ++ fs) := by
  refine ⟨h.toAscending.append h'.toAscending fun n hn m hm => ?_, ?_⟩
  · obtain ⟨t, ht, hnt⟩ := h.starts n hn
    obtain ⟨s, hs, hms⟩ := h'.starts m hm
    exact hnt.startsBefore hms (huv t ht s hs)
  · rw [List.flatMap_append, List.forall_mem_append]
    exact ⟨(h.mono fun t ht => List.mem_append_left v ht).starts,
      (h'.mono fun t ht => List.mem_append_right u ht).starts⟩

theorem node {n : Node} (h : InOrder w n.children) (hstart : ∃ t ∈ w, n.StartsAt t)
    (hfirst : ∀ m ∈ n.children.flatMap Node.nodes, ¬ m.StartsBefore n) : InOrder w [n] := by
  refine ⟨h.toAscending.node hfirst, ?_⟩
  rw [List.flatMap_singleton, Node.nodes_eq, List.forall_mem_cons]
  exact ⟨hstart, h.starts⟩

theorem leaf (t : Token) : InOrder [t] [.leaf t] :=
  .node (nil.mono (List.forall_mem_nil _)) ⟨t, List.mem_singleton_self t, rfl, fun _ => rfl⟩
    (List.forall_mem_nil _)

theorem branch (hkind : kind ≠ .terminal) (hne : es ≠ []) (h : InOrder w es) :
    InOrder w [.branch kind es] := by
  obtain ⟨e, es, rfl⟩ := List.exists_cons_of_ne_nil hne
  -- The first child is also the first node that the walk meets behind the branch.
  have hnodes : (e :: es).flatMap Node.nodes
      = e :: (e.children.flatMap Node.nodes ++ es.flatMap Node.nodes) := by
    rw [List.flatMap_cons, Node.nodes_eq, List.cons_append]
  obtain ⟨t, ht, hstart⟩ := h.starts e (hnodes ▸ List.mem_cons_self)
  have hplace : (Node.branch kind (e :: es)).location = some t.location := hstart.location
  refine .node h ⟨t, ht, hplace, fun hterminal => absurd (beq_iff_eq.mp hterminal) hkind⟩ ?_
  intro m hm hbefore
  obtain ⟨l, k, hl, hk, hlk⟩ := hbefore
  obtain rfl : t.location = k := Option.some.inj (hplace.symm.trans hk)
  have hwalk := h.walk
  rw [hnodes, List.pairwise_cons] at hwalk
  change m ∈ (e :: es).flatMap Node.nodes at hm
  rw [hnodes, List.mem_cons] at hm
  rcases hm with rfl | hm
  · obtain rfl : t.location = l := Option.some.inj (hstart.location.symm.trans hl)
    exact Location.Before.irrefl _ hlk
  · exact hwalk.1 m hm ⟨l, _, hl, hstart.location, hlk⟩

theorem branchAt (hkind : kind ≠ .terminal) (hfirst : ∀ s ∈ w, t.Before s) (h : InOrder w es) :
    InOrder (t :: w) [.branchAt t.location kind es] := by
  have hstart : (Node.branchAt t.location kind es).StartsAt t :=
    ⟨rfl, fun hterminal => absurd (beq_iff_eq.mp hterminal) hkind⟩
  refine .node (h.mono fun s hs => List.mem_cons_of_mem t hs) ⟨t, List.mem_cons_self, hstart⟩ ?_
  intro m hm
  obtain ⟨s, hs, hms⟩ := h.starts m hm
  rw [Node.startsBefore_iff hms.location hstart.location]
  exact (hfirst s hs).asymm

end InOrder

/-- The nodes are in order, if the tokens of the word are. -/
def Follows (es : List Node) (w : List Token) : Prop := w.Pairwise Token.Before → InOrder w es

namespace Follows

variable {t : Token} {u v w : List Token} {es fs : List Node} {kind : NodeKind}

theorem nil : Follows [] [] := fun _ => .nil

theorem leaf (t : Token) : Follows [.leaf t] [t] := fun _ => .leaf t

theorem append (h : Follows es u) (h' : Follows fs v) : Follows (es ++ fs) (u ++ v) := by
  intro hsorted
  rw [List.pairwise_append] at hsorted
  exact (h hsorted.1).append (h' hsorted.2.1) hsorted.2.2

/-- Tokens that make no node may stand anywhere. -/
theorem mono (h : Follows es w) (hsub : w.Sublist v) : Follows es v :=
  fun hsorted => (h (hsorted.sublist hsub)).mono fun _ ht => hsub.subset ht

theorem skip (h : Follows es w) : Follows es (t :: w) := h.mono (List.sublist_cons_self t w)

theorem append_nil (h : Follows es w) : Follows es (w ++ v) := h.mono (List.sublist_append_left w v)

theorem cons (h : Follows es w) : Follows (.leaf t :: es) (t :: w) := (leaf t).append h

theorem branch (hkind : kind ≠ .terminal) (hne : es ≠ []) (h : Follows es w) :
    Follows [.branch kind es] w :=
  fun hsorted => (h hsorted).branch hkind hne

theorem branchAt (hkind : kind ≠ .terminal) (h : Follows es w) :
    Follows [.branchAt t.location kind es] (t :: w) := by
  intro hsorted
  rw [List.pairwise_cons] at hsorted
  exact (h hsorted.2).branchAt hkind hsorted.1

end Follows

/-! ## Expressions -/

/-- A chain has children, the first of which it starts with. -/
theorem Spine.ne_nil {next : Option Operator} {l : Level} {w : List Token} {children : List Node}
    (h : Spine next l w children) : children ≠ [] := by
  cases h with
  | pair | more => simp

mutual

/-- Parentheses may be skipped: what is left still comes in the order of the tokens. -/
theorem Builds.follows {next : Option Operator} {s : Symbol} {w : List Token} {e : Node}
    (h : Builds next s w e) : Follows [e] w := by
  match h with
  | .operand h | .sum h => exact h.follows
  | .chain h => exact .branch (Level.kind_ne_terminal _) h.ne_nil h.follows
  | .not _ _ h => exact .branch (by decide) (List.cons_ne_nil _ _) h.follows.cons
  | .group _ _ h | .paren _ _ h => exact h.follows.append_nil.skip
  | .name _ | .number _ => exact .leaf _

theorem Spine.follows {next : Option Operator} {l : Level} {w : List Token} {children : List Node}
    (h : Spine next l w children) : Follows children w := by
  match h with
  | .pair ha _ _ hb => exact ha.follows.append hb.follows.cons
  | .more hsub _ _ hb => exact hsub.follows.append hb.follows.cons

end

/-! ## Declarations -/

section Declarations

variable {B : List Token → Node → Prop} {w : List Token} {e : Node} {es : List Node}

/-- The nodes of a row come in the order of its words. -/
theorem Row.follows (h : Row B w es) (hB : ∀ w e, B w e → Follows [e] w) : Follows es w := by
  cases h with
  | @mk parts hparts =>
      induction parts with
      | nil => exact .nil
      | cons x parts ih =>
          rw [List.forall_mem_cons] at hparts
          exact (hB _ _ hparts.1).append (ih hparts.2)

theorem AfterComma.follows (h : AfterComma B w e) (hB : ∀ w e, B w e → Follows [e] w) :
    Follows [e] w := by
  cases h with
  | mk _ h => exact (hB _ _ h).skip

theorem BuildsName.follows (h : BuildsName w e) : Follows [e] w := by
  cases h with
  | mk => exact .leaf _

/-- Leaves stand where their tokens stand. -/
theorem follows_leaves (w : List Token) : Follows (w.map .leaf) w := by
  induction w with
  | nil => exact .nil
  | cons t w ih => exact ih.cons

/-- A type has a word, and starts at the first. -/
theorem BuildsType.follows {among : List (List Keyword)} (h : BuildsType among w e)
    (hamong : ∀ us ∈ among, us ∈ TypeWords.result) : Follows [e] w := by
  obtain ⟨t, k, v, us, -, rfl, -⟩ := h.front hamong
  rw [h.node]
  exact .branch (by decide) (List.cons_ne_nil _ _) (follows_leaves _)

theorem BuildsVariable.follows (h : BuildsVariable w e) : Follows [e] w := by
  cases h with
  | mk htype _ hothers _ =>
      have hnames := hothers.follows fun w e h => h.follows fun _ _ => BuildsName.follows
      refine .branch (by decide) (List.cons_ne_nil _ _) ?_
      exact (htype.follows TypeWords.result_of_object).append hnames.append_nil.cons

theorem BuildsArg.follows (h : BuildsArg w e) : Follows [e] w := by
  cases h with
  | mk htype _ =>
      refine .branch (by decide) (List.cons_ne_nil _ _) ?_
      exact (htype.follows TypeWords.result_of_object).append (.leaf _)

theorem BuildsArgs.follows (h : BuildsArgs w es) : Follows es w := by
  cases h with
  | none => exact .nil
  | void => exact Follows.nil.skip
  | some hfirst hothers =>
      exact hfirst.follows.append (hothers.follows fun w e h => h.follows fun _ _ => BuildsArg.follows)

end Declarations

/-! ## Statements -/

section Statements

variable {w : List Token} {e : Node}

theorem BuildsAssignment.follows (h : BuildsAssignment w e) : Follows [e] w := by
  cases h with
  | mk _ _ h => exact .branch (by decide) (List.cons_ne_nil _ _) h.follows.skip.cons

/-- A clause that was left out starts at the token behind it, so that token is counted in. -/
theorem BuildsClause.follows {next : Token} (h : BuildsClause next w e) : Follows [e] (w ++ [next]) := by
  cases h with
  | none => exact .branchAt (by decide) .nil
  | assignment h => exact h.follows.append_nil
  | expression h => exact h.follows.append_nil

/-- By induction on the statement: its node starts at its first token, and its parts come behind. -/
theorem BuildsStmt.follows (h : BuildsStmt w e) : Follows [e] w := by
  induction h with
  | @block _ _ parts _ _ _ ih =>
      have hrow : Row (fun w e => (w, e) ∈ parts) (parts.flatMap Prod.fst) (parts.map Prod.snd) :=
        .mk fun _ hx => hx
      exact .branchAt (by decide) (hrow.follows fun w e hx => ih (w, e) hx).append_nil
  | ifStmt _ _ he _ _ _ _ ihu ihv =>
      exact .branchAt (by decide) (he.follows.append (ihu.append ihv.skip).skip).skip
  | whileLoop _ _ he _ _ ih => exact .branchAt (by decide) (he.follows.append ih.skip).skip
  | forLoop _ _ ha _ hb _ hc _ _ ih =>
      -- Each clause takes the token behind it along.
      have hheader := ha.follows.append (hb.follows.append (hc.follows.append ih))
      simp only [List.append_assoc, List.singleton_append] at hheader
      exact .branchAt (by decide) hheader.skip
  | breakStmt | returnNothing => exact .branchAt (by decide) Follows.nil.skip
  | returnValue _ h => exact .branchAt (by decide) h.follows.append_nil
  | assignStmt h => exact h.follows.append_nil
  | localVariables h => exact h.follows
  | empty => exact .branchAt (by decide) .nil

end Statements

/-! ## Whole sources -/

theorem BuildsItem.follows {w : List Token} {e : Node} (h : BuildsItem w e) : Follows [e] w := by
  cases h with
  | line => exact .leaf _
  | @structDefine _ _ _ _ name _ _ _ _ _ hrow =>
      have hmembers := hrow.follows fun _ _ => BuildsVariable.follows
      exact .branchAt (by decide) ((follows_leaves name).append hmembers.append_nil.skip)
  | funcDeclare htype _ _ hargs =>
      refine .branch (by decide) (List.cons_ne_nil _ _) ?_
      exact (htype.follows fun _ hus => hus).append hargs.follows.append_nil.skip.cons
  | funcDefine htype _ _ hargs _ hbody =>
      refine .branch (by decide) (List.cons_ne_nil _ _) ?_
      have hblock := hbody.stmt.follows
      exact (htype.follows fun _ hus => hus).append (hargs.follows.append hblock.skip).skip.cons
  | global h => exact h.follows

namespace Reader

variable {r r' : Reader} {ts : List Token}

/-- All tokens of a reader are in its file. -/
theorem Delivers.file_of_mem (h : r.Delivers ts r') : ∀ t ∈ ts, t.file = r.file := by
  induction h with
  | nil => simp
  | @cons r₁ r₂ _ t _ hnext _ ih =>
      have hfile : r₂.file = r₁.file := (Delivers.single hnext).file_eq
      rw [hfile] at ih
      refine List.forall_mem_cons.mpr ⟨?_, ih⟩
      rcases next_ok_cases hnext with ⟨_, -, rfl, -⟩ | ⟨_, _, _, -, -, rfl, -⟩
      · rfl
      · rfl

/-- The tokens of a source stand in it from top to bottom and from left to right. -/
theorem InPlace.pairwise_before (h : r.InPlace) {mark : Token} (hholds : r.Holds ts mark) :
    ts.Pairwise Token.Before := by
  have hoffsets := r.pairwise_live
  rw [hholds.live_eq] at hoffsets
  refine hoffsets.imp_of_mem fun {t u} ht hu hlt => ?_
  have hat : ∀ t ∈ ts, t.location.IsAt r.source t.offset := fun t ht =>
    h.isAt_of_mem_stream (by simp [hholds.stream_eq, ht])
  exact (hat t ht).before (hat u hu) hlt

end Reader

namespace Options

variable {o : Options} {source : Bytes} {name : Option String}

/-- A source goes by the name it is given, unless that is missing or empty. -/
theorem fileName_cases (o : Options) (name : Option String) :
    (name = none ∨ name = some "") ∧ o.fileName name = o.file ∨
      name = some (o.fileName name) ∧ o.fileName name ≠ "" := by
  cases name with
  | none => exact .inl ⟨.inl rfl, rfl⟩
  | some name =>
      by_cases hempty : name = ""
      · subst hempty
        exact .inl ⟨.inr rfl, rfl⟩
      · have hname : o.fileName (some name) = name := if_neg (by simpa using hempty)
        rw [hname]
        exact .inr ⟨rfl, hempty⟩

/-- Every node of a tree that was read has a place in the source, under the name that the source was
given or, if it was given none or an empty one, under the name in the options.  The root starts at the
first place there is, and every other node where some token stands, a leaf where its own does.  Along a
walk no node starts before one that was met earlier, the children of a node start one behind the other,
and no child before its parent. -/
theorem nodes_start_in_order {r : Parsed} (h : (o.parse source name).1 = .ok r) :
    ∃ tokens file, (o.tokenize source name).1 = .ok tokens ∧
      ((name = none ∨ name = some "") ∧ file = o.file ∨ name = some file ∧ file ≠ "") ∧
      r.tree.root.location = some { file, line := 1, column := 1 } ∧
      (∀ x ∈ r.tree.walk, ∃ l, x.2.location = some l ∧ l.file = file) ∧
      (∀ x ∈ r.tree.walk, x.1 ≠ 0 → ∃ t ∈ tokens, t.atEnd = false ∧ x.2.StartsAt t) ∧
      (r.tree.walk.map (·.2)).Pairwise (fun n m => ¬ m.StartsBefore n) ∧
      ∀ x ∈ r.tree.walk, x.2.children.Pairwise Node.StartsBefore ∧
        ∀ c ∈ x.2.children, ¬ c.StartsBefore x.2 := by
  obtain ⟨ts, mark, es, hholds, hes, -, rfl⟩ := holds_of_parse_ok h
  have hplace := Reader.inPlace_new source (o.fileName name)
  obtain ⟨r₁, hdeliv⟩ := hholds.delivers
  have horder : InOrder ts es :=
    hes.follows (fun _ _ => BuildsItem.follows) (hplace.pairwise_before hholds)
  have hfile : ∀ t ∈ ts, t.file = o.fileName name :=
    fun t ht => hdeliv.file_of_mem t (List.mem_append_left _ ht)
  let root := (Tree.ofItems (o.fileName name) es).root
  -- The root stands at no token, but nothing stands before it.
  have hroot : Ascending [root] := by
    refine horder.toAscending.node (n := root) fun m hm => ?_
    obtain ⟨t, ht, hstart⟩ := horder.starts m hm
    have hat := hplace.isAt_of_mem_stream (t := t) (by simp [hholds.stream_eq, ht])
    rw [Node.startsBefore_iff hstart.location rfl]
    exact hat.not_before_first
  have hnodes : (o.accepted name ts es).tree.walk.map (·.2) = [root].flatMap Node.nodes := by
    rw [Tree.map_walk, List.flatMap_singleton]
    rfl
  have hmem : ∀ x ∈ (o.accepted name ts es).tree.walk, x.2 ∈ [root].flatMap Node.nodes :=
    fun x hx => hnodes ▸ List.mem_map_of_mem hx
  refine ⟨ts ++ [mark], o.fileName name,
    (o.tokenize_eq_ok_iff source name).mpr ⟨ts, mark, hholds, rfl⟩, o.fileName_cases name, rfl, ?_, ?_,
    hnodes ▸ hroot.walk, fun x hx => hroot.children x.2 (hmem x hx)⟩
  · intro x hx
    rcases Tree.mem_walk_ofItems hx with rfl | ⟨-, hx⟩
    · exact ⟨_, rfl, rfl⟩
    · obtain ⟨t, ht, hstart⟩ := horder.starts x.2 hx
      exact ⟨t.location, hstart.location, hfile t ht⟩
  · intro x hx hdepth
    rcases Tree.mem_walk_ofItems hx with rfl | ⟨-, hx⟩
    · exact absurd rfl hdepth
    · obtain ⟨t, ht, hstart⟩ := horder.starts x.2 hx
      exact ⟨t, List.mem_append_left _ ht, hholds.live t ht, hstart⟩

/-- Three clauses that are left out, and a product of which the first factor stands in parentheses. -/
theorem omitted_clauses_start_in_order : ∃ r tokens,
    (({} : Options).parse (utf8 "void f()\x7bfor(;;)while((a)*b)\x7b\x7d\x7d") (some "loop.c")).1 = .ok r ∧
      (({} : Options).tokenize
        (utf8 "void f()\x7bfor(;;)while((a)*b)\x7b\x7d\x7d") (some "loop.c")).1 = .ok tokens ∧
      r.tree.root.location = some { file := "loop.c", line := 1, column := 1 } ∧
      (∀ x ∈ r.tree.walk, ∃ l, x.2.location = some l ∧ l.file = "loop.c") ∧
      (∀ x ∈ r.tree.walk, x.1 ≠ 0 → ∃ t ∈ tokens, t.atEnd = false ∧ x.2.StartsAt t) ∧
      (r.tree.walk.map (·.2)).Pairwise (fun n m => ¬ m.StartsBefore n) := by
  have hok : (({} : Options).parse
      (utf8 "void f()\x7bfor(;;)while((a)*b)\x7b\x7d\x7d") (some "loop.c")).1.toBool = true := by
    decide +kernel
  obtain ⟨r, hparse⟩ := exists_ok_of_toBool hok
  obtain ⟨tokens, file, htokens, hfile, hroot, hplaces, hstarts, hwalk, -⟩ := nodes_start_in_order hparse
  obtain ⟨rfl, -⟩ : "loop.c" = file ∧ file ≠ "" := by simpa using hfile
  exact ⟨r, tokens, hparse, htokens, hroot, hplaces, hstarts, hwalk⟩

end Options

end MiniC
