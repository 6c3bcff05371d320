/-
# MiniC.Proofs.Dump — a printed tree says which tree it is.

A dump has one line for each node: spaces for its depth, then its kind or its lexeme, with the text of a
lexeme as it stands.  Nothing is escaped, so what a line says can be read off only because of what a
reader puts into lexemes: no text has a line feed in it.  Then the lines of a dump are known, from each
line its depth and what it prints, and from the depths which nodes are below which.

Two trees that were read have the same dump if and only if they are the same, places apart.
-/
import Mathlib.Data.List.Nodup
import MiniC.Proofs.Printing
import MiniC.Proofs.Tiling
import MiniC.Proofs.Yield

namespace MiniC

/-- A run that ends where it has to is told from what follows it. -/
theorem IsRun.unique {among : UInt8 → Bool} {run run' after after' : Bytes} (h : IsRun among run after)
    (h' : IsRun among run' after') (heq : run ++ after = run' ++ after') :
    run = run' ∧ after = after' := by
  have hrun : run = run' := by rw [← h.takeWhile, heq, h'.takeWhile]
  subst hrun
  exact ⟨rfl, List.append_cancel_left heq⟩

/-! ## Labels -/

/-- The byte that opens what is printed behind a label. -/
def Byte.parenthesis : UInt8 := 40

/-- The labels of a closed set: each is a word, and none stands for two members. -/
structure Labels {α : Type} (label : α → String) (all : List α) : Prop where
  complete : ∀ a, a ∈ all
  words : ∀ a ∈ all, (utf8 (label a)).head?.any Byte.isWordStart = true ∧
    (utf8 (label a)).all Byte.isWordStart = true
  nodup : (all.map fun a => utf8 (label a)).Nodup

namespace Labels

variable {α : Type} {label : α → String} {all : List α}

theorem eq_of_label (h : Labels label all) {a b : α} (heq : utf8 (label a) = utf8 (label b)) : a = b :=
  List.inj_on_of_nodup_map h.nodup (h.complete a) (h.complete b) heq

theorem not_mem (h : Labels label all) (a : α) {b : UInt8} (hb : Byte.isWordStart b = false) :
    b ∉ utf8 (label a) := by
  intro hmem
  have hword := List.all_eq_true.mp (h.words a (h.complete a)).2 b hmem
  rw [hb] at hword
  cases hword

theorem isRun (h : Labels label all) (a : α) {after : Bytes}
    (hafter : ∀ b ∈ after.head?, b = Byte.parenthesis) :
    IsRun (· != Byte.parenthesis) (utf8 (label a)) after := by
  refine ⟨fun b hb => ?_, fun b hb => by simp [hafter b hb]⟩
  rw [bne_iff_ne]
  rintro rfl
  exact h.not_mem a (by decide) hb

end Labels

theorem NodeKind.labels : Labels NodeKind.label NodeKind.all where
  complete k := by cases k <;> decide
  words := by decide +kernel
  nodup := by decide +kernel

theorem TokenKind.labels : Labels TokenKind.label TokenKind.all where
  complete k := by cases k <;> decide
  words := by decide +kernel
  nodup := by decide +kernel

theorem Keyword.labels : Labels Keyword.label Keyword.all where
  complete k := by cases k <;> decide
  words := by decide +kernel
  nodup := by decide +kernel

theorem Operator.labels : Labels Operator.label Operator.all where
  complete := Operator.mem_all
  words := by decide +kernel
  nodup := by decide +kernel

theorem Bracket.labels : Labels Bracket.label Bracket.all where
  complete b := by cases b <;> decide
  words := by decide +kernel
  nodup := by decide +kernel

/-! ## Lexemes in print -/

namespace Lexeme

/-- A label in parentheses. -/
def named (label : String) : Bytes := utf8 "(" ++ (utf8 label ++ utf8 ")")

/-- A text in quotes and parentheses, if there is one. -/
def quoted : Option Bytes → Bytes
  | some text => utf8 "(\"" ++ (text ++ utf8 "\")")
  | none => []

/-- What is printed behind the kind. -/
def detail : Lexeme → Bytes
  | .keyword k => named k.label
  | .operator o => named o.label
  | .bracket b => named b.label
  | .preprocessor text | .identifier text | .number text => quoted text
  | .comma text | .semicolon text | .endOfStream text => quoted text

theorem render_eq (l : Lexeme) : l.render = utf8 l.kind.label ++ l.detail := by
  cases l with
  | keyword | operator | bracket => simp [render, detail, named]
  | preprocessor text | identifier text | number text | comma text | semicolon text
  | endOfStream text =>
      cases text with
      | none => exact (List.append_nil _).symm
      | some text => simp [render, detail, quoted, text?]

theorem head?_detail (l : Lexeme) : ∀ b ∈ l.detail.head?, b = Byte.parenthesis := by
  have hnamed : ∀ label : String, (named label).head? = some Byte.parenthesis := fun _ => rfl
  cases l with
  | keyword | operator | bracket => simp [detail, hnamed]
  | preprocessor text | identifier text | number text | comma text | semicolon text
  | endOfStream text =>
      cases text with
      | none => simp [detail, quoted]
      | some text =>
          rintro _ ⟨⟩
          rfl

theorem eq_of_named {label label' : String} (h : named label = named label') :
    utf8 label = utf8 label' :=
  List.append_cancel_right (List.append_cancel_left h)

theorem eq_of_quoted {text text' : Option Bytes} (h : quoted text = quoted text') : text = text' := by
  cases text with
  | none =>
      cases text' with
      | none => rfl
      | some text' => cases h
  | some text =>
      cases text' with
      | none => cases h
      | some text' => rw [List.append_cancel_right (List.append_cancel_left h)]

/-- No two lexemes are printed alike.  The label ends before the first parenthesis, and the text of a
lexeme between the quotes that stand outermost. -/
theorem render_injective {l l' : Lexeme} (h : l.render = l'.render) : l = l' := by
  have hrun : ∀ l : Lexeme, IsRun (· != Byte.parenthesis) (utf8 l.kind.label) l.detail :=
    fun l => TokenKind.labels.isRun l.kind l.head?_detail
  rw [render_eq, render_eq] at h
  obtain ⟨hlabel, hdetail⟩ := (hrun l).unique (hrun l') h
  have hkind := TokenKind.labels.eq_of_label hlabel
  -- Of the pairs of constructors only those of one kind are left.
  cases l <;> cases l' <;> cases hkind
  case keyword.keyword => rw [Keyword.labels.eq_of_label (eq_of_named hdetail)]
  case operator.operator => rw [Operator.labels.eq_of_label (eq_of_named hdetail)]
  case bracket.bracket => rw [Bracket.labels.eq_of_label (eq_of_named hdetail)]
  case preprocessor.preprocessor | identifier.identifier | number.number | comma.comma
      | semicolon.semicolon | endOfStream.endOfStream => rw [eq_of_quoted hdetail]

/-- What a reader delivers is printed on one line. -/
theorem lineFeed_not_mem_render {l : Lexeme} (h : l.isLegal = true) : Byte.lineFeed ∉ l.render := by
  have hnamed : ∀ label : String, Byte.lineFeed ∉ utf8 label → Byte.lineFeed ∉ named label := by
    intro label hlabel
    simp only [named, List.mem_append, hlabel, false_or, not_or]
    exact ⟨by decide, by decide⟩
  have hquoted : ∀ text : Bytes, Byte.lineFeed ∉ text → Byte.lineFeed ∉ quoted (some text) := by
    intro text htext
    simp only [quoted, List.mem_append, htext, false_or, not_or]
    exact ⟨by decide, by decide⟩
  rw [render_eq, List.mem_append, not_or]
  refine ⟨TokenKind.labels.not_mem l.kind (by decide), ?_⟩
  unfold isLegal at h
  split at h
  · next k => exact hnamed _ (Keyword.labels.not_mem k (by decide))
  · next o => exact hnamed _ (Operator.labels.not_mem o (by decide))
  · next b => exact hnamed _ (Bracket.labels.not_mem b (by decide))
  · exact List.not_mem_nil
  · exact List.not_mem_nil
  · next word =>
      simp only [Bool.and_eq_true, List.all_eq_true] at h
      exact hquoted word fun hmem => absurd (h.1.2 _ hmem) (by decide)
  · next digits =>
      simp only [Bool.and_eq_true, List.all_eq_true] at h
      exact hquoted digits fun hmem => absurd (h.2 _ hmem) (by decide)
  · next text =>
      simp only [Bool.and_eq_true, List.all_eq_true] at h
      exact hquoted text fun hmem => absurd (h.1.2 _ hmem) (by decide)
  · cases h

end Lexeme

/-! ## Lines -/

/-- What a line says about its node: the kind and, for a leaf, the lexeme. -/
structure Face where
  kind : NodeKind
  lexeme : Option Lexeme

namespace Face

/-- What is printed behind the kind: a lexeme in parentheses if the node is a leaf. -/
def detail (x : Face) : Bytes :=
  if x.kind = .terminal then utf8 "(" ++ (x.lexeme.elim (utf8 "None") Lexeme.render ++ utf8 ")") else []

def render (x : Face) : Bytes := utf8 x.kind.label ++ x.detail

/-- Leaves have lexemes, other nodes have none, and the lexemes can be read. -/
structure Plain (x : Face) : Prop where
  leaf : x.lexeme.isSome = (x.kind == .terminal)
  legal : ∀ l ∈ x.lexeme, l.isLegal = true

variable {x y : Face}

theorem isRun_label (x : Face) : IsRun (· != Byte.parenthesis) (utf8 x.kind.label) x.detail := by
  apply NodeKind.labels.isRun
  unfold detail
  split
  · rintro _ ⟨⟩
    rfl
  · simp

theorem eq_of_render (hx : x.Plain) (hy : y.Plain) (h : x.render = y.render) : x = y := by
  obtain ⟨hlabel, hdetail⟩ := x.isRun_label.unique y.isRun_label h
  obtain ⟨kind, lexeme⟩ := x
  obtain ⟨kind', lexeme'⟩ := y
  obtain rfl : kind = kind' := NodeKind.labels.eq_of_label hlabel
  have hleaf : lexeme.isSome = (kind == .terminal) := hx.leaf
  have hleaf' : lexeme'.isSome = (kind == .terminal) := hy.leaf
  by_cases hkind : kind = .terminal
  · subst hkind
    obtain ⟨l, rfl⟩ := Option.isSome_iff_exists.mp hleaf
    obtain ⟨l', rfl⟩ := Option.isSome_iff_exists.mp hleaf'
    have hrender : l.render = l'.render :=
      List.append_cancel_right (List.append_cancel_left hdetail)
    rw [Lexeme.render_injective hrender]
  · have hno : (kind == NodeKind.terminal) = false := by simpa using hkind
    rw [hno, Option.isSome_eq_false_iff, Option.isNone_iff_eq_none] at hleaf hleaf'
    rw [hleaf, hleaf']

theorem lineFeed_not_mem_render (h : x.Plain) : Byte.lineFeed ∉ x.render := by
  rw [render, List.mem_append, not_or]
  refine ⟨NodeKind.labels.not_mem x.kind (by decide), ?_⟩
  unfold detail
  split
  · cases hlexeme : x.lexeme with
    | none => decide
    | some l =>
        have hl := Lexeme.lineFeed_not_mem_render (h.legal l hlexeme)
        simp only [Option.elim_some, List.mem_append, hl, false_or, not_or]
        exact ⟨by decide, by decide⟩
  · exact List.not_mem_nil

/-- A line is moved in as far as there are spaces in front. -/
theorem isRun_spaces (x : Face) (n : Nat) :
    IsRun (· == Byte.space) (List.replicate n Byte.space) x.render := by
  constructor
  · intro b hb
    rw [List.eq_of_mem_replicate hb]
    rfl
  · have hword := (NodeKind.labels.words x.kind (NodeKind.labels.complete x.kind)).1
    rw [render]
    cases hlabel : utf8 x.kind.label with
    | nil =>
        rw [hlabel] at hword
        cases hword
    | cons b rest =>
        have hspace : Byte.space ∉ utf8 x.kind.label := NodeKind.labels.not_mem x.kind (by decide)
        rintro _ ⟨⟩
        rw [beq_eq_false_iff_ne]
        rintro rfl
        exact hspace (by simp [hlabel])

end Face

/-! ## Outlines -/

namespace Node

/-- What the line of a node says. -/
def face (n : Node) : Face := ⟨n.kind, n.token.map Token.lexeme⟩

theorem render_eq (n : Node) : n.render = n.face.render := by
  obtain ⟨kind, children, token, location⟩ := n
  by_cases hkind : kind = .terminal
  · subst hkind
    have hopen : utf8 "Terminal(" = utf8 "Terminal" ++ utf8 "(" := by decide
    show utf8 "Terminal(" ++ token.elim (utf8 "None") Token.render ++ utf8 ")" = utf8 "Terminal"
      ++ (utf8 "(" ++ ((token.map Token.lexeme).elim (utf8 "None") Lexeme.render ++ utf8 ")"))
    rw [hopen, List.append_assoc, List.append_assoc]
    cases token <;> rfl
  · simp [render, Face.render, Face.detail, face, isTerminal, hkind]

/-- What a walk over the node shows, where the node itself is at depth `d`: depths and lines. -/
def outline (d : Nat) (n : Node) : List (Nat × Face) := (n.preorder d).map fun x => (x.1, x.2.face)

theorem outline_eq (d : Nat) (n : Node) :
    n.outline d = (d, n.face) :: n.children.flatMap (outline (d + 1)) := by
  rw [outline, preorder_eq, List.map_cons, List.map_flatMap]
  rfl

/-- What follows is not below depth `d`. -/
def Returns (d : Nat) (rest : List (Nat × Face)) : Prop := ∀ x ∈ rest.head?, x.1 < d

theorem Returns.outline {d : Nat} {rest : List (Nat × Face)} (h : Returns d rest) (cs : List Node) :
    Returns (d + 1) (cs.flatMap (Node.outline d) ++ rest) := by
  cases cs with
  | nil => exact fun x hx => Nat.lt_succ_of_lt (h x hx)
  | cons c cs =>
      rw [List.flatMap_cons, outline_eq]
      rintro _ ⟨⟩
      exact Nat.lt_succ_self d

/-- A node begins at its depth, so it is no part of what has returned from there. -/
theorem Returns.ne_outline {d : Nat} {rest rest' : List (Nat × Face)} (h : Returns d rest) (c : Node)
    (cs : List Node) : rest ≠ (c :: cs).flatMap (Node.outline d) ++ rest' := by
  rintro rfl
  have hlt := h (d, c.face) (by simp [outline_eq])
  exact Nat.lt_irrefl d hlt

mutual

/-- The nodes below a node are those that come before the walk returns to its depth. -/
theorem bare_eq_of_outline (d : Nat) : ∀ (n n' : Node) (rest rest' : List (Nat × Face)),
    Returns (d + 1) rest → Returns (d + 1) rest' → n.outline d ++ rest = n'.outline d ++ rest' →
    n.bare = n'.bare ∧ rest = rest'
  | ⟨kind, children, token, _⟩, ⟨kind', children', token', _⟩, rest, rest', h, h', heq => by
    rw [outline_eq, outline_eq, List.cons_append, List.cons_append, List.cons.injEq, Prod.mk.injEq,
      face, face, Face.mk.injEq] at heq
    obtain ⟨⟨-, hkind, hlexeme⟩, hbelow⟩ := heq
    -- What follows the node is not below it, so seen from its children the walk has returned.
    obtain ⟨hchildren, hrest⟩ :=
      bareAll_eq_of_outline (d + 1) children children' rest rest' h h' hbelow
    have htoken : token.map Token.bare = token'.map Token.bare := by
      have hbare : ∀ t : Option Token,
          t.map Token.bare = (t.map Token.lexeme).map fun l => { lexeme := l } := by
        intro t
        rw [Option.map_map]
        rfl
      rw [hbare, hbare, hlexeme]
    obtain rfl : kind = kind' := hkind
    rw [bare_mk, bare_mk, hchildren, htoken]
    exact ⟨rfl, hrest⟩

theorem bareAll_eq_of_outline (d : Nat) : ∀ (cs cs' : List Node) (rest rest' : List (Nat × Face)),
    Returns d rest → Returns d rest' →
    cs.flatMap (outline d) ++ rest = cs'.flatMap (outline d) ++ rest' →
    cs.map bare = cs'.map bare ∧ rest = rest'
  | [], [], _, _, _, _, heq => ⟨rfl, heq⟩
  | [], c' :: cs', _, _, h, _, heq => absurd heq (h.ne_outline c' cs')
  | c :: cs, [], _, _, _, h', heq => absurd heq.symm (h'.ne_outline c cs)
  | c :: cs, c' :: cs', rest, rest', h, h', heq => by
    rw [List.flatMap_cons, List.flatMap_cons, List.append_assoc, List.append_assoc] at heq
    obtain ⟨hfirst, heq⟩ := bare_eq_of_outline d c c' _ _ (h.outline cs) (h'.outline cs') heq
    obtain ⟨hothers, hrest⟩ := bareAll_eq_of_outline d cs cs' rest rest' h h' heq
    rw [List.map_cons, List.map_cons, hfirst, hothers]
    exact ⟨rfl, hrest⟩

end

mutual

theorem outline_bare (d : Nat) : ∀ n : Node, n.bare.outline d = n.outline d
  | ⟨kind, children, token, location⟩ => by
    have hface : (bare ⟨kind, children, token, location⟩).face = face ⟨kind, children, token, location⟩ := by
      rw [bare_mk, face, face, Option.map_map]
      rfl
    rw [outline_eq, outline_eq, hface, bare_mk, outline_bareAll (d + 1) children]

theorem outline_bareAll (d : Nat) : ∀ cs : List Node,
    (cs.map bare).flatMap (outline d) = cs.flatMap (outline d)
  | [] => rfl
  | c :: cs => by
    rw [List.map_cons, List.flatMap_cons, List.flatMap_cons, outline_bare d c, outline_bareAll d cs]

end

/-- Trees with the same outline are the same, places apart. -/
theorem outline_eq_iff {d : Nat} {n n' : Node} : n.outline d = n'.outline d ↔ n.bare = n'.bare := by
  constructor
  · intro h
    have hnil : Returns (d + 1) [] := by simp [Returns]
    exact (bare_eq_of_outline d n n' [] [] hnil hnil (by rw [h])).1
  · intro h
    rw [← outline_bare, h, outline_bare]

end Node

/-! ## Dumps -/

/-- The line of a node at a depth. -/
def Indent.line (indent : Indent) (x : Nat × Face) : Bytes := indent.margin x.1 ++ x.2.render

theorem Tree.lines_eq (t : Tree) (indent : Indent) :
    t.lines indent = (t.root.outline 0).map indent.line := by
  rw [Tree.lines, Tree.walk_eq, Node.outline, List.map_map]
  refine List.map_congr_left fun x _ => ?_
  show indent.margin x.1 ++ x.2.render = indent.margin x.1 ++ x.2.face.render
  rw [Node.render_eq]

namespace Indent

variable {indent : Indent} {n : Nat}

/-- One level of `n` spaces makes `d * n` spaces for a depth of `d`. -/
theorem margin_eq (h : indent.margin 1 = List.replicate n Byte.space) (d : Nat) :
    indent.margin d = List.replicate (d * n) Byte.space := by
  have hone : Bytes.copies indent.times indent.text = List.replicate n Byte.space := by
    rw [← h, margin, Nat.one_mul]
  rw [margin, Bytes.copies_mul, hone, Bytes.copies, List.flatten_replicate_replicate]

/-- Depth and face of a node can be read off its line. -/
theorem eq_of_line (hn : 0 < n) (h : indent.margin 1 = List.replicate n Byte.space)
    {x y : Nat × Face} (hx : x.2.Plain) (hy : y.2.Plain) (heq : indent.line x = indent.line y) :
    x = y := by
  unfold line at heq
  rw [margin_eq h, margin_eq h] at heq
  obtain ⟨hmargin, hrender⟩ := (x.2.isRun_spaces _).unique (y.2.isRun_spaces _) heq
  have hdepth : x.1 * n = y.1 * n := by simpa using congrArg List.length hmargin
  exact Prod.ext (Nat.eq_of_mul_eq_mul_right hn hdepth) (Face.eq_of_render hx hy hrender)

theorem eq_of_map_line (hn : 0 < n) (h : indent.margin 1 = List.replicate n Byte.space)
    {xs ys : List (Nat × Face)} (hxs : ∀ x ∈ xs, x.2.Plain) (hys : ∀ y ∈ ys, y.2.Plain)
    (heq : xs.map indent.line = ys.map indent.line) : xs = ys := by
  induction xs generalizing ys with
  | nil => exact (List.map_eq_nil_iff.mp heq.symm).symm
  | cons x xs ih =>
      cases ys with
      | nil => cases heq
      | cons y ys =>
          rw [List.forall_mem_cons] at hxs hys
          rw [List.map_cons, List.map_cons, List.cons.injEq] at heq
          rw [eq_of_line hn h hxs.1 hys.1 heq.1, ih hxs.2 hys.2 heq.2]

theorem lineFeed_not_mem_line (h : indent.margin 1 = List.replicate n Byte.space) {x : Nat × Face}
    (hx : x.2.Plain) : Byte.lineFeed ∉ indent.line x := by
  rw [line, margin_eq h, List.mem_append, not_or]
  refine ⟨fun hmem => ?_, Face.lineFeed_not_mem_render hx⟩
  exact absurd (List.eq_of_mem_replicate hmem) (by decide)

end Indent

/-- A dump whose lines have no line feeds in them falls apart into its lines. -/
theorem Tree.splitOn_render {t : Tree} {indent : Indent} {n : Nat}
    (h : indent.margin 1 = List.replicate n Byte.space) (hplain : ∀ x ∈ t.root.outline 0, x.2.Plain) :
    (t.render indent).splitOn Byte.lineFeed = (t.root.outline 0).map indent.line := by
  rw [Tree.render, Bytes.join, Tree.lines_eq]
  refine List.splitOn_intercalate Byte.lineFeed ?_ ?_
  · rw [List.forall_mem_map]
    exact fun x hx => Indent.lineFeed_not_mem_line h (hplain x hx)
  · rw [Node.outline_eq]
    simp

namespace Options

theorem plain_of_parse {o : Options} {source : Bytes} {name : Option String} {r : Parsed}
    (h : (o.parse source name).1 = .ok r) : ∀ x ∈ r.tree.root.outline 0, x.2.Plain := by
  obtain ⟨ts, mark, es, hholds, hes, -, rfl⟩ := holds_of_parse_ok h
  have hitems : KeepsAfter none es ts := keepsAfter_items hes rfl
  obtain ⟨htokens, hleaves⟩ : KeepsAfter none [(o.accepted name ts es).tree.root] ts :=
    hitems.branchAt (by decide)
  rw [List.flatMap_singleton] at htokens hleaves
  have hlegal : ∀ t ∈ ts, t.lexeme.isLegal = true := by
    obtain ⟨r, hdeliv⟩ := hholds.delivers
    obtain ⟨r', hbefore, -⟩ := hdeliv.split
    exact hbefore.isLegal hholds.live
  rw [Node.outline, List.forall_mem_map]
  intro x hx
  have hnode : x.2 ∈ (o.accepted name ts es).tree.root.nodes := List.mem_map_of_mem hx
  constructor
  · rw [Node.face, Option.isSome_map]
    exact (hleaves x.2 hnode).symm
  · rintro l hl
    obtain ⟨t, ht, rfl⟩ := Option.map_eq_some_iff.mp hl
    have hkept : t ∈ Token.kept none ts := by
      rw [← htokens]
      exact List.mem_filterMap.mpr ⟨x.2, hnode, ht⟩
    exact hlegal t (Token.mem_of_mem_kept hkept)

/-- Two sources that are accepted, under whatever options and names, have the same dump, one space or
more for each level, if and only if their trees are the same in kinds, children and lexemes. -/
theorem dumps_agree_iff_trees_agree {o o' : Options} {source source' : Bytes}
    {name name' : Option String} {r r' : Parsed} (h : (o.parse source name).1 = .ok r)
    (h' : (o'.parse source' name').1 = .ok r') {indent : Indent} {n : Nat} (hn : 0 < n)
    (hindent : indent.margin 1 = List.replicate n Byte.space) :
    r.tree.render indent = r'.tree.render indent ↔ r.tree.root.bare = r'.tree.root.bare := by
  have hplain := plain_of_parse h
  have hplain' := plain_of_parse h'
  rw [← Node.outline_eq_iff]
  constructor
  · intro heq
    apply Indent.eq_of_map_line hn hindent hplain hplain'
    rw [← Tree.splitOn_render hindent hplain, ← Tree.splitOn_render hindent hplain', heq]
  · intro heq
    rw [Tree.render, Tree.render, Tree.lines_eq, Tree.lines_eq, heq]

/-- A preprocessor text that looks like the end of a line of a dump, and other layout around it. -/
theorem dumps_of_two_layouts_agree : ∃ r r',
    (({} : Options).parse (utf8 "int a;\n#x\"))") none).1 = .ok r ∧
      (({ strict := true } : Options).parse (utf8 "int/**/a ;#x\"))\r\n\n") (some "b.c")).1 = .ok r' ∧
      r.tree.render {} = r'.tree.render {} ∧ r.tree.root.bare = r'.tree.root.bare := by
  have hdumps : (({} : Options).parse (utf8 "int a;\n#x\"))") none).1.toOption.map
        (fun r => r.tree.render {}) =
      (({ strict := true } : Options).parse (utf8 "int/**/a ;#x\"))\r\n\n")
        (some "b.c")).1.toOption.map (fun r => r.tree.render {}) := by
    decide +kernel
  have hok : (({} : Options).parse (utf8 "int a;\n#x\"))") none).1.toBool = true := by
    decide +kernel
  have hok' : (({ strict := true } : Options).parse (utf8 "int/**/a ;#x\"))\r\n\n")
      (some "b.c")).1.toBool = true := by
    decide +kernel
  obtain ⟨r, hparse⟩ := exists_ok_of_toBool hok
  obtain ⟨r', hparse'⟩ := exists_ok_of_toBool hok'
  rw [hparse, hparse'] at hdumps
  have hrender : r.tree.render {} = r'.tree.render {} := Option.some.inj hdumps
  have hspaces : ({} : Indent).margin 1 = List.replicate 2 Byte.space := by decide
  exact ⟨r, r', hparse, hparse', hrender,
    (dumps_agree_iff_trees_agree hparse hparse' (by decide) hspaces).mp hrender⟩

end Options

end MiniC
