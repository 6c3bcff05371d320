/-
# MiniC.Proofs.RoundTrip — a tree that is written out is read back.

The lexemes of a well-formed tree, put down at whatever places, make a tree of the grammar, and it is
the same tree.  Case by case this says that what `Node.write` puts back is what the rules drop.  Only
expressions ask for more: an operand in parentheses can stand at any level, with any operator behind
it, and in arithmetic it must be arithmetic itself.

With the lexemes spelled out this becomes the round trip from trees to sources and back.
-/
import Mathlib.Data.List.TakeWhile
import MiniC.Proofs.Printing

namespace MiniC

open Node

/-! ## What is rebuilt -/

/-- The lexemes are legal, and tokens with these lexemes make, by `B`, a tree like `n`. -/
structure Rebuilds (B : List Token → Node → Prop) (ls : List Lexeme) (n : Node) : Prop where
  legal : ∀ l ∈ ls, l.isLegal = true
  builds : ∀ w : List Token, w.map Token.lexeme = ls → ∃ e, B w e ∧ e.bare = n.bare

/-- The same for several nodes in a row. -/
structure RebuildsRow (B : List Token → Node → Prop) (ls : List Lexeme) (ns : List Node) : Prop where
  legal : ∀ l ∈ ls, l.isLegal = true
  builds : ∀ w : List Token, w.map Token.lexeme = ls →
    ∃ es, Row B w es ∧ es.map Node.bare = ns.map Node.bare

namespace Rebuilds

variable {B C : List Token → Node → Prop} {ls : List Lexeme} {n : Node}

theorem mono (h : Rebuilds B ls n) (hBC : ∀ w e, B w e → C w e) : Rebuilds C ls n := by
  refine ⟨h.legal, fun w hw => ?_⟩
  obtain ⟨e, he, hbare⟩ := h.builds w hw
  exact ⟨e, hBC w e he, hbare⟩

theorem comma (h : Rebuilds B ls n) : Rebuilds (AfterComma B) (.comma none :: ls) n := by
  refine ⟨List.forall_mem_cons.mpr ⟨rfl, h.legal⟩, fun w hw => ?_⟩
  obtain ⟨t, w, rfl, ht, hw⟩ := List.map_eq_cons_iff.mp hw
  obtain ⟨e, he, hbare⟩ := h.builds w hw
  exact ⟨e, .mk (congrArg Lexeme.terminal ht) he, hbare⟩

/-- Parts that are rebuilt one by one are rebuilt in a row. -/
theorem row {each : Node → List Lexeme} {ns : List Node} (h : ∀ n ∈ ns, Rebuilds B (each n) n) :
    RebuildsRow B (ns.flatMap each) ns := by
  induction ns with
  | nil =>
      refine ⟨by simp, fun w hw => ?_⟩
      obtain rfl : w = [] := by simpa using hw
      exact ⟨[], .nil, rfl⟩
  | cons n ns ih =>
      obtain ⟨hn, hns⟩ := List.forall_mem_cons.mp h
      have hrow := ih hns
      refine ⟨?_, fun w hw => ?_⟩
      · rw [List.flatMap_cons, List.forall_mem_append]
        exact ⟨hn.legal, hrow.legal⟩
      · obtain ⟨u, v, rfl, hu, hv⟩ := List.map_eq_append_iff.mp hw
        obtain ⟨e, he, hbare⟩ := hn.builds u hu
        obtain ⟨es, hes, hbares⟩ := hrow.builds v hv
        exact ⟨e :: es, .cons he hes, by rw [List.map_cons, List.map_cons, hbare, hbares]⟩

end Rebuilds

/-! ## Leaves -/

section Leaves

variable {passes : Lexeme → Prop} {kind : TokenKind} {n : Node}

theorem write_leaf {t : Token} {location : Option Location} :
    Node.write ⟨.terminal, [], some t, location⟩ = [t.lexeme] := rfl

/-- A leaf is written as one lexeme, so one token takes its place. -/
theorem exists_leaf (h : IsLeaf passes n) {w : List Token} (hw : w.map Token.lexeme = n.write) :
    ∃ t, w = [t] ∧ passes t.lexeme ∧ (Node.leaf t).bare = n.bare := by
  cases h with
  | @mk s location hs =>
      rw [write_leaf] at hw
      obtain ⟨t, rfl, ht⟩ := List.map_eq_singleton_iff.mp hw
      refine ⟨t, rfl, ht ▸ hs, ?_⟩
      rw [bare_leaf, bare_mk, Token.bare, ht]
      rfl

theorem legal_leaf (h : IsLeaf passes n) (hlegal : ∀ l, passes l → l.isLegal = true) :
    ∀ l ∈ n.write, l.isLegal = true := by
  cases h with
  | mk hs => simpa [write_leaf] using hlegal _ hs

/-- A leaf is written as its lexeme, and any token with that lexeme makes the leaf again. -/
theorem rebuilds_leaf {B : List Token → Node → Prop} (h : IsLeaf passes n)
    (hlegal : ∀ l, passes l → l.isLegal = true)
    (hB : ∀ t : Token, passes t.lexeme → B [t] (.leaf t)) : Rebuilds B n.write n := by
  refine ⟨legal_leaf h hlegal, fun w hw => ?_⟩
  obtain ⟨t, rfl, ht, hbare⟩ := exists_leaf h hw
  exact ⟨.leaf t, hB t ht, hbare⟩

theorem operand_leaf (h : IsLeaf passes n) : n.part.operand = n.write := by
  cases h with
  | mk => rfl

theorem rebuilds_name (h : IsName n) : Rebuilds BuildsName n.write n :=
  rebuilds_leaf h (fun _ hl => hl.1) fun _ ht =>
    .mk (Lexeme.terminal_of_kind ht.2 (by decide))

theorem exists_name (h : IsName n) {w : List Token} (hw : w.map Token.lexeme = n.write) :
    ∃ t, w = [t] ∧ t.terminal = .identifier ∧ (Node.leaf t).bare = n.bare := by
  obtain ⟨t, rfl, ht, hbare⟩ := exists_leaf h hw
  exact ⟨t, rfl, Lexeme.terminal_of_kind ht.2 (by decide), hbare⟩

end Leaves

/-! ## Declarations -/

section Declarations

variable {n : Node}

theorem flatMap_part (ns : List Node) : (ns.map part).flatMap Prod.snd = ns.flatMap Node.write := by
  rw [List.flatMap_map]
  rfl

theorem write_keywords {us : List Keyword} {ns : List Node}
    (h : List.Forall₂ (fun k => IsLeaf (· = .keyword k)) us ns) :
    ns.flatMap Node.write = us.map .keyword ∧
      ns.map Node.bare = us.map fun k => (Node.leaf { lexeme := .keyword k }).bare := by
  induction h with
  | nil => exact ⟨rfl, rfl⟩
  | cons hleaf _ ih =>
      cases hleaf with
      | mk ht =>
          constructor
          · rw [List.flatMap_cons, ih.1, write_leaf, ht]
            rfl
          · rw [List.map_cons, List.map_cons, ih.2, bare_mk, Option.map_some, Token.bare, ht]
            rfl

/-- A type is written as its keywords. -/
theorem rebuilds_type {among : List (List Keyword)} (h : IsType among n) :
    Rebuilds (BuildsType among) n.write n := by
  cases h with
  | @mk us children location hus hchildren =>
      obtain ⟨hwrite, hbare⟩ := write_keywords hchildren
      have hwords : Node.write ⟨.variableType, children, none, location⟩ = us.map .keyword :=
        write_mk.trans ((flatMap_part children).trans hwrite)
      rw [hwords]
      refine ⟨by simp [Lexeme.isLegal], fun w hw => ?_⟩
      refine ⟨.branch .variableType (w.map .leaf), ⟨⟨us, hus, ?_⟩, rfl⟩, ?_⟩
      · have hterminal := congrArg (List.map Lexeme.terminal) hw
        rwa [List.map_map, List.map_map] at hterminal
      · have hleaves := congrArg (List.map fun l => (Node.leaf { lexeme := l }).bare) hw
        rw [List.map_map, List.map_map] at hleaves
        rw [bare_branch, bare_mk, hbare, List.map_map]
        exact congrArg (fun cs => (⟨.variableType, cs, none, none⟩ : Node)) hleaves

theorem rebuilds_variable (h : IsVariable n) : Rebuilds BuildsVariable n.write n := by
  cases h with
  | @mk type first others location htype hfirst hothers =>
      have hwrite : Node.write ⟨.variableDefine, type :: first :: others, none, location⟩
          = type.write ++ (first.write ++ (others.flatMap fun x => .comma none :: x.write)
            ++ [.semicolon none]) := by
        rw [write_mk]
        show type.write ++ (first.write ++ (others.map part).flatMap _ ++ _) = _
        rw [List.flatMap_map]
        rfl
      have htypes := rebuilds_type htype
      have hnames := Rebuilds.row fun x hx => (rebuilds_name (hothers x hx)).comma
      rw [hwrite]
      refine ⟨?_, fun w hw => ?_⟩
      · simp only [List.forall_mem_append]
        exact ⟨htypes.legal, ⟨(rebuilds_name hfirst).legal, hnames.legal⟩, by simp [Lexeme.isLegal]⟩
      · obtain ⟨type', w, rfl, htype', hw⟩ := List.map_eq_append_iff.mp hw
        obtain ⟨w, last, rfl, hw, hlast⟩ := List.map_eq_append_iff.mp hw
        obtain ⟨name, others', rfl, hname, hothers'⟩ := List.map_eq_append_iff.mp hw
        obtain ⟨semicolon, rfl, hsemi⟩ := List.map_eq_singleton_iff.mp hlast
        obtain ⟨e, he, hebare⟩ := htypes.builds type' htype'
        obtain ⟨t, rfl, ht, htbare⟩ := exists_name hfirst hname
        obtain ⟨es, hes, hesbare⟩ := hnames.builds others' hothers'
        refine ⟨_, .mk he ht hes (congrArg Lexeme.terminal hsemi), ?_⟩
        rw [bare_branch, bare_mk]
        simp only [List.map_cons, hebare, htbare, hesbare, Option.map_none]

theorem rebuilds_arg (h : IsArg n) : Rebuilds BuildsArg n.write n := by
  cases h with
  | @mk type name location htype hname =>
      have hwrite : Node.write ⟨.funcArg, [type, name], none, location⟩ = type.write ++ name.write := by
        rw [write_mk]
        show type.write ++ (name.write ++ []) = _
        rw [List.append_nil]
      rw [hwrite]
      refine ⟨?_, fun w hw => ?_⟩
      · rw [List.forall_mem_append]
        exact ⟨(rebuilds_type htype).legal, (rebuilds_name hname).legal⟩
      · obtain ⟨u, v, rfl, hu, hv⟩ := List.map_eq_append_iff.mp hw
        obtain ⟨e, he, hebare⟩ := (rebuilds_type htype).builds u hu
        obtain ⟨t, rfl, ht, htbare⟩ := exists_name hname hv
        refine ⟨_, .mk he ht, ?_⟩
        rw [bare_branch, bare_mk]
        simp only [List.map_cons, hebare, htbare, List.map_nil, Option.map_none]

end Declarations

/-! ## Levels -/

section Levels

variable {next : Option Operator} {l : Level} {w : List Token} {e : Node}

theorem Builds.of_factor (h : Builds next .factor w e) : Builds next (.level .additive) w e :=
  .operand (l := .additive) (.operand (l := .multiplicative) h)

theorem Builds.or_of_boolFactor (h : Builds next .boolFactor w e) : Builds next (.level .or) w e :=
  .operand (l := .or) (.operand (l := .and) (.operand (l := .equality) (.operand (l := .comparison) h)))

/-- What stands in parentheses, or alone, may be an operand of any level that takes its kind. -/
theorem Builds.operand_of_boolFactor (h : Builds next .boolFactor w e)
    (hl : l.kind.isArithmetic = false) : Builds next l.operand w e := by
  cases l with
  | or => exact .operand (l := .and) (.operand (l := .equality) (.operand (l := .comparison) h))
  | and => exact .operand (l := .equality) (.operand (l := .comparison) h)
  | equality => exact .operand (l := .comparison) h
  | comparison => exact h
  | additive | multiplicative => cases hl

/-- A factor may stand as an operand of every level, which is why parentheses are always enough. -/
theorem Builds.operand_of_factor (h : Builds next .factor w e) : Builds next l.operand w e := by
  cases l with
  | multiplicative => exact h
  | additive => exact .operand (l := .multiplicative) h
  | or | and | equality | comparison => exact (Builds.sum h.of_factor).operand_of_boolFactor rfl

/-- A chain of a boolean level is a whole expression. -/
theorem Builds.or_of_level (h : Builds next (.level l) w e) (hl : l.kind.isArithmetic = false) :
    Builds next (.level .or) w e := by
  cases l with
  | or => exact h
  | and => exact .operand (l := .or) h
  | equality => exact .operand (l := .or) (.operand (l := .and) h)
  | comparison => exact .operand (l := .or) (.operand (l := .and) (.operand (l := .equality) h))
  | additive | multiplicative => cases hl

theorem Builds.additive_of_level (h : Builds next (.level l) w e) (hl : l.kind.isArithmetic = true) :
    Builds next (.level .additive) w e := by
  cases l with
  | additive => exact h
  | multiplicative => exact .operand (l := .additive) h
  | or | and | equality | comparison => cases hl

end Levels

/-! ## Expressions -/

/-- A whole expression, with nothing behind it that could go on with it. -/
def BuildsExpr (w : List Token) (e : Node) : Prop :=
  Builds none (.level .or) w e ∧ (e.isArithmetic = true → Builds none (.level .additive) w e)

/-- An operand, whatever the level and whatever stands behind. -/
def BuildsOperand (w : List Token) (e : Node) : Prop :=
  ∀ (next : Option Operator) (l : Level), (l.kind.isArithmetic = true → e.isArithmetic = true) →
    Builds next l.operand w e

section Expressions

variable {n : Node}

theorem Node.kind_bare (n : Node) : n.bare.kind = n.kind := by
  obtain ⟨_, _, _, _⟩ := n
  rw [bare_mk]

/-- Whether a node is arithmetic does not depend on places. -/
theorem Node.isArithmetic_of_bare {e : Node} (h : e.bare = n.bare) :
    e.isArithmetic = n.isArithmetic := by
  rw [Node.isArithmetic, ← e.kind_bare, h, n.kind_bare, Node.isArithmetic]

theorem buildsExpr_of_factor {w : List Token} {e : Node} (h : Builds none .factor w e) :
    BuildsExpr w e :=
  ⟨(Builds.sum h.of_factor).or_of_boolFactor, fun _ => h.of_factor⟩

theorem buildsOperand_of_factor {w : List Token} {e : Node}
    (h : ∀ next, Builds next .factor w e) : BuildsOperand w e :=
  fun next _ _ => (h next).operand_of_factor

/-- In parentheses an expression becomes an operand. -/
theorem rebuilds_parenthesized (h : Rebuilds BuildsExpr n.write n) :
    Rebuilds BuildsOperand
      (.bracket .leftParenthesis :: (n.write ++ [.bracket .rightParenthesis])) n := by
  refine ⟨?_, fun w hw => ?_⟩
  · rw [List.forall_mem_cons, List.forall_mem_append]
    exact ⟨rfl, h.legal, by simp [Lexeme.isLegal]⟩
  · obtain ⟨opening, w, rfl, hopening, hw⟩ := List.map_eq_cons_iff.mp hw
    obtain ⟨inner, last, rfl, hinner, hlast⟩ := List.map_eq_append_iff.mp hw
    obtain ⟨closing, rfl, hclosing⟩ := List.map_eq_singleton_iff.mp hlast
    obtain ⟨e, ⟨hor, hsum⟩, hbare⟩ := h.builds inner hinner
    replace hopening : opening.terminal = .leftParen := congrArg Lexeme.terminal hopening
    replace hclosing : closing.terminal = .rightParen := congrArg Lexeme.terminal hclosing
    refine ⟨e, fun next l hl => ?_, hbare⟩
    -- Arithmetic levels take what is in parentheses as a factor, the others as a group.
    cases hlevel : l.kind.isArithmetic with
    | true => exact (Builds.paren hopening hclosing (hsum (hl hlevel))).operand_of_factor
    | false => exact (Builds.group hopening hclosing hor).operand_of_boolFactor hlevel

/-- A name or a number is an expression and an operand. -/
theorem rebuilds_factor {kind : TokenKind} (h : IsLegal kind n)
    (hfactor : ∀ t : Token, t.kind = kind → ∀ next, Builds next .factor [t] (.leaf t)) :
    Rebuilds BuildsExpr n.write n ∧ Rebuilds BuildsOperand n.part.operand n := by
  rw [operand_leaf h]
  constructor
  · exact rebuilds_leaf h (fun _ hl => hl.1) fun t ht => buildsExpr_of_factor (hfactor t ht.2 none)
  · exact rebuilds_leaf h (fun _ hl => hl.1) fun t ht => buildsOperand_of_factor (hfactor t ht.2)

/-- A spine, or the operand that it starts with. -/
def GrowsSpine (l : Level) (u : List Token) (cs : List Node) : Prop :=
  (∀ next, Spine next l u cs) ∨ ∃ a, cs = [a] ∧ ∀ next, Builds next l.operand u a

/-- A chain that may still grow takes one more operator and operand. -/
theorem GrowsSpine.link {l : Level} {o : Operator} {t : Token} {u v : List Token} {cs : List Node}
    {b : Node} (h : GrowsSpine l u cs) (ht : t.terminal = .operator o) (ho : o ∈ l.joins)
    (hb : ∀ next, Builds next l.operand v b) (next : Option Operator) :
    Spine next l (u ++ t :: v) (cs ++ [.leaf t, b]) := by
  rcases h with hspine | ⟨a, rfl, ha⟩
  · exact .more (hspine (some o)) ht ho (hb next)
  · exact .pair (ha (some o)) ht ho (hb next)

/-- Operators of a level with an operand each make a spine longer, one after the other. -/
theorem exists_spine {l : Level} {links : List (Node × Node)} {u v : List Token} {cs : List Node}
    (hne : links ≠ [])
    (hops : ∀ x ∈ links, IsLeaf (fun y => ∃ o ∈ l.joins, y = .operator o) x.1)
    (hoperands : ∀ x ∈ links, Rebuilds BuildsOperand x.2.part.operand x.2)
    (harith : l.kind.isArithmetic = true → ∀ x ∈ links, x.2.isArithmetic = true)
    (hgrows : GrowsSpine l u cs)
    (hv : v.map Token.lexeme = links.flatMap fun x => x.1.part.operand ++ x.2.part.operand) :
    ∃ ds, ds.map Node.bare = (links.flatMap fun x => [x.1, x.2]).map Node.bare ∧
      ∀ next, Spine next l (u ++ v) (cs ++ ds) := by
  induction links generalizing u v cs with
  | nil => exact absurd rfl hne
  | cons x links ih =>
      obtain ⟨op, operand⟩ := x
      obtain ⟨hop, hops⟩ := List.forall_mem_cons.mp hops
      obtain ⟨hoperand, hoperands⟩ := List.forall_mem_cons.mp hoperands
      rw [List.flatMap_cons, List.append_assoc] at hv
      obtain ⟨op', v', rfl, hop', hv'⟩ := List.map_eq_append_iff.mp hv
      obtain ⟨w, v, rfl, hw, hrest⟩ := List.map_eq_append_iff.mp hv'
      rw [operand_leaf hop] at hop'
      obtain ⟨t, rfl, ⟨o, ho, ht⟩, htbare⟩ := exists_leaf hop hop'
      obtain ⟨b, hb, hbare⟩ := hoperand.builds w hw
      have hlonger : ∀ next, Spine next l (u ++ t :: w) (cs ++ [.leaf t, b]) := by
        refine hgrows.link (congrArg Lexeme.terminal ht) ho fun next => hb next l fun hl => ?_
        rw [Node.isArithmetic_of_bare hbare]
        exact harith hl _ (by simp)
      cases links with
      | nil =>
          obtain rfl : v = [] := by simpa using hrest
          exact ⟨[.leaf t, b], by simp [htbare, hbare], by simpa using hlonger⟩
      | cons y links =>
          obtain ⟨ds, hds, hall⟩ := ih (by simp) hops hoperands
            (fun hl x hx => harith hl x (List.mem_cons_of_mem _ hx)) (.inl hlonger) hrest
          refine ⟨.leaf t :: b :: ds, ?_, by simpa using hall⟩
          rw [List.map_cons, List.map_cons, htbare, hbare, hds]
          rfl

theorem write_chain {l : Level} {first : Node} {links : List (Node × Node)}
    {location : Option Location} :
    Node.write ⟨l.kind, first :: links.flatMap fun x => [x.1, x.2], none, location⟩
      = first.part.operand ++ links.flatMap fun x => x.1.part.operand ++ x.2.part.operand := by
  have hassemble : ∀ xs : List Part, assemble l.kind none xs = xs.flatMap Part.operand := by
    intro xs
    cases l <;> rfl
  rw [write_mk, hassemble, List.flatMap_map, List.flatMap_cons, List.flatMap_assoc]
  simp

/-- Behind `!` stands an operand, in parentheses if it has an operator of its own. -/
theorem rebuilds_not {op e : Node} (location : Option Location)
    (hop : IsLeaf (· = .operator .logicNot) op) (he : Rebuilds BuildsOperand e.part.operand e) :
    Rebuilds BuildsExpr (Node.write ⟨.boolExprNot, [op, e], none, location⟩)
      ⟨.boolExprNot, [op, e], none, location⟩ := by
  have hwrite : Node.write ⟨.boolExprNot, [op, e], none, location⟩
      = op.write ++ e.part.operand := by
    rw [write_mk, ← operand_leaf hop]
    show op.part.operand ++ (e.part.operand ++ []) = _
    rw [List.append_nil]
  rw [hwrite]
  refine ⟨?_, fun w hw => ?_⟩
  · rw [List.forall_mem_append]
    refine ⟨legal_leaf hop ?_, he.legal⟩
    rintro l rfl
    rfl
  · obtain ⟨u, v, rfl, hu, hv⟩ := List.map_eq_append_iff.mp hw
    obtain ⟨t, rfl, ht, htbare⟩ := exists_leaf hop hu
    obtain ⟨b, hb, hbare⟩ := he.builds v hv
    have hor : Builds none (.level .or) v b := .operand (l := .or) (hb none .or nofun)
    have hnot := Builds.not (congrArg Lexeme.terminal ht) (by simp) hor
    refine ⟨_, ⟨hnot.or_of_boolFactor, nofun⟩, ?_⟩
    rw [bare_branch, bare_mk]
    simp only [List.map_cons, htbare, hbare, List.map_nil, Option.map_none]

/-- The first operand begins the spine, and each link makes it longer. -/
theorem rebuilds_chain {l : Level} {first : Node} {links : List (Node × Node)}
    (location : Option Location) (hne : links ≠ [])
    (hfirst : Rebuilds BuildsOperand first.part.operand first)
    (hops : ∀ x ∈ links, IsLeaf (fun y => ∃ o ∈ l.joins, y = .operator o) x.1)
    (hoperands : ∀ x ∈ links, Rebuilds BuildsOperand x.2.part.operand x.2)
    (harith : l.kind.isArithmetic = true →
      ∀ e ∈ first :: links.map Prod.snd, e.isArithmetic = true) :
    Rebuilds BuildsExpr
      (Node.write ⟨l.kind, first :: links.flatMap fun x => [x.1, x.2], none, location⟩)
      ⟨l.kind, first :: links.flatMap fun x => [x.1, x.2], none, location⟩ := by
  rw [write_chain]
  refine ⟨?_, fun w hw => ?_⟩
  · rw [List.forall_mem_append]
    refine ⟨hfirst.legal, ?_⟩
    simp only [List.mem_flatMap, List.mem_append]
    rintro y ⟨x, hx, hy | hy⟩
    · rw [operand_leaf (hops x hx)] at hy
      refine legal_leaf (hops x hx) ?_ y hy
      rintro _ ⟨o, -, rfl⟩
      rfl
    · exact (hoperands x hx).legal y hy
  · obtain ⟨u, v, rfl, hu, hv⟩ := List.map_eq_append_iff.mp hw
    obtain ⟨a, ha, habare⟩ := hfirst.builds u hu
    have hstart : ∀ next, Builds next l.operand u a := by
      intro next
      refine ha next l fun hl => ?_
      rw [Node.isArithmetic_of_bare habare]
      exact harith hl first (by simp)
    have hlater : l.kind.isArithmetic = true → ∀ x ∈ links, x.2.isArithmetic = true :=
      fun hl x hx => harith hl x.2 (List.mem_cons_of_mem _ (List.mem_map_of_mem hx))
    obtain ⟨ds, hds, hspine⟩ := exists_spine hne hops hoperands hlater (.inr ⟨a, rfl, hstart⟩) hv
    have hchain := Builds.chain (hspine none)
    refine ⟨.branch l.kind ([a] ++ ds), ?_, ?_⟩
    · cases hl : l.kind.isArithmetic with
      | true =>
          have hsum := hchain.additive_of_level hl
          exact ⟨(Builds.sum hsum).or_of_boolFactor, fun _ => hsum⟩
      | false =>
          refine ⟨hchain.or_of_level hl, fun hyes => ?_⟩
          cases hl.symm.trans hyes
    · rw [bare_branch, bare_mk]
      simp only [List.cons_append, List.nil_append, List.map_cons, habare, hds, Option.map_none]

/-- Every expression is rebuilt, as a whole and as an operand. -/
theorem rebuilds_expr (h : IsExpr n) :
    Rebuilds BuildsExpr n.write n ∧ Rebuilds BuildsOperand n.part.operand n := by
  induction h with
  | name h =>
      refine rebuilds_factor h fun t ht next => .name ?_
      exact Lexeme.terminal_of_kind ht (by decide)
  | number h =>
      refine rebuilds_factor h fun t ht next => .number ?_
      exact Lexeme.terminal_of_kind ht (by decide)
  | @not _ _ location hop _ ih =>
      have hwhole := rebuilds_not location hop ih.2
      exact ⟨hwhole, rebuilds_parenthesized hwhole⟩
  | @chain l _ _ location _ hne hops _ harith ihfirst ihlinks =>
      have hwhole := rebuilds_chain location hne ihfirst.2 hops (fun x hx => (ihlinks x hx).2) harith
      refine ⟨hwhole, ?_⟩
      have hoperand := rebuilds_parenthesized hwhole
      cases l <;> exact hoperand

end Expressions

/-! ## Statements -/

section Statements

variable {n : Node}

/-- A condition, a value: anything that is read as a whole expression. -/
theorem rebuilds_or (h : IsExpr n) : Rebuilds (Builds none (.level .or)) n.write n :=
  (rebuilds_expr h).1.mono fun _ _ he => he.1

theorem rebuilds_assignment (h : IsAssignment n) : Rebuilds BuildsAssignment n.write n := by
  cases h with
  | @mk name value location hname hvalue =>
      have hwrite : Node.write ⟨.assignStmt, [name, value], none, location⟩
          = name.write ++ .operator .assign :: value.write := write_mk
      have hor := rebuilds_or hvalue
      rw [hwrite]
      refine ⟨?_, fun w hw => ?_⟩
      · rw [List.forall_mem_append, List.forall_mem_cons]
        exact ⟨(rebuilds_name hname).legal, rfl, hor.legal⟩
      · obtain ⟨u, v, rfl, hu, hv⟩ := List.map_eq_append_iff.mp hw
        obtain ⟨assign, v, rfl, hassign, hvalue'⟩ := List.map_eq_cons_iff.mp hv
        obtain ⟨t, rfl, ht, htbare⟩ := exists_name hname hu
        obtain ⟨e, he, hebare⟩ := hor.builds v hvalue'
        refine ⟨_, .mk ht (congrArg Lexeme.terminal hassign) he, ?_⟩
        rw [bare_branch, bare_mk]
        simp only [List.map_cons, htbare, hebare, List.map_nil, Option.map_none]

/-- The token behind a clause has no say in what the clause is. -/
theorem rebuilds_clause (h : IsClause n) (next : Token) :
    Rebuilds (BuildsClause next) n.write n := by
  cases h with
  | none =>
      refine ⟨by simp [write_mk, assemble], fun w hw => ?_⟩
      obtain rfl : w = [] := by simpa [write_mk, assemble] using hw
      exact ⟨_, .none, by simp⟩
  | assignment h => exact (rebuilds_assignment h).mono fun _ _ he => .assignment he
  | expression h => exact (rebuilds_or h).mono fun _ _ he => .expression he

/-- A statement in curly brackets. -/
theorem exists_enclosed {each : Part → List Lexeme} {B : List Token → Node → Prop}
    {body : List Node} {w : List Token}
    (h : ∀ x ∈ body, Rebuilds B (each x.part) x)
    (hw : w.map Token.lexeme = Part.enclosed (body.map part) each) :
    ∃ opening v closing es, w = opening :: (v ++ [closing]) ∧ opening.terminal = .leftCurly ∧
      closing.terminal = .rightCurly ∧ Row B v es ∧ es.map Node.bare = body.map Node.bare := by
  rw [Part.enclosed, List.flatMap_map] at hw
  obtain ⟨opening, w, rfl, hopening, hw⟩ := List.map_eq_cons_iff.mp hw
  obtain ⟨v, last, rfl, hv, hlast⟩ := List.map_eq_append_iff.mp hw
  obtain ⟨closing, rfl, hclosing⟩ := List.map_eq_singleton_iff.mp hlast
  obtain ⟨es, hes, hbare⟩ := (Rebuilds.row h).builds v hv
  exact ⟨opening, v, closing, es, rfl, congrArg Lexeme.terminal hopening,
    congrArg Lexeme.terminal hclosing, hes, hbare⟩

theorem legal_enclosed {each : Part → List Lexeme} {B : List Token → Node → Prop}
    {body : List Node} (h : ∀ x ∈ body, Rebuilds B (each x.part) x) :
    ∀ l ∈ Part.enclosed (body.map part) each, l.isLegal = true := by
  rw [Part.enclosed, List.flatMap_map, List.forall_mem_cons, List.forall_mem_append]
  exact ⟨rfl, (Rebuilds.row h).legal, by simp [Lexeme.isLegal]⟩

theorem rebuilds_block {body : List Node} (location : Option Location)
    (h : ∀ x ∈ body, Rebuilds BuildsStmt x.part.statement x) :
    Rebuilds BuildsBlock (Node.write ⟨.stmtBlock, body, none, location⟩)
      ⟨.stmtBlock, body, none, location⟩ := by
  rw [write_mk]
  refine ⟨legal_enclosed h, fun w hw => ?_⟩
  obtain ⟨opening, v, closing, es, rfl, hopening, hclosing, hes, hbare⟩ := exists_enclosed h hw
  refine ⟨_, .mk hopening hclosing hes, ?_⟩
  rw [bare_branchAt, bare_mk, hbare, Option.map_none]

/-- A part that ends in a semicolon of its own. -/
theorem Rebuilds.semicolon {B C : List Token → Node → Prop} {ls : List Lexeme}
    (h : Rebuilds B ls n)
    (hC : ∀ w e t, B w e → t.terminal = .semicolon → C (w ++ [t]) e) :
    Rebuilds C (ls ++ [.semicolon none]) n := by
  refine ⟨?_, fun w hw => ?_⟩
  · rw [List.forall_mem_append]
    exact ⟨h.legal, by simp [Lexeme.isLegal]⟩
  · obtain ⟨u, v, rfl, hu, hv⟩ := List.map_eq_append_iff.mp hw
    obtain ⟨t, rfl, ht⟩ := List.map_eq_singleton_iff.mp hv
    obtain ⟨e, he, hbare⟩ := h.builds u hu
    exact ⟨e, hC u e t he (congrArg Lexeme.terminal ht), hbare⟩

theorem rebuilds_if {c a b : Node} (location : Option Location) (hc : IsExpr c)
    (ha : Rebuilds BuildsStmt a.part.statement a) (hb : Rebuilds BuildsStmt b.part.statement b) :
    Rebuilds BuildsStmt (Node.write ⟨.ifStmt, [c, a, b], none, location⟩)
      ⟨.ifStmt, [c, a, b], none, location⟩ := by
  have hwrite : Node.write ⟨.ifStmt, [c, a, b], none, location⟩
      = .keyword .if :: .bracket .leftParenthesis :: (c.write ++ .bracket .rightParenthesis ::
        (a.part.statement ++ .keyword .else :: b.part.statement)) := write_mk
  have hcond := rebuilds_or hc
  rw [hwrite]
  refine ⟨?_, fun w hw => ?_⟩
  · simp only [List.forall_mem_cons, List.forall_mem_append]
    exact ⟨rfl, rfl, hcond.legal, rfl, ha.legal, rfl, hb.legal⟩
  · simp only [List.map_eq_cons_iff, List.map_eq_append_iff] at hw
    obtain ⟨k, _, rfl, hk, o, _, rfl, ho, u, _, rfl, hu, r, _, rfl, hr, v, _, rfl, hv, t, x, rfl, ht,
      hx⟩ := hw
    obtain ⟨e, he, hebare⟩ := hcond.builds u hu
    obtain ⟨a', ha', habare⟩ := ha.builds v hv
    obtain ⟨b', hb', hbbare⟩ := hb.builds x hx
    refine ⟨_, .ifStmt (congrArg Lexeme.terminal hk) (congrArg Lexeme.terminal ho) he
      (congrArg Lexeme.terminal hr) ha' (congrArg Lexeme.terminal ht) hb', ?_⟩
    rw [bare_branchAt, bare_mk]
    simp only [List.map_cons, hebare, habare, hbbare, List.map_nil, Option.map_none]

theorem rebuilds_while {c a : Node} (location : Option Location) (hc : IsExpr c)
    (ha : Rebuilds BuildsStmt a.part.statement a) :
    Rebuilds BuildsStmt (Node.write ⟨.whileLoop, [c, a], none, location⟩)
      ⟨.whileLoop, [c, a], none, location⟩ := by
  have hwrite : Node.write ⟨.whileLoop, [c, a], none, location⟩
      = .keyword .while :: .bracket .leftParenthesis :: (c.write ++ .bracket .rightParenthesis ::
        a.part.statement) := write_mk
  have hcond := rebuilds_or hc
  rw [hwrite]
  refine ⟨?_, fun w hw => ?_⟩
  · simp only [List.forall_mem_cons, List.forall_mem_append]
    exact ⟨rfl, rfl, hcond.legal, rfl, ha.legal⟩
  · simp only [List.map_eq_cons_iff, List.map_eq_append_iff] at hw
    obtain ⟨k, _, rfl, hk, o, _, rfl, ho, u, _, rfl, hu, r, v, rfl, hr, hv⟩ := hw
    obtain ⟨e, he, hebare⟩ := hcond.builds u hu
    obtain ⟨a', ha', habare⟩ := ha.builds v hv
    refine ⟨_, .whileLoop (congrArg Lexeme.terminal hk) (congrArg Lexeme.terminal ho) he
      (congrArg Lexeme.terminal hr) ha', ?_⟩
    rw [bare_branchAt, bare_mk]
    simp only [List.map_cons, hebare, habare, List.map_nil, Option.map_none]

theorem rebuilds_for {a b c s : Node} (location : Option Location) (ha : IsClause a)
    (hb : IsClause b) (hc : IsClause c) (hs : Rebuilds BuildsStmt s.part.statement s) :
    Rebuilds BuildsStmt (Node.write ⟨.forLoop, [a, b, c, s], none, location⟩)
      ⟨.forLoop, [a, b, c, s], none, location⟩ := by
  have hwrite : Node.write ⟨.forLoop, [a, b, c, s], none, location⟩
      = .keyword .for :: .bracket .leftParenthesis :: (a.write ++ .semicolon none ::
        (b.write ++ .semicolon none :: (c.write ++ .bracket .rightParenthesis ::
          s.part.statement))) := write_mk
  rw [hwrite]
  refine ⟨?_, fun w hw => ?_⟩
  · -- Any token will do behind a clause where only the lexemes of the clause are asked for.
    have hlegal : ∀ {x : Node}, IsClause x → ∀ l ∈ x.write, l.isLegal = true :=
      fun hx => (rebuilds_clause hx { lexeme := .semicolon none }).legal
    simp only [List.forall_mem_cons, List.forall_mem_append]
    exact ⟨rfl, rfl, hlegal ha, rfl, hlegal hb, rfl, hlegal hc, rfl, hs.legal⟩
  · simp only [List.map_eq_cons_iff, List.map_eq_append_iff] at hw
    obtain ⟨k, _, rfl, hk, o, _, rfl, ho, u, _, rfl, hu, t, _, rfl, ht, v, _, rfl, hv, t', _, rfl, ht',
      x, _, rfl, hx, r, y, rfl, hr, hy⟩ := hw
    obtain ⟨a', ha', habare⟩ := (rebuilds_clause ha t).builds u hu
    obtain ⟨b', hb', hbbare⟩ := (rebuilds_clause hb t').builds v hv
    obtain ⟨c', hc', hcbare⟩ := (rebuilds_clause hc r).builds x hx
    obtain ⟨s', hs', hsbare⟩ := hs.builds y hy
    refine ⟨_, .forLoop (congrArg Lexeme.terminal hk) (congrArg Lexeme.terminal ho) ha'
      (congrArg Lexeme.terminal ht) hb' (congrArg Lexeme.terminal ht') hc'
      (congrArg Lexeme.terminal hr) hs', ?_⟩
    rw [bare_branchAt, bare_mk]
    simp only [List.map_cons, habare, hbbare, hcbare, hsbare, List.map_nil, Option.map_none]

/-- A keyword and a semicolon. -/
theorem rebuilds_keyword {k : Keyword} {kind : NodeKind} (location : Option Location)
    (hB : ∀ t s : Token, t.terminal = .keyword k → s.terminal = .semicolon →
      BuildsStmt [t, s] (.branchAt t.location kind [])) :
    Rebuilds BuildsStmt [.keyword k, .semicolon none] ⟨kind, [], none, location⟩ := by
  refine ⟨by simp [Lexeme.isLegal], fun w hw => ?_⟩
  obtain ⟨t, v, rfl, ht, hv⟩ := List.map_eq_cons_iff.mp hw
  obtain ⟨s, rfl, hs⟩ := List.map_eq_singleton_iff.mp hv
  exact ⟨_, hB t s (congrArg Lexeme.terminal ht) (congrArg Lexeme.terminal hs), by simp⟩

theorem rebuilds_return {e : Node} (location : Option Location) (he : IsExpr e) :
    Rebuilds BuildsStmt (Node.write ⟨.returnStmt, [e], none, location⟩)
      ⟨.returnStmt, [e], none, location⟩ := by
  have hwrite : Node.write ⟨.returnStmt, [e], none, location⟩
      = .keyword .return :: (e.write ++ [.semicolon none]) := by
    rw [write_mk]
    show .keyword .return :: (e.write ++ [] ++ _) = _
    rw [List.append_nil]
  have hvalue := rebuilds_or he
  rw [hwrite]
  refine ⟨?_, fun w hw => ?_⟩
  · rw [List.forall_mem_cons, List.forall_mem_append]
    exact ⟨rfl, hvalue.legal, by simp [Lexeme.isLegal]⟩
  · obtain ⟨k, w, rfl, hk, hrest⟩ := List.map_eq_cons_iff.mp hw
    obtain ⟨u, last, rfl, hu, hlast⟩ := List.map_eq_append_iff.mp hrest
    obtain ⟨t, rfl, ht⟩ := List.map_eq_singleton_iff.mp hlast
    obtain ⟨e', he', hbare⟩ := hvalue.builds u hu
    refine ⟨_, .returnValue (congrArg Lexeme.terminal hk) he' (congrArg Lexeme.terminal ht), ?_⟩
    rw [bare_branchAt, bare_mk]
    simp only [List.map_cons, hbare, List.map_nil, Option.map_none]

/-- By induction on the statement. -/
theorem rebuilds_stmt (h : IsStmt n) : Rebuilds BuildsStmt n.part.statement n := by
  induction h with
  | @block body location _ ih => exact (rebuilds_block location ih).mono fun _ _ he => he.stmt
  | @ifStmt c a b location hc _ _ iha ihb => exact rebuilds_if location hc iha ihb
  | @whileLoop c a location hc _ iha => exact rebuilds_while location hc iha
  | @forLoop a b c s location ha hb hc _ ihs => exact rebuilds_for location ha hb hc ihs
  | @breakStmt location => exact rebuilds_keyword location fun _ _ ht hs => .breakStmt ht hs
  | @returnNothing location =>
      exact rebuilds_keyword location fun _ _ ht hs => .returnNothing ht hs
  | @returnValue e location he => exact rebuilds_return location he
  | @assignStmt n h =>
      have hstatement : n.part.statement = n.write ++ [.semicolon none] := by
        cases h with
        | mk => rfl
      rw [hstatement]
      exact (rebuilds_assignment h).semicolon fun _ _ _ he ht => .assignStmt he ht
  | @localVariables n h =>
      have hstatement : n.part.statement = n.write := by
        cases h with
        | mk => rfl
      rw [hstatement]
      exact (rebuilds_variable h).mono fun _ _ he => .localVariables he
  | @empty location =>
      refine ⟨?_, fun w hw => ?_⟩
      · show ∀ l ∈ [Lexeme.semicolon none], l.isLegal = true
        simp [Lexeme.isLegal]
      · obtain ⟨t, rfl, ht⟩ := List.map_eq_singleton_iff.mp hw
        exact ⟨_, .empty (congrArg Lexeme.terminal ht), by simp⟩

end Statements

/-! ## Top-level items -/

section Items

variable {n : Node}

/-- Arguments with commas between them. -/
theorem exists_args {args : List Node} (h : ∀ x ∈ args, IsArg x) {w : List Token}
    (hw : w.map Token.lexeme = Part.separated (args.map part)) :
    ∃ es, BuildsArgs w es ∧ es.map Node.bare = args.map Node.bare := by
  cases args with
  | nil =>
      obtain rfl : w = [] := by simpa [Part.separated] using hw
      exact ⟨[], .none, rfl⟩
  | cons first others =>
      obtain ⟨hfirst, hothers⟩ := List.forall_mem_cons.mp h
      rw [List.map_cons, Part.separated, List.flatMap_map] at hw
      obtain ⟨u, v, rfl, hu, hv⟩ := List.map_eq_append_iff.mp hw
      obtain ⟨e, he, hebare⟩ := (rebuilds_arg hfirst).builds u hu
      have hrow := Rebuilds.row fun x hx => (rebuilds_arg (hothers x hx)).comma
      obtain ⟨es, hes, hesbare⟩ := hrow.builds v hv
      exact ⟨e :: es, .some he hes, by rw [List.map_cons, List.map_cons, hebare, hesbare]⟩

theorem legal_args {args : List Node} (h : ∀ x ∈ args, IsArg x) :
    ∀ l ∈ Part.separated (args.map part), l.isLegal = true := by
  cases args with
  | nil => simp [Part.separated]
  | cons first others =>
      obtain ⟨hfirst, hothers⟩ := List.forall_mem_cons.mp h
      have hrow := Rebuilds.row fun x hx => (rebuilds_arg (hothers x hx)).comma
      rw [List.map_cons, Part.separated, List.flatMap_map, List.forall_mem_append]
      exact ⟨(rebuilds_arg hfirst).legal, hrow.legal⟩

theorem legal_signature {type name : Node} {args : List Node} (htype : IsType TypeWords.result type)
    (hname : IsName name) (hargs : ∀ x ∈ args, IsArg x) :
    ∀ l ∈ Part.signature type.part name.part (args.map part), l.isLegal = true := by
  simp only [Part.signature, List.forall_mem_append, List.forall_mem_cons]
  exact ⟨(rebuilds_type htype).legal, (rebuilds_name hname).legal, rfl, legal_args hargs,
    by simp [Lexeme.isLegal]⟩

/-- What a function starts with. -/
theorem exists_signature {type name : Node} {args : List Node} {w : List Token}
    (htype : IsType TypeWords.result type) (hname : IsName name) (hargs : ∀ x ∈ args, IsArg x)
    (hw : w.map Token.lexeme = Part.signature type.part name.part (args.map part)) :
    ∃ u t opening v closing e es, w = u ++ t :: opening :: (v ++ [closing]) ∧
      BuildsType TypeWords.result u e ∧ t.terminal = .identifier ∧ opening.terminal = .leftParen ∧
      BuildsArgs v es ∧ closing.terminal = .rightParen ∧
      (e :: .leaf t :: es).map Node.bare = (type :: name :: args).map Node.bare := by
  obtain ⟨u, w, rfl, hu, hw⟩ := List.map_eq_append_iff.mp hw
  obtain ⟨name', w, rfl, hname', hw⟩ := List.map_eq_append_iff.mp hw
  obtain ⟨opening, w, rfl, hopening, hw⟩ := List.map_eq_cons_iff.mp hw
  obtain ⟨v, last, rfl, hv, hlast⟩ := List.map_eq_append_iff.mp hw
  obtain ⟨closing, rfl, hclosing⟩ := List.map_eq_singleton_iff.mp hlast
  obtain ⟨e, he, hebare⟩ := (rebuilds_type htype).builds u hu
  obtain ⟨t, rfl, ht, htbare⟩ := exists_name hname hname'
  obtain ⟨es, hes, hesbare⟩ := exists_args hargs hv
  refine ⟨u, t, opening, v, closing, e, es, rfl, he, ht, congrArg Lexeme.terminal hopening, hes,
    congrArg Lexeme.terminal hclosing, ?_⟩
  simp only [List.map_cons, hebare, htbare, hesbare]

theorem rebuilds_funcDeclare {type name : Node} {args : List Node} (location : Option Location)
    (htype : IsType TypeWords.result type) (hname : IsName name) (hargs : ∀ x ∈ args, IsArg x) :
    Rebuilds BuildsItem (Node.write ⟨.funcDeclare, type :: name :: args, none, location⟩)
      ⟨.funcDeclare, type :: name :: args, none, location⟩ := by
  have hwrite : Node.write ⟨.funcDeclare, type :: name :: args, none, location⟩
      = Part.signature type.part name.part (args.map part) ++ [.semicolon none] := write_mk
  rw [hwrite]
  refine ⟨?_, fun w hw => ?_⟩
  · rw [List.forall_mem_append]
    exact ⟨legal_signature htype hname hargs, by simp [Lexeme.isLegal]⟩
  · obtain ⟨w, last, rfl, hfront, hlast⟩ := List.map_eq_append_iff.mp hw
    obtain ⟨semicolon, rfl, hsemi⟩ := List.map_eq_singleton_iff.mp hlast
    obtain ⟨u, t, opening, v, closing, e, es, rfl, he, ht, hopening, hes, hclosing, hbare⟩ :=
      exists_signature htype hname hargs hfront
    have hitem := BuildsItem.funcDeclare he ht hopening hes hclosing (congrArg Lexeme.terminal hsemi)
    refine ⟨.branch .funcDeclare (e :: .leaf t :: es), by simpa using hitem, ?_⟩
    rw [bare_branch, bare_mk, hbare, Option.map_none]

theorem rebuilds_funcDefine {type name : Node} {args body : List Node}
    (location place : Option Location) (htype : IsType TypeWords.result type) (hname : IsName name)
    (hargs : ∀ x ∈ args, IsArg x) (hbody : ∀ x ∈ body, IsStmt x) :
    Rebuilds BuildsItem
      (Node.write ⟨.funcDefine, type :: name :: args ++ [⟨.stmtBlock, body, none, place⟩], none, location⟩)
      ⟨.funcDefine, type :: name :: args ++ [⟨.stmtBlock, body, none, place⟩], none, location⟩ := by
  have hblock := rebuilds_block place fun x hx => rebuilds_stmt (hbody x hx)
  have hwrite : Node.write
      ⟨.funcDefine, type :: name :: args ++ [⟨.stmtBlock, body, none, place⟩], none, location⟩
      = Part.signature type.part name.part (args.map part)
        ++ Node.write ⟨.stmtBlock, body, none, place⟩ := by
    rw [write_mk]
    simp [assemble, part]
  rw [hwrite]
  refine ⟨?_, fun w hw => ?_⟩
  · rw [List.forall_mem_append]
    exact ⟨legal_signature htype hname hargs, hblock.legal⟩
  · obtain ⟨w, v', rfl, hfront, hv'⟩ := List.map_eq_append_iff.mp hw
    obtain ⟨u, t, opening, v, closing, e, es, rfl, he, ht, hopening, hes, hclosing, hbare⟩ :=
      exists_signature htype hname hargs hfront
    obtain ⟨b, hb, hbbare⟩ := hblock.builds v' hv'
    have hitem := BuildsItem.funcDefine he ht hopening hes hclosing hb
    refine ⟨.branch .funcDefine (e :: .leaf t :: es ++ [b]), by simpa using hitem, ?_⟩
    rw [bare_branch, bare_mk, List.map_append, hbare, List.map_append, List.map_singleton, hbbare,
      List.map_singleton, Option.map_none]

/-- At most one name. -/
theorem exists_optionalName {name : List Node} {u : List Token} (hlength : name.length ≤ 1)
    (hname : ∀ x ∈ name, IsName x) (hu : u.map Token.lexeme = name.flatMap Node.write) :
    u.map Token.terminal ∈ [[], [.identifier]] ∧
      (u.map Node.leaf).map Node.bare = name.map Node.bare := by
  rcases Nat.le_one_iff_eq_zero_or_eq_one.mp hlength with hzero | hone
  · obtain rfl := List.eq_nil_of_length_eq_zero hzero
    obtain rfl : u = [] := by simpa using hu
    exact ⟨by simp, rfl⟩
  · obtain ⟨x, rfl⟩ := List.length_eq_one_iff.mp hone
    rw [List.flatMap_singleton] at hu
    obtain ⟨t, rfl, ht, hbare⟩ := exists_name (hname x (by simp)) hu
    exact ⟨by simp [ht], by rw [List.map_singleton, List.map_singleton, hbare, List.map_singleton]⟩

/-- The name of a structure is what stands before the first node that is no leaf. -/
theorem write_structDefine {name members : List Node} (location : Option Location)
    (hname : ∀ x ∈ name, IsName x) (hmembers : ∀ x ∈ members, IsVariable x) :
    Node.write ⟨.structDefine, name ++ members, none, location⟩
      = .keyword .struct :: (name.flatMap Node.write
        ++ (Part.enclosed (members.map part) Prod.snd ++ [.semicolon none])) := by
  have hleaves : ∀ x ∈ name.map part, x.isLeaf = true := by
    refine List.forall_mem_map.mpr fun x hx => ?_
    cases hname x hx with
    | mk => rfl
  have hothers : ∀ x ∈ members.map part, ¬ x.isLeaf = true := by
    refine List.forall_mem_map.mpr fun x hx => ?_
    cases hmembers x hx with
    | mk => nofun
  have htake : ((name ++ members).map part).takeWhile Part.isLeaf = name.map part := by
    rw [List.map_append, List.takeWhile_append_of_pos hleaves,
      List.takeWhile_eq_nil_iff.mpr fun hne => hothers _ (List.get_mem _ ⟨0, hne⟩), List.append_nil]
  have hdrop : ((name ++ members).map part).dropWhile Part.isLeaf = members.map part := by
    rw [List.map_append, List.dropWhile_append_of_pos hleaves]
    exact List.dropWhile_eq_self_iff.mpr fun hne => hothers _ (List.getElem_mem hne)
  rw [write_mk]
  simp only [assemble, htake, hdrop, flatMap_part]

theorem rebuilds_structDefine {name members : List Node} (location : Option Location)
    (hlength : name.length ≤ 1) (hname : ∀ x ∈ name, IsName x)
    (hmembers : ∀ x ∈ members, IsVariable x) :
    Rebuilds BuildsItem (Node.write ⟨.structDefine, name ++ members, none, location⟩)
      ⟨.structDefine, name ++ members, none, location⟩ := by
  have hvariables : ∀ x ∈ members, Rebuilds BuildsVariable (Prod.snd x.part) x :=
    fun x hx => rebuilds_variable (hmembers x hx)
  have hnames := Rebuilds.row fun x hx => rebuilds_name (hname x hx)
  rw [write_structDefine location hname hmembers]
  refine ⟨?_, fun w hw => ?_⟩
  · simp only [List.forall_mem_cons, List.forall_mem_append]
    exact ⟨rfl, hnames.legal, legal_enclosed hvariables, by simp [Lexeme.isLegal]⟩
  · obtain ⟨k, w, rfl, hk, hfrom⟩ := List.map_eq_cons_iff.mp hw
    obtain ⟨u, w, rfl, hu, hbehind⟩ := List.map_eq_append_iff.mp hfrom
    obtain ⟨w, last, rfl, hbody, hlast⟩ := List.map_eq_append_iff.mp hbehind
    obtain ⟨semicolon, rfl, hsemi⟩ := List.map_eq_singleton_iff.mp hlast
    obtain ⟨opening, v, closing, es, rfl, hopening, hclosing, hes, hbare⟩ :=
      exists_enclosed hvariables hbody
    obtain ⟨hoptional, hubare⟩ := exists_optionalName hlength hname hu
    have hitem := BuildsItem.structDefine (congrArg Lexeme.terminal hk) hoptional hopening hes hclosing
      (congrArg Lexeme.terminal hsemi)
    refine ⟨.branchAt k.location .structDefine (u.map .leaf ++ es), by simpa using hitem, ?_⟩
    rw [bare_branchAt, bare_mk, List.map_append, hubare, hbare, List.map_append, Option.map_none]

/-- By cases on the item. -/
theorem rebuilds_item (h : IsItem n) : Rebuilds BuildsItem n.write n := by
  cases h with
  | line h =>
      refine rebuilds_leaf h (fun _ hl => hl.1) fun t ht => .line ?_
      exact Lexeme.terminal_of_kind ht.2 (by decide)
  | structDefine hlength hname hmembers => exact rebuilds_structDefine _ hlength hname hmembers
  | funcDeclare htype hname hargs => exact rebuilds_funcDeclare _ htype hname hargs
  | funcDefine htype hname hargs hbody => exact rebuilds_funcDefine _ _ htype hname hargs hbody
  | global h => exact (rebuilds_variable h).mono fun _ _ he => .global he

end Items

/-! ## The round trip -/

/-- The items of a unit are written and rebuilt in a row. -/
theorem rebuilds_unit {n : Node} (h : IsUnit n) :
    ∃ items location, n = ⟨.translationUnit, items, none, location⟩ ∧
      RebuildsRow BuildsItem n.write items := by
  cases h with
  | @mk items location hitems =>
      have hwrite : Node.write ⟨.translationUnit, items, none, location⟩
          = items.flatMap Node.write := write_mk.trans (flatMap_part items)
      refine ⟨items, location, rfl, ?_⟩
      rw [hwrite]
      exact Rebuilds.row fun x hx => rebuilds_item (hitems x hx)

namespace Options

variable (o : Options) (name : Option String)

/-- A well-formed tree, written out with every lexeme on a line of its own, is accepted with strict
reading off, and what is read is the same tree but for places. -/
theorem parse_written_tree {n : Node} (h : IsUnit n) :
    ∃ r, ({ o with strict := false }.parse (spell n.write) name).1 = .ok r ∧
      r.tree.root.bare = n.bare := by
  obtain ⟨items, location, rfl, hrow⟩ := rebuilds_unit h
  obtain ⟨ts, mark, hholds, hts⟩ := Reader.new_holds_of_spell (o.fileName name) hrow.legal
  obtain ⟨es, hes, hbare⟩ := hrow.builds ts hts
  obtain ⟨p, hrun⟩ := items_ok_of_holds { o with strict := false } _ name rfl hholds hes
  obtain ⟨r, hr, htree⟩ := parse_of_ok _ _ name hrun
  refine ⟨r, hr, ?_⟩
  rw [htree, Tree.ofItems, bare_branchAt, bare_mk, hbare, Option.map_none]

end Options

/-- `int f(int a) { if (!(a < 1)) return (a + 1) * 2; else ; }` -/
def guardedProduct : Node :=
  let name (text : String) := leaf { lexeme := .identifier (some (utf8 text)) }
  let number (text : String) := leaf { lexeme := .number (some (utf8 text)) }
  let sign (o : Operator) := leaf { lexeme := .operator o }
  let int := branch .variableType [leaf { lexeme := .keyword .int }]
  let less := branch .boolExprCmp [name "a", sign .less, number "1"]
  let sum := branch .expr [name "a", sign .add, number "1"]
  let product := branch .exprMul [sum, sign .mul, number "2"]
  branch .translationUnit [branch .funcDefine [int, name "f", branch .funcArg [int, name "a"],
    branch .stmtBlock [branch .ifStmt [branch .boolExprNot [sign .logicNot, less],
      branch .returnStmt [product], branch .empty []]]]]

/-- A chain of one link. -/
theorem isExpr_pair {l : Level} {o : Operator} {a b : Node} (ho : o ∈ l.joins)
    (ha : IsExpr a) (hb : IsExpr b)
    (harithmetic : l.kind.isArithmetic = true → a.isArithmetic = true ∧ b.isArithmetic = true) :
    IsExpr (branch l.kind [a, leaf { lexeme := .operator o }, b]) := by
  refine @IsExpr.chain l a [(leaf { lexeme := .operator o }, b)] _ ha (by simp) ?_ ?_ ?_
  · exact List.forall_mem_singleton.mpr (.mk ⟨o, ho, rfl⟩)
  · exact List.forall_mem_singleton.mpr hb
  · intro hl
    simpa using harithmetic hl

theorem isUnit_guardedProduct : IsUnit guardedProduct := by
  have hname (text : String) (h : (Lexeme.identifier (some (utf8 text))).isLegal = true) :
      IsName (leaf { lexeme := .identifier (some (utf8 text)) }) := .mk ⟨h, rfl⟩
  have hnumber (text : String) (h : (Lexeme.number (some (utf8 text))).isLegal = true) :
      IsExpr (leaf { lexeme := .number (some (utf8 text)) }) := .number (.mk ⟨h, rfl⟩)
  have hint (among : List (List Keyword)) (h : [.int] ∈ among) :
      IsType among (branch .variableType [leaf { lexeme := .keyword .int }]) :=
    .mk h (.cons (.mk rfl) .nil)
  have ha := IsExpr.name (hname "a" (by decide +kernel))
  have hone := hnumber "1" (by decide +kernel)
  have htwo := hnumber "2" (by decide +kernel)
  have hless := isExpr_pair (l := .comparison) (o := .less) (by decide) ha hone nofun
  have hsum := isExpr_pair (l := .additive) (o := .add) (by decide) ha hone fun _ => ⟨rfl, rfl⟩
  have hproduct := isExpr_pair (l := .multiplicative) (o := .mul) (by decide) hsum htwo
    fun _ => ⟨rfl, rfl⟩
  refine .mk (List.forall_mem_singleton.mpr (.funcDefine (hint _ (by decide))
    (hname "f" (by decide +kernel)) (List.forall_mem_singleton.mpr
      (.mk (hint _ (by decide)) (hname "a" (by decide +kernel))))
    (List.forall_mem_singleton.mpr ?_)))
  exact .ifStmt (.not (.mk rfl) hless) (.returnValue hproduct) .empty

namespace Options

theorem parse_written_guardedProduct : IsUnit guardedProduct ∧
    spell guardedProduct.write = utf8 ("int\nf\n(\nint\na\n)\n\x7b\nif\n(\n!\n(\na\n<\n1\n)\n)\n"
      ++ "return\n(\na\n+\n1\n)\n*\n2\n;\nelse\n;\n\x7d\n") ∧
    ∃ r, (({} : Options).parse (spell guardedProduct.write) none).1 = .ok r ∧
      r.tree.root.bare = guardedProduct.bare :=
  ⟨isUnit_guardedProduct, by decide +kernel, parse_written_tree {} none isUnit_guardedProduct⟩

end Options

end MiniC
