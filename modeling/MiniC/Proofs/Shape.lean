/-
# MiniC.Proofs.Shape — what the nodes of a tree have below them.

`Node.isLaidOut` looks at one node: whether it has a token, and whether its children are those that its
kind calls for, in number, order and role.  It does not look further down, so a pass over a tree may
rely on it wherever it stands.

Every node of every tree that a parser gives passes.  That no comparison ever stands in a sum, and no
`void` in a definition, is part of it.
-/
import MiniC.Proofs.Strictness
import MiniC.Proofs.Walk

namespace MiniC

/-! ## Roles -/

namespace Node

/-- A leaf over a token of one kind. -/
def isLeafOf (kind : TokenKind) (n : Node) : Bool := n.isTerminal && n.token.any (·.kind == kind)

/-- A leaf over a name. -/
abbrev isName : Node → Bool := isLeafOf .identifier

/-- A leaf over one of these operators. -/
def isSign (among : List Operator) (n : Node) : Bool :=
  n.isTerminal && n.token.any (·.isOperator among)

/-- Names, numbers, sums and products. -/
def isCalculation (n : Node) : Bool :=
  n.isName || n.isLeafOf .number || n.kind == .expr || n.kind == .exprMul

def isExpression (n : Node) : Bool := n.isCalculation || n.isBoolean

def isStatement (n : Node) : Bool :=
  [.stmtBlock, .ifStmt, .whileLoop, .forLoop, .assignStmt, .returnStmt, .breakStmt, .variableDefine,
    .empty].contains n.kind

/-- What may stand between the semicolons of a `for`. -/
def isClause (n : Node) : Bool := n.kind == .empty || n.kind == .assignStmt || n.isExpression

def isItem (n : Node) : Bool :=
  n.isLeafOf .preprocessor ||
    [.structDefine, .funcDeclare, .funcDefine, .variableDefine].contains n.kind

/-- The keyword that a leaf is over. -/
def keyword? (n : Node) : Option Keyword :=
  match n.kind, n.token with
  | .terminal, some { lexeme := .keyword k, .. } => some k
  | _, _ => none

/-- These nodes are leaves that spell one of the types. -/
def spellType (among : List (List Keyword)) (ns : List Node) : Bool :=
  among.any fun us => ns.map keyword? == us.map some

def isTypeOf (among : List (List Keyword)) (n : Node) : Bool :=
  n.kind == .variableType && spellType among n.children

end Node

/-! ## Layout -/

namespace Level

/-- What may stand at a place of a chain: at an even one an operand, at an odd one an operator of the
level.  The operands of arithmetic are arithmetic. -/
def fitsAt (l : Level) (c : Node) (place : Nat) : Bool :=
  if place % 2 = 1 then c.isSign l.joins
  else if l.kind.isArithmetic then c.isCalculation
  else c.isExpression

/-- Operands and operators by turns, with at least one operator. -/
def fits (l : Level) (cs : List Node) : Bool :=
  cs.length % 2 == 1 && 3 ≤ cs.length && cs.zipIdx.all fun x => l.fitsAt x.1 x.2

end Level

/-- The children that a kind calls for. -/
def NodeKind.fits : NodeKind → List Node → Bool
  | .terminal, [] | .breakStmt, [] | .empty, [] => true
  | .translationUnit, items => items.all Node.isItem
  | .funcDeclare, type :: name :: args =>
    type.isTypeOf TypeWords.result && name.isName && args.all (·.kind == .funcArg)
  | .funcDefine, type :: name :: rest =>
    type.isTypeOf TypeWords.result && name.isName && rest.dropLast.all (·.kind == .funcArg) &&
      rest.getLast?.any (·.kind == .stmtBlock)
  | .funcArg, [type, name] => type.isTypeOf TypeWords.object && name.isName
  | .variableDefine, type :: name :: others =>
    type.isTypeOf TypeWords.object && name.isName && others.all Node.isName
  | .structDefine, [] => true
  | .structDefine, first :: rest =>
    (first.isName || first.kind == .variableDefine) && rest.all (·.kind == .variableDefine)
  | .variableType, words => Node.spellType TypeWords.result words
  | .stmtBlock, body => body.all Node.isStatement
  | .ifStmt, [condition, yes, no] => condition.isExpression && yes.isStatement && no.isStatement
  | .whileLoop, [condition, body] => condition.isExpression && body.isStatement
  | .forLoop, [first, condition, next, body] =>
    first.isClause && condition.isClause && next.isClause && body.isStatement
  | .assignStmt, [name, value] => name.isName && value.isExpression
  | .returnStmt, [] => true
  | .returnStmt, [value] => value.isExpression
  | .boolExprNot, [op, operand] => op.isSign [.logicNot] && operand.isExpression
  | .expr, cs => Level.additive.fits cs
  | .exprMul, cs => Level.multiplicative.fits cs
  | .boolExpr, cs => Level.or.fits cs
  | .boolExprAnd, cs => Level.and.fits cs
  | .boolExprEqual, cs => Level.equality.fits cs
  | .boolExprCmp, cs => Level.comparison.fits cs
  | _, _ => false

/-- Each level has a kind of its own, and the children of that kind are those of the level. -/
theorem Level.fits_kind (l : Level) (cs : List Node) : l.kind.fits cs = l.fits cs := by
  cases l <;> rfl

namespace Node

/-- Leaves have a token and no other node has one, and the children are those that the kind calls
for. -/
def isLaidOut (n : Node) : Bool := n.isTerminal == n.token.isSome && n.kind.fits n.children

/-! ## Trees of nodes that are laid out -/

/-- Every node here is laid out, and none is a whole unit. -/
def Shaped (n : Node) : Prop := ∀ m ∈ n.nodes, m.isLaidOut = true ∧ m.kind ≠ .translationUnit

/-- A leaf has a token and nothing below it. -/
theorem shaped_leaf (t : Token) : (leaf t).Shaped := by
  unfold Shaped
  rw [nodes_leaf, List.forall_mem_singleton]
  exact ⟨rfl, by simp [leaf]⟩

theorem shaped_leaves (w : List Token) : ∀ c ∈ w.map leaf, c.Shaped := by
  intro c hc
  obtain ⟨t, -, rfl⟩ := List.mem_map.mp hc
  exact shaped_leaf t

/-- A node other than a leaf or a unit is shaped if its children fit and are shaped themselves. -/
theorem shaped_node {kind : NodeKind} {children : List Node} {location : Option Location}
    (hkind : (kind == .terminal || kind == .translationUnit) = false)
    (hfits : kind.fits children = true) (h : ∀ c ∈ children, c.Shaped) :
    Shaped ⟨kind, children, none, location⟩ := by
  simp only [Bool.or_eq_false_iff, beq_eq_false_iff_ne] at hkind
  unfold Shaped
  rw [nodes_eq, List.forall_mem_cons]
  refine ⟨⟨?_, hkind.2⟩, fun m hm => ?_⟩
  · simp [isLaidOut, isTerminal, hkind.1, hfits]
  · obtain ⟨c, hc, hm⟩ := List.mem_flatMap.mp hm
    exact h c hc m hm

/-! ## Leaves by terminal -/

variable {t : Token}

theorem isLeafOf_leaf (kind : TokenKind) {c : Terminal} (h : t.terminal = c) (hkind : c.kind = kind) :
    (leaf t).isLeafOf kind = true := by
  show (t.kind == kind) = true
  rw [Token.kind_of_terminal h, hkind, beq_self_eq_true]

/-- A leaf over an operator is a sign of every list that has it. -/
theorem isSign_leaf {o : Operator} {among : List Operator} (h : t.terminal = .operator o)
    (ho : o ∈ among) : (leaf t).isSign among = true := by
  show t.isOperator among = true
  rw [Token.isOperator, Token.lexeme_of_terminal h rfl]
  simp [ho]

theorem keyword?_leaf {k : Keyword} (h : t.terminal = .keyword k) : (leaf t).keyword? = some k := by
  obtain ⟨lexeme, _, _, _, _⟩ := t
  obtain rfl : lexeme = .keyword k := Token.lexeme_of_terminal h rfl
  rfl

/-- Leaves over keywords give the keywords back in order. -/
theorem map_keyword?_leaves {w : List Token} {us : List Keyword}
    (h : w.map Token.terminal = us.map .keyword) : (w.map leaf).map keyword? = us.map some := by
  induction w generalizing us with
  | nil =>
      obtain rfl := List.map_eq_nil_iff.mp h.symm
      rfl
  | cons t w ih =>
      obtain ⟨k, us, rfl, ht, hw⟩ := List.map_eq_cons_iff.mp h.symm
      rw [List.map_cons, List.map_cons, List.map_cons, keyword?_leaf ht.symm, ih hw.symm]

/-- Leaves over the words of a type spell it. -/
theorem spellType_leaves {among : List (List Keyword)} {w : List Token} {us : List Keyword}
    (hus : us ∈ among) (hw : w.map Token.terminal = us.map .keyword) :
    spellType among (w.map leaf) = true := by
  rw [spellType, List.any_eq_true]
  exact ⟨us, hus, by rw [map_keyword?_leaves hw, beq_self_eq_true]⟩

end Node

open Node

/-! ## Expressions -/

/-- What a word of an expression symbol makes. -/
structure ExpressionOf (s : Symbol) (e : Node) : Prop where
  shaped : e.Shaped
  isExpression : e.isExpression = true
  isCalculation : s.isArithmetic = true → e.isCalculation = true

namespace Level

variable {l : Level} {op e : Node} {cs : List Node} {place : Nat}

theorem isArithmetic_kind (l : Level) : l.kind.isArithmetic = (Symbol.level l).isArithmetic := by
  cases l <;> rfl

/-- Operators stand at odd places. -/
theorem fitsAt_sign (h : op.isSign l.joins = true) (hplace : place % 2 = 1) :
    l.fitsAt op place = true := by
  rw [fitsAt, if_pos hplace, h]

/-- Operands stand at even places.  Those of arithmetic levels are themselves arithmetic. -/
theorem fitsAt_operand (h : ExpressionOf l.operand e) (hplace : place % 2 = 0) :
    l.fitsAt e place = true := by
  rw [fitsAt, if_neg (by omega), isArithmetic_kind]
  split
  · next hl => exact h.isCalculation (isArithmetic_operand hl)
  · exact h.isExpression

/-- A chain grows by an operator and an operand. -/
theorem fits_append (h : l.fits cs = true) (hop : op.isSign l.joins = true)
    (he : ExpressionOf l.operand e) : l.fits (cs ++ [op, e]) = true := by
  simp only [fits, Bool.and_eq_true, beq_iff_eq, decide_eq_true_eq] at h ⊢
  obtain ⟨⟨hodd, hthree⟩, hall⟩ := h
  have hlen : (cs ++ [op, e]).length = cs.length + 2 := by simp
  refine ⟨⟨by omega, by omega⟩, ?_⟩
  -- The chain had an odd number of children, so the operator comes at an odd place.
  have hlast : ([op, e].zipIdx cs.length).all (fun x => l.fitsAt x.1 x.2) = true := by
    show (l.fitsAt op cs.length && (l.fitsAt e (cs.length + 1) && true)) = true
    rw [fitsAt_sign hop hodd, fitsAt_operand he (by omega)]
    rfl
  rw [List.zipIdx_append, List.all_append, hall, Nat.zero_add, hlast]
  rfl

/-- The shortest chain: two operands with an operator between them. -/
theorem fits_pair {first : Node} (hfirst : ExpressionOf l.operand first)
    (hop : op.isSign l.joins = true) (he : ExpressionOf l.operand e) :
    l.fits [first, op, e] = true := by
  have hlen : ([first, op, e].length % 2 == 1 && decide (3 ≤ [first, op, e].length)) = true := by
    simp
  rw [fits, hlen, Bool.true_and]
  show (l.fitsAt first 0 && (l.fitsAt op 1 && (l.fitsAt e 2 && true))) = true
  rw [fitsAt_operand hfirst rfl, fitsAt_sign hop rfl, fitsAt_operand he rfl]
  rfl

end Level

namespace ExpressionOf

variable {l : Level} {s : Symbol} {e : Node} {t : Token} {cs : List Node}

/-- Whatever is arithmetic fits every symbol of expressions. -/
theorem of_calculation (hshaped : e.Shaped) (h : e.isCalculation = true) : ExpressionOf s e :=
  ⟨hshaped, by rw [Node.isExpression, h, Bool.true_or], fun _ => h⟩

/-- A name or a number is an expression of every level. -/
theorem leaf (ht : t.terminal = .identifier ∨ t.terminal = .number) : ExpressionOf s (.leaf t) := by
  refine of_calculation (shaped_leaf t) ?_
  unfold Node.isCalculation
  rcases ht with ht | ht
  · have hname : (Node.leaf t).isName = true := isLeafOf_leaf _ ht rfl
    rw [hname]
    rfl
  · have hnumber : (Node.leaf t).isLeafOf .number = true := isLeafOf_leaf _ ht rfl
    rw [hnumber, Bool.or_true]
    rfl

/-- A level without an operator hands its operand on. -/
theorem level (h : ExpressionOf l.operand e) : ExpressionOf (.level l) e :=
  ⟨h.shaped, h.isExpression, fun hl => h.isCalculation (Level.isArithmetic_operand hl)⟩

/-- A chain is an expression of its level, and arithmetic if the level is. -/
theorem chain (hcs : ∀ c ∈ cs, c.Shaped) (hfits : l.fits cs = true) :
    ExpressionOf (.level l) (.branch l.kind cs) := by
  have hshaped : (Node.branch l.kind cs).Shaped := by
    refine shaped_node ?_ (by rw [l.fits_kind, hfits]) hcs
    cases l <;> rfl
  refine ⟨hshaped, ?_, fun hl => ?_⟩
  · cases l <;> rfl
  · cases l with
    | additive | multiplicative => rfl
    | or | and | equality | comparison => cases hl

end ExpressionOf

section Shapes

variable {w : List Token} {e : Node} {es : List Node}

mutual

/-- By cases on the last step of the derivation: every word of an expression symbol makes an
expression that is shaped, and of an arithmetic symbol one that is arithmetic. -/
theorem Builds.expressionOf {next : Option Operator} {s : Symbol} {w : List Token} {e : Node}
    (h : Builds next s w e) : ExpressionOf s e := by
  match h with
  | .operand h => exact .level h.expressionOf
  | .chain h => exact .chain h.fits.1 h.fits.2
  | .not hop _ h =>
      have hoperand := h.expressionOf
      refine ⟨shaped_node rfl ?_ ?_, rfl, fun hs => by cases hs⟩
      · show (Node.isSign [.logicNot] _ && Node.isExpression _) = true
        rw [isSign_leaf hop (List.mem_singleton_self _), hoperand.isExpression]
        rfl
      · simp [shaped_leaf, hoperand.shaped]
  | .group _ _ h => exact ⟨h.expressionOf.shaped, h.expressionOf.isExpression, fun hs => by cases hs⟩
  | .sum h => exact .of_calculation h.expressionOf.shaped (h.expressionOf.isCalculation rfl)
  | .paren _ _ h => exact .of_calculation h.expressionOf.shaped (h.expressionOf.isCalculation rfl)
  | .name ht => exact .leaf (.inl ht)
  | .number ht => exact .leaf (.inr ht)

/-- The children of a chain, as they are gathered from the left. -/
theorem Spine.fits {next : Option Operator} {l : Level} {w : List Token} {children : List Node}
    (h : Spine next l w children) : (∀ c ∈ children, c.Shaped) ∧ l.fits children = true := by
  match h with
  | .pair ha hop hmem hb =>
      have hfirst := ha.expressionOf
      have hlast := hb.expressionOf
      exact ⟨by simp [shaped_leaf, hfirst.shaped, hlast.shaped],
        l.fits_pair hfirst (isSign_leaf hop hmem) hlast⟩
  | .more hsub hop hmem hb =>
      have hlast := hb.expressionOf
      refine ⟨?_, l.fits_append hsub.fits.2 (isSign_leaf hop hmem) hlast⟩
      rw [List.forall_mem_append]
      exact ⟨hsub.fits.1, by simp [shaped_leaf, hlast.shaped]⟩

end

/-! ## Declarations -/

theorem BuildsType.isTypeOf {among : List (List Keyword)} (h : BuildsType among w e) :
    e.isTypeOf among = true := by
  obtain ⟨us, hus, hw⟩ := h.words
  rw [h.node]
  exact spellType_leaves hus hw

/-- A type is shaped, whichever types its place allows. -/
theorem BuildsType.shaped {among : List (List Keyword)} (h : BuildsType among w e)
    (hamong : ∀ us ∈ among, us ∈ TypeWords.result) : e.Shaped := by
  obtain ⟨us, hus, hw⟩ := h.words
  rw [h.node]
  exact shaped_node rfl (spellType_leaves (hamong us hus) hw) (shaped_leaves w)

theorem isName_leaf {t : Token} (h : t.terminal = .identifier) : (leaf t).isName = true :=
  isLeafOf_leaf .identifier h rfl

/-- Every type of an object may be that of a result. -/
theorem TypeWords.result_of_object : ∀ us ∈ object, us ∈ result :=
  fun _ hus => List.mem_cons_of_mem _ hus

theorem BuildsName.isName (h : BuildsName w e) : e.isName = true ∧ e.Shaped := by
  cases h with
  | mk ht => exact ⟨isName_leaf ht, shaped_leaf _⟩

/-- A type and then names only. -/
theorem BuildsVariable.shaped (h : BuildsVariable w e) : e.Shaped := by
  cases h with
  | mk htype hname hothers _ =>
      have hnames := hothers.forall_mem (P := fun e => e.isName = true ∧ e.Shaped) fun _ _ h => by
        obtain ⟨_, h⟩ := h.node
        exact h.isName
      refine shaped_node rfl ?_ ?_
      · show (Node.isTypeOf _ _ && Node.isName _ && List.all _ Node.isName) = true
        rw [htype.isTypeOf, isName_leaf hname, List.all_eq_true.mpr fun e he => (hnames e he).1]
        rfl
      · rw [List.forall_mem_cons, List.forall_mem_cons]
        exact ⟨htype.shaped TypeWords.result_of_object, shaped_leaf _, fun e he => (hnames e he).2⟩

theorem BuildsArg.shaped (h : BuildsArg w e) : e.kind = .funcArg ∧ e.Shaped := by
  cases h with
  | mk htype hname =>
      refine ⟨rfl, shaped_node rfl ?_ ?_⟩
      · show (Node.isTypeOf _ _ && Node.isName _) = true
        rw [htype.isTypeOf, isName_leaf hname]
        rfl
      · simp [htype.shaped TypeWords.result_of_object, shaped_leaf]

/-- An empty list of arguments and `void` both have no nodes. -/
theorem BuildsArgs.shaped (h : BuildsArgs w es) : ∀ e ∈ es, e.kind = .funcArg ∧ e.Shaped := by
  cases h with
  | none | void => simp
  | some hfirst hothers =>
      refine List.forall_mem_cons.mpr ⟨hfirst.shaped, hothers.forall_mem fun _ _ h => ?_⟩
      obtain ⟨_, h⟩ := h.node
      exact h.shaped

/-! ## Statements -/

theorem BuildsAssignment.shaped (h : BuildsAssignment w e) : e.Shaped := by
  cases h with
  | mk hname _ h =>
      have hvalue := h.expressionOf
      refine shaped_node rfl ?_ ?_
      · show (Node.isName _ && Node.isExpression _) = true
        rw [isName_leaf hname, hvalue.isExpression]
        rfl
      · simp [shaped_leaf, hvalue.shaped]

theorem shaped_empty (l : Location) : (branchAt l .empty []).Shaped :=
  shaped_node rfl rfl (List.forall_mem_nil _)

/-- A clause of a `for` is empty, an assignment or an expression. -/
theorem BuildsClause.shaped {next : Token} (h : BuildsClause next w e) :
    e.isClause = true ∧ e.Shaped := by
  cases h with
  | none => exact ⟨rfl, shaped_empty _⟩
  | assignment h => exact ⟨by cases h; rfl, h.shaped⟩
  | expression h =>
      refine ⟨?_, h.expressionOf.shaped⟩
      rw [Node.isClause, h.expressionOf.isExpression, Bool.or_true]

/-- By induction on the statement.  Each case names the children that its kind calls for. -/
theorem BuildsStmt.shaped (h : BuildsStmt w e) : e.isStatement = true ∧ e.Shaped := by
  induction h with
  | @block _ _ parts _ _ _ ih =>
      have hbody : ∀ c ∈ parts.map Prod.snd, c.isStatement = true ∧ c.Shaped := by
        intro c hc
        obtain ⟨x, hx, rfl⟩ := List.mem_map.mp hc
        exact ih x hx
      refine ⟨rfl, shaped_node rfl ?_ fun c hc => (hbody c hc).2⟩
      exact List.all_eq_true.mpr fun c hc => (hbody c hc).1
  | ifStmt _ _ hcond _ _ _ _ ihyes ihno =>
      have hcond := hcond.expressionOf
      refine ⟨rfl, shaped_node rfl ?_ ?_⟩
      · show (Node.isExpression _ && Node.isStatement _ && Node.isStatement _) = true
        rw [hcond.isExpression, ihyes.1, ihno.1]
        rfl
      · simp [hcond.shaped, ihyes.2, ihno.2]
  | whileLoop _ _ hcond _ _ ih =>
      have hcond := hcond.expressionOf
      refine ⟨rfl, shaped_node rfl ?_ ?_⟩
      · show (Node.isExpression _ && Node.isStatement _) = true
        rw [hcond.isExpression, ih.1]
        rfl
      · simp [hcond.shaped, ih.2]
  | forLoop _ _ hfirst _ hcond _ hnext _ _ ih =>
      refine ⟨rfl, shaped_node rfl ?_ ?_⟩
      · show (Node.isClause _ && Node.isClause _ && Node.isClause _ && Node.isStatement _) = true
        rw [hfirst.shaped.1, hcond.shaped.1, hnext.shaped.1, ih.1]
        rfl
      · simp [hfirst.shaped.2, hcond.shaped.2, hnext.shaped.2, ih.2]
  | breakStmt => exact ⟨rfl, shaped_node rfl rfl (List.forall_mem_nil _)⟩
  | returnNothing => exact ⟨rfl, shaped_node rfl rfl (List.forall_mem_nil _)⟩
  | returnValue _ h =>
      have hvalue := h.expressionOf
      exact ⟨rfl, shaped_node rfl hvalue.isExpression (by simp [hvalue.shaped])⟩
  | assignStmt h => exact ⟨by cases h; rfl, h.shaped⟩
  | localVariables h => exact ⟨by cases h; rfl, h.shaped⟩
  | empty => exact ⟨rfl, shaped_empty _⟩

/-! ## Top-level items -/

theorem all_kind {k : NodeKind} (h : ∀ e ∈ es, e.kind = k) : es.all (·.kind == k) = true :=
  List.all_eq_true.mpr fun e he => beq_iff_eq.mpr (h e he)

/-- A structure without a name, where the first child is a member too. -/
theorem fits_members (h : ∀ e ∈ es, e.kind = .variableDefine) :
    NodeKind.structDefine.fits es = true := by
  cases es with
  | nil => rfl
  | cons first rest =>
      rw [List.forall_mem_cons] at h
      show (_ || first.kind == .variableDefine) && rest.all (·.kind == .variableDefine)
      simp [h.1, all_kind h.2]

/-- Every item is one of the five that may stand at the top of a unit. -/
theorem BuildsItem.shaped (h : BuildsItem w e) : e.isItem = true ∧ e.Shaped := by
  cases h with
  | @line t ht =>
      have hline : (leaf t).isLeafOf .preprocessor = true := isLeafOf_leaf _ ht rfl
      refine ⟨?_, shaped_leaf t⟩
      rw [Node.isItem, hline, Bool.true_or]
  | @structDefine _ _ _ _ name members es _ hname _ hrow =>
      have hmembers := hrow.forall_mem (P := fun e => e.kind = .variableDefine ∧ e.Shaped)
        fun _ _ h => ⟨by cases h; rfl, h.shaped⟩
      refine ⟨rfl, shaped_node rfl ?_ ?_⟩
      · rcases List.mem_pair.mp hname with hname | hname
        · obtain rfl := List.map_eq_nil_iff.mp hname
          exact fits_members fun e he => (hmembers e he).1
        · obtain ⟨t, rfl, ht⟩ := List.map_eq_singleton_iff.mp hname
          show (Node.isName _ || _) && es.all (·.kind == .variableDefine)
          simp [isName_leaf ht, all_kind fun e he => (hmembers e he).1]
      · rw [List.forall_mem_append]
        exact ⟨shaped_leaves name, fun e he => (hmembers e he).2⟩
  | @funcDeclare _ _ _ _ _ _ type es htype hname _ hargs =>
      have hargs := hargs.shaped
      refine ⟨rfl, shaped_node rfl ?_ ?_⟩
      · show (Node.isTypeOf _ _ && Node.isName _ && es.all (·.kind == .funcArg)) = true
        rw [htype.isTypeOf, isName_leaf hname]
        simp [all_kind fun e he => (hargs e he).1]
      · rw [List.forall_mem_cons, List.forall_mem_cons]
        exact ⟨htype.shaped fun _ h => h, shaped_leaf _, fun e he => (hargs e he).2⟩
  | @funcDefine _ _ _ _ _ _ type body es htype hname _ hargs _ hbody =>
      have hargs := hargs.shaped
      have hkind : body.kind = .stmtBlock := by cases hbody; rfl
      refine ⟨rfl, shaped_node rfl ?_ ?_⟩
      · show (Node.isTypeOf _ _ && Node.isName _ && (es ++ [body]).dropLast.all (·.kind == .funcArg) &&
          (es ++ [body]).getLast?.any (·.kind == .stmtBlock)) = true
        rw [htype.isTypeOf, isName_leaf hname, List.dropLast_concat, List.getLast?_concat]
        simp [hkind, all_kind fun e he => (hargs e he).1]
      · rw [List.forall_mem_append, List.forall_mem_cons, List.forall_mem_cons]
        exact ⟨⟨htype.shaped fun _ h => h, shaped_leaf _, fun e he => (hargs e he).2⟩,
          by simp [hbody.stmt.shaped.2]⟩
  | global h => exact ⟨by cases h; rfl, h.shaped⟩

end Shapes

namespace Options

variable {o : Options} {source : Bytes} {name : Option String}

/-- Every node of a tree that was read is laid out as its kind calls for, and the root is the only
translation unit. -/
theorem nodes_are_laid_out {r : Parsed} (h : (o.parse source name).1 = .ok r) :
    ∀ x ∈ r.tree.walk, x.2.isLaidOut = true ∧ (x.2.kind = .translationUnit ↔ x.1 = 0) := by
  obtain ⟨ts, mark, es, -, hrow, -, rfl⟩ := holds_of_parse_ok h
  have hitems := hrow.forall_mem fun _ _ h => h.shaped
  show ∀ x ∈ (Tree.ofItems (o.fileName name) es).walk, _
  rw [Tree.walk_eq, Node.preorder_eq, List.forall_mem_cons]
  refine ⟨⟨?_, ?_⟩, fun x hx => ?_⟩
  · exact List.all_eq_true.mpr fun e he => (hitems e he).1
  · exact ⟨fun _ => rfl, fun _ => rfl⟩
  · -- What is not the root is a node of some item, at depth one or more.
    obtain ⟨e, he, hx⟩ := List.mem_flatMap.mp hx
    have hdepth := Node.le_of_mem_preorder (0 + 1) e x hx
    have hnode : x.2 ∈ e.nodes := by
      rw [Node.nodes, Node.map_preorder 0 (0 + 1)]
      exact List.mem_map_of_mem hx
    obtain ⟨hlaid, hkind⟩ := (hitems e he).2 x.2 hnode
    exact ⟨hlaid, fun hunit => absurd hunit hkind, fun hzero => by omega⟩

/-- A sum stands in a comparison, which is the second of the four children of a loop. -/
theorem loop_is_laid_out : ∃ r,
    (({} : Options).parse (utf8 "void f()\x7bfor(;a<b+1;)break;\x7d") none).1 = .ok r ∧
      ∀ x ∈ r.tree.walk, x.2.isLaidOut = true ∧ (x.2.kind = .translationUnit ↔ x.1 = 0) := by
  have hok :
      (({} : Options).parse (utf8 "void f()\x7bfor(;a<b+1;)break;\x7d") none).1.toBool = true := by
    decide +kernel
  obtain ⟨r, hparse⟩ := exists_ok_of_toBool hok
  exact ⟨r, hparse, nodes_are_laid_out hparse⟩

end Options

end MiniC
