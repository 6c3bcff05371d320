/-
# MiniC.Proofs.Locality — every rule makes the same moves on streams that look alike.

Rule by rule: a rule and itself, the second time with at least the same budget, look, note and refuse
in the same places and give nodes of one shape.  What decides is always a lexeme, or the kind of a
node already read.  For whole sources it follows that reading stops where it does because of the
tokens read so far, and of nothing behind them.
-/
import MiniC.Proofs.Lockstep

namespace MiniC

namespace Rule

open Likeness

variable {L : Likeness} {n m : Nat} {e e' : Node} {es es' : List Node}

/-! ## Types -/

/-- The keyword is taken or left on the strength of the next lexeme. -/
theorem alike_optionalKeyword {among : List Keyword} :
    L.Alike L.OfNodes (optionalKeyword among) (optionalKeyword among) := by
  apply Alike.look .peek
  intro t t' ht
  apply Alike.ite (isKeyword_eq ht among)
  · exact alike_single alike_takeLeaf
  · exact .pure .nil

/-- A type with no word at all is refused; whether there is one, both sides agree on. -/
theorem alike_integerBase {sized : Bool} (h : L.OfNodes es es') :
    L.Alike L.OfNode (integerBase es sized) (integerBase es' sized) := by
  apply alike_optionalKeyword.bind
  intro base base' hbase
  have hparts : L.OfNodes (es ++ base) (es' ++ base') := List.rel_append h hbase
  apply Alike.ite (isEmpty_eq hparts)
  · apply Alike.look .peek
    intro t t' ht
    exact alike_refuse ht
  · exact .pure (.branch hparts)

/-- Each branch is on whether a list of words is empty, and lists that are alike are empty together.
-/
theorem alike_sizedType : L.Alike L.OfNode sizedType sizedType := by
  apply alike_optionalKeyword.bind
  intro sign sign' hsign
  apply alike_optionalKeyword.bind
  intro short short' hshort
  apply Alike.ite (isEmpty_eq hshort)
  · apply alike_optionalKeyword.bind
    intro long long' hlong
    have hsized : L.OfNodes (sign ++ long) (sign' ++ long') := List.rel_append hsign hlong
    apply Alike.ite (isEmpty_eq hlong)
    · exact alike_integerBase hsign
    · apply alike_optionalKeyword.bind
      intro second second' hsecond
      apply Alike.ite (isEmpty_eq hsecond)
      -- Only a type without a sign may go on with `double`.
      · apply Alike.ite (isEmpty_eq hsign)
        · apply alike_optionalKeyword.bind
          intro double double' hdouble
          apply Alike.ite (isEmpty_eq hdouble)
          · exact alike_integerBase hsized
          · exact .pure (.branch (List.rel_append hlong hdouble))
        · exact alike_integerBase hsized
      · exact alike_integerBase (List.rel_append hsized hsecond)
  · exact alike_integerBase (List.rel_append hsign hshort)

/-- The first word decides between a type of one word and a sized integer. -/
theorem alike_variableType {allowVoid : Bool} :
    L.Alike L.OfNode (variableType allowVoid) (variableType allowVoid) := by
  have hword : L.Alike L.OfNode (takeLeaf >>= fun e => pure (.branch .variableType [e]))
      (takeLeaf >>= fun e => pure (.branch .variableType [e])) :=
    alike_takeLeaf.bind fun _ _ he => .pure (.branch (.cons he .nil))
  apply Alike.look .peek
  intro t t' ht
  rw [← L.lexeme_eq ht]
  split
  · exact hword
  · exact hword
  · exact .ite rfl hword (alike_refuse ht)
  · exact alike_sizedType

/-! ## Variables, arguments, structures -/

theorem alike_variableRest (he : L.OfNode e e') {first first' : Node} (hfirst : L.OfNode first first')
    (hnm : n ≤ m) : L.Alike L.OfNode (variableRest e first n) (variableRest e' first' m) := by
  apply (alike_repeatWhile alike_takeComma (alike_single alike_expectIdentifier) hnm).bind
  intro others others' hothers
  apply alike_expect.bind
  intro _ _ _
  exact .pure (.branch (.cons he (.cons hfirst hothers)))

theorem alike_variableDefine (hnm : n ≤ m) :
    L.Alike L.OfNode (variableDefine n) (variableDefine m) := by
  apply alike_variableType.bind
  intro type type' htype
  apply alike_expectIdentifier.bind
  intro first first' hfirst
  exact alike_variableRest htype hfirst hnm

theorem alike_argument : L.Alike L.OfNode argument argument := by
  apply alike_variableType.bind
  intro type type' htype
  apply alike_expectIdentifier.bind
  intro name name' hname
  exact .pure (.branch (.cons htype (.cons hname .nil)))

/-- One argument, then one more behind each comma. -/
theorem alike_argumentList (hnm : n ≤ m) :
    L.Alike L.OfNodes (argumentList n) (argumentList m) := by
  apply alike_argument.bind
  intro first first' hfirst
  apply (alike_repeatWhile alike_takeComma (alike_single alike_argument) hnm).bind
  intro others others' hothers
  exact .pure (.cons hfirst hothers)

/-- This rule looks at two tokens: `void` stands for no arguments only if the parenthesis is next. -/
theorem alike_arguments (hnm : n ≤ m) : L.Alike L.OfNodes (arguments n) (arguments m) := by
  apply Alike.look .peek
  intro t t' ht
  apply Alike.ite (isBracket_eq ht _)
  · exact .pure .nil
  apply Alike.ite (isKeyword_eq ht _)
  · apply Alike.look .peekSecond
    intro s s' hs
    apply Alike.ite (isBracket_eq hs _)
    · exact .look .take fun _ _ _ => .pure .nil
    · exact alike_argumentList hnm
  · exact alike_argumentList hnm

/-- A member has to start with the keyword of a type. -/
theorem alike_member (hnm : n ≤ m) : L.Alike L.OfNode (member n) (member m) := by
  apply Alike.look .peek
  intro t t' ht
  exact .ite (isTypeKeyword_eq ht) (alike_variableDefine hnm) (alike_refuse ht)

theorem alike_optionalName : L.Alike L.OfNodes optionalName optionalName := by
  apply Alike.look .peek
  intro t t' ht
  apply Alike.ite (by rw [kind_eq ht])
  · exact alike_single alike_takeLeaf
  · exact .pure .nil

/-- The node starts at its keyword, so the two locations are alike as the keywords are. -/
theorem alike_structDefine (hnm : n ≤ m) :
    L.Alike L.OfNode (structDefine n) (structDefine m) := by
  apply Alike.look .take
  intro keyword keyword' hkeyword
  apply alike_optionalName.bind
  intro name name' hname
  apply alike_expect.bind
  intro opening opening' hopening
  apply (alike_repeatWhile alike_insideBody (alike_single (alike_member hnm)) hnm).bind
  intro members members' hmembers
  apply (alike_close hopening).bind
  intro _ _ _
  apply alike_expect.bind
  intro _ _ _
  exact .pure (.branchAt hkeyword (List.rel_append hname hmembers))

/-! ## Expressions -/

section Chains

variable {l : Level} {operand operand' : Rule Node}

/-- A chain of one operand is that operand; longer ones are nodes of the level. -/
theorem ofNode_chainNode (h : L.OfNodes es es') :
    L.OfNode (chainNode l es) (chainNode l es') := by
  cases h with
  | nil => exact .branch .nil
  | cons hhead htail =>
      cases htail with
      | nil => exact hhead
      | cons hsecond hrest => exact .branch (.cons hhead (.cons hsecond hrest))

/-- The chain goes on as long as the next lexeme is an operator of its level. -/
theorem alike_chainFrom (hoperand : L.Alike L.OfNode operand operand') (he : L.OfNode e e')
    (hnm : n ≤ m) : L.Alike L.OfNode (chainFrom l operand n e) (chainFrom l operand' m e') := by
  have hmore : L.Alike Eq (peek >>= fun t => pure (t.isOperator l.operators))
      (peek >>= fun t => pure (t.isOperator l.operators)) :=
    .look .peek fun _ _ ht => .pure (isOperator_eq ht _)
  have hitem : L.Alike L.OfNodes (takeLeaf >>= fun op => operand >>= fun e => pure [op, e])
      (takeLeaf >>= fun op => operand' >>= fun e => pure [op, e]) := by
    apply alike_takeLeaf.bind
    intro op op' hop
    apply hoperand.bind
    intro b b' hb
    exact .pure (.cons hop (.cons hb .nil))
  apply (alike_repeatWhile hmore hitem hnm).bind
  intro rest rest' hrest
  exact .pure (ofNode_chainNode (.cons he hrest))

theorem alike_chain (hoperand : L.Alike L.OfNode operand operand') (hnm : n ≤ m) :
    L.Alike L.OfNode (chain l operand n) (chain l operand' m) := by
  apply hoperand.bind
  intro e e' he
  exact alike_chainFrom hoperand he hnm

theorem alike_productOf (hoperand : L.Alike L.OfNode operand operand') (hnm : n ≤ m) :
    L.Alike L.OfNode (productOf operand n) (productOf operand' m) :=
  alike_chain hoperand hnm

theorem alike_sumOf (hoperand : L.Alike L.OfNode operand operand') (hnm : n ≤ m) :
    L.Alike L.OfNode (sumOf operand n) (sumOf operand' m) :=
  alike_chain (alike_productOf hoperand hnm) hnm

/-- The four levels of boolean operators, from comparisons up to `||`. -/
theorem alike_conditionOf (hoperand : L.Alike L.OfNode operand operand') (hnm : n ≤ m) :
    L.Alike L.OfNode (conditionOf operand n) (conditionOf operand' m) :=
  alike_chain (alike_chain (alike_chain (alike_chain hoperand hnm) hnm) hnm) hnm

end Chains

/-- The first lexeme of a factor decides; `x` and `y` read the factors in parentheses. -/
theorem alike_factorOf {x y : Rule Node} (h : L.Alike L.OfNode x y) (hnm : n ≤ m) :
    L.Alike L.OfNode (factorOf n x) (factorOf m y) := by
  apply Alike.look .peek
  intro t t' ht
  rw [← L.lexeme_eq ht]
  split
  · apply Alike.look .take
    intro opening opening' hopening
    apply (alike_sumOf h hnm).bind
    intro inner inner' hinner
    apply (alike_close hopening).bind
    intro _ _ _
    exact .pure hinner
  · exact alike_takeLeaf
  · exact alike_takeLeaf
  · exact alike_refuse ht

/-- By induction on the smaller budget: the factors in parentheses have one less on either side. -/
theorem alike_factor (hnm : n ≤ m) : L.Alike L.OfNode (factor n) (factor m) := by
  induction n generalizing m with
  | zero => exact .exhausted
  | succ n ih =>
      obtain ⟨m, rfl⟩ : ∃ k, m = k + 1 := ⟨m - 1, by omega⟩
      have hle : n ≤ m := by omega
      exact alike_factorOf (ih hle) hle

/-- A sum whose first factor has been read already. -/
theorem alike_sumFrom (he : L.OfNode e e') (hnm : n ≤ m) :
    L.Alike L.OfNode (sumFrom n e) (sumFrom m e') := by
  apply (alike_chainFrom (alike_factor hnm) he hnm).bind
  intro product product' hproduct
  exact alike_chainFrom (alike_productOf (alike_factor hnm) hnm) hproduct hnm

/-- Arithmetic in parentheses goes on if the token behind them says so. -/
theorem alike_resume (he : L.OfNode e e') (hnm : n ≤ m) :
    L.Alike L.OfNode (resume n e) (resume m e') := by
  apply Alike.ite he.isArithmetic_eq
  · apply Alike.look .peek
    intro s s' hs
    exact .ite (isOperator_eq hs _) (alike_sumFrom he hnm) (.pure he)
  · exact .pure he

/-- The first lexeme tells negation, parentheses and arithmetic apart.  What stands in parentheses may
turn out to be arithmetic, and that is a matter of the kind of a node. -/
theorem alike_boolFactorOf {x y : Rule Node} (h : L.Alike L.OfNode x y) (hnm : n ≤ m) :
    L.Alike L.OfNode (boolFactorOf n x) (boolFactorOf m y) := by
  have hcondition := alike_conditionOf h hnm
  apply Alike.look .peek
  intro t t' ht
  rw [← L.lexeme_eq ht]
  split
  · apply alike_takeLeaf.bind
    intro op op' hop
    apply hcondition.bind
    intro operand operand' hoperand
    exact .pure (.branch (.cons hop (.cons hoperand .nil)))
  · apply Alike.look .take
    intro opening opening' hopening
    apply hcondition.bind
    intro inner inner' hinner
    apply (alike_close hopening).bind
    intro _ _ _
    exact alike_resume hinner hnm
  · exact alike_sumOf (alike_factor hnm) hnm

theorem alike_boolFactor (hnm : n ≤ m) : L.Alike L.OfNode (boolFactor n) (boolFactor m) := by
  induction n generalizing m with
  | zero => exact .exhausted
  | succ n ih =>
      obtain ⟨m, rfl⟩ : ∃ k, m = k + 1 := ⟨m - 1, by omega⟩
      have hle : n ≤ m := by omega
      exact alike_boolFactorOf (ih hle) hle

theorem alike_boolExpr (hnm : n ≤ m) : L.Alike L.OfNode (boolExpr n) (boolExpr m) :=
  alike_conditionOf (alike_boolFactor hnm) hnm

/-! ## Statements -/

section Statements

variable {strict : Bool} {x y : Rule Node}

/-- Strict reading looks at the kind of the node that was read, and at the next token only to refuse
it. -/
theorem alike_checkCondition (he : L.OfNode e e') :
    L.Alike (fun _ _ => True) (checkCondition strict e) (checkCondition strict e') := by
  apply Alike.ite (by rw [he.isBoolean_eq])
  · apply Alike.look .peek
    intro t t' ht
    exact alike_refuse ht
  · exact .pure trivial

theorem alike_condition (hnm : n ≤ m) :
    L.Alike L.OfNode (condition strict n) (condition strict m) := by
  apply alike_expect.bind
  intro opening opening' hopening
  apply (alike_boolExpr hnm).bind
  intro inner inner' hinner
  apply (alike_checkCondition hinner).bind
  intro _ _ _
  apply (alike_close hopening).bind
  intro _ _ _
  exact .pure hinner

theorem alike_assignment (hnm : n ≤ m) : L.Alike L.OfNode (assignment n) (assignment m) := by
  apply alike_expectIdentifier.bind
  intro target target' htarget
  apply alike_expect.bind
  intro _ _ _
  apply (alike_boolExpr hnm).bind
  intro value value' hvalue
  exact .pure (.branch (.cons htarget (.cons hvalue .nil)))

/-- An assignment and an expression that starts with a name differ in their second lexeme. -/
theorem alike_forClause (hnm : n ≤ m) : L.Alike L.OfNode (forClause n) (forClause m) := by
  apply Alike.look .peek
  intro t t' ht
  rw [← L.lexeme_eq ht]
  split
  · exact .pure (.branchAt ht .nil)
  · exact .pure (.branchAt ht .nil)
  · apply Alike.look .peekSecond
    intro s s' hs
    exact .ite (isOperator_eq hs _) (alike_assignment hnm) (alike_boolExpr hnm)
  · exact alike_boolExpr hnm

/-- Statements up to the closing brace. -/
theorem alike_blockOf (h : L.Alike L.OfNode x y) (hnm : n ≤ m) :
    L.Alike L.OfNode (blockOf x n) (blockOf y m) := by
  apply alike_expect.bind
  intro opening opening' hopening
  apply (alike_repeatWhile alike_insideBody (alike_single h) hnm).bind
  intro body body' hbody
  apply (alike_close hopening).bind
  intro _ _ _
  exact .pure (.branchAt hopening hbody)

/-- Both branches of an `if` are read by the rule given for statements. -/
theorem alike_ifOf (h : L.Alike L.OfNode x y) (hnm : n ≤ m) :
    L.Alike L.OfNode (ifOf strict x n) (ifOf strict y m) := by
  apply Alike.look .take
  intro keyword keyword' hkeyword
  apply (alike_condition hnm).bind
  intro c c' hc
  apply h.bind
  intro a a' ha
  apply alike_expect.bind
  intro _ _ _
  apply h.bind
  intro b b' hb
  exact .pure (.branchAt hkeyword (.cons hc (.cons ha (.cons hb .nil))))

theorem alike_whileOf (h : L.Alike L.OfNode x y) (hnm : n ≤ m) :
    L.Alike L.OfNode (whileOf strict x n) (whileOf strict y m) := by
  apply Alike.look .take
  intro keyword keyword' hkeyword
  apply (alike_condition hnm).bind
  intro c c' hc
  apply h.bind
  intro body body' hbody
  exact .pure (.branchAt hkeyword (.cons hc (.cons hbody .nil)))

/-- The second clause is checked unless it is empty, and clauses that are alike are empty together. -/
theorem alike_forOf (h : L.Alike L.OfNode x y) (hnm : n ≤ m) :
    L.Alike L.OfNode (forOf strict x n) (forOf strict y m) := by
  apply Alike.look .take
  intro keyword keyword' hkeyword
  apply alike_expect.bind
  intro opening opening' hopening
  apply (alike_forClause hnm).bind
  intro start start' hstart
  apply alike_expect.bind
  intro _ _ _
  apply (alike_forClause hnm).bind
  intro c c' hc
  rw [hc.kind_eq]
  apply (alike_checkCondition hc).bind
  intro _ _ _
  apply alike_expect.bind
  intro _ _ _
  apply (alike_forClause hnm).bind
  intro step step' hstep
  apply (alike_close hopening).bind
  intro _ _ _
  apply h.bind
  intro body body' hbody
  exact .pure (.branchAt hkeyword (.cons hstart (.cons hc (.cons hstep (.cons hbody .nil)))))

theorem alike_breakStmt : L.Alike L.OfNode breakStmt breakStmt := by
  apply Alike.look .take
  intro keyword keyword' hkeyword
  apply alike_expect.bind
  intro _ _ _
  exact .pure (.branchAt hkeyword .nil)

/-- A semicolon right behind the keyword means that there is no value. -/
theorem alike_returnStmt (hnm : n ≤ m) : L.Alike L.OfNode (returnStmt n) (returnStmt m) := by
  have hvalue : L.Alike L.OfNodes (returnValue n) (returnValue m) := by
    apply Alike.look .peek
    intro t t' ht
    exact .ite (by rw [kind_eq ht]) (.pure .nil) (alike_single (alike_boolExpr hnm))
  apply Alike.look .take
  intro keyword keyword' hkeyword
  apply hvalue.bind
  intro value value' hvalue
  apply alike_expect.bind
  intro _ _ _
  exact .pure (.branchAt hkeyword hvalue)

/-- A statement that starts with a name is refused at its second token, if that is no `=`. -/
theorem alike_assignStmt (hnm : n ≤ m) : L.Alike L.OfNode (assignStmt n) (assignStmt m) := by
  apply Alike.look .peekSecond
  intro second second' hsecond
  apply Alike.ite (isOperator_eq hsecond _)
  · apply (alike_assignment hnm).bind
    intro e e' he
    apply alike_expect.bind
    intro _ _ _
    exact .pure he
  · exact alike_refuse hsecond

/-- A statement is noted before it is read.  Its first lexeme decides which rule reads it. -/
theorem alike_stmtOf (h : L.Alike L.OfNode x y) (hnm : n ≤ m) :
    L.Alike L.OfNode (stmtOf strict n x) (stmtOf strict m y) := by
  apply Alike.look .peek
  intro t t' ht
  apply Alike.note (.statement ht)
  rw [← L.lexeme_eq ht]
  split
  · exact alike_blockOf h hnm
  · exact alike_ifOf h hnm
  · exact alike_whileOf h hnm
  · exact alike_forOf h hnm
  · exact alike_breakStmt
  · exact alike_returnStmt hnm
  · exact .ite rfl (alike_variableDefine hnm) (alike_refuse ht)
  · exact .look .take fun _ _ hs => .pure (.branchAt hs .nil)
  · exact alike_assignStmt hnm
  · exact alike_refuse ht

/-- By induction on the smaller budget, as for factors. -/
theorem alike_stmt (hnm : n ≤ m) : L.Alike L.OfNode (stmt strict n) (stmt strict m) := by
  induction n generalizing m with
  | zero => exact .exhausted
  | succ n ih =>
      obtain ⟨m, rfl⟩ : ∃ k, m = k + 1 := ⟨m - 1, by omega⟩
      have hle : n ≤ m := by omega
      exact alike_stmtOf (ih hle) hle

end Statements

/-! ## Top-level items -/

section Items

variable {strict : Bool}

/-- A declaration ends in a semicolon where a definition has its body. -/
theorem alike_functionRest (he : L.OfNode e e') {name name' : Node} (hname : L.OfNode name name')
    (hnm : n ≤ m) :
    L.Alike L.OfNode (functionRest strict e name n) (functionRest strict e' name' m) := by
  apply alike_expect.bind
  intro opening opening' hopening
  apply (alike_arguments hnm).bind
  intro args args' hargs
  have hfront : L.OfNodes (e :: name :: args) (e' :: name' :: args') :=
    .cons he (.cons hname hargs)
  apply (alike_close hopening).bind
  intro _ _ _
  apply Alike.look .peek
  intro t t' ht
  rw [← L.lexeme_eq ht]
  split
  · exact .look .take fun _ _ _ => .pure (.branch hfront)
  · apply (alike_blockOf (alike_stmt hnm) hnm).bind
    intro body body' hbody
    exact .pure (.branch (List.rel_append hfront (.cons hbody .nil)))
  · exact alike_refuse ht

/-- The token behind the name decides: a parenthesis starts the arguments of a function.  Anything
else is refused if the type is `void`. -/
theorem alike_declaration (hnm : n ≤ m) :
    L.Alike L.OfNode (declaration strict n) (declaration strict m) := by
  apply alike_variableType.bind
  intro type type' htype
  apply alike_expectIdentifier.bind
  intro name name' hname
  apply Alike.look .peek
  intro t t' ht
  apply Alike.ite (isBracket_eq ht _)
  · exact alike_functionRest htype hname hnm
  apply Alike.ite htype.isVoid_eq
  · exact alike_refuse ht
  · exact alike_variableRest htype hname hnm

/-- An item is noted before it is read, as a statement is. -/
theorem alike_item (hnm : n ≤ m) : L.Alike L.OfNode (item strict n) (item strict m) := by
  apply Alike.look .peek
  intro t t' ht
  apply Alike.note (.item ht)
  rw [← L.lexeme_eq ht]
  split
  · exact alike_takeLeaf
  · exact alike_structDefine hnm
  · exact .ite rfl (alike_declaration hnm) (alike_refuse ht)
  · exact alike_refuse ht

/-- The loop over the items of a source, with some of them read. -/
def itemsOnto (strict : Bool) (budget rounds : Nat) (seen : List Node) : Rule (List Node) :=
  repeatOnto (peek >>= fun t => pure (!t.atEnd)) (item strict budget >>= fun e => pure [e]) rounds seen

theorem alike_itemsOnto {rounds rounds' : Nat} (hnm : n ≤ m) (hrounds : rounds ≤ rounds') :
    L.Alike L.OfNodes (itemsOnto strict n rounds []) (itemsOnto strict m rounds' []) := by
  have hmore : L.Alike Eq (peek >>= fun t => pure (!t.atEnd)) (peek >>= fun t => pure (!t.atEnd)) :=
    .look .peek fun _ _ ht => .pure (by rw [atEnd_eq ht])
  exact alike_repeatOnto hmore (alike_single (alike_item hnm)) .nil hrounds

/-- Whole sources: with no less budget, the second run makes the moves of the first. -/
theorem alike_items (hnm : n ≤ m) : L.Alike L.OfNodes (items strict n) (items strict m) :=
  alike_itemsOnto hnm hnm

end Items

end Rule

end MiniC
