/-
# MiniC.Proofs.Precedence — the tree of an expression.

The left-recursive grammar of expressions, `A ::= A op B | B` at each of six levels, with the tree
that each derivation makes.  Operands and operators along a left spine of one level become the
children of one flat node; a level without an operator and a pair of parentheses make no node; a
negation takes all that follows it up to where a boolean operator can no longer go on.

The parser has no left recursion: it runs each level as a loop, and where a parenthesis turns out to
hold arithmetic it goes on from the middle of two loops at once.  The main result is that it builds
the trees of the grammar all the same, and that these are unique.
-/
import MiniC.Proofs.Reaching
import MiniC.Proofs.Reading

namespace MiniC

/-! ## Trees -/

/-- The operator that a token is, if it is one. -/
def Token.operator? (t : Token) : Option Operator :=
  match t.terminal with
  | .operator o => some o
  | _ => none

/-- The binary operators of the boolean levels. -/
def booleanOperators : List Operator :=
  Level.or.joins ++ Level.and.joins ++ Level.equality.joins ++ Level.comparison.joins

mutual

/-- The word `w` of a symbol makes the tree `e`, where the operator `next`, if any, stands directly
behind the word. -/
inductive Builds : Option Operator → Symbol → List Token → Node → Prop
  | operand {next : Option Operator} {l : Level} {w : List Token} {e : Node} :
      Builds next l.operand w e → Builds next (.level l) w e
  | chain {next : Option Operator} {l : Level} {w : List Token} {children : List Node} :
      Spine next l w children → Builds next (.level l) w (.branch l.kind children)
  | not {next : Option Operator} {op : Token} {w : List Token} {e : Node} :
      op.terminal = .operator .logicNot → (∀ o ∈ next, o ∉ booleanOperators) →
      Builds next (.level .or) w e →
      Builds next .boolFactor (op :: w) (.branch .boolExprNot [.leaf op, e])
  | group {next : Option Operator} {opening closing : Token} {w : List Token} {e : Node} :
      opening.terminal = .leftParen → closing.terminal = .rightParen →
      Builds none (.level .or) w e → Builds next .boolFactor (opening :: w ++ [closing]) e
  | sum {next : Option Operator} {w : List Token} {e : Node} :
      Builds next (.level .additive) w e → Builds next .boolFactor w e
  | paren {next : Option Operator} {opening closing : Token} {w : List Token} {e : Node} :
      opening.terminal = .leftParen → closing.terminal = .rightParen →
      Builds none (.level .additive) w e → Builds next .factor (opening :: w ++ [closing]) e
  | name {next : Option Operator} {t : Token} :
      t.terminal = .identifier → Builds next .factor [t] (.leaf t)
  | number {next : Option Operator} {t : Token} :
      t.terminal = .number → Builds next .factor [t] (.leaf t)

/-- A left spine of one level, with at least one operator, and the children of its node. -/
inductive Spine : Option Operator → Level → List Token → List Node → Prop
  | pair {next : Option Operator} {l : Level} {o : Operator} {op : Token} {u v : List Token}
      {a b : Node} :
      Builds (some o) l.operand u a → op.terminal = .operator o → o ∈ l.joins →
      Builds next l.operand v b → Spine next l (u ++ op :: v) [a, .leaf op, b]
  | more {next : Option Operator} {l : Level} {o : Operator} {op : Token} {u v : List Token}
      {children : List Node} {b : Node} :
      Spine (some o) l u children → op.terminal = .operator o → o ∈ l.joins →
      Builds next l.operand v b → Spine next l (u ++ op :: v) (children ++ [.leaf op, b])

end

/-! ## Operators that go on -/

/-- The operators with which a level goes on, its own and those of the levels below. -/
def Level.extending : Level → List Operator
  | .multiplicative => Level.multiplicative.joins
  | .additive => Rule.arithmeticOperators
  | .comparison => Level.comparison.joins ++ Rule.arithmeticOperators
  | .equality => Level.equality.joins ++ Level.comparison.joins ++ Rule.arithmeticOperators
  | .and => Level.and.joins ++ Level.equality.joins ++ Level.comparison.joins
      ++ Rule.arithmeticOperators
  | .or => booleanOperators ++ Rule.arithmeticOperators

/-- The operators with which a word of a symbol goes on. -/
def Symbol.extending : Symbol → List Operator
  | .level l => l.extending
  | .boolFactor => Rule.arithmeticOperators
  | _ => []

theorem Level.operand_extending (l : Level) : ∀ o ∈ l.operand.extending, o ∈ l.extending := by
  cases l <;> decide

theorem Level.joins_extending (l : Level) : ∀ o ∈ l.joins, o ∈ l.extending := by
  cases l <;> decide

theorem Level.joins_stop (l : Level) : ∀ o ∈ l.joins, o ∉ l.operand.extending := by
  cases l <;> decide

theorem Level.or_extending : ∀ o ∈ Level.or.extending,
    o ∈ booleanOperators ∨ o ∈ Rule.arithmeticOperators := by
  decide

/-- A word of the symbol ends before this token. -/
def Token.Stops (t : Token) (s : Symbol) : Prop := ∀ o ∈ t.operator?, o ∉ s.extending

namespace Token

variable {t : Token} {o : Operator} {l : Level}

theorem operator?_of_terminal (h : t.terminal = .operator o) : t.operator? = some o := by
  simp [operator?, h]

theorem terminal_of_operator? (h : t.operator? = some o) : t.terminal = .operator o := by
  unfold operator? at h
  split at h <;> simp_all

theorem isOperator_iff {among : List Operator} (hne : among ≠ []) :
    t.isOperator among = true ↔ ∃ o ∈ among, t.operator? = some o := by
  cases hl : t.lexeme <;> simp [isOperator, operator?, terminal, Lexeme.terminal, hl, hne]

/-- What the loop of a level looks for. -/
theorem isOperator_level : t.isOperator l.operators = true ↔ ∃ o ∈ l.joins, t.operator? = some o := by
  have hne : l.operators ≠ [] := by
    cases l <;> decide
  rw [isOperator_iff hne]
  simp only [Level.mem_operators]

theorem Stops.operand (h : t.Stops (.level l)) : t.Stops l.operand :=
  fun o ho hmem => h o ho (l.operand_extending o hmem)

theorem Stops.isOperator_eq_false (h : t.Stops (.level l)) : t.isOperator l.operators = false := by
  rw [Bool.eq_false_iff, Ne, isOperator_level]
  rintro ⟨o, hmem, ho⟩
  exact h o (by simp [ho]) (l.joins_extending o hmem)

theorem stops_of_mem (h : t.operator? = some o) (hmem : o ∈ l.joins) : t.Stops l.operand := by
  intro o' ho'
  obtain rfl : o = o' := by simpa [h] using ho'
  exact l.joins_stop o hmem

theorem stops_of_none {s : Symbol} (h : t.operator? = none) : t.Stops s := by
  intro o ho
  simp [h] at ho

end Token

namespace Rule

variable {l : Level} {r : Rule Node} {e : Node} {t : Token} {w z : List Token} {n : Nat}

/-! ## Chains run as loops -/

/-- The loop of a chain: an operator and an operand, again and again. -/
def links (l : Level) (r : Rule Node) : Nat → List Node → Rule (List Node) :=
  repeatOnto (peek >>= fun t => pure (t.isOperator l.operators))
    (takeLeaf >>= fun op => r >>= fun e => pure [op, e])

theorem reaches_links_more {op : Token} {o : Operator} {v : List Token} {b : Node}
    {seen : List Node} (hop : op.terminal = .operator o) (hmem : o ∈ l.joins)
    (hb : Reaches r v z (pure b)) :
    Reaches (links l r (n + 1) seen) (op :: v) z (links l r n (b :: .leaf op :: seen)) := by
  have htest : op.isOperator l.operators = true :=
    Token.isOperator_level.mpr ⟨o, hmem, Token.operator?_of_terminal hop⟩
  have hmore : Reaches (peek >>= fun t => pure (t.isOperator l.operators)) [] (op :: v ++ z)
      (pure true) := by
    rw [← htest]
    exact reaches_peek.look (.refl _)
  have hitem : Reaches (takeLeaf >>= fun op => r >>= fun e => pure [op, e]) (op :: v) z
      (pure [.leaf op, b]) :=
    (reaches_takeLeaf (Token.live hop rfl)).seq (hb.last (.refl _))
  exact reaches_repeatOnto_more hmore hitem

theorem reaches_links_stop {seen : List Node} (hstop : t.Stops (.level l)) :
    Reaches (links l r (n + 1) seen) [] (t :: z) (pure seen.reverse) := by
  refine reaches_repeatOnto_stop ?_
  rw [← hstop.isOperator_eq_false]
  exact reaches_peek.look (.refl _)

/-- What an operand of a level has to do on words shorter than `k`. -/
def ReadsOperand (l : Level) (r : Rule Node) (k : Nat) : Prop :=
  ∀ (u : List Token) (a : Node) (x : Token) (z : List Token), u.length < k →
    Builds x.operator? l.operand u a → x.Stops l.operand → Reaches r u (x :: z) (pure a)

theorem ReadsOperand.mono {k j : Nat} (h : ReadsOperand l r k) (hj : j ≤ k) :
    ReadsOperand l r j :=
  fun u a x z hu => h u a x z (Nat.lt_of_lt_of_le hu hj)

/-- Along a spine the loop takes one operator and operand after another, from the first operator
on.  The budget shrinks no faster than the word grows. -/
theorem reaches_links_of_spine {next : Option Operator} {w z : List Token} {children : List Node}
    {t : Token} (hoperand : ReadsOperand l r w.length) (hnext : t.operator? = next)
    (hstop : t.Stops l.operand) (hn : w.length < n) (h : Spine next l w children) :
    ∃ u v a op o seen m, w = u ++ op :: v ∧ Builds (some o) l.operand u a ∧
      op.terminal = .operator o ∧ o ∈ l.joins ∧ children = a :: seen.reverse ∧
      seen ≠ [] ∧ n ≤ m + w.length ∧
      Reaches (links l r n []) (op :: v) (t :: z) (links l r m seen) := by
  match h with
  | @Spine.pair _ _ o op u v a b ha hop hmem hb =>
      simp only [List.length_append, List.length_cons] at hn
      obtain ⟨m, rfl⟩ : ∃ m, n = m + 1 := ⟨n - 1, by omega⟩
      have hlater : Reaches r v (t :: z) (pure b) := by
        refine hoperand v b t z ?_ (hnext ▸ hb) hstop
        simp only [List.length_append, List.length_cons]
        omega
      refine ⟨u, v, a, op, o, [b, .leaf op], m, rfl, ha, hop, hmem, rfl, by simp, ?_,
        reaches_links_more hop hmem hlater⟩
      simp only [List.length_append, List.length_cons]
      omega
  | @Spine.more _ _ o op u v _ b hsub hop hmem hb =>
      have hlen : (u ++ op :: v).length = u.length + v.length + 1 := by
        simp only [List.length_append, List.length_cons]
        omega
      rw [hlen] at hoperand hn
      obtain ⟨u', v', a, op', o', seen, m, rfl, ha, hop', hmem', rfl, hseen, hm, hreach⟩ :=
        reaches_links_of_spine (z := v ++ t :: z) (hoperand.mono (by omega))
          (Token.operator?_of_terminal hop) (Token.stops_of_mem (Token.operator?_of_terminal hop) hmem)
          (by omega) hsub
      obtain ⟨m, rfl⟩ : ∃ k, m = k + 1 := ⟨m - 1, by omega⟩
      have hlater : Reaches r v (t :: z) (pure b) :=
        hoperand v b t z (by omega) (hnext ▸ hb) hstop
      refine ⟨u', v' ++ op :: v, a, op', o', b :: .leaf op :: seen, m, by simp, ha, hop', hmem',
        by simp, by simp, by omega, ?_⟩
      exact hreach.trans (reaches_links_more hop hmem hlater)

/-- A word of a level is a first operand and what the loop takes behind it. -/
theorem reaches_chainFrom (hoperand : ReadsOperand l r w.length)
    (h : Builds t.operator? (.level l) w e) (hstop : t.Stops (.level l)) (hn : w.length < n) :
    ∃ u v a x v', w = u ++ v ∧ v ++ t :: z = x :: v' ∧ Builds x.operator? l.operand u a ∧
      x.Stops l.operand ∧ Reaches (chainFrom l r n a) v (t :: z) (pure e) ∧
      (v = [] ∧ e = a ∨ x.isOperator l.operators = true) := by
  cases h with
  | operand h =>
      obtain ⟨n, rfl⟩ : ∃ k, n = k + 1 := ⟨n - 1, by omega⟩
      refine ⟨w, [], e, t, z, by simp, rfl, h, hstop.operand, ?_, .inl ⟨rfl, rfl⟩⟩
      exact (reaches_links_stop hstop).last (.refl _)
  | @chain _ _ _ children h =>
      obtain ⟨u, v, a, op, o, seen, m, rfl, ha, hop, hmem, rfl, hseen, hm, hreach⟩ :=
        reaches_links_of_spine (z := z) hoperand rfl hstop.operand hn h
      have hop? := Token.operator?_of_terminal hop
      obtain ⟨m, rfl⟩ : ∃ k, m = k + 1 := ⟨m - 1, by omega⟩
      refine ⟨u, op :: v, a, op, v ++ t :: z, rfl, rfl, hop? ▸ ha, Token.stops_of_mem hop? hmem, ?_,
        .inr (Token.isOperator_level.mpr ⟨o, hmem, hop?⟩)⟩
      have hloop : Reaches (links l r n []) (op :: v) (t :: z) (pure seen.reverse) := by
        have htrans := hreach.trans (w := op :: v) (v := []) (reaches_links_stop hstop)
        rwa [List.append_nil] at htrans
      have hnode : chainNode l (a :: seen.reverse) = .branch l.kind (a :: seen.reverse) := by
        cases hrev : seen.reverse with
        | nil => exact absurd (List.reverse_eq_nil_iff.mp hrev) hseen
        | cons b bs => rfl
      rw [← hnode]
      exact hloop.last (.refl _)

theorem reaches_chain (hoperand : ReadsOperand l r (w.length + 1))
    (h : Builds t.operator? (.level l) w e) (hstop : t.Stops (.level l)) (hn : w.length < n) :
    Reaches (chain l r n) w (t :: z) (pure e) := by
  obtain ⟨u, v, a, x, v', rfl, hfront, ha, hx, hreach, -⟩ :=
    reaches_chainFrom (z := z) (hoperand.mono (Nat.le_succ _)) h hstop hn
  have hfirst : Reaches r u (v ++ t :: z) (pure a) := by
    rw [hfront]
    refine hoperand u a x v' ?_ ha hx
    simp only [List.length_append]
    omega
  exact hfirst.seq hreach

/-- A chain is an operand of the level above. -/
theorem ReadsOperand.chain {l l' : Level} {k : Nat} (h : ReadsOperand l' r k)
    (hl : l.operand = .level l') (hk : k ≤ n) : ReadsOperand l (chain l' r n) k := by
  intro u a x z hu ha hx
  rw [hl] at ha hx
  exact reaches_chain (h.mono hu) ha hx (Nat.lt_of_lt_of_le hu hk)

/-! ## Arithmetic -/

theorem reaches_factor {next : Option Operator} (h : Builds next .factor w e) (hn : w.length < n) :
    Reaches (factor n) w z (pure e) := by
  induction hk : w.length using Nat.strongRecOn generalizing w e n z next with
  | ind k ih =>
      subst hk
      obtain ⟨n, rfl⟩ : ∃ m, n = m + 1 := ⟨n - 1, by omega⟩
      cases h with
      | @paren _ opening closing w _ hopen hclose h =>
          simp only [List.length_append, List.length_cons, List.length_nil] at hn ih
          have hfactor : ReadsOperand .multiplicative (factor n) (w.length + 1) :=
            fun u a x z hu ha _ => ih _ (by omega) ha (by omega) rfl
          have hproduct : ReadsOperand .additive (productOf (factor n) n) (w.length + 1) :=
            hfactor.chain rfl (by omega)
          have hnone : closing.operator? = none := by simp [Token.operator?, hclose]
          have hsum : Reaches (sumOf (factor n) n) w ([closing] ++ z) (pure e) :=
            reaches_chain hproduct (hnone ▸ h) (Token.stops_of_none hnone) (by omega)
          refine reaches_peek.look ?_
          simp only [Token.lexeme_of_terminal hopen rfl]
          refine (reaches_take (Token.live hopen rfl)).seq (hsum.seq ?_)
          exact (reaches_close hclose).last (.refl _)
      | @name _ t ht =>
          obtain ⟨text, hl⟩ := Token.exists_text ht
          refine reaches_peek.look ?_
          simp only [hl, Terminal.withText]
          exact reaches_takeLeaf (Token.live ht rfl)
      | @number _ t ht =>
          obtain ⟨text, hl⟩ := Token.exists_text ht
          refine reaches_peek.look ?_
          simp only [hl, Terminal.withText]
          exact reaches_takeLeaf (Token.live ht rfl)

theorem readsOperand_factor {k : Nat} (hk : k ≤ n) :
    ReadsOperand .multiplicative (factor n) k :=
  fun u a x z hu ha _ => reaches_factor ha (by omega)

theorem readsOperand_product {k : Nat} (hk : k ≤ n) :
    ReadsOperand .additive (productOf (factor n) n) k :=
  (readsOperand_factor hk).chain rfl hk

theorem reaches_sum (h : Builds t.operator? (.level .additive) w e)
    (hstop : t.Stops (.level .additive)) (hn : w.length < n) :
    Reaches (sum n) w (t :: z) (pure e) :=
  reaches_chain (readsOperand_product hn) h hstop hn

/-- A sum is a first factor and what the two loops take behind it. -/
theorem reaches_sumFrom (h : Builds t.operator? (.level .additive) w e)
    (hstop : t.Stops (.level .additive)) (hn : w.length < n) :
    ∃ next u v a, w = u ++ v ∧ Builds next .factor u a ∧
      Reaches (sumFrom n a) v (t :: z) (pure e) ∧
      (v = [] ∧ e = a ∨ ∃ x v', v ++ t :: z = x :: v' ∧ x.isOperator arithmeticOperators = true) := by
  have harith : ∀ (x : Token) (l : Level), (∀ o ∈ l.joins, o ∈ arithmeticOperators) →
      x.isOperator l.operators = true → x.isOperator arithmeticOperators = true := by
    intro x l hl hx
    obtain ⟨o, ho, hxo⟩ := Token.isOperator_level.mp hx
    exact (Token.isOperator_iff (by decide)).mpr ⟨o, hl o ho, hxo⟩
  obtain ⟨u, v, a, x, v', rfl, hfront, ha, hx, hreach, hcase⟩ :=
    reaches_chainFrom (z := z) (readsOperand_product (Nat.le_of_lt hn)) h hstop hn
  simp only [List.length_append] at hn
  obtain ⟨u, v₁, b, y, v₁', rfl, hfront₁, hb, -, hreach₁, hcase₁⟩ :=
    reaches_chainFrom (n := n) (z := v') (readsOperand_factor (n := n) (by omega)) ha hx (by omega)
  refine ⟨y.operator?, u, v₁ ++ v, b, by simp, hb, ?_, ?_⟩
  · refine .seq ?_ hreach
    rw [hfront]
    exact hreach₁
  · rcases hcase₁ with ⟨rfl, rfl⟩ | hy
    · rcases hcase with ⟨rfl, rfl⟩ | hx
      · exact .inl ⟨rfl, rfl⟩
      · exact .inr ⟨x, v', hfront, harith x .additive (by decide) hx⟩
    · refine .inr ⟨y, v₁', ?_, harith y .multiplicative (by decide) hy⟩
      rw [List.append_assoc, hfront, hfront₁]

/-! ## Boolean expressions -/

theorem readsOperand_or {k : Nat} (h : ReadsOperand .comparison r k) (hk : k ≤ n) :
    ReadsOperand .or (chain .and (chain .equality (chain .comparison r n) n) n) k :=
  ((h.chain (l := .equality) rfl hk).chain (l := .and) rfl hk).chain (l := .or) rfl hk

end Rule

/-- Arithmetic words make arithmetic nodes. -/
theorem Builds.isArithmetic {next : Option Operator} {w : List Token} {e : Node}
    (h : Builds next (.level .additive) w e) : e.isArithmetic = true := by
  induction hk : w.length using Nat.strongRecOn generalizing w e next with
  | ind k ih =>
      subst hk
      cases h with
      | chain h => rfl
      | operand h =>
          cases h with
          | chain h => rfl
          | operand h =>
              cases h with
              | name | number => rfl
              | paren hopen hclose h =>
                  refine ih _ ?_ h rfl
                  simp only [List.length_append, List.length_cons]
                  omega

theorem Builds.or_of_additive {next : Option Operator} {w : List Token} {e : Node}
    (h : Builds next (.level .additive) w e) : Builds next (.level .or) w e :=
  .operand (l := .or) (.operand (l := .and) (.operand (l := .equality)
    (.operand (l := .comparison) (.sum h))))

namespace Rule

/-- Nothing goes on behind a boolean parenthesis. -/
theorem reaches_resume_stop (hstop : t.Stops .boolFactor) :
    Reaches (resume n e) [] (t :: z) (pure e) := by
  have htest : t.isOperator arithmeticOperators = false := by
    rw [Bool.eq_false_iff, Ne, Token.isOperator_iff (by decide)]
    rintro ⟨o, hmem, ho⟩
    exact hstop o (by simp [ho]) hmem
  unfold resume
  split
  · refine reaches_peek.look ?_
    rw [htest, if_neg (by simp)]
    exact .refl _
  · exact .refl _

/-- A sum goes on behind a boolean parenthesis. -/
theorem reaches_resume_more {x : Token} {v v' : List Token} {a : Node} (ha : a.isArithmetic = true)
    (hfront : v ++ z = x :: v') (hx : x.isOperator arithmeticOperators = true)
    (h : Reaches (sumFrom n a) v z (pure e)) : Reaches (resume n a) v z (pure e) := by
  rw [resume, if_pos ha]
  refine .look (b := x) ?_ ?_
  · rw [hfront]
    exact reaches_peek
  · rw [if_pos hx]
    exact h

/-- A parenthesis is first read as a boolean one, whatever it holds. -/
theorem reaches_parenthesis {opening closing : Token} {u : List Token} {a : Node}
    (hopen : opening.terminal = .leftParen) (hclose : closing.terminal = .rightParen)
    (h : Reaches (conditionOf (boolFactor n) n) u (closing :: z) (pure a)) :
    Reaches (boolFactor (n + 1)) (opening :: u ++ [closing]) z (resume n a) := by
  refine reaches_peek.look ?_
  simp only [Token.lexeme_of_terminal hopen rfl]
  have hinner : Reaches (conditionOf (boolFactor n) n) u ([closing] ++ z) (pure a) := h
  refine (reaches_take (Token.live hopen rfl)).seq (hinner.seq ?_)
  exact (reaches_close hclose).last (.refl _)

/-- By induction on the length of the word: what stands behind `!` or in parentheses is shorter. -/
theorem reaches_boolFactor (h : Builds t.operator? .boolFactor w e) (hstop : t.Stops .boolFactor)
    (hn : w.length + 1 < n) : Reaches (boolFactor n) w (t :: z) (pure e) := by
  induction hk : w.length using Nat.strongRecOn generalizing w e n z t with
  | ind k ih =>
      subst hk
      obtain ⟨n, rfl⟩ : ∃ m, n = m + 1 := ⟨n - 1, by omega⟩
      have hcond : ∀ {u a x z}, u.length < w.length → Builds x.operator? (.level .or) u a →
          x.Stops (.level .or) → Reaches (conditionOf (boolFactor n) n) u (x :: z) (pure a) := by
        intro u a x z hu ha hx
        have hoperand : ReadsOperand .comparison (boolFactor n) (u.length + 1) :=
          fun u' a' x' z' hu' ha' hx' => ih _ (by omega) ha' hx' (by omega) rfl
        exact reaches_chain (readsOperand_or hoperand (by omega)) ha hx (by omega)
      have hparen : ∀ {opening closing u a z}, u.length < w.length →
          opening.terminal = .leftParen → closing.terminal = .rightParen →
          Builds none (.level .or) u a →
          Reaches (boolFactor (n + 1)) (opening :: u ++ [closing]) z (resume n a) := by
        intro opening closing u a z hu hopen hclose ha
        have hnone : closing.operator? = none := by simp [Token.operator?, hclose]
        exact reaches_parenthesis hopen hclose
          (hcond hu (hnone ▸ ha) (Token.stops_of_none hnone))
      cases h with
      | not hop hnext h =>
          refine reaches_peek.look ?_
          simp only [Token.lexeme_of_terminal hop rfl]
          refine (reaches_takeLeaf (Token.live hop rfl)).seq ((hcond (by simp) h ?_).last (.refl _))
          -- Negation takes all it can get, so no operator may stand behind its operand.
          intro o ho hmem
          rcases Level.or_extending o hmem with hbool | harith
          · exact hnext o ho hbool
          · exact hstop o ho harith
      | @group _ opening closing u _ hopen hclose h =>
          have hreach := (hparen (z := [] ++ t :: z) (by grind) hopen hclose h).trans
            (reaches_resume_stop hstop)
          rwa [List.append_nil] at hreach
      | sum h =>
          obtain ⟨next, u, v, a, rfl, ha, hreach, hcase⟩ := reaches_sumFrom (n := n) (z := z) h hstop
            (by omega)
          cases ha with
          -- The parenthesis that a sum begins with is read as a boolean one, and goes on as a sum.
          | paren hopen hclose ha =>
              refine (hparen (by grind) hopen hclose ha.or_of_additive).trans ?_
              rcases hcase with ⟨rfl, rfl⟩ | ⟨x, v', hfront, hx⟩
              · exact reaches_resume_stop hstop
              · exact reaches_resume_more ha.isArithmetic hfront hx hreach
          | name ht =>
              obtain ⟨text, hl⟩ := Token.exists_text ht
              refine reaches_peek.look ?_
              simp only [hl, Terminal.withText]
              exact reaches_sum h hstop (by omega)
          | number ht =>
              obtain ⟨text, hl⟩ := Token.exists_text ht
              refine reaches_peek.look ?_
              simp only [hl, Terminal.withText]
              exact reaches_sum h hstop (by omega)

theorem reaches_boolExpr (h : Builds t.operator? (.level .or) w e) (hstop : t.Stops (.level .or))
    (hn : w.length + 1 < n) : Reaches (boolExpr n) w (t :: z) (pure e) := by
  have hoperand : ReadsOperand .comparison (boolFactor n) (w.length + 1) :=
    fun u a x z hu ha hx => reaches_boolFactor ha hx (by omega)
  exact reaches_chain (readsOperand_or hoperand (by omega)) h hstop (by omega)

end Rule

/-! ## Every word has a tree -/

section Existence

variable {next : Option Operator} {l : Level} {o : Operator} {op : Token} {q u v w x : List Token}
  {a b : Node}

/-- Left recursion: one more operator and operand. -/
theorem Builds.extend (h : Builds (some o) (.level l) u a) (hop : op.terminal = .operator o)
    (hmem : o ∈ l.joins) (hb : Builds next l.operand v b) :
    ∃ e, Builds next (.level l) (u ++ op :: v) e := by
  cases h with
  | operand h => exact ⟨_, .chain (.pair h hop hmem hb)⟩
  | chain h => exact ⟨_, .chain (.more h hop hmem hb)⟩

/-- Words of the symbol stay such with `x` put in front of them, whatever follows. -/
def Prepends (s : Symbol) (x : List Token) : Prop :=
  ∀ (next : Option Operator) (w : List Token) (e : Node), Builds next s w e →
    ∃ e', Builds next s (x ++ w) e'

/-- In front of the first operand of a spine. -/
theorem Spine.prepend (hx : Prepends l.operand x) {next : Option Operator} {w : List Token}
    {children : List Node} (h : Spine next l w children) :
    ∃ children', Spine next l (x ++ w) children' := by
  match h with
  | .pair ha hop hmem hb =>
      obtain ⟨a', ha'⟩ := hx _ _ _ ha
      have hspine := Spine.pair ha' hop hmem hb
      rw [List.append_assoc] at hspine
      exact ⟨_, hspine⟩
  | .more hsub hop hmem hb =>
      obtain ⟨children', hsub'⟩ := hsub.prepend hx
      have hspine := Spine.more hsub' hop hmem hb
      rw [List.append_assoc] at hspine
      exact ⟨_, hspine⟩

/-- An operand and an operator of the same level in front of a spine. -/
theorem Spine.cons (hq : Builds (some o) l.operand q a) (hop : op.terminal = .operator o)
    (hmem : o ∈ l.joins) {next : Option Operator} {w : List Token} {children : List Node}
    (h : Spine next l w children) : ∃ children', Spine next l (q ++ op :: w) children' := by
  match h with
  | .pair ha hop' hmem' hb =>
      have hspine := Spine.more (.pair hq hop hmem ha) hop' hmem' hb
      rw [List.append_assoc, List.cons_append] at hspine
      exact ⟨_, hspine⟩
  | .more hsub hop' hmem' hb =>
      obtain ⟨children', hsub'⟩ := hsub.cons hq hop hmem
      have hspine := Spine.more hsub' hop' hmem' hb
      rw [List.append_assoc, List.cons_append] at hspine
      exact ⟨_, hspine⟩

theorem Prepends.level (hx : Prepends l.operand x) : Prepends (.level l) x := by
  intro next w e h
  cases h with
  | operand h =>
      obtain ⟨e', h'⟩ := hx _ _ _ h
      exact ⟨e', .operand h'⟩
  | chain h =>
      obtain ⟨children', h'⟩ := h.prepend hx
      exact ⟨_, .chain h'⟩

theorem prepends_operand (hq : Builds (some o) l.operand q a) (hop : op.terminal = .operator o)
    (hmem : o ∈ l.joins) : Prepends (.level l) (q ++ [op]) := by
  intro next w e h
  rw [List.append_assoc, List.singleton_append]
  cases h with
  | operand h => exact ⟨_, .chain (.pair hq hop hmem h)⟩
  | chain h =>
      obtain ⟨children', h'⟩ := h.cons hq hop hmem
      exact ⟨_, .chain h'⟩

/-- An operand that is no open negation: it is the same operand whatever follows. -/
def Plain (q : List Token) : Prop := ∀ next, ∃ a, Builds next .boolFactor q a

/-- An operand and a boolean operator can be put in front of any boolean expression: they join the
chain of the operator's level. -/
theorem Plain.prepends (hq : Plain q) (hop : op.terminal = .operator o)
    (hmem : o ∈ booleanOperators) : Prepends (.level .or) (q ++ [op]) := by
  obtain ⟨a, ha⟩ := hq (some o)
  have hcmp : Builds (some o) Level.equality.operand q a := .operand (l := .comparison) ha
  have heq : Builds (some o) Level.and.operand q a := .operand (l := .equality) hcmp
  have hand : Builds (some o) Level.or.operand q a := .operand (l := .and) heq
  simp only [booleanOperators, List.mem_append, or_assoc] at hmem
  rcases hmem with hmem | hmem | hmem | hmem
  · exact prepends_operand hand hop hmem
  · exact (prepends_operand heq hop hmem).level (l := .or)
  · exact ((prepends_operand hcmp hop hmem).level (l := .and)).level (l := .or)
  · exact (((prepends_operand (l := .comparison) ha hop hmem).level (l := .equality)).level
      (l := .and)).level (l := .or)

/-- Boolean expressions with all levels made one: operands, negations and operators in a row. -/
inductive Flat : List Token → Prop
  | plain {q : List Token} : Plain q → Flat q
  | not {op : Token} {w : List Token} : op.terminal = .operator .logicNot → Flat w → Flat (op :: w)
  | binary {o : Operator} {op : Token} {q w : List Token} :
      Plain q → op.terminal = .operator o → o ∈ booleanOperators → Flat w → Flat (q ++ op :: w)

theorem Flat.append (hu : Flat u) (hop : op.terminal = .operator o) (hmem : o ∈ booleanOperators)
    (hv : Flat v) : Flat (u ++ op :: v) := by
  induction hu with
  | plain hq => exact .binary hq hop hmem hv
  | not hnot _ ih => exact .not hnot ih
  | binary hq hop' hmem' _ ih =>
      rw [List.append_assoc, List.cons_append]
      exact .binary hq hop' hmem' ih

theorem Flat.builds (h : Flat w) (hnext : ∀ o ∈ next, o ∉ booleanOperators) :
    ∃ e, Builds next (.level .or) w e := by
  have hlift : ∀ {w e}, Builds next .boolFactor w e → Builds next (.level .or) w e := fun h =>
    .operand (l := .or) (.operand (l := .and) (.operand (l := .equality)
      (.operand (l := .comparison) h)))
  induction h with
  | plain hq =>
      obtain ⟨a, ha⟩ := hq next
      exact ⟨a, hlift ha⟩
  | not hop _ ih =>
      obtain ⟨e, he⟩ := ih
      exact ⟨_, hlift (.not hop hnext he)⟩
  | @binary o op q w hq hop hmem _ ih =>
      obtain ⟨e, he⟩ := ih
      obtain ⟨e', he'⟩ := hq.prepends hop hmem _ _ _ he
      rw [List.append_assoc, List.singleton_append] at he'
      exact ⟨e', he'⟩

end Existence

def Symbol.isArithmetic : Symbol → Bool
  | .level .additive | .level .multiplicative | .factor => true
  | _ => false

def Symbol.isBoolean : Symbol → Bool
  | .level .or | .level .and | .level .equality | .level .comparison | .boolFactor => true
  | _ => false

/-- Arithmetic is made of arithmetic. -/
theorem Level.isArithmetic_operand {l : Level} (h : (Symbol.level l).isArithmetic = true) :
    l.operand.isArithmetic = true := by
  cases l with
  | additive | multiplicative => rfl
  | or | and | equality | comparison => cases h

/-- An arithmetic word has a tree whatever follows. -/
theorem Derives.exists_builds_arithmetic {s : Symbol} {x : List Terminal} (h : Derives s x)
    (hs : s.isArithmetic = true) (next : Option Operator) {w : List Token}
    (hw : w.map Token.terminal = x) : ∃ e, Builds next s w e := by
  induction h generalizing w next with
  | @operand l x _ ih =>
      obtain ⟨e, he⟩ := ih (Level.isArithmetic_operand hs) next hw
      exact ⟨e, .operand he⟩
  | @chain l o x y _ ho _ ihu ihv =>
      obtain ⟨u, w', rfl, hu, hw'⟩ := List.map_eq_append_iff.mp hw
      obtain ⟨op, v, rfl, hop, hv⟩ := List.map_eq_cons_iff.mp hw'
      obtain ⟨a, ha⟩ := ihu hs (some o) hu
      obtain ⟨b, hb⟩ := ihv (Level.isArithmetic_operand hs) next hv
      exact ha.extend hop ho hb
  | paren _ ih =>
      obtain ⟨opening, w', rfl, hopen, hw'⟩ := List.map_eq_cons_iff.mp hw
      obtain ⟨v, w'', rfl, hv, hw''⟩ := List.map_eq_append_iff.mp hw'
      obtain ⟨closing, rfl, hclose⟩ := List.map_eq_singleton_iff.mp hw''
      obtain ⟨e, he⟩ := ih rfl none hv
      exact ⟨e, .paren hopen hclose he⟩
  | name =>
      obtain ⟨t, rfl, ht⟩ := List.map_eq_singleton_iff.mp hw
      exact ⟨_, .name ht⟩
  | number =>
      obtain ⟨t, rfl, ht⟩ := List.map_eq_singleton_iff.mp hw
      exact ⟨_, .number ht⟩
  | _ => simp [Symbol.isArithmetic] at hs

theorem Derives.flat {s : Symbol} {x : List Terminal} (h : Derives s x)
    (hs : s.isBoolean = true) {w : List Token} (hw : w.map Token.terminal = x) : Flat w := by
  induction h generalizing w with
  | @operand l x _ ih =>
      refine ih ?_ hw
      cases l <;> simp_all [Symbol.isBoolean, Level.operand]
  | @chain l o x y _ ho _ ihu ihv =>
      have hl : l.operand.isBoolean = true ∧ o ∈ booleanOperators := by
        cases l <;> simp_all [Symbol.isBoolean, Level.operand, booleanOperators]
      obtain ⟨u, w', rfl, hu, hw'⟩ := List.map_eq_append_iff.mp hw
      obtain ⟨op, v, rfl, hop, hv⟩ := List.map_eq_cons_iff.mp hw'
      exact (ihu hs hu).append hop hl.2 (ihv hl.1 hv)
  | not _ ih =>
      obtain ⟨op, v, rfl, hop, hv⟩ := List.map_eq_cons_iff.mp hw
      exact .not hop (ih rfl hv)
  | group _ ih =>
      obtain ⟨opening, w', rfl, hopen, hw'⟩ := List.map_eq_cons_iff.mp hw
      obtain ⟨v, w'', rfl, hv, hw''⟩ := List.map_eq_append_iff.mp hw'
      obtain ⟨closing, rfl, hclose⟩ := List.map_eq_singleton_iff.mp hw''
      obtain ⟨e, he⟩ : ∃ e, Builds none (.level .or) v e := (ih rfl hv).builds (by simp)
      exact .plain fun next => ⟨e, .group hopen hclose he⟩
  | sum h =>
      refine .plain fun next => ?_
      obtain ⟨e, he⟩ := h.exists_builds_arithmetic rfl next hw
      exact ⟨e, .sum he⟩
  | _ => simp [Symbol.isBoolean] at hs

theorem Derives.exists_builds {w : List Token} (h : Derives (.level .or) (w.map Token.terminal)) :
    ∃ e, Builds none (.level .or) w e :=
  (h.flat rfl rfl).builds (by simp)

/-! ## Only words have a tree -/

mutual

theorem Builds.derives {next : Option Operator} {s : Symbol} {w : List Token} {e : Node}
    (h : Builds next s w e) : Derives s (w.map Token.terminal) := by
  match h with
  | .operand h => exact .operand h.derives
  | .chain h => exact h.derives
  | .not hop _ h =>
      rw [List.map_cons, hop]
      exact .not h.derives
  | .group hopen hclose h =>
      rw [List.map_append, List.map_cons, List.map_singleton, hopen, hclose]
      exact .group h.derives
  | .sum h => exact .sum h.derives
  | .paren hopen hclose h =>
      rw [List.map_append, List.map_cons, List.map_singleton, hopen, hclose]
      exact .paren h.derives
  | .name ht =>
      rw [List.map_singleton, ht]
      exact .name
  | .number ht =>
      rw [List.map_singleton, ht]
      exact .number

theorem Spine.derives {next : Option Operator} {l : Level} {w : List Token} {children : List Node}
    (h : Spine next l w children) : Derives (.level l) (w.map Token.terminal) := by
  match h with
  | .pair ha hop hmem hb =>
      rw [List.map_append, List.map_cons, hop]
      exact .chain (.operand ha.derives) hmem hb.derives
  | .more hsub hop hmem hb =>
      rw [List.map_append, List.map_cons, hop]
      exact .chain hsub.derives hmem hb.derives

end

def Symbol.isExpression (s : Symbol) : Bool := s.isArithmetic || s.isBoolean

theorem Level.operand_isExpression (l : Level) : l.operand.isExpression = true := by
  cases l <;> rfl

theorem Level.assign_notMem (l : Level) : Operator.assign ∉ l.joins := by
  cases l <;> decide

/-- An expression begins with a negation, a parenthesis, a name or a number. -/
theorem Derives.front {s : Symbol} {x : List Terminal} (h : Derives s x)
    (hs : s.isExpression = true) :
    ∃ c y, x = c :: y ∧ c ∈ [.operator .logicNot, .leftParen, .identifier, .number] := by
  induction h with
  | @operand l x _ ih => exact ih l.operand_isExpression
  | chain _ _ _ ih _ =>
      obtain ⟨c, y, rfl, hc⟩ := ih hs
      exact ⟨c, _, rfl, hc⟩
  | not | group | paren | name | number => exact ⟨_, _, rfl, by simp⟩
  | sum _ ih => exact ih rfl
  | _ => simp [Symbol.isExpression, Symbol.isArithmetic, Symbol.isBoolean] at hs

/-- No expression holds an equals sign. -/
theorem Derives.assign_notMem {s : Symbol} {x : List Terminal} (h : Derives s x)
    (hs : s.isExpression = true) : Terminal.operator .assign ∉ x := by
  induction h with
  | @operand l x _ ih => exact ih l.operand_isExpression
  | @chain l o _ _ _ ho _ ihu ihv =>
      have hne : Operator.assign ≠ o := fun heq => l.assign_notMem (heq ▸ ho)
      simp [ihu hs, ihv l.operand_isExpression, hne]
  | not _ ih | group _ ih | paren _ ih => simpa using ih rfl
  | name | number => simp
  | sum _ ih => exact ih rfl
  | _ => simp [Symbol.isExpression, Symbol.isArithmetic, Symbol.isBoolean] at hs

theorem Builds.live {next : Option Operator} {s : Symbol} {w : List Token} {e : Node}
    (h : Builds next s w e) : ∀ t ∈ w, t.atEnd = false := by
  intro t ht
  refine Token.atEnd_eq_false fun hend => h.derives.endOfStream_notMem ?_
  rw [← hend]
  exact List.mem_map_of_mem ht

/-! ## The parser builds the trees of the grammar -/

/-- Looking at all of a word and an end mark, with nothing more to come. -/
theorem Parser.shows_of_ahead (w : List Token) :
    Parser.Shows { reader := Reader.new [] "", ahead := w } w :=
  ⟨[], _, .nil _, by simp⟩

/-- A word has one tree, because the parser builds it. -/
theorem Builds.unique {w : List Token} {e e' : Node} (h : Builds none (.level .or) w e)
    (h' : Builds none (.level .or) w e') : e = e' := by
  let mark : Token := { lexeme := .endOfStream none }
  have hstop : mark.Stops (.level .or) := Token.stops_of_none rfl
  have hreach := Rule.reaches_boolExpr (t := mark) (z := []) h hstop (Nat.lt_succ_self _)
  have hreach' := Rule.reaches_boolExpr (t := mark) (z := []) h' hstop (Nat.lt_succ_self _)
  exact hreach.unique hreach' (Parser.shows_of_ahead (w ++ [mark]))

/-- Started on `w` and a token that is no operator, a boolean expression is read with exactly `w`
taken if and only if `w` makes its tree in the left-recursive grammar; and that tree is the only one
of `w`. -/
theorem boolExpr_takes_iff_builds {p : Parser} {w : List Token} {t : Token} {n : Nat}
    (hshows : p.Shows (w ++ [t])) (ht : t.operator? = none) (hn : p.left + 1 < n) :
    (∀ e, (∃ p', Rule.boolExpr n p = .ok e p' ∧ p.Took w p') ↔ Builds none (.level .or) w e) ∧
      ∀ e e', Builds none (.level .or) w e → Builds none (.level .or) w e' → e = e' := by
  have hrun : ∀ e, Builds none (.level .or) w e →
      ∃ p', Rule.boolExpr n p = .ok e p' ∧ p.Took w p' := by
    intro e h
    have hlen := (hshows.of_isPrefix (List.prefix_append w [t])).length_le_left h.live
    obtain ⟨p', htook, heq⟩ :=
      Rule.reaches_boolExpr (n := n) (ht ▸ h) (Token.stops_of_none ht) (by omega) p hshows
    exact ⟨p', heq, htook⟩
  refine ⟨fun e => ⟨?_, hrun e⟩, fun e e' h h' => h.unique h'⟩
  rintro ⟨p', heq, htook⟩
  have hword : Derives (.level .or) (w.map Token.terminal) := by
    have hreads := Rule.reads_boolExpr (m := p.ahead.length) hn p.ahead (Nat.le_succ _) p rfl
      (.left p)
    rw [heq] at hreads
    cases hreads with
    | ok htook' _ hword =>
        rw [htook.unique htook']
        exact hword
  obtain ⟨e', h'⟩ := hword.exists_builds
  obtain ⟨q, heq', -⟩ := hrun e' h'
  rw [heq] at heq'
  rw [(EStateM.Result.ok.inj heq').1]
  exact h'

/-- `((a)) * b > c`, before a semicolon: the parentheses are closed as boolean ones, then the product
goes on from them and the comparison from the product. -/
theorem boolExpr_takes_nested_parentheses :
    let sign (l : Lexeme) : Token := { lexeme := l }
    let name (b : UInt8) : Token := sign (.identifier (some [b]))
    let opening := sign (.bracket .leftParenthesis)
    let closing := sign (.bracket .rightParenthesis)
    let w := [opening, opening, name 97, closing, closing, sign (.operator .mul), name 98,
      sign (.operator .greater), name 99]
    let p : Parser := { reader := Reader.new [] "", ahead := w ++ [sign (.semicolon none)] }
    p.left + 1 < 12 ∧ ∃ p', p.Took w p' ∧
      Rule.boolExpr 12 p = .ok
        (.branch .boolExprCmp
          [.branch .exprMul [.leaf (name 97), .leaf (sign (.operator .mul)), .leaf (name 98)],
            .leaf (sign (.operator .greater)), .leaf (name 99)]) p' := by
  intro sign name opening closing w p
  have hinner : Builds none (.level .additive) [opening, name 97, closing] (.leaf (name 97)) :=
    .operand (l := .additive) (.operand (l := .multiplicative) (.paren (w := [name 97]) rfl rfl
      (.operand (l := .additive) (.operand (l := .multiplicative) (.name rfl)))))
  have hproduct : Builds (some .greater) .boolFactor
      [opening, opening, name 97, closing, closing, sign (.operator .mul), name 98]
      (.branch .exprMul [.leaf (name 97), .leaf (sign (.operator .mul)), .leaf (name 98)]) :=
    .sum (.operand (l := .additive) (.chain (l := .multiplicative)
      (.pair (u := [opening, opening, name 97, closing, closing]) (o := .mul)
        (.paren (w := [opening, name 97, closing]) rfl rfl hinner) rfl (by decide) (.name rfl))))
  have hthird : Builds none .boolFactor [name 99] (.leaf (name 99)) :=
    .sum (.operand (l := .additive) (.operand (l := .multiplicative) (.name rfl)))
  have hword : Builds none (.level .or) w (.branch .boolExprCmp
      [.branch .exprMul [.leaf (name 97), .leaf (sign (.operator .mul)), .leaf (name 98)],
        .leaf (sign (.operator .greater)), .leaf (name 99)]) :=
    .operand (l := .or) (.operand (l := .and) (.operand (l := .equality) (.chain (l := .comparison)
      (.pair (u := [opening, opening, name 97, closing, closing, sign (.operator .mul), name 98])
        hproduct rfl (by decide) hthird))))
  have hleft : p.left + 1 < 12 := by decide
  obtain ⟨p', hrun, htook⟩ := ((boolExpr_takes_iff_builds (Parser.shows_of_ahead _) rfl hleft).1
    _).mpr hword
  exact ⟨hleft, p', htook, hrun⟩

end MiniC
