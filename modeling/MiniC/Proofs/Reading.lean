/-
# MiniC.Proofs.Reading — every rule reads words of its symbol.

One contract for each rule of the parser, in the order of the rules.  The budget a rule needs is
counted in tokens left: a factor and a loop need one more than that, everything that can hold a
boolean expression needs two more.

A boolean expression also has to say when its word is arithmetic, because a parenthesis read as a
boolean one may have to be continued as a factor (`Contract.expression`).  It is the only place
where what a rule gives back decides how reading goes on.
-/
import MiniC.Proofs.Contract

namespace MiniC

/-- A sign, a size and then `int` or nothing. -/
theorem TypeWords.sized_mem : ∀ us ∈ signs, ∀ vs ∈ sizes, ∀ base ∈ [[], [.int]], vs ≠ [] →
    us ++ vs ++ base ∈ object := by
  decide

/-- Without a size there has to be some word, and it may be `char`. -/
theorem TypeWords.unsized_mem : ∀ us ∈ signs, ∀ base ∈ [[], [.int], [.char]], us ++ base ≠ [] →
    us ++ base ∈ object := by
  decide

/-- Only a source, a list of arguments and a clause may be empty. -/
theorem Derives.ne_nil {s : Symbol} {w : List Terminal} (h : Derives s w)
    (hs : s ∉ [.translationUnit, .argList, .forClause]) : w ≠ [] := by
  induction h with
  | @operand l _ _ ih => exact ih (by cases l <;> decide)
  | global _ ih | blockStmt _ ih | localVariables _ ih | sum _ ih => exact ih (by decide)
  | unit | noArgs | voidArgs | args | noClause | assignClause | exprClause => simp at hs
  | _ => simp

theorem Derives.unit_nil : Derives .translationUnit [] := Derives.unit (List.forall_mem_nil _)

theorem Derives.unit_cons {w v : List Terminal} (hw : Derives .item w)
    (hv : Derives .translationUnit v) : Derives .translationUnit (w ++ v) := by
  cases hv with
  | unit hvs => exact Derives.unit (List.forall_mem_cons.mpr ⟨hw, hvs⟩)

/-- An operator of the level and an operand. -/
def Link (l : Level) (w : List Terminal) : Prop :=
  ∃ o v, o ∈ l.joins ∧ Derives l.operand v ∧ w = .operator o :: v

/-- A chain of links behind an operand is again a word of the level. -/
theorem Derives.links {l : Level} {u w : List Terminal} (hu : Derives (.level l) u)
    (hw : Many (Link l) w) : Derives (.level l) (u ++ w) := by
  obtain ⟨ws, hws, rfl⟩ := hw
  induction ws generalizing u with
  | nil => simpa using hu
  | cons w ws ih =>
      obtain ⟨o, v, ho, hv, rfl⟩ := hws w (by simp)
      have hstep := ih (hu.chain ho hv) fun x hx => hws x (List.mem_cons_of_mem _ hx)
      simpa using hstep

/-- Arithmetic at any level is a sum. -/
theorem Derives.additive_of_level {l : Level} {w : List Terminal} (h : Derives (.level l) w)
    (harith : l.kind.isArithmetic = true) : Derives (.level .additive) w := by
  cases l with
  | additive => exact h
  | multiplicative => exact .operand h
  | or | and | equality | comparison => simp [Level.kind, NodeKind.isArithmetic] at harith

theorem Derives.additive_of_factor {w : List Terminal} (h : Derives .factor w) :
    Derives (.level .additive) w :=
  .operand (l := .additive) (.operand (l := .multiplicative) h)

theorem Derives.or_of_additive {w : List Terminal} (h : Derives (.level .additive) w) :
    Derives (.level .or) w :=
  .operand (l := .or) (.operand (l := .and) (.operand (l := .equality)
    (.operand (l := .comparison) (.sum h))))

/-- The words of a symbol; if the node is arithmetic, so is the word. -/
def Contract.expression (s : Symbol) : Contract Node where
  reads w e := Derives s w ∧ (e.isArithmetic = true → Derives (.level .additive) w)

instance {s : Symbol} : (Contract.expression s).Prompt := ⟨fun _ => id⟩

/-- Links of a level after a first operand: with no link the operand stands for itself. -/
def Contract.links (l : Level) (first : Node) : Contract Node where
  reads w e := Many (Link l) w ∧ (w = [] ∧ e = first ∨ e.kind = l.kind)

instance {l : Level} {first : Node} : (Contract.links l first).Prompt := ⟨fun _ => id⟩

/-- At most one of the keywords, and a leaf for it. -/
def Contract.optional (among : List Keyword) : Contract (List Node) where
  reads w nodes := ∃ us ∈ [] :: among.map ([·]), w = us.map .keyword ∧
    ∃ ts : List Token, nodes = ts.map .leaf ∧ ts.length = us.length

instance {among : List Keyword} : (Contract.optional among).Prompt := ⟨fun _ => id⟩

/-- A type has a first word, by which `void` is told from the others. -/
def Node.HasFirstWord (type : Node) : Prop := ∃ t, type.children.head?.bind Node.token = some t

theorem Node.hasFirstWord_of_leaves {ts : List Token} (h : ts ≠ []) :
    HasFirstWord (.branch .variableType (ts.map .leaf)) := by
  cases ts with
  | nil => exact absurd rfl h
  | cons t ts => exact ⟨t, rfl⟩

/-- The type of a variable or an argument. -/
def Contract.objectType : Contract Node where
  reads w type := (∃ us ∈ TypeWords.object, w = us.map .keyword) ∧ type.HasFirstWord

instance : Contract.objectType.Prompt := ⟨fun _ => id⟩

/-- A type; `void`, where it is allowed, can be told by its node. -/
def Contract.type (allowVoid : Bool) : Contract Node where
  reads w type := ((∃ us ∈ TypeWords.object, w = us.map .keyword) ∨
    allowVoid = true ∧ w = [.keyword .void] ∧ Rule.isVoid type = true) ∧ type.HasFirstWord

instance {allowVoid : Bool} : (Contract.type allowVoid).Prompt := ⟨fun _ => id⟩

/-- One top-level item. -/
def Contract.item : Contract Node where
  reads w _ := Derives .item w
  late u := ∃ us ∈ TypeWords.result, u = us.map .keyword ++ [.identifier, .leftParen]

/-- The word ends with the bracket that opens the arguments of a function. -/
def OpensArguments (u : List Terminal) : Prop :=
  ∃ w us, Derives .translationUnit w ∧ us ∈ TypeWords.result ∧
    u = w ++ (us.map .keyword ++ [.identifier, .leftParen])

/-- A whole source. -/
def Contract.unit : Contract (List Node) where
  reads w _ := Derives .translationUnit w
  late := OpensArguments

namespace Rule

variable {m k n : Nat} {a : List Token} {l : Level} {operand : Rule Node} {x y : Token}

/-! ## Chains -/

/-- One round of a chain: an operator of the level and one more operand. -/
theorem readsRound_link (hoperand : Reads m k operand (.expression l.operand)) :
    ReadsRound m k (peek >>= fun t => pure (t.isOperator l.operators))
      (takeLeaf >>= fun op => operand >>= fun e => pure [op, e]) (Link l) := by
  refine readsRound_peek fun t a ha ht => ?_
  obtain ⟨o, ho, hmem⟩ : ∃ o, t.lexeme = .operator o ∧ o ∈ l.operators := by
    cases hl : t.lexeme with
    | operator o => cases l <;> simp_all [Token.isOperator, Level.operators]
    | _ => simp [Token.isOperator, hl] at ht
  refine readsAt_takeLeaf_bind (c := .operator o) (congrArg Lexeme.terminal ho) rfl fun j hj => ?_
  refine ((hoperand.of_le (by omega)).bind ?_).at_tail ha
  rintro v e ⟨hv, -⟩
  exact reads_pure ⟨⟨o, v, Level.mem_operators.mp hmem, hv, by simp⟩, by simp⟩

/-- A chain behind its first operand. -/
theorem reads_chainFrom (hoperand : Reads m k operand (.expression l.operand)) (hk : k < n)
    (first : Node) : Reads m k (chainFrom l operand n first) (.links l first) := by
  have hpos : ∀ w, Link l w → w ≠ [] := by
    rintro w ⟨o, v, -, -, rfl⟩
    simp
  have hround : ∀ j ≤ k, ReadsRound m j (peek >>= fun t => pure (t.isOperator l.operators))
      (takeLeaf >>= fun op => operand >>= fun e => pure [op, e]) (Link l) :=
    fun j hj => readsRound_link (hoperand.of_le hj)
  refine (reads_repeatWhile hpos hround (fun _ _ _ => id) hk).bind ?_
  rintro w nodes ⟨hw, hnil⟩
  refine reads_pure ⟨by simpa using hw, ?_⟩
  cases nodes with
  | nil => exact .inl ⟨by simpa using (hnil rfl).2, rfl⟩
  | cons m nodes => exact .inr rfl

/-- A chain from what its operand reads, also where the operand finds a second token looked at. -/
theorem ReadsAt.chain (hfirst : ReadsAt m a k operand (.expression l.operand))
    (hlater : Reads m k operand (.expression l.operand)) (hk : k < n) :
    ReadsAt m a k (chain l operand n) (.expression (.level l)) := by
  refine hfirst.bind ?_
  rintro u e ⟨hu, harith⟩
  refine (reads_chainFrom (hlater.of_le (Nat.sub_le k _)) (by omega) e).mono ?_
  rintro w e' ⟨hw, hcase⟩
  have hword : Derives (.level l) (u ++ w) := (Derives.operand hu).links hw
  refine ⟨hword, fun he => ?_⟩
  rcases hcase with ⟨rfl, rfl⟩ | hkind
  · simpa using harith he
  · rw [Node.isArithmetic, hkind] at he
    exact hword.additive_of_level he

theorem Reads.chain (h : Reads m k operand (.expression l.operand)) (hk : k < n) :
    Reads m k (chain l operand n) (.expression (.level l)) :=
  fun a ha => (h a ha).chain h hk

/-! ## Arithmetic -/

/-- The first factor may start at tokens read ahead; all later ones start afresh. -/
theorem ReadsAt.sumOf (hfirst : ReadsAt m a k operand (.expression .factor))
    (hlater : Reads m k operand (.expression .factor)) (hk : k < n) :
    ReadsAt m a k (sumOf operand n) (.expression (.level .additive)) :=
  (hfirst.chain hlater hk).chain (hlater.chain hk) hk

/-- The body of a factor.  Parentheses take a token before the inner factors, which is what lets
`inner` read only words of fewer tokens. -/
theorem reads_factorOf {inner : Rule Node} (hinner : ∀ j < k, Reads m j inner (.expression .factor))
    (hk : k ≤ n) : Reads m k (factorOf n inner) (.expression .factor) := by
  refine reads_peek_bind fun t a ha => ?_
  split
  · next ht =>
    refine readsAt_open_bind ht rfl fun j hj hopen => ?_
    have hsum : Reads m j (Rule.sumOf inner n) (.expression (.level .additive)) := fun b hb =>
      ReadsAt.sumOf (hinner j (by omega) b hb) (hinner j (by omega)) (by omega)
    refine (hsum.bind ?_).at_tail ha
    rintro w value ⟨hw, -⟩
    refine reads_close_bind hopen (reads_pure ?_)
    have hparen := Derives.paren hw
    exact ⟨by simpa using hparen, fun _ => by simpa using hparen.additive_of_factor⟩
  · next ht =>
    refine readsAt_takeLeaf (c := .identifier) (congrArg Lexeme.terminal ht) rfl (by omega) ?_
    exact ⟨.name, fun _ => Derives.name.additive_of_factor⟩
  · next ht =>
    refine readsAt_takeLeaf (c := .number) (congrArg Lexeme.terminal ht) rfl (by omega) ?_
    exact ⟨.number, fun _ => Derives.number.additive_of_factor⟩
  -- A number could stand here, so what came before was the beginning of a word.
  · exact readsAt_refuse ha ⟨[.number], .leaf t, .number, fun _ => Derives.number.additive_of_factor⟩

/-- By induction on the budget: each pair of parentheses costs one, and at least one token. -/
theorem reads_factor (hk : k < n) : Reads m k (factor n) (.expression .factor) := by
  induction n generalizing k with
  | zero => omega
  | succ n ih => exact reads_factorOf (fun j hj => ih (by omega)) (by omega)

/-- A name in front is a factor, even if the token behind it has been looked at. -/
theorem readsAt_factor (hx : x.kind = .identifier) (hn : 0 < n) (ha : a.length ≤ m) :
    ReadsAt m (x :: y :: a) k (factor n) (.expression .factor) := by
  obtain ⟨n, rfl⟩ : ∃ m, n = m + 1 := ⟨n - 1, by omega⟩
  have hterm : x.terminal = .identifier := Lexeme.terminal_of_kind hx (by decide)
  obtain ⟨text, hl⟩ := Token.exists_text hterm
  refine readsAt_peek_bind ?_
  simp only [hl, Terminal.withText]
  refine readsAt_takeLeaf hterm rfl (Nat.succ_le_succ ha) ?_
  exact ⟨.name, fun _ => Derives.name.additive_of_factor⟩

theorem reads_sum (hk : k < n) : Reads m k (sum n) (.expression (.level .additive)) :=
  fun a ha => ReadsAt.sumOf (reads_factor hk a ha) (reads_factor hk) hk

/-- A sum goes on from a factor that has been read. -/
theorem reads_sumFrom (hk : k < n) (first : Node) {u : List Terminal} (hu : Derives .factor u)
    {C : Contract Node} (hC : ∀ w e, Derives (.level .additive) (u ++ w) → C.reads w e) :
    Reads m k (sumFrom n first) C := by
  refine (reads_chainFrom (reads_factor hk) hk first).bind ?_
  rintro v product ⟨hv, -⟩
  have hproduct : Derives (.level .multiplicative) (u ++ v) :=
    (Derives.operand (l := .multiplicative) hu).links hv
  have hfactor : Reads m (k - v.length) (factor n) (.expression .factor) :=
    reads_factor (by omega)
  refine (reads_chainFrom (hfactor.chain (by omega)) (by omega) product).mono ?_
  rintro w e ⟨hw, -⟩
  have hsum : Derives (.level .additive) (u ++ v ++ w) :=
    (Derives.operand (l := .additive) hproduct).links hw
  exact hC (v ++ w) e (by simpa using hsum)

/-! ## Boolean expressions -/

theorem ReadsAt.conditionOf (hfirst : ReadsAt m a k operand (.expression .boolFactor))
    (hlater : Reads m k operand (.expression .boolFactor)) (hk : k < n) :
    ReadsAt m a k (conditionOf operand n) (.expression (.level .or)) := by
  have hcmp := hfirst.chain (l := .comparison) hlater hk
  have hcmp' := hlater.chain (l := .comparison) hk
  have heq := hcmp.chain (l := .equality) hcmp' hk
  have heq' := hcmp'.chain (l := .equality) hk
  have hand := heq.chain (l := .and) heq' hk
  exact hand.chain (l := .or) (heq'.chain (l := .and) hk) hk

/-- Behind a parenthesis: if it holds arithmetic, it may go on as a factor of a sum. -/
theorem reads_resume {inner : Node} {u : List Terminal} (hk : k < n) (hu : Derives (.level .or) u)
    (harith : inner.isArithmetic = true → Derives (.level .additive) u) :
    Reads m k (resume n inner)
      ((Contract.expression .boolFactor).after (.leftParen :: u ++ [.rightParen])) := by
  have hgroup := Derives.group hu
  by_cases he : inner.isArithmetic = true
  · have hparen := Derives.paren (harith he)
    rw [resume, if_pos he]
    refine reads_peek_bind fun t a ha => ?_
    by_cases hop : t.isOperator arithmeticOperators = true
    · rw [if_pos hop]
      refine (reads_sumFrom hk inner hparen ?_).at_cons ha
      intro v e hv
      exact ⟨.sum hv, fun _ => hv⟩
    · rw [if_neg hop]
      refine Reads.at_cons (reads_pure ⟨by simpa using hgroup, fun _ => ?_⟩) ha
      simpa using hparen.additive_of_factor
  · rw [resume, if_neg he]
    exact reads_pure ⟨by simpa using hgroup, fun h => absurd h he⟩

/-- The body of a boolean factor, with the inner ones on fewer tokens as before. -/
theorem reads_boolFactorOf {inner : Rule Node}
    (hinner : ∀ j < k, Reads m j inner (.expression .boolFactor)) (hk : k < n) :
    Reads m k (boolFactorOf n inner) (.expression .boolFactor) := by
  have hcond : ∀ j < k, Reads m j (Rule.conditionOf inner n) (.expression (.level .or)) :=
    fun j hj b hb => ReadsAt.conditionOf (hinner j hj b hb) (hinner j hj) (by omega)
  refine reads_peek_bind fun t a ha => ?_
  split
  · next ht =>
    refine readsAt_takeLeaf_bind (c := .operator .logicNot) (congrArg Lexeme.terminal ht) rfl
      fun j hj => ?_
    refine ((hcond j (by omega)).bind ?_).at_tail ha
    rintro w operand ⟨hw, -⟩
    refine reads_pure ⟨by simpa using Derives.not hw, fun he => ?_⟩
    simp [Node.isArithmetic, Node.branch, NodeKind.isArithmetic] at he
  · next ht =>
    refine readsAt_open_bind ht rfl fun j hj hopen => ?_
    refine ((hcond j (by omega)).bind ?_).at_tail ha
    rintro w value ⟨hw, harith⟩
    refine reads_close_bind hopen ?_
    refine (reads_resume (by omega) hw harith).mono ?_
    rintro v e ⟨hv, he⟩
    exact ⟨by simpa using hv, fun h => by simpa using he h⟩
  · refine ((reads_sum hk).mono ?_).at_cons ha
    rintro w e ⟨hw, -⟩
    exact ⟨.sum hw, fun _ => hw⟩

theorem reads_boolFactor (hk : k + 1 < n) : Reads m k (boolFactor n) (.expression .boolFactor) := by
  induction n generalizing k with
  | zero => omega
  | succ n ih => exact reads_boolFactorOf (fun j hj => ih (by omega)) (by omega)

/-- Two tokens read ahead, the first a name: what a clause of a `for` has when it turns out to be no
assignment. -/
theorem readsAt_boolFactor (hx : x.kind = .identifier) (hk : k + 1 < n) (ha : a.length ≤ m) :
    ReadsAt m (x :: y :: a) k (boolFactor n) (.expression .boolFactor) := by
  obtain ⟨n, rfl⟩ : ∃ m, n = m + 1 := ⟨n - 1, by omega⟩
  have hterm : x.terminal = .identifier := Lexeme.terminal_of_kind hx (by decide)
  obtain ⟨text, hl⟩ := Token.exists_text hterm
  refine readsAt_peek_bind ?_
  simp only [hl, Terminal.withText]
  refine (ReadsAt.sumOf (readsAt_factor hx (by omega) ha) (reads_factor (by omega))
    (by omega)).mono ?_
  rintro w e ⟨hw, -⟩
  exact ⟨.sum hw, fun _ => hw⟩

theorem reads_boolExpr (hk : k + 1 < n) : Reads m k (boolExpr n) (.symbol (.level .or)) :=
  fun a ha => (ReadsAt.conditionOf (reads_boolFactor hk a ha) (reads_boolFactor hk)
    (by omega)).mono (fun _ _ h => h.1)

/-- A boolean expression that opens with a name, the token behind the name having been looked
at. -/
theorem readsAt_boolExpr (hx : x.kind = .identifier) (hk : k + 1 < n) (ha : a.length ≤ m) :
    ReadsAt m (x :: y :: a) k (boolExpr n) (.symbol (.level .or)) :=
  (ReadsAt.conditionOf (readsAt_boolFactor hx hk ha) (reads_boolFactor hk)
    (by omega)).mono (fun _ _ h => h.1)

/-! ## Types -/

theorem reads_optionalKeyword {among : List Keyword} (hne : among ≠ []) :
    Reads m k (optionalKeyword among) (.optional among) := by
  refine reads_peek_bind fun t a ha => ?_
  by_cases h : t.isKeyword among = true
  · rw [if_pos h]
    obtain ⟨word, ht, hmem⟩ : ∃ word, t.lexeme = .keyword word ∧ word ∈ among := by
      cases hl : t.lexeme with
      | keyword word => simp_all [Token.isKeyword]
      | _ => simp [Token.isKeyword, hl] at h
    refine readsAt_takeLeaf_bind (c := .keyword word) (congrArg Lexeme.terminal ht) rfl
      fun j _ => (reads_pure ?_).at_tail ha
    exact ⟨[word], by simpa using hmem, rfl, [t], rfl, rfl⟩
  · rw [if_neg h]
    exact Reads.at_cons (reads_pure ⟨[], by simp, rfl, [], rfl, rfl⟩) ha

/-- Both cases of a keyword that may be there.  The rest reads what goes with the words so far. -/
theorem reads_optional_bind {α : Type} {C : Contract α} {word : Keyword}
    {f : List Node → Rule α}
    (hsome : ∀ t : Token, Reads m (k - 1) (f [.leaf t]) (C.after [.keyword word]))
    (hnone : Reads m k (f []) C) : Reads m k (optionalKeyword [word] >>= f) C := by
  refine (reads_optionalKeyword (by simp)).bind ?_
  rintro w nodes ⟨us, hus, rfl, ts, rfl, hlen⟩
  simp only [List.map_cons, List.map_nil, List.mem_cons, List.not_mem_nil, or_false] at hus
  rcases hus with rfl | rfl
  · obtain rfl : ts = [] := List.eq_nil_of_length_eq_zero hlen
    exact hnone
  · obtain ⟨t, rfl⟩ := List.length_eq_one_iff.mp hlen
    exact hsome t

/-- The end of an integer type of which `us` has been read. -/
theorem reads_integerBase {parts : List Token} {sized : Bool} {us : List Keyword}
    (hparts : parts.length = us.length)
    (htype : ∀ base ∈ [] :: (if sized then [Keyword.int] else [.int, .char]).map ([·]),
      us ++ base ≠ [] → us ++ base ∈ TypeWords.object) :
    Reads m k (integerBase (parts.map .leaf) sized)
      (Contract.objectType.after (us.map .keyword)) := by
  refine (reads_optionalKeyword (by cases sized <;> simp)).bind ?_
  rintro w base ⟨vs, hvs, rfl, ts, rfl, hbase⟩
  rw [Contract.after_after, ← List.map_append, ← List.map_append]
  have hlen : (parts ++ ts).length = (us ++ vs).length := by simp [hparts, hbase]
  by_cases hempty : parts ++ ts = []
  · have hnil : us ++ vs = [] := by
      rw [hempty] at hlen
      exact List.eq_nil_of_length_eq_zero hlen.symm
    rw [hempty, hnil]
    refine reads_peek_bind fun t a ha => readsAt_refuse ha ?_
    refine ⟨[.keyword .int], .branch .variableType [.leaf t], ?_⟩
    exact ⟨⟨[.int], by decide, rfl⟩, t, rfl⟩
  · have hfalse : ((parts ++ ts).map Node.leaf).isEmpty = false := by simpa using hempty
    have hne : us ++ vs ≠ [] := by
      intro hnil
      rw [hnil] at hlen
      exact hempty (List.eq_nil_of_length_eq_zero hlen)
    simp only [hfalse, Bool.false_eq_true, if_false]
    exact reads_pure ⟨⟨us ++ vs, htype vs hvs hne, by simp⟩, Node.hasFirstWord_of_leaves hempty⟩

/-- A sign, a size and a base, each read in its turn if it is there. -/
theorem reads_sizedType : Reads m k sizedType .objectType := by
  refine (reads_optionalKeyword (by simp)).bind ?_
  rintro w sign ⟨us, hus, rfl, ss, rfl, hsign⟩
  replace hus : us ∈ TypeWords.signs := hus
  have hsized : ∀ ts : List Token, ∀ vs ∈ TypeWords.sizes, vs ≠ [] → ts.length = vs.length →
      ∀ j, Reads m j (integerBase (ss.map .leaf ++ ts.map .leaf) true)
        (Contract.objectType.after ((us ++ vs).map .keyword)) := by
    intro ts vs hvs hne hlen j
    rw [← List.map_append]
    refine reads_integerBase (by simp [hsign, hlen]) ?_
    intro base hbase _
    exact TypeWords.sized_mem us hus vs hvs base hbase hne
  refine reads_optional_bind (fun t => ?_) (reads_optional_bind (fun t => ?_) ?_)
  · rw [Contract.after_after]
    simpa using hsized [t] [.short] (by decide) (by decide) rfl _
  · have hlong : ∀ j, Reads m j (integerBase (ss.map .leaf ++ [.leaf t]) true)
        ((Contract.objectType.after (us.map .keyword)).after [.keyword .long]) := by
      intro j
      rw [Contract.after_after]
      simpa using hsized [t] [.long] (by decide) (by decide) rfl j
    refine reads_optional_bind (fun t' => ?_) ?_
    · rw [Contract.after_after, Contract.after_after]
      simpa using hsized [t, t'] [.long, .long] (by decide) (by decide) rfl _
    -- Only a type without a sign may go on with `double`.
    · cases ss with
      | nil =>
          obtain rfl : us = [] := List.eq_nil_of_length_eq_zero hsign.symm
          refine reads_optional_bind (fun t' => reads_pure ?_) (hlong _)
          exact ⟨⟨[.long, .double], by decide, rfl⟩, t, rfl⟩
      | cons s ss => exact hlong _
  · exact reads_integerBase hsign (TypeWords.unsized_mem us hus)

/-- A type of one word, `void` where it is allowed, or a sized integer. -/
theorem reads_variableType {allowVoid : Bool} :
    Reads m k (variableType allowVoid) (.type allowVoid) := by
  refine reads_peek_bind fun t a ha => ?_
  split
  · next ht =>
    refine readsAt_takeLeaf_bind (c := .keyword .float) (congrArg Lexeme.terminal ht) rfl
      fun j _ => (reads_pure ?_).at_tail ha
    exact ⟨.inl ⟨[.float], by decide, rfl⟩, t, rfl⟩
  · next ht =>
    refine readsAt_takeLeaf_bind (c := .keyword .double) (congrArg Lexeme.terminal ht) rfl
      fun j _ => (reads_pure ?_).at_tail ha
    exact ⟨.inl ⟨[.double], by decide, rfl⟩, t, rfl⟩
  · next ht =>
    cases allowVoid with
    | true =>
        refine readsAt_takeLeaf_bind (c := .keyword .void) (congrArg Lexeme.terminal ht) rfl
          fun j _ => (reads_pure ?_).at_tail ha
        refine ⟨.inr ⟨rfl, rfl, ?_⟩, t, rfl⟩
        simp [isVoid, Node.branch, Node.leaf, Token.isKeyword, ht]
    | false =>
        refine readsAt_refuse ha ⟨[.keyword .int], .branch .variableType [.leaf t], ?_⟩
        exact ⟨.inl ⟨[.int], by decide, rfl⟩, t, rfl⟩
  · have hsized : Reads m k sizedType (.type allowVoid) :=
      reads_sizedType.mono fun _ _ h => ⟨.inl h.1, h.2⟩
    exact hsized.at_cons ha

theorem reads_objectType : Reads m k (variableType false) .objectType := by
  refine reads_variableType.mono ?_
  rintro w type ⟨h | ⟨hfalse, -⟩, hfirst⟩
  · exact ⟨h, hfirst⟩
  · simp at hfalse

/-! ## Variables and arguments -/

/-- The names after the first, and the semicolon. -/
def namesRest (w : List Terminal) : Prop :=
  ∃ others, w = (List.replicate others [.comma, .identifier]).flatten ++ [.semicolon]

theorem reads_variableRest {type first : Node} (hk : k < n) :
    Reads m k (variableRest type first n) { reads := fun w _ => namesRest w } := by
  have hround : ∀ j ≤ k, ReadsRound m j takeComma
      (expectIdentifier .identifier >>= fun e => pure [e])
      fun w => ∃ v, v = [.identifier] ∧ w = .comma :: v :=
    fun j _ => readsRound_comma fun b hb => ReadsAt.once (reads_expectIdentifier b hb)
  refine (reads_repeatWhile ?_ hround (fun _ _ _ => id) hk).bind ?_
  · rintro w ⟨v, -, rfl⟩
    simp
  · rintro w others ⟨⟨ws, hws, rfl⟩, -⟩
    refine reads_expectSemicolon.word_bind fun _ => reads_pure ⟨ws.length, ?_⟩
    have hsame : ws = List.replicate ws.length [.comma, .identifier] := by
      refine List.eq_replicate_iff.mpr ⟨rfl, fun w hw => ?_⟩
      obtain ⟨v, rfl, hv⟩ := hws w hw
      exact hv
    rw [← hsame]
    simp

/-- A type, a name, more names and a semicolon. -/
theorem reads_variableDefine (hk : k < n) :
    Reads m k (variableDefine n) (.symbol .variableDefine) := by
  refine reads_objectType.bind ?_
  rintro w type ⟨⟨us, hus, rfl⟩, -⟩
  refine reads_expectIdentifier.word_bind fun first => ?_
  refine (reads_variableRest (by omega)).mono ?_
  rintro w node ⟨others, rfl⟩
  simpa [Contract.symbol] using Derives.variableDefine others hus

theorem reads_argument : Reads m k argument (.symbol .arg) := by
  refine reads_objectType.bind ?_
  rintro w type ⟨⟨us, hus, rfl⟩, -⟩
  refine reads_expectIdentifier.word_bind fun name => reads_pure ?_
  simpa [Contract.symbol] using Derives.arg hus

theorem exists_map_cons {L : List Terminal → Prop} {c : Terminal} {ws : List (List Terminal)}
    (h : ∀ w ∈ ws, ∃ v, L v ∧ w = c :: v) :
    ∃ vs : List (List Terminal), (∀ v ∈ vs, L v) ∧ ws = vs.map (c :: ·) := by
  induction ws with
  | nil => exact ⟨[], by simp, rfl⟩
  | cons w ws ih =>
      obtain ⟨v, hv, rfl⟩ := h w (by simp)
      obtain ⟨vs, hvs, rfl⟩ := ih fun x hx => h x (List.mem_cons_of_mem _ hx)
      exact ⟨v :: vs, by simpa using ⟨hv, hvs⟩, rfl⟩

/-- One argument, and one more behind each comma. -/
theorem reads_argumentList (hk : k < n) : Reads m k (argumentList n) (.symbol .argList) := by
  refine reads_argument.symbol_bind fun u first hu => ?_
  have hround : ∀ j ≤ k - u.length, ReadsRound m j takeComma (argument >>= fun e => pure [e])
      fun w => ∃ v, Derives .arg v ∧ w = .comma :: v :=
    fun j _ => readsRound_comma fun b hb => ReadsAt.once (reads_argument b hb)
  refine (reads_repeatWhile ?_ hround (fun _ _ _ => id) (by omega)).bind ?_
  · rintro w ⟨v, -, rfl⟩
    simp
  · rintro w others ⟨⟨ws, hws, rfl⟩, -⟩
    refine reads_pure ?_
    obtain ⟨vs, hvs, rfl⟩ := exists_map_cons hws
    simpa [Contract.symbol, List.flatMap] using Derives.args hu hvs

/-- The one place where a token is refused late: `void` opens a list of arguments, the token behind
it shows that it does not stand alone, and only then is it refused as a type. -/
theorem reads_arguments (hk : k < n) : Reads m k (arguments n)
    { reads := fun w _ => Derives .argList w, late := fun u => u = [] } := by
  have hlist : Reads m k (argumentList n)
      { reads := fun w _ => Derives .argList w, late := fun u => u = [] } :=
    (reads_argumentList hk).mono (fun _ _ h => h)
  refine reads_peek_bind fun t a ha => ?_
  by_cases hclose : t.isBracket .rightParenthesis = true
  · rw [if_pos hclose]
    exact Reads.at_cons (reads_pure Derives.noArgs) ha
  rw [if_neg hclose]
  by_cases hvoid : t.isKeyword [.void] = true
  · rw [if_pos hvoid]
    have ht : t.lexeme = .keyword .void := by
      cases hl : t.lexeme <;> simp_all [Token.isKeyword]
    refine readsAt_peekSecond_bind ha fun s b hb => ?_
    by_cases hs : s.isBracket .rightParenthesis = true
    · rw [if_pos hs]
      refine readsAt_take_bind (c := .keyword .void) (congrArg Lexeme.terminal ht) rfl
        fun j _ => (reads_pure ?_).at_cons hb
      exact .voidArgs
    -- The list of arguments is run all the same, and refuses the `void` that has been looked past.
    · rw [if_neg hs]
      intro p hp _
      have htype : variableType false p = refuse .objectType t p := by
        rw [variableType, bind_ok (peek_of_ahead hp)]
        simp only [ht]
        rfl
      have hrun : argumentList n p = refuse .objectType t p := by
        rw [argumentList, argument, bind_assoc]
        exact bind_error htype _
      rw [hrun]
      exact .stuck (Parser.Took.refl p) (v := []) hp (by simp) rfl ⟨[], [], .noArgs⟩
        (.inr ⟨Nat.succ_le_succ hb, ht, rfl⟩) fun _ _ => trivial
  · rw [if_neg hvoid]
    exact hlist.at_cons ha

/-! ## Structures -/

theorem reads_member (hk : k < n) : Reads m k (member n) (.symbol .variableDefine) := by
  refine reads_peek_bind fun t a ha => ?_
  by_cases h : t.isTypeKeyword = true
  · rw [if_pos h]
    exact (reads_variableDefine hk).at_cons ha
  · rw [if_neg h]
    have hint : [.int] ∈ TypeWords.object := by decide
    exact readsAt_refuse ha ⟨_, .leaf t, Derives.variableDefine 0 hint⟩

theorem reads_optionalName : Reads m k optionalName
    { reads := fun w _ => w ∈ [[], [Terminal.identifier]] } := by
  refine reads_peek_bind fun t a ha => ?_
  by_cases h : (t.kind == .identifier) = true
  · rw [if_pos h]
    have ht : t.terminal = .identifier := Token.terminal_of_kind h (by decide)
    refine readsAt_takeLeaf_bind ht rfl fun j _ => (reads_pure ?_).at_tail ha
    simp
  · rw [if_neg h]
    exact Reads.at_cons (reads_pure (by simp)) ha

/-- A body in curly brackets: its items one after another. -/
theorem reads_body {item : Rule Node} {L : List Terminal → Prop} (hpos : ∀ w, L w → w ≠ [])
    (hitem : ∀ j ≤ k, Reads m j item { reads := fun w _ => L w }) (hk : k < n) :
    Reads m k (repeatWhile insideBody (item >>= fun e => pure [e]) n) (.many L []) :=
  reads_repeatWhile hpos
    (fun j hj => readsRound_peek fun _ _ ha _ => ReadsAt.once ((hitem j hj).at_cons ha))
    (fun _ _ _ => id) hk

/-- The keyword has been looked at, so it is the first of the tokens read ahead. -/
theorem readsAt_structDefine {t : Token} (ht : t.lexeme = .keyword .struct) (hk : k < n)
    (ha : a.length ≤ m) :
    ReadsAt m (t :: a) k (structDefine n) (.symbol .item) := by
  refine readsAt_take_bind (c := .keyword .struct) (congrArg Lexeme.terminal ht) rfl
    fun j hj => ?_
  refine (reads_optionalName.bind ?_).at_tail ha
  intro name names hname
  refine reads_open_bind rfl fun opening hopen => ?_
  refine (reads_body (fun _ h => h.ne_nil (by decide))
    (fun i hi => reads_member (by omega)) (by omega)).bind ?_
  rintro w members ⟨⟨ws, hws, rfl⟩, -⟩
  refine reads_close_bind hopen (reads_expectSemicolon.word_bind fun _ => reads_pure ?_)
  simpa [Contract.symbol] using Derives.structDefine hname hws

/-! ## Conditions and clauses -/

/-- Strictness can only refuse: what it refuses stands where the word is complete. -/
theorem reads_checkCondition {strict : Bool} {e : Node} :
    Reads m k (checkCondition strict e) (.word []) := by
  unfold checkCondition
  split
  · exact reads_peek_bind fun t a ha => readsAt_refuse ha ⟨[], (), rfl⟩
  · exact reads_pure rfl

/-- Strict reading may refuse a condition but never lets another word pass. -/
theorem reads_condition {strict : Bool} (hk : k + 1 < n) : Reads m k (condition strict n)
    { reads := fun w _ => ∃ c, Derives (.level .or) c ∧ w = .leftParen :: c ++ [.rightParen] } := by
  refine reads_open_bind rfl fun opening hopen => ?_
  refine (reads_boolExpr (by omega)).symbol_bind fun c inner hc => ?_
  refine reads_checkCondition.word_bind fun _ => reads_close_bind hopen (reads_pure ?_)
  exact ⟨c, hc, by simp⟩

/-- An assignment is begun with its name and the token behind it looked at. -/
theorem readsAt_assignment (hx : x.kind = .identifier) (hk : k < n) (ha : a.length ≤ m) :
    ReadsAt m (x :: y :: a) k (assignment n) (.symbol .assignment) := by
  have hterm : x.terminal = .identifier := Lexeme.terminal_of_kind hx (by decide)
  rw [assignment, expectIdentifier, bind_assoc]
  refine readsAt_expect (beq_of_eq hx) (readsAt_take_bind hterm rfl fun j hj => ?_)
  rw [pure_bind]
  refine ((reads_expect_eq rfl).word_bind fun _ => ?_).at_cons ha
  refine (reads_boolExpr (by simp only [List.length_singleton]; omega)).symbol_bind
    fun w value hw => reads_pure ?_
  simpa [Contract.symbol, Lexeme.terminal] using Derives.assignment hw

theorem reads_forClause (hk : k + 1 < n) : Reads m k (forClause n) (.symbol .forClause) := by
  have hexpr : Reads m k (boolExpr n) (.symbol .forClause) :=
    (reads_boolExpr hk).mono (fun _ _ h => Derives.exprClause h)
  refine reads_peek_bind fun t a ha => ?_
  split
  · exact Reads.at_cons (reads_pure Derives.noClause) ha
  · exact Reads.at_cons (reads_pure Derives.noClause) ha
  · next ht =>
    have hname : t.kind = .identifier := congrArg Lexeme.kind ht
    refine readsAt_peekSecond_bind ha fun s b hb => ?_
    by_cases hs : s.isOperator [.assign] = true
    · rw [if_pos hs]
      exact (readsAt_assignment hname (by omega) hb).mono (fun _ _ h => Derives.assignClause h)
    · rw [if_neg hs]
      exact (readsAt_boolExpr hname hk hb).mono (fun _ _ h => Derives.exprClause h)
  · exact hexpr.at_cons ha

/-! ## Statements -/

section Statements

variable {strict : Bool} {smaller : Rule Node} {t : Token}

/-- The brace that opens the block is the bracket that is open inside. -/
theorem readsAt_blockOf (ht : t.lexeme = .bracket .leftCurlyBracket)
    (hsmaller : ∀ j < k, Reads m j smaller (.symbol .stmt)) (hk : k ≤ n) (ha : a.length ≤ m) :
    ReadsAt m (t :: a) k (blockOf smaller n) (.symbol .block) := by
  refine readsAt_expect (beq_of_eq ht) (readsAt_open_bind ht rfl fun j hj hopen => ?_)
  refine ((reads_body (fun _ h => h.ne_nil (by decide)) (fun i hi => hsmaller i (by omega))
    (by omega)).bind ?_).at_tail ha
  rintro w body ⟨⟨ws, hws, rfl⟩, -⟩
  refine reads_close_bind hopen (reads_pure ?_)
  simpa [Contract.symbol] using Derives.block hws

theorem readsAt_ifOf (ht : t.lexeme = .keyword .if)
    (hsmaller : ∀ j < k, Reads m j smaller (.symbol .stmt)) (hk : k < n) (ha : a.length ≤ m) :
    ReadsAt m (t :: a) k (ifOf strict smaller n) (.symbol .stmt) := by
  refine readsAt_take_bind (c := .keyword .if) (congrArg Lexeme.terminal ht) rfl
    fun j hj => ?_
  refine ((reads_condition (by omega)).bind ?_).at_tail ha
  rintro w cond ⟨c, hc, rfl⟩
  refine (hsmaller _ (by omega)).symbol_bind fun u thenBranch hu => ?_
  refine (reads_expect_eq rfl).word_bind fun _ => ?_
  refine (hsmaller _ (by omega)).symbol_bind fun v elseBranch hv => reads_pure ?_
  simpa [Contract.symbol, Lexeme.terminal] using Derives.ifStmt hc hu hv

theorem readsAt_whileOf (ht : t.lexeme = .keyword .while)
    (hsmaller : ∀ j < k, Reads m j smaller (.symbol .stmt)) (hk : k < n) (ha : a.length ≤ m) :
    ReadsAt m (t :: a) k (whileOf strict smaller n) (.symbol .stmt) := by
  refine readsAt_take_bind (c := .keyword .while) (congrArg Lexeme.terminal ht) rfl
    fun j hj => ?_
  refine ((reads_condition (by omega)).bind ?_).at_tail ha
  rintro w cond ⟨c, hc, rfl⟩
  refine (hsmaller _ (by omega)).symbol_bind fun u body hu => reads_pure ?_
  simpa [Contract.symbol] using Derives.whileLoop hc hu

/-- The parenthesis is open over three clauses, and closed before the body is read. -/
theorem readsAt_forOf (ht : t.lexeme = .keyword .for)
    (hsmaller : ∀ j < k, Reads m j smaller (.symbol .stmt)) (hk : k < n) (ha : a.length ≤ m) :
    ReadsAt m (t :: a) k (forOf strict smaller n) (.symbol .stmt) := by
  refine readsAt_take_bind (c := .keyword .for) (congrArg Lexeme.terminal ht) rfl
    fun j hj => ?_
  refine (reads_open_bind rfl fun opening hopen => ?_).at_tail ha
  refine (reads_forClause (by omega)).symbol_bind fun u start hu => ?_
  refine reads_expectSemicolon.word_bind fun _ => ?_
  refine (reads_forClause (by omega)).symbol_bind fun v cond hv => ?_
  refine reads_checkCondition.word_bind fun _ => reads_expectSemicolon.word_bind fun _ => ?_
  refine (reads_forClause (by omega)).symbol_bind fun w step hw => ?_
  refine reads_close_bind hopen ?_
  refine (hsmaller _ (by omega)).symbol_bind fun b body hb => reads_pure ?_
  simpa [Contract.symbol] using Derives.forLoop hu hv hw hb

theorem readsAt_breakStmt (ht : t.lexeme = .keyword .break) (ha : a.length ≤ m) :
    ReadsAt m (t :: a) k breakStmt (.symbol .stmt) := by
  refine readsAt_take_bind (c := .keyword .break) (congrArg Lexeme.terminal ht) rfl
    fun j _ => ?_
  refine (reads_expectSemicolon.word_bind fun _ => reads_pure ?_).at_tail ha
  exact Derives.breakStmt

theorem readsAt_returnStmt (ht : t.lexeme = .keyword .return) (hk : k < n)
    (ha : a.length ≤ m) :
    ReadsAt m (t :: a) k (returnStmt n) (.symbol .stmt) := by
  refine readsAt_take_bind (c := .keyword .return) (congrArg Lexeme.terminal ht) rfl
    fun j hj => ?_
  have hvalue : Reads m j (returnValue n)
      { reads := fun w _ => w = [] ∨ Derives (.level .or) w } := by
    refine reads_peek_bind fun t a ha => ?_
    split
    · exact Reads.at_cons (reads_pure (Or.inl rfl)) ha
    · refine ((reads_boolExpr (by omega)).symbol_bind fun w value hw => reads_pure ?_).at_cons ha
      exact .inr (by simpa using hw)
  refine (hvalue.bind ?_).at_tail ha
  intro w value hw
  refine reads_expectSemicolon.word_bind fun _ => reads_pure ?_
  rcases hw with rfl | hw
  · exact Derives.returnNothing
  · simpa [Contract.symbol] using Derives.returnValue hw

theorem readsAt_assignStmt (ht : t.kind = .identifier) (hk : k < n) (ha : a.length ≤ m) :
    ReadsAt m (t :: a) k (assignStmt n) (.symbol .stmt) := by
  have hterm : t.terminal = .identifier := Lexeme.terminal_of_kind ht (by decide)
  refine readsAt_peekSecond_bind ha fun s b hb => ?_
  by_cases hs : s.isOperator [.assign] = true
  · rw [if_pos hs]
    refine (readsAt_assignment ht hk hb).bind ?_
    intro w statement hw
    refine reads_expectSemicolon.word_bind fun _ => reads_pure ?_
    simpa [Contract.symbol] using Derives.assignStmt hw
  · rw [if_neg hs]
    -- The name is still to be taken; with `= 0;` behind it the statement would be complete.
    refine readsAt_refuse_second (Token.atEnd_eq_false (by simp [hterm])) hb ?_
    rw [hterm]
    have hzero : Derives (.level .or) [.number] := Derives.number.additive_of_factor.or_of_additive
    exact ⟨[.operator .assign, .number, .semicolon], .leaf t, (Derives.assignment hzero).assignStmt⟩

/-- The body of a statement.  Every case takes a token before `smaller` is run. -/
theorem reads_stmtOf (hsmaller : ∀ j < k, Reads m j smaller (.symbol .stmt)) (hk : k < n) :
    Reads m k (stmtOf strict n smaller) (.symbol .stmt) := by
  have hvar : Reads m k (variableDefine n) (.symbol .stmt) :=
    (reads_variableDefine hk).mono (fun _ _ h => Derives.localVariables h)
  refine reads_peek_bind fun t a ha => readsAt_note_bind ?_
  split
  · next ht =>
    exact (readsAt_blockOf ht hsmaller (by omega) ha).mono (fun _ _ h => Derives.blockStmt h)
  · next ht => exact readsAt_ifOf ht hsmaller hk ha
  · next ht => exact readsAt_whileOf ht hsmaller hk ha
  · next ht => exact readsAt_forOf ht hsmaller hk ha
  · next ht => exact readsAt_breakStmt ht ha
  · next ht => exact readsAt_returnStmt ht hk ha
  · split
    · exact hvar.at_cons ha
    · exact readsAt_refuse ha ⟨_, .leaf t, Derives.emptyStmt⟩
  · next ht =>
    refine readsAt_take_bind (c := .semicolon) (congrArg Lexeme.terminal ht) rfl
      fun j _ => (reads_pure ?_).at_tail ha
    exact Derives.emptyStmt
  · next ht => exact readsAt_assignStmt (congrArg Lexeme.kind ht) hk ha
  · exact readsAt_refuse ha ⟨_, .leaf t, Derives.emptyStmt⟩

/-- By induction on the budget, as for factors. -/
theorem reads_stmt (hk : k + 1 < n) : Reads m k (stmt strict n) (.symbol .stmt) := by
  induction n generalizing k with
  | zero => omega
  | succ n ih => exact reads_stmtOf (fun j hj => ih (by omega)) (by omega)

end Statements

/-! ## Top-level items -/

theorem readsAt_functionRest {strict : Bool} {type name : Node} {t : Token} {us : List Keyword}
    (ht : t.lexeme = .bracket .leftParenthesis) (hus : us ∈ TypeWords.result) (hk : k < n)
    (ha : a.length ≤ m) :
    ReadsAt m (t :: a) k (functionRest strict type name n)
      (Contract.item.after (us.map .keyword ++ [.identifier])) := by
  refine readsAt_expect (beq_of_eq ht) (readsAt_open_bind ht rfl fun j hj hopen => ?_)
  -- A `void` refused late stands right behind the parenthesis, where an item opens its arguments.
  have hlate : ∀ u, u = [] →
      (Contract.item.after (us.map .keyword ++ [.identifier])).late ([.leftParen] ++ u) := by
    rintro u rfl
    exact ⟨us, hus, by simp⟩
  refine ((reads_arguments (by omega)).at_tail ha).bind_of hlate ?_
  intro args nodes hargs
  refine reads_close_bind hopen (reads_peek_bind fun t a ha => ?_)
  split
  · next ht =>
    refine readsAt_take_bind (c := .semicolon) (congrArg Lexeme.terminal ht) rfl
      fun j _ => (reads_pure ?_).at_tail ha
    simpa [Contract.item] using Derives.funcDeclare hus hargs
  · next ht =>
    refine (readsAt_blockOf ht (fun i hi => reads_stmt (by omega)) (by omega) ha).bind ?_
    intro w body hw
    refine reads_pure ?_
    simpa [Contract.item] using Derives.funcDefine hus hargs hw
  · refine readsAt_refuse ha ⟨[.semicolon], .leaf t, ?_⟩
    simpa [Contract.item] using Derives.funcDeclare hus hargs

/-- What a declaration turns out to be is known at the token behind the name. -/
theorem reads_declaration {strict : Bool} (hk : k < n) :
    Reads m k (declaration strict n) .item := by
  refine reads_variableType.bind ?_
  intro w type htype
  obtain ⟨us, hus, rfl⟩ : ∃ us ∈ TypeWords.result, w = us.map .keyword := by
    rcases htype with ⟨⟨us, hus, rfl⟩ | ⟨-, rfl, -⟩, -⟩
    · exact ⟨us, List.mem_cons_of_mem _ hus, rfl⟩
    · exact ⟨[.void], by decide, rfl⟩
  refine reads_expectIdentifier.word_bind fun name => ?_
  rw [Contract.after_after]
  refine reads_peek_bind fun t a ha => ?_
  by_cases ht : t.isBracket .leftParenthesis = true
  · rw [if_pos ht]
    refine readsAt_functionRest (eq_of_beq ht) hus ?_ ha
    simp only [List.length_map, List.length_singleton]
    omega
  rw [if_neg ht]
  by_cases hvoid : isVoid type = true
  -- Only a function may be `void`, so its parentheses are what could stand here.
  · rw [if_pos hvoid]
    refine readsAt_refuse ha ⟨[.leftParen, .rightParen, .semicolon], .leaf t, ?_⟩
    simpa [Contract.item] using Derives.funcDeclare hus .noArgs
  · rw [if_neg hvoid]
    obtain ⟨vs, hvs, hword⟩ : ∃ vs ∈ TypeWords.object,
        us.map Terminal.keyword = vs.map .keyword := by
      rcases htype with ⟨h | ⟨-, -, h⟩, -⟩
      · exact h
      · exact absurd h hvoid
    refine ((reads_variableRest ?_).mono ?_).at_cons ha
    · simp only [List.length_map, List.length_singleton]
      omega
    · rintro w node ⟨others, rfl⟩
      rw [hword]
      simpa [Contract.item] using (Derives.variableDefine others hvs).global

theorem reads_item {strict : Bool} (hk : k < n) : Reads m k (item strict n) .item := by
  refine reads_peek_bind fun t a ha => readsAt_note_bind ?_
  split
  · next ht =>
    exact readsAt_takeLeaf (c := .preprocessor) (congrArg Lexeme.terminal ht) rfl (by omega)
      Derives.line
  · next ht =>
    exact (readsAt_structDefine ht hk ha).mono (fun _ _ h => h)
  · split
    · exact (reads_declaration hk).at_cons ha
    · exact readsAt_refuse ha ⟨_, .leaf t, Derives.line⟩
  · exact readsAt_refuse ha ⟨_, .leaf t, Derives.line⟩

/-- A whole source is a word of the grammar, or it is refused. -/
theorem reads_items {strict : Bool} (hk : k < n) : Reads m k (items strict n) .unit := by
  have hitem : ∀ j ≤ k, Reads m j (item strict n)
      { reads := fun w _ => Derives .item w, late := OpensArguments } := by
    intro j hj
    refine (reads_item (by omega)).mono_of ?_ (fun _ _ h => h)
    rintro u ⟨us, hus, rfl⟩
    exact ⟨[], us, Derives.unit_nil, hus, rfl⟩
  refine (reads_repeatWhile (fun _ h => h.ne_nil (by decide)) (fun j hj => readsRound_peek fun _ _ ha _ =>
    ReadsAt.once ((hitem j hj).at_cons ha)) ?_ hk).mono_of (fun _ hu => hu) ?_
  · rintro w _ hw ⟨v, us, hv, hus, rfl⟩
    exact ⟨w ++ v, us, Derives.unit_cons hw hv, hus, by simp⟩
  · rintro w nodes ⟨⟨ws, hws, rfl⟩, -⟩
    exact .unit hws

end Rule

end MiniC
