/-
# MiniC.Proofs.Trees — the trees of declarations, statements and whole sources.

What `MiniC.Proofs.Precedence` says of expressions, for everything around them: which tree a word of
each symbol makes.  Keywords of control, brackets, commas and semicolons leave no node, but a node
that has none of its own tokens in front starts where they stood; a clause left out of a `for` starts
where the token behind it stands.

Every word of the grammar has a tree (`Derives.covers`).  That a rule run on a word of its symbol takes
exactly that word and gives its tree is shown in `MiniC.Proofs.Building`.
-/
import MiniC.Proofs.Precedence

namespace MiniC

/-! ## Declarations -/

/-- The keywords of a type, under one node. -/
structure BuildsType (among : List (List Keyword)) (w : List Token) (e : Node) : Prop where
  words : ∃ us ∈ among, w.map Token.terminal = us.map .keyword
  node : e = .branch .variableType (w.map .leaf)

/-- A name, as a leaf. -/
inductive BuildsName : List Token → Node → Prop
  | mk {t : Token} : t.terminal = .identifier → BuildsName [t] (.leaf t)

/-- Something with a comma in front of it. -/
inductive AfterComma (B : List Token → Node → Prop) : List Token → Node → Prop
  | mk {comma : Token} {w : List Token} {e : Node} :
      comma.terminal = .comma → B w e → AfterComma B (comma :: w) e

/-- Several things in a row. -/
inductive Row (B : List Token → Node → Prop) : List Token → List Node → Prop
  | mk {parts : List (List Token × Node)} :
      (∀ x ∈ parts, B x.1 x.2) → Row B (parts.flatMap Prod.fst) (parts.map Prod.snd)

inductive BuildsVariable : List Token → Node → Prop
  | mk {type others : List Token} {e : Node} {es : List Node} {name semicolon : Token} :
      BuildsType TypeWords.object type e → name.terminal = .identifier →
      Row (AfterComma BuildsName) others es → semicolon.terminal = .semicolon →
      BuildsVariable (type ++ name :: (others ++ [semicolon]))
        (.branch .variableDefine (e :: .leaf name :: es))

inductive BuildsArg : List Token → Node → Prop
  | mk {type : List Token} {e : Node} {name : Token} :
      BuildsType TypeWords.object type e → name.terminal = .identifier →
      BuildsArg (type ++ [name]) (.branch .funcArg [e, .leaf name])

/-- `void` alone leaves no node. -/
inductive BuildsArgs : List Token → List Node → Prop
  | none : BuildsArgs [] []
  | void {t : Token} : t.terminal = .keyword .void → BuildsArgs [t] []
  | some {first others : List Token} {e : Node} {es : List Node} :
      BuildsArg first e → Row (AfterComma BuildsArg) others es → BuildsArgs (first ++ others) (e :: es)

/-! ## Statements -/

inductive BuildsAssignment : List Token → Node → Prop
  | mk {name assign : Token} {w : List Token} {e : Node} :
      name.terminal = .identifier → assign.terminal = .operator .assign →
      Builds none (.level .or) w e →
      BuildsAssignment (name :: assign :: w) (.branch .assignStmt [.leaf name, e])

/-- A clause of a `for`, with the token `next` behind it. -/
inductive BuildsClause (next : Token) : List Token → Node → Prop
  | none : BuildsClause next [] (.branchAt next.location .empty [])
  | assignment {w : List Token} {e : Node} : BuildsAssignment w e → BuildsClause next w e
  | expression {w : List Token} {e : Node} :
      Builds none (.level .or) w e → BuildsClause next w e

inductive BuildsStmt : List Token → Node → Prop
  | block {opening closing : Token} {parts : List (List Token × Node)} :
      opening.terminal = .leftCurly → closing.terminal = .rightCurly →
      (∀ x ∈ parts, BuildsStmt x.1 x.2) →
      BuildsStmt (opening :: (parts.flatMap Prod.fst ++ [closing]))
        (.branchAt opening.location .stmtBlock (parts.map Prod.snd))
  | ifStmt {keyword opening closing otherwise : Token} {c u v : List Token} {e a b : Node} :
      keyword.terminal = .keyword .if → opening.terminal = .leftParen →
      Builds none (.level .or) c e → closing.terminal = .rightParen → BuildsStmt u a →
      otherwise.terminal = .keyword .else → BuildsStmt v b →
      BuildsStmt (keyword :: opening :: (c ++ closing :: (u ++ otherwise :: v)))
        (.branchAt keyword.location .ifStmt [e, a, b])
  | whileLoop {keyword opening closing : Token} {c u : List Token} {e a : Node} :
      keyword.terminal = .keyword .while → opening.terminal = .leftParen →
      Builds none (.level .or) c e → closing.terminal = .rightParen → BuildsStmt u a →
      BuildsStmt (keyword :: opening :: (c ++ closing :: u))
        (.branchAt keyword.location .whileLoop [e, a])
  | forLoop {keyword opening first second closing : Token} {u v w x : List Token}
      {a b c e : Node} :
      keyword.terminal = .keyword .for → opening.terminal = .leftParen →
      BuildsClause first u a → first.terminal = .semicolon →
      BuildsClause second v b → second.terminal = .semicolon →
      BuildsClause closing w c → closing.terminal = .rightParen → BuildsStmt x e →
      BuildsStmt (keyword :: opening :: (u ++ first :: (v ++ second :: (w ++ closing :: x))))
        (.branchAt keyword.location .forLoop [a, b, c, e])
  | breakStmt {keyword semicolon : Token} :
      keyword.terminal = .keyword .break → semicolon.terminal = .semicolon →
      BuildsStmt [keyword, semicolon] (.branchAt keyword.location .breakStmt [])
  | returnNothing {keyword semicolon : Token} :
      keyword.terminal = .keyword .return → semicolon.terminal = .semicolon →
      BuildsStmt [keyword, semicolon] (.branchAt keyword.location .returnStmt [])
  | returnValue {keyword semicolon : Token} {w : List Token} {e : Node} :
      keyword.terminal = .keyword .return → Builds none (.level .or) w e →
      semicolon.terminal = .semicolon →
      BuildsStmt (keyword :: (w ++ [semicolon])) (.branchAt keyword.location .returnStmt [e])
  | assignStmt {semicolon : Token} {w : List Token} {e : Node} :
      BuildsAssignment w e → semicolon.terminal = .semicolon → BuildsStmt (w ++ [semicolon]) e
  | localVariables {w : List Token} {e : Node} : BuildsVariable w e → BuildsStmt w e
  | empty {semicolon : Token} :
      semicolon.terminal = .semicolon →
      BuildsStmt [semicolon] (.branchAt semicolon.location .empty [])

/-- A statement in curly brackets, as the body of a function. -/
inductive BuildsBlock : List Token → Node → Prop
  | mk {opening closing : Token} {w : List Token} {es : List Node} :
      opening.terminal = .leftCurly → closing.terminal = .rightCurly → Row BuildsStmt w es →
      BuildsBlock (opening :: (w ++ [closing])) (.branchAt opening.location .stmtBlock es)

theorem BuildsBlock.stmt {w : List Token} {e : Node} (h : BuildsBlock w e) : BuildsStmt w e := by
  cases h with
  | mk hopen hclose hrow =>
      cases hrow with
      | mk hparts => exact .block hopen hclose hparts

/-! ## Top-level items -/

inductive BuildsItem : List Token → Node → Prop
  | line {t : Token} : t.terminal = .preprocessor → BuildsItem [t] (.leaf t)
  | structDefine {keyword opening closing semicolon : Token} {name members : List Token}
      {es : List Node} :
      keyword.terminal = .keyword .struct → name.map Token.terminal ∈ [[], [.identifier]] →
      opening.terminal = .leftCurly → Row BuildsVariable members es →
      closing.terminal = .rightCurly → semicolon.terminal = .semicolon →
      BuildsItem (keyword :: (name ++ opening :: (members ++ [closing, semicolon])))
        (.branchAt keyword.location .structDefine (name.map .leaf ++ es))
  | funcDeclare {name opening closing semicolon : Token} {type args : List Token} {e : Node}
      {es : List Node} :
      BuildsType TypeWords.result type e → name.terminal = .identifier →
      opening.terminal = .leftParen → BuildsArgs args es → closing.terminal = .rightParen →
      semicolon.terminal = .semicolon →
      BuildsItem (type ++ name :: opening :: (args ++ [closing, semicolon]))
        (.branch .funcDeclare (e :: .leaf name :: es))
  | funcDefine {name opening closing : Token} {type args body : List Token} {e b : Node}
      {es : List Node} :
      BuildsType TypeWords.result type e → name.terminal = .identifier →
      opening.terminal = .leftParen → BuildsArgs args es → closing.terminal = .rightParen →
      BuildsBlock body b →
      BuildsItem (type ++ name :: opening :: (args ++ closing :: body))
        (.branch .funcDefine (e :: .leaf name :: es ++ [b]))
  | global {w : List Token} {e : Node} : BuildsVariable w e → BuildsItem w e

/-! ## How words begin -/

section Front

variable {w : List Token} {e : Node}

/-- A type starts with one of its keywords. -/
theorem BuildsType.front {among : List (List Keyword)} (h : BuildsType among w e)
    (hamong : ∀ us ∈ among, us ∈ TypeWords.result) :
    ∃ t k v us, us ∈ among ∧ w = t :: v ∧ t.terminal = .keyword k ∧ us.head? = some k ∧
      k.isType = true := by
  obtain ⟨⟨us, hus, hw⟩, -⟩ := h
  have hhead : ∀ us ∈ TypeWords.result, us.head?.any Keyword.isType = true := by decide
  replace hhead := hhead us (hamong us hus)
  cases us with
  | nil => simp at hhead
  | cons k us =>
      obtain ⟨t, v, rfl, ht, -⟩ := List.map_eq_cons_iff.mp hw
      exact ⟨t, k, v, k :: us, hus, rfl, ht, rfl, by simpa using hhead⟩

theorem BuildsVariable.front (h : BuildsVariable w e) :
    ∃ t k v, w = t :: v ∧ t.terminal = .keyword k ∧ k.isType = true := by
  cases h with
  | mk htype hname hothers hsemi =>
      obtain ⟨t, k, v, us, hus, rfl, ht, -, hk⟩ :=
        htype.front fun us hus => List.mem_cons_of_mem _ hus
      exact ⟨t, k, _, rfl, ht, hk⟩

/-- No statement starts with the brace that would close the block around it. -/
theorem BuildsStmt.front (h : BuildsStmt w e) :
    ∃ t v, w = t :: v ∧ t.terminal ≠ .rightCurly ∧ t.atEnd = false := by
  cases h with
  | block ht | ifStmt ht | whileLoop ht | forLoop ht | breakStmt ht | returnNothing ht
  | returnValue ht | empty ht => exact ⟨_, _, rfl, by simp [ht], Token.live ht rfl⟩
  | assignStmt h =>
      cases h with
      | mk ht => exact ⟨_, _, rfl, by simp [ht], Token.live ht rfl⟩
  | localVariables h =>
      obtain ⟨t, k, v, rfl, ht, -⟩ := h.front
      exact ⟨t, v, rfl, by simp [ht], Token.live ht rfl⟩

/-- An item has a first token, and that is not the end of the source. -/
theorem BuildsItem.front (h : BuildsItem w e) : ∃ t v, w = t :: v ∧ t.atEnd = false := by
  cases h with
  | line ht | structDefine ht => exact ⟨_, _, rfl, Token.live ht rfl⟩
  | funcDeclare htype | funcDefine htype =>
      obtain ⟨t, k, v, us, -, rfl, ht, -⟩ := htype.front fun _ hus => hus
      exact ⟨t, _, rfl, Token.live ht rfl⟩
  | global h =>
      obtain ⟨t, k, v, rfl, ht, -⟩ := h.front
      exact ⟨t, v, rfl, Token.live ht rfl⟩

end Front

/-! ## Every word has a tree -/

section Existence

variable {B : List Token → Node → Prop} {v w : List Token} {e : Node} {es : List Node}

theorem Row.nil : Row B [] [] := Row.mk (List.forall_mem_nil fun x : List Token × Node => B x.1 x.2)

/-- A row grows at its front. -/
theorem Row.cons (h : B w e) (hrow : Row B v es) : Row B (w ++ v) (e :: es) := by
  cases hrow with
  | @mk parts hparts =>
      have hall : ∀ x ∈ (w, e) :: parts, B x.1 x.2 := List.forall_mem_cons.mpr ⟨h, hparts⟩
      exact .mk hall

/-- If each word has a node, words in a row have a row of nodes. -/
theorem exists_row {ys : List (List Terminal)}
    (h : ∀ y ∈ ys, ∀ w : List Token, w.map Token.terminal = y → ∃ e, B w e)
    (hw : w.map Token.terminal = ys.flatten) : ∃ es, Row B w es := by
  induction ys generalizing w with
  | nil =>
      obtain rfl : w = [] := by simpa using hw
      exact ⟨[], .nil⟩
  | cons y ys ih =>
      obtain ⟨u, v, rfl, hu, hv⟩ := List.map_eq_append_iff.mp hw
      obtain ⟨e, he⟩ := h y (by simp) u hu
      obtain ⟨es, hes⟩ := ih (fun y hy => h y (List.mem_cons_of_mem _ hy)) hv
      exact ⟨e :: es, .cons he hes⟩

theorem exists_row_afterComma {ys : List (List Terminal)}
    (h : ∀ y ∈ ys, ∀ w : List Token, w.map Token.terminal = y → ∃ e, B w e)
    (hw : w.map Token.terminal = ys.flatMap (.comma :: ·)) : ∃ es, Row (AfterComma B) w es := by
  rw [List.flatMap_def] at hw
  refine exists_row (fun y hy v hv => ?_) hw
  obtain ⟨y, hmem, rfl⟩ := List.mem_map.mp hy
  obtain ⟨comma, v, rfl, hcomma, hv⟩ := List.map_eq_cons_iff.mp hv
  obtain ⟨e, he⟩ := h y hmem v hv
  exact ⟨e, .mk hcomma he⟩

end Existence

/-- The word makes a tree, as a word of the symbol. -/
def Symbol.Built : Symbol → List Token → Prop
  | .translationUnit, w => ∃ es, Row BuildsItem w es
  | .item, w => ∃ e, BuildsItem w e
  | .argList, w => ∃ es, BuildsArgs w es
  | .arg, w => ∃ e, BuildsArg w e
  | .variableDefine, w => ∃ e, BuildsVariable w e
  | .block, w => ∃ e, BuildsBlock w e
  | .stmt, w => ∃ e, BuildsStmt w e
  | .forClause, w => ∀ next, ∃ e, BuildsClause next w e
  | .assignment, w => ∃ e, BuildsAssignment w e
  | .level .or, w => ∃ e, Builds none (.level .or) w e
  | _, _ => True

/-- Of the levels only the loosest is asked for a tree: the others are read as parts of it. -/
theorem Derives.built_level {l : Level} {x : List Terminal} (h : Derives (.level l) x)
    {w : List Token} (hw : w.map Token.terminal = x) : (Symbol.level l).Built w := by
  cases l with
  | or =>
      rw [← hw] at h
      exact h.exists_builds
  | _ => trivial

/-- Tokens that spell this word make a tree. -/
def Symbol.Covers (s : Symbol) (x : List Terminal) : Prop :=
  ∀ w : List Token, w.map Token.terminal = x → s.Built w

namespace Symbol.Covers

/-! ### Declarations -/

section Declarations

variable {type : List Keyword} {x y : List Terminal}

/-- A type, a name and `others` more names. -/
theorem variableDefine (others : Nat) (htype : type ∈ TypeWords.object) :
    Symbol.variableDefine.Covers (type.map .keyword ++ .identifier ::
      (List.replicate others [.comma, .identifier]).flatten ++ [.semicolon]) := by
  intro w hw
  simp only [List.cons_append, List.append_assoc, List.map_eq_cons_iff, List.map_eq_append_iff,
    List.map_eq_nil_iff] at hw
  obtain ⟨type, _, rfl, hus, name, _, rfl, hname, names, _, rfl, hnames, t, _, rfl, ht, rfl⟩ := hw
  have hother : ∀ y ∈ List.replicate others [Terminal.identifier], ∀ w : List Token,
      w.map Token.terminal = y → ∃ e, BuildsName w e := by
    intro y hy w hw
    obtain rfl := List.eq_of_mem_replicate hy
    obtain ⟨t, rfl, ht⟩ := List.map_eq_singleton_iff.mp hw
    exact ⟨_, .mk ht⟩
  obtain ⟨es, hes⟩ := exists_row_afterComma hother (by simpa [List.flatMap_def] using hnames)
  exact ⟨_, .mk ⟨⟨_, htype, hus⟩, rfl⟩ hname hes ht⟩

/-- A structure may have no name, but it has its braces. -/
theorem structDefine {name : List Terminal} {members : List (List Terminal)}
    (hname : name ∈ [[], [.identifier]]) (h : ∀ x ∈ members, Symbol.variableDefine.Covers x) :
    Symbol.item.Covers
      (.keyword .struct :: name ++ .leftCurly :: members.flatten ++ [.rightCurly, .semicolon]) := by
  intro w hw
  simp only [List.cons_append, List.append_assoc, List.map_eq_cons_iff, List.map_eq_append_iff,
    List.map_eq_nil_iff] at hw
  obtain ⟨k, _, rfl, hk, name, _, rfl, rfl, o, _, rfl, ho, members, _, rfl, hmembers, c, _, rfl,
    hc, t, _, rfl, ht, rfl⟩ := hw
  obtain ⟨es, hes⟩ := exists_row h hmembers
  exact ⟨_, .structDefine hk hname ho hes hc ht⟩

/-- One argument or more. -/
theorem args {first : List Terminal} {others : List (List Terminal)} (hfirst : Symbol.arg.Covers first)
    (hothers : ∀ x ∈ others, Symbol.arg.Covers x) :
    Symbol.argList.Covers (first ++ others.flatMap (.comma :: ·)) := by
  intro w hw
  obtain ⟨u, v, rfl, hu, hv⟩ := List.map_eq_append_iff.mp hw
  obtain ⟨e, he⟩ := hfirst u hu
  obtain ⟨es, hes⟩ := exists_row_afterComma hothers hv
  exact ⟨_, .some he hes⟩

theorem funcDeclare (htype : type ∈ TypeWords.result) (hx : Symbol.argList.Covers x) :
    Symbol.item.Covers
      (type.map .keyword ++ .identifier :: .leftParen :: x ++ [.rightParen, .semicolon]) := by
  intro w hw
  simp only [List.cons_append, List.append_assoc, List.map_eq_cons_iff, List.map_eq_append_iff,
    List.map_eq_nil_iff] at hw
  obtain ⟨type, _, rfl, hus, name, _, rfl, hname, o, _, rfl, ho, args, _, rfl, hargs, c, _, rfl,
    hc, t, _, rfl, ht, rfl⟩ := hw
  obtain ⟨es, hes⟩ := hx args hargs
  exact ⟨_, .funcDeclare ⟨⟨_, htype, hus⟩, rfl⟩ hname ho hes hc ht⟩

theorem funcDefine (htype : type ∈ TypeWords.result) (hx : Symbol.argList.Covers x)
    (hy : Symbol.block.Covers y) :
    Symbol.item.Covers
      (type.map .keyword ++ .identifier :: .leftParen :: x ++ .rightParen :: y) := by
  intro w hw
  simp only [List.cons_append, List.append_assoc, List.map_eq_cons_iff, List.map_eq_append_iff] at hw
  obtain ⟨type, _, rfl, hus, name, _, rfl, hname, o, _, rfl, ho, args, _, rfl, hargs, c, body,
    rfl, hc, hbody⟩ := hw
  obtain ⟨es, hes⟩ := hx args hargs
  obtain ⟨b, hb⟩ := hy body hbody
  exact ⟨_, .funcDefine ⟨⟨_, htype, hus⟩, rfl⟩ hname ho hes hc hb⟩

end Declarations

/-! ### Statements -/

section Statements

variable {x y z u v : List Terminal}

/-- As many statements as there are, each with a tree of its own. -/
theorem block {stmts : List (List Terminal)} (h : ∀ x ∈ stmts, Symbol.stmt.Covers x) :
    Symbol.block.Covers (.leftCurly :: stmts.flatten ++ [.rightCurly]) := by
  intro w hw
  simp only [List.cons_append, List.map_eq_cons_iff, List.map_eq_append_iff, List.map_eq_nil_iff] at hw
  obtain ⟨o, _, rfl, ho, body, _, rfl, hbody, c, _, rfl, hc, rfl⟩ := hw
  obtain ⟨es, hes⟩ := exists_row h hbody
  exact ⟨_, .mk ho hc hes⟩

theorem ifStmt (hx : (Symbol.level .or).Covers x) (hu : Symbol.stmt.Covers u)
    (hv : Symbol.stmt.Covers v) :
    Symbol.stmt.Covers
      (.keyword .if :: .leftParen :: x ++ .rightParen :: u ++ .keyword .else :: v) := by
  intro w hw
  simp only [List.cons_append, List.append_assoc, List.map_eq_cons_iff, List.map_eq_append_iff] at hw
  obtain ⟨k, _, rfl, hk, o, _, rfl, ho, c, _, rfl, hc, r, _, rfl, hr, s, _, rfl, hs, t, s', rfl, ht,
    hs'⟩ := hw
  obtain ⟨e, he⟩ := hx c hc
  obtain ⟨a, ha⟩ := hu s hs
  obtain ⟨b, hb⟩ := hv s' hs'
  exact ⟨_, .ifStmt hk ho he hr ha ht hb⟩

theorem whileLoop (hx : (Symbol.level .or).Covers x) (hu : Symbol.stmt.Covers u) :
    Symbol.stmt.Covers (.keyword .while :: .leftParen :: x ++ .rightParen :: u) := by
  intro w hw
  simp only [List.cons_append, List.map_eq_cons_iff, List.map_eq_append_iff] at hw
  obtain ⟨k, _, rfl, hk, o, _, rfl, ho, c, _, rfl, hc, r, s, rfl, hr, hs⟩ := hw
  obtain ⟨e, he⟩ := hx c hc
  obtain ⟨a, ha⟩ := hu s hs
  exact ⟨_, .whileLoop hk ho he hr ha⟩

/-- Each clause has the token behind it to start at, should it be left out. -/
theorem forLoop (hx : Symbol.forClause.Covers x) (hy : Symbol.forClause.Covers y)
    (hz : Symbol.forClause.Covers z) (hu : Symbol.stmt.Covers u) :
    Symbol.stmt.Covers (.keyword .for :: .leftParen :: x ++ .semicolon :: y ++ .semicolon :: z ++
      .rightParen :: u) := by
  intro w hw
  simp only [List.cons_append, List.append_assoc, List.map_eq_cons_iff, List.map_eq_append_iff] at hw
  obtain ⟨k, _, rfl, hk, o, _, rfl, ho, x, _, rfl, hx', s, _, rfl, hs, y, _, rfl, hy', t, _, rfl, ht,
    z, _, rfl, hz', r, s', rfl, hr, hs'⟩ := hw
  obtain ⟨a, ha⟩ := hx x hx' s
  obtain ⟨b, hb⟩ := hy y hy' t
  obtain ⟨c, hc⟩ := hz z hz' r
  obtain ⟨e, he⟩ := hu s' hs'
  exact ⟨_, .forLoop hk ho ha hs hb ht hc hr he⟩

theorem returnValue (hx : (Symbol.level .or).Covers x) :
    Symbol.stmt.Covers (.keyword .return :: x ++ [.semicolon]) := by
  intro w hw
  simp only [List.cons_append, List.map_eq_cons_iff, List.map_eq_append_iff, List.map_eq_nil_iff] at hw
  obtain ⟨k, _, rfl, hk, v, _, rfl, hv, t, _, rfl, ht, rfl⟩ := hw
  obtain ⟨e, he⟩ := hx v hv
  exact ⟨_, .returnValue hk he ht⟩

theorem assignment (hx : (Symbol.level .or).Covers x) :
    Symbol.assignment.Covers (.identifier :: .operator .assign :: x) := by
  intro w hw
  simp only [List.map_eq_cons_iff] at hw
  obtain ⟨t, _, rfl, ht, o, v, rfl, ho, hv⟩ := hw
  obtain ⟨e, he⟩ := hx v hv
  exact ⟨_, .mk ht ho he⟩

theorem assignStmt (hx : Symbol.assignment.Covers x) : Symbol.stmt.Covers (x ++ [.semicolon]) := by
  intro w hw
  obtain ⟨v, w, rfl, hv, hw⟩ := List.map_eq_append_iff.mp hw
  obtain ⟨t, rfl, ht⟩ := List.map_eq_singleton_iff.mp hw
  obtain ⟨e, he⟩ := hx v hv
  exact ⟨_, .assignStmt he ht⟩

end Statements

end Symbol.Covers

/-- By the way in which the word is derived. -/
theorem Derives.covers {s : Symbol} {x : List Terminal} (h : Derives s x) : s.Covers x := by
  induction h with
  | unit _ ih => exact fun _ hw => exists_row ih hw
  | line =>
      intro w hw
      obtain ⟨t, rfl, ht⟩ := List.map_eq_singleton_iff.mp hw
      exact ⟨_, .line ht⟩
  | structDefine hname _ ih => exact .structDefine hname ih
  | funcDeclare htype _ ih => exact .funcDeclare htype ih
  | funcDefine htype _ _ iha ihb => exact .funcDefine htype iha ihb
  | global _ ih => exact fun w hw => (ih w hw).imp fun _ he => .global he
  | noArgs =>
      intro w hw
      obtain rfl := List.map_eq_nil_iff.mp hw
      exact ⟨_, .none⟩
  | voidArgs =>
      intro w hw
      obtain ⟨t, rfl, ht⟩ := List.map_eq_singleton_iff.mp hw
      exact ⟨_, .void ht⟩
  | args _ _ ihf iho => exact .args ihf iho
  | arg htype =>
      intro w hw
      obtain ⟨type, v, rfl, hus, hv⟩ := List.map_eq_append_iff.mp hw
      obtain ⟨t, rfl, ht⟩ := List.map_eq_singleton_iff.mp hv
      exact ⟨_, .mk ⟨⟨_, htype, hus⟩, rfl⟩ ht⟩
  | variableDefine others htype => exact .variableDefine others htype
  | block _ ih => exact .block ih
  | blockStmt _ ih => exact fun w hw => (ih w hw).imp fun _ he => he.stmt
  | ifStmt _ _ _ ihc ihu ihv => exact .ifStmt ihc ihu ihv
  | whileLoop _ _ ihc ihu => exact .whileLoop ihc ihu
  | forLoop _ _ _ _ iha ihb ihc ihu => exact .forLoop iha ihb ihc ihu
  | breakStmt =>
      intro w hw
      obtain ⟨k, w, rfl, hk, hw⟩ := List.map_eq_cons_iff.mp hw
      obtain ⟨t, rfl, ht⟩ := List.map_eq_singleton_iff.mp hw
      exact ⟨_, .breakStmt hk ht⟩
  | returnNothing =>
      intro w hw
      obtain ⟨k, w, rfl, hk, hw⟩ := List.map_eq_cons_iff.mp hw
      obtain ⟨t, rfl, ht⟩ := List.map_eq_singleton_iff.mp hw
      exact ⟨_, .returnNothing hk ht⟩
  | returnValue _ ih => exact .returnValue ih
  | assignStmt _ ih => exact .assignStmt ih
  | localVariables _ ih => exact fun w hw => (ih w hw).imp fun _ he => .localVariables he
  | emptyStmt =>
      intro w hw
      obtain ⟨t, rfl, ht⟩ := List.map_eq_singleton_iff.mp hw
      exact ⟨_, .empty ht⟩
  | noClause =>
      intro w hw
      obtain rfl := List.map_eq_nil_iff.mp hw
      exact fun next => ⟨_, .none⟩
  | assignClause _ ih => exact fun w hw next => (ih w hw).imp fun _ he => .assignment he
  | exprClause _ ih => exact fun w hw next => (ih w hw).imp fun _ he => .expression he
  | assignment _ ih => exact .assignment ih
  | operand h _ => exact fun _ hw => (Derives.operand h).built_level hw
  | chain hu ho hv _ _ => exact fun _ hw => (Derives.chain hu ho hv).built_level hw
  | not | group | sum | paren | name | number => exact fun _ _ => trivial

end MiniC
