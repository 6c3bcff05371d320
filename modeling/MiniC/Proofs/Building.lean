/-
# MiniC.Proofs.Building — rules run on words of their symbols.

Each rule of the parser, in the order of the rules, takes a word of its symbol and gives the tree
that the word makes.  Rules that read statements may be strict; they give the tree if there is no
offence in it.  Nothing has to be known of what follows a declaration or a statement, for both end
with a token of their own; a type is followed by a name, and an expression by a token that is no
operator.
-/
import MiniC.Proofs.Conditions

namespace MiniC

/-- A type is one of three exceptions, or a sign and a base, or a sign, a size and a base. -/
theorem TypeWords.object_cases : ∀ us ∈ object,
    us ∈ [[.float], [.double], [.long, .double]] ∨
    (∃ sign ∈ signs, ∃ base ∈ [[], [.int], [.char]], us = sign ++ base ∧ us ≠ []) ∨
    ∃ sign ∈ signs, ∃ size ∈ [[.short], [.long], [.long, .long]], ∃ base ∈ [[], [.int]],
      us = sign ++ (size ++ base) := by
  decide

/-- Objects are never `void`. -/
theorem TypeWords.object_head : ∀ us ∈ object, us.head? ≠ some .void := by
  decide

namespace Rule

variable {t x : Token} {u v w z : List Token} {k : Keyword} {among us vs : List Keyword} {n : Nat}
  {e : Node} {es ns : List Node} {strict : Bool}

/-! ## Running types -/

theorem isKeyword_iff (hne : among ≠ []) :
    t.isKeyword among = true ↔ ∃ k ∈ among, t.terminal = .keyword k := by
  cases hl : t.lexeme <;> simp [Token.isKeyword, Token.terminal, Lexeme.terminal, hl, hne]

theorem reaches_optionalKeyword_one (ht : t.terminal = .keyword k) (hk : k ∈ among) :
    Reaches (optionalKeyword among) [t] z (pure [.leaf t]) := by
  have htest : t.isKeyword among = true :=
    (isKeyword_iff (List.ne_nil_of_mem hk)).mpr ⟨k, hk, ht⟩
  refine reaches_peek.look ?_
  rw [if_pos htest]
  exact (reaches_takeLeaf (Token.live ht rfl)).last (.refl _)

/-- Where other keywords or the name of what is declared comes next, an optional keyword is not
there. -/
theorem reaches_optionalKeyword_none (hne : among ≠ []) (hx : x.terminal = .identifier)
    (hv : v.map Token.terminal = vs.map .keyword) (hstop : ∀ k ∈ vs.head?, k ∉ among) :
    Reaches (optionalKeyword among) [] (v ++ x :: z) (pure []) := by
  obtain ⟨y, v', hfront, hy⟩ : ∃ y v', v ++ x :: z = y :: v' ∧ y.isKeyword among = false := by
    cases v with
    | nil =>
        refine ⟨x, z, rfl, ?_⟩
        rw [Bool.eq_false_iff, Ne, isKeyword_iff hne]
        simp [hx]
    | cons y v =>
        refine ⟨y, v ++ x :: z, rfl, ?_⟩
        rw [Bool.eq_false_iff, Ne, isKeyword_iff hne]
        rintro ⟨k, hk, hy⟩
        cases vs with
        | nil => simp at hv
        | cons k' vs =>
            obtain ⟨hk', -⟩ := by simpa using hv
            obtain rfl : k = k' := by simpa [hy] using hk'
            exact hstop k rfl hk
  rw [hfront]
  refine reaches_peek.look ?_
  rw [hy, if_neg (by simp)]
  exact .refl _

/-- The base is read up to the name behind the type; whatever is there is left for the rule after it.
-/
theorem reaches_integerBase {parts : List Node} {sized : Bool} (hx : x.terminal = .identifier)
    (hw : w.map Token.terminal = us.map .keyword)
    (hus : us ∈ [] :: (if sized then [Keyword.int] else [.int, .char]).map ([·]))
    (hne : parts ++ w.map Node.leaf ≠ []) :
    Reaches (integerBase parts sized) w (x :: z)
      (pure (.branch .variableType (parts ++ w.map .leaf))) := by
  have hbase : Reaches (optionalKeyword (if sized then [.int] else [.int, .char])) w (x :: z)
      (pure (w.map .leaf)) := by
    rcases List.mem_cons.mp hus with rfl | hus
    · obtain rfl : w = [] := by simpa using hw
      exact reaches_optionalKeyword_none (v := []) (by cases sized <;> simp) hx hw (by simp)
    · obtain ⟨k, hk, rfl⟩ := List.mem_map.mp hus
      obtain ⟨t, rfl, ht⟩ := List.map_eq_singleton_iff.mp hw
      exact reaches_optionalKeyword_one ht hk
  refine hbase.last ?_
  have hempty : (parts ++ w.map Node.leaf).isEmpty = false := by
    rw [Bool.eq_false_iff, Ne, List.isEmpty_iff]
    exact hne
  simp only [hempty, Bool.false_eq_true, if_false]
  exact .refl _

/-- A sign is one keyword or none, and the rest of the type does not start with another. -/
theorem reaches_sign (hx : x.terminal = .identifier) (hu : u.map Token.terminal = us.map .keyword)
    (hus : us ∈ TypeWords.signs) (hv : v.map Token.terminal = vs.map .keyword)
    (hstop : ∀ k ∈ vs.head?, k ∉ [Keyword.signed, .unsigned]) :
    Reaches (optionalKeyword [.signed, .unsigned]) u (v ++ x :: z) (pure (u.map .leaf)) := by
  simp only [TypeWords.signs, List.mem_cons, List.not_mem_nil, or_false] at hus
  rcases hus with rfl | rfl | rfl
  · obtain rfl : u = [] := by simpa using hu
    exact reaches_optionalKeyword_none (by simp) hx hv hstop
  · obtain ⟨t, rfl, ht⟩ := List.map_eq_singleton_iff.mp hu
    exact reaches_optionalKeyword_one ht (by simp)
  · obtain ⟨t, rfl, ht⟩ := List.map_eq_singleton_iff.mp hu
    exact reaches_optionalKeyword_one ht (by simp)

theorem reaches_sizedType_unsized (hx : x.terminal = .identifier)
    (hu : u.map Token.terminal = us.map .keyword) (hus : us ∈ TypeWords.signs)
    (hv : v.map Token.terminal = vs.map .keyword) (hvs : vs ∈ [[], [.int], [.char]])
    (hne : u ++ v ≠ []) :
    Reaches sizedType (u ++ v) (x :: z) (pure (.branch .variableType ((u ++ v).map .leaf))) := by
  have hstop : ∀ vs ∈ [[], [Keyword.int], [.char]], ∀ k ∈ vs.head?,
      k ∉ [Keyword.signed, .unsigned] ∧ k ∉ [Keyword.short] ∧ k ∉ [Keyword.long] := by
    decide
  replace hstop := hstop vs hvs
  refine (reaches_sign hx hu hus hv fun k hk => (hstop k hk).1).seq ?_
  refine (reaches_optionalKeyword_none (by simp) hx hv fun k hk => (hstop k hk).2.1).look ?_
  refine (reaches_optionalKeyword_none (by simp) hx hv fun k hk => (hstop k hk).2.2).look ?_
  rw [List.map_append]
  exact reaches_integerBase hx hv hvs (by simpa using hne)

theorem reaches_sizedType_sized {size : List Token} {sizes : List Keyword}
    (hx : x.terminal = .identifier) (hu : u.map Token.terminal = us.map .keyword)
    (hus : us ∈ TypeWords.signs) (hsize : size.map Token.terminal = sizes.map .keyword)
    (hsizes : sizes ∈ [[.short], [.long], [.long, .long]])
    (hv : v.map Token.terminal = vs.map .keyword) (hvs : vs ∈ [[], [.int]]) :
    Reaches sizedType (u ++ (size ++ v)) (x :: z)
      (pure (.branch .variableType ((u ++ (size ++ v)).map .leaf))) := by
  have hsign : ∀ sizes ∈ [[.short], [.long], [Keyword.long, .long]], ∀ vs : List Keyword,
      ∀ k ∈ (sizes ++ vs).head?, k ∉ [Keyword.signed, .unsigned] := by
    simp
  have hbase : ∀ vs ∈ [[], [Keyword.int]], ∀ k ∈ vs.head?, k ∉ [Keyword.long] ∧
      k ∉ [Keyword.double] := by
    decide
  replace hbase := hbase vs hvs
  have hrest : (size ++ v).map Token.terminal = (sizes ++ vs).map .keyword := by
    simp [hsize, hv]
  have hend : size ≠ [] → Reaches (integerBase (u.map .leaf ++ size.map .leaf) true) v (x :: z)
      (pure (.branch .variableType ((u ++ (size ++ v)).map .leaf))) := by
    intro hne
    have hvs' : vs ∈ [] :: (if true then [Keyword.int] else [.int, .char]).map ([·]) := hvs
    have hreach := reaches_integerBase (z := z) hx hv hvs'
      (show (u.map .leaf ++ size.map .leaf) ++ v.map Node.leaf ≠ [] by simp [hne])
    simpa using hreach
  refine (reaches_sign hx hu hus hrest (hsign sizes hsizes vs)).seq ?_
  simp only [List.mem_cons, List.not_mem_nil, or_false] at hsizes
  rcases hsizes with rfl | rfl | rfl
  · obtain ⟨s, rfl, hs⟩ := List.map_eq_singleton_iff.mp hsize
    refine (reaches_optionalKeyword_one hs (by simp)).seq ?_
    exact hend (by simp)
  · obtain ⟨s, rfl, hs⟩ := List.map_eq_singleton_iff.mp hsize
    refine (reaches_optionalKeyword_none (by simp) hx hrest (by simp)).look ?_
    refine (reaches_optionalKeyword_one hs (by simp)).seq ?_
    refine (reaches_optionalKeyword_none (by simp) hx hv fun k hk => (hbase k hk).1).look ?_
    by_cases hempty : (u.map Node.leaf).isEmpty = true
    · simp only [List.isEmpty_nil, hempty, if_true]
      refine (reaches_optionalKeyword_none (by simp) hx hv fun k hk => (hbase k hk).2).look ?_
      exact hend (by simp)
    · simp only [List.isEmpty_nil, hempty, if_true, Bool.false_eq_true, if_false, pure_bind]
      exact hend (by simp)
  · obtain ⟨s, size, rfl, hs, hsize⟩ := List.map_eq_cons_iff.mp hsize
    obtain ⟨s', rfl, hs'⟩ := List.map_eq_singleton_iff.mp hsize
    refine (reaches_optionalKeyword_none (by simp) hx hrest (by simp)).look ?_
    refine (reaches_optionalKeyword_one hs (by simp)).seq ?_
    refine (reaches_optionalKeyword_one hs' (by simp)).seq ?_
    rw [List.append_assoc]
    exact hend (by simp)

/-- By cases on the words of the type, all but the two of floating point. -/
theorem reaches_sizedType (hx : x.terminal = .identifier)
    (hw : w.map Token.terminal = us.map .keyword) (hus : us ∈ TypeWords.object)
    (hfloat : us ≠ [.float]) (hdouble : us ≠ [.double]) :
    Reaches sizedType w (x :: z) (pure (.branch .variableType (w.map .leaf))) := by
  rcases TypeWords.object_cases us hus with hlone | ⟨sign, hsign, base, hbase, rfl, hne⟩ |
    ⟨sign, hsign, size, hsize, base, hbase, rfl⟩
  · obtain rfl : us = [.long, .double] := by simpa [hfloat, hdouble] using hlone
    obtain ⟨s, v, rfl, hs, hv⟩ := List.map_eq_cons_iff.mp hw
    obtain ⟨s', rfl, hs'⟩ := List.map_eq_singleton_iff.mp hv
    refine (reaches_optionalKeyword_none (v := [s, s']) (by simp) hx hw (by simp)).look ?_
    refine (reaches_optionalKeyword_none (v := [s, s']) (by simp) hx hw (by simp)).look ?_
    refine (reaches_optionalKeyword_one hs (by simp)).seq ?_
    have hrest : [s'].map Token.terminal = [Keyword.double].map .keyword := hv
    refine (reaches_optionalKeyword_none (v := [s']) (by simp) hx hrest (by simp)).look ?_
    refine (reaches_optionalKeyword_one hs' (by simp)).last ?_
    exact .refl _
  · rw [List.map_append] at hw
    obtain ⟨u, v, rfl, hu, hv⟩ := List.map_eq_append_iff.mp hw
    refine reaches_sizedType_unsized hx hu hsign hv hbase ?_
    rintro hnil
    obtain ⟨rfl, rfl⟩ := List.append_eq_nil_iff.mp hnil
    simp_all
  · rw [List.map_append, List.map_append] at hw
    obtain ⟨u, w', rfl, hu, hw'⟩ := List.map_eq_append_iff.mp hw
    obtain ⟨v, v', rfl, hv, hv'⟩ := List.map_eq_append_iff.mp hw'
    exact reaches_sizedType_sized hx hu hsign hv hsize hv' hbase

/-- A type is read up to the name of what is declared. -/
theorem reaches_variableType {allowVoid : Bool} {among : List (List Keyword)}
    (hamong : ∀ us ∈ among, us ∈ TypeWords.object ∨ allowVoid = true ∧ us = [.void])
    (h : BuildsType among w e) (hx : x.terminal = .identifier) :
    Reaches (variableType allowVoid) w (x :: z) (pure e) := by
  obtain ⟨⟨us, hus, hw⟩, rfl⟩ := h
  have hlone : ∀ k, us = [k] → (k = .float ∨ k = .double ∨ k = .void ∧ allowVoid = true) →
      Reaches (variableType allowVoid) w (x :: z)
        (pure (.branch .variableType (w.map .leaf))) := by
    rintro k rfl hk
    obtain ⟨t, rfl, ht⟩ := List.map_eq_singleton_iff.mp hw
    refine reaches_peek.look ?_
    simp only [Token.lexeme_of_terminal ht rfl]
    rcases hk with rfl | rfl | ⟨rfl, rfl⟩
    · exact (reaches_takeLeaf (Token.live ht rfl)).last (.refl _)
    · exact (reaches_takeLeaf (Token.live ht rfl)).last (.refl _)
    · exact (reaches_takeLeaf (Token.live ht rfl)).last (.refl _)
  rcases hamong us hus with hobject | ⟨hvoid, rfl⟩
  · by_cases hfloat : us = [.float]
    · exact hlone _ hfloat (.inl rfl)
    by_cases hdouble : us = [.double]
    · exact hlone _ hdouble (.inr (.inl rfl))
    have hhead : ∀ us ∈ TypeWords.object, us = [.float] ∨ us = [.double] ∨
        us.head? ∈ [some .signed, some .unsigned, some .short, some .long, some .int,
          some Keyword.char] := by
      decide
    have hreach := reaches_sizedType (z := z) hx hw hobject hfloat hdouble
    replace hhead := (hhead us hobject).resolve_left hfloat |>.resolve_left hdouble
    cases us with
    | nil => simp at hhead
    | cons k us =>
        obtain ⟨t, v, rfl, ht, -⟩ := List.map_eq_cons_iff.mp hw
        refine reaches_peek.look ?_
        simp only [Token.lexeme_of_terminal ht rfl]
        simp only [List.head?_cons, List.mem_cons, Option.some.injEq, List.not_mem_nil,
          or_false] at hhead
        rcases hhead with rfl | rfl | rfl | rfl | rfl | rfl <;> exact hreach
  · exact hlone _ rfl (.inr (.inr ⟨rfl, hvoid⟩))

theorem reaches_objectType (h : BuildsType TypeWords.object w e) (hx : x.terminal = .identifier) :
    Reaches (variableType false) w (x :: z) (pure e) :=
  reaches_variableType (fun _ hus => .inl hus) h hx

/-! ## Rows -/

/-- A part of a row is no longer than the row, so that a budget for the row does for each part. -/
theorem length_le_of_mem {parts : List (List Token × Node)} {y : List Token × Node}
    (hy : y ∈ parts) : y.1.length ≤ (parts.flatMap Prod.fst).length := by
  obtain ⟨before, after, rfl⟩ := List.append_of_mem hy
  simp only [List.flatMap_append, List.flatMap_cons, List.length_append]
  omega

/-- Parts that are not empty are no more than the tokens of the row: the budget lasts for the rounds.
-/
theorem parts_length_le {parts : List (List Token × Node)} (h : ∀ y ∈ parts, y.1 ≠ []) :
    parts.length ≤ (parts.flatMap Prod.fst).length := by
  induction parts with
  | nil => simp
  | cons y parts ih =>
      have hy : 0 < y.1.length := List.length_pos_iff.mpr (h y (by simp))
      have hparts := ih fun y' hy' => h y' (List.mem_cons_of_mem y hy')
      simp only [List.length_cons, List.flatMap_cons, List.length_append]
      omega

/-- A row of things that a token in front tells from what follows them. -/
theorem judges_row {B : List Token → Node → Prop} {r : Rule Node} {test : Token → Bool}
    (hfront : ∀ w e, B w e → ∃ t v, w = t :: v ∧ test t = true)
    (hr : ∀ w e z, B w e → w.length ≤ u.length → Judges r w z e (offence strict e.nodes))
    (h : Row B u es) (hx : test x = false) (hn : u.length < n) :
    Judges (repeatWhile (peek >>= fun t => pure (test t)) (r >>= fun e => pure [e]) n) u (x :: z) es
      (offence strict (es.flatMap Node.nodes)) := by
  cases h with
  | @mk parts hparts =>
      have hmore : ∀ y ∈ parts, ∀ z,
          Reaches (peek >>= fun t => pure (test t)) [] (y.1 ++ z) (pure true) := by
        intro y hy z
        obtain ⟨t, v, hw, ht⟩ := hfront y.1 y.2 (hparts y hy)
        rw [hw, ← ht]
        exact reaches_peek.look (.refl _)
      have hitem : ∀ y ∈ parts, ∀ z,
          Judges (r >>= fun e => pure [e]) y.1 z [y.2] (offence strict y.2.nodes) :=
        fun y hy z => (hr y.1 y.2 z (hparts y hy) (length_le_of_mem hy)).last (.refl _)
      have hstop : Reaches (peek >>= fun t => pure (test t)) [] (x :: z) (pure false) := by
        rw [← hx]
        exact reaches_peek.look (.refl _)
      have hlen : parts.length ≤ (parts.flatMap Prod.fst).length := by
        refine parts_length_le fun y hy => ?_
        obtain ⟨t, v, hw, -⟩ := hfront y.1 y.2 (hparts y hy)
        simp [hw]
      exact judges_repeatOnto hmore hitem hstop (by omega)

/-- Things with commas between them, up to a token that is none. -/
theorem reaches_commas {B : List Token → Node → Prop} {r : Rule Node} (hx : x.kind ≠ .comma)
    (hr : ∀ w e z, B w e → Reaches r w z (pure e)) (h : Row (AfterComma B) w es)
    (hn : w.length < n) :
    Reaches (repeatWhile takeComma (r >>= fun e => pure [e]) n) w (x :: z) (pure es) := by
  cases h with
  | @mk parts hparts =>
      have hround : ∀ y ∈ parts, Round takeComma (r >>= fun e => pure [e]) y.1 y.2 := by
        intro y hy z n seen
        obtain ⟨w, e⟩ := y
        cases hparts _ hy with
        | @mk comma w _ hcomma hw =>
            have hkind : comma.kind = .comma := Token.kind_of_terminal hcomma
            have hmore : Reaches takeComma [comma] (w ++ z) (pure true) := by
              refine reaches_peek.look ?_
              rw [if_pos (beq_of_eq hkind)]
              exact (reaches_take (Token.live hcomma rfl)).last (.refl _)
            have hitem : Reaches (r >>= fun e => pure [e]) w z (pure [e]) :=
              (hr w e z hw).last (.refl _)
            exact reaches_repeatOnto_more hmore hitem
      have hstop : Reaches takeComma [] (x :: z) (pure false) := by
        refine reaches_peek.look ?_
        rw [if_neg (by simpa using hx)]
        exact .refl _
      have hlen : parts.length ≤ (parts.flatMap Prod.fst).length := by
        refine parts_length_le fun y hy => ?_
        obtain ⟨w, e⟩ := y
        cases hparts _ hy
        simp
      exact reaches_repeatWhile hround hstop (by omega)

/-! ## Variables and arguments -/

theorem reaches_variableRest {type first : Node} {semicolon : Token}
    (h : Row (AfterComma BuildsName) w es) (ht : semicolon.terminal = .semicolon)
    (hn : w.length < n) : Reaches (variableRest type first n) (w ++ [semicolon]) z
      (pure (.branch .variableDefine (type :: first :: es))) := by
  have hnames : ∀ w e z, BuildsName w e → Reaches (expectIdentifier .identifier) w z (pure e) := by
    rintro w e z ⟨ht⟩
    exact reaches_expectIdentifier ht
  refine (reaches_commas ?_ hnames h hn).seq ?_
  · simp [Token.kind_of_terminal ht, Terminal.kind]
  · exact (reaches_expectSemicolon ht).last (.refl _)

/-- The semicolon ends the names. -/
theorem reaches_variableDefine (h : BuildsVariable w e) (hn : w.length < n) :
    Reaches (variableDefine n) w z (pure e) := by
  cases h with
  | @mk type others e es name semicolon htype hname hothers hsemi =>
      simp only [List.length_append, List.length_cons] at hn
      refine (reaches_objectType htype hname).seq ?_
      exact (reaches_expectIdentifier hname).seq (reaches_variableRest hothers hsemi (by omega))

theorem reaches_argument (h : BuildsArg w e) : Reaches argument w z (pure e) := by
  cases h with
  | mk htype hname =>
      refine (reaches_objectType htype hname).seq ?_
      exact (reaches_expectIdentifier hname).last (.refl _)

/-- The parenthesis behind the list tells the rule where it ends, and whether `void` stands alone. -/
theorem reaches_arguments (h : BuildsArgs w es) (hx : x.terminal = .rightParen)
    (hn : w.length < n) : Reaches (arguments n) w (x :: z) (pure es) := by
  have hclose : x.isBracket .rightParenthesis = true := beq_of_eq (Token.lexeme_of_terminal hx rfl)
  cases h with
  | none =>
      refine reaches_peek.look ?_
      rw [if_pos hclose]
      exact .refl _
  | @void t ht =>
      have hl := Token.lexeme_of_terminal ht rfl
      refine reaches_peek.look ?_
      rw [if_neg (by simp [Token.isBracket, hl]), if_pos (by simp [Token.isKeyword, hl])]
      refine reaches_peekSecond.look ?_
      rw [if_pos hclose]
      exact (reaches_take (Token.live ht rfl)).last (.refl _)
  | @some first others e es hfirst hothers =>
      have hlist : Reaches (argumentList n) (first ++ others) (x :: z) (pure (e :: es)) := by
        simp only [List.length_append] at hn
        refine (reaches_argument hfirst).seq ?_
        refine (reaches_commas ?_ (fun _ _ _ => reaches_argument) hothers (by omega)).last (.refl _)
        simp [Token.kind_of_terminal hx, Terminal.kind]
      cases hfirst with
      | @mk type e name htype hname =>
          obtain ⟨t, k, v, us, hus, rfl, ht, hk, -⟩ :=
            htype.front fun us hus => List.mem_cons_of_mem _ hus
          have hl := Token.lexeme_of_terminal ht rfl
          have hne : k ≠ .void := fun heq => TypeWords.object_head us hus (heq ▸ hk)
          refine reaches_peek.look ?_
          rw [if_neg (by simp [Token.isBracket, hl]), if_neg (by simp [Token.isKeyword, hl, hne])]
          exact hlist

/-! ## Structures -/

/-- A body in curly brackets, up to the bracket that closes it. -/
theorem judges_body {B : List Token → Node → Prop} {r : Rule Node}
    (hfront : ∀ w e, B w e → ∃ t v, w = t :: v ∧ t.terminal ≠ .rightCurly ∧ t.atEnd = false)
    (hr : ∀ w e z, B w e → w.length ≤ u.length → Judges r w z e (offence strict e.nodes))
    (h : Row B u es) (hx : x.terminal = .rightCurly) (hn : u.length < n) :
    Judges (repeatWhile insideBody (r >>= fun e => pure [e]) n) u (x :: z) es
      (offence strict (es.flatMap Node.nodes)) := by
  refine judges_row (fun w e hw => ?_) hr h ?_ hn
  · obtain ⟨t, v, rfl, ht, hlive⟩ := hfront w e hw
    exact ⟨t, v, rfl, by simp [Token.isBracket_eq_false ht, hlive]⟩
  · simp [Token.isBracket, Token.lexeme_of_terminal hx rfl]

theorem reaches_member (h : BuildsVariable w e) (hn : w.length < n) :
    Reaches (member n) w z (pure e) := by
  obtain ⟨t, k, v, rfl, ht, hk⟩ := h.front
  refine reaches_peek.look ?_
  rw [if_pos (by simp [Token.isTypeKeyword, Token.lexeme_of_terminal ht rfl, hk])]
  exact reaches_variableDefine h hn

theorem reaches_optionalName (hx : x.kind ≠ .identifier)
    (hw : w.map Token.terminal ∈ [[], [.identifier]]) :
    Reaches optionalName w (x :: z) (pure (w.map .leaf)) := by
  simp only [List.mem_cons, List.not_mem_nil, or_false, List.map_eq_nil_iff] at hw
  rcases hw with rfl | hw
  · refine reaches_peek.look ?_
    rw [if_neg (by simpa using hx)]
    exact .refl _
  · obtain ⟨t, rfl, ht⟩ := List.map_eq_singleton_iff.mp hw
    have hkind : t.kind = .identifier := Token.kind_of_terminal ht
    refine reaches_peek.look ?_
    rw [if_pos (beq_of_eq hkind)]
    exact (reaches_takeLeaf (Token.live ht rfl)).last (.refl _)

/-! ## Expressions in their places -/

/-- An expression before a token that is no operator. -/
theorem reaches_value (h : Builds none (.level .or) w e) (hx : x.operator? = none)
    (hn : w.length + 1 < n) : Reaches (boolExpr n) w (x :: z) (pure e) :=
  reaches_boolExpr (hx ▸ h) (Token.stops_of_none hx) hn

theorem reaches_assignment (h : BuildsAssignment w e) (hx : x.operator? = none)
    (hn : w.length < n) : Reaches (assignment n) w (x :: z) (pure e) := by
  cases h with
  | @mk name assign w e hname hassign h =>
      simp only [List.length_cons] at hn
      have hl := Token.lexeme_of_terminal hassign rfl
      refine (reaches_expectIdentifier hname).seq ?_
      refine (reaches_expect (by simp [hl]) (Token.live hassign rfl)).seq ?_
      exact (reaches_value h hx (by omega)).last (.refl _)

/-- Behind the first token of an expression stands another one of it, or what follows it.  Neither is an
equals sign. -/
theorem exists_second_of_builds (h : Builds none (.level .or) (t :: v) e) (hx : x.operator? = none) :
    ∃ y v', v ++ x :: z = y :: v' ∧ y.isOperator [.assign] = false := by
  cases v with
  | nil =>
      refine ⟨x, z, rfl, ?_⟩
      rw [Bool.eq_false_iff, Ne, Token.isOperator_iff (by simp), hx]
      simp
  | cons y v =>
      refine ⟨y, v ++ x :: z, rfl, ?_⟩
      rw [Bool.eq_false_iff, Ne, Token.isOperator_iff (by simp)]
      rintro ⟨o, ho, hy⟩
      obtain rfl : o = .assign := by simpa using ho
      exact h.derives.assign_notMem rfl (by simp [Token.terminal_of_operator? hy])

/-- A clause that begins with a name is an expression if no equals sign stands behind the name. -/
theorem reaches_forClause_expression (h : Builds none (.level .or) w e) (hx : x.operator? = none)
    (hn : w.length + 1 < n) : Reaches (forClause n) w (x :: z) (pure e) := by
  have hreach := reaches_value (z := z) h hx hn
  obtain ⟨c, y, hword, hc⟩ := h.derives.front rfl
  obtain ⟨t, v, rfl, rfl, -⟩ := List.map_eq_cons_iff.mp hword
  refine reaches_peek.look ?_
  simp only [List.mem_cons, List.not_mem_nil, or_false] at hc
  rcases hc with ht | ht | ht | ht
  · simp only [Token.lexeme_of_terminal ht rfl]
    exact hreach
  · simp only [Token.lexeme_of_terminal ht rfl]
    exact hreach
  · obtain ⟨text, hl⟩ := Token.exists_text ht
    simp only [hl, Terminal.withText]
    obtain ⟨y, v', hfront, hy⟩ := exists_second_of_builds (z := z) h hx
    refine .look (b := y) ?_ ?_
    · rw [List.cons_append, hfront]
      exact reaches_peekSecond
    · rw [hy, if_neg (by simp)]
      exact hreach
  · obtain ⟨text, hl⟩ := Token.exists_text ht
    simp only [hl, Terminal.withText]
    exact hreach

/-- The clause is told from an empty one by its first token and from an assignment by its second. -/
theorem reaches_forClause (h : BuildsClause x w e)
    (hx : x.terminal = .semicolon ∨ x.terminal = .rightParen) (hn : w.length + 1 < n) :
    Reaches (forClause n) w (x :: z) (pure e) := by
  have hnone : x.operator? = none := by
    rcases hx with hx | hx <;> simp [Token.operator?, hx]
  cases h with
  | none =>
      refine reaches_peek.look ?_
      rcases hx with hx | hx
      · obtain ⟨text, hl⟩ := Token.exists_text hx
        simp only [hl, Terminal.withText]
        exact .refl _
      · simp only [Token.lexeme_of_terminal hx rfl]
        exact .refl _
  | assignment h =>
      have hreach := reaches_assignment (n := n) (z := z) h hnone (by omega)
      cases h with
      | mk hname hassign _ =>
          obtain ⟨text, hl⟩ := Token.exists_text hname
          refine reaches_peek.look ?_
          simp only [hl, Terminal.withText]
          refine reaches_peekSecond.look ?_
          rw [if_pos (by simp [Token.isOperator, Token.lexeme_of_terminal hassign rfl])]
          exact hreach
  | expression h => exact reaches_forClause_expression h hnone hn

/-! ## Simple statements -/

theorem reaches_breakStmt {keyword semicolon : Token} (hk : keyword.terminal = .keyword .break)
    (ht : semicolon.terminal = .semicolon) :
    Reaches breakStmt [keyword, semicolon] z (pure (.branchAt keyword.location .breakStmt [])) :=
  (reaches_take (Token.live hk rfl)).seq ((reaches_expectSemicolon ht).last (.refl _))

theorem reaches_returnValue_none (hx : x.terminal = .semicolon) :
    Reaches (returnValue n) [] (x :: z) (pure []) := by
  have hkind : x.kind = .semicolon := Token.kind_of_terminal hx
  refine reaches_peek.look ?_
  rw [if_pos (beq_of_eq hkind)]
  exact .refl _

theorem reaches_returnValue (h : Builds none (.level .or) w e) (hx : x.operator? = none)
    (hn : w.length + 1 < n) : Reaches (returnValue n) w (x :: z) (pure [e]) := by
  have hreach := reaches_value (z := z) h hx hn
  obtain ⟨c, y, hword, hc⟩ := h.derives.front rfl
  obtain ⟨t, v, rfl, rfl, -⟩ := List.map_eq_cons_iff.mp hword
  have hkind : t.kind ≠ .semicolon := by
    rw [Token.kind_of_terminal rfl]
    simp only [List.mem_cons, List.not_mem_nil, or_false] at hc
    rcases hc with ht | ht | ht | ht <;> rw [ht] <;> simp [Terminal.kind]
  refine reaches_peek.look ?_
  rw [if_neg (by simpa using hkind)]
  exact hreach.last (.refl _)

theorem reaches_returnStmt {keyword semicolon : Token} (hk : keyword.terminal = .keyword .return)
    (h : Reaches (returnValue n) w (semicolon :: z) (pure es))
    (ht : semicolon.terminal = .semicolon) :
    Reaches (returnStmt n) (keyword :: (w ++ [semicolon])) z
      (pure (.branchAt keyword.location .returnStmt es)) := by
  refine (reaches_take (Token.live hk rfl)).seq (h.seq ?_)
  exact (reaches_expectSemicolon ht).last (.refl _)

theorem reaches_assignStmt {semicolon : Token} (h : BuildsAssignment w e)
    (ht : semicolon.terminal = .semicolon) (hn : w.length < n) :
    Reaches (assignStmt n) (w ++ [semicolon]) z (pure e) := by
  have hreach : Reaches (assignment n) w ([semicolon] ++ z) (pure e) :=
    reaches_assignment h (by simp [Token.operator?, ht]) hn
  cases h with
  | mk hname hassign _ =>
      refine reaches_peekSecond.look ?_
      rw [if_pos (by simp [Token.isOperator, Token.lexeme_of_terminal hassign rfl])]
      exact hreach.seq ((reaches_expectSemicolon ht).last (.refl _))

/-! ## Statements with conditions -/

theorem reaches_checkCondition_pass (h : (strict && !e.isBoolean) = false) :
    Reaches (checkCondition strict e) [] z (pure ()) := by
  rw [checkCondition, h, if_neg (by simp)]
  exact .refl _

theorem reaches_checkCondition_refuse (h : (strict && !e.isBoolean) = true) :
    Reaches (checkCondition strict e) [] (x :: z) (refuse .booleanOperator x) := by
  rw [checkCondition, if_pos h]
  exact reaches_peek.look (.refl _)

/-- The keyword, the condition in parentheses, and what is read behind it. -/
theorem judges_condition {kind : NodeKind} {keyword opening closing : Token} {a : Node}
    {branches : List Node} {f : Token → Node → Rule Node}
    (hkind : (kind, k) ∈ [(.ifStmt, .if), (.whileLoop, .while)])
    (hk : keyword.terminal = .keyword k) (hopen : opening.terminal = .leftParen)
    (h : Builds none (.level .or) w e) (hclose : closing.terminal = .rightParen)
    (hn : w.length + 1 < n) (hrest : Judges (f keyword e) v z a (offence strict ns)) :
    Judges (take >>= fun keyword => condition strict n >>= f keyword)
      (keyword :: opening :: (w ++ closing :: v)) z a
      (offence strict (.branchAt keyword.location kind (e :: branches) :: (e.nodes ++ ns))) := by
  have hself : (Node.branchAt keyword.location kind (e :: branches)).hasBooleanCondition
      = e.isBoolean := by
    simp only [List.mem_cons, Prod.mk.injEq, List.not_mem_nil, or_false] at hkind
    rcases hkind with ⟨rfl, -⟩ | ⟨rfl, -⟩ <;> rfl
  have hvalue : ∀ z, Reaches (boolExpr n) w (closing :: z) (pure e) :=
    fun z => reaches_value h (by simp [Token.operator?, hclose]) hn
  -- The condition is judged before the parenthesis behind it is looked for.
  cases hpass : strict && !e.isBoolean with
  | false =>
      have hcondition : Reaches (condition strict n) (opening :: (w ++ [closing])) (v ++ z)
          (pure e) := by
        refine (reaches_expectBracket hopen).seq ((hvalue _).seq ?_)
        exact (reaches_checkCondition_pass hpass).look ((reaches_close hclose).last (.refl _))
      rw [offence_cons_of_pass (hself ▸ hpass), offence_append_of_none h.unconditional]
      rw [show keyword :: opening :: (w ++ closing :: v)
        = [keyword] ++ (opening :: (w ++ [closing]) ++ v) by simp]
      exact (reaches_take (Token.live hk rfl)).seqJudges (hcondition.seqJudges hrest)
  | true =>
      rw [offence_cons_of_refuse (hself ▸ hpass)]
      have hends : EndsCondition (.branchAt keyword.location kind (e :: branches))
          ([] ++ keyword :: opening :: w) closing := .parenthesis hkind hk hopen h hclose
      refine .refused rfl hends ?_
      refine (reaches_take (Token.live hk rfl)).seq (Reaches.refused ?_)
      refine (reaches_expectBracket hopen).seq ?_
      exact (hvalue _).last (reaches_checkCondition_refuse hpass).refused

theorem judges_ifOf {keyword opening closing otherwise : Token} {a b : Node} {r : Rule Node}
    (hk : keyword.terminal = .keyword .if) (hopen : opening.terminal = .leftParen)
    (h : Builds none (.level .or) w e) (hclose : closing.terminal = .rightParen)
    (helse : otherwise.terminal = .keyword .else) (hn : w.length + 1 < n)
    (ha : Judges r u (otherwise :: (v ++ z)) a (offence strict a.nodes))
    (hb : Judges r v z b (offence strict b.nodes)) :
    Judges (ifOf strict r n) (keyword :: opening :: (w ++ closing :: (u ++ otherwise :: v))) z
      (.branchAt keyword.location .ifStmt [e, a, b])
      (offence strict (Node.branchAt keyword.location .ifStmt [e, a, b]).nodes) := by
  have hword : (otherwise.lexeme == .keyword .else) = true := by
    simp [Token.lexeme_of_terminal helse rfl]
  simp only [Node.nodes_branchAt, List.flatMap_cons, List.flatMap_nil, List.append_nil]
  refine judges_condition (by simp) hk hopen h hclose hn ?_
  rw [offence_append]
  refine ha.seq ?_
  exact (reaches_expect hword (Token.live helse rfl)).seqJudges (hb.last (.refl _))

theorem judges_whileOf {keyword opening closing : Token} {a : Node} {r : Rule Node}
    (hk : keyword.terminal = .keyword .while) (hopen : opening.terminal = .leftParen)
    (h : Builds none (.level .or) w e) (hclose : closing.terminal = .rightParen)
    (hn : w.length + 1 < n) (ha : Judges r u z a (offence strict a.nodes)) :
    Judges (whileOf strict r n) (keyword :: opening :: (w ++ closing :: u)) z
      (.branchAt keyword.location .whileLoop [e, a])
      (offence strict (Node.branchAt keyword.location .whileLoop [e, a]).nodes) := by
  simp only [Node.nodes_branchAt, List.flatMap_cons, List.flatMap_nil, List.append_nil]
  exact judges_condition (by simp) hk hopen h hclose hn (ha.last (.refl _))

/-- An empty condition is never looked at. -/
theorem judges_forOf {keyword opening first second closing : Token} {y : List Token}
    {a b c d : Node} {r : Rule Node} (hk : keyword.terminal = .keyword .for) (hopen : opening.terminal = .leftParen)
    (ha : BuildsClause first u a) (hfirst : first.terminal = .semicolon)
    (hb : BuildsClause second v b) (hsecond : second.terminal = .semicolon)
    (hc : BuildsClause closing w c) (hclose : closing.terminal = .rightParen)
    (hn : u.length + v.length + w.length + 1 < n) (hr : Judges r y z d (offence strict d.nodes)) :
    Judges (forOf strict r n)
      (keyword :: opening :: (u ++ first :: (v ++ second :: (w ++ closing :: y)))) z
      (.branchAt keyword.location .forLoop [a, b, c, d])
      (offence strict (Node.branchAt keyword.location .forLoop [a, b, c, d]).nodes) := by
  have hself : (strict &&
      !(Node.branchAt keyword.location .forLoop [a, b, c, d]).hasBooleanCondition)
        = ((strict && b.kind != .empty) && !b.isBoolean) := by
    show (strict && !(b.isBoolean || b.kind == .empty)) = _
    rw [Bool.not_or, Bool.and_comm (!b.isBoolean), Bool.and_assoc]
    rfl
  rw [Node.nodes_branchAt]
  cases hpass : (strict && b.kind != .empty) && !b.isBoolean with
  | false =>
      have hoffence : offence strict (Node.branchAt keyword.location .forLoop [a, b, c, d] ::
          [a, b, c, d].flatMap Node.nodes) = offence strict d.nodes := by
        rw [offence_cons_of_pass (hself.trans hpass)]
        simp only [List.flatMap_cons, List.flatMap_nil, List.append_nil]
        rw [offence_append_of_none ha.unconditional, offence_append_of_none hb.unconditional,
          offence_append_of_none hc.unconditional]
      rw [hoffence]
      refine (reaches_take (Token.live hk rfl)).seqJudges ?_
      refine (reaches_expectBracket hopen).seqJudges ?_
      refine (reaches_forClause ha (.inl hfirst) (by omega)).seqJudges ?_
      refine (reaches_expectSemicolon hfirst).seqJudges ?_
      refine (reaches_forClause hb (.inl hsecond) (by omega)).seqJudges ?_
      refine (reaches_checkCondition_pass hpass).lookJudges ?_
      refine (reaches_expectSemicolon hsecond).seqJudges ?_
      refine (reaches_forClause hc (.inr hclose) (by omega)).seqJudges ?_
      exact (reaches_close hclose).seqJudges (hr.last (.refl _))
  | true =>
      rw [offence_cons_of_refuse (hself.trans hpass)]
      have hends : EndsCondition (.branchAt keyword.location .forLoop [a, b, c, d])
          ([] ++ keyword :: opening :: (u ++ first :: v)) second :=
        .clause hk hopen ha hfirst hb hsecond
      refine .refused (v := w ++ closing :: y) (by simp) hends ?_
      refine (reaches_take (Token.live hk rfl)).seq ((reaches_expectBracket hopen).seq ?_)
      refine (reaches_forClause ha (.inl hfirst) (by omega)).seq ?_
      refine (reaches_expectSemicolon hfirst).seq ?_
      refine (reaches_forClause hb (.inl hsecond) (by omega)).last ?_
      exact (reaches_checkCondition_refuse hpass).refused

/-! ## Statements -/

theorem judges_blockOf {B : List Token → Node → Prop} {opening closing : Token} {r : Rule Node}
    (hB : ∀ w e, B w e → BuildsStmt w e)
    (hr : ∀ w e z, B w e → w.length ≤ u.length → Judges r w z e (offence strict e.nodes))
    (h : Row B u es) (hopen : opening.terminal = .leftCurly)
    (hclose : closing.terminal = .rightCurly) (hn : u.length < n) :
    Judges (blockOf r n) (opening :: (u ++ [closing])) z (.branchAt opening.location .stmtBlock es)
      (offence strict (Node.branchAt opening.location .stmtBlock es).nodes) := by
  rw [Node.nodes_branchAt, offence_cons_of_pass (by simp [Node.hasBooleanCondition, Node.branchAt])]
  refine (reaches_expectBracket hopen).seqJudges ?_
  refine (judges_body (fun w e hw => (hB w e hw).front) hr h hclose hn).seqReaches ?_
  exact (reaches_close hclose).last (.refl _)

/-- The token in front of a statement is noted, and decides. -/
theorem judges_stmt_of {t : Token} {a : Node} {i : Option Node} (hn : 0 < n)
    (h : ∀ m, n = m + 1 → Judges (match t.lexeme with
      | .bracket .leftCurlyBracket => blockOf (stmt strict m) m
      | .keyword .if => ifOf strict (stmt strict m) m
      | .keyword .while => whileOf strict (stmt strict m) m
      | .keyword .for => forOf strict (stmt strict m) m
      | .keyword .break => breakStmt
      | .keyword .return => returnStmt m
      | .keyword k => if k.isType then variableDefine m else refuse .statement t
      | .semicolon _ => emptyStmt
      | .identifier _ => assignStmt m
      | _ => refuse .statement t) (t :: v) z a i) : Judges (stmt strict n) (t :: v) z a i := by
  obtain ⟨m, rfl⟩ : ∃ m, n = m + 1 := ⟨n - 1, by omega⟩
  exact reaches_peek.lookJudges (reaches_note.lookJudges (h m rfl))

/-- By induction on the statement.  The budget goes down by one with each statement inside another,
and the number of tokens by more. -/
theorem judges_stmt (h : BuildsStmt w e) (hn : w.length + 1 < n) :
    Judges (stmt strict n) w z e (offence strict e.nodes) := by
  induction h generalizing n z with
  | @block opening closing parts hopen hclose hparts ih =>
      simp only [List.length_cons, List.length_append, List.length_nil] at hn
      have hrow : Row (fun w e => (w, e) ∈ parts) (parts.flatMap Prod.fst) (parts.map Prod.snd) :=
        .mk fun _ hx => hx
      refine judges_stmt_of (by omega) fun m hm => ?_
      simp only [Token.lexeme_of_terminal hopen rfl]
      exact judges_blockOf (fun w e hw => hparts (w, e) hw)
        (fun w e z hw hlen => ih (w, e) hw (Nat.lt_of_le_of_lt (Nat.succ_le_succ hlen) (by omega)))
        hrow hopen hclose (by omega)
  | ifStmt hk hopen he hclose _ helse _ ihu ihv =>
      simp only [List.length_cons, List.length_append] at hn
      refine judges_stmt_of (by omega) fun m hm => ?_
      simp only [Token.lexeme_of_terminal hk rfl]
      exact judges_ifOf hk hopen he hclose helse (by omega) (ihu (by omega)) (ihv (by omega))
  | whileLoop hk hopen he hclose _ ih =>
      simp only [List.length_cons, List.length_append] at hn
      refine judges_stmt_of (by omega) fun m hm => ?_
      simp only [Token.lexeme_of_terminal hk rfl]
      exact judges_whileOf hk hopen he hclose (by omega) (ih (by omega))
  | forLoop hk hopen ha hfirst hb hsecond hc hclose _ ih =>
      simp only [List.length_cons, List.length_append] at hn
      refine judges_stmt_of (by omega) fun m hm => ?_
      simp only [Token.lexeme_of_terminal hk rfl]
      exact judges_forOf hk hopen ha hfirst hb hsecond hc hclose (by omega) (ih (by omega))
  | breakStmt hk ht =>
      refine judges_stmt_of (by omega) fun m hm => ?_
      simp only [Token.lexeme_of_terminal hk rfl]
      exact (reaches_breakStmt hk ht).judges (Node.unconditional rfl (List.forall_mem_nil _))
  | returnNothing hk ht =>
      refine judges_stmt_of (by omega) fun m hm => ?_
      simp only [Token.lexeme_of_terminal hk rfl]
      exact (reaches_returnStmt hk (reaches_returnValue_none ht) ht).judges
        (Node.unconditional rfl (List.forall_mem_nil _))
  | returnValue hk h ht =>
      simp only [List.length_cons, List.length_append] at hn
      refine judges_stmt_of (by omega) fun m hm => ?_
      simp only [Token.lexeme_of_terminal hk rfl]
      refine (reaches_returnStmt hk (reaches_returnValue h ?_ (by omega)) ht).judges ?_
      · simp [Token.operator?, ht]
      · exact Node.unconditional rfl (List.forall_mem_singleton.mpr h.unconditional)
  | assignStmt h ht =>
      simp only [List.length_append, List.length_cons] at hn
      have hplain := h.unconditional
      have hreach : ∀ m, n = m + 1 → Reaches (assignStmt m) _ z _ :=
        fun m hm => reaches_assignStmt h ht (by omega)
      cases h with
      | mk hname =>
          obtain ⟨text, hl⟩ := Token.exists_text hname
          refine judges_stmt_of (by omega) fun m hm => ?_
          simp only [hl, Terminal.withText]
          exact (hreach m hm).judges hplain
  | localVariables h =>
      have hplain := h.unconditional
      obtain ⟨t, k, v, rfl, ht, hk⟩ := h.front
      refine judges_stmt_of (by omega) fun m hm => ?_
      have hreach := reaches_variableDefine (n := m) (z := z) h (by omega)
      simp only [Token.lexeme_of_terminal ht rfl]
      cases k <;> first | exact hreach.judges hplain | simp [Keyword.isType] at hk
  | empty ht =>
      obtain ⟨text, hl⟩ := Token.exists_text ht
      refine judges_stmt_of (by omega) fun m hm => ?_
      simp only [hl, Terminal.withText]
      refine Reaches.judges ?_ (Node.unconditional rfl (List.forall_mem_nil _))
      exact (reaches_take (Token.live ht rfl)).last (.refl _)

/-! ## Top-level items -/

theorem judges_block (h : BuildsBlock w e) (hn : w.length < n) :
    Judges (block strict n) w z e (offence strict e.nodes) := by
  cases h with
  | mk hopen hclose hrow =>
      simp only [List.length_cons, List.length_append, List.length_nil] at hn
      exact judges_blockOf (fun _ _ hw => hw) (fun w e z hw hlen => judges_stmt hw (by omega)) hrow
        hopen hclose (by omega)

theorem reaches_structDefine {keyword opening closing semicolon : Token}
    (hk : keyword.terminal = .keyword .struct) (hw : w.map Token.terminal ∈ [[], [.identifier]])
    (hopen : opening.terminal = .leftCurly) (h : Row BuildsVariable u es)
    (hclose : closing.terminal = .rightCurly) (ht : semicolon.terminal = .semicolon)
    (hn : u.length < n) :
    Reaches (structDefine n) (keyword :: (w ++ opening :: (u ++ [closing, semicolon]))) z
      (pure (.branchAt keyword.location .structDefine (w.map .leaf ++ es))) := by
  have hname : opening.kind ≠ .identifier := by
    rw [Token.kind_of_terminal hopen]
    simp [Terminal.kind]
  have hfront : ∀ w e, BuildsVariable w e →
      ∃ t v, w = t :: v ∧ t.terminal ≠ .rightCurly ∧ t.atEnd = false := by
    intro w e h
    obtain ⟨t, k, v, rfl, ht, -⟩ := h.front
    exact ⟨t, v, rfl, by simp [ht], Token.live ht rfl⟩
  -- Members hold no condition, so nothing depends on how strict their reading is.
  have hmembers : ∀ z, Judges (repeatWhile insideBody (member n >>= fun e => pure [e]) n) u
      (closing :: z) es (offence false (es.flatMap Node.nodes)) :=
    fun z => judges_body hfront
      (fun w e z hw hlen => .passed (reaches_member hw (by omega))) h hclose hn
  refine (reaches_take (Token.live hk rfl)).seq ?_
  refine (reaches_optionalName hname hw).seq ((reaches_expectBracket hopen).seq ?_)
  refine (hmembers _).reaches.seq ?_
  exact (reaches_close hclose).seq ((reaches_expectSemicolon ht).last (.refl _))

/-- The type and the name that a function or a variable begins with, and what goes on from there. -/
theorem judges_declaration {type : List Token} {name next : Token} {a e : Node} {i : Option Node}
    (htype : BuildsType TypeWords.result type a) (hname : name.terminal = .identifier)
    (h : Judges (if next.isBracket .leftParenthesis then functionRest strict a (.leaf name) n
      else if isVoid a then refuse .callAfterVoid next else variableRest a (.leaf name) n)
      (next :: v) z e i) :
    Judges (declaration strict n) (type ++ name :: next :: v) z e i := by
  have hamong : ∀ us ∈ TypeWords.result, us ∈ TypeWords.object ∨ true = true ∧ us = [.void] := by
    decide
  refine (reaches_variableType hamong htype hname).seqJudges ?_
  exact (reaches_expectIdentifier hname).seqJudges (reaches_peek.lookJudges h)

/-- Arguments have no conditions, so an offence is one of what stands behind them. -/
theorem judges_functionRest {type name a : Node} {opening closing : Token} {i : Option Node}
    (hopen : opening.terminal = .leftParen) (hargs : BuildsArgs w es)
    (hclose : closing.terminal = .rightParen) (hn : w.length < n)
    (h : Judges (match t.lexeme with
      | .semicolon _ => take >>= fun _ => pure (.branch .funcDeclare (type :: name :: es))
      | .bracket .leftCurlyBracket =>
        block strict n >>= fun body => pure (.branch .funcDefine (type :: name :: es ++ [body]))
      | _ => refuse .bodyOrSemicolon t) (t :: v) z a i) :
    Judges (functionRest strict type name n) (opening :: (w ++ closing :: t :: v)) z a i := by
  refine (reaches_expectBracket hopen).seqJudges ?_
  refine (reaches_arguments hargs hclose hn).seqJudges ?_
  exact (reaches_close hclose).seqJudges (reaches_peek.lookJudges h)

/-- A global variable is told from a function by the token behind its name. -/
theorem judges_global (h : BuildsVariable w e) (hn : w.length < n) :
    Judges (declaration strict n) w z e (offence strict e.nodes) := by
  have hplain := h.unconditional
  cases h with
  | @mk type others a es name semicolon htype hname hothers hsemi =>
      simp only [List.length_append, List.length_cons] at hn
      have hrest : Reaches (variableRest a (.leaf name) n) (others ++ [semicolon]) z
          (pure (.branch .variableDefine (a :: .leaf name :: es))) :=
        reaches_variableRest hothers hsemi (by omega)
      obtain ⟨next, v, hfront, hnext⟩ : ∃ next v, others ++ [semicolon] = next :: v ∧
          (next.terminal = .comma ∨ next.terminal = .semicolon) := by
        cases hothers with
        | @mk parts hparts =>
            cases parts with
            | nil => exact ⟨semicolon, [], rfl, .inr hsemi⟩
            | cons y parts =>
                obtain ⟨w, e⟩ := y
                cases hparts _ List.mem_cons_self with
                | mk hcomma _ => exact ⟨_, _, rfl, .inl hcomma⟩
      have hvoid : isVoid a = false := by
        obtain ⟨t, k, v, us, hus, rfl, ht, hk, -⟩ :=
          htype.front fun us hus => List.mem_cons_of_mem _ hus
        have hne : k ≠ .void := fun heq => TypeWords.object_head us hus (heq ▸ hk)
        rw [htype.node]
        simp [isVoid, Node.branch, Node.leaf, Token.isKeyword, Token.lexeme_of_terminal ht rfl, hne]
      rw [hfront] at hrest ⊢
      refine judges_declaration ⟨?_, htype.node⟩ hname ?_
      · obtain ⟨us, hus, hw⟩ := htype.words
        exact ⟨us, List.mem_cons_of_mem _ hus, hw⟩
      · have hparen : next.isBracket .leftParenthesis = false :=
          Token.isBracket_eq_false (by rcases hnext with hnext | hnext <;> simp [hnext])
        rw [hparen, hvoid]
        exact hrest.judges hplain

/-- An item that begins with a type is a declaration. -/
theorem judges_item_of_type {i : Option Node} (ht : t.terminal = .keyword k) (hk : k.isType = true)
    (h : Judges (declaration strict n) (t :: v) z e i) : Judges (item strict n) (t :: v) z e i := by
  refine reaches_peek.lookJudges (reaches_note.lookJudges ?_)
  simp only [Token.lexeme_of_terminal ht rfl]
  cases k <;> first | exact h | simp [Keyword.isType] at hk

/-- Of all that a function holds, only its body has conditions. -/
theorem offence_funcDefine {name : Token} {a b : Node} (htype : BuildsType TypeWords.result u a)
    (hargs : BuildsArgs w es) :
    offence strict (Node.branch .funcDefine (a :: .leaf name :: es ++ [b])).nodes
      = offence strict b.nodes := by
  rw [Node.nodes_branch, offence_cons_of_pass (by simp [Node.hasBooleanCondition, Node.branch]),
    List.flatMap_append, List.flatMap_singleton, offence_append_of_none]
  intro n hn
  obtain ⟨c, hc, hn⟩ := List.mem_flatMap.mp hn
  exact unconditional_signature htype hargs c hc n hn

/-- Only the body of a function may have an offence. -/
theorem judges_item (h : BuildsItem w e) (hn : w.length < n) :
    Judges (item strict n) w z e (offence strict e.nodes) := by
  cases h with
  | line ht =>
      obtain ⟨text, hl⟩ := Token.exists_text ht
      refine reaches_peek.lookJudges (reaches_note.lookJudges ?_)
      simp only [hl, Terminal.withText]
      exact (reaches_takeLeaf (Token.live ht rfl)).judges (Node.unconditional_leaf _)
  | @structDefine keyword _ _ _ name _ es hk hname hopen hrow hclose ht =>
      simp only [List.length_cons, List.length_append] at hn
      have hplain : (Node.branchAt keyword.location .structDefine
          (name.map .leaf ++ es)).Unconditional :=
        Node.unconditional rfl (List.forall_mem_append.mpr ⟨Node.unconditional_leaves name,
          hrow.forall_mem fun _ _ h => h.unconditional⟩)
      refine reaches_peek.lookJudges (reaches_note.lookJudges ?_)
      simp only [Token.lexeme_of_terminal hk rfl]
      exact (reaches_structDefine hk hname hopen hrow hclose ht (by omega)).judges hplain
  | funcDeclare htype hname hopen hargs hclose ht =>
      simp only [List.length_cons, List.length_append] at hn
      obtain ⟨text, hl⟩ := Token.exists_text ht
      obtain ⟨t, k, v, us, -, rfl, htk, -, hk⟩ := htype.front fun _ hus => hus
      refine judges_item_of_type htk hk (judges_declaration htype hname ?_)
      rw [if_pos (by simp [Token.isBracket, Token.lexeme_of_terminal hopen rfl])]
      refine judges_functionRest hopen hargs hclose (by omega) ?_
      simp only [hl, Terminal.withText]
      refine Reaches.judges ?_ (Node.unconditional_branch rfl (unconditional_signature htype hargs))
      exact (reaches_take (Token.live ht rfl)).last (.refl _)
  | @funcDefine _ _ _ _ _ _ _ b _ htype hname hopen hargs hclose hbody =>
      simp only [List.length_cons, List.length_append] at hn
      have hblock : Judges (block strict n) _ z b (offence strict b.nodes) :=
        judges_block hbody (by omega)
      rw [offence_funcDefine htype hargs]
      obtain ⟨t, k, v, us, -, rfl, htk, -, hk⟩ := htype.front fun _ hus => hus
      refine judges_item_of_type htk hk (judges_declaration htype hname ?_)
      rw [if_pos (by simp [Token.isBracket, Token.lexeme_of_terminal hopen rfl])]
      cases hbody with
      | mk hcurly _ _ =>
          refine judges_functionRest hopen hargs hclose (by omega) ?_
          simp only [Token.lexeme_of_terminal hcurly rfl]
          exact hblock.last (.refl _)
  | global h =>
      have hdeclaration : Judges (declaration strict n) w z e (offence strict e.nodes) :=
        judges_global h hn
      obtain ⟨t, k, v, rfl, ht, hk⟩ := h.front
      exact judges_item_of_type ht hk hdeclaration

/-- A whole source, up to the end mark. -/
theorem judges_items {mark : Token} (h : Row BuildsItem w es) (hmark : mark.atEnd = true)
    (hn : w.length < n) :
    Judges (items strict n) w (mark :: z) es (offence strict (es.flatMap Node.nodes)) := by
  refine judges_row (fun w e hw => ?_) (fun w e z hw hlen => judges_item hw (by omega)) h ?_ hn
  · obtain ⟨t, v, rfl, hlive⟩ := hw.front
    exact ⟨t, v, rfl, by simp [hlive]⟩
  · simp [hmark]

end Rule

end MiniC
