/-
# MiniC.Proofs.Yield — a tree keeps the tokens that mean something, each once and in order.

Names, numbers, preprocessor lines, operators and the keywords of types become leaves.  Brackets,
commas, semicolons, equals signs and the keywords of control only shape the tree, and so does the
`void` of an argument list that is empty.  Which of the two a token is can be told from it and the
token before it; so the leaves of a tree, read in the order of `walk`, are what remains of the token
stream when the others are struck out.
-/
import Mathlib.Data.List.Nodup
import MiniC.Proofs.Strictness

namespace MiniC

/-! ## Tokens that are kept -/

namespace Token

/-- A tree keeps the token, if `before` stands before it. -/
def isKept (before : Option Token) (t : Token) : Bool :=
  match t.lexeme with
  | .preprocessor _ | .identifier _ | .number _ => true
  | .operator o => o != .assign
  | .keyword k => k.isType && !(k == .void && before.any (·.isBracket .leftParenthesis))
  | _ => false

/-- Each token with the one before it; the first stands behind `before`. -/
def contexts (before : Option Token) (ts : List Token) : List (Option Token × Token) :=
  (before :: ts.map some).zip ts

/-- The tokens that a tree keeps. -/
def kept (before : Option Token) (ts : List Token) : List Token :=
  ((contexts before ts).filter fun x => x.2.isKept x.1).map (·.2)

variable {before : Option Token} {t : Token} {ts us : List Token}

theorem kept_cons : kept before (t :: ts)
    = if t.isKept before then t :: kept (some t) ts else kept (some t) ts := by
  show (((before, t) :: contexts (some t) ts).filter _).map _ = _
  rw [List.filter_cons]
  split <;> rfl

/-- Whether a token is kept depends on the one before it, so the second list is seen behind the first.
-/
theorem kept_append :
    kept before (ts ++ us) = kept before ts ++ kept (ts.getLast?.or before) us := by
  induction ts generalizing before with
  | nil => rfl
  | cons t ts ih =>
      have hlast : (t :: ts).getLast?.or before = ts.getLast?.or (some t) := by
        rw [List.getLast?_cons, Option.some_or, Option.or_some]
      rw [List.cons_append, kept_cons, kept_cons, ih, hlast]
      split <;> rfl

theorem map_contexts : (contexts before ts).map (·.2) = ts :=
  List.map_snd_zip (by simp)

theorem mem_of_mem_kept (h : t ∈ kept before ts) : t ∈ ts := by
  obtain ⟨x, hx, rfl⟩ := List.mem_map.mp h
  have hctx : (contexts before ts).map (·.2) = ts := map_contexts
  rw [← hctx]
  exact List.mem_map_of_mem (List.mem_of_mem_filter hx)

/-- Where no token stands twice, a token is kept in all places or in none. -/
theorem isKept_of_mem_kept (hnodup : ts.Nodup) {x : Option Token × Token}
    (hx : x ∈ contexts before ts) (hmem : x.2 ∈ kept before ts) : x.2.isKept x.1 = true := by
  obtain ⟨y, hy, hyx⟩ := List.mem_map.mp hmem
  obtain ⟨hy, hkept⟩ := List.mem_filter.mp hy
  have hmap : (contexts before ts).map (·.2) = ts := map_contexts
  rw [← hmap] at hnodup
  rw [← List.inj_on_of_nodup_map hnodup hy hx hyx]
  exact hkept

/-- The end mark is never kept. -/
theorem isKept_of_atEnd (h : t.atEnd = true) : t.isKept before = false := by
  unfold isKept
  cases hl : t.lexeme <;> simp_all [atEnd, kind, Lexeme.kind]

end Token

/-- What `Token.isKept` makes of a letter of the grammar, behind an opening parenthesis or not. -/
def Terminal.isKept (behindParen : Bool) : Terminal → Bool
  | .preprocessor | .identifier | .number => true
  | .operator o => o != .assign
  | .keyword k => k.isType && !(k == .void && behindParen)
  | _ => false

/-- The terminal decides, together with whether a parenthesis opens just before. -/
theorem Token.isKept_of_terminal {before : Option Token} {t : Token} {c : Terminal}
    (h : t.terminal = c) :
    t.isKept before = c.isKept (before.any (·.isBracket .leftParenthesis)) := by
  subst h
  unfold isKept terminal
  cases t.lexeme <;> rfl

/-! ## Trees that keep -/

/-- The nodes, with all below them, hold the tokens that are kept of `w`, in order, and in leaves
only. -/
structure KeepsAfter (before : Option Token) (es : List Node) (w : List Token) : Prop where
  tokens : (es.flatMap Node.nodes).filterMap Node.token = Token.kept before w
  leaves : ∀ n ∈ es.flatMap Node.nodes, n.isTerminal = n.token.isSome

/-- The same, whatever stands before. -/
def Keeps (es : List Node) (w : List Token) : Prop := ∀ before, KeepsAfter before es w

namespace KeepsAfter

variable {before : Option Token} {t : Token} {u v w : List Token} {es fs : List Node}
  {kind : NodeKind}

theorem nil : KeepsAfter before [] [] := ⟨rfl, by simp⟩

theorem append (h : KeepsAfter before es u) (h' : KeepsAfter (u.getLast?.or before) fs v) :
    KeepsAfter before (es ++ fs) (u ++ v) := by
  refine ⟨?_, ?_⟩
  · rw [List.flatMap_append, List.filterMap_append, h.tokens, h'.tokens, Token.kept_append]
  · rw [List.flatMap_append, List.forall_mem_append]
    exact ⟨h.leaves, h'.leaves⟩

theorem leaf (ht : t.isKept before = true) (h : KeepsAfter (some t) es w) :
    KeepsAfter before (.leaf t :: es) (t :: w) := by
  refine ⟨?_, ?_⟩
  · rw [List.flatMap_cons, Node.nodes_leaf, List.singleton_append, List.filterMap_cons, h.tokens,
      Token.kept_cons, if_pos ht]
    rfl
  · rw [List.flatMap_cons, Node.nodes_leaf, List.singleton_append, List.forall_mem_cons]
    exact ⟨rfl, h.leaves⟩

theorem skip (ht : t.isKept before = false) (h : KeepsAfter (some t) es w) :
    KeepsAfter before es (t :: w) := by
  refine ⟨?_, h.leaves⟩
  rw [Token.kept_cons, ht, if_neg (by simp), h.tokens]

/-- A node over others adds no token. -/
theorem node {n : Node} (hkind : n.kind ≠ .terminal) (hnone : n.token = none)
    (h : KeepsAfter before n.children w) : KeepsAfter before [n] w := by
  have hnodes : [n].flatMap Node.nodes = n :: n.children.flatMap Node.nodes := by
    rw [List.flatMap_singleton, Node.nodes_eq]
  refine ⟨?_, ?_⟩
  · rw [hnodes, List.filterMap_cons, hnone, h.tokens]
  · rw [hnodes, List.forall_mem_cons]
    exact ⟨by simpa [Node.isTerminal, hnone] using hkind, h.leaves⟩

theorem branch (hkind : kind ≠ .terminal) (h : KeepsAfter before es w) :
    KeepsAfter before [.branch kind es] w := .node hkind rfl h

theorem branchAt {l : Location} (hkind : kind ≠ .terminal) (h : KeepsAfter before es w) :
    KeepsAfter before [.branchAt l kind es] w := .node hkind rfl h

end KeepsAfter

namespace Keeps

variable {c : Terminal} {t : Token} {u v w : List Token} {es fs : List Node} {kind : NodeKind}

theorem nil : Keeps [] [] := fun _ => .nil

theorem append (h : Keeps es u) (h' : Keeps fs v) : Keeps (es ++ fs) (u ++ v) :=
  fun before => (h before).append (h' _)

theorem leaf (ht : t.terminal = c) (hc : ∀ b, c.isKept b = true) (h : Keeps es w) :
    Keeps (.leaf t :: es) (t :: w) :=
  fun _ => .leaf (by rw [Token.isKept_of_terminal ht, hc]) (h _)

theorem skip (ht : t.terminal = c) (hc : ∀ b, c.isKept b = false) (h : Keeps es w) :
    Keeps es (t :: w) :=
  fun _ => .skip (by rw [Token.isKept_of_terminal ht, hc]) (h _)

/-- What follows leaves no node. -/
theorem append_nil (h : Keeps es u) (h' : Keeps [] v) : Keeps es (u ++ v) := by
  rw [← List.append_nil es]
  exact h.append h'

theorem branch (hkind : kind ≠ .terminal) (h : Keeps es w) : Keeps [.branch kind es] w :=
  fun before => (h before).branch hkind

theorem branchAt {l : Location} (hkind : kind ≠ .terminal) (h : Keeps es w) :
    Keeps [.branchAt l kind es] w :=
  fun before => (h before).branchAt hkind

end Keeps

/-! ## Expressions -/

/-- The operators of chains are all kept. -/
theorem Level.isKept_joins {l : Level} {o : Operator} (h : o ∈ l.joins) (b : Bool) :
    (Terminal.operator o).isKept b = true := by
  have hne : o ≠ .assign := fun heq => l.assign_notMem (heq ▸ h)
  simpa [Terminal.isKept] using hne

theorem Level.kind_ne_terminal (l : Level) : l.kind ≠ .terminal := by
  cases l <;> decide

mutual

/-- Parentheses and nothing else are dropped from an expression. -/
theorem Builds.keeps {next : Option Operator} {s : Symbol} {w : List Token} {e : Node}
    (h : Builds next s w e) : Keeps [e] w := by
  match h with
  | .operand h | .sum h => exact h.keeps
  | .chain h => exact .branch (Level.kind_ne_terminal _) h.keeps
  | .not hop _ h => exact .branch (by decide) (.leaf hop (fun _ => rfl) h.keeps)
  | .group hopen hclose h | .paren hopen hclose h =>
      exact .skip hopen (fun _ => rfl) (h.keeps.append_nil (.skip hclose (fun _ => rfl) .nil))
  | .name ht | .number ht => exact .leaf ht (fun _ => rfl) .nil

/-- A chain keeps each of its operators as a leaf. -/
theorem Spine.keeps {next : Option Operator} {l : Level} {w : List Token} {children : List Node}
    (h : Spine next l w children) : Keeps children w := by
  match h with
  | .pair ha hop hmem hb =>
      exact ha.keeps.append (.leaf hop (Level.isKept_joins hmem) hb.keeps)
  | .more hsub hop hmem hb =>
      exact hsub.keeps.append (.leaf hop (Level.isKept_joins hmem) hb.keeps)

end

/-! ## Declarations -/

section Declarations

variable {B : List Token → Node → Prop} {w : List Token} {e : Node} {es : List Node}

theorem Row.keeps (h : Row B w es) (hB : ∀ w e, B w e → Keeps [e] w) : Keeps es w := by
  cases h with
  | @mk parts hparts =>
      induction parts with
      | nil => exact .nil
      | cons x parts ih =>
          rw [List.forall_mem_cons] at hparts
          exact (hB _ _ hparts.1).append (ih hparts.2)

theorem AfterComma.keeps (h : AfterComma B w e) (hB : ∀ w e, B w e → Keeps [e] w) :
    Keeps [e] w := by
  cases h with
  | mk hcomma h => exact .skip hcomma (fun _ => rfl) (hB _ _ h)

theorem BuildsName.keeps (h : BuildsName w e) : Keeps [e] w := by
  cases h with
  | mk ht => exact .leaf ht (fun _ => rfl) .nil

/-- Leaves over words that are all kept. -/
theorem keeps_leaves (h : ∀ c ∈ w.map Token.terminal, ∀ b, c.isKept b = true) :
    Keeps (w.map .leaf) w := by
  induction w with
  | nil => exact .nil
  | cons t w ih =>
      rw [List.map_cons, List.forall_mem_cons] at h
      exact .leaf rfl h.1 (ih h.2)

theorem BuildsType.keeps (h : BuildsType TypeWords.object w e) : Keeps [e] w := by
  have hobject : ∀ us ∈ TypeWords.object, ∀ k ∈ us, ∀ b, (Terminal.keyword k).isKept b = true := by
    decide
  obtain ⟨us, hus, hw⟩ := h.words
  rw [h.node]
  refine .branch (by decide) (keeps_leaves ?_)
  rw [hw, List.forall_mem_map]
  exact hobject us hus

/-- The result of a function may be `void`, which is kept as no parenthesis stands before it. -/
theorem BuildsType.keepsAfter {before : Option Token} (h : BuildsType TypeWords.result w e)
    (hbefore : before.any (·.isBracket .leftParenthesis) = false) : KeepsAfter before [e] w := by
  have hresult : ∀ us ∈ TypeWords.result, us ∈ TypeWords.object ∨ us = [.void] := by
    decide
  obtain ⟨us, hus, hw⟩ := h.words
  rcases hresult us hus with hus | rfl
  · exact BuildsType.keeps ⟨⟨us, hus, hw⟩, h.node⟩ before
  · obtain ⟨t, rfl, ht⟩ := List.map_eq_singleton_iff.mp hw
    rw [h.node]
    refine .branch (by decide) (.leaf ?_ .nil)
    rw [Token.isKept_of_terminal ht, hbefore]
    rfl

theorem BuildsVariable.keeps (h : BuildsVariable w e) : Keeps [e] w := by
  cases h with
  | mk htype hname hothers hsemi =>
      have hnames := hothers.keeps fun w e h => h.keeps fun _ _ => BuildsName.keeps
      refine .branch (by decide) (htype.keeps.append (.leaf hname (fun _ => rfl) ?_))
      exact hnames.append_nil (.skip hsemi (fun _ => rfl) .nil)

theorem BuildsArg.keeps (h : BuildsArg w e) : Keeps [e] w := by
  cases h with
  | mk htype hname =>
      exact .branch (by decide) (htype.keeps.append (.leaf hname (fun _ => rfl) .nil))

/-- Behind the parenthesis that opens the arguments. -/
theorem BuildsArgs.keepsAfter {opening : Token} (h : BuildsArgs w es)
    (hopen : opening.terminal = .leftParen) : KeepsAfter (Option.some opening) es w := by
  cases h with
  | none => exact .nil
  | void ht =>
      refine .skip ?_ .nil
      rw [Token.isKept_of_terminal ht]
      simp [Terminal.isKept, Token.isBracket, Token.lexeme_of_terminal hopen rfl]
  | some hfirst hothers =>
      exact hfirst.keeps.append (hothers.keeps fun w e h => h.keeps fun _ _ => BuildsArg.keeps) _

end Declarations

/-! ## Statements -/

section Statements

variable {w : List Token} {e : Node} {es : List Node}

theorem BuildsAssignment.keeps (h : BuildsAssignment w e) : Keeps [e] w := by
  cases h with
  | mk hname hassign h =>
      exact .branch (by decide) (.leaf hname (fun _ => rfl) (.skip hassign (fun _ => rfl) h.keeps))

theorem BuildsClause.keeps {next : Token} (h : BuildsClause next w e) : Keeps [e] w := by
  cases h with
  | none => exact .branchAt (by decide) .nil
  | assignment h => exact h.keeps
  | expression h => exact h.keeps

/-- By induction on the statement.  Keywords and punctuation go; what they stand around is kept. -/
theorem BuildsStmt.keeps (h : BuildsStmt w e) : Keeps [e] w := by
  induction h with
  | @block _ _ parts hopen hclose _ ih =>
      have hrow : Row (fun w e => (w, e) ∈ parts) (parts.flatMap Prod.fst) (parts.map Prod.snd) :=
        .mk fun _ hx => hx
      have hbody := hrow.keeps fun w e hx => ih (w, e) hx
      refine .branchAt (by decide) (.skip hopen (fun _ => rfl) (hbody.append_nil ?_))
      exact .skip hclose (fun _ => rfl) .nil
  | ifStmt hk hopen he hclose _ helse _ ihu ihv =>
      refine .branchAt (by decide) (.skip hk (fun _ => rfl) (.skip hopen (fun _ => rfl) ?_))
      refine he.keeps.append (.skip hclose (fun _ => rfl) ?_)
      exact ihu.append (.skip helse (fun _ => rfl) ihv)
  | whileLoop hk hopen he hclose _ ih =>
      refine .branchAt (by decide) (.skip hk (fun _ => rfl) (.skip hopen (fun _ => rfl) ?_))
      exact he.keeps.append (.skip hclose (fun _ => rfl) ih)
  | forLoop hk hopen ha hfirst hb hsecond hc hclose _ ih =>
      refine .branchAt (by decide) (.skip hk (fun _ => rfl) (.skip hopen (fun _ => rfl) ?_))
      refine ha.keeps.append (.skip hfirst (fun _ => rfl) ?_)
      refine hb.keeps.append (.skip hsecond (fun _ => rfl) ?_)
      exact hc.keeps.append (.skip hclose (fun _ => rfl) ih)
  | breakStmt hk ht | returnNothing hk ht =>
      exact .branchAt (by decide) (.skip hk (fun _ => rfl) (.skip ht (fun _ => rfl) .nil))
  | returnValue hk h ht =>
      refine .branchAt (by decide) (.skip hk (fun _ => rfl) ?_)
      exact h.keeps.append_nil (.skip ht (fun _ => rfl) .nil)
  | assignStmt h ht => exact h.keeps.append_nil (.skip ht (fun _ => rfl) .nil)
  | localVariables h => exact h.keeps
  | empty ht => exact .branchAt (by decide) (.skip ht (fun _ => rfl) .nil)

end Statements

/-! ## Whole sources -/

section Items

variable {before : Option Token} {w : List Token} {e : Node} {es : List Node}

/-- The type and the name of a function and its arguments, with the parentheses around them. -/
theorem keepsAfter_signature {type args rest : List Token} {name opening closing : Token}
    {fs : List Node} (hbefore : before.any (·.isBracket .leftParenthesis) = false)
    (htype : BuildsType TypeWords.result type e) (hname : name.terminal = .identifier)
    (hopen : opening.terminal = .leftParen) (hargs : BuildsArgs args es)
    (hclose : closing.terminal = .rightParen) (hrest : Keeps fs rest) :
    KeepsAfter before (e :: .leaf name :: es ++ fs)
      (type ++ name :: opening :: (args ++ closing :: rest)) := by
  have hname' : name.isKept (type.getLast?.or before) = true := by
    rw [Token.isKept_of_terminal hname]
    rfl
  have hopen' : opening.isKept (some name) = false := by
    rw [Token.isKept_of_terminal hopen]
    rfl
  have hlist : KeepsAfter (some opening) (es ++ fs) (args ++ closing :: rest) :=
    (hargs.keepsAfter hopen).append (hrest.skip hclose (fun _ => rfl) _)
  exact (htype.keepsAfter hbefore).append (.leaf hname' (.skip hopen' hlist))

/-- An item does not start behind a parenthesis, so that a `void` in front of it is a type, and kept.
-/
theorem BuildsItem.keepsAfter (h : BuildsItem w e)
    (hbefore : before.any (·.isBracket .leftParenthesis) = false) : KeepsAfter before [e] w := by
  cases h with
  | line ht => exact Keeps.leaf ht (fun _ => rfl) .nil before
  | @structDefine _ _ _ _ name _ _ hk hname hopen hrow hclose ht =>
      have hleaves : Keeps (name.map .leaf) name := by
        refine keeps_leaves ?_
        simp only [List.mem_cons, List.not_mem_nil, or_false] at hname
        rcases hname with hname | hname <;> simp [hname, Terminal.isKept]
      have hmembers := (hrow.keeps fun _ _ => BuildsVariable.keeps).append_nil
        (.skip hclose (fun _ => rfl) (.skip ht (fun _ => rfl) .nil))
      refine Keeps.branchAt (by decide) (.skip hk (fun _ => rfl) ?_) before
      exact hleaves.append (.skip hopen (fun _ => rfl) hmembers)
  | funcDeclare htype hname hopen hargs hclose ht =>
      have hsignature := keepsAfter_signature hbefore htype hname hopen hargs hclose
        (.skip ht (fun _ => rfl) .nil)
      rw [List.append_nil] at hsignature
      exact hsignature.branch (by decide)
  | funcDefine htype hname hopen hargs hclose hbody =>
      have hsignature := keepsAfter_signature hbefore htype hname hopen hargs hclose hbody.stmt.keeps
      exact hsignature.branch (by decide)
  | global h => exact h.keeps before

/-- No item ends with an opening parenthesis. -/
theorem BuildsItem.last (h : BuildsItem w e) :
    ∃ u t, w = u ++ [t] ∧ t.isBracket .leftParenthesis = false := by
  have hends : ∀ (u : List Token) {t c}, t.terminal = c → c ≠ .leftParen → w = u ++ [t] →
      ∃ u t, w = u ++ [t] ∧ t.isBracket .leftParenthesis = false :=
    fun u t c ht hc hw => ⟨u, t, hw, Token.isBracket_eq_false (ht ▸ hc)⟩
  cases h with
  | line ht => exact hends [] ht (by decide) rfl
  | @structDefine keyword opening closing semicolon name members _ _ _ _ _ _ ht =>
      exact hends (keyword :: (name ++ opening :: (members ++ [closing]))) ht (by decide) (by simp)
  | @funcDeclare name opening closing semicolon type args _ _ _ _ _ _ _ ht =>
      exact hends (type ++ name :: opening :: (args ++ [closing])) ht (by decide) (by simp)
  | @funcDefine name opening closing type args _ _ _ _ _ _ _ _ _ hbody =>
      cases hbody with
      | @mk curly _ w _ _ ht _ =>
          exact hends (type ++ name :: opening :: (args ++ closing :: curly :: w)) ht (by decide)
            (by simp)
  | global h =>
      cases h with
      | @mk type others _ _ name _ _ _ _ ht =>
          exact hends (type ++ name :: others) ht (by decide) (by simp)

theorem keepsAfter_items (h : Row BuildsItem w es)
    (hbefore : before.any (·.isBracket .leftParenthesis) = false) : KeepsAfter before es w := by
  cases h with
  | @mk parts hparts =>
      induction parts generalizing before with
      | nil => exact .nil
      | cons x parts ih =>
          rw [List.forall_mem_cons] at hparts
          -- What stands before the next item is the end of this one, which opens no arguments.
          obtain ⟨u, t, hu, ht⟩ := hparts.1.last
          have hlast : (x.1.getLast?.or before).any (·.isBracket .leftParenthesis) = false := by
            simpa [hu] using ht
          exact (hparts.1.keepsAfter hbefore).append (ih hlast hparts.2)

end Items

/-- Where leaves and only leaves have tokens, the tokens of the leaves are all tokens there are. -/
theorem map_token_of_leaves {ns : List Node} (h : ∀ n ∈ ns, n.isTerminal = n.token.isSome) :
    (ns.filter Node.isTerminal).map Node.token = (ns.filterMap Node.token).map some := by
  induction ns with
  | nil => rfl
  | cons n ns ih =>
      rw [List.forall_mem_cons] at h
      cases htoken : n.token with
      | none => simp [htoken, h.1, ih h.2]
      | some t => simp [htoken, h.1, ih h.2]

namespace Options

variable {o : Options} {source : Bytes} {name : Option String} {r : Parsed}

/-- The leaves of an accepted source, in the order of `walk`, are the tokens of the source that are
kept, and no other token of the source is in any node. -/
theorem leaves_are_kept_tokens (h : (o.parse source name).1 = .ok r) :
    ∃ tokens, (o.tokenize source name).1 = .ok tokens ∧
      ((r.tree.walk.map (·.2)).filter Node.isTerminal).map Node.token
        = (Token.kept none tokens).map some ∧
      ∀ x ∈ Token.contexts none tokens, x.2.isKept x.1 = false →
        ∀ y ∈ r.tree.walk, y.2.token ≠ some x.2 := by
  obtain ⟨ts, mark, es, hholds, hes, -, rfl⟩ := holds_of_parse_ok h
  have hroot : KeepsAfter none [(o.accepted name ts es).tree.root] (ts ++ [mark]) := by
    have hitems : KeepsAfter none es ts := keepsAfter_items hes rfl
    have hall := hitems.append (.skip (Token.isKept_of_atEnd hholds.atEnd) .nil)
    rw [List.append_nil] at hall
    exact hall.branchAt (by decide)
  obtain ⟨htokens, hleaves⟩ := hroot
  rw [List.flatMap_singleton, ← Tree.map_walk] at htokens hleaves
  refine ⟨ts ++ [mark], (o.tokenize_eq_ok_iff source name).mpr ⟨ts, mark, hholds, rfl⟩, ?_, ?_⟩
  · rw [map_token_of_leaves hleaves, htokens]
  · intro x hx hdropped y hy htoken
    -- A token may look like one that is kept; it is not the same token, as none stands twice.
    have hmem : x.2 ∈ Token.kept none (ts ++ [mark]) := by
      rw [← htokens]
      exact List.mem_filterMap.mpr ⟨y.2, List.mem_map_of_mem hy, htoken⟩
    have hnodup : (ts ++ [mark]).Nodup := by
      rw [← hholds.stream_eq]
      exact Reader.nodup_stream _
    rw [Token.isKept_of_mem_kept hnodup hx hmem] at hdropped
    cases hdropped

/-- The first `void` is a leaf, the second is not, and neither is the equals sign. -/
theorem leaves_of_void_function : ∃ r,
    (({} : Options).parse (utf8 "void f(void)\x7bx=(a+1)*b;\x7d") none).1 = .ok r ∧
      ((r.tree.walk.map (·.2)).filter Node.isTerminal).map (fun n => n.token.map Token.lexeme)
        = [.keyword .void, .identifier (some (utf8 "f")), .identifier (some (utf8 "x")),
          .identifier (some (utf8 "a")), .operator .add, .number (some (utf8 "1")), .operator .mul,
          .identifier (some (utf8 "b"))].map some := by
  have hok :
      (({} : Options).parse (utf8 "void f(void)\x7bx=(a+1)*b;\x7d") none).1.toBool = true := by
    decide +kernel
  have hkept : (({} : Options).tokenize (utf8 "void f(void)\x7bx=(a+1)*b;\x7d") none).1.toOption.map
      (fun tokens => (Token.kept none tokens).map Token.lexeme)
        = some [.keyword .void, .identifier (some (utf8 "f")), .identifier (some (utf8 "x")),
          .identifier (some (utf8 "a")), .operator .add, .number (some (utf8 "1")), .operator .mul,
          .identifier (some (utf8 "b"))] := by
    decide +kernel
  obtain ⟨r, hparse⟩ := exists_ok_of_toBool hok
  obtain ⟨tokens, htokens, hleaves, -⟩ := leaves_are_kept_tokens hparse
  rw [htokens] at hkept
  refine ⟨r, hparse, ?_⟩
  rw [← Option.some.inj hkept]
  have hmap := congrArg (List.map (Option.map Token.lexeme)) hleaves
  simpa [List.map_map, Function.comp_def] using hmap

end Options

end MiniC
