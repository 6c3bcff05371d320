/-
# MiniC.Proofs.Acceptance — a source is accepted if and only if its tokens are a word.

The parser asks its reader for one token at a time, `Reader.drain` for all of them.  What a reader
holds is said once (`Reader.Holds`), and both are measured against it: draining gives it, and a
parser that succeeds has taken all of it but the end mark.
-/
import MiniC.Frontend
import MiniC.Proofs.Building

namespace MiniC

namespace Reader

/-! ## What a reader holds -/

/-- The reader answers with these tokens, none of them the end mark, and then with the end mark. -/
structure Holds (r : Reader) (ts : List Token) (mark : Token) : Prop where
  delivers : ∃ r', r.Delivers (ts ++ [mark]) r'
  live : ∀ t ∈ ts, t.atEnd = false
  atEnd : mark.atEnd = true

/-- The reader answers with these tokens, none of them the end mark, and then fails. -/
structure Fails (r : Reader) (ts : List Token) (e : SyntaxError) : Prop where
  delivers : ∃ r' r'', r.Delivers ts r' ∧ r'.next = (.error e, r'')
  live : ∀ t ∈ ts, t.atEnd = false

/-- Draining a reader tells what it holds. -/
theorem drainOnto_spec (r : Reader) (seen : List Token) :
    (∃ ts mark, r.Holds ts mark ∧ (r.drainOnto seen).stop = none ∧
      (r.drainOnto seen).tokens = seen.reverse ++ (ts ++ [mark])) ∨
    ∃ ts e, r.Fails ts e ∧ (r.drainOnto seen).stop = some e ∧
      (r.drainOnto seen).tokens = seen.reverse ++ ts := by
  fun_induction drainOnto seen r with
  | case1 seen r e after h =>
      exact .inr ⟨[], e, ⟨⟨r, after, .nil r, h⟩, by simp⟩, rfl, by simp⟩
  | case2 seen r t after h hend =>
      exact .inl ⟨[], t, ⟨⟨after, .single h⟩, by simp, hend⟩, rfl, by simp⟩
  | case3 seen r t after h hend _ ih =>
      rcases ih with ⟨ts, mark, hholds, hstop, htokens⟩ | ⟨ts, e, hfails, hstop, htokens⟩
      · obtain ⟨r', hdeliv⟩ := hholds.delivers
        refine .inl ⟨t :: ts, mark, ⟨⟨r', .cons h hdeliv⟩, ?_, hholds.atEnd⟩, hstop, ?_⟩
        · simpa using ⟨by simpa using hend, hholds.live⟩
        · simpa using htokens
      · obtain ⟨r', r'', hdeliv, hnext⟩ := hfails.delivers
        refine .inr ⟨t :: ts, e, ⟨⟨r', r'', .cons h hdeliv, hnext⟩, ?_⟩, hstop, ?_⟩
        · simpa using ⟨by simpa using hend, hfails.live⟩
        · simpa using htokens

variable {r : Reader} {ts ts' : List Token} {mark mark' : Token} {e : SyntaxError}

/-- Tokens that a reader delivers are among those it holds, unless the end mark is one of them. -/
theorem Holds.isPrefix (h : r.Holds ts mark) {us : List Token} {r' : Reader}
    (hus : r.Delivers us r') (hlive : ∀ t ∈ us, t.atEnd = false) : us <+: ts := by
  obtain ⟨r₁, hts⟩ := h.delivers
  have hmark : mark ∉ us := fun hmem => by simpa [h.atEnd] using hlive mark hmem
  rcases Nat.le_total us.length (ts ++ [mark]).length with hle | hle
  · obtain ⟨vs, heq, -⟩ := hus.extend hts hle
    rcases List.eq_nil_or_concat vs with rfl | ⟨vs, t, rfl⟩
    · exact absurd (by rw [← List.append_nil us, ← heq]; simp) hmark
    · rw [List.concat_eq_append, ← List.append_assoc] at heq
      exact ⟨vs, (List.append_inj_left' heq rfl).symm⟩
  · obtain ⟨vs, rfl, -⟩ := hts.extend hus hle
    simp at hmark

theorem Holds.unique (h : r.Holds ts mark) (h' : r.Holds ts' mark') : ts' = ts ∧ mark' = mark := by
  obtain ⟨r₁, hts⟩ := h.delivers
  obtain ⟨r₂, hts'⟩ := h'.delivers
  obtain ⟨_, hpre, -⟩ := hts.split
  obtain ⟨_, hpre', -⟩ := hts'.split
  have hlen := (h'.isPrefix hpre h.live).length_le
  have hlen' := (h.isPrefix hpre' h'.live).length_le
  obtain ⟨heq, -⟩ := hts.unique hts' (by grind)
  simpa using List.append_inj' heq rfl

theorem Holds.not_fails (h : r.Holds ts mark) : ¬ r.Fails ts' e := by
  rintro ⟨⟨r₁, r₂, hts', hnext⟩, hlive⟩
  obtain ⟨r₃, hts⟩ := h.delivers
  have hlen := (h.isPrefix hts' hlive).length_le
  obtain ⟨vs, heq, hvs⟩ := hts'.extend hts (by grind)
  cases hvs with
  | nil =>
      have hlength := congrArg List.length heq
      simp at hlength
      omega
  | cons hok _ => simp [hnext] at hok

end Reader

/-! ## A run from start to end -/

namespace Parser

variable {p after : Parser} {es : List Node} {failure : Failure}

theorem run_of_ok (hfresh : p.started = false)
    (h : Rule.items p.strict p.budget { p with started := true } = .ok es after) :
    p.run = (.ok (Tree.ofItems p.reader.file es),
      { after with tree := some (Tree.ofItems p.reader.file es) }) := by
  simp [run, hfresh, h]

theorem run_of_error (hfresh : p.started = false)
    (h : Rule.items p.strict p.budget { p with started := true } = .error failure after) :
    p.run.1 = .error failure := by
  cases failure <;> simp [run, hfresh, h]

end Parser

section Evaluation

variable {ε α : Type} {x : Except ε α}

/-- That a source is accepted can be evaluated without a look at the tree. -/
theorem exists_ok_of_toBool (h : x.toBool = true) : ∃ a, x = .ok a := by
  cases x with
  | error e => cases h
  | ok a => exact ⟨a, rfl⟩

/-- So can the reason why it is refused. -/
theorem eq_error_of_map {e : ε} (h : x.map (fun _ => ()) = .error e) : x = .error e := by
  cases x with
  | error e' => exact congrArg Except.error (Except.error.inj h)
  | ok a => cases h

end Evaluation

namespace Options

variable (o : Options) (source : Bytes) (name : Option String)

/-- The parser that reads a source under some options. -/
def start : Parser :=
  { Parser.new (Reader.new source (o.fileName name)) o.strict with started := true }

theorem parse_eq_ok {es : List Node} {p : Parser}
    (h : Rule.items o.strict (o.start source name).budget (o.start source name) = .ok es p) :
    (o.parse source name).1 = .ok
      { file := o.fileName name
        tree := Tree.ofItems (o.fileName name) es
        tokenCount := p.tokensRead
        indent := o.indent } := by
  have hrun : (Parser.new (Reader.new source (o.fileName name)) o.strict).run
      = (.ok (Tree.ofItems (o.fileName name) es),
        { p with tree := some (Tree.ofItems (o.fileName name) es) }) := Parser.run_of_ok rfl h
  simp [parse, hrun]

theorem parse_of_ok {es : List Node} {p : Parser}
    (h : Rule.items o.strict (o.start source name).budget (o.start source name) = .ok es p) :
    ∃ r, (o.parse source name).1 = .ok r ∧ r.tree = Tree.ofItems (o.fileName name) es :=
  ⟨_, o.parse_eq_ok source name h, rfl⟩

theorem parse_of_error {failure : Failure} {p : Parser}
    (h : Rule.items o.strict (o.start source name).budget (o.start source name)
      = .error failure p) :
    (o.parse source name).1 = .error failure := by
  have hrun : (Parser.new (Reader.new source (o.fileName name)) o.strict).run.1
      = .error failure := Parser.run_of_error rfl h
  rcases hq : (Parser.new (Reader.new source (o.fileName name)) o.strict).run with ⟨outcome, q⟩
  rw [hq] at hrun
  obtain rfl := hrun
  simp [parse, hq]

/-- Tokens are given if and only if the reader holds them, and they end with the end mark. -/
theorem tokenize_eq_ok_iff {tokens : List Token} :
    (o.tokenize source name).1 = .ok tokens ↔
      ∃ ts mark, (Reader.new source (o.fileName name)).Holds ts mark ∧ tokens = ts ++ [mark] := by
  rcases (Reader.new source (o.fileName name)).drainOnto_spec [] with
    ⟨ts, mark, hholds, hstop, htokens⟩ | ⟨ts, e, hfails, hstop, -⟩
  · have htokenize : (o.tokenize source name).1 = .ok (ts ++ [mark]) := by
      simp only [tokenize, Reader.drain, hstop]
      exact congrArg Except.ok htokens
    rw [htokenize, Except.ok.injEq]
    constructor
    · rintro rfl
      exact ⟨ts, mark, hholds, rfl⟩
    · rintro ⟨ts', mark', hholds', rfl⟩
      obtain ⟨rfl, rfl⟩ := hholds.unique hholds'
      rfl
  · have htokenize : (o.tokenize source name).1 = .error e := by
      simp only [tokenize, Reader.drain, hstop]
    rw [htokenize]
    constructor
    · simp
    · rintro ⟨ts', mark', hholds', -⟩
      exact absurd hfails hholds'.not_fails

end Options

/-! ## Acceptance -/

/-- A loop that has ended looks at a token that does not ask for another round. -/
theorem Rule.ahead_of_repeatOnto {test : Token → Bool} {item : Rule (List Node)} {n : Nat}
    {seen es : List Node} {p p' : Parser}
    (h : repeatOnto (peek >>= fun t => pure (test t)) item n seen p = .ok es p') :
    ∃ t a, p'.ahead = t :: a ∧ test t = false := by
  induction n generalizing seen p with
  | zero => cases h
  | succ n ih =>
      obtain ⟨more, q, hmore, hrest⟩ := exists_of_bind_ok h
      cases more with
      | true =>
          obtain ⟨nodes, q', -, hloop⟩ := exists_of_bind_ok hrest
          exact ih hloop
      | false =>
          cases hrest
          exact ahead_of_test hmore

/-- The budget of a parser that has looked at nothing is enough for its reader. -/
theorem Parser.items_outcome {p : Parser} (hp : p.ahead = []) (strict : Bool) :
    Outcome none 0 .unit p (Rule.items strict p.budget p) :=
  Rule.reads_items (Nat.lt_of_succ_lt p.left_add_one_lt_budget) [] (Nat.zero_le _) p hp (.left p)

namespace Options

variable (o : Options) (source : Bytes) (name : Option String)

theorem items_outcome : Outcome none 0 .unit (o.start source name)
    (Rule.items o.strict (o.start source name).budget (o.start source name)) :=
  Parser.items_outcome rfl o.strict

/-- What was taken from the start on, and behind it what was looked at, was delivered. -/
theorem delivers_of_took {q : Parser} {w v a : List Token} {t : Token}
    (htook : (o.start source name).Took w q) (hahead : q.ahead = v ++ t :: a) :
    ∃ r, (Reader.new source (o.fileName name)).Delivers (w ++ v ++ [t]) r := by
  obtain ⟨ds, hds, heq⟩ := htook.drawn
  replace heq : ds = w ++ q.ahead := heq
  have hsplit : ds = (w ++ v ++ [t]) ++ a := by
    rw [heq, hahead]
    simp
  rw [hsplit] at hds
  obtain ⟨r, hdeliv, -⟩ := hds.split
  exact ⟨r, hdeliv⟩

/-- A run that succeeds has taken everything before the end mark. -/
theorem holds_of_took {es : List Node} {p : Parser} {w : List Token}
    (h : Rule.items o.strict (o.start source name).budget (o.start source name) = .ok es p)
    (htook : (o.start source name).Took w p) :
    ∃ mark, (Reader.new source (o.fileName name)).Holds w mark := by
  obtain ⟨mark, a, hahead, hmark⟩ := Rule.ahead_of_repeatOnto h
  have hdeliv := o.delivers_of_took source name (v := []) htook hahead
  rw [List.append_nil] at hdeliv
  exact ⟨mark, hdeliv, htook.live, by simpa using hmark⟩

/-- A source that is accepted holds a word of the grammar. -/
theorem holds_of_items_ok {es : List Node} {p : Parser}
    (h : Rule.items o.strict (o.start source name).budget (o.start source name) = .ok es p) :
    ∃ ts mark, (Reader.new source (o.fileName name)).Holds ts mark ∧
      Derives .translationUnit (ts.map Token.terminal) := by
  have hout := o.items_outcome source name
  rw [h] at hout
  cases hout with
  | @ok _ _ ts htook _ hword =>
      obtain ⟨mark, hholds⟩ := o.holds_of_took source name h htook
      exact ⟨ts, mark, hholds, hword⟩

/-- A source that holds a word of the grammar is accepted, with the tree of the word, unless there is
an offence in the tree. -/
theorem items_of_holds {ts : List Token} {mark : Token} {es : List Node}
    (hholds : (Reader.new source (o.fileName name)).Holds ts mark) (h : Row BuildsItem ts es) :
    (offence o.strict (es.flatMap Node.nodes) = none ∧ ∃ p,
      Rule.items o.strict (o.start source name).budget (o.start source name) = .ok es p) ∨
    ∃ s before found after line p, offence o.strict (es.flatMap Node.nodes) = some s ∧
      ts = before ++ found :: after ∧ EndsCondition s before found ∧
      Rule.items o.strict (o.start source name).budget (o.start source name)
        = .error (.refused (.unexpected .booleanOperator found line none)) p := by
  obtain ⟨r, hdeliv⟩ := hholds.delivers
  have hshows : (o.start source name).Shows (ts ++ [mark]) := ⟨_, r, hdeliv, List.prefix_refl _⟩
  have hlen := (hshows.of_isPrefix (List.prefix_append ts [mark])).length_le_left hholds.live
  have hbudget := (o.start source name).left_add_one_lt_budget
  have hitems : Rule.Judges (Rule.items o.strict (o.start source name).budget) ts [mark] es
      (offence o.strict (es.flatMap Node.nodes)) :=
    Rule.judges_items h hholds.atEnd (by omega)
  generalize offence o.strict (es.flatMap Node.nodes) = i at hitems
  cases hitems with
  | passed hreach =>
      obtain ⟨p, -, hrun⟩ := hreach _ hshows
      exact .inl ⟨rfl, p, hrun⟩
  | @refused s before after found hts hends hreach =>
      have hfound : (o.start source name).Shows (before ++ found :: (after ++ [mark])) := by
        rw [hts] at hshows
        simpa using hshows
      obtain ⟨p, -, hrun⟩ := hreach _ hfound
      exact .inr ⟨s, before, found, after, _, p, rfl, hts, hends, hrun⟩

theorem items_ok_of_holds {ts : List Token} {mark : Token} {es : List Node}
    (hstrict : o.strict = false) (hholds : (Reader.new source (o.fileName name)).Holds ts mark)
    (h : Row BuildsItem ts es) :
    ∃ p, Rule.items o.strict (o.start source name).budget (o.start source name) = .ok es p := by
  rcases o.items_of_holds source name hholds h with ⟨-, hrun⟩ | ⟨s, _, _, _, _, _, hoffence, -⟩
  · exact hrun
  · rw [hstrict] at hoffence
    cases hoffence

/-- With strict reading off, a source is accepted if and only if it can be read into tokens and the
tokens before the end mark are a word of the grammar. -/
theorem parse_accepts_iff_derives :
    (∃ r, ({ o with strict := false }.parse source name).1 = .ok r) ↔
      ∃ ts mark, (o.tokenize source name).1 = .ok (ts ++ [mark]) ∧ mark.atEnd = true ∧
        Derives .translationUnit (ts.map Token.terminal) := by
  constructor
  · rintro ⟨r, hr⟩
    cases hrun : Rule.items false ({ o with strict := false }.start source name).budget
        ({ o with strict := false }.start source name) with
    | ok es p =>
        obtain ⟨ts, mark, hholds, hword⟩ :=
          holds_of_items_ok { o with strict := false } source name hrun
        exact ⟨ts, mark, (tokenize_eq_ok_iff o source name).mpr ⟨ts, mark, hholds, rfl⟩,
          hholds.atEnd, hword⟩
    | error failure p =>
        rw [parse_of_error { o with strict := false } source name hrun] at hr
        simp at hr
  · rintro ⟨ts, mark, htokens, hmark, hword⟩
    obtain ⟨ts', mark', hholds, heq⟩ := (tokenize_eq_ok_iff o source name).mp htokens
    obtain ⟨rfl, rfl⟩ : ts = ts' ∧ mark = mark' := by simpa using List.append_inj' heq rfl
    obtain ⟨es, hes⟩ := hword.covers _ rfl
    obtain ⟨p, hrun⟩ := items_ok_of_holds { o with strict := false } source name rfl hholds hes
    obtain ⟨r, hr, -⟩ := parse_of_ok _ source name hrun
    exact ⟨r, hr⟩

end Options

end MiniC
