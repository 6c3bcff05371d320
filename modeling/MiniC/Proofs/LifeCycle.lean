/-
# MiniC.Proofs.LifeCycle — parsers that come and go over one reader.

A parser runs once.  Before and after that it may be asked for its tree and its count, its reader may be
read past it, and another parser may take its place.  Tokens are then in three places: with the reader,
ahead of the parser, and ahead of parsers that are gone.  A `Session` is any number of operations, each
with its answer and the tokens that it pulled from the reader, and `Accounted` says how the books stand
after it.

What a first run makes of the tokens that are left depends on their lexemes alone, so it is what parsing
any source with these lexemes gives (`Parser.run_of_same_lexemes`).
-/
import MiniC.Proofs.Layout
import MiniC.Proofs.Moves

namespace MiniC

/-! ## The same lexemes, the same outcome -/

/-- Equal trees but for places, or refusals of one kind for want of the same thing, of tokens that
stand in the same place of two lists. -/
inductive SameOutcome (A A' : List Token) : Except Failure Tree → Except Failure Tree → Prop
  | ok {tree tree' : Tree} : tree.root.bare = tree'.root.bare → SameOutcome A A' (.ok tree) (.ok tree')
  | unexpected {expected : Expectation} {found found' : Token} {line line' hint : Option Bytes} :
      (found, found') ∈ A.zip A' →
      SameOutcome A A' (.error (.refused (.unexpected expected found line hint)))
        (.error (.refused (.unexpected expected found' line' hint)))
  | unmatched {expected : Expectation} {found found' opening opening' : Token}
      {line line' : Option Bytes} :
      (found, found') ∈ A.zip A' → (opening, opening') ∈ A.zip A' →
      SameOutcome A A' (.error (.refused (.unmatched expected found opening line)))
        (.error (.refused (.unmatched expected found' opening' line')))

namespace Likeness

/-- Tokens of one lexeme; a token of the first list is like the one in its place of the second. -/
def paired (A A' : List Token) (h : A.map Token.lexeme = A'.map Token.lexeme) : Likeness where
  tokens t t' := t.lexeme = t'.lexeme ∧ (t ∈ A → (t, t') ∈ A.zip A')
  places _ _ := True
  exists_like t := by
    by_cases ht : t ∈ A
    · obtain ⟨hlen, hlexeme⟩ := List.forall₂_iff_zip.mp (forall₂_lexemes.mpr h)
      obtain ⟨i, hi, rfl⟩ := List.getElem_of_mem ht
      have hpair : (A[i], A'[i]) ∈ A.zip A' :=
        List.mem_iff_getElem.mpr ⟨i, by rw [List.length_zip]; omega, List.getElem_zip⟩
      exact ⟨A'[i], hlexeme hpair, fun _ => hpair⟩
    · exact ⟨t, rfl, fun hmem => absurd hmem ht⟩
  lexeme_eq h := h.1
  location _ := trivial

theorem forall₂_paired {A A' : List Token} (h : A.map Token.lexeme = A'.map Token.lexeme) :
    List.Forall₂ (paired A A' h).tokens A A' := by
  obtain ⟨hlen, hlexeme⟩ := List.forall₂_iff_zip.mp (forall₂_lexemes.mpr h)
  exact List.forall₂_iff_zip.mpr ⟨hlen, fun hpair => ⟨hlexeme hpair, fun _ => hpair⟩⟩

/-- Readers of streams that correspond to the end mark. -/
def Mirror.ofStreams (L : Likeness) : L.Mirror where
  readers r r' := ∃ ts ts' mark mark', r.Holds ts mark ∧ r'.Holds ts' mark' ∧
    List.Forall₂ L.tokens ts ts' ∧ L.tokens mark mark'
  errors _ _ := False
  next := by
    rintro r r' ⟨ts, ts', mark, mark', h, h', hts, hmark⟩
    cases hts with
    | nil =>
        obtain ⟨q, hnext, hq⟩ := h.next_nil
        obtain ⟨q', hnext', hq'⟩ := h'.next_nil
        rw [hnext, hnext']
        exact .ok hmark ⟨[], [], mark, mark', hq, hq', .nil, hmark⟩
    | cons ht hts =>
        obtain ⟨q, hnext, hq⟩ := h.next_cons
        obtain ⟨q', hnext', hq'⟩ := h'.next_cons
        rw [hnext, hnext']
        exact .ok ht ⟨_, _, mark, mark', hq, hq', hts, hmark⟩

theorem Mirror.ofStreams_of_lexemes {r r' : Reader} {ts ts' : List Token} {mark mark' : Token}
    (h : r.Holds ts mark) (h' : r'.Holds ts' mark')
    (hlexemes : (ts ++ [mark]).map Token.lexeme = (ts' ++ [mark']).map Token.lexeme) :
    (ofStreams (paired (ts ++ [mark]) (ts' ++ [mark']) hlexemes)).readers r r' := by
  have hlike := forall₂_paired hlexemes
  have hlen : ts'.length = ts.length := by simpa using hlike.length_eq.symm
  have hts := List.forall₂_take_append _ ts' [mark'] hlike
  have hmark := List.forall₂_drop_append _ ts' [mark'] hlike
  rw [hlen, List.take_left] at hts
  rw [hlen, List.drop_left, List.forall₂_cons] at hmark
  exact ⟨ts, ts', mark, mark', h, h', hts, hmark.1⟩

end Likeness

/-- Streams with the same lexemes are read with the same outcome. -/
theorem Parser.run_of_same_lexemes {r r' : Reader} {ts ts' : List Token} {mark mark' : Token}
    (h : r.Holds ts mark) (h' : r'.Holds ts' mark')
    (hlexemes : (ts ++ [mark]).map Token.lexeme = (ts' ++ [mark']).map Token.lexeme) (strict : Bool) :
    SameOutcome (ts ++ [mark]) (ts' ++ [mark']) (Parser.new r strict).run.1
      (Parser.new r' strict).run.1 := by
  let L := Likeness.paired (ts ++ [mark]) (ts' ++ [mark']) hlexemes
  let M := Likeness.Mirror.ofStreams L
  let p : Parser := { Parser.new r strict with started := true }
  let q : Parser := { Parser.new r' strict with started := true }
  have htrails : M.Trails p q :=
    ⟨[], r, .nil _, .nil, Likeness.Mirror.ofStreams_of_lexemes h h' hlexemes⟩
  have hmoves : L.Alike L.OfNodes (Rule.items strict p.budget)
      (Rule.items strict (max p.budget q.budget)) := Rule.alike_items (Nat.le_max_left _ _)
  have hends := hmoves.mirrors (M := M) p q htrails
  -- The second run is given a budget that is large enough for both.
  have hbudget : q.toCome < max p.budget q.budget :=
    Nat.lt_of_lt_of_le (Nat.lt_of_le_of_lt q.toCome_le_left (Nat.lt_of_succ_lt q.left_add_one_lt_budget))
      (Nat.le_max_right _ _)
  rw [Rule.items_eq_of_lt hbudget] at hends
  have hout : Outcome none 0 .unit p (Rule.items strict p.budget p) := Parser.items_outcome rfl strict
  generalize hrun : Rule.items strict p.budget p = result at hends hout
  generalize hrun' : Rule.items strict q.budget q = result' at hends
  cases hends with
  | ok hlike _ =>
      rw [run_of_ok (p := Parser.new r strict) rfl hrun, run_of_ok (p := Parser.new r' strict) rfl hrun']
      refine .ok ?_
      rw [Tree.ofItems, Tree.ofItems, Node.bare_branchAt, Node.bare_branchAt, Likeness.map_bare_eq hlike]
  | @refused e _ _ _ he =>
      have hnamed : ∀ t ∈ e.named, t ∈ r.stream := Rule.named_mem_stream rfl hrun
      rw [h.stream_eq] at hnamed
      rw [run_of_error (p := Parser.new r strict) rfl hrun,
        run_of_error (p := Parser.new r' strict) rfl hrun']
      cases he with
      | unexpected hfound => exact .unexpected (hfound.2 (hnamed _ (by simp [SyntaxError.named])))
      | unmatched hfound hopening =>
          exact .unmatched (hfound.2 (hnamed _ (by simp [SyntaxError.named])))
            (hopening.2 (hnamed _ (by simp [SyntaxError.named])))
  | unreadable he => exact he.elim
  | exhausted => cases hout

/-- Parsing is running a fresh parser. -/
theorem Options.tree_parse (o : Options) (source : Bytes) (name : Option String) :
    (o.parse source name).1.map Parsed.tree
      = (Parser.new (Reader.new source (o.fileName name)) o.strict).run.1 := by
  simp only [Options.parse]
  rcases (Parser.new (Reader.new source (o.fileName name)) o.strict).run with ⟨_ | tree, p⟩ <;> rfl

/-! ## Operations -/

/-- What may be done with a parser and its reader. -/
inductive Operation where
  | run
  | dump (indent : Indent)
  | tree
  | tokensRead
  | setStrict (strict : Bool)
  | readPast
  | renew (strict : Bool)
deriving DecidableEq, Repr

/-- A new parser takes the place of the old one. -/
def Operation.isRenewal : Operation → Bool
  | .renew _ => true
  | _ => false

/-- Whether conditions are read strictly from then on, if the operation says so. -/
def Operation.setting? : Operation → Option Bool
  | .setStrict strict | .renew strict => some strict
  | _ => none

/-- What comes back. -/
inductive Answer where
  | outcome (outcome : Except Failure Tree)
  | text (text : Except Failure Bytes)
  | tree (tree : Option Tree)
  | count (n : Nat)
  | token (delivery : Except SyntaxError Token)
  | done
deriving Repr

/-- One operation, its answer and the tokens that it pulled from the reader. -/
structure Turn where
  operation : Operation
  answer : Answer
  pulled : List Token
deriving Repr

namespace Turn

/-- The turns of the parser that is there now: those since it took its place. -/
def own (log : List Turn) : List Turn :=
  log.foldl (fun own turn => if turn.operation.isRenewal then [] else own ++ [turn]) []

/-- The tokens that this parser pulled itself. -/
def ownPulled (log : List Turn) : List Token :=
  ((own log).filter (·.operation = .run)).flatMap Turn.pulled

/-- What the last of these turns that says so has set, if any has. -/
def setting? (log : List Turn) : Option Bool :=
  log.reverse.findSome? fun turn => turn.operation.setting?

theorem setting?_concat (log : List Turn) (turn : Turn) :
    setting? (log ++ [turn]) = turn.operation.setting?.or (setting? log) := by
  unfold setting?
  rw [List.reverse_append, List.reverse_singleton, List.singleton_append, List.findSome?_cons]
  cases turn.operation.setting? with
  | none => rfl
  | some => rfl

theorem own_concat (log : List Turn) (turn : Turn) :
    own (log ++ [turn]) = if turn.operation.isRenewal then [] else own log ++ [turn] := by
  simp only [own, List.foldl_append, List.foldl_cons, List.foldl_nil]

theorem ownPulled_concat {log : List Turn} {turn : Turn} (h : turn.operation.isRenewal = false) :
    ownPulled (log ++ [turn])
      = ownPulled log ++ if turn.operation = .run then turn.pulled else [] := by
  unfold ownPulled
  rw [own_concat, h, if_neg (by simp), List.filter_append, List.flatMap_append]
  split
  · next hrun => simp [hrun]
  · next hrun => simp [hrun]

end Turn

namespace Parser

def perform (p : Parser) : Operation → Answer × Parser
  | .run => (.outcome p.run.1, p.run.2)
  | .dump indent => (.text (p.dump indent), p)
  | .tree => (.tree p.tree, p)
  | .tokensRead => (.count p.tokensRead, p)
  | .setStrict strict => (.done, p.setStrict strict)
  | .readPast => (.token p.readPast.1, p.readPast.2)
  | .renew strict => (.done, p.renew strict)

/-- The tokens that an operation pulls from the reader: a first run those that it draws, a direct call
the one that it answers with, and nothing else pulls any. -/
inductive Pulls (p : Parser) : Operation → List Token → Prop
  | run {ds : List Token} : p.started = false → p.RunDraws ds → Pulls p .run ds
  | runAgain : p.started = true → Pulls p .run []
  | dump {indent : Indent} : Pulls p (.dump indent) []
  | tree : Pulls p .tree []
  | tokensRead : Pulls p .tokensRead []
  | setStrict {strict : Bool} : Pulls p (.setStrict strict) []
  | readPast {t : Token} : p.readPast.1 = .ok t → Pulls p .readPast [t]
  | renew {strict : Bool} : Pulls p (.renew strict) []

/-- Operations one after another, the first one on `p`. -/
inductive Session (start : Parser) : List Turn → Parser → Prop
  | start : Session start [] start
  | turn {log : List Turn} {p : Parser} {op : Operation} {ds : List Token} :
      Session start log p → p.Pulls op ds →
      Session start (log ++ [⟨op, (p.perform op).1, ds⟩]) (p.perform op).2

/-- How the books stand after some turns on a parser over `r` that was set like this at first. -/
structure Accounted (r : Reader) (strict : Bool) (log : List Turn) (p : Parser) : Prop where
  delivers : r.Delivers (log.flatMap Turn.pulled) p.reader
  short : p.ahead.length ≤ 2
  read : p.tokensRead = tally (Turn.ownPulled log)
  started : p.started = true ↔ ∃ turn ∈ Turn.own log, turn.operation = .run
  tree : ∀ tree, p.tree = some tree ↔ ∃ turn ∈ Turn.own log, turn.answer = .outcome (.ok tree)
  fresh : p.started = false → p = Parser.new p.reader p.strict
  setting : p.strict = (Turn.setting? log).getD strict

variable {r : Reader} {strict : Bool} {log : List Turn} {p : Parser} {op : Operation} {ts ds : List Token} {mark : Token}

theorem run_of_started (h : p.started = true) : p.run = (.error .alreadyRun, p) := by
  unfold run
  rw [if_pos h]

namespace Accounted

theorem new (r : Reader) (strict : Bool) : Accounted r strict [] (Parser.new r strict) where
  delivers := .nil r
  short := Nat.zero_le 2
  read := rfl
  started := by simp [Turn.own, Parser.new]
  tree := by simp [Turn.own, Parser.new]
  fresh _ := rfl
  setting := rfl

/-- A turn that neither runs nor replaces the parser changes its reader or its setting at most. -/
theorem aside {turn : Turn} {p' : Parser} (h : Accounted r strict log p)
    (hrenewal : turn.operation.isRenewal = false) (hrun : turn.operation ≠ .run)
    (hanswer : ∀ outcome, turn.answer ≠ .outcome outcome)
    (hdeliv : p.reader.Delivers turn.pulled p'.reader)
    (hstrict : p'.strict = turn.operation.setting?.getD p.strict)
    (hp' : p' = { p with reader := p'.reader, strict := p'.strict }) :
    Accounted r strict (log ++ [turn]) p' := by
  have hown : Turn.own (log ++ [turn]) = Turn.own log ++ [turn] := by simp [Turn.own_concat, hrenewal]
  refine ⟨?_, ?_, ?_, ?_, ?_, ?_, ?_⟩
  · rw [List.flatMap_append, List.flatMap_singleton]
    exact h.delivers.append hdeliv
  · rw [hp']
    exact h.short
  · rw [Turn.ownPulled_concat hrenewal, if_neg hrun, List.append_nil, hp']
    exact h.read
  · rw [hown, hp', h.started]
    simp [hrun]
  · intro tree
    rw [hown, hp', h.tree]
    simp [hanswer]
  · intro hstarted
    rw [hp'] at hstarted
    have hfresh := h.fresh hstarted
    rw [hp', hfresh]
    rfl
  · rw [hstrict, h.setting, Turn.setting?_concat, Option.getD_or]

/-- A new parser begins with clean books. -/
theorem renew {turn : Turn} {setting : Bool} (h : Accounted r strict log p)
    (hrenewal : turn.operation = .renew setting) (hpulled : turn.pulled = []) :
    Accounted r strict (log ++ [turn]) (p.renew setting) := by
  have hown : Turn.own (log ++ [turn]) = [] := by
    simp [Turn.own_concat, hrenewal, Operation.isRenewal]
  have hnew := new r setting
  refine ⟨?_, hnew.short, ?_, ?_, ?_, fun _ => rfl, ?_⟩
  · rw [List.flatMap_append, List.flatMap_singleton, hpulled, List.append_nil]
    exact h.delivers
  · rw [Turn.ownPulled, hown]
    rfl
  · rw [hown]
    exact hnew.started
  · rw [hown]
    exact hnew.tree
  · rw [Turn.setting?_concat, hrenewal]
    rfl

/-- A first run counts what it draws, and leaves a tree if it succeeds. -/
theorem run (h : Accounted r strict log p) (hfresh : p.started = false) (hdraws : p.RunDraws ds) :
    Accounted r strict (log ++ [⟨.run, .outcome p.run.1, ds⟩]) p.run.2 := by
  have hp := h.fresh hfresh
  have hown : Turn.own (log ++ [⟨.run, .outcome p.run.1, ds⟩])
      = Turn.own log ++ [⟨.run, .outcome p.run.1, ds⟩] := by simp [Turn.own_concat, Operation.isRenewal]
  -- This parser has not run before, so it has pulled nothing and has no tree.
  have hnone : ∀ turn ∈ Turn.own log, turn.operation ≠ .run := by
    intro turn hturn hrun
    have := h.started.mpr ⟨turn, hturn, hrun⟩
    rw [hfresh] at this
    cases this
  have hpulled : Turn.ownPulled log = [] := by
    unfold Turn.ownPulled
    rw [List.filter_eq_nil_iff.mpr (by simpa using hnone)]
    rfl
  have hsnd := run_snd hfresh
  obtain ⟨hstrict, hstarted, htree⟩ := hdraws.kept
  refine ⟨?_, ?_, ?_, ?_, ?_, ?_, ?_⟩
  · rw [List.flatMap_append, List.flatMap_singleton, hsnd]
    exact h.delivers.append hdraws.drew.delivers
  · rw [hsnd]
    exact hdraws.length_ahead_le h.short
  · rw [Turn.ownPulled_concat rfl, hpulled, if_pos rfl, List.nil_append, hsnd]
    exact (hdraws.counted (by rw [hp]; rfl) (by rw [hp]; rfl)).2
  · rw [hown, hsnd]
    simp [hstarted]
  · intro tree
    have hold : ∀ turn ∈ Turn.own log, turn.answer ≠ .outcome (.ok tree) := by
      intro turn hturn hanswer
      have := (h.tree tree).mpr ⟨turn, hturn, hanswer⟩
      rw [hp] at this
      cases this
    have hhalt : p.halt.tree = none := by
      rw [htree, hp]
      rfl
    rw [run_tree hfresh hhalt, hown]
    simpa [or_and_right, exists_or] using fun turn hturn hanswer => absurd hanswer (hold turn hturn)
  · intro hfalse
    rw [hsnd] at hfalse
    simp [hstarted] at hfalse
  · rw [hsnd, Turn.setting?_concat]
    exact hstrict.trans h.setting

theorem runAgain (h : Accounted r strict log p) (hstarted : p.started = true) :
    Accounted r strict (log ++ [⟨.run, .outcome (.error .alreadyRun), []⟩]) p := by
  have hown : Turn.own (log ++ [⟨.run, .outcome (.error .alreadyRun), []⟩])
      = Turn.own log ++ [⟨.run, .outcome (.error .alreadyRun), []⟩] := by
    simp [Turn.own_concat, Operation.isRenewal]
  refine ⟨?_, h.short, ?_, ?_, ?_, h.fresh, ?_⟩
  · rw [List.flatMap_append, List.flatMap_singleton, List.append_nil]
    exact h.delivers
  · rw [Turn.ownPulled_concat rfl, if_pos rfl, List.append_nil]
    exact h.read
  · rw [hown]
    simp [hstarted]
  · intro tree
    rw [hown, h.tree]
    simp
  · rw [Turn.setting?_concat]
    exact h.setting

/-- Every turn keeps the books. -/
theorem turn (h : Accounted r strict log p) (hpulls : p.Pulls op ds) :
    Accounted r strict (log ++ [⟨op, (p.perform op).1, ds⟩]) (p.perform op).2 := by
  cases hpulls with
  | run hfresh hdraws => exact h.run hfresh hdraws
  | runAgain hstarted =>
      have hagain := h.runAgain hstarted
      rw [perform, run_of_started hstarted]
      exact hagain
  | dump | tree | tokensRead | setStrict =>
      exact h.aside rfl (by simp) (by simp [perform]) (.nil _) rfl rfl
  | readPast ht =>
      refine h.aside rfl (by simp) (by simp [perform]) (.single ?_) rfl rfl
      exact Prod.ext ht rfl
  | renew => exact h.renew rfl rfl

end Accounted

theorem Session.accounted (h : (Parser.new r strict).Session log p) :
    Accounted r strict log p := by
  generalize hstart : Parser.new r strict = start at h
  induction h with
  | start =>
      subst hstart
      exact .new r strict
  | turn _ hpulls ih => exact ih.turn hpulls

theorem exists_pulls (h : p.reader.Holds ts mark) (op : Operation) : ∃ ds, p.Pulls op ds := by
  cases op with
  | run =>
      cases hstarted : p.started with
      | true => exact ⟨[], .runAgain hstarted⟩
      | false =>
          obtain ⟨ds, hdraws⟩ := exists_runDraws h
          exact ⟨ds, .run hstarted hdraws⟩
  | readPast =>
      obtain ⟨t, r, hnext⟩ := h.next_ok
      exact ⟨[t], .readPast (congrArg Prod.fst hnext)⟩
  | dump => exact ⟨[], .dump⟩
  | tree => exact ⟨[], .tree⟩
  | tokensRead => exact ⟨[], .tokensRead⟩
  | setStrict => exact ⟨[], .setStrict⟩
  | renew => exact ⟨[], .renew⟩

/-- Whatever is asked for, there is a session in which it is asked for. -/
theorem exists_session (h : r.Holds ts mark) (strict : Bool) (ops : List Operation) :
    ∃ log p, (Parser.new r strict).Session log p ∧ log.map Turn.operation = ops := by
  induction ops using List.reverseRecOn with
  | nil => exact ⟨[], _, .start, rfl⟩
  | append_singleton ops op ih =>
      obtain ⟨log, p, hsession, hops⟩ := ih
      obtain ⟨rest, hrest, -⟩ := h.after hsession.accounted.delivers
      obtain ⟨ds, hpulls⟩ := exists_pulls hrest op
      exact ⟨_, _, hsession.turn hpulls, by rw [List.map_append, hops]; rfl⟩

/-! ## First runs -/

/-- What the first run of a parser does with the tokens that its reader still holds. -/
structure FirstRun (p : Parser) : Prop where
  /-- It gives a tree or refuses a token. -/
  ends : (∃ tree, p.run.1 = .ok tree) ∨ ∃ e, p.run.1 = .error (.refused e)
  /-- It ends as parsing does any source that has these lexemes. -/
  outcome : ∀ (o : Options) (source : Bytes) (name : Option String) (tokens : List Token),
    o.strict = p.strict → (o.tokenize source name).1 = .ok tokens →
    tokens.map Token.lexeme = p.reader.stream.map Token.lexeme →
    SameOutcome p.reader.stream tokens p.run.1 ((o.parse source name).1.map Parsed.tree)
  /-- There is such a source. -/
  exists_source : ∀ (o : Options) (name : Option String), ∃ source tokens,
    (o.tokenize source name).1 = .ok tokens ∧
      tokens.map Token.lexeme = p.reader.stream.map Token.lexeme
  /-- If it succeeds, it has drawn and counted all that was left. -/
  all_drawn : ∀ ds tree, p.Pulls .run ds → p.run.1 = .ok tree →
    ds.filter (!·.atEnd) = p.reader.live ∧ p.run.2.tokensRead = p.reader.stream.length
  /-- If it refuses a token, that is the last one drawn or the last but one. -/
  found_last : ∀ ds e, p.Pulls .run ds → p.run.1 = .error (.refused e) →
    ∃ front found rest, e.found? = some found ∧ ds = front ++ found :: rest ∧ rest.length ≤ 1
  /-- On the way no more than two tokens are ahead. -/
  short : ∀ q, p.RunPasses q → q.ahead.length ≤ 2
  /-- The way leads to where it stops reading. -/
  halts : p.RunPasses p.halt

/-- The tokens that a reader holds can be spelled out again. -/
theorem exists_source_of_holds (h : r.Holds ts mark) (o : Options) (name : Option String) :
    ∃ source tokens, (o.tokenize source name).1 = .ok tokens ∧
      tokens.map Token.lexeme = (ts ++ [mark]).map Token.lexeme := by
  obtain ⟨r₁, hdeliv⟩ := h.delivers
  obtain ⟨r₂, hts, -⟩ := hdeliv.split
  have hlegal : ∀ l ∈ ts.map Token.lexeme, l.isLegal = true := by
    simpa using hts.isLegal h.live
  obtain ⟨ts', mark', hholds, hlexemes⟩ := Reader.new_holds_of_spell (o.fileName name) hlegal
  obtain ⟨r₃, hdeliv'⟩ := hholds.delivers
  refine ⟨_, ts' ++ [mark'], (o.tokenize_eq_ok_iff _ name).mpr ⟨ts', mark', hholds, rfl⟩, ?_⟩
  rw [List.map_append, List.map_append, hlexemes, List.map_singleton, List.map_singleton,
    hdeliv.lexeme_of_atEnd mark (by simp) h.atEnd, hdeliv'.lexeme_of_atEnd mark' (by simp) hholds.atEnd]

theorem firstRun (h : r.Holds ts mark) (strict : Bool) : (Parser.new r strict).FirstRun where
  ends := by
    rcases run_cases (p := Parser.new r strict) rfl with ⟨items, hrun⟩ | hrefused
    · exact .inl ⟨_, hrun⟩
    · exact .inr hrefused
  outcome := by
    rintro o source name tokens hstrict htokens hlexemes
    obtain ⟨ts', mark', hholds, rfl⟩ := (o.tokenize_eq_ok_iff source name).mp htokens
    show SameOutcome r.stream _ _ _
    have hstream : (ts ++ [mark]).map Token.lexeme = (ts' ++ [mark']).map Token.lexeme := by
      rw [hlexemes, ← h.stream_eq]
      rfl
    rw [o.tree_parse, hstrict, h.stream_eq]
    exact run_of_same_lexemes h hholds hstream strict
  exists_source o name := by
    obtain ⟨source, tokens, htokens, hlexemes⟩ := exists_source_of_holds h o name
    rw [← h.stream_eq] at hlexemes
    exact ⟨source, tokens, htokens, hlexemes⟩
  all_drawn := by
    rintro ds tree hpulls hrun
    cases hpulls with
    | run hfresh hdraws =>
        obtain ⟨hall, hend⟩ := hdraws.all h hrun
        refine ⟨hall.trans h.live_eq.symm, ?_⟩
        rw [run_snd hfresh]
        show (Parser.new r strict).halt.tokensRead = r.stream.length
        rw [(hdraws.counted rfl rfl).2, tally, hall, hend, h.stream_eq, List.length_append]
        rfl
    | runAgain hstarted => cases hstarted
  found_last := by
    rintro ds e hpulls hrun
    cases hpulls with
    | run _ hdraws => exact hdraws.refused h hrun
    | runAgain hstarted => cases hstarted
  short _ hpasses := Rule.Passes.length_ahead_le hpasses (Nat.zero_le 2)
  halts := runPasses_halt _

/-! ## Sessions -/

/-- A session over a source that can be read to its end, of any operations in any order.

* The tokens that were pulled, by parsers or directly, and those that are left are the tokens of the
  source, each once and in order.
* No more than two tokens are ahead of a parser, within a run too, and its count is that of the tokens
  it pulled, the end mark once.
* It reads conditions as was set last, for it or for one before it.
* A parser has a tree if and only if it has run and succeeded.
* If it has not run yet, its first run is that of a fresh parser on the tokens that are left.
* If it has run, running it again fails and changes nothing, and neither does printing without a
  tree. -/
theorem sessions_keep_account {o : Options} {source : Bytes} {name : Option String}
    {tokens : List Token} (h : (o.tokenize source name).1 = .ok tokens) :
    let r := Reader.new source (o.fileName name)
    (∀ ops, ∃ log p, (Parser.new r o.strict).Session log p ∧ log.map Turn.operation = ops) ∧
    ∀ log p, (Parser.new r o.strict).Session log p →
      (r.live.Nodup ∧ (log.flatMap Turn.pulled).filter (!·.atEnd) ++ p.reader.live = r.live) ∧
      (p.ahead.length ≤ 2 ∧ p.tokensRead = tally (Turn.ownPulled log)) ∧
      p.strict = (Turn.setting? log).getD o.strict ∧
      (p.started = true ↔ ∃ turn ∈ Turn.own log, turn.operation = .run) ∧
      (∀ tree, p.tree = some tree ↔ ∃ turn ∈ Turn.own log, turn.answer = .outcome (.ok tree)) ∧
      (p.started = false → p.FirstRun) ∧
      (p.started = true → p.perform .run = (.outcome (.error .alreadyRun), p)) ∧
      (p.tree = none → ∀ indent, p.perform (.dump indent) = (.text (.error .noTree), p)) := by
  intro r
  obtain ⟨ts, mark, hholds, rfl⟩ := (o.tokenize_eq_ok_iff source name).mp h
  refine ⟨exists_session hholds o.strict, fun log p hsession => ?_⟩
  have haccount := hsession.accounted
  obtain ⟨rest, hrest, hall⟩ := hholds.after haccount.delivers
  refine ⟨⟨r.nodup_live, ?_⟩, ⟨haccount.short, haccount.read⟩, haccount.setting, haccount.started,
    haccount.tree, ?_, ?_, ?_⟩
  · rw [hrest.live_eq, hholds.live_eq, hall]
  · intro hfresh
    rw [haccount.fresh hfresh]
    exact firstRun hrest p.strict
  · intro hstarted
    rw [perform, run_of_started hstarted]
  · intro hnone indent
    rw [perform, dump, hnone]

/-- A stray bracket stops the first parser; a token is read past it, and a second parser goes on with
what is left. -/
theorem session_past_stray_bracket :
    (({} : Options).tokenize (utf8 "int a; \x7d b int c;") none).1.toBool = true ∧
    ∃ log p, (Parser.new (Reader.new (utf8 "int a; \x7d b int c;") "<input>") false).Session log p ∧
      log.map Turn.operation = [.run, .run, .tree, .readPast, .renew false, .run, .tokensRead] ∧
      (log.flatMap Turn.pulled).filter (!·.atEnd) ++ p.reader.live
        = (Reader.new (utf8 "int a; \x7d b int c;") "<input>").live ∧
      p.ahead.length ≤ 2 ∧ p.tokensRead = tally (Turn.ownPulled log) := by
  have hread : (({} : Options).tokenize (utf8 "int a; \x7d b int c;") none).1.toBool = true := by
    decide +kernel
  refine ⟨hread, ?_⟩
  obtain ⟨tokens, htokens⟩ := exists_ok_of_toBool hread
  obtain ⟨hexists, hkeeps⟩ := sessions_keep_account htokens
  obtain ⟨log, p, hsession, hops⟩ :=
    hexists [.run, .run, .tree, .readPast, .renew false, .run, .tokensRead]
  obtain ⟨⟨-, hall⟩, ⟨hshort, hcount⟩, -⟩ := hkeeps log p hsession
  exact ⟨log, p, hsession, hops, hall, hshort, hcount⟩

end Parser

end MiniC
