/-
# MiniC.Proofs.Strictness — strict reading is a filter.

Strict reading looks at a condition once it has been read and either goes on as if nothing had been
looked at, or stops.  So it accepts the sources that are accepted without it and of which the tree has
a boolean operator at the top of every condition, and gives the same tree, the same places and the
same count of tokens.  What it refuses beyond that, it refuses at the end of the first condition that
has none.
-/
import MiniC.Proofs.Laziness

namespace MiniC

/-- The root of a tree has no condition. -/
theorem offence_walk (strict : Bool) (file : String) (es : List Node) :
    offence strict ((Tree.ofItems file es).walk.map (·.2))
      = offence strict (es.flatMap Node.nodes) := by
  rw [Tree.map_walk]
  show offence strict (Node.branchAt _ .translationUnit es).nodes = _
  rw [Node.nodes_branchAt]
  exact offence_cons_of_pass (by simp [Node.hasBooleanCondition, Node.branchAt])

theorem offence_eq_none_iff {ns : List Node} :
    offence true ns = none ↔ ∀ n ∈ ns, n.hasBooleanCondition = true := by
  simp [offence]

namespace Options

variable (o : Options) (source : Bytes) (name : Option String)

/-- What is given back for a source of which the items are `es` and the tokens, without the end mark,
are `ts`. -/
def accepted (ts : List Token) (es : List Node) : Parsed where
  file := o.fileName name
  tree := Tree.ofItems (o.fileName name) es
  tokenCount := ts.length + 1
  indent := o.indent

variable {o source name} {ts : List Token} {es : List Node} {mark : Token}

/-- A source that holds a word of the grammar is accepted, unless there is an offence in its tree. -/
theorem parse_of_holds (hholds : (Reader.new source (o.fileName name)).Holds ts mark)
    (h : Row BuildsItem ts es) :
    (offence o.strict (es.flatMap Node.nodes) = none ∧
      (o.parse source name).1 = .ok (o.accepted name ts es)) ∨
    ∃ s before found after line, offence o.strict (es.flatMap Node.nodes) = some s ∧
      ts = before ++ found :: after ∧ EndsCondition s before found ∧
      (o.parse source name).1
        = .error (.refused (.unexpected .booleanOperator found line none)) := by
  rcases o.items_of_holds source name hholds h with
    ⟨hnone, p, hrun⟩ | ⟨s, before, found, after, line, p, hsome, hts, hends, hrun⟩
  · refine .inl ⟨hnone, ?_⟩
    rw [o.parse_eq_ok source name hrun, o.tokensRead_of_items_ok source name hrun hholds]
    rfl
  · exact .inr ⟨s, before, found, after, line, hsome, hts, hends,
      o.parse_of_error source name hrun⟩

/-- What was accepted is a word of the grammar, with the tree that the word makes. -/
theorem holds_of_parse_ok {r : Parsed} (h : (o.parse source name).1 = .ok r) :
    ∃ ts mark es, (Reader.new source (o.fileName name)).Holds ts mark ∧ Row BuildsItem ts es ∧
      offence o.strict (es.flatMap Node.nodes) = none ∧ r = o.accepted name ts es := by
  cases hrun : Rule.items o.strict (o.start source name).budget (o.start source name) with
  | error failure p => simp [o.parse_of_error source name hrun] at h
  | ok es p =>
      obtain ⟨ts, mark, hholds, hword⟩ := o.holds_of_items_ok source name hrun
      -- The run shows that the tokens are a word; the tree of the word is then what was given.
      obtain ⟨es', hes⟩ := hword.covers _ rfl
      refine ⟨ts, mark, es', hholds, hes, ?_⟩
      rcases parse_of_holds hholds hes with ⟨hnone, hparse⟩ | ⟨_, _, _, _, _, -, -, -, hparse⟩
      · rw [hparse] at h
        exact ⟨hnone, (Except.ok.inj h).symm⟩
      · rw [hparse] at h
        cases h

variable (o source name)

/-- A source is accepted under strict reading if and only if it is accepted without, and every
condition in the tree has a boolean operator at its top; what is given back is the same.  A source
that is accepted only without strict reading is refused at the token that ends the condition of the
first node, in the order of `walk`, of which the condition has none. -/
theorem strict_parse_filters :
    (∀ r, ({ o with strict := true }.parse source name).1 = .ok r ↔
      ({ o with strict := false }.parse source name).1 = .ok r ∧
        ∀ x ∈ r.tree.walk, x.2.hasBooleanCondition = true) ∧
    ∀ r failure, ({ o with strict := false }.parse source name).1 = .ok r →
      ({ o with strict := true }.parse source name).1 = .error failure →
      ∃ s before found after line,
        (r.tree.walk.map (·.2)).find? (fun n => !n.hasBooleanCondition) = some s ∧
        o.stream source name = before ++ found :: after ∧ EndsCondition s before found ∧
        failure = .refused (.unexpected .booleanOperator found line none) := by
  have hwalk : ∀ ts es, (∀ x ∈ (o.accepted name ts es).tree.walk, x.2.hasBooleanCondition = true) ↔
      offence true (es.flatMap Node.nodes) = none := by
    intro ts es
    rw [← offence_walk true (o.fileName name), offence_eq_none_iff, List.forall_mem_map]
    rfl
  refine ⟨fun r => ⟨?_, ?_⟩, ?_⟩
  · intro h
    obtain ⟨ts, mark, es, hholds, hes, hnone, rfl⟩ := holds_of_parse_ok h
    refine ⟨?_, (hwalk ts es).mpr hnone⟩
    -- Without strict reading there are no offences.
    rcases parse_of_holds (o := { o with strict := false }) hholds hes with
      ⟨-, hparse⟩ | ⟨s, _, _, _, _, hsome, -⟩
    · exact hparse
    · cases hsome
  · rintro ⟨h, hall⟩
    obtain ⟨ts, mark, es, hholds, hes, -, rfl⟩ := holds_of_parse_ok h
    rcases parse_of_holds (o := { o with strict := true }) hholds hes with
      ⟨-, hparse⟩ | ⟨s, _, _, _, _, hsome, -⟩
    · exact hparse
    · rw [(hwalk ts es).mp hall] at hsome
      cases hsome
  · intro r failure hloose hstrict
    obtain ⟨ts, mark, es, hholds, hes, -, rfl⟩ := holds_of_parse_ok hloose
    rcases parse_of_holds (o := { o with strict := true }) hholds hes with
      ⟨-, hparse⟩ | ⟨s, before, found, after, line, hsome, rfl, hends, hparse⟩
    · rw [hparse] at hstrict
      cases hstrict
    · rw [hparse] at hstrict
      have hstream : o.stream source name = (before ++ found :: after) ++ [mark] := hholds.stream_eq
      refine ⟨s, before, found, after ++ [mark], line, ?_, by simp [hstream], hends,
        (Except.error.inj hstrict).symm⟩
      rw [← offence_walk true (o.fileName name)] at hsome
      exact hsome

/-- A name alone is a condition without strict reading only; it is refused at what ends it. -/
theorem strict_refuses_bare_name : ∃ r s before found line,
    ({ strict := false : Options }.parse (utf8 "void f()\x7bwhile(a)\x7b\x7d\x7d") none).1 = .ok r ∧
      ({ strict := true : Options }.parse (utf8 "void f()\x7bwhile(a)\x7b\x7d\x7d") none).1
        = .error (.refused (.unexpected .booleanOperator found line none)) ∧
      EndsCondition s before found := by
  have hloose : ({ strict := false : Options }.parse
      (utf8 "void f()\x7bwhile(a)\x7b\x7d\x7d") none).1.toBool = true := by
    decide +kernel
  have hstrict : ({ strict := true : Options }.parse
      (utf8 "void f()\x7bwhile(a)\x7b\x7d\x7d") none).1.toBool = false := by
    decide +kernel
  obtain ⟨-, hrefuses⟩ :=
    strict_parse_filters {} (utf8 "void f()\x7bwhile(a)\x7b\x7d\x7d") none
  obtain ⟨r, hok⟩ := exists_ok_of_toBool hloose
  cases herror : ({ strict := true : Options }.parse
      (utf8 "void f()\x7bwhile(a)\x7b\x7d\x7d") none).1 with
  | ok r' =>
      rw [herror] at hstrict
      cases hstrict
  | error failure =>
      obtain ⟨s, before, found, after, line, -, -, hends, rfl⟩ := hrefuses r failure hok herror
      exact ⟨r, s, before, found, line, hok, rfl, hends⟩

end Options

end MiniC
