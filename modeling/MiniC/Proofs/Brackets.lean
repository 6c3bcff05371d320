/-
# MiniC.Proofs.Brackets — brackets are closed in order, or the innermost open one is named.

The contract of every rule says so of the tokens that the rule takes.  What is left is to say it of the
token streams of whole sources.
-/
import MiniC.Proofs.Laziness

namespace MiniC.Options

variable (o : Options) (source : Bytes) (name : Option String)

/-- Brackets are closed in order, or the innermost open one is named.

* If a source is refused for a token `found` that does not close `opening`, then `opening` is an opening
  bracket of the stream that stands before `found`, the brackets between the two are nested and closed,
  and it is the bracket that closes `opening` which is said to be expected, in quotes; `found` is
  another token.
* If a source is accepted, the brackets of its whole stream are nested and closed. -/
theorem unmatched_names_innermost_open_bracket :
    (∀ expected found opening line,
      (o.parse source name).1 = .error (.refused (.unmatched expected found opening line)) →
      ∃ before between after r,
        o.stream source name = before ++ opening :: (between ++ found :: after) ∧
        Nested between ∧ opening.closing? = some r ∧
        expected.render = utf8 "'" ++ utf8 r.spelling ++ utf8 "'" ∧ found.lexeme ≠ .bracket r) ∧
    ∀ r, (o.parse source name).1 = .ok r → Nested (o.stream source name) := by
  have hout := o.items_outcome source name
  generalize hrun : Rule.items o.strict (o.start source name).budget (o.start source name)
    = result at hout
  cases hout with
  | @ok es q w htook _ _ hleads =>
      rw [o.parse_eq_ok source name hrun]
      refine ⟨by simp, ?_⟩
      intro _ _
      obtain ⟨mark, hholds⟩ := o.holds_of_took source name hrun htook
      have hstream : o.stream source name = w ++ [mark] := hholds.stream_eq
      rw [hstream]
      exact hleads.nested.append (.plain (Token.not_bracket_of_atEnd hholds.atEnd) .nil)
  | @stuck e _ q w v rest htook hahead hlive hfound _ _ hnames =>
      rw [o.parse_of_error source name hrun]
      refine ⟨?_, by simp⟩
      rintro _ found opening _ ⟨⟩
      obtain rfl := Option.some.inj hfound
      obtain ⟨before, between, r, heq, hbetween, hopen, rfl, hother⟩ := hnames [] (.nested .nil)
      obtain ⟨r', hdeliv⟩ := o.delivers_of_took source name htook hahead
      have hbefore : ∀ t ∈ (w ++ v ++ [found]).dropLast, t.atEnd = false := by
        rw [List.dropLast_concat]
        exact List.forall_mem_append.mpr ⟨htook.live, hlive⟩
      obtain ⟨after, hstream⟩ := hdeliv.isPrefix_stream hbefore
      refine ⟨before, between, after, r, ?_, hbetween, hopen, rfl, hother⟩
      calc o.stream source name = w ++ v ++ [found] ++ after := hstream.symm
        _ = before ++ opening :: between ++ [found] ++ after := by rw [← heq, List.nil_append]
        _ = before ++ opening :: (between ++ found :: after) := by simp
  | unreadable _ hnext =>
      rw [o.parse_of_error source name hrun]
      refine ⟨?_, by simp⟩
      rintro _ _ _ _ ⟨⟩
      cases Reader.found?_of_next hnext

/-- The parentheses around `a` are closed; the one before them is not, and it is the one named. -/
theorem unmatched_around_closed_group :
    let source := utf8 "void f()\x7bx=((a)+b;\x7d"
    let opening : Token :=
      { lexeme := .bracket .leftParenthesis, line := 1, column := 12, offset := 11, file := "<input>" }
    let found : Token :=
      { lexeme := .semicolon none, line := 1, column := 18, offset := 17, file := "<input>" }
    (({} : Options).parse source none).1 = .error (.refused
        (.unmatched (.bracket .rightParenthesis) found opening (some source))) ∧
      ∃ before between after, ({} : Options).stream source none
          = before ++ opening :: (between ++ found :: after) ∧ Nested between := by
  intro source opening found
  have hreason : (({} : Options).parse source none).1.map (fun _ => ()) = .error (.refused
      (.unmatched (.bracket .rightParenthesis) found opening (some source))) := by
    decide +kernel
  have herror := eq_error_of_map hreason
  obtain ⟨before, between, after, -, hstream, hnested, -⟩ :=
    (unmatched_names_innermost_open_bracket {} source none).1 _ _ _ _ herror
  exact ⟨herror, before, between, after, hstream, hnested⟩

end MiniC.Options
