/-
# MiniC.Proofs.Laziness — drawing tokens on demand against reading them all at once.

A parser asks for a token when a rule has to look at one, and may stop long before the source ends.
What it says still agrees with the whole token stream.  If it accepts, it has drawn the stream and
counted each token once.  If reading broke off under it, the whole stream breaks off there and for
the same reason.  If it refuses a token, that token and the bracket it may be said to leave open are
tokens of the stream, and stand before any place at which the stream breaks off.
-/
import MiniC.Proofs.Locality
import MiniC.Proofs.Stream

namespace MiniC

/-- The tokens that a refusal names: the one found, and the bracket that it leaves open. -/
def SyntaxError.named : SyntaxError → List Token
  | .unexpected _ found _ _ => [found]
  | .unmatched _ found opening _ => [found, opening]
  | .invalidByte .. | .unclosedComment .. => []

theorem SyntaxError.mem_named {e : SyntaxError} {t : Token} (h : e.found? = some t) :
    t ∈ e.named := by
  cases e <;> simp_all [found?, named]

theorem SyntaxError.named_eq_nil {e : SyntaxError} (h : e.found? = none) : e.named = [] := by
  cases e <;> simp_all [found?, named]

/-! ## Rules name only what they have seen -/

namespace Likeness

/-- A token is like all others of its lexeme, but like itself only if it is one of `S`.  A run that is
in lockstep with itself in this sense has got every token it names from `S`. -/
def within (S : Token → Prop) : Likeness where
  tokens t t' := t.lexeme = t'.lexeme ∧ (t = t' → S t)
  places _ _ := True
  exists_like t := by
    by_cases ht : S t
    · exact ⟨t, rfl, fun _ => ht⟩
    · refine ⟨{ t with line := t.line + 1 }, rfl, fun heq => ?_⟩
      have hline : t.line = t.line + 1 := congrArg Token.line heq
      omega
  lexeme_eq h := h.1
  location _ := trivial

theorem forall₂_within {S : Token → Prop} {ts : List Token} (h : ∀ t ∈ ts, S t) :
    List.Forall₂ (within S).tokens ts ts :=
  List.forall₂_same.mpr fun t ht => ⟨rfl, fun _ => h t ht⟩

theorem OfError.within_self {S : Token → Prop} {e : SyntaxError} (h : (within S).OfError e e) :
    ∀ t ∈ e.named, S t := by
  cases h with
  | unexpected hfound => simpa [SyntaxError.named] using hfound.2 rfl
  | unmatched hfound hopening => simpa [SyntaxError.named] using ⟨hfound.2 rfl, hopening.2 rfl⟩

end Likeness

theorem Rule.named_mem_stream {strict : Bool} {n : Nat} {p p' : Parser} {e : SyntaxError}
    (hp : p.ahead = []) (h : items strict n p = .error (.refused e) p') :
    ∀ t ∈ e.named, t ∈ p.reader.stream := by
  let L := Likeness.within (· ∈ p.reader.stream)
  have hahead : L.OfAhead p p := by
    rw [Likeness.OfAhead, hp]
    exact .nil
  have hmoves : L.Alike L.OfNodes (items strict n) (items strict n) := alike_items (Nat.le_refl n)
  -- The rule is run against itself, on the same tokens.
  have hself := hmoves.follows p p hahead
  rw [h] at hself
  cases hself with
  | @ends _ _ ds hdrew hends =>
      have hds := Likeness.forall₂_within hdrew.delivers.mem_stream
      cases hends ds _ hds hdrew.delivers with
      | refused he => exact he.within_self
  | unreadable hnone => simp [SyntaxError.named_eq_nil hnone]

/-! ## Counting -/

namespace Rule

/-- A rule leaves the parser with `I` if it succeeds, and with `J` if it fails. -/
def LeavesWith {α : Type} (I J : Parser → Prop) : EStateM.Result Failure Parser α → Prop
  | .ok _ p => I p
  | .error _ p => J p

/-- Every move keeps `I`, and `J` holds wherever reading may fail.  A token is drawn only while at most
one waits. -/
structure Guarded (I J : Parser → Prop) : Prop where
  draw : ∀ {p : Parser}, I p → p.ahead.length ≤ 1 → LeavesWith I J (Rule.draw p)
  drop : ∀ {p : Parser}, I p → I { p with ahead := p.ahead.tail }
  note : ∀ {p : Parser} (e : Event), I p → I { p with journal := e :: p.journal }
  fail : ∀ {p : Parser}, I p → J p

theorem LeavesWith.bind {α β : Type} {I J : Parser → Prop} {x : Rule α} {f : α → Rule β} {p : Parser}
    (hx : LeavesWith I J (x p)) (hf : ∀ a q, x p = .ok a q → I q → LeavesWith I J (f a q)) :
    LeavesWith I J ((x >>= f) p) := by
  cases hrun : x p with
  | error failure q =>
      rw [hrun] at hx
      rw [bind_error hrun]
      exact hx
  | ok a q =>
      rw [hrun] at hx
      rw [bind_ok hrun]
      exact hf a q hrun hx

namespace Guarded

variable {I J : Parser → Prop} {p : Parser}

theorem peek (h : Guarded I J) (hp : I p) : LeavesWith I J (Rule.peek p) := by
  cases hahead : p.ahead with
  | nil =>
      rw [peek_of_nil hahead]
      exact h.draw hp (by simp [hahead])
  | cons t a =>
      rw [peek_of_ahead hahead]
      exact hp

/-- A look draws a first token if none is ahead, and a second one if only one is. -/
theorem look (h : Guarded I J) {x : Rule Token} (hx : Likeness.Look x) (hp : I p) :
    LeavesWith I J (x p) := by
  cases hx with
  | peek => exact h.peek hp
  | peekSecond =>
      apply (h.peek hp).bind
      intro t q hpeek hq
      obtain ⟨a, hahead⟩ := ahead_of_peek hpeek
      rw [get_bind, hahead]
      cases a with
      | nil => exact h.draw hq (by simp [hahead])
      | cons s a => exact hq
  | take =>
      apply (h.peek hp).bind
      intro t q _ hq
      exact h.drop hq

/-- What every move keeps, every run keeps. -/
theorem of_alike {L : Likeness} {α β : Type} {R : α → β → Prop} {x : Rule α} {y : Rule β}
    (h : Guarded I J) (hxy : L.Alike R x y) (hp : I p) : LeavesWith I J (x p) := by
  induction hxy generalizing p with
  | pure => exact hp
  | look hlook _ ih =>
      apply (h.look hlook hp).bind
      intro t q _ hq
      obtain ⟨t', hlike⟩ := L.exists_like t
      exact ih t t' hlike hq
  | note _ _ ih => exact ih (h.note _ hp)
  | refuse => exact h.fail hp
  | exhausted => exact h.fail hp

end Guarded

/-- What drawing, taking and noting keep. -/
structure Kept (I : Parser → Prop) : Prop where
  draw : ∀ {p p' : Parser} {t : Token}, I p → Rule.draw p = .ok t p' → I p'
  drop : ∀ {p : Parser}, I p → I { p with ahead := p.ahead.tail }
  note : ∀ {p : Parser} (e : Event), I p → I { p with journal := e :: p.journal }

namespace Kept

variable {I : Parser → Prop} {p p' : Parser} {t : Token}

/-- Nothing is asked of a run that fails. -/
theorem guarded (hI : Kept I) : Guarded I fun _ => True where
  draw := by
    intro p hp _
    cases hdraw : Rule.draw p with
    | ok t p' => exact hI.draw hp hdraw
    | error failure p' => trivial
  drop := hI.drop
  note := hI.note
  fail _ := trivial

theorem look (hI : Kept I) {x : Rule Token} (hx : Likeness.Look x) (hp : I p) (h : x p = .ok t p') :
    I p' := by
  have hleaves := hI.guarded.look hx hp
  rwa [h] at hleaves

/-- What every move keeps, every run keeps that comes to its end. -/
theorem of_alike {L : Likeness} {α β : Type} {R : α → β → Prop} {x : Rule α} {y : Rule β} {a : α}
    (hI : Kept I) (h : L.Alike R x y) (hp : I p) (hrun : x p = .ok a p') : I p' := by
  have hleaves := hI.guarded.of_alike h hp
  rwa [hrun] at hleaves

end Kept

/-! ## Lines that refusals show -/

/-- No move brings another source. -/
theorem kept_source (source : Bytes) : Kept fun p => p.reader.source = source where
  draw := by
    rintro p p' t hp h
    have hsource := p.reader.source_next
    rw [(draw_eq_ok h).1] at hsource
    exact hsource.trans hp
  drop hp := hp
  note _ hp := hp

theorem found?_of_draw {p p' : Parser} {e : SyntaxError} (h : draw p = .error (.refused e) p') :
    e.found? = none := by
  obtain ⟨_, ⟨⟩, hnext⟩ := draw_eq_error h
  exact Reader.found?_of_next hnext

theorem found?_of_peek {p p' : Parser} {e : SyntaxError} (h : peek p = .error (.refused e) p') :
    e.found? = none := by
  cases hahead : p.ahead with
  | nil =>
      rw [peek_of_nil hahead] at h
      exact found?_of_draw h
  | cons t a =>
      rw [peek_of_ahead hahead] at h
      cases h

/-- A look fails only where the reader does. -/
theorem found?_of_look {x : Rule Token} (hx : Likeness.Look x) {p p' : Parser} {e : SyntaxError}
    (h : x p = .error (.refused e) p') : e.found? = none := by
  cases hx with
  | peek => exact found?_of_peek h
  | peekSecond =>
      cases hpeek : peek p with
      | error failure q =>
          rw [peekSecond, bind_error hpeek] at h
          cases h
          exact found?_of_peek hpeek
      | ok s q =>
          rw [peekSecond, bind_ok hpeek, get_bind] at h
          generalize q.ahead = ahead at h
          rcases ahead with _ | ⟨s, _ | ⟨s', a⟩⟩
          · exact found?_of_draw h
          · exact found?_of_draw h
          · cases h
  | take =>
      cases hpeek : peek p with
      | error failure q =>
          rw [take, bind_error hpeek] at h
          cases h
          exact found?_of_peek hpeek
      | ok s q =>
          rw [take, bind_ok hpeek] at h
          cases h

/-- Whatever a run refuses, it shows the line of that token. -/
theorem quotes_of_alike {L : Likeness} {α β : Type} {R : α → β → Prop} {x : Rule α} {y : Rule β}
    {p p' : Parser} {e : SyntaxError} (h : L.Alike R x y) (hrun : x p = .error (.refused e) p') :
    e.Quotes p.reader := by
  induction h generalizing p with
  | pure => cases hrun
  | @look x f g hlook _ ih =>
      cases hx : x p with
      | error failure q =>
          rw [bind_error hx] at hrun
          cases hrun
          simp [SyntaxError.Quotes, found?_of_look hlook hx]
      | ok t q =>
          rw [bind_ok hx] at hrun
          obtain ⟨t', ht⟩ := L.exists_like t
          have hquotes := ih t t' ht hrun
          have hsource := (kept_source p.reader.source).look hlook rfl hx
          unfold SyntaxError.Quotes Reader.lineText at hquotes ⊢
          rwa [hsource] at hquotes
  | @note event _ _ _ _ _ ih => exact ih (p := { p with journal := event :: p.journal }) hrun
  | refuse _ hquotes _ =>
      cases hrun
      exact hquotes _
  | exhausted => cases hrun

end Rule

/-- From `r` on some tokens were drawn, with the end mark counted once however often it was. -/
def Parser.Counted (r : Reader) (p : Parser) : Prop :=
  ∃ ds, r.Delivers ds p.reader ∧ p.ahead <:+ ds ∧ p.sawEnd = ds.any Token.atEnd ∧
    p.tokensRead = (ds.map Reader.cost).sum + p.sawEnd.toNat

/-- The end mark is counted the first time it is drawn. -/
theorem Parser.count_of_draw {r : Reader} {p p' : Parser} {t : Token} {ds : List Token}
    (h : Rule.draw p = .ok t p') (hds : r.Delivers ds p.reader) (hsaw : p.sawEnd = ds.any Token.atEnd)
    (hread : p.tokensRead = (ds.map Reader.cost).sum + p.sawEnd.toNat) :
    p'.sawEnd = (ds ++ [t]).any Token.atEnd ∧
      p'.tokensRead = ((ds ++ [t]).map Reader.cost).sum + p'.sawEnd.toNat := by
  obtain ⟨hnext, -, -, -, -, hsaw', hread'⟩ := Rule.draw_eq_ok h
  refine ⟨by simp [hsaw', hsaw], ?_⟩
  rw [hread', hsaw', hread]
  cases hend : p.sawEnd with
  | false => cases ht : t.atEnd <;> simp [ht, Reader.cost]
  | true =>
      -- Nothing but the end mark comes behind the end mark.
      obtain ⟨mark, hmem, hmark⟩ := List.any_eq_true.mp (hsaw.symm.trans hend)
      rw [hds.next_of_mem hmem hmark] at hnext
      obtain rfl : mark = t := by simpa using congrArg Prod.fst hnext
      simp [hmark, Reader.cost]

theorem Parser.kept_counted (r : Reader) : Rule.Kept (Parser.Counted r) where
  draw := by
    rintro p p' t ⟨ds, hds, hahead, hsaw, hread⟩ h
    obtain ⟨hnext, hlast, -⟩ := Rule.draw_eq_ok h
    refine ⟨ds ++ [t], hds.append (.single hnext), ?_, count_of_draw h hds hsaw hread⟩
    obtain ⟨taken, rfl⟩ := hahead
    exact ⟨taken, by rw [hlast, List.append_assoc]⟩
  drop := by
    rintro p ⟨ds, hds, hahead, hsaw, hread⟩
    exact ⟨ds, hds, (List.tail_suffix _).trans hahead, hsaw, hread⟩
  note := by
    rintro p e ⟨ds, hds, hahead, hsaw, hread⟩
    exact ⟨ds, hds, hahead, hsaw, hread⟩

/-- Behind the end mark nothing costs text. -/
theorem Reader.Delivers.sum_cost_of_mem {r r' r'' : Reader} {us vs : List Token} {t : Token}
    (h : r.Delivers us r') (hmem : t ∈ us) (hend : t.atEnd = true) (hvs : r'.Delivers vs r'') :
    (vs.map Reader.cost).sum = 0 := by
  have hmarks := (hvs.of_still (h.next_of_mem hmem hend)).2
  rw [List.eq_replicate_of_mem hmarks]
  simp [Reader.cost, hend]

/-- However many end marks were drawn, the tokens before them are those that the reader holds. -/
theorem Reader.Holds.sum_cost {r r' : Reader} {ts us : List Token} {mark : Token}
    (h : r.Holds ts mark) (hus : r.Delivers us r') (hmem : ∃ t ∈ us, t.atEnd = true) :
    (us.map Reader.cost).sum = ts.length := by
  obtain ⟨r₁, hts⟩ := h.delivers
  have hcost : ((ts ++ [mark]).map Reader.cost).sum = ts.length := by
    simp [Parser.Took.sum_cost_of_live h.live, Reader.cost, h.atEnd]
  obtain ⟨t, ht, hend⟩ := hmem
  rcases Nat.le_total us.length (ts ++ [mark]).length with hle | hle
  · obtain ⟨vs, heq, hvs⟩ := hus.extend hts hle
    rw [heq, List.map_append, List.sum_append, hus.sum_cost_of_mem ht hend hvs] at hcost
    exact hcost
  · obtain ⟨vs, rfl, hvs⟩ := hts.extend hus hle
    rw [List.map_append, List.sum_append, hcost, hts.sum_cost_of_mem (by simp) h.atEnd hvs]
    rfl

namespace Options

variable (o : Options) (source : Bytes) (name : Option String)

theorem tokensRead_of_items_ok {es : List Node} {p : Parser} {ts : List Token} {mark : Token}
    (h : Rule.items o.strict (o.start source name).budget (o.start source name) = .ok es p)
    (hholds : (Reader.new source (o.fileName name)).Holds ts mark) :
    p.tokensRead = ts.length + 1 := by
  have hmoves : Likeness.lexemes.Alike Likeness.lexemes.OfNodes
      (Rule.items o.strict (o.start source name).budget)
      (Rule.items o.strict (o.start source name).budget) := Rule.alike_items (Nat.le_refl _)
  have hstart : (o.start source name).Counted (Reader.new source (o.fileName name)) :=
    ⟨[], .nil _, by simp [start, Parser.new], rfl, rfl⟩
  obtain ⟨ds, hds, hahead, hsaw, hread⟩ := (Parser.kept_counted _).of_alike hmoves hstart h
  obtain ⟨t, a, ht, htest⟩ := Rule.ahead_of_repeatOnto h
  have hmem : ∃ t ∈ ds, t.atEnd = true :=
    ⟨t, hahead.subset (by simp [ht]), by simpa using htest⟩
  rw [hread, hsaw, hholds.sum_cost hds hmem, List.any_eq_true.mpr hmem]
  rfl

theorem tokenize_eq_error_iff {e : SyntaxError} :
    (o.tokenize source name).1 = .error e ↔
      ∃ ts, (Reader.new source (o.fileName name)).Fails ts e := by
  rcases (Reader.new source (o.fileName name)).drainOnto_spec [] with
    ⟨ts, mark, hholds, hstop, -⟩ | ⟨ts, e', hfails, hstop, -⟩
  · constructor
    · simp [tokenize, Reader.drain, hstop]
    · rintro ⟨ts', hfails⟩
      exact absurd hfails hholds.not_fails
  · constructor
    · intro h
      simp only [tokenize, Reader.drain, hstop, Except.error.injEq] at h
      exact ⟨ts, h ▸ hfails⟩
    · rintro ⟨ts', hfails'⟩
      obtain ⟨-, rfl⟩ := hfails.unique hfails'
      simp only [tokenize, Reader.drain, hstop]

/-- A parser has drawn all of the stream, or names tokens of it, or stopped where it breaks off. -/
theorem parse_cases :
    (∃ r ts mark, (o.parse source name).1 = .ok r ∧
      (Reader.new source (o.fileName name)).Holds ts mark ∧ r.tokenCount = ts.length + 1) ∨
    (∃ e found, (o.parse source name).1 = .error (.refused e) ∧ e.found? = some found ∧
      ∀ t ∈ e.named, t ∈ o.stream source name) ∨
    ∃ e ts, (o.parse source name).1 = .error (.refused e) ∧ e.found? = none ∧
      (Reader.new source (o.fileName name)).Fails ts e := by
  have hout := o.items_outcome source name
  generalize hrun : Rule.items o.strict (o.start source name).budget (o.start source name)
    = result at hout
  cases hout with
  | ok =>
      obtain ⟨ts, mark, hholds, -⟩ := o.holds_of_items_ok source name hrun
      exact .inl ⟨_, ts, mark, o.parse_eq_ok source name hrun, hholds,
        o.tokensRead_of_items_ok source name hrun hholds⟩
  | stuck _ _ _ hfound =>
      exact .inr (.inl ⟨_, _, o.parse_of_error source name hrun, hfound,
        Rule.named_mem_stream rfl hrun⟩)
  | @unreadable _ _ ds r r' hdeliv hnext =>
      exact .inr (.inr ⟨_, ds, o.parse_of_error source name hrun, Reader.found?_of_next hnext,
        ⟨⟨r, r', hdeliv, hnext⟩, hdeliv.live_of_next_error hnext⟩⟩)

/-- What a parser says, strict or not, agrees with the token stream of its source.

* If it accepts, the source can be read into tokens, and it has counted them.
* If it failed for want of a token, reading the whole source fails in the same way.
* If reading the whole source fails, so does the parser, or it has refused a token before.
* The tokens that it names are tokens of the stream. -/
theorem parse_agrees_with_tokenize :
    (∀ r, (o.parse source name).1 = .ok r →
      ∃ tokens, (o.tokenize source name).1 = .ok tokens ∧ r.tokenCount = tokens.length) ∧
    (∀ e, (o.parse source name).1 = .error (.refused e) → e.found? = none →
      (o.tokenize source name).1 = .error e) ∧
    (∀ e, (o.tokenize source name).1 = .error e →
      (o.parse source name).1 = .error (.refused e) ∨
        ∃ e' found, (o.parse source name).1 = .error (.refused e') ∧ e'.found? = some found ∧
          found ∈ o.stream source name ∧ found.offset < e.position) ∧
    ∀ e, (o.parse source name).1 = .error (.refused e) →
      ∀ t ∈ e.named, t ∈ o.stream source name := by
  rcases o.parse_cases source name with ⟨r, ts, mark, hparse, hholds, hcount⟩ |
    ⟨e, found, hparse, hfound, hnamed⟩ | ⟨e, ts, hparse, hnone, hfails⟩
  · have htokens := (o.tokenize_eq_ok_iff source name).mpr ⟨ts, mark, hholds, rfl⟩
    rw [hparse, htokens]
    refine ⟨?_, by simp, by simp, by simp⟩
    rintro r' ⟨⟩
    exact ⟨_, rfl, by simpa using hcount⟩
  · rw [hparse]
    refine ⟨by simp, ?_, ?_, ?_⟩
    · rintro e' ⟨⟩ hnone
      simp [hfound] at hnone
    · intro e' htokens
      obtain ⟨ts, hfails⟩ := (o.tokenize_eq_error_iff source name).mp htokens
      obtain ⟨r₁, r₂, hdeliv, hnext⟩ := hfails.delivers
      have hmem := hnamed found (SyntaxError.mem_named hfound)
      refine .inr ⟨e, found, rfl, hfound, hmem, (hdeliv.offset_lt_position hnext).2 found ?_⟩
      rwa [← hfails.stream_eq]
    · rintro e' ⟨⟩
      exact hnamed
  · have htokens := (o.tokenize_eq_error_iff source name).mpr ⟨ts, hfails⟩
    rw [hparse, htokens]
    refine ⟨by simp, ?_, ?_, ?_⟩
    · rintro e' ⟨⟩ -
      rfl
    · rintro e' ⟨⟩
      exact .inl rfl
    · rintro e' ⟨⟩
      simp [SyntaxError.named_eq_nil hnone]

/-- A bracket is refused, and the byte behind it that starts no token is not reached. -/
theorem refused_before_invalid_byte :
    let source := utf8 "int f(\x7d @"
    let e : SyntaxError := .invalidByte 64 8 (some { file := "<input>", line := 1, column := 9 })
      (some source) none none
    (({} : Options).tokenize source none).1 = .error e ∧
      ∃ e' found, (({} : Options).parse source none).1 = .error (.refused e') ∧
        e'.found? = some found ∧ found ∈ ({} : Options).stream source none ∧
        found.offset < e.position := by
  intro source e
  have htokens : (({} : Options).tokenize source none).1 = .error e := by decide +kernel
  have hother : (({} : Options).parse source none).1.map (fun _ => ()) ≠ .error (.refused e) := by
    decide +kernel
  obtain ⟨-, -, hbefore, -⟩ := parse_agrees_with_tokenize {} source none
  rcases hbefore e htokens with hsame | hrefused
  · rw [hsame] at hother
    exact absurd rfl hother
  · exact ⟨htokens, hrefused⟩

end Options

end MiniC
