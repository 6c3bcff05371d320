/-
# MiniC.Proofs.EarliestError — a refused token is the first that cannot be right.

A refusal names a token.  What stands before it could still have gone on to an accepted source, and
with it no source can: no error is reported later than the stream shows it.  There is one exception.
The word `void` behind the bracket that opens the arguments of a function may be right, as in
`f(void)`, or wrong, as in `f(void x)`; there it takes the token behind it to tell.

The first half comes from the contracts that the rules meet and from spelling a completion out.  The
second half is locality: a source that opens in the same way is read in the same way.
-/
import MiniC.Proofs.Locality
import MiniC.Proofs.Stream

namespace MiniC

/-! ## What opens an accepted source -/

namespace Options

variable (o : Options)

/-- Some source that is accepted, with strict reading off, has a token stream that opens with these
lexemes. -/
def Opens (ls : List Lexeme) : Prop :=
  ∃ source name r, ({ o with strict := false }.parse source name).1 = .ok r ∧
    ls <+: (o.stream source name).map Token.lexeme

variable {o} {ls ls' : List Lexeme}

theorem Opens.of_isPrefix (h : o.Opens ls') (hpre : ls <+: ls') : o.Opens ls := by
  obtain ⟨source, name, r, hr, hopens⟩ := h
  exact ⟨source, name, r, hr, hpre.trans hopens⟩

/-- A word of the grammar, in legal lexemes, spelled out is accepted. -/
theorem opens_of_derives (hlegal : ∀ l ∈ ls, l.isLegal = true)
    (hword : Derives .translationUnit (ls.map Lexeme.terminal)) : o.Opens ls := by
  obtain ⟨ts, mark, hholds, hts⟩ := Reader.new_holds_of_spell (o.fileName none) hlegal
  have hterminals : ts.map Token.terminal = ls.map Lexeme.terminal := by
    rw [← hts, List.map_map]
    rfl
  obtain ⟨es, hes⟩ := hword.covers ts hterminals
  obtain ⟨p, hrun⟩ := items_ok_of_holds { o with strict := false } (spell ls) none rfl hholds hes
  obtain ⟨r, hr, -⟩ := parse_of_ok _ (spell ls) none hrun
  refine ⟨spell ls, none, r, hr, ?_⟩
  rw [stream, hholds.stream_eq, List.map_append, hts]
  exact List.prefix_append _ _

end Options

/-- Some legal lexeme that the grammar sees as this letter. -/
def Terminal.sample : Terminal → Lexeme
  | .preprocessor => .preprocessor (some [Byte.hash])
  | .identifier => .identifier (some (utf8 "x"))
  | .number => .number (some (utf8 "0"))
  | .comma => .comma none
  | .semicolon => .semicolon none
  | .endOfStream => .endOfStream none
  | .keyword k => .keyword k
  | .operator o => .operator o
  | .bracket b => .bracket b

namespace Terminal

variable {c : Terminal}

theorem terminal_sample (c : Terminal) : c.sample.terminal = c := by
  cases c <;> rfl

theorem isLegal_sample (h : c ≠ .endOfStream) : c.sample.isLegal = true := by
  cases c with
  | endOfStream => exact absurd rfl h
  | identifier | number => decide +kernel
  | _ => rfl

end Terminal

/-- Legal lexemes from which a word of the grammar can still be reached open an accepted source. -/
theorem Options.opens_of_viable {o : Options} {ls : List Lexeme}
    (hlegal : ∀ l ∈ ls, l.isLegal = true) (h : Contract.unit.Viable (ls.map Lexeme.terminal)) :
    o.Opens ls := by
  obtain ⟨c, es, hword⟩ := h
  replace hword : Derives .translationUnit (ls.map Lexeme.terminal ++ c) := hword
  have hsample : (ls ++ c.map Terminal.sample).map Lexeme.terminal
      = ls.map Lexeme.terminal ++ c := by
    have hid : Lexeme.terminal ∘ Terminal.sample = id := funext Terminal.terminal_sample
    rw [List.map_append, List.map_map, hid, List.map_id]
  have hall : ∀ l ∈ ls ++ c.map Terminal.sample, l.isLegal = true := by
    intro l hl
    rcases List.mem_append.mp hl with hl | hl
    · exact hlegal l hl
    · obtain ⟨x, hx, rfl⟩ := List.mem_map.mp hl
      refine Terminal.isLegal_sample ?_
      rintro rfl
      exact hword.endOfStream_notMem (List.mem_append_right _ hx)
  refine (opens_of_derives hall ?_).of_isPrefix (List.prefix_append _ _)
  rw [hsample]
  exact hword

/-! ## Reading alike -/

/-- What a run drew is known from where it stopped, up to end marks drawn again.  So a reader with
tokens like those up to there has tokens like all that were drawn. -/
theorem Parser.Drew.exists_like {p p' : Parser} {ds es fs w : List Token} {r r' : Reader}
    (hdrew : p.Drew es p') (hp : p.ahead = []) (hne : p'.ahead ≠ [])
    (hds : p.reader.Delivers ds p'.reader) (hw : ds = w ++ p'.ahead)
    (hlike : List.Forall₂ Likeness.lexemes.tokens ds fs) (hfs : r.Delivers fs r') :
    ∃ gs r'', List.Forall₂ Likeness.lexemes.tokens es gs ∧ r.Delivers gs r'' := by
  rcases Nat.le_total es.length ds.length with hle | hle
  · obtain ⟨vs, rfl, -⟩ := hdrew.delivers.extend hds hle
    obtain ⟨gs, -, r₁, hgs, -, hdeliv, -⟩ := Likeness.exists_split hlike hfs
    exact ⟨gs, r₁, hgs, hdeliv⟩
  · obtain ⟨vs, rfl, hvs⟩ := hds.extend hdrew.delivers hle
    have hmarks := hvs.atEnd_of_still
    rcases List.eq_nil_or_concat vs with rfl | ⟨vs, x, rfl⟩
    · exact ⟨fs, r', by simpa using hlike, hfs⟩
    -- Both deliveries end with the last token ahead, which is an end mark.
    · obtain ⟨a, y, ha⟩ : ∃ a y, p'.ahead = a ++ [y] := by
        rcases List.eq_nil_or_concat p'.ahead with hnil | ⟨a, y, ha⟩
        · exact absurd hnil hne
        · exact ⟨a, y, by rw [ha, List.concat_eq_append]⟩
      obtain ⟨u, hu⟩ := hdrew.ahead
      rw [hp, ha, List.nil_append, List.concat_eq_append, ← List.append_assoc, ← List.append_assoc]
        at hu
      obtain rfl : y = x := by simpa using List.append_inj_right' hu rfl
      rw [ha, ← List.append_assoc] at hw
      subst hw
      have hrest : r'.rest = [] := by
        obtain ⟨_, zs, _, -, hzs, -, hlast⟩ := Likeness.exists_split hlike hfs
        obtain ⟨z, _, hz, hnil, rfl⟩ := List.forall₂_cons_left_iff.mp hzs
        cases hnil
        have hend : z.atEnd = true := by
          rw [← Likeness.atEnd_eq hz]
          exact hmarks y (by simp)
        rw [← List.nil_append [z]] at hlast
        exact hlast.rest_eq_nil hend
      obtain ⟨ms, hms, heq⟩ := Reader.exists_delivers_marks hrest (vs.concat y).length
      refine ⟨fs ++ ms, r', List.rel_append hlike (Likeness.forall₂_lexemes.mpr ?_), hfs.append hms⟩
      rw [heq, List.eq_replicate_iff, List.length_map]
      refine ⟨rfl, List.forall_mem_map.mpr fun t ht => ?_⟩
      exact hvs.lexeme_of_atEnd t ht (hmarks t ht)

namespace Rule

variable {strict : Bool} {n m : Nat} {p p' q q' : Parser} {es : List Node} {e : SyntaxError}

/-- A larger budget changes no success. -/
theorem items_ok_mono (h : items strict n p = .ok es p') (hnm : n ≤ m) :
    ∃ es' p'', items strict m p = .ok es' p'' := by
  have hahead : Likeness.lexemes.OfAhead p p := Likeness.forall₂_lexemes.mpr rfl
  have hlike : Likeness.lexemes.Alike Likeness.lexemes.OfNodes (items strict n) (items strict m) :=
    alike_items hnm
  have hfollow := hlike.follows p p hahead
  rw [h] at hfollow
  generalize items strict m p = result at hfollow ⊢
  cases hfollow with
  | @ends _ _ ds hdrew hends =>
      cases hends ds _ (Likeness.forall₂_lexemes.mpr rfl) hdrew.delivers with
      | @ok _ es' _ p'' => exact ⟨es', p'', rfl⟩

/-- Where one run refuses a token, no run succeeds that sees the same up to where the first one
stopped. -/
theorem items_not_ok_of_like {found : Token} {ds fs w : List Token} {r : Reader}
    (h : items strict n p = .error (.refused e) p') (hfound : e.found? = some found)
    (hp : p.ahead = []) (hq : q.ahead = []) (hne : p'.ahead ≠ [])
    (hds : p.reader.Delivers ds p'.reader) (hw : ds = w ++ p'.ahead)
    (hlike : List.Forall₂ Likeness.lexemes.tokens ds fs) (hfs : q.reader.Delivers fs r) :
    items strict m q ≠ .ok es q' := by
  intro hok
  obtain ⟨es', q'', hok'⟩ := items_ok_mono hok (Nat.le_add_left m n)
  have hahead : Likeness.lexemes.OfAhead p q := by
    rw [Likeness.OfAhead, hp, hq]
    exact .nil
  have hrules : Likeness.lexemes.Alike Likeness.lexemes.OfNodes (items strict n)
      (items strict (n + m)) := alike_items (Nat.le_add_right n m)
  have hfollow := hrules.follows p q hahead
  rw [h, hok'] at hfollow
  cases hfollow with
  | @ends _ _ ds' hdrew hends =>
      obtain ⟨gs, r', hgs, hdeliv⟩ := hdrew.exists_like hp hne hds hw hlike hfs
      cases hends gs r' hgs hdeliv
  | unreadable hnone => simp [hfound] at hnone

end Rule

/-! ## The earliest error -/

namespace Options

variable {o : Options} {source : Bytes} {name : Option String} {e : SyntaxError} {found : Token}

/-- How a refusal comes about: tokens were drawn up to the one that is refused and at most one more,
and the reason for one more is a `void`. -/
theorem exists_run_of_refused
    (h : ({ o with strict := false }.parse source name).1 = .error (.refused e))
    (hfound : e.found? = some found) :
    ∃ before rest p', Rule.items false ({ o with strict := false }.start source name).budget
          ({ o with strict := false }.start source name) = .error (.refused e) p' ∧
      (Reader.new source (o.fileName name)).Delivers (before ++ found :: rest) p'.reader ∧
      p'.ahead ≠ [] ∧ (∃ w, before ++ found :: rest = w ++ p'.ahead) ∧
      (∀ t ∈ before, t.atEnd = false) ∧ Contract.unit.Viable (before.map Token.terminal) ∧
      (rest = [] ∨ (∃ next, rest = [next]) ∧ found.lexeme = .keyword .void ∧
        OpensArguments (before.map Token.terminal)) := by
  have hout := items_outcome { o with strict := false } source name
  generalize hrun : Rule.items false ({ o with strict := false }.start source name).budget
    ({ o with strict := false }.start source name) = result at hout ⊢
  cases hout with
  | ok =>
      obtain ⟨r, hr, -⟩ := parse_of_ok { o with strict := false } source name hrun
      simp [hr] at h
  | unreadable _ hnext =>
      rw [parse_of_error { o with strict := false } source name hrun] at h
      cases h
      simp [Reader.found?_of_next hnext] at hfound
  | @stuck _ found' p' w v rest htook hahead hlive hfound' hviable hrest =>
      rw [parse_of_error { o with strict := false } source name hrun] at h
      cases h
      obtain rfl : found' = found := by simpa [hfound'] using hfound
      obtain ⟨ds, hds, heq⟩ := htook.drawn
      replace heq : ds = w ++ p'.ahead := heq
      have hsplit : w ++ v ++ found' :: rest = w ++ p'.ahead := by rw [hahead, List.append_assoc]
      refine ⟨w ++ v, rest, p', rfl, ?_, by simp [hahead], ⟨w, hsplit⟩, ?_, hviable, ?_⟩
      · rw [hsplit, ← heq]
        exact hds
      · intro t ht
        exact (List.mem_append.mp ht).elim (htook.live t) (hlive t)
      · rcases hrest with hnone | ⟨hone, hvoid, hlate⟩
        · exact .inl (List.eq_nil_of_length_eq_zero (Nat.le_zero.mp hnone))
        · rcases Nat.le_one_iff_eq_zero_or_eq_one.mp hone with hzero | hone
          · exact .inl (List.eq_nil_of_length_eq_zero hzero)
          · exact .inr ⟨List.length_eq_one_iff.mp hone, hvoid, hlate⟩

/-- The source that was refused tells of all that open like it. -/
theorem not_opens_of_run {ds w : List Token} {p' : Parser}
    (hrun : Rule.items false ({ o with strict := false }.start source name).budget
      ({ o with strict := false }.start source name) = .error (.refused e) p')
    (hfound : e.found? = some found)
    (hds : (Reader.new source (o.fileName name)).Delivers ds p'.reader) (hne : p'.ahead ≠ [])
    (hw : ds = w ++ p'.ahead) : ¬ o.Opens (ds.map Token.lexeme) := by
  rintro ⟨source', name', r, hr, vs, hvs⟩
  obtain ⟨⟨r', hstream⟩, -⟩ := (Reader.new source' (o.fileName name')).delivers_stream
  obtain ⟨fs, gs, hfg, hfs, -⟩ := List.map_eq_append_iff.mp hvs.symm
  have hopen : (Reader.new source' (o.fileName name')).stream = fs ++ gs := hfg
  rw [hopen] at hstream
  obtain ⟨r₁, hdeliv, -⟩ := hstream.split
  have hlike : List.Forall₂ Likeness.lexemes.tokens ds fs := Likeness.forall₂_lexemes.mpr hfs.symm
  cases hitems : Rule.items false ({ o with strict := false }.start source' name').budget
      ({ o with strict := false }.start source' name') with
  | ok es q =>
      exact Rule.items_not_ok_of_like hrun hfound rfl rfl hne hds hw hlike hdeliv hitems
  | error failure q =>
      rw [parse_of_error { o with strict := false } source' name' hitems] at hr
      cases hr

/-- With strict reading off, a refused token is the first that cannot be right.  It is one token of
the stream; the tokens before it open some accepted source, and with it they open none.  Where it is a
`void` right behind the bracket that opens the arguments of a function, they open none once the next
token is added too. -/
theorem refused_token_is_earliest
    (h : ({ o with strict := false }.parse source name).1 = .error (.refused e))
    (hfound : e.found? = some found) :
    found ∈ o.stream source name ∧ ∀ i, (o.stream source name)[i]? = some found →
      o.Opens (((o.stream source name).take i).map Token.lexeme) ∧
      (¬ (found.lexeme = .keyword .void ∧
          OpensArguments (((o.stream source name).take i).map Token.terminal)) →
        ¬ o.Opens (((o.stream source name).take (i + 1)).map Token.lexeme)) ∧
      (found.lexeme = .keyword .void →
          OpensArguments (((o.stream source name).take i).map Token.terminal) →
        ¬ o.Opens (((o.stream source name).take (i + 2)).map Token.lexeme)) := by
  obtain ⟨before, rest, p', hrun, hdeliv, hne, ⟨w, hw⟩, hlive, hviable, hrest⟩ :=
    exists_run_of_refused h hfound
  have hnone : ¬ o.Opens ((before ++ found :: rest).map Token.lexeme) :=
    not_opens_of_run hrun hfound hdeliv hne hw
  -- The tokens drawn open the stream: at most the last of them is the end mark.
  have hpre : before ++ found :: rest <+: o.stream source name := by
    apply hdeliv.isPrefix_stream
    rcases hrest with rfl | ⟨⟨next, rfl⟩, hvoid, -⟩
    · simpa using hlive
    · have hdrop : (before ++ [found, next]).dropLast = before ++ [found] := by simp
      have hfoundLive : found.atEnd = false := Token.live_of_lexeme hvoid rfl
      rw [hdrop]
      intro t ht
      rcases List.mem_append.mp ht with ht | ht
      · exact hlive t ht
      · rwa [List.mem_singleton.mp ht]
  have hcut : ∀ k, (before ++ found :: rest).length ≤ k →
      ¬ o.Opens (((o.stream source name).take k).map Token.lexeme) := by
    intro k hk hopens
    exact hnone (hopens.of_isPrefix ((List.prefix_take_iff.mpr ⟨hpre, hk⟩).map Token.lexeme))
  have hat : (o.stream source name)[before.length]? = some found := by
    obtain ⟨vs, hvs⟩ := hpre
    simp [← hvs]
  refine ⟨List.mem_of_getElem? hat, fun i hi => ?_⟩
  obtain rfl : i = before.length := by
    have hlt : i < (o.stream source name).length := (List.getElem?_eq_some_iff.mp hi).1
    exact (List.getElem?_inj hlt (Reader.nodup_stream _)).mp (hi.trans hat.symm)
  have htake : (o.stream source name).take before.length = before :=
    (List.prefix_iff_eq_take.mp ((List.prefix_append _ _).trans hpre)).symm
  rw [htake]
  refine ⟨?_, fun hexcept => ?_, fun _ _ => ?_⟩
  · obtain ⟨r, hbefore, -⟩ := hdeliv.split
    refine opens_of_viable (List.forall_mem_map.mpr (hbefore.isLegal hlive)) ?_
    rw [List.map_map]
    exact hviable
  · rcases hrest with rfl | ⟨-, hvoid, hlate⟩
    · exact hcut _ (by simp)
    · exact absurd ⟨hvoid, hlate⟩ hexcept
  · apply hcut
    rcases hrest with rfl | ⟨⟨next, rfl⟩, -, -⟩
    · simp
    · simp

/-- `int f(void` can be right, `int f(void x` cannot; the refusal names the `void`. -/
theorem refused_void_with_name :
    ({} : Options).Opens
        (((({} : Options).stream (utf8 "int f(void x);") none).take 3).map Token.lexeme) ∧
      ¬ ({} : Options).Opens
        (((({} : Options).stream (utf8 "int f(void x);") none).take 5).map Token.lexeme) := by
  have hreason : (({} : Options).parse (utf8 "int f(void x);") none).1.map (fun _ => ())
      = .error (.refused (.unexpected .objectType
        { lexeme := .keyword .void, line := 1, column := 7, offset := 6, file := "<input>" }
        (some (utf8 "int f(void x);")) none)) := by
    decide +kernel
  have hrefused := eq_error_of_map hreason
  have hopens : OpensArguments
      (((({} : Options).stream (utf8 "int f(void x);") none).take 3).map Token.terminal) :=
    ⟨[], [.int], Derives.unit_nil, by decide, by decide +kernel⟩
  have hearliest := (refused_token_is_earliest (o := {}) hrefused rfl).2 3 (by decide +kernel)
  exact ⟨hearliest.1, hearliest.2.2 rfl hopens⟩

end Options

end MiniC
