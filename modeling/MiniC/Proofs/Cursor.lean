/-
# MiniC.Proofs.Cursor — where a reader stands, and the same text read elsewhere.

A reader has passed some bytes of its source and has the others before it, and its mark is what
passing those bytes makes of the mark it began with.  No answer changes that, not even a failure.

What a reader answers depends on the text before it.  Where that text stands shows in the places it
reports and nowhere else; so two readers of one text answer alike, as far as their marks correspond
(`Mirror.ofMarks`).  And a lexeme does not depend on the text behind the blank that follows it: behind
a token, one text can take the place of another (`Resumes`).
-/
import MiniC.Proofs.Mirror
import MiniC.Proofs.Tiling

namespace MiniC

/-! ## Bytes passed and bytes to come -/

namespace Mark

theorem line_step (m : Mark) (b : UInt8) : (m.step b).line = m.line + [b].count Byte.lineFeed := by
  unfold step
  split
  · next hb => rw [hb, List.count_singleton_self]
  · next hb => rw [List.count_eq_zero_of_not_mem (by simpa using fun h => hb h.symm)]; rfl

/-- Lines are counted by line feeds, and by nothing else. -/
theorem line_past (m : Mark) (text : Bytes) :
    (m.past text).line = m.line + text.count Byte.lineFeed := by
  induction text generalizing m with
  | nil => rfl
  | cons b text ih =>
      show ((m.step b).past text).line = _
      rw [ih, line_step, Nat.add_assoc, ← List.count_append, List.singleton_append]

end Mark

/-- A comment that is never closed takes the scan to the end of the text. -/
theorem Gap.stop_of_scan_unclosed {s : State} {m start stop : Mark} {text : Bytes}
    (h : scan s m text = .unclosed start stop) : stop = m.past text := by
  fun_induction scan s m text with
  | case1 | case4 | case5 | case8 | case9 => cases h
  | case12 =>
      cases h
      rfl
  | case2 _ _ _ _ ih | case3 _ _ _ ih | case6 _ _ _ ih | case7 _ _ _ _ ih
  | case10 _ _ ih | case11 _ _ _ _ ih | case13 _ _ _ _ _ _ ih | case14 _ _ _ _ _ _ ih => exact ih h

namespace Reader

variable {r r' : Reader} {t : Token} {ts : List Token}

theorem Delivers.source_eq (h : r.Delivers ts r') : r'.source = r.source := by
  induction h with
  | nil => rfl
  | @cons r₁ r₂ _ _ _ hnext _ ih =>
      have hsource := r₁.source_next
      rw [hnext] at hsource
      exact ih.trans hsource

theorem Delivers.file_eq (h : r.Delivers ts r') : r'.file = r.file := by
  induction h with
  | nil => rfl
  | cons hnext _ ih =>
      rcases next_ok_cases hnext with ⟨_, -, -, rfl⟩ | ⟨_, _, _, -, -, -, rfl⟩
      · exact ih
      · exact ih

/-- The source is what has been passed and what is to come, and the mark stands between the two. -/
def InPlace (r : Reader) : Prop :=
  ∃ passed, r.source = passed ++ r.rest ∧ r.mark = Mark.past {} passed

/-- A new reader is at the start of its source. -/
theorem inPlace_new (source : Bytes) (file : String) : (new source file).InPlace := ⟨[], rfl, rfl⟩

/-- A reader that goes over text it was about to read stays in place. -/
theorem InPlace.past {text after : Bytes} (h : r.InPlace) (hrest : r.rest = text ++ after) :
    InPlace { r with mark := r.mark.past text, rest := after } := by
  obtain ⟨passed, hsource, hmark⟩ := h
  refine ⟨passed ++ text, ?_, ?_⟩
  · rw [hsource, hrest, List.append_assoc]
  · rw [hmark, Mark.past_append]

/-- Every answer leaves the reader in place, an error too. -/
theorem InPlace.next (h : r.InPlace) : r.next.2.InPlace := by
  unfold Reader.next
  split
  · next start stop hscan =>
      obtain rfl := Gap.stop_of_scan_unclosed hscan
      exact h.past (List.append_nil _).symm
  · next m hscan =>
      obtain ⟨gap, hrest, -, -, rfl⟩ := Gap.exists_of_scan_clear hscan
      exact h.past hrest
  · next m b rest hscan =>
      obtain ⟨gap, hrest, -, -, rfl⟩ := Gap.exists_of_scan_clear hscan
      split
      · next munch _ =>
          have hcut : r.rest
              = (gap ++ (b :: rest).take munch.length) ++ (b :: rest).drop munch.length := by
            rw [List.append_assoc, List.take_append_drop, hrest]
          have hplace := h.past hcut
          rwa [Mark.past_append] at hplace
      · exact h.past hrest

/-- However many tokens are read, the reader is in place. -/
theorem InPlace.delivers (h : r.InPlace) (hdeliv : r.Delivers ts r') : r'.InPlace := by
  induction hdeliv with
  | nil => exact h
  | @cons r₁ r₂ _ _ _ hnext _ ih =>
      have hstep := h.next
      rw [hnext] at hstep
      exact ih hstep

theorem InPlace.offset_le (h : r.InPlace) : r.mark.offset ≤ r.source.length := by
  obtain ⟨passed, hsource, hmark⟩ := h
  rw [hsource, hmark, Mark.offset_past, List.length_append]
  show 0 + passed.length ≤ passed.length + r.rest.length
  omega

theorem line_le_of_next (h : r.next = (.ok t, r')) :
    (r.mark.line : Int) ≤ t.line ∧ r.mark.line ≤ r'.mark.line := by
  rcases next_ok_cases h with ⟨m, hscan, rfl, rfl⟩ | ⟨m, text, munch, hscan, -, rfl, rfl⟩
  · obtain ⟨gap, -, -, -, rfl⟩ := Gap.exists_of_scan_clear hscan
    simp only [tokenAt, Mark.line_past]
    omega
  · obtain ⟨gap, -, -, -, rfl⟩ := Gap.exists_of_scan_clear hscan
    simp only [tokenAt, Mark.line_past]
    omega

/-- No token is on a line before the one where the reader stood. -/
theorem Delivers.line_le (h : r.Delivers ts r') : ∀ t ∈ ts, (r.mark.line : Int) ≤ t.line := by
  induction h with
  | nil => simp
  | cons hnext _ ih =>
      obtain ⟨hfirst, hstep⟩ := line_le_of_next hnext
      refine List.forall_mem_cons.mpr ⟨hfirst, fun u hu => ?_⟩
      exact Int.le_trans (Int.ofNat_le.mpr hstep) (ih u hu)

end Reader

/-! ## One text, two places -/

namespace Gap

variable (T : Mark → Mark → Prop)

/-- Gaps over the same text, with marks that correspond. -/
inductive Like : Gap → Gap → Prop
  | clear {m m' : Mark} {rest : Bytes} : T m m' → Like (.clear m rest) (.clear m' rest)
  | unclosed {start start' stop stop' : Mark} : T start start' → Like (.unclosed start stop) (.unclosed start' stop')

inductive State.Like : State → State → Prop
  | between : Like .between .between
  | slash {start start' : Mark} : T start start' → Like (.slash start) (.slash start')
  | line : Like .line .line
  | block {start start' : Mark} {star : Bool} :
      T start start' → Like (.block start star) (.block start' star)

variable {T} {m m' : Mark} {s s' : State}

/-- Scanning a gap depends on its bytes.  Where the marks stand is carried along and decides nothing.
-/
theorem scan_like (hstep : ∀ {m m'} b, T m m' → T (m.step b) (m'.step b)) (hs : s.Like T s')
    (hm : T m m') (text : Bytes) : Like T (scan s m text) (scan s' m' text) := by
  induction text generalizing s s' m m' with
  | nil =>
      cases hs with
      | between => exact .clear hm
      | slash hstart => exact .clear hstart
      | line => exact .clear hm
      | block hstart => exact .unclosed hstart
  | cons b text ih =>
      have hb := hstep b hm
      cases hs with
      | between =>
          unfold scan
          split
          · exact ih .between hb
          · split
            · exact ih (.slash hm) hb
            · exact .clear hm
      | slash hstart =>
          unfold scan
          split
          · exact ih .line hb
          · split
            · exact ih (.block hstart) hb
            · exact .clear hstart
      | line =>
          unfold scan
          split
          · exact ih .between hb
          · exact ih .line hb
      | block hstart =>
          unfold scan
          split
          · exact ih .between hb
          · exact ih (.block hstart) hb

end Gap

theorem Mark.past_like {T : Mark → Mark → Prop} (hstep : ∀ {m m'} b, T m m' → T (m.step b) (m'.step b))
    {m m' : Mark} (hm : T m m') (text : Bytes) : T (m.past text) (m'.past text) := by
  induction text generalizing m m' with
  | nil => exact hm
  | cons b text ih => exact ih (hstep b hm)

open Reader in
/-- Readers of two sources that have the same text before them, but for a gap.  The marks are related
by `T`, which every byte keeps, and so are the tokens and the errors that stand at such marks. -/
def Likeness.Mirror.ofMarks (L : Likeness) (T : Mark → Mark → Prop)
    (errors : SyntaxError → SyntaxError → Prop) (source source' : Bytes) (file : String)
    (hstep : ∀ {m m'} b, T m m' → T (m.step b) (m'.step b))
    (htoken : ∀ {m m'} l, T m m' →
      L.tokens ((new source file).tokenAt m l) ((new source' file).tokenAt m' l))
    (hunclosed : ∀ {m m'}, T m m' → errors
      (.unclosedComment m.offset ((new source file).locationAt m) ((new source file).lineAt m))
      (.unclosedComment m'.offset ((new source' file).locationAt m') ((new source' file).lineAt m')))
    (hinvalid : ∀ {m m'} (b : UInt8), T m m' → errors
      (.invalidByte b.toNat m.offset ((new source file).locationAt m)
        ((new source file).lineAt m) none none)
      (.invalidByte b.toNat m'.offset ((new source' file).locationAt m')
        ((new source' file).lineAt m') none none)) : L.Mirror where
  readers r r' := (r.source = source ∧ r.file = file) ∧ (r'.source = source' ∧ r'.file = file) ∧
    Gap.Like T (Gap.scan .between r.mark r.rest) (Gap.scan .between r'.mark r'.rest)
  errors := errors
  next := by
    rintro ⟨_, _, mark, rest⟩ ⟨_, _, mark', rest'⟩ ⟨⟨rfl, rfl⟩, ⟨rfl, rfl⟩, hscan⟩
    have hlike : ∀ {m m'}, T m m' → ∀ text,
        Gap.Like T (Gap.scan .between m text) (Gap.scan .between m' text) :=
      fun hm => Gap.scan_like hstep .between hm
    unfold Reader.next
    generalize Gap.scan .between mark rest = gap at hscan ⊢
    generalize Gap.scan .between mark' rest' = gap' at hscan ⊢
    cases hscan with
    | unclosed hstart => exact .error (hunclosed hstart)
    | @clear m m' text hm =>
        cases text with
        | nil => exact .ok (htoken _ hm) ⟨⟨rfl, rfl⟩, ⟨rfl, rfl⟩, hlike hm []⟩
        | cons b text =>
            cases hmunch : Munch.first? (b :: text) with
            | none =>
                simp only [hmunch]
                exact .error (hinvalid b hm)
            | some munch =>
                simp only [hmunch]
                exact .ok (htoken _ hm)
                  ⟨⟨rfl, rfl⟩, ⟨rfl, rfl⟩, hlike (Mark.past_like hstep hm _) _⟩

/-! ## One text in place of another -/

/-- Behind a lexeme `v'` can stand instead of `v`: it begins with a blank, and if a line ends at `v`, it
ends at `v'`. -/
structure Resumes (v v' : Bytes) : Prop where
  blank : ∃ b rest, v' = b :: rest ∧ Byte.isBlank b = true
  line : EndsLine v → EndsLine v'

theorem EndsLine.append {x v v' : Bytes} (h : EndsLine (x ++ v)) (hv : EndsLine v → EndsLine v') :
    EndsLine (x ++ v') := by
  cases x with
  | nil => exact hv h
  | cons b x => exact h

/-- A gap stays a gap if the text behind it is replaced, as long as a line comment still ends there.
-/
theorem IsGap.resume {gap after after' : Bytes} (h : IsGap gap after)
    (hline : EndsLine after → EndsLine after') : IsGap gap after' := by
  induction h with
  | nil => exact .nil
  | blank hb _ ih => exact .blank hb (ih hline)
  | line hcomment _ ih =>
      cases hcomment with
      | mk hbody hends => exact .line (.mk hbody (hends.append hline)) (ih hline)
  | block hcomment _ ih => exact .block hcomment (ih hline)

namespace Resumes

variable {u v v' w x l : Bytes}

/-- A piece without blanks that is read off the front ends before the blank. -/
theorem isPrefix (h : Resumes v v') (hl : l.any Byte.isBlank = false) (hpre : l <+: u ++ v') :
    l <+: u ++ v := by
  rcases Nat.le_total l.length u.length with hlen | hlen
  · have hu := List.prefix_of_prefix_length_le hpre (List.prefix_append u v') hlen
    exact hu.trans (List.prefix_append u v)
  · obtain ⟨m, rfl⟩ := List.prefix_of_prefix_length_le (List.prefix_append u v') hpre hlen
    rw [List.prefix_append_right_inj] at hpre
    cases m with
    | nil => exact ⟨v, by simp⟩
    | cons c m =>
        obtain ⟨b, rest, rfl, hb⟩ := h.blank
        obtain ⟨rfl, -⟩ := List.cons_prefix_cons.mp hpre
        simp [hb] at hl

theorem endsGap (h : Resumes v v') (hw : w ≠ []) (hends : EndsGap (w ++ v)) :
    EndsGap (w ++ v') where
  blank := by
    cases w with
    | nil => exact absurd rfl hw
    | cons b w => exact hends.blank
  line hpre := hends.line (h.isPrefix rfl hpre)
  block hpre := hends.block (h.isPrefix rfl hpre)

theorem isRun {among : UInt8 → Bool} (h : Resumes v v')
    (hamong : ∀ b, Byte.isBlank b = true → among b = false) (hrun : IsRun among w (x ++ v)) :
    IsRun among w (x ++ v') where
  all := hrun.all
  longest := by
    cases x with
    | nil =>
        obtain ⟨b, rest, rfl, hb⟩ := h.blank
        simpa using hamong b hb
    | cons b x => exact hrun.longest

theorem isLexeme {lexeme : Lexeme} (h : Resumes v v') (hlexeme : IsLexeme lexeme w (x ++ v)) :
    IsLexeme lexeme w (x ++ v') := by
  have hword : ∀ b, Byte.isBlank b = true → Byte.isWordByte b = false :=
    fun b hb => (Byte.not_word_of_isBlank hb).1
  have hdigit : ∀ b, Byte.isBlank b = true → Byte.isDigit b = false :=
    fun b hb => (Byte.not_word_of_isBlank hb).2
  cases hlexeme with
  | preprocessor returns hhead hline hlast hends =>
      exact .preprocessor returns hhead hline hlast (hends.append h.line)
  | keyword hrun => exact .keyword (h.isRun hword hrun)
  | identifier hhead hrun hnone => exact .identifier hhead (h.isRun hword hrun) hnone
  | number hne hrun => exact .number hne (h.isRun hdigit hrun)
  | @operator o _ hlongest =>
      refine .operator fun o' hpre => hlongest o' ?_
      have hsign : (utf8 o'.spelling).any Byte.isBlank = false := by
        cases o' <;> rfl
      rw [← List.append_assoc] at hpre ⊢
      exact h.isPrefix hsign hpre
  | bracket => exact .bracket
  | comma => exact .comma
  | semicolon => exact .semicolon

end Resumes

namespace Reader

variable {r r₁ : Reader} {t : Token} {ts : List Token} {v v' x : Bytes}

/-- A token that was read before `v` is read just the same with `v'` in its place. -/
theorem next_resume (h : Resumes v v') (source : Bytes) (hnext : r.next = (.ok t, r₁))
    (hlive : t.atEnd = false) (hr₁ : r₁.rest = x ++ v) :
    ∃ u, r.rest = u ++ v ∧ ({ r with source, rest := u ++ v' } : Reader).next
      = (.ok t, { r₁ with source, rest := x ++ v' }) := by
  obtain ⟨gap, text, after, l, hrest, hgap, hends, hlexeme, rfl, rfl⟩ := next_live_cases hnext hlive
  obtain rfl : after = x ++ v := hr₁
  have hne := hlexeme.ne_nil
  have hgap' : IsGap gap (text ++ (x ++ v')) := by
    refine hgap.resume fun hline => ?_
    cases text with
    | nil => exact absurd rfl hne
    | cons b text => exact hline
  have hends' : EndsGap (text ++ (x ++ v')) := by
    rw [← List.append_assoc] at hends ⊢
    exact h.endsGap (by simp [hne]) hends
  refine ⟨gap ++ (text ++ x), by simp [hrest], ?_⟩
  exact next_of_isLexeme hgap' hends' (h.isLexeme hlexeme) (by simp)

/-- What was delivered is delivered again if the text behind it is another one. -/
theorem Delivers.resume (h : Resumes v v') (source : Bytes) (hdeliv : r.Delivers ts r₁)
    (hlive : ∀ t ∈ ts, t.atEnd = false) (hr₁ : r₁.rest = x ++ v) :
    ∃ u, r.rest = u ++ v ∧ ({ r with source, rest := u ++ v' } : Reader).Delivers ts
      { r₁ with source, rest := x ++ v' } := by
  induction hdeliv with
  | nil => exact ⟨x, hr₁, .nil _⟩
  | cons hnext _ ih =>
      rw [List.forall_mem_cons] at hlive
      obtain ⟨u, hu, hlater⟩ := ih hlive.2 hr₁
      obtain ⟨u', hu', hfirst⟩ := next_resume h source hnext hlive.1 hu
      exact ⟨u', hu', .cons hfirst hlater⟩

end Reader

end MiniC
