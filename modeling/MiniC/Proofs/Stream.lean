/-
# MiniC.Proofs.Stream — the token stream of a source.

The stream is everything the reader delivers up to the end mark, or up to the first error.  Its tokens
start ever further to the right, so each stands in it once.  A delivery that asks for nothing behind
the end mark is an opening part of the stream; behind the end mark there are only end marks.
-/
import MiniC.Proofs.Spelling

namespace MiniC

/-! ## Places move forward -/

namespace Gap

/-- Where the text behind a gap starts, or the comment that is never closed. -/
def front : Gap → Mark
  | .clear mark _ => mark
  | .unclosed start _ => start

/-- From where on that may be. -/
def State.floor : State → Mark → Nat
  | .slash start, _ | .block start _, _ => start.offset
  | _, m => m.offset

theorem offset_step (m : Mark) (b : UInt8) : (m.step b).offset = m.offset + 1 := by
  unfold Mark.step
  split <;> rfl

theorem floor_le_front {s : State} {m : Mark} {text : Bytes} (hfloor : s.floor m ≤ m.offset) :
    s.floor m ≤ (scan s m text).front.offset := by
  fun_induction scan s m text with
  | case1 | case4 | case5 | case8 | case9 | case12 => exact Nat.le_refl _
  | case2 _ _ _ _ ih | case3 _ _ _ ih | case6 _ _ _ ih | case7 _ _ _ _ ih
  | case10 _ _ ih | case11 _ _ _ _ ih | case13 _ _ _ _ _ _ ih | case14 _ _ _ _ _ _ ih =>
      simp only [State.floor, offset_step] at ih hfloor ⊢
      omega

theorem offset_le_front (m : Mark) (text : Bytes) :
    m.offset ≤ (scan .between m text).front.offset :=
  floor_le_front (s := .between) (Nat.le_refl _)

end Gap

theorem Mark.offset_past (m : Mark) (text : Bytes) : (m.past text).offset = m.offset + text.length := by
  induction text generalizing m with
  | nil => rfl
  | cons b text ih =>
      have hstep : m.past (b :: text) = (m.step b).past text := rfl
      rw [hstep, ih, Gap.offset_step, List.length_cons]
      omega

namespace Reader

variable {r r' : Reader} {t : Token} {ts us : List Token}

/-- A token starts where the reader stands or later, and before where the reader stands then. -/
theorem offset_of_next (h : r.next = (.ok t, r')) :
    (r.mark.offset : Int) ≤ t.offset ∧ (t.atEnd = false → t.offset < r'.mark.offset) := by
  rcases next_ok_cases h with ⟨m, hscan, rfl, rfl⟩ | ⟨m, text, munch, hscan, hmunch, rfl, rfl⟩
  · have hfloor := Gap.offset_le_front r.mark r.rest
    rw [hscan] at hfloor
    exact ⟨Int.ofNat_le.mpr hfloor, nofun⟩
  · have hfloor := Gap.offset_le_front r.mark r.rest
    rw [hscan] at hfloor
    have hpos := Munch.first?_length_pos hmunch
    have htext : text ≠ [] := by
      rintro rfl
      cases hmunch
    have htake : 0 < (text.take munch.length).length := by
      rw [List.length_take]
      have := List.length_pos_iff.mpr htext
      omega
    refine ⟨Int.ofNat_le.mpr hfloor, fun _ => Int.ofNat_lt.mpr ?_⟩
    simp only [Mark.offset_past]
    omega

theorem Delivers.offsets (h : r.Delivers ts r') (hlive : ∀ t ∈ ts.dropLast, t.atEnd = false) :
    ts.Pairwise (·.offset < ·.offset) ∧ ∀ t ∈ ts, (r.mark.offset : Int) ≤ t.offset := by
  induction h with
  | nil => simp
  | @cons r r₁ r₂ t ts hnext hrest ih =>
      obtain ⟨hfrom, hto⟩ := offset_of_next hnext
      cases ts with
      | nil => simpa using hfrom
      | cons s ts =>
          rw [List.dropLast_cons_cons, List.forall_mem_cons] at hlive
          obtain ⟨hpairs, hlater⟩ := ih hlive.2
          have hfar : ∀ u ∈ s :: ts, t.offset < u.offset :=
            fun u hu => Int.lt_of_lt_of_le (hto hlive.1) (hlater u hu)
          refine ⟨List.pairwise_cons.mpr ⟨hfar, hpairs⟩, List.forall_mem_cons.mpr ⟨hfrom, ?_⟩⟩
          intro u hu
          exact Int.le_of_lt (Int.lt_of_le_of_lt hfrom (hfar u hu))

/-! ## The end mark, again and again -/

theorem Delivers.lexeme_of_atEnd (h : r.Delivers ts r') :
    ∀ t ∈ ts, t.atEnd = true → t.lexeme = .endOfStream none := by
  induction h with
  | nil => simp
  | cons hnext _ ih => exact List.forall_mem_cons.mpr ⟨fun hend => (of_next_atEnd hnext hend).1, ih⟩

theorem Delivers.rest_eq_nil (h : r.Delivers (ts ++ [t]) r') (hend : t.atEnd = true) :
    r'.rest = [] := by
  obtain ⟨r₁, -, hlast⟩ := h.split
  cases hlast with
  | cons hnext hdone =>
      cases hdone
      exact (of_next_atEnd hnext hend).2

/-- A delivery that leaves the reader where it was is one of end marks. -/
theorem Delivers.atEnd_of_still (h : r.Delivers ts r) : ∀ t ∈ ts, t.atEnd = true := by
  have hcost : (ts.map cost).sum = 0 := by
    have := h.rest_length_le
    omega
  clear h
  induction ts with
  | nil => simp
  | cons t ts ih =>
      rw [List.map_cons, List.sum_cons, Nat.add_eq_zero_iff] at hcost
      refine List.forall_mem_cons.mpr ⟨?_, ih hcost.2⟩
      cases hend : t.atEnd with
      | true => rfl
      | false => simp [cost, hend] at hcost

theorem next_again (h : r.next = (.ok t, r')) (hend : t.atEnd = true) : r'.next = (.ok t, r') := by
  rcases next_ok_cases h with ⟨m, -, rfl, rfl⟩ | ⟨m, text, munch, -, hmunch, rfl, -⟩
  · exact next_of_rest_nil rfl
  · have hlive := Token.live_of_isLegal (t := r.tokenAt m munch.lexeme) (Munch.isLegal_first? hmunch)
    simp [hlive] at hend

theorem Delivers.of_still (h : r.Delivers ts r') (hstill : r.next = (.ok t, r)) :
    r' = r ∧ ∀ u ∈ ts, u = t := by
  induction h with
  | nil => simp
  | cons hnext _ ih =>
      rw [hstill] at hnext
      cases hnext
      obtain ⟨hstays, hmarks⟩ := ih hstill
      exact ⟨hstays, List.forall_mem_cons.mpr ⟨rfl, hmarks⟩⟩

/-- An end mark that was delivered is delivered from then on. -/
theorem Delivers.next_of_mem (h : r.Delivers ts r') (hmem : t ∈ ts) (hend : t.atEnd = true) :
    r'.next = (.ok t, r') := by
  induction h with
  | nil => cases hmem
  | cons hnext hrest ih =>
      rcases List.mem_cons.mp hmem with rfl | hmem
      · have hagain := next_again hnext hend
        obtain ⟨rfl, -⟩ := hrest.of_still hagain
        exact hagain
      · exact ih hmem

/-- At the end of the text there are as many end marks as are asked for. -/
theorem exists_delivers_marks (h : r.rest = []) (n : Nat) :
    ∃ ts, r.Delivers ts r ∧ ts.map Token.lexeme = List.replicate n (.endOfStream none) := by
  induction n with
  | zero => exact ⟨[], .nil r, rfl⟩
  | succ n ih =>
      obtain ⟨ts, hts, heq⟩ := ih
      exact ⟨_, .cons (next_of_rest_nil h) hts, by rw [List.map_cons, heq]; rfl⟩

/-! ## Streams -/

/-- The tokens up to the end mark or the first error. -/
def stream (r : Reader) : List Token := r.drain.tokens

theorem delivers_stream (r : Reader) :
    (∃ r', r.Delivers r.stream r') ∧ ∀ t ∈ r.stream.dropLast, t.atEnd = false := by
  rcases r.drainOnto_spec [] with ⟨ts, mark, hholds, -, htokens⟩ | ⟨ts, e, hfails, -, htokens⟩
  · have hstream : r.stream = ts ++ [mark] := htokens
    rw [hstream, List.dropLast_concat]
    exact ⟨hholds.delivers, hholds.live⟩
  · have hstream : r.stream = ts := htokens
    rw [hstream]
    obtain ⟨r₁, r₂, hdeliv, -⟩ := hfails.delivers
    exact ⟨⟨r₁, hdeliv⟩, fun t ht => hfails.live t (List.dropLast_subset _ ht)⟩

theorem Holds.stream_eq {mark : Token} (h : r.Holds ts mark) : r.stream = ts ++ [mark] := by
  rcases r.drainOnto_spec [] with ⟨ts', mark', hholds, -, htokens⟩ | ⟨ts', e, hfails, -, -⟩
  · obtain ⟨rfl, rfl⟩ := h.unique hholds
    exact htokens
  · exact absurd hfails h.not_fails

theorem Fails.unique {e e' : SyntaxError} (h : r.Fails ts e) (h' : r.Fails us e') :
    us = ts ∧ e' = e := by
  obtain ⟨r₁, r₂, hts, herror⟩ := h.delivers
  obtain ⟨r₃, r₄, hus, herror'⟩ := h'.delivers
  rcases Nat.le_total ts.length us.length with hle | hle
  · obtain ⟨vs, rfl, hvs⟩ := hts.extend hus hle
    cases hvs with
    | nil =>
        rw [herror] at herror'
        cases herror'
        exact ⟨by simp, rfl⟩
    | cons hok _ => simp [herror] at hok
  · obtain ⟨vs, rfl, hvs⟩ := hus.extend hts hle
    cases hvs with
    | nil =>
        rw [herror'] at herror
        cases herror
        exact ⟨by simp, rfl⟩
    | cons hok _ => simp [herror'] at hok

theorem Fails.stream_eq {e : SyntaxError} (h : r.Fails ts e) : r.stream = ts := by
  rcases r.drainOnto_spec [] with ⟨ts', mark, hholds, -, -⟩ | ⟨ts', e', hfails, -, htokens⟩
  · exact absurd h hholds.not_fails
  · obtain ⟨rfl, rfl⟩ := h.unique hfails
    exact htokens

theorem nodup_stream (r : Reader) : r.stream.Nodup := by
  obtain ⟨⟨r', hdeliv⟩, hlive⟩ := r.delivers_stream
  refine (hdeliv.offsets hlive).1.imp ?_
  rintro t u hlt rfl
  exact Int.lt_irrefl _ hlt

/-- What is delivered without asking beyond the end mark opens the stream. -/
theorem Delivers.isPrefix_stream (h : r.Delivers us r')
    (hlive : ∀ t ∈ us.dropLast, t.atEnd = false) : us <+: r.stream := by
  rcases r.drainOnto_spec [] with ⟨ts, mark, hholds, -, htokens⟩ | ⟨ts, e, hfails, -, htokens⟩
  · have hstream : r.stream = ts ++ [mark] := htokens
    rw [hstream]
    obtain ⟨r₁, hts⟩ := hholds.delivers
    rcases Nat.le_total us.length (ts ++ [mark]).length with hle | hle
    · obtain ⟨vs, heq, -⟩ := h.extend hts hle
      exact ⟨vs, heq.symm⟩
    · obtain ⟨vs, rfl, -⟩ := hts.extend h hle
      rcases List.eq_nil_or_concat vs with rfl | ⟨vs, t, rfl⟩
      · simp
      · have hmark := hlive mark (by simp [List.concat_eq_append, ← List.append_assoc])
        simp [hholds.atEnd] at hmark
  · have hstream : r.stream = ts := htokens
    rw [hstream]
    obtain ⟨r₁, r₂, hts, herror⟩ := hfails.delivers
    rcases Nat.le_total us.length ts.length with hle | hle
    · obtain ⟨vs, heq, -⟩ := h.extend hts hle
      exact ⟨vs, heq.symm⟩
    · obtain ⟨vs, rfl, hvs⟩ := hts.extend h hle
      cases hvs with
      | nil => simp
      | cons hok _ => simp [herror] at hok

theorem stream_of_next (h : r.next = (.ok t, r')) (hlive : t.atEnd = false) :
    r.stream = t :: r'.stream := by
  rcases r'.drainOnto_spec [] with ⟨ts, mark, hholds, -, -⟩ | ⟨ts, e, hfails, -, -⟩
  · obtain ⟨r₁, hdeliv⟩ := hholds.delivers
    have hr : r.Holds (t :: ts) mark :=
      ⟨⟨r₁, .cons h hdeliv⟩, List.forall_mem_cons.mpr ⟨hlive, hholds.live⟩, hholds.atEnd⟩
    rw [hr.stream_eq, hholds.stream_eq, List.cons_append]
  · obtain ⟨r₁, r₂, hdeliv, herror⟩ := hfails.delivers
    have hr : r.Fails (t :: ts) e :=
      ⟨⟨r₁, r₂, .cons h hdeliv, herror⟩, List.forall_mem_cons.mpr ⟨hlive, hfails.live⟩⟩
    rw [hr.stream_eq, hfails.stream_eq]

/-- All that a reader ever delivers is in its stream. -/
theorem Delivers.mem_stream (h : r.Delivers us r') : ∀ t ∈ us, t ∈ r.stream := by
  induction h with
  | nil => simp
  | @cons r r' r'' t ts hnext hrest ih =>
      cases hend : t.atEnd with
      | false =>
          rw [stream_of_next hnext hend]
          exact List.forall_mem_cons.mpr
            ⟨List.mem_cons_self, fun u hu => List.mem_cons_of_mem t (ih u hu)⟩
      | true =>
          have hholds : r.Holds [] t := ⟨⟨r', .single hnext⟩, by simp, hend⟩
          have hagain := (hrest.of_still (next_again hnext hend)).2
          rw [hholds.stream_eq, List.nil_append]
          exact List.forall_mem_cons.mpr
            ⟨List.mem_singleton_self t, fun u hu => List.mem_singleton.mpr (hagain u hu)⟩

/-! ## Where a stream breaks off -/

/-- A reader that has given the end mark never fails. -/
theorem Delivers.live_of_next_error {r'' : Reader} {e : SyntaxError} (h : r.Delivers ts r')
    (herror : r'.next = (.error e, r'')) : ∀ t ∈ ts, t.atEnd = false := by
  intro t ht
  refine Bool.eq_false_iff.mpr fun hend => ?_
  rw [h.next_of_mem ht hend] at herror
  cases herror

theorem offset_le_position {e : SyntaxError} (h : r.next = (.error e, r')) :
    (r.mark.offset : Int) ≤ e.position := by
  have hfloor := Gap.offset_le_front r.mark r.rest
  unfold next at h
  split at h
  · next start stop hscan =>
      rw [hscan] at hfloor
      cases h
      exact Int.ofNat_le.mpr hfloor
  · cases h
  · next m b rest hscan =>
      rw [hscan] at hfloor
      split at h
      · cases h
      · cases h
        exact Int.ofNat_le.mpr hfloor

/-- The tokens before an error start before it. -/
theorem Delivers.offset_lt_position {r'' : Reader} {e : SyntaxError} (h : r.Delivers ts r')
    (herror : r'.next = (.error e, r'')) :
    (r.mark.offset : Int) ≤ e.position ∧ ∀ t ∈ ts, t.offset < e.position := by
  have hlive := h.live_of_next_error herror
  induction h with
  | nil => exact ⟨offset_le_position herror, by simp⟩
  | @cons r r' _ t ts hnext _ ih =>
      rw [List.forall_mem_cons] at hlive
      obtain ⟨hfrom, hto⟩ := offset_of_next hnext
      obtain ⟨hafter, hlater⟩ := ih herror hlive.2
      have ht : t.offset < e.position := Int.lt_of_lt_of_le (hto hlive.1) hafter
      exact ⟨Int.le_of_lt (Int.lt_of_le_of_lt hfrom ht), List.forall_mem_cons.mpr ⟨ht, hlater⟩⟩

end Reader

/-- The token stream of a source. -/
def Options.stream (o : Options) (source : Bytes) (name : Option String) : List Token :=
  (Reader.new source (o.fileName name)).stream

end MiniC
