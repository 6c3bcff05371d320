/-
# MiniC.Proofs.Sharing — one reader, any number of consumers.

Tokens are asked for directly or through taps, and taps may be added at any time.  Requests of all
kinds come in any order; still there is one reader behind them, so the answers, in the order in which
they are given, are those that a single consumer would get (`Shared.replies_log`).  Everything else is
read off that: what a reader answers in a row is its tokens and then one answer for ever, unless a
comment is never closed, where the error is told once and the end mark follows.

A tap is dry once its own answers end, which says nothing about the reader.
-/
import Mathlib.Data.List.Induction
import MiniC.Proofs.Cursor

namespace MiniC

/-! ## Answers of every kind in a row -/

namespace SyntaxError

/-- A byte that starts no token. -/
def isInvalidByte : SyntaxError → Bool
  | .invalidByte .. => true
  | _ => false

/-- A comment that is never closed. -/
def isUnclosed : SyntaxError → Bool
  | .unclosedComment .. => true
  | _ => false

end SyntaxError

namespace Reader

/-- Asking `r` once for each answer gives these answers, errors among them, and leaves `r'`. -/
inductive Replies : Reader → List (Except SyntaxError Token) → Reader → Prop
  | nil (r : Reader) : Replies r [] r
  | cons {r r' : Reader} {answers : List (Except SyntaxError Token)} :
      Replies r.next.2 answers r' → Replies r (r.next.1 :: answers) r'

variable {r r' r'' : Reader} {t : Token} {ts : List Token} {e : SyntaxError}
variable {answer : Except SyntaxError Token} {answers : List (Except SyntaxError Token)}

theorem Replies.snoc (h : r.Replies answers r') : r.Replies (answers ++ [r'.next.1]) r'.next.2 := by
  induction h with
  | nil r => exact .cons (.nil _)
  | cons _ ih => exact .cons ih

theorem InPlace.replies (h : r.InPlace) (hreplies : r.Replies answers r') : r'.InPlace := by
  induction hreplies with
  | nil => exact h
  | cons _ ih => exact ih h.next

theorem file_next (r : Reader) : r.next.2.file = r.file := by
  unfold next
  split
  · rfl
  · rfl
  · split <;> rfl

/-- The end mark of a source, behind all its bytes. -/
def endMark (r : Reader) : Token := r.tokenAt (Mark.past {} r.source) (.endOfStream none)

theorem endMark_next (r : Reader) : r.next.2.endMark = r.endMark := by
  unfold endMark tokenAt
  rw [r.source_next, r.file_next]

theorem offset_endMark (r : Reader) : r.endMark.offset = r.source.length := by
  show ((Mark.past {} r.source).offset : Int) = r.source.length
  rw [Mark.offset_past]
  exact congrArg _ (Nat.zero_add _)

theorem Replies.source_eq (h : r.Replies answers r') : r'.source = r.source := by
  induction h with
  | nil => rfl
  | @cons r _ _ _ ih => exact ih.trans r.source_next

theorem Replies.endMark_eq (h : r.Replies answers r') : r'.endMark = r.endMark := by
  induction h with
  | nil => rfl
  | @cons r _ _ _ ih => exact ih.trans r.endMark_next

theorem Delivers.replies (h : r.Delivers ts r') : r.Replies (ts.map .ok) r' := by
  induction h with
  | nil r => exact .nil r
  | @cons r r₁ r₂ t ts hnext _ ih =>
      have hcons : r.Replies (r.next.1 :: ts.map .ok) r₂ := .cons (by rw [hnext]; exact ih)
      rw [hnext] at hcons
      exact hcons

/-- A reader that gives an answer and stays where it is gives it again and again. -/
theorem Replies.of_still (h : r.Replies answers r') (hstill : r.next = (answer, r)) :
    r' = r ∧ answers = List.replicate answers.length answer := by
  induction h with
  | nil => exact ⟨rfl, rfl⟩
  | cons _ ih =>
      rw [hstill] at ih
      obtain ⟨hstays, hall⟩ := ih hstill
      refine ⟨hstays, ?_⟩
      rw [List.length_cons, List.replicate_succ, ← hall, hstill]

/-- Either all answers are tokens, or tokens come first and then an error. -/
theorem Replies.cases (h : r.Replies answers r') :
    (∃ ts, r.Delivers ts r' ∧ answers = ts.map .ok) ∨
    ∃ ts r₁ r₂ e later, r.Delivers ts r₁ ∧ r₁.next = (.error e, r₂) ∧ r₂.Replies later r' ∧
      answers = ts.map .ok ++ .error e :: later := by
  induction h with
  | nil r => exact .inl ⟨[], .nil r, rfl⟩
  | @cons r r' answers hlater ih =>
      rcases hnext : r.next with ⟨_ | t, r₀⟩
      · next e =>
          rw [hnext] at hlater
          exact .inr ⟨[], r, r₀, e, answers, .nil r, hnext, hlater, rfl⟩
      · rw [hnext] at ih
        rcases ih with ⟨ts, hts, rfl⟩ | ⟨ts, r₁, r₂, e, later, hts, herror, hrest, rfl⟩
        · exact .inl ⟨t :: ts, .cons hnext hts, rfl⟩
        · exact .inr ⟨t :: ts, r₁, r₂, e, later, .cons hnext hts, herror, hrest, rfl⟩

/-! ## What follows an end mark or an error -/

theorem InPlace.next_eq_endMark (h : r.InPlace) (hrest : r.rest = []) :
    r.next = (.ok r.endMark, r) := by
  obtain ⟨passed, hsource, hmark⟩ := h
  rw [hrest, List.append_nil] at hsource
  rw [next_of_rest_nil hrest, hmark, ← hsource]
  rfl

theorem InPlace.eq_endMark (h : r.InPlace) (hnext : r.next = (.ok t, r')) (hend : t.atEnd = true) :
    t = r.endMark := by
  have hplace : r'.InPlace := by simpa [hnext] using h.next
  have hsame : r'.endMark = r.endMark := by simpa [hnext] using r.endMark_next
  have hagain := next_again hnext hend
  rw [hplace.next_eq_endMark (of_next_atEnd hnext hend).2] at hagain
  cases hagain
  exact hsame

/-- Before a byte that starts no token the reader stands still; an unclosed comment takes it to the
end. -/
theorem next_error_cases (h : r.next = (.error e, r')) :
    (e.isInvalidByte = true ∧ e.isUnclosed = false ∧ r'.next = (.error e, r') ∧
      (r'.mark.offset : Int) = e.position) ∨
    (e.isInvalidByte = false ∧ e.isUnclosed = true ∧ r'.rest = []) := by
  unfold next at h
  split at h
  · cases h
    exact .inr ⟨rfl, rfl, rfl⟩
  · cases h
  · next m b rest hscan =>
      split at h
      · cases h
      · next hmunch =>
          cases h
          obtain ⟨gap, -, -, hends, -⟩ := Gap.exists_of_scan_clear hscan
          refine .inl ⟨rfl, rfl, ?_, rfl⟩
          unfold next
          simp only [Gap.scan_endsGap hends, hmunch]
          rfl

/-- The tokens that are left, without the end mark. -/
def live (r : Reader) : List Token := r.stream.filter (!·.atEnd)

theorem Holds.live_eq {mark : Token} (h : r.Holds ts mark) : r.live = ts := by
  unfold Reader.live
  rw [h.stream_eq, List.filter_append, List.filter_eq_self.mpr fun t ht => by simp [h.live t ht]]
  simp [h.atEnd]

theorem Fails.live_eq (h : r.Fails ts e) : r.live = ts := by
  unfold Reader.live
  rw [h.stream_eq]
  exact List.filter_eq_self.mpr fun t ht => by simp [h.live t ht]

theorem nodup_live (r : Reader) : r.live.Nodup := r.nodup_stream.filter _

/-- Tokens in a row: some from the front of what is left, or all of them and then end marks. -/
theorem Delivers.cases_live (h : r.Delivers ts r') (hplace : r.InPlace) :
    ts <+: r.live ∨ ∃ n, ts = r.live ++ List.replicate n r.endMark := by
  rcases r.drainOnto_spec [] with ⟨us, mark, hholds, -, -⟩ | ⟨us, e, hfails, -, -⟩
  · rw [hholds.live_eq]
    obtain ⟨r₁, hall⟩ := hholds.delivers
    obtain ⟨r₂, hus, hlast⟩ := hall.split
    rcases Nat.le_total ts.length us.length with hle | hle
    · obtain ⟨vs, heq, -⟩ := h.extend hus hle
      exact .inl ⟨vs, heq.symm⟩
    · obtain ⟨vs, rfl, hvs⟩ := hus.extend h hle
      cases hlast with
      | @cons _ _ _ _ _ hnext _ =>
          obtain rfl := (hplace.delivers hus).eq_endMark hnext hholds.atEnd
          rw [hus.replies.endMark_eq] at hnext
          refine .inr ⟨vs.length, congrArg (us ++ ·) ?_⟩
          cases hvs with
          | nil => rfl
          | cons hfirst hvs =>
              rw [hnext] at hfirst
              cases hfirst
              have hagain := next_again hnext (by rfl)
              exact List.eq_replicate_iff.mpr
                ⟨rfl, List.forall_mem_cons.mpr ⟨rfl, (hvs.of_still hagain).2⟩⟩
  · rw [hfails.live_eq]
    obtain ⟨r₁, r₂, hall, herror⟩ := hfails.delivers
    rcases Nat.le_total ts.length us.length with hle | hle
    · obtain ⟨vs, heq, -⟩ := h.extend hall hle
      exact .inl ⟨vs, heq.symm⟩
    · obtain ⟨vs, rfl, hvs⟩ := hall.extend h hle
      cases hvs with
      | nil => exact .inl (by simp)
      | cons hok _ => simp [herror] at hok

/-- What a reader answers once it has told `e`: the error again before a byte that starts no token,
the end mark behind a comment that is never closed. -/
def answerAfter (r : Reader) (e : SyntaxError) : Except SyntaxError Token :=
  if e.isUnclosed then .ok r.endMark else .error e

/-- A reader that fails has delivered all that is left, and its answer does not change any more. -/
theorem Replies.cases_error (h : r.Replies answers r') (hplace : r.InPlace) :
    (∃ ts, r.Delivers ts r' ∧ answers = ts.map .ok) ∨
    ∃ e n, answers = r.live.map .ok ++ .error e :: List.replicate n (r.answerAfter e) ∧
      r'.next = (r.answerAfter e, r') ∧ e.isInvalidByte = !e.isUnclosed ∧
      (e.isInvalidByte = true → (r'.mark.offset : Int) = e.position) := by
  rcases h.cases with htokens | ⟨ts, r₁, r₂, e, later, hts, herror, hlater, rfl⟩
  · exact .inl htokens
  · have hall : r.live = ts :=
      Fails.live_eq ⟨⟨r₁, r₂, hts, herror⟩, hts.live_of_next_error herror⟩
    subst hall
    have hplace₂ : r₂.InPlace := by simpa [herror] using (hplace.delivers hts).next
    have hmark₂ : r₂.endMark = r.endMark := by
      rw [← hts.replies.endMark_eq]
      simpa [herror] using r₁.endMark_next
    rcases next_error_cases herror with ⟨hbyte, hopen, hstill, hoffset⟩ | ⟨hbyte, hopen, hrest⟩
    · have hafter : r.answerAfter e = .error e := by simp [answerAfter, hopen]
      obtain ⟨rfl, hagain⟩ := hlater.of_still hstill
      refine .inr ⟨e, later.length, ?_⟩
      rw [hafter, ← hagain]
      exact ⟨rfl, hstill, by simp [hbyte, hopen], fun _ => hoffset⟩
    · have hafter : r.answerAfter e = .ok r.endMark := by simp [answerAfter, hopen]
      have hstill := hplace₂.next_eq_endMark hrest
      rw [hmark₂] at hstill
      obtain ⟨rfl, hagain⟩ := hlater.of_still hstill
      refine .inr ⟨e, later.length, ?_⟩
      rw [hafter, ← hagain]
      exact ⟨rfl, hstill, by simp [hbyte, hopen], by simp [hbyte]⟩

/-- The tokens among any number of answers: some from the front of what is left, or all of them and
then copies of the end mark. -/
theorem Replies.tokens (h : r.Replies answers r') (hplace : r.InPlace) :
    ∃ us n, answers.filterMap Except.toOption = us ++ List.replicate n r.endMark ∧
      us <+: r.live ∧ (n ≠ 0 → us = r.live) := by
  have hmap : ∀ ts : List Token,
      (ts.map (Except.ok (ε := SyntaxError))).filterMap Except.toOption = ts := by
    intro ts
    rw [List.filterMap_map]
    exact List.filterMap_some
  rcases h.cases_error hplace with ⟨ts, hts, rfl⟩ | ⟨e, n, rfl, -, -, -⟩
  · rw [hmap]
    rcases hts.cases_live hplace with hpre | ⟨n, rfl⟩
    · exact ⟨ts, 0, by simp, hpre, by simp⟩
    · exact ⟨r.live, n, rfl, List.prefix_rfl, fun _ => rfl⟩
  · rw [List.filterMap_append, hmap]
    unfold answerAfter
    split
    · refine ⟨r.live, n, congrArg (r.live ++ ·) ?_, List.prefix_rfl, fun _ => rfl⟩
      exact (congrArg _ List.map_replicate.symm).trans (hmap (List.replicate n r.endMark))
    · exact ⟨r.live, 0, by simp [Except.toOption], List.prefix_rfl, by simp⟩

/-- Once an error has been told, every further answer is the same one, and the reader stays. -/
theorem Replies.next_of_error (h : r.Replies answers r') (hplace : r.InPlace)
    (hmem : .error e ∈ answers) :
    r'.next = (r.answerAfter e, r') ∧ e.isInvalidByte = !e.isUnclosed ∧
      (e.isInvalidByte = true → (r'.mark.offset : Int) = e.position) := by
  rcases h.cases_error hplace with ⟨ts, -, rfl⟩ | ⟨e₁, n, rfl, hstill, hkind, hoffset⟩
  · simp at hmem
  · -- There is no other error in a row of answers.
    have he : e = e₁ := by
      unfold answerAfter at hmem
      split at hmem
      · simpa using hmem
      · rw [← List.replicate_succ] at hmem
        simpa using hmem
    subst he
    exact ⟨hstill, hkind, hoffset⟩

end Reader

/-! ## Consumers -/

/-- What may be asked of a reader that is shared. -/
inductive Request where
  /-- The next token, directly. -/
  | next
  /-- Another tap. -/
  | addTap
  /-- The next token through a tap. -/
  | pull (tap : Nat)
deriving DecidableEq, Repr

/-- A reader and the taps on it, in the order in which they were added. -/
structure Shared where
  reader : Reader
  taps : List Tap := []
deriving DecidableEq, Repr

namespace Shared

def new (source : Bytes) (file : String) : Shared := { reader := .new source file }

/-- One request: the answer, if it has one, and what is there afterwards. -/
def serve (s : Shared) : Request → Option (Except SyntaxError Token) × Shared
  | .next => (some s.reader.next.1, { s with reader := s.reader.next.2 })
  | .addTap => (none, { s with taps := s.taps ++ [{}] })
  | .pull i =>
    match s.taps[i]? with
    | none => (none, s)
    | some tap =>
      let (answer, after, reader) := tap.pull s.reader
      (answer, { reader, taps := s.taps.set i after })

def after (s : Shared) (requests : List Request) : Shared :=
  requests.foldl (fun s q => (s.serve q).2) s

/-- Requests with their answers. -/
def log (s : Shared) : List Request → List (Request × Option (Except SyntaxError Token))
  | [] => []
  | q :: requests => (q, (s.serve q).1) :: (s.serve q).2.log requests

/-- The answers alone, in the order in which they are given. -/
def answers (s : Shared) (requests : List Request) : List (Except SyntaxError Token) :=
  (s.log requests).filterMap (·.2)

/-- A request that is passed on to the reader: direct, or through a tap that is not dry. -/
inductive Asks (s : Shared) : Request → Prop
  | next : Asks s .next
  | pull {i : Nat} : s.taps[i]? = some { dry := false } → Asks s (.pull i)

/-- The last answer that a tap passes on: an error or the end mark. -/
def isLast : Except SyntaxError Token → Bool
  | .error _ => true
  | .ok t => t.atEnd

variable {s : Shared} {q : Request} {i : Nat}

theorem serve_pull (h : s.taps[i]? = some { dry := false }) :
    s.serve (.pull i) = (some s.reader.next.1,
      { reader := s.reader.next.2, taps := s.taps.set i { dry := isLast s.reader.next.1 } }) := by
  simp only [serve, h, Tap.pull, Bool.false_eq_true, if_false]
  rcases s.reader.next with ⟨_ | t, r⟩ <;> rfl

/-- Pulling a dry tap changes nothing. -/
theorem serve_pull_dry (h : s.taps[i]? = some { dry := true }) : s.serve (.pull i) = (none, s) := by
  simp only [serve, h, Tap.pull, if_true]
  obtain ⟨hlt, hget⟩ := List.getElem?_eq_some_iff.mp h
  rw [← hget, List.set_getElem_self]

theorem serve_of_asks (h : s.Asks q) :
    (s.serve q).1 = some s.reader.next.1 ∧ (s.serve q).2.reader = s.reader.next.2 := by
  cases h with
  | next => exact ⟨rfl, rfl⟩
  | pull hi => rw [serve_pull hi]; exact ⟨rfl, rfl⟩

/-- A request that does not reach the reader has no answer and leaves the reader alone. -/
theorem serve_of_not_asks (h : ¬ s.Asks q) : (s.serve q).1 = none ∧ (s.serve q).2.reader = s.reader := by
  cases q with
  | next => exact absurd .next h
  | addTap => exact ⟨rfl, rfl⟩
  | pull i =>
      rcases hi : s.taps[i]? with _ | ⟨_ | _⟩
      · simp only [serve, hi, and_self]
      · exact absurd (.pull hi) h
      · rw [serve_pull_dry hi]
        exact ⟨rfl, rfl⟩

/-! ## Requests in a row -/

theorem after_concat (s : Shared) (requests : List Request) (q : Request) :
    s.after (requests ++ [q]) = ((s.after requests).serve q).2 := by
  simp only [after, List.foldl_append, List.foldl_cons, List.foldl_nil]

theorem log_concat (s : Shared) (requests : List Request) (q : Request) :
    s.log (requests ++ [q]) = s.log requests ++ [(q, ((s.after requests).serve q).1)] := by
  induction requests generalizing s with
  | nil => rfl
  | cons q' requests ih => exact congrArg (_ :: ·) (ih (s.serve q').2)

theorem answers_concat (s : Shared) (requests : List Request) (q : Request) :
    s.answers (requests ++ [q])
      = s.answers requests ++ ((s.after requests).serve q).1.toList := by
  unfold answers
  rw [log_concat, List.filterMap_append]
  rcases ((s.after requests).serve q).1 with _ | answer <;> rfl

/-- Whoever asks, the answers are those that the reader gives to one who asks alone. -/
theorem replies_log (s : Shared) (requests : List Request) :
    s.reader.Replies (s.answers requests) (s.after requests).reader := by
  induction requests using List.reverseRecOn with
  | nil => exact .nil _
  | append_singleton requests q ih =>
      rw [answers_concat, after_concat]
      by_cases hasks : (s.after requests).Asks q
      · obtain ⟨hanswer, hreader⟩ := serve_of_asks hasks
        rw [hanswer, hreader]
        exact ih.snoc
      · obtain ⟨hanswer, hreader⟩ := serve_of_not_asks hasks
        rw [hanswer, hreader, Option.toList_none, List.append_nil]
        exact ih

/-! ## Taps -/

theorem length_taps_after (s : Shared) (requests : List Request) :
    (s.after requests).taps.length = s.taps.length + requests.count .addTap := by
  induction requests using List.reverseRecOn with
  | nil => rfl
  | append_singleton requests q ih =>
      rw [after_concat, List.count_append, ← Nat.add_assoc, ← ih]
      generalize s.after requests = s₁
      cases q with
      | next => rfl
      | addTap => exact List.length_append
      | pull i =>
          rcases hi : s₁.taps[i]? with _ | ⟨_ | _⟩
          · simp [serve, hi]
          · simp [serve_pull hi]
          · simp [serve_pull_dry hi]

/-- A request leaves a tap dry that was dry, or that is pulled and given its last answer. -/
theorem dry_serve_iff (s : Shared) (q : Request) (i : Nat) :
    (s.serve q).2.taps[i]? = some { dry := true } ↔
      s.taps[i]? = some { dry := true } ∨
        ∃ answer, (q, (s.serve q).1) = (.pull i, some answer) ∧ isLast answer = true := by
  cases q with
  | next => simp [serve]
  | addTap =>
      simp only [serve, Prod.mk.injEq, reduceCtorEq, false_and, exists_false, or_false]
      rcases Nat.lt_trichotomy i s.taps.length with hlt | rfl | hgt
      · rw [List.getElem?_append_left hlt]
      · simp
      · rw [List.getElem?_eq_none (by simp; omega), List.getElem?_eq_none (by omega)]
  | pull j =>
      rcases hj : s.taps[j]? with _ | ⟨_ | _⟩
      · simp [serve, hj]
      · have hlt := (List.getElem?_eq_some_iff.mp hj).1
        rw [serve_pull hj]
        by_cases hij : j = i
        · subst hij
          rw [List.getElem?_set_self hlt, hj]
          simp
        · simp [List.getElem?_set_ne hij, hij]
      · simp [serve_pull_dry hj]

/-- The taps that are dry are those that have passed on an error or the end mark. -/
theorem dry_after_iff {s : Shared} (hs : s.taps = []) (requests : List Request) (i : Nat) :
    (s.after requests).taps[i]? = some { dry := true } ↔
      ∃ answer, (Request.pull i, some answer) ∈ s.log requests ∧ isLast answer = true := by
  induction requests using List.reverseRecOn with
  | nil => simp [after, log, hs]
  | append_singleton requests q ih =>
      rw [after_concat, log_concat, dry_serve_iff, ih]
      simp only [List.mem_append, List.mem_singleton, or_and_right, exists_or]
      exact or_congr_right (exists_congr fun answer => and_congr_left fun _ => eq_comm)

/-! ## One stream for all -/

/-- Any number of consumers, in any order, share one stream.  The answers are those that one reader
gives to one consumer.  The tokens among them open the stream, each token once, and behind the last
one there are copies of a single end mark at the end of the source.  An invalid byte is told to
everyone who asks later, with the reader before that byte; an unclosed comment is told once, and
everyone who asks later gets the end mark.  A tap runs dry when it passes on an error or the end mark,
and not before; from then on, pulling it changes nothing. -/
theorem interleaved_requests_share_one_stream (source : Bytes) (file : String)
    (requests : List Request) :
    let start := new source file
    let s := start.after requests
    let answers := start.answers requests
    let mark := start.reader.endMark
    start.reader.Replies answers s.reader ∧
    (mark.atEnd = true ∧ mark.offset = source.length) ∧
    (∃ us n, answers.filterMap Except.toOption = us ++ List.replicate n mark ∧
      us <+: start.reader.live ∧ us.Nodup ∧ (n ≠ 0 → us = start.reader.live)) ∧
    (∀ e, .error e ∈ answers →
      (e.isInvalidByte = true ∨ e.isUnclosed = true) ∧
      (e.isInvalidByte = true → (s.reader.mark.offset : Int) = e.position ∧
        ∀ q, s.Asks q → (s.serve q).1 = some (.error e) ∧ (s.serve q).2.reader = s.reader) ∧
      (e.isUnclosed = true →
        ∀ q, s.Asks q → (s.serve q).1 = some (.ok mark) ∧ (s.serve q).2.reader = s.reader)) ∧
    s.taps.length = requests.count .addTap ∧
    (∀ i, s.taps[i]? = some { dry := true } ↔
      ∃ answer, (.pull i, some answer) ∈ start.log requests ∧ isLast answer = true) ∧
    (∀ i, s.taps[i]? = some { dry := true } → s.serve (.pull i) = (none, s)) ∧
    ∀ q, (s.serve q).1.isSome = true ↔ s.Asks q := by
  intro start s answers mark
  have hreplies : start.reader.Replies answers s.reader := start.replies_log requests
  have hplace : start.reader.InPlace := Reader.inPlace_new source file
  refine ⟨hreplies, ⟨rfl, start.reader.offset_endMark⟩, ?_, ?_, ?_, dry_after_iff rfl requests,
    fun i => serve_pull_dry, ?_⟩
  · obtain ⟨us, n, heq, hpre, hall⟩ := hreplies.tokens hplace
    exact ⟨us, n, heq, hpre, start.reader.nodup_live.sublist hpre.sublist, hall⟩
  · intro e he
    obtain ⟨hstill, hkind, hoffset⟩ := hreplies.next_of_error hplace he
    have hserve : ∀ q, s.Asks q → (s.serve q).1 = some (start.reader.answerAfter e) ∧
        (s.serve q).2.reader = s.reader := by
      intro q hq
      simpa [hstill] using serve_of_asks hq
    unfold Reader.answerAfter at hserve
    refine ⟨by cases hopen : e.isUnclosed <;> simp [hkind, hopen], fun hbyte => ⟨hoffset hbyte, ?_⟩, ?_⟩
    · have hopen : e.isUnclosed = false := by simpa [hbyte] using hkind
      simpa [hopen] using hserve
    · intro hopen
      simpa [hopen] using hserve
  · rw [length_taps_after]
    exact Nat.zero_add _
  · intro q
    by_cases hq : s.Asks q
    · simp [(serve_of_asks hq).1, hq]
    · simp [(serve_of_not_asks hq).1, hq]

/-- A tap passes on a byte that starts no token and runs dry; a direct request is told the same. -/
theorem invalid_byte_is_told_again :
    let start := new (utf8 "a @") "<input>"
    let s := start.after [.addTap, .next, .pull 0]
    let e : SyntaxError := .invalidByte 64 2 (some { file := "<input>", line := 1, column := 3 })
      (some (utf8 "a @")) none none
    .error e ∈ start.answers [.addTap, .next, .pull 0] ∧
      (s.serve .next).1 = some (.error e) ∧ (s.serve .next).2.reader = s.reader ∧
      s.serve (.pull 0) = (none, s) := by
  intro start s e
  obtain ⟨-, -, -, herrors, -, -, hdry, -⟩ :=
    interleaved_requests_share_one_stream (utf8 "a @") "<input>" [.addTap, .next, .pull 0]
  have he : .error e ∈ start.answers [.addTap, .next, .pull 0] := by decide +kernel
  obtain ⟨-, hbyte, -⟩ := herrors e he
  obtain ⟨hagain, hstays⟩ := (hbyte rfl).2 .next .next
  exact ⟨he, hagain, hstays, hdry 0 (by decide +kernel)⟩

end Shared

end MiniC
