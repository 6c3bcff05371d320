/-
# MiniC.Proofs.Places — lines and columns follow from offsets.

A reader keeps four numbers and brings them up to date byte by byte.  Three of them are determined by
the fourth: the line is one more than the line feeds before the offset, the line starts behind the last
of these, and columns count from there.  That is true of a reader after any requests, failed ones too,
since its mark is what passing the bytes before it makes of the first mark (`Reader.InPlace`).

What is reported stands at such a mark, so a token or an error has the line and column that belong to
its own offset, however far the reader has gone since.
-/
import MiniC.Proofs.Laziness
import MiniC.Proofs.Sharing

namespace MiniC

/-! ## Line and column of an offset -/

namespace Bytes

/-- One more than the number of line feeds before `offset`. -/
def lineOf (source : Bytes) (offset : Nat) : Nat := 1 + (source.take offset).count Byte.lineFeed

/-- One past the last line feed before `offset`, or zero if there is none. -/
def lineStartOf (source : Bytes) (offset : Nat) : Nat :=
  ((List.range offset).filter (source[·]? = some Byte.lineFeed)).getLast?.elim 0 (· + 1)

/-- Bytes from the start of the line, counted from one. -/
def columnOf (source : Bytes) (offset : Nat) : Nat := offset - lineStartOf source offset + 1

variable (source : Bytes) (n : Nat)

theorem lineStartOf_succ : lineStartOf source (n + 1)
    = if source[n]? = some Byte.lineFeed then n + 1 else lineStartOf source n := by
  unfold lineStartOf
  rw [List.range_succ, List.filter_append]
  split
  · next hfeed => simp [hfeed]
  · next hfeed => simp [hfeed]

theorem lineStartOf_le : lineStartOf source n ≤ n := by
  induction n with
  | zero => exact Nat.le_refl 0
  | succ n ih =>
      rw [lineStartOf_succ]
      split <;> omega

end Bytes

/-- The mark says about its offset what the source says. -/
structure Mark.Points (m : Mark) (source : Bytes) : Prop where
  offset_le : m.offset ≤ source.length
  line : m.line = Bytes.lineOf source m.offset
  lineStart : m.lineStart = Bytes.lineStartOf source m.offset
  column : m.column = Bytes.columnOf source m.offset

/-- Passing one byte more. -/
theorem Mark.Points.step {m : Mark} {source : Bytes} {b : UInt8} (h : m.Points source)
    (hb : source[m.offset]? = some b) : (m.step b).Points source := by
  have hlt : m.offset < source.length := (List.getElem?_eq_some_iff.mp hb).1
  have hline : Bytes.lineOf source (m.offset + 1)
      = Bytes.lineOf source m.offset + [b].count Byte.lineFeed := by
    unfold Bytes.lineOf
    rw [List.take_add_one, hb, List.count_append, Nat.add_assoc]
    rfl
  have hle := Bytes.lineStartOf_le source m.offset
  have hcolumn : m.column = m.offset - Bytes.lineStartOf source m.offset + 1 := h.column
  refine ⟨?_, ?_, ?_, ?_⟩
  · rw [Gap.offset_step]
    exact hlt
  · rw [line_step, Gap.offset_step, hline, h.line]
  · rw [Gap.offset_step, Bytes.lineStartOf_succ, hb]
    unfold Mark.step
    split
    · next hfeed => simp [hfeed]
    · next hfeed => simpa [hfeed] using h.lineStart
  · rw [Gap.offset_step, Bytes.columnOf, Bytes.lineStartOf_succ, hb]
    unfold Mark.step
    split
    · next hfeed => simp [hfeed]
    · next hfeed =>
        simp only [Option.some.injEq, hfeed, if_false]
        omega

theorem Mark.Points.past {m : Mark} {source text after : Bytes} (h : m.Points source)
    (htext : source.drop m.offset = text ++ after) : (m.past text).Points source := by
  induction text generalizing m with
  | nil => exact h
  | cons b text ih =>
      have hb : source[m.offset]? = some b := by
        rw [← List.head?_drop, htext]
        rfl
      refine ih (h.step hb) ?_
      rw [Gap.offset_step, ← List.drop_drop, htext]
      rfl

/-- The place that belongs to an offset. -/
def Location.IsAt (l : Location) (source : Bytes) (offset : Int) : Prop :=
  ∃ n : Nat, n ≤ source.length ∧ offset = n ∧
    l.line = Bytes.lineOf source n ∧ l.column = Bytes.columnOf source n

/-! ## What stands at a mark -/

namespace Gap

/-- Where the slash of a comment was, if the scan may be in one. -/
def State.opened? : State → Option Mark
  | .slash start | .block start _ => some start
  | .between | .line => none

/-- A comment that is never closed starts with a slash. -/
theorem start_of_scan_unclosed {s : State} {m start stop : Mark} {text : Bytes}
    (h : scan s m text = .unclosed start stop) :
    s.opened? = some start ∨ ∃ gap after, text = gap ++ Byte.slash :: after ∧ start = m.past gap := by
  fun_induction scan s m text with
  | case1 | case4 | case5 | case8 | case9 => cases h
  | case12 =>
      cases h
      exact .inl rfl
  | case3 m rest _ ih =>
      -- Either this slash opens the comment, or one behind it.
      rcases ih h with hopened | ⟨gap, after, rfl, rfl⟩
      · cases hopened
        exact .inr ⟨[], rest, rfl, rfl⟩
      · exact .inr ⟨Byte.slash :: gap, after, rfl, rfl⟩
  | case2 _ _ _ _ ih | case6 _ _ _ ih | case10 _ _ ih | case11 _ _ _ _ ih
  | case13 _ _ _ _ _ _ ih =>
      rcases ih h with hopened | ⟨gap, after, rfl, rfl⟩
      · cases hopened
      · exact .inr ⟨_ :: gap, after, rfl, rfl⟩
  | case7 _ _ _ _ ih | case14 _ _ _ _ _ _ ih =>
      rcases ih h with hopened | ⟨gap, after, rfl, rfl⟩
      · exact .inl hopened
      · exact .inr ⟨_ :: gap, after, rfl, rfl⟩

end Gap

namespace SyntaxError

/-- The byte that an error of the reader is about. -/
def byte? : SyntaxError → Option Int
  | .invalidByte byte .. => some byte
  | .unclosedComment .. => some commentByte
  | .unexpected .. | .unmatched .. => none

/-- The errors of the reader are about a byte, and no others. -/
theorem isSome_byte? (e : SyntaxError) : e.byte?.isSome = (e.isInvalidByte || e.isUnclosed) := by
  cases e with
  | invalidByte | unclosedComment | unexpected | unmatched => rfl

/-- What the error says about places is true of the source. -/
structure StandsIn (e : SyntaxError) (source : Bytes) : Prop where
  location : ∃ l, e.location = some l ∧ l.IsAt source e.position
  byte : ∀ byte, e.byte? = some byte → ∃ b, source[e.position.toNat]? = some b ∧ byte = b.toNat
  named : ∀ t ∈ e.named, t.location.IsAt source t.offset

/-- An error about tokens stands where the one that was found stands. -/
theorem StandsIn.of_named {e : SyntaxError} {found : Token} {source : Bytes}
    (hfound : e.found? = some found) (h : ∀ t ∈ e.named, t.location.IsAt source t.offset) :
    e.StandsIn source := by
  have hplace := h found (mem_named hfound)
  cases e with
  | invalidByte | unclosedComment => cases hfound
  | unexpected =>
      cases hfound
      exact ⟨⟨_, rfl, hplace⟩, by simp [byte?], h⟩
  | unmatched =>
      cases hfound
      exact ⟨⟨_, rfl, hplace⟩, by simp [byte?], h⟩

end SyntaxError

namespace Reader

variable {r r' : Reader} {t : Token} {ts : List Token} {e : SyntaxError} {gap after : Bytes} {b : UInt8}
variable {answer : Except SyntaxError Token} {answers : List (Except SyntaxError Token)}

theorem InPlace.points (h : r.InPlace) : r.mark.Points r.source := by
  obtain ⟨passed, hsource, hmark⟩ := h
  have hstart : Mark.Points {} r.source := ⟨Nat.zero_le _, rfl, rfl, rfl⟩
  rw [hmark]
  exact hstart.past hsource

theorem InPlace.isAt (h : r.InPlace) (hrest : r.rest = gap ++ after) :
    (r.locationAt (r.mark.past gap)).IsAt r.source (r.mark.past gap).offset := by
  have hpoints := (h.past hrest).points
  exact ⟨_, hpoints.offset_le, rfl, congrArg _ hpoints.line, congrArg _ hpoints.column⟩

theorem InPlace.getElem?_eq (h : r.InPlace) (hrest : r.rest = gap ++ b :: after) :
    r.source[(r.mark.past gap).offset]? = some b := by
  obtain ⟨passed, hsource, hmark⟩ := h
  rw [hsource, hrest, hmark, ← Mark.past_append, Mark.offset_past, ← List.append_assoc,
    List.getElem?_append_right (by simp)]
  simp

/-- A token is read where some gap ends. -/
theorem next_ok_before (h : r.next = (.ok t, r')) :
    ∃ gap after, r.rest = gap ++ after ∧ t = r.tokenAt (r.mark.past gap) t.lexeme := by
  rcases next_ok_cases h with ⟨m, hscan, rfl, -⟩ | ⟨m, text, munch, hscan, -, rfl, -⟩
  · obtain ⟨gap, hrest, -, -, rfl⟩ := Gap.exists_of_scan_clear hscan
    exact ⟨gap, [], hrest, rfl⟩
  · obtain ⟨gap, hrest, -, -, rfl⟩ := Gap.exists_of_scan_clear hscan
    exact ⟨gap, text, hrest, rfl⟩

/-- Every token has the place that belongs to its offset, and the end mark stands at the end. -/
theorem InPlace.token (h : r.InPlace) (hnext : r.next = (.ok t, r')) :
    t.location.IsAt r.source t.offset ∧ (t.atEnd = true → t.offset = r.source.length) := by
  refine ⟨?_, fun hend => ?_⟩
  · obtain ⟨gap, after, hrest, htoken⟩ := next_ok_before hnext
    rw [htoken]
    exact h.isAt hrest
  · rw [h.eq_endMark hnext hend]
    exact r.offset_endMark

/-- An error of the reader is about a byte, which is no blank, and says where that stands: behind a gap,
or at the slash of a comment. -/
theorem next_error_before (h : r.next = (.error e, r')) :
    ∃ gap b after, r.rest = gap ++ b :: after ∧ (b = Byte.slash ∨ IsGap gap (b :: after)) ∧
      Byte.isBlank b = false ∧ e.byte? = some (b.toNat : Int) ∧
      e.position = (r.mark.past gap).offset ∧
      e.location = some (r.locationAt (r.mark.past gap)) ∧
      e.sourceLine = some (r.lineAt (r.mark.past gap)) := by
  unfold Reader.next at h
  split at h
  · next start stop hscan =>
      cases h
      rcases Gap.start_of_scan_unclosed hscan with hopened | ⟨gap, after, hrest, rfl⟩
      · cases hopened
      · exact ⟨gap, Byte.slash, after, hrest, .inl rfl, rfl, rfl, rfl, rfl, rfl⟩
  · cases h
  · next m b rest hscan =>
      split at h
      · cases h
      · cases h
        obtain ⟨gap, hrest, hgap, hends, rfl⟩ := Gap.exists_of_scan_clear hscan
        exact ⟨gap, b, rest, hrest, .inr hgap, hends.blank b rfl, rfl, rfl, rfl, rfl⟩

theorem InPlace.error (h : r.InPlace) (hnext : r.next = (.error e, r')) : e.StandsIn r.source := by
  obtain ⟨gap, b, after, hrest, -, -, hbyte, hposition, hlocation, -⟩ := next_error_before hnext
  refine ⟨⟨_, hlocation, ?_⟩, ?_, ?_⟩
  · rw [hposition]
    exact h.isAt hrest
  · rw [hbyte, hposition]
    rintro byte ⟨⟩
    exact ⟨b, h.getElem?_eq hrest, rfl⟩
  · simp [SyntaxError.named_eq_nil (found?_of_next hnext)]

/-- Whatever is answered is answered by a reader in its place. -/
theorem Replies.exists_of_mem (h : r.Replies answers r') (hplace : r.InPlace)
    (hmem : answer ∈ answers) :
    ∃ r₁ : Reader, r₁.InPlace ∧ r₁.source = r.source ∧ r₁.next.1 = answer := by
  induction h with
  | nil => cases hmem
  | @cons r r' answers _ ih =>
      rcases List.mem_cons.mp hmem with rfl | hmem
      · exact ⟨r, hplace, rfl, rfl⟩
      · obtain ⟨r₁, hplace₁, hsource, hanswer⟩ := ih hplace.next hmem
        exact ⟨r₁, hplace₁, hsource.trans r.source_next, hanswer⟩

theorem Replies.token (h : r.Replies answers r') (hplace : r.InPlace) (hmem : .ok t ∈ answers) :
    t.location.IsAt r.source t.offset ∧ (t.atEnd = true → t.offset = r.source.length) := by
  obtain ⟨r₁, hplace₁, hsource, hanswer⟩ := h.exists_of_mem hplace hmem
  rw [← hsource]
  exact hplace₁.token (Prod.ext hanswer rfl)

theorem Replies.error (h : r.Replies answers r') (hplace : r.InPlace) (hmem : .error e ∈ answers) :
    e.StandsIn r.source := by
  obtain ⟨r₁, hplace₁, hsource, hanswer⟩ := h.exists_of_mem hplace hmem
  rw [← hsource]
  exact hplace₁.error (Prod.ext hanswer rfl)

theorem InPlace.isAt_of_mem_stream (h : r.InPlace) (hmem : t ∈ r.stream) :
    t.location.IsAt r.source t.offset := by
  obtain ⟨⟨r', hdeliv⟩, -⟩ := r.delivers_stream
  exact (hdeliv.replies.token h (List.mem_map_of_mem hmem)).1

theorem pairwise_live (r : Reader) : r.live.Pairwise (·.offset < ·.offset) := by
  obtain ⟨⟨r', hdeliv⟩, hlive⟩ := r.delivers_stream
  exact (hdeliv.offsets hlive).1.filter _

end Reader

/-! ## Refusals -/

/-- A fresh parser refuses tokens that are still in the stream, or tells what the reader tells. -/
theorem Parser.refused_cases {r : Reader} {strict : Bool} {e : SyntaxError}
    (h : (Parser.new r strict).run.1 = .error (.refused e)) :
    (∃ found, e.found? = some found ∧ ∀ t ∈ e.named, t ∈ r.stream) ∨
      ∃ ts r₁ r₂, r.Delivers ts r₁ ∧ r₁.next = (.error e, r₂) := by
  let p : Parser := { Parser.new r strict with started := true }
  have hout : Outcome none 0 .unit p (Rule.items strict p.budget p) := Parser.items_outcome rfl strict
  generalize hrun : Rule.items strict p.budget p = result at hout
  cases hout with
  | ok =>
      rw [run_of_ok (p := Parser.new r strict) rfl hrun] at h
      cases h
  | stuck _ _ _ hfound =>
      rw [run_of_error (p := Parser.new r strict) rfl hrun] at h
      cases h
      exact .inl ⟨_, hfound, Rule.named_mem_stream rfl hrun⟩
  | unreadable hdeliv hnext =>
      rw [run_of_error (p := Parser.new r strict) rfl hrun] at h
      cases h
      exact .inr ⟨_, _, _, hdeliv, hnext⟩

theorem Reader.InPlace.refusal {r : Reader} {strict : Bool} {e : SyntaxError} (h : r.InPlace)
    (hrun : (Parser.new r strict).run.1 = .error (.refused e)) : e.StandsIn r.source := by
  rcases Parser.refused_cases hrun with ⟨found, hfound, hnamed⟩ | ⟨ts, r₁, r₂, hdeliv, hnext⟩
  · exact .of_named hfound fun t ht => h.isAt_of_mem_stream (hnamed t ht)
  · rw [← hdeliv.source_eq]
    exact (h.delivers hdeliv).error hnext

/-! ## After any requests -/

/-- After any requests, failed ones too, the line, the column and the start of the line that the reader
keeps are those of its offset.  Every token that was delivered and every error that was told, by the
reader or by a parser that goes on with it, reports the line and the column of its own offset.  Tokens
start ever further to the right, the end mark at the end of the source; and the byte that an error of
the reader is about is the byte of the source that it points at. -/
theorem Shared.places_follow_from_offsets (source : Bytes) (file : String) (requests : List Request) :
    let start := Shared.new source file
    let s := start.after requests
    let answers := start.answers requests
    s.reader.source = source ∧ s.reader.mark.Points source ∧
    (∀ t : Token, .ok t ∈ answers →
      t.location.IsAt source t.offset ∧ (t.atEnd = true → t.offset = source.length)) ∧
    ((answers.filterMap Except.toOption).filter (!·.atEnd)).Pairwise (·.offset < ·.offset) ∧
    (∀ e, .error e ∈ answers → e.byte?.isSome = true ∧ e.StandsIn source) ∧
    ∀ strict e, (Parser.new s.reader strict).run.1 = .error (.refused e) → e.StandsIn source := by
  intro start s answers
  have hreplies : start.reader.Replies answers s.reader := start.replies_log requests
  have hstart : start.reader.InPlace := Reader.inPlace_new source file
  have hplace : s.reader.InPlace := hstart.replies hreplies
  have hsource : s.reader.source = source := hreplies.source_eq
  refine ⟨hsource, hsource ▸ hplace.points, ?_, ?_, ?_, ?_⟩
  · exact fun t ht => hreplies.token hstart ht
  · obtain ⟨us, n, heq, hpre, -⟩ := hreplies.tokens hstart
    have hlive : ∀ t ∈ us, t.atEnd = false := by
      intro t ht
      simpa using List.of_mem_filter (hpre.subset ht)
    rw [heq, List.filter_append, List.filter_eq_self.mpr (by simpa using hlive),
      List.filter_replicate_of_neg (by simp [Reader.endMark]; rfl), List.append_nil]
    exact start.reader.pairwise_live.sublist hpre.sublist
  · intro e he
    obtain ⟨-, hkind, -⟩ := hreplies.next_of_error hstart he
    refine ⟨?_, hreplies.error hstart he⟩
    rw [e.isSome_byte?, hkind, Bool.not_or_self]
  · exact fun strict e hrun => hsource ▸ hplace.refusal hrun

end MiniC
