/-
# MiniC.Proofs.QuotedLines — an error shows the line that it is about.

A line of the source is found in two ways.  An error of the reader takes it from where the line starts,
which a mark keeps (`Reader.lineAt`).  A refusal comes later, when the reader has gone on, and counts
line feeds from the top (`Reader.lineText`).  Wherever a reader may stand the two agree, and both are
the line of that number of the source cut at its line feeds.

What an error points at is no blank.  So it is neither the line feed behind its line nor one of the
carriage returns that are dropped, and it stands in the line that is shown, under its column.
-/
import MiniC.Proofs.Concatenation
import MiniC.Proofs.Places

namespace MiniC

/-! ## Lines by their number -/

namespace Bytes

/-- Lines are counted as the pieces between line feeds. -/
theorem lineAfter_eq_getElem? (n : Nat) (bs : Bytes) :
    lineAfter n bs = (bs.splitOn Byte.lineFeed)[n]? := by
  induction n generalizing bs with
  | zero =>
      obtain ⟨line, after, rfl, hline, hends⟩ := exists_line bs
      have hfirst : firstLine (line ++ after) = line := (isRun_line.mpr ⟨hline, hends⟩).takeWhile
      rw [lineAfter, hfirst]
      cases after with
      | nil => simp [List.splitOn_eq_singleton hline]
      | cons b rest =>
          obtain rfl : b = Byte.lineFeed := hends b rfl
          simp [List.splitOn_append_cons_self_of_not_mem hline]
  | succ n ih =>
      obtain ⟨line, after, rfl, hline, hends⟩ := exists_line bs
      have hskip : (line ++ after).dropWhile (· != Byte.lineFeed)
          = after.dropWhile (· != Byte.lineFeed) :=
        List.dropWhile_append_of_pos fun b hb => by
          rw [bne_iff_ne]
          rintro rfl
          exact hline hb
      rw [lineAfter, hskip]
      cases after with
      | nil => simp [List.splitOn_eq_singleton hline]
      | cons b rest =>
          obtain rfl : b = Byte.lineFeed := hends b rfl
          rw [List.dropWhile_cons_of_neg (by simp), List.splitOn_append_cons_self_of_not_mem hline]
          exact ih rest

/-- Only what stands behind the last byte that is no carriage return is dropped. -/
theorem trimReturns_append_cons (start tail : Bytes) {b : UInt8} (hb : b ≠ Byte.carriageReturn) :
    trimReturns (start ++ b :: tail) = start ++ b :: trimReturns tail := by
  have hstop : (b :: start.reverse).dropWhile (· == Byte.carriageReturn) = b :: start.reverse :=
    List.dropWhile_cons_of_neg (by simpa using hb)
  have hrev : (start ++ b :: tail).reverse = tail.reverse ++ b :: start.reverse := by simp
  rw [trimReturns, trimReturns, hrev, List.dropWhile_append, hstop]
  split
  · next hall => simp [List.isEmpty_iff.mp hall]
  · simp

end Bytes

/-! ## The line on which a mark stands -/

/-- The bytes before a mark: `above` are whole lines, and `start` is what its own line begins with. -/
structure Mark.Divides (m : Mark) (above start : Bytes) : Prop where
  whole : above = [] ∨ ∃ lines, above = lines ++ [Byte.lineFeed]
  unbroken : Byte.lineFeed ∉ start
  offset : m.offset = above.length + start.length
  line : m.line = above.count Byte.lineFeed + 1
  column : m.column = start.length + 1
  lineStart : m.lineStart = above.length

namespace Mark

variable {m : Mark} {above start : Bytes}

/-- A line feed completes the line, and any other byte belongs to it. -/
theorem Divides.step (h : m.Divides above start) (b : UInt8) :
    ∃ above' start', above ++ start ++ [b] = above' ++ start' ∧ (m.step b).Divides above' start' := by
  have hcount : start.count Byte.lineFeed = 0 := List.count_eq_zero_of_not_mem h.unbroken
  by_cases hb : b = Byte.lineFeed
  · refine ⟨above ++ start ++ [b], [], (List.append_nil _).symm, ?_⟩
    have hstep : m.step b = ⟨m.offset + 1, m.line + 1, 1, m.offset + 1⟩ := if_pos hb
    rw [hstep, hb]
    exact {
      whole := .inr ⟨_, rfl⟩
      unbroken := by simp
      offset := by simp [h.offset, Nat.add_assoc]
      line := by simp [h.line, hcount]
      column := rfl
      lineStart := by simp [h.offset, Nat.add_assoc] }
  · refine ⟨above, start ++ [b], List.append_assoc .., ?_⟩
    have hstep : m.step b = { m with offset := m.offset + 1, column := m.column + 1 } := if_neg hb
    rw [hstep]
    exact {
      whole := h.whole
      unbroken := by simpa [h.unbroken] using Ne.symm hb
      offset := by simp [h.offset, Nat.add_assoc]
      line := h.line
      column := by simp [h.column]
      lineStart := h.lineStart }

theorem exists_divides (passed : Bytes) :
    ∃ above start, passed = above ++ start ∧ (past {} passed).Divides above start := by
  induction passed using List.reverseRecOn with
  | nil => exact ⟨[], [], rfl, .inl rfl, by simp, rfl, rfl, rfl, rfl⟩
  | append_singleton passed b ih =>
      obtain ⟨above, start, rfl, hdivides⟩ := ih
      rw [past_append]
      exact hdivides.step b

end Mark

/-- Behind whole lines, the next one is found by its number. -/
theorem Mark.Divides.lineAfter_eq {m : Mark} {above start : Bytes} (h : m.Divides above start)
    (rest : Bytes) :
    Bytes.lineAfter (m.line - 1) (above ++ (start ++ rest)) = some (Bytes.firstLine (start ++ rest)) := by
  rw [h.line, Nat.add_sub_cancel]
  rcases h.whole with rfl | ⟨lines, rfl⟩
  · rfl
  · have hbelow := Bytes.lineAfter_below lines (start ++ rest) 0
    rw [List.append_assoc, List.singleton_append, List.count_append, List.count_singleton_self]
    exact hbelow

namespace Reader

variable {r r' : Reader} {t : Token} {e : SyntaxError} {after : Bytes} {b : UInt8}

theorem InPlace.exists_divides (h : r.InPlace) :
    ∃ above start, r.source = above ++ (start ++ r.rest) ∧ r.mark.Divides above start := by
  obtain ⟨passed, hsource, hmark⟩ := h
  obtain ⟨above, start, rfl, hdivides⟩ := Mark.exists_divides passed
  exact ⟨above, start, by rw [hsource, List.append_assoc], hmark ▸ hdivides⟩

/-- The line is the same, looked for from its start or counted from the top. -/
theorem InPlace.line_eq (h : r.InPlace) :
    ∃ line, (r.source.splitOn Byte.lineFeed)[r.mark.line - 1]? = some line ∧
      r.lineAt r.mark = Bytes.trimReturns line ∧
      r.lineText r.mark.line = some (Bytes.trimReturns line) := by
  obtain ⟨above, start, hsource, hdivides⟩ := h.exists_divides
  have hline := hdivides.lineAfter_eq r.rest
  have hpos : 1 ≤ r.mark.line := by
    rw [hdivides.line]
    omega
  refine ⟨Bytes.firstLine (start ++ r.rest), ?_, ?_, ?_⟩
  · rw [← Bytes.lineAfter_eq_getElem?, hsource]
    exact hline
  · rw [lineAt, hsource, hdivides.lineStart, List.drop_left]
  · rw [lineText, if_neg (by omega), Int.toNat_natCast, hsource, hline]
    rfl

theorem InPlace.lineText_eq (h : r.InPlace) : r.lineText r.mark.line = some (r.lineAt r.mark) := by
  obtain ⟨line, -, hat, htext⟩ := h.line_eq
  rw [htext, hat]

/-- The line goes on with the byte before which the reader stands, unless that is a blank. -/
theorem InPlace.exists_lineAt (h : r.InPlace) (hrest : r.rest = b :: after)
    (hb : Byte.isBlank b = false) :
    ∃ above start tail, r.source = above ++ (start ++ b :: after) ∧ r.mark.Divides above start ∧
      r.lineAt r.mark = start ++ b :: tail := by
  obtain ⟨above, start, hsource, hdivides⟩ := h.exists_divides
  rw [hrest] at hsource
  have hfeed : b ≠ Byte.lineFeed := by
    rintro rfl
    cases hb
  have hreturn : b ≠ Byte.carriageReturn := by
    rintro rfl
    cases hb
  have hline : Bytes.firstLine (start ++ b :: after) = start ++ b :: Bytes.firstLine after := by
    have hstart : ∀ c ∈ start, (c != Byte.lineFeed) = true := by
      intro c hc
      rw [bne_iff_ne]
      rintro rfl
      exact hdivides.unbroken hc
    rw [Bytes.firstLine, List.takeWhile_append_of_pos hstart,
      List.takeWhile_cons_of_pos (by simpa using hfeed)]
    rfl
  refine ⟨above, start, Bytes.trimReturns (Bytes.firstLine after), hsource, hdivides, ?_⟩
  rw [lineAt, hsource, hdivides.lineStart, List.drop_left, hline]
  exact Bytes.trimReturns_append_cons start _ hreturn

/-- The byte before which the reader stands is seen in its line, unless it is a blank. -/
theorem InPlace.getElem?_lineAt (h : r.InPlace) (hrest : r.rest = b :: after)
    (hb : Byte.isBlank b = false) : (r.lineAt r.mark)[r.mark.column - 1]? = some b := by
  obtain ⟨above, start, tail, -, hdivides, hline⟩ := h.exists_lineAt hrest hb
  rw [hline, hdivides.column, Nat.add_sub_cancel]
  simp

end Reader

/-! ## What errors show -/

/-- The text of a lexeme begins like its spelling. -/
theorem IsLexeme.head?_eq {l : Lexeme} {text after : Bytes} (h : IsLexeme l text after) :
    text.head? = l.spelling.head? := by
  cases h with
  | preprocessor returns hhead =>
      rw [List.head?_append, hhead]
      exact hhead.symm
  | _ => rfl

namespace SyntaxError

/-- The error is about a byte or a token, but not about the end mark. -/
def HasText (e : SyntaxError) : Prop := ∀ t ∈ e.found?, t.atEnd = false

/-- The byte with which the offending text begins: the byte that starts no token, the slash of the
comment, or the first of the token that was found. -/
structure BeginsWith (e : SyntaxError) (b : UInt8) : Prop where
  byte : ∀ byte ∈ e.byte?, byte = b.toNat
  found : ∀ t ∈ e.found?, t.lexeme.spelling.head? = some b

theorem BeginsWith.of_byte? {e : SyntaxError} {b : UInt8} (h : e.byte? = some (b.toNat : Int)) :
    e.BeginsWith b := by
  refine ⟨by simp [h], ?_⟩
  cases e with
  | invalidByte | unclosedComment => simp [found?]
  | unexpected | unmatched => cases h

/-- The error stands on a line of the source, and shows it without the carriage returns at its end.  If
it has text, the byte with which that begins is the one at its position in the source, and the one at
its column in the line. -/
def Shows (e : SyntaxError) (source : Bytes) : Prop :=
  ∃ l line, e.location = some l ∧ 1 ≤ l.line ∧
    (source.splitOn Byte.lineFeed)[(l.line - 1).toNat]? = some line ∧
    e.sourceLine = some (Bytes.trimReturns line) ∧
    (e.HasText → ∃ b, e.BeginsWith b ∧ 0 ≤ e.position ∧ source[e.position.toNat]? = some b ∧
      1 ≤ l.column ∧ (Bytes.trimReturns line)[(l.column - 1).toNat]? = some b)

/-- The reader stands before what the error is about. -/
structure IsBefore (e : SyntaxError) (r : Reader) : Prop where
  inPlace : r.InPlace
  location : e.location = some (r.locationAt r.mark)
  position : e.position = r.mark.offset
  text : e.HasText → ∃ b after, r.rest = b :: after ∧ Byte.isBlank b = false ∧ e.BeginsWith b

theorem IsBefore.shows {e : SyntaxError} {r : Reader} (h : e.IsBefore r)
    (hline : e.sourceLine = some (r.lineAt r.mark)) : e.Shows r.source := by
  obtain ⟨line, hnumber, hat, -⟩ := h.inPlace.line_eq
  obtain ⟨above, start, -, hdivides⟩ := h.inPlace.exists_divides
  have hlines : r.mark.line = above.count Byte.lineFeed + 1 := hdivides.line
  have hcolumns : r.mark.column = start.length + 1 := hdivides.column
  refine ⟨_, line, h.location, ?_, ?_, hat ▸ hline, fun htext => ?_⟩
  · show (1 : Int) ≤ (r.mark.line : Int)
    omega
  · have hindex : ((r.mark.line : Int) - 1).toNat = r.mark.line - 1 := by omega
    show (r.source.splitOn Byte.lineFeed)[((r.mark.line : Int) - 1).toNat]? = some line
    rw [hindex]
    exact hnumber
  · obtain ⟨b, after, hrest, hb, hbegins⟩ := h.text htext
    have hrest' : r.rest = [] ++ b :: after := hrest
    have hsource : r.source[r.mark.offset]? = some b := h.inPlace.getElem?_eq hrest'
    have hseen := h.inPlace.getElem?_lineAt hrest hb
    have hindex : ((r.mark.column : Int) - 1).toNat = r.mark.column - 1 := by omega
    refine ⟨b, hbegins, ?_, ?_, ?_, ?_⟩
    · rw [h.position]
      omega
    · rw [h.position]
      exact hsource
    · show (1 : Int) ≤ (r.mark.column : Int)
      omega
    · show (Bytes.trimReturns line)[((r.mark.column : Int) - 1).toNat]? = some b
      rw [hindex, ← hat]
      exact hseen

end SyntaxError

namespace Reader

variable {r r' : Reader} {t : Token} {e : SyntaxError}

/-- An error of the reader takes the line from where it starts. -/
theorem InPlace.before_of_next (h : r.InPlace) (hnext : r.next = (.error e, r')) :
    ∃ gap b after, r.rest = gap ++ b :: after ∧ (b = Byte.slash ∨ IsGap gap (b :: after)) ∧
      e.IsBefore { r with mark := r.mark.past gap, rest := b :: after } ∧
      e.sourceLine = some (r.lineAt (r.mark.past gap)) := by
  obtain ⟨gap, b, after, hrest, hgap, hb, hbyte, hposition, hlocation, hline⟩ :=
    next_error_before hnext
  exact ⟨gap, b, after, hrest, hgap, ⟨h.past hrest, hlocation, hposition,
    fun _ => ⟨b, after, rfl, hb, .of_byte? hbyte⟩⟩, hline⟩

theorem InPlace.shows_of_next (h : r.InPlace) (hnext : r.next = (.error e, r')) :
    e.Shows r.source := by
  obtain ⟨gap, b, after, -, -, hbefore, hline⟩ := h.before_of_next hnext
  exact hbefore.shows hline

/-- Before every token of the stream some reader has stood. -/
theorem InPlace.before_of_mem_stream (h : r.InPlace) (hmem : t ∈ r.stream) :
    ∃ r₁ : Reader, r₁.InPlace ∧ r₁.source = r.source ∧ t = r₁.tokenAt r₁.mark t.lexeme ∧
      (t.atEnd = false → ∃ b after, r₁.rest = b :: after ∧ Byte.isBlank b = false ∧
        t.lexeme.spelling.head? = some b) := by
  obtain ⟨⟨r', hdeliv⟩, -⟩ := r.delivers_stream
  obtain ⟨r₁, hplace, hsource, hanswer⟩ :=
    hdeliv.replies.exists_of_mem h (List.mem_map_of_mem hmem)
  have hnext : r₁.next = (.ok t, r₁.next.2) := Prod.ext hanswer rfl
  cases hend : t.atEnd with
  | true =>
      obtain ⟨gap, after, hrest, htoken⟩ := next_ok_before hnext
      exact ⟨_, hplace.past hrest, hsource, htoken, by simp⟩
  | false =>
      obtain ⟨gap, text, after, l, hrest, -, hends, hlexeme, rfl, -⟩ := next_live_cases hnext hend
      refine ⟨_, hplace.past hrest, hsource, rfl, fun _ => ?_⟩
      cases text with
      | nil => exact absurd rfl hlexeme.ne_nil
      | cons b text => exact ⟨b, text ++ after, rfl, hends.blank b rfl, hlexeme.head?_eq.symm⟩

end Reader

/-- An error about a token stands where that token stands. -/
theorem SyntaxError.place_of_found? {e : SyntaxError} {t : Token} (h : e.found? = some t) :
    e.location = some t.location ∧ e.position = t.offset ∧ e.byte? = none := by
  cases e with
  | invalidByte | unclosedComment => cases h
  | unexpected | unmatched =>
      cases h
      exact ⟨rfl, rfl, rfl⟩

/-- A refusal counts the lines of the source. -/
theorem Reader.InPlace.before_of_quotes {r : Reader} {t : Token} {e : SyntaxError} (h : r.InPlace)
    (hfound : e.found? = some t) (hmem : t ∈ r.stream) (hquotes : e.Quotes r) :
    ∃ r₁ : Reader, r₁.source = r.source ∧ e.IsBefore r₁ ∧
      e.sourceLine = some (r₁.lineAt r₁.mark) := by
  obtain ⟨r₁, hplace, hsource, htoken, htext⟩ := h.before_of_mem_stream hmem
  obtain ⟨hlocation, hposition, hbyte⟩ := SyntaxError.place_of_found? hfound
  refine ⟨r₁, hsource, ⟨hplace, ?_, ?_, fun hhas => ?_⟩, ?_⟩
  · rw [hlocation, htoken]
    rfl
  · rw [hposition, htoken]
    rfl
  · obtain ⟨b, after, hrest, hb, hhead⟩ := htext (hhas t hfound)
    refine ⟨b, after, hrest, hb, by simp [hbyte], ?_⟩
    rw [hfound]
    rintro _ ⟨⟩
    exact hhead
  · -- The line was asked for by its number, long after the reader stood there.
    rw [hquotes t hfound, ← hplace.lineText_eq, htoken]
    unfold Reader.lineText
    rw [hsource]
    rfl

theorem Reader.InPlace.shows_of_quotes {r : Reader} {t : Token} {e : SyntaxError} (h : r.InPlace)
    (hfound : e.found? = some t) (hmem : t ∈ r.stream) (hquotes : e.Quotes r) : e.Shows r.source := by
  obtain ⟨r₁, hsource, hbefore, hline⟩ := h.before_of_quotes hfound hmem hquotes
  exact hsource ▸ hbefore.shows hline

namespace Options

variable (o : Options) (source : Bytes) (name : Option String) {e : SyntaxError}

theorem quotes_of_parse (h : (o.parse source name).1 = .error (.refused e)) :
    e.Quotes (Reader.new source (o.fileName name)) := by
  cases hrun : Rule.items o.strict (o.start source name).budget (o.start source name) with
  | ok es p =>
      rw [o.parse_eq_ok source name hrun] at h
      cases h
  | error failure p =>
      rw [o.parse_of_error source name hrun] at h
      cases h
      have hmoves : Likeness.lexemes.Alike Likeness.lexemes.OfNodes
          (Rule.items o.strict (o.start source name).budget)
          (Rule.items o.strict (o.start source name).budget) := Rule.alike_items (Nat.le_refl _)
      exact Rule.quotes_of_alike hmoves hrun

theorem shows_of_fails {ts : List Token} (h : (Reader.new source (o.fileName name)).Fails ts e) :
    e.Shows source := by
  obtain ⟨r, r', hdeliv, hnext⟩ := h.delivers
  have hshows := ((Reader.inPlace_new source (o.fileName name)).delivers hdeliv).shows_of_next hnext
  rwa [hdeliv.source_eq] at hshows

/-- Every error that reading a source ends with, into tokens or into a tree, shows the line of the
source that it is about, and the byte at which it points is found under its column (`SyntaxError.Shows`).

The line is the same in whichever way it is found: at every mark that the bytes of the source lead to,
and so wherever a reader stands after any requests, the line looked for from its start is the line of
that number. -/
theorem errors_show_their_line :
    (∀ e, (o.tokenize source name).1 = .error e ∨ (o.parse source name).1 = .error (.refused e) →
      e.Shows source) ∧
    (∀ passed, passed <+: source →
      let r := Reader.new source (o.fileName name)
      r.lineText (Mark.past {} passed).line = some (r.lineAt (Mark.past {} passed))) ∧
    ∀ requests,
      let r := ((Shared.new source (o.fileName name)).after requests).reader
      r.source = source ∧ r.lineText r.mark.line = some (r.lineAt r.mark) := by
  have hnew := Reader.inPlace_new source (o.fileName name)
  refine ⟨?_, ?_, fun requests => ?_⟩
  · rintro e (htokens | hparse)
    · obtain ⟨ts, hfails⟩ := (o.tokenize_eq_error_iff source name).mp htokens
      exact o.shows_of_fails source name hfails
    · rcases o.parse_cases source name with ⟨r, ts, mark, hok, -⟩ |
        ⟨e', found, hrefused, hfound, hnamed⟩ | ⟨e', ts, hrefused, -, hfails⟩
      · rw [hok] at hparse
        cases hparse
      · rw [hrefused] at hparse
        cases hparse
        exact hnew.shows_of_quotes hfound (hnamed found (SyntaxError.mem_named hfound))
          (o.quotes_of_parse source name hrefused)
      · rw [hrefused] at hparse
        cases hparse
        exact o.shows_of_fails source name hfails
  · rintro passed ⟨rest, hsource⟩
    exact (hnew.past hsource.symm).lineText_eq
  · have hreplies := (Shared.new source (o.fileName name)).replies_log requests
    exact ⟨hreplies.source_eq, (hnew.replies hreplies).lineText_eq⟩

/-- A comment over two lines stands above, and two carriage returns behind. -/
theorem refused_sign_is_shown :
    let source := utf8 "int a; /* \n */\r\nint + b;\r\r\n"
    let e : SyntaxError := .unexpected .identifier
      { lexeme := .operator .add, line := 3, column := 5, offset := 20, file := "<input>" }
      (some (utf8 "int + b;")) none
    (({} : Options).parse source none).1 = .error (.refused e) ∧ e.HasText ∧ e.Shows source := by
  intro source e
  have hreason : (({} : Options).parse source none).1.map (fun _ => ()) = .error (.refused e) := by
    decide +kernel
  have herror := eq_error_of_map hreason
  have hlive : e.HasText := by
    rintro t ⟨⟩
    rfl
  exact ⟨herror, hlive, (errors_show_their_line {} source none).1 e (.inr herror)⟩

end Options

end MiniC
