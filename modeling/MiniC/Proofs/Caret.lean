/-
# MiniC.Proofs.Caret — where the caret of a message stands.

A message shows a line of the source and puts a caret under it, behind as many spaces as bytes stand
before the offending text.  The line above is read in characters.  The two agree, and the caret stands
under the character with which the offending text begins, exactly if no character before it on the line
takes more than one byte.

Offending text never begins inside a character.  What a reader has passed ends with a byte of ASCII or
before a line feed, since all lexemes and gaps do, whatever bytes their comments and preprocessor texts
hold.
-/
import MiniC.Proofs.Glyphs
import MiniC.Proofs.QuotedLines

namespace MiniC

/-! ## Readers stop between characters -/

namespace Glyph

variable {above text after : Bytes}

theorem Seam.of_ascii (hne : text ≠ []) (h : ∀ b ∈ text, b < 128) (above after : Bytes) :
    Seam (above ++ text) after := by
  intro b _ _ d hd
  rw [Option.mem_def, List.getLast?_append_of_ne_nil _ hne] at hd
  exact h d (List.mem_of_getLast? hd)

theorem Seam.of_endsLine (h : EndsLine after) (text : Bytes) : Seam text after := by
  intro b hb hhigh
  rw [h b hb] at hhigh
  exact absurd hhigh (by decide)

theorem Seam.of_append (h : Seam (above ++ text) after) : Seam text after := by
  intro b hb hhigh d hd
  exact h b hb hhigh d (by simp [Option.mem_def.mp hd])

end Glyph

namespace Byte

theorem ascii_of_isBlank {b : UInt8} (h : isBlank b = true) : b < 128 := by
  simp only [isBlank, Bool.or_eq_true, Bool.and_eq_true, beq_iff_eq, decide_eq_true_eq] at h
  grind

theorem ascii_of_isWordByte {b : UInt8} (h : isWordByte b = true) : b < 128 := by
  simp only [isWordByte, isWordStart, isDigit, Bool.or_eq_true, Bool.and_eq_true, beq_iff_eq,
    decide_eq_true_eq] at h
  grind

theorem ascii_of_all {text : Bytes} (h : text.all (· < 128) = true) : ∀ b ∈ text, b < 128 := by
  simpa using h

end Byte

/-- Every part of a gap ends with a byte of ASCII or at the end of a line. -/
theorem IsGap.seam {gap after passed : Bytes} (h : IsGap gap after)
    (hseam : Glyph.Seam passed (gap ++ after)) : Glyph.Seam (passed ++ gap) after := by
  induction h generalizing passed with
  | nil => simpa using hseam
  | @blank b gap after hb _ ih =>
      rw [List.append_cons]
      exact ih (.of_ascii (by simp) (by simpa using Byte.ascii_of_isBlank hb) _ _)
  | @line comment gap after hcomment _ ih =>
      have hends : EndsLine (gap ++ after) := by
        cases hcomment
        assumption
      rw [← List.append_assoc]
      exact ih (.of_endsLine hends _)
  | @block comment gap after hcomment _ ih =>
      obtain ⟨body, rfl⟩ : ∃ body, comment = body ++ [Byte.star, Byte.slash] := by
        cases hcomment with
        | @mk body _ => exact ⟨Byte.slash :: Byte.star :: body, by simp⟩
      rw [← List.append_assoc, ← List.append_assoc]
      exact ih (.of_ascii (by simp) (Byte.ascii_of_all (by decide)) _ _)

/-- Only a preprocessor text may have other bytes than those of ASCII, and it ends with its line. -/
theorem IsLexeme.ascii_or_endsLine {l : Lexeme} {text after : Bytes} (h : IsLexeme l text after) :
    (∀ b ∈ text, b < 128) ∨ text.head? = some Byte.hash ∧ EndsLine after := by
  cases h with
  | preprocessor _ hhead _ _ hends => exact .inr ⟨by rw [List.head?_append, hhead]; rfl, hends⟩
  | keyword hrun => exact .inl fun b hb => Byte.ascii_of_isWordByte (hrun.all b hb)
  | identifier _ hrun _ => exact .inl fun b hb => Byte.ascii_of_isWordByte (hrun.all b hb)
  | number _ hrun =>
      refine .inl fun b hb => Byte.ascii_of_isWordByte ?_
      rw [Byte.isWordByte, hrun.all b hb, Bool.or_true]
  | @operator o _ _ => exact .inl (Byte.ascii_of_all (by cases o <;> decide))
  | @bracket b _ => exact .inl (Byte.ascii_of_all (by cases b <;> decide))
  | comma | semicolon => exact .inl (Byte.ascii_of_all (by decide))

theorem IsLexeme.seam {l : Lexeme} {text after : Bytes} (h : IsLexeme l text after) (passed : Bytes) :
    Glyph.Seam (passed ++ text) after := by
  rcases h.ascii_or_endsLine with hascii | ⟨-, hends⟩
  · exact .of_ascii h.ne_nil hascii _ _
  · exact .of_endsLine hends _

theorem IsLexeme.ascii_head {l : Lexeme} {text after : Bytes} (h : IsLexeme l text after) :
    ∀ b ∈ text.head?, b < 128 := by
  intro b hb
  rcases h.ascii_or_endsLine with hascii | ⟨hhash, -⟩
  · exact hascii b (List.mem_of_mem_head? hb)
  · rw [hhash] at hb
    cases hb
    decide

namespace Reader

variable {r r' : Reader} {t : Token} {ts : List Token} {gap after : Bytes}

/-- What is still to be read begins with a character of the source. -/
def AtSeam (r : Reader) : Prop := ∃ passed, r.source = passed ++ r.rest ∧ Glyph.Seam passed r.rest

theorem atSeam_new (source : Bytes) (file : String) : (new source file).AtSeam :=
  ⟨[], rfl, by simp [Glyph.Seam]⟩

theorem AtSeam.pastGap (h : r.AtSeam) (hrest : r.rest = gap ++ after) (hgap : IsGap gap after) :
    AtSeam { r with mark := r.mark.past gap, rest := after } := by
  obtain ⟨passed, hsource, hseam⟩ := h
  rw [hrest] at hsource hseam
  exact ⟨passed ++ gap, by rw [hsource, List.append_assoc], hgap.seam hseam⟩

theorem AtSeam.next (h : r.AtSeam) (hnext : r.next = (.ok t, r')) : r'.AtSeam := by
  cases hend : t.atEnd with
  | true =>
      have hrest := (of_next_atEnd hnext hend).2
      exact ⟨r'.source, by simp [hrest], by simp [Glyph.Seam, hrest]⟩
  | false =>
      obtain ⟨gap, text, after, l, hrest, -, -, hlexeme, -, rfl⟩ := next_live_cases hnext hend
      obtain ⟨passed, hsource, -⟩ := h
      refine ⟨passed ++ gap ++ text, ?_, hlexeme.seam _⟩
      rw [hsource, hrest]
      simp

theorem AtSeam.delivers (h : r.AtSeam) (hdeliv : r.Delivers ts r') : r'.AtSeam := by
  induction hdeliv with
  | nil => exact h
  | cons hnext _ ih => exact ih (h.next hnext)

theorem InPlace.atSeam {b : UInt8} (h : r.InPlace) (hrest : r.rest = b :: after) (hb : b < 128) :
    r.AtSeam := by
  obtain ⟨passed, hsource, -⟩ := h
  refine ⟨passed, hsource, ?_⟩
  rw [hrest]
  rintro _ ⟨⟩ hhigh
  exact absurd hb (UInt8.not_lt.mpr hhigh)

theorem InPlace.ascii_of_mem_stream (h : r.InPlace) (hmem : t ∈ r.stream) (hlive : t.atEnd = false) :
    ∀ b ∈ t.lexeme.spelling.head?, b < 128 := by
  obtain ⟨⟨r', hdeliv⟩, -⟩ := r.delivers_stream
  obtain ⟨r₁, -, -, hanswer⟩ := hdeliv.replies.exists_of_mem h (List.mem_map_of_mem hmem)
  have hnext : r₁.next = (.ok t, r₁.next.2) := Prod.ext hanswer rfl
  obtain ⟨_, _, _, _, -, -, -, hlexeme, rfl, -⟩ := next_live_cases hnext hlive
  exact hlexeme.head?_eq ▸ hlexeme.ascii_head

end Reader

/-! ## The line, cut where the offending text begins -/

namespace Bytes

/-- What stands before an offset on its own line. -/
def lineBefore (source : Bytes) (offset : Nat) : Bytes :=
  (source.take offset).drop (lineStartOf source offset)

end Bytes

theorem Reader.InPlace.lineBefore_eq {r : Reader} {above start rest : Bytes} (h : r.InPlace)
    (hsource : r.source = above ++ (start ++ rest)) (hdivides : r.mark.Divides above start) :
    r.source.lineBefore r.mark.offset = start := by
  rw [Bytes.lineBefore, ← h.points.lineStart, hdivides.lineStart, hdivides.offset, hsource,
    ← List.append_assoc, ← List.length_append, List.take_left, List.drop_left]

namespace SyntaxError

variable {e : SyntaxError} {r : Reader}

/-- The line that the error shows, cut where the offending text begins: `start` is what the source has
before it on its line, and `onward` begins with it.  No character lies across the cut. -/
structure CutsLine (e : SyntaxError) (source start onward : Bytes) : Prop where
  start_eq : start = source.lineBefore e.position.toNat
  line : e.sourceLine = some (start ++ onward)
  begins : ∃ b, onward.head? = some b ∧ e.BeginsWith b
  glyphs : Glyph.decode (start ++ onward) = Glyph.decode start ++ Glyph.decode onward

/-- Columns count the bytes before the cut. -/
theorem IsBefore.cutsLine (h : e.IsBefore r) (hline : e.sourceLine = some (r.lineAt r.mark))
    (hseam : r.AtSeam) (htext : e.HasText) :
    ∃ start onward, e.CutsLine r.source start onward ∧ r.mark.column = start.length + 1 := by
  obtain ⟨b, after, hrest, hb, hbegins⟩ := h.text htext
  obtain ⟨above, start, tail, hsource, hdivides, hshown⟩ := h.inPlace.exists_lineAt hrest hb
  obtain ⟨passed, hpassed, hcut⟩ := hseam
  rw [hrest] at hpassed hcut
  obtain rfl : passed = above ++ start := by
    rw [hsource, ← List.append_assoc] at hpassed
    exact (List.append_cancel_right hpassed).symm
  refine ⟨start, b :: tail, ⟨?_, ?_, ⟨b, rfl, hbegins⟩, ?_⟩, hdivides.column⟩
  · rw [h.position, Int.toNat_natCast, h.inPlace.lineBefore_eq hsource hdivides]
  · rw [hline, hshown]
  · -- Whether there is a seam shows at the two bytes next to it.
    have hstart : Glyph.Seam start (b :: tail) := hcut.of_append
    exact hstart.decode_append

end SyntaxError

/-! ## The caret -/

theorem Bytes.join_cons (separator piece : Bytes) (pieces : List Bytes) :
    join separator (piece :: pieces) = piece ++ pieces.flatMap (separator ++ ·) := by
  induction pieces generalizing piece with
  | nil => simp [join]
  | cons next pieces ih =>
      have hjoin : join separator (piece :: next :: pieces)
          = piece ++ (separator ++ join separator (next :: pieces)) := by
        simp [join, List.intercalate_cons_cons]
      rw [hjoin, ih, List.flatMap_cons, List.append_assoc]

theorem Glyph.decode_caret (n : Nat) :
    decode (List.replicate n Byte.space ++ utf8 "^") = List.replicate n (.char ' ') ++ [.char '^'] := by
  induction n with
  | zero => decide
  | succ n ih =>
      rw [List.replicate_succ, List.cons_append, decode_cons (by decide), ih]
      rfl

namespace SyntaxError

variable {e : SyntaxError} {line : Bytes} {l : Location} {n : Nat}

/-- The message shows the line, moved in by four, and under it a caret behind `n` characters, which are
spaces. -/
def CaretBehind (e : SyntaxError) (line : Bytes) (n : Nat) : Prop :=
  ∃ row, e.render = Bytes.join [Byte.lineFeed]
      ([e.diagnostic.headline, utf8 "    " ++ line, row] ++ e.diagnostic.hintLines) ∧
    Glyph.decode row = List.replicate n (.char ' ') ++ [.char '^']

theorem caretBehind_iff (hline : e.sourceLine = some line) (hlocation : e.location = some l)
    (hcolumn : 0 < l.column) : e.CaretBehind line n ↔ n = Diagnostic.caretMargin l.column := by
  let caret := List.replicate (Diagnostic.caretMargin l.column) Byte.space ++ utf8 "^"
  have hexcerpt : e.diagnostic.excerpt = [utf8 "    " ++ line, caret] := by
    simp [Diagnostic.excerpt, diagnostic, hline, hlocation, hcolumn, caret]
  have hrender : e.render = Bytes.join [Byte.lineFeed]
      ([e.diagnostic.headline, utf8 "    " ++ line, caret] ++ e.diagnostic.hintLines) := by
    rw [render, Diagnostic.render, hexcerpt]
  constructor
  · rintro ⟨row, hrow, hdecode⟩
    have hsame : row = caret := by
      rw [hrender] at hrow
      simpa [Bytes.join_cons] using hrow.symm
    rw [hsame, Glyph.decode_caret] at hdecode
    have hlength := congrArg List.length hdecode
    simpa using hlength.symm
  · rintro rfl
    exact ⟨caret, hrender, Glyph.decode_caret _⟩

end SyntaxError

namespace Options

variable {o : Options} {source : Bytes} {name : Option String} {e : SyntaxError}

theorem before_of_fails {ts : List Token} (h : (Reader.new source (o.fileName name)).Fails ts e) :
    ∃ r : Reader, r.source = source ∧ e.IsBefore r ∧ e.sourceLine = some (r.lineAt r.mark) ∧
      r.AtSeam := by
  obtain ⟨r, r', hdeliv, hnext⟩ := h.delivers
  have hplace := (Reader.inPlace_new source (o.fileName name)).delivers hdeliv
  have hseam := (Reader.atSeam_new source (o.fileName name)).delivers hdeliv
  obtain ⟨gap, b, after, hrest, hgap, hbefore, hline⟩ := hplace.before_of_next hnext
  refine ⟨{ r with mark := r.mark.past gap, rest := b :: after }, hdeliv.source_eq, hbefore, hline,
    ?_⟩
  rcases hgap with rfl | hgap
  · exact hbefore.inPlace.atSeam rfl (by decide)
  · exact hseam.pastGap hrest hgap

/-- What an error is about begins a character of the source, wherever it was found. -/
theorem before_of_error (h : (o.tokenize source name).1 = .error e ∨
      (o.parse source name).1 = .error (.refused e)) (htext : e.HasText) :
    ∃ r : Reader, r.source = source ∧ e.IsBefore r ∧ e.sourceLine = some (r.lineAt r.mark) ∧
      r.AtSeam := by
  rcases h with htokens | hparse
  · obtain ⟨ts, hfails⟩ := (o.tokenize_eq_error_iff source name).mp htokens
    exact before_of_fails hfails
  rcases o.parse_cases source name with ⟨_, _, _, hok, -⟩ |
    ⟨e', found, hrefused, hfound, hnamed⟩ | ⟨e', ts, hrefused, -, hfails⟩
  · rw [hok] at hparse
    cases hparse
  · rw [hrefused] at hparse
    cases hparse
    have hnew := Reader.inPlace_new source (o.fileName name)
    have hmem := hnamed found (SyntaxError.mem_named hfound)
    obtain ⟨r, hsource, hbefore, hline⟩ :=
      hnew.before_of_quotes hfound hmem (o.quotes_of_parse source name hrefused)
    obtain ⟨b, after, hrest, -, hbegins⟩ := hbefore.text htext
    have hascii := hnew.ascii_of_mem_stream hmem (htext found hfound) b (hbegins.found found hfound)
    exact ⟨r, hsource, hbefore, hline, hbefore.inPlace.atSeam hrest hascii⟩
  · rw [hrefused] at hparse
    cases hparse
    exact before_of_fails hfails

/-- Every error that is about a byte or a token, when reading a source into tokens or into a tree, shows
the line of the source, and the offending text begins with a character of it (`SyntaxError.CutsLine`).

The caret under the line stands behind four characters and as many more as there are bytes before the
offending text.  So it stands under the first character of that text if and only if all characters
before it on the line take one byte each, as stray bytes do. -/
theorem caret_points_iff_narrow_before
    (h : (o.tokenize source name).1 = .error e ∨ (o.parse source name).1 = .error (.refused e))
    (htext : e.HasText) :
    ∃ start onward, e.CutsLine source start onward ∧
      (∀ n, e.CaretBehind (start ++ onward) n ↔ n = 4 + start.length) ∧
      (e.CaretBehind (start ++ onward) (4 + (Glyph.decode start).length) ↔
        ∀ g ∈ Glyph.decode start, g.bytes.length = 1) := by
  obtain ⟨r, rfl, hbefore, hline, hseam⟩ := before_of_error h htext
  obtain ⟨start, onward, hcuts, hcolumn⟩ := hbefore.cutsLine hline hseam htext
  have hcaret : ∀ n, e.CaretBehind (start ++ onward) n ↔ n = 4 + start.length := by
    intro n
    have hpos : 0 < (r.locationAt r.mark).column := by
      show (0 : Int) < (r.mark.column : Int)
      omega
    have hmargin : Diagnostic.caretMargin (r.locationAt r.mark).column = 4 + start.length := by
      show 4 + (r.mark.column : Int).toNat - 1 = 4 + start.length
      omega
    rw [SyntaxError.caretBehind_iff hcuts.line hbefore.location hpos, hmargin]
  refine ⟨start, onward, hcuts, hcaret, ?_⟩
  rw [hcaret, ← Glyph.length_decode_eq_iff]
  omega

/-- A stray byte in front, which is one character, and a wider one behind. -/
theorem caret_points_behind_stray_byte :
    let source := utf8 "int /* " ++ [0xFF] ++ utf8 " */ + /* é */ b;\r\n"
    let e : SyntaxError := .unexpected .identifier
      { lexeme := .operator .add, line := 1, column := 13, offset := 12, file := "<input>" }
      (some (utf8 "int /* " ++ [0xFF] ++ utf8 " */ + /* é */ b;")) none
    (({} : Options).parse source none).1 = .error (.refused e) ∧ e.HasText ∧
      ∃ start onward, e.CutsLine source start onward ∧
        e.CaretBehind (start ++ onward) (4 + (Glyph.decode start).length) := by
  intro source e
  have hreason : (({} : Options).parse source none).1.map (fun _ => ()) = .error (.refused e) := by
    decide +kernel
  have herror := eq_error_of_map hreason
  have hlive : e.HasText := by
    rintro t ⟨⟩
    rfl
  obtain ⟨start, onward, hcuts, -, hcaret⟩ := caret_points_iff_narrow_before (.inr herror) hlive
  have hnarrow : ∀ g ∈ Glyph.decode start, g.bytes.length = 1 := by
    rw [hcuts.start_eq]
    decide +kernel
  exact ⟨herror, hlive, start, onward, hcuts, hcaret.mpr hnarrow⟩

/-- Behind a character of two bytes the caret stands one place too far to the right. -/
theorem caret_misses_behind_wide_character :
    let source := utf8 "/* é */ @"
    let e : SyntaxError := .invalidByte 64 9 (some { file := "<input>", line := 1, column := 10 })
      (some source) none none
    (({} : Options).tokenize source none).1 = .error e ∧ e.HasText ∧
      e.CutsLine source (utf8 "/* é */ ") (utf8 "@") ∧ (Glyph.decode (utf8 "/* é */ ")).length = 8 ∧
      e.CaretBehind source 13 ∧ ¬ e.CaretBehind source (4 + 8) := by
  intro source e
  have herror : (({} : Options).tokenize source none).1 = .error e := by decide +kernel
  have hlive : e.HasText := by simp [SyntaxError.HasText, SyntaxError.found?, e]
  have hcuts : e.CutsLine source (utf8 "/* é */ ") (utf8 "@") := {
    start_eq := by decide +kernel
    line := by decide +kernel
    begins := ⟨64, by decide +kernel, .of_byte? rfl⟩
    glyphs := by decide +kernel }
  have hcaret : ∀ n, e.CaretBehind source n ↔ n = 13 := fun n =>
    SyntaxError.caretBehind_iff (n := n) (e := e) rfl rfl (by decide)
  refine ⟨herror, hlive, hcuts, by decide +kernel, (hcaret 13).mpr rfl, ?_⟩
  rw [hcaret]
  decide

end Options

end MiniC
