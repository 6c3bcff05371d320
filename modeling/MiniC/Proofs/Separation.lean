/-
# MiniC.Proofs.Separation — where written lexemes have to be kept apart.

Lexemes written one after another are read back as they were written if each ends where it was meant
to end.  Most of them do by themselves.  Blanks are needed between a word and a word byte, between a
number and a digit, between one of `= > < !` and an `=`, and between a slash and what would make a
comment of it; and a preprocessor text takes all of its line, so behind it a line has to end.

These conditions are about neighbours only, but they decide about the whole text: `Separated` holds of a
written list if and only if it is read back as the same lexemes, each where it was written.
-/
import MiniC.Proofs.Tiling

namespace MiniC

/-! ## What a lexeme takes with it -/

/-- The second byte of `==`, `>=`, `<=` and `!=`. -/
def Byte.equalSign : UInt8 := 61

namespace Operator

/-- With an equals sign behind it, this is the spelling of another operator. -/
def grows : Operator → Bool
  | .assign | .greater | .less | .logicNot => true
  | _ => false

/-- One operator begins with another in no other way. -/
theorem grows_of_isPrefix {o o' : Operator} (h : utf8 o.spelling <+: utf8 o'.spelling)
    (hlen : (utf8 o.spelling).length < (utf8 o'.spelling).length) :
    o.grows = true ∧ utf8 o'.spelling = utf8 o.spelling ++ [Byte.equalSign] := by
  have hall : ∀ o ∈ all, ∀ o' ∈ all, utf8 o.spelling <+: utf8 o'.spelling →
      (utf8 o.spelling).length < (utf8 o'.spelling).length →
      o.grows = true ∧ utf8 o'.spelling = utf8 o.spelling ++ [Byte.equalSign] := by
    decide +kernel
  exact hall o o.mem_all o' o'.mem_all h hlen

theorem exists_of_grows {o : Operator} (h : o.grows = true) :
    ∃ o' : Operator, utf8 o'.spelling = utf8 o.spelling ++ [Byte.equalSign] := by
  cases o with
  | assign => exact ⟨.equal, rfl⟩
  | greater => exact ⟨.greaterEqual, rfl⟩
  | less => exact ⟨.lessEqual, rfl⟩
  | logicNot => exact ⟨.notEqual, rfl⟩
  | _ => cases h

/-- Whether an operator is the longest one that fits shows in the byte behind it. -/
theorem longest_iff {o : Operator} {after : Bytes} :
    (∀ o' : Operator, utf8 o'.spelling <+: utf8 o.spelling ++ after →
      (utf8 o'.spelling).length ≤ (utf8 o.spelling).length) ↔
    (o.grows = true → after.head? ≠ some Byte.equalSign) := by
  constructor
  · intro hlongest hgrows hhead
    obtain ⟨o', ho'⟩ := exists_of_grows hgrows
    obtain ⟨rest, rfl⟩ := List.head?_eq_some_iff.mp hhead
    have hle := hlongest o' ⟨rest, by rw [ho', List.append_assoc, List.singleton_append]⟩
    rw [ho', List.length_append, List.length_singleton] at hle
    omega
  · intro hhead o' hpre
    apply Nat.le_of_not_lt
    intro hlen
    have hshort := List.prefix_of_prefix_length_le (List.prefix_append _ after) hpre
      (Nat.le_of_lt hlen)
    obtain ⟨hgrows, heq⟩ := grows_of_isPrefix hshort hlen
    rw [heq, List.prefix_append_right_inj] at hpre
    obtain ⟨rest, rfl⟩ := hpre
    exact hhead hgrows rfl

end Operator

namespace Lexeme

variable {l : Lexeme} {after : Bytes}

/-- Right behind the lexeme, this byte would be read as one with it. -/
def absorbs : Lexeme → UInt8 → Bool
  | .keyword _, b | .identifier _, b => Byte.isWordByte b
  | .number _, b => Byte.isDigit b
  | .operator o, b =>
    o.grows && b == Byte.equalSign || o == .division && (b == Byte.slash || b == Byte.star)
  | _, _ => false

/-- With nothing between them, the first lexeme would take what the second begins with. -/
def clings (l next : Lexeme) : Bool := next.spelling.head?.any l.absorbs

/-- No lexeme takes a blank with it, a preprocessor text apart. -/
theorem absorbs_blank (l : Lexeme) {b : UInt8} (hb : Byte.isBlank b = true) : l.absorbs b = false := by
  obtain ⟨hword, hdigit⟩ := Byte.not_word_of_isBlank hb
  have hsign : ∀ c, Byte.isBlank c = false → b ≠ c := by
    rintro c hc rfl
    rw [hb] at hc
    cases hc
  cases l <;> simp [absorbs, hword, hdigit, hsign Byte.equalSign rfl, hsign Byte.slash rfl,
    hsign Byte.star rfl]

theorem endsGap_spelling_iff (h : l.isLegal = true) :
    EndsGap (l.spelling ++ after) ↔
      (l = .operator .division → ∀ b ∈ after.head?, b ≠ Byte.slash ∧ b ≠ Byte.star) := by
  constructor
  · rintro hends rfl b hb
    obtain ⟨rest, rfl⟩ := List.head?_eq_some_iff.mp hb
    refine ⟨?_, ?_⟩
    · rintro rfl
      exact hends.line ⟨rest, rfl⟩
    · rintro rfl
      exact hends.block ⟨rest, rfl⟩
  · intro hafter
    obtain ⟨b, rest, hspelling, hblank, hslash⟩ := exists_spelling h
    -- Only a division begins with a slash, and then the second byte of a comment is not its own.
    have hopens : ∀ c, (c = Byte.slash ∨ c = Byte.star) →
        ¬ [Byte.slash, c] <+: l.spelling ++ after := by
      intro c hc hpre
      rw [hspelling, List.cons_append, List.cons_prefix_cons] at hpre
      obtain rfl := hslash hpre.1.symm
      obtain ⟨-, rfl⟩ := List.cons.inj hspelling
      obtain ⟨later, rfl⟩ := hpre.2
      have hne := hafter rfl c rfl
      rcases hc with rfl | rfl
      · exact hne.1 rfl
      · exact hne.2 rfl
    refine ⟨?_, hopens _ (.inl rfl), hopens _ (.inr rfl)⟩
    rw [hspelling]
    rintro _ ⟨⟩
    exact hblank

/-! A word, a number or an operator is the longest of its class if the byte behind it does not go on with
it. -/

theorem isLexeme_keyword_iff {k : Keyword} :
    IsLexeme (.keyword k) (utf8 k.spelling) after ↔
      ∀ b ∈ after.head?, Byte.isWordByte b = false := by
  have hall : ∀ b ∈ utf8 k.spelling, Byte.isWordByte b = true := by cases k <;> decide +kernel
  constructor
  · intro hlexeme
    cases hlexeme with
    | keyword hrun => exact hrun.longest
  · exact fun hlongest => .keyword ⟨hall, hlongest⟩

theorem isLexeme_identifier_iff {word : Bytes} (h : isLegal (.identifier (some word)) = true) :
    IsLexeme (.identifier (some word)) word after ↔
      ∀ b ∈ after.head?, Byte.isWordByte b = false := by
  simp only [isLegal, Bool.and_eq_true, Option.isNone_iff_eq_none, List.all_eq_true] at h
  have hnone : ∀ k : Keyword, utf8 k.spelling ≠ word := by
    rcases ofWord_cases word with ⟨k, -, hk⟩ | ⟨hnone, -⟩
    · simp [ofWord, h.2] at hk
    · exact hnone
  constructor
  · intro hlexeme
    cases hlexeme with
    | identifier _ hrun _ => exact hrun.longest
  · exact fun hlongest => .identifier h.1.1 ⟨h.1.2, hlongest⟩ hnone

theorem isLexeme_number_iff {digits : Bytes} (h : isLegal (.number (some digits)) = true) :
    IsLexeme (.number (some digits)) digits after ↔ ∀ b ∈ after.head?, Byte.isDigit b = false := by
  simp only [isLegal, Bool.and_eq_true, Bool.not_eq_true', List.isEmpty_eq_false_iff,
    List.all_eq_true] at h
  constructor
  · intro hlexeme
    cases hlexeme with
    | number _ hrun => exact hrun.longest
  · exact fun hlongest => .number h.1 ⟨h.2, hlongest⟩

theorem isLexeme_operator_iff {o : Operator} :
    IsLexeme (.operator o) (utf8 o.spelling) after ↔
      (o.grows = true → after.head? ≠ some Byte.equalSign) := by
  rw [← Operator.longest_iff]
  constructor
  · intro hlexeme
    cases hlexeme with
    | operator hlongest => exact hlongest
  · exact .operator

/-- A legal lexeme, other than a preprocessor text, stands where it is spelled if it does not take the
byte behind it. -/
theorem stands_iff (h : l.isLegal = true) (hkind : l.kind ≠ .preprocessor) :
    IsLexeme l l.spelling after ∧ EndsGap (l.spelling ++ after) ↔
      ∀ b ∈ after.head?, l.absorbs b = false := by
  rw [endsGap_spelling_iff h]
  cases l with
  | keyword k => simp [spelling, isLexeme_keyword_iff, absorbs]
  | identifier word =>
      cases word with
      | none => cases h
      | some word => simp [spelling, isLexeme_identifier_iff h, absorbs]
  | number digits =>
      cases digits with
      | none => cases h
      | some digits => simp [spelling, isLexeme_number_iff h, absorbs]
  | operator o =>
      rw [spelling, isLexeme_operator_iff]
      cases after with
      | nil => simp
      | cons b after =>
          simp only [List.head?_cons, Option.mem_some_iff, forall_eq', Lexeme.operator.injEq, absorbs,
            ne_eq, Option.some.injEq]
          grind
  | bracket b => simp [absorbs, IsLexeme.bracket, spelling]
  | comma text =>
      cases text with
      | none => simp [absorbs, IsLexeme.comma, spelling]
      | some text => cases h
  | semicolon text =>
      cases text with
      | none => simp [absorbs, IsLexeme.semicolon, spelling]
      | some text => cases h
  | preprocessor => exact absurd rfl hkind
  | endOfStream => cases h

end Lexeme

/-! ## Written lexemes -/

/-- A legal lexeme, and the blanks that are written behind it. -/
structure Written where
  lexeme : Lexeme
  blanks : Bytes
  legal : lexeme.isLegal = true
  blank : blanks.all Byte.isBlank = true

namespace Written

/-- Spellings and blanks, one after another. -/
def text (ws : List Written) : Bytes := ws.flatMap fun w => w.lexeme.spelling ++ w.blanks

/-- The lexemes and where they are written, if the first of them is written at `offset`. -/
def startsFrom : Nat → List Written → List (Lexeme × Int)
  | _, [] => []
  | offset, w :: ws =>
    (w.lexeme, (offset : Int)) :: startsFrom (offset + w.lexeme.spelling.length + w.blanks.length) ws

/-- Carriage returns apart, the blanks begin with a line feed; where nothing comes next there may be
none. -/
def closesLine (blanks : Bytes) (next : Option Lexeme) : Bool :=
  match blanks.dropWhile (· == Byte.carriageReturn) with
  | [] => next.isNone
  | b :: _ => b == Byte.lineFeed

/-- The blanks keep a lexeme apart from what is written next. -/
structure Apart (w : Written) (next : Option Lexeme) : Prop where
  gap : next.any w.lexeme.clings = true → w.blanks ≠ []
  line : w.lexeme.kind = .preprocessor → closesLine w.blanks next = true

instance (w : Written) (next : Option Lexeme) : Decidable (w.Apart next) :=
  decidable_of_iff ((next.any w.lexeme.clings = true → w.blanks ≠ []) ∧
    (w.lexeme.kind = .preprocessor → closesLine w.blanks next = true))
    ⟨fun h => ⟨h.1, h.2⟩, fun h => ⟨h.1, h.2⟩⟩

/-- Every lexeme is kept apart from the next one. -/
def Separated : List Written → Prop
  | [] => True
  | w :: ws => w.Apart (ws.head?.map Written.lexeme) ∧ Separated ws

instance Separated.decidable : (ws : List Written) → Decidable (Separated ws)
  | [] => .isTrue trivial
  | w :: ws =>
    have := Separated.decidable ws
    inferInstanceAs (Decidable (w.Apart (ws.head?.map Written.lexeme) ∧ Separated ws))

@[simp] theorem text_cons (w : Written) (ws : List Written) :
    text (w :: ws) = w.lexeme.spelling ++ (w.blanks ++ text ws) := by
  simp [text]

theorem head?_text (ws : List Written) :
    (text ws).head? = (ws.head?.map lexeme).bind (·.spelling.head?) := by
  cases ws with
  | nil => rfl
  | cons w ws =>
      obtain ⟨b, rest, hspelling, -, -⟩ := Lexeme.exists_spelling w.legal
      simp [hspelling]

/-- No blank stands where a lexeme is written. -/
theorem isBlank_head_text {ws : List Written} : ∀ b ∈ (text ws).head?, Byte.isBlank b = false := by
  cases ws with
  | nil => simp [text]
  | cons w ws =>
      obtain ⟨b, rest, hspelling, hblank, -⟩ := Lexeme.exists_spelling w.legal
      simpa [hspelling] using hblank

/-! ## Neighbours decide -/

/-- What is read as the lexeme, with `after` behind the blanks: its spelling, and carriage returns
behind a preprocessor text.  The other blanks are left. -/
structure Cut (w : Written) (after text rest : Bytes) : Prop where
  split : w.lexeme.spelling ++ w.blanks = text ++ rest
  isLexeme : IsLexeme w.lexeme text (rest ++ after)
  endsGap : EndsGap (text ++ (rest ++ after))

variable {w : Written} {ws : List Written} {next : Option Lexeme} {blanks : Bytes}

theorem exists_preprocessor (hkind : w.lexeme.kind = .preprocessor) :
    ∃ text, w.lexeme = .preprocessor (some text) ∧ text.head? = some Byte.hash ∧
      Byte.lineFeed ∉ text ∧ text.getLast? ≠ some Byte.carriageReturn := by
  obtain ⟨l, _, hlegal, _⟩ := w
  cases l with
  | preprocessor text =>
      cases text with
      | none => cases hlegal
      | some text =>
          simp only [Lexeme.isLegal, Bool.and_eq_true, beq_iff_eq, bne_iff_ne] at hlegal
          refine ⟨text, rfl, hlegal.1.1, fun hmem => ?_, hlegal.2⟩
          have hne := List.all_eq_true.mp hlegal.1.2 _ hmem
          simp at hne
  | _ => cases hkind

/-- The blanks close the line if behind carriage returns nothing is left of it. -/
theorem closesLine_iff :
    closesLine blanks (ws.head?.map lexeme) = true ↔
      ∃ n rest, blanks = List.replicate n Byte.carriageReturn ++ rest ∧ EndsLine (rest ++ text ws) := by
  constructor
  · intro h
    obtain ⟨n, hreturns⟩ := Bytes.exists_leading_returns blanks
    refine ⟨n, _, hreturns, ?_⟩
    unfold closesLine at h
    split at h
    · next hnil =>
        rw [hnil]
        cases ws with
        | nil => simp [EndsLine, text]
        | cons w ws => cases h
    · next b rest hcons =>
        rw [hcons]
        rintro _ ⟨⟩
        exact beq_iff_eq.mp h
  · rintro ⟨n, rest, rfl, hends⟩
    unfold closesLine
    rw [Bytes.dropWhile_returns_append]
    cases rest with
    | nil =>
        cases ws with
        | nil => rfl
        | cons w ws =>
            obtain ⟨b, rest, hspelling, hblank, -⟩ := Lexeme.exists_spelling w.legal
            have hb := hends b (by simp [hspelling])
            rw [hb] at hblank
            cases hblank
    | cons b rest =>
        obtain rfl := hends b rfl
        rfl

/-- Behind a preprocessor text only the line matters. -/
theorem apart_iff_cut_of_preprocessor (hkind : w.lexeme.kind = .preprocessor) :
    w.Apart (ws.head?.map lexeme) ↔ ∃ text rest, w.Cut (Written.text ws) text rest := by
  obtain ⟨line, hlexeme, hhead, hfeed, hlast⟩ := exists_preprocessor hkind
  have hspelling : w.lexeme.spelling = line := by
    rw [hlexeme]
    rfl
  have hclings : (ws.head?.map lexeme).any w.lexeme.clings = false := by
    have hnone : ∀ next : Lexeme, w.lexeme.clings next = false := by
      intro next
      rw [hlexeme]
      cases hnext : next.spelling.head? <;> simp [Lexeme.clings, Lexeme.absorbs, hnext]
    cases ws <;> simp [hnone]
  constructor
  · intro h
    obtain ⟨n, rest, hblanks, hends⟩ := closesLine_iff.mp (h.line hkind)
    refine ⟨line ++ List.replicate n Byte.carriageReturn, rest, ?_, ?_, ?_⟩
    · rw [hspelling, hblanks, List.append_assoc]
    · rw [hlexeme]
      exact .preprocessor n hhead hfeed hlast hends
    · rw [List.append_assoc, ← hspelling, Lexeme.endsGap_spelling_iff w.legal, hlexeme]
      simp
  · rintro ⟨text, rest, hsplit, hisLexeme, -⟩
    refine ⟨by simp [hclings], fun _ => closesLine_iff.mpr ?_⟩
    rw [hspelling] at hsplit
    rw [hlexeme] at hisLexeme
    cases hisLexeme with
    | preprocessor n _ _ _ hends =>
        rw [List.append_assoc] at hsplit
        exact ⟨n, rest, List.append_cancel_left hsplit, hends⟩

/-- Behind any other lexeme only the next byte matters, and a blank does no harm. -/
theorem apart_iff_absorbs (hkind : w.lexeme.kind ≠ .preprocessor) :
    w.Apart (ws.head?.map lexeme) ↔
      ∀ b ∈ (w.blanks ++ text ws).head?, w.lexeme.absorbs b = false := by
  have hapart : w.Apart (ws.head?.map lexeme) ↔
      ((ws.head?.map lexeme).any w.lexeme.clings = true → w.blanks ≠ []) :=
    ⟨fun h => h.gap, fun h => ⟨h, fun h => absurd h hkind⟩⟩
  rw [hapart]
  cases hblanks : w.blanks with
  | nil =>
      rw [List.nil_append, head?_text]
      cases ws.head? with
      | none => simp
      | some next =>
          cases hhead : next.lexeme.spelling.head? <;> simp [Lexeme.clings, hhead]
  | cons b blanks =>
      have hb : Byte.isBlank b = true := List.all_eq_true.mp w.blank b (by simp [hblanks])
      simp [w.lexeme.absorbs_blank hb]

end Written

theorem IsGap.of_blanks {gap after : Bytes} (h : gap.all Byte.isBlank = true) :
    IsGap gap after := by
  induction gap with
  | nil => exact .nil
  | cons b gap ih =>
      rw [List.all_cons, Bool.and_eq_true] at h
      exact .blank h.1 (ih h.2)

/-- The text of a lexeme is its spelling, with carriage returns behind a preprocessor text. -/
theorem IsLexeme.exists_returns {l : Lexeme} {text after : Bytes} (h : IsLexeme l text after) :
    ∃ n, text = l.spelling ++ List.replicate n Byte.carriageReturn ∧
      (l.kind ≠ .preprocessor → n = 0) := by
  cases h with
  | preprocessor n => exact ⟨n, rfl, fun hkind => absurd rfl hkind⟩
  | _ => exact ⟨0, (List.append_nil _).symm, fun _ => rfl⟩

namespace Written

variable {w : Written} {ws : List Written} {lead : Bytes} {T : Tiling} {k : Nat}

/-- Whether a lexeme can be cut off shows in what is written next. -/
theorem apart_iff_cut :
    w.Apart (ws.head?.map lexeme) ↔ ∃ text rest, w.Cut (Written.text ws) text rest := by
  by_cases hkind : w.lexeme.kind = .preprocessor
  · exact apart_iff_cut_of_preprocessor hkind
  · rw [apart_iff_absorbs hkind, ← Lexeme.stands_iff w.legal hkind]
    constructor
    · rintro ⟨hisLexeme, hends⟩
      exact ⟨_, _, rfl, hisLexeme, hends⟩
    · rintro ⟨text, rest, hsplit, hisLexeme, hends⟩
      obtain ⟨n, rfl, hn⟩ := hisLexeme.exists_returns
      obtain rfl := hn hkind
      simp only [List.replicate_zero, List.append_nil] at hsplit hisLexeme hends
      rw [List.append_cancel_left hsplit]
      exact ⟨hisLexeme, hends⟩

/-! ## The whole text -/

theorem Cut.blank {after text rest : Bytes} (h : w.Cut after text rest) :
    rest.all Byte.isBlank = true := by
  obtain ⟨n, rfl, -⟩ := h.isLexeme.exists_returns
  have hsplit := h.split
  rw [List.append_assoc] at hsplit
  have hblank := w.blank
  rw [List.append_cancel_left hsplit, List.all_append, Bool.and_eq_true] at hblank
  exact hblank.2

/-- Blanks that a text begins with belong to those before the first lexeme. -/
theorem exists_rest {blanks run after : Bytes} (hrun : run.all Byte.isBlank = true)
    (h : run ++ after = blanks ++ text ws) : ∃ rest, blanks = run ++ rest ∧ after = rest ++ text ws := by
  rcases List.append_eq_append_iff.mp h with ⟨rest, hblanks, hafter⟩ | ⟨extra, hextra, htext⟩
  · exact ⟨rest, hblanks, hafter⟩
  · cases extra with
    | nil => exact ⟨[], by simpa using hextra.symm, by simpa using htext.symm⟩
    | cons b extra =>
        have hblank : Byte.isBlank b = true := List.all_eq_true.mp hrun b (by simp [hextra])
        have hhead : b ∈ (text ws).head? := by simp [htext]
        rw [isBlank_head_text b hhead] at hblank
        cases hblank

/-- Where all lexemes are kept apart, spellings and blanks cut up the text fitly. -/
theorem exists_fits (h : Separated ws) (hlead : lead.all Byte.isBlank = true) :
    ∃ T : Tiling, T.Fits ∧ T.text = lead ++ text ws ∧
      ∀ k, Tiling.startsFrom k T.tiles = startsFrom (k + lead.length) ws := by
  induction ws generalizing lead with
  | nil => exact ⟨⟨[], lead⟩, .last (.of_blanks hlead), by simp [text], fun _ => rfl⟩
  | cons w ws ih =>
      -- The blanks that are not read with this lexeme are those before the next one.
      obtain ⟨piece, rest, hcut⟩ := apart_iff_cut.mp h.1
      obtain ⟨T, hT, htext, hstarts⟩ := ih h.2 hcut.blank
      refine ⟨⟨⟨lead, piece, w.lexeme⟩ :: T.tiles, T.last⟩, ?_, ?_, fun k => ?_⟩
      · exact .tile (.of_blanks hlead) (htext ▸ hcut.endsGap) (htext ▸ hcut.isLexeme) hT
      · rw [Tiling.text_cons, htext, text_cons, ← List.append_assoc piece, ← hcut.split,
          List.append_assoc w.lexeme.spelling]
      · have hlength := congrArg List.length hcut.split
        rw [List.length_append, List.length_append] at hlength
        rw [Tiling.startsFrom, hstarts, startsFrom, Nat.add_assoc _ w.lexeme.spelling.length, hlength,
          Nat.add_assoc _ piece.length]

/-- A text that is cut up fitly where its lexemes are written has them kept apart. -/
theorem separated_of_fits (h : T.Fits) (htext : T.text = lead ++ text ws)
    (hstarts : Tiling.startsFrom k T.tiles = startsFrom (k + lead.length) ws) : Separated ws := by
  induction ws generalizing T lead k with
  | nil => trivial
  | cons w ws ih =>
      cases h with
      | last => cases hstarts
      | @tile x T hgap hends hlexeme hT =>
          rw [Tiling.startsFrom, startsFrom, List.cons.injEq, Prod.mk.injEq] at hstarts
          obtain ⟨⟨hlexemes, hoffset⟩, hstarts⟩ := hstarts
          rw [Tiling.text_cons, text_cons] at htext
          obtain ⟨hlead, htext⟩ := List.append_inj htext (by omega)
          rw [hlexemes] at hlexeme
          -- What is read as the lexeme ends within the blanks, where the next one is not yet written.
          obtain ⟨n, hx, -⟩ := hlexeme.exists_returns
          have hrest := htext
          rw [hx, List.append_assoc, List.append_cancel_left_eq] at hrest
          obtain ⟨rest, hblanks, hT'⟩ := exists_rest (by simp [Byte.carriageReturn, Byte.isBlank]) hrest
          have hcut : w.Cut (text ws) x.text rest := by
            refine ⟨?_, hT' ▸ hlexeme, hT' ▸ hends⟩
            rw [hx, hblanks, List.append_assoc]
          refine ⟨apart_iff_cut.mpr ⟨_, _, hcut⟩, ih hT hT' (k := k + x.gap.length + x.text.length) ?_⟩
          have hlength := congrArg List.length hcut.split
          rw [List.length_append, List.length_append] at hlength
          rw [hstarts]
          congr 1
          omega

end Written

namespace Options

variable (o : Options) (name : Option String)

theorem tokenize_of_fits {T : Tiling} (h : T.Fits) :
    ∃ tokens, (o.tokenize T.text name).1 = .ok tokens ∧ tokens.map Token.placed = T.starts := by
  obtain ⟨ts, mark, hholds, hplaced⟩ :=
    Reader.holds_of_fits (r := Reader.new T.text (o.fileName name)) h rfl
  refine ⟨ts ++ [mark], (o.tokenize_eq_ok_iff T.text name).mpr ⟨ts, mark, hholds, rfl⟩, ?_⟩
  rw [hplaced, Tiling.starts]
  simp [Reader.new]

theorem exists_fits_of_tokenize {source : Bytes} {tokens : List Token}
    (h : (o.tokenize source name).1 = .ok tokens) :
    ∃ T : Tiling, T.Fits ∧ T.text = source ∧ tokens.map Token.placed = T.starts := by
  obtain ⟨ts, mark, hholds, -⟩ := (o.tokenize_eq_ok_iff source name).mp h
  obtain ⟨T, hT, htext⟩ := Reader.exists_fits_of_holds hholds
  obtain rfl : T.text = source := htext
  obtain ⟨tokens', htokens, hstarts⟩ := o.tokenize_of_fits name hT
  rw [h] at htokens
  obtain rfl := Except.ok.inj htokens
  exact ⟨T, hT, rfl, hstarts⟩

/-- Legal lexemes written one after another, with blanks before, between and behind them, are read as
just these lexemes and the end mark, each where it was written, if and only if they are kept apart
(`Written.Separated`):

* there are blanks between a keyword or a name and a word byte, between a number and a digit, between
  one of `= > < !` and `=`, and between a slash and a slash or a star;
* the blanks behind a preprocessor text begin with a line feed, carriage returns before it apart. -/
theorem written_reads_back_iff_separated {lead : Bytes} (hlead : lead.all Byte.isBlank = true)
    (ws : List Written) :
    (∃ tokens, (o.tokenize (lead ++ Written.text ws) name).1 = .ok tokens ∧
      tokens.map Token.placed = Written.startsFrom lead.length ws
        ++ [(.endOfStream none, ((lead ++ Written.text ws).length : Int))]) ↔
    Written.Separated ws := by
  constructor
  · rintro ⟨tokens, htokens, hplaced⟩
    obtain ⟨T, hT, htext, hstarts⟩ := o.exists_fits_of_tokenize name htokens
    rw [hplaced, Tiling.starts, htext] at hstarts
    refine Written.separated_of_fits (k := 0) hT htext ?_
    rw [Nat.zero_add]
    exact (List.append_cancel_right hstarts).symm
  · intro h
    obtain ⟨T, hT, htext, hstarts⟩ := Written.exists_fits h hlead
    obtain ⟨tokens, htokens, hplaced⟩ := o.tokenize_of_fits name hT
    rw [htext] at htokens
    refine ⟨tokens, htokens, ?_⟩
    rw [hplaced, Tiling.starts, hstarts, htext, Nat.zero_add]

/-- Signs that need no blanks between them, and a name right behind a number. -/
theorem signs_without_blanks_read_back : ∃ tokens,
    (({} : Options).tokenize (utf8 " 12ab>===*/!!=&&&&\n#x\r\n") none).1 = .ok tokens ∧
      tokens.map Token.placed =
        [(.number (some (utf8 "12")), 1), (.identifier (some (utf8 "ab")), 3),
          (.operator .greaterEqual, 5), (.operator .equal, 7), (.operator .mul, 9),
          (.operator .division, 10), (.operator .logicNot, 11), (.operator .notEqual, 12),
          (.operator .logicAnd, 14), (.operator .logicAnd, 16),
          (.preprocessor (some (utf8 "#x")), 19), (.endOfStream none, 23)] := by
  let ws : List Written :=
    [⟨.number (some (utf8 "12")), [], by decide, rfl⟩, ⟨.identifier (some (utf8 "ab")), [], by decide, rfl⟩,
      ⟨.operator .greaterEqual, [], rfl, rfl⟩, ⟨.operator .equal, [], rfl, rfl⟩,
      ⟨.operator .mul, [], rfl, rfl⟩, ⟨.operator .division, [], rfl, rfl⟩,
      ⟨.operator .logicNot, [], rfl, rfl⟩, ⟨.operator .notEqual, [], rfl, rfl⟩,
      ⟨.operator .logicAnd, [], rfl, rfl⟩, ⟨.operator .logicAnd, [Byte.lineFeed], rfl, rfl⟩,
      ⟨.preprocessor (some (utf8 "#x")), [Byte.carriageReturn, Byte.lineFeed], by decide, rfl⟩]
  have hseparated : Written.Separated ws := by decide +kernel
  have hlead : [Byte.space].all Byte.isBlank = true := rfl
  exact (written_reads_back_iff_separated {} none hlead ws).mpr hseparated

end Options

end MiniC
