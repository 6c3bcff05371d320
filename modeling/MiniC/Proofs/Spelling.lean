/-
# MiniC.Proofs.Spelling — lexemes written out and read back.

Every lexeme that a source can hold has a spelling.  Spellings put down one after another, each on a
line of its own, are read back as the same lexemes: a line feed ends every lexeme, and no lexeme of
its own line is taken for a comment.  In the other direction, what a reader delivers is always a
lexeme of this kind or the end mark, so any stream that was read can be written down again.
-/
import MiniC.Proofs.Acceptance

namespace MiniC

/-! ## Legal lexemes -/

namespace Lexeme

/-- A lexeme that some source holds.  The end mark is none: it is read where the source ends. -/
def isLegal : Lexeme → Bool
  | .keyword _ | .operator _ | .bracket _ | .comma none | .semicolon none => true
  | .identifier (some word) =>
    word.head?.any Byte.isWordStart && word.all Byte.isWordByte
      && (Keyword.ofSpelling? word).isNone
  | .number (some digits) => !digits.isEmpty && digits.all Byte.isDigit
  | .preprocessor (some text) =>
    text.head? == some Byte.hash && text.all (· != Byte.lineFeed)
      && text.getLast? != some Byte.carriageReturn
  | _ => false

/-- How a legal lexeme is written. -/
def spelling : Lexeme → Bytes
  | .keyword k => utf8 k.spelling
  | .operator o => utf8 o.spelling
  | .bracket b => utf8 b.spelling
  | .comma _ => [Byte.comma]
  | .semicolon _ => [Byte.semicolon]
  | .identifier text | .number text | .preprocessor text => text.getD []
  | .endOfStream _ => []

end Lexeme

theorem Token.live_of_isLegal {t : Token} (h : t.lexeme.isLegal = true) : t.atEnd = false := by
  obtain ⟨lexeme, _, _, _, _⟩ := t
  cases lexeme with
  | endOfStream => cases h
  | _ => rfl

/-! ## What is read is legal -/

namespace Bytes

variable {bs : Bytes}

theorem getLast?_trimReturns : (trimReturns bs).getLast? ≠ some Byte.carriageReturn := by
  intro h
  rw [trimReturns, List.getLast?_reverse] at h
  have hfirst := List.head?_dropWhile_not (· == Byte.carriageReturn) bs.reverse
  rw [h] at hfirst
  simp at hfirst

theorem trimReturns_eq_self (h : bs.getLast? ≠ some Byte.carriageReturn) : trimReturns bs = bs := by
  rw [← List.head?_reverse] at h
  rw [trimReturns, ← List.reverse_inj, List.reverse_reverse]
  cases hrev : bs.reverse with
  | nil => rfl
  | cons b cs =>
      have hb : b ≠ Byte.carriageReturn := by simpa [hrev] using h
      exact List.dropWhile_cons_of_neg (by simpa using hb)

theorem mem_of_mem_trimReturns {b : UInt8} (h : b ∈ trimReturns bs) : b ∈ bs := by
  rw [trimReturns, List.mem_reverse] at h
  exact List.mem_reverse.mp ((List.dropWhile_sublist _).subset h)

theorem head?_trimReturns {b : UInt8} (hb : b ≠ Byte.carriageReturn) :
    (trimReturns (b :: bs)).head? = some b := by
  rw [trimReturns, List.reverse_cons, List.dropWhile_append]
  split
  · simp [hb]
  · simp

end Bytes

namespace Munch

variable {b : UInt8} {text rest : Bytes} {m : Munch}

theorem isLegal_preprocessor : (preprocessor (Byte.hash :: text)).lexeme.isLegal = true := by
  have hhead : (Bytes.trimReturns (Bytes.firstLine (Byte.hash :: text))).head?
      = some Byte.hash := by
    have hfirst : Bytes.firstLine (Byte.hash :: text) = Byte.hash :: Bytes.firstLine text := rfl
    rw [hfirst]
    exact Bytes.head?_trimReturns (by decide)
  have hline : ∀ b ∈ Bytes.trimReturns (Bytes.firstLine (Byte.hash :: text)),
      (b != Byte.lineFeed) = true := by
    intro b hb
    have hall : (Bytes.firstLine (Byte.hash :: text)).all (· != Byte.lineFeed) = true :=
      List.all_takeWhile
    exact List.all_eq_true.mp hall b (Bytes.mem_of_mem_trimReturns hb)
  simp only [preprocessor, Lexeme.isLegal, Bool.and_eq_true, beq_iff_eq, bne_iff_ne]
  exact ⟨⟨hhead, List.all_eq_true.mpr hline⟩, Bytes.getLast?_trimReturns⟩

theorem isLegal_word (h : Byte.isWordStart b = true) : (word (b :: text)).lexeme.isLegal = true := by
  have hrun : (b :: text).takeWhile Byte.isWordByte = b :: text.takeWhile Byte.isWordByte := by
    simp [Byte.isWordByte, h]
  have hall : ((b :: text).takeWhile Byte.isWordByte).all Byte.isWordByte = true :=
    List.all_takeWhile
  rw [hrun] at hall
  simp only [word, hrun, Lexeme.ofWord]
  split
  · rfl
  · next hnone => simp only [Lexeme.isLegal, List.head?_cons, Option.any_some, h, hall, hnone,
      Option.isNone_none, Bool.and_self]

theorem isLegal_number (h : Byte.isDigit b = true) : (number (b :: text)).lexeme.isLegal = true := by
  have hrun : (b :: text).takeWhile Byte.isDigit = b :: text.takeWhile Byte.isDigit := by simp [h]
  have hall : ((b :: text).takeWhile Byte.isDigit).all Byte.isDigit = true := List.all_takeWhile
  rw [hrun] at hall
  simp only [number, hrun, Lexeme.isLegal, List.isEmpty_cons, hall, Bool.not_false, Bool.and_self]

theorem isLegal_sign? (h : sign? text = some m) : m.lexeme.isLegal = true := by
  unfold sign? at h
  split at h
  · cases h
    rfl
  · split at h
    · cases h
      rfl
    · split at h
      · cases h
        rfl
      · split at h
        · cases h
          rfl
        · cases h

/-- The end mark is never read off a text. -/
theorem isLegal_first? (h : first? text = some m) : m.lexeme.isLegal = true := by
  cases text with
  | nil => cases h
  | cons b text =>
      simp only [first?] at h
      split at h
      · next hb =>
          cases h
          rw [hb]
          exact isLegal_preprocessor
      · split at h
        · next hb =>
            cases h
            exact isLegal_word hb
        · split at h
          · next hb =>
              cases h
              exact isLegal_number hb
          · exact isLegal_sign? h

end Munch

/-! ## One answer of a reader -/

namespace Reader

variable {r r' : Reader} {t : Token} {ts : List Token}

/-- A token comes from behind a gap: the end mark if nothing is left there, else a legal lexeme. -/
theorem next_ok_cases (h : r.next = (.ok t, r')) :
    (∃ m, Gap.scan .between r.mark r.rest = .clear m [] ∧
      t = r.tokenAt m (.endOfStream none) ∧ r' = { r with mark := m, rest := [] }) ∨
    ∃ m text munch, Gap.scan .between r.mark r.rest = .clear m text ∧
      Munch.first? text = some munch ∧ t = r.tokenAt m munch.lexeme ∧
      r' = { r with
        mark := m.past (text.take munch.length), rest := text.drop munch.length } := by
  unfold next at h
  split at h
  · cases h
  · next m hscan =>
      cases h
      exact .inl ⟨m, hscan, rfl, rfl⟩
  · next m b rest hscan =>
      split at h
      · next munch hmunch =>
          cases h
          exact .inr ⟨m, b :: rest, munch, hscan, hmunch, rfl, rfl⟩
      · cases h

theorem isLegal_of_next (h : r.next = (.ok t, r')) (hlive : t.atEnd = false) :
    t.lexeme.isLegal = true := by
  rcases next_ok_cases h with ⟨m, -, rfl, -⟩ | ⟨m, text, munch, -, hmunch, rfl, -⟩
  · cases hlive
  · exact Munch.isLegal_first? hmunch

/-- Behind the end mark the text is over. -/
theorem of_next_atEnd (h : r.next = (.ok t, r')) (hend : t.atEnd = true) :
    t.lexeme = .endOfStream none ∧ r'.rest = [] := by
  rcases next_ok_cases h with ⟨m, -, rfl, rfl⟩ | ⟨m, text, munch, -, hmunch, rfl, -⟩
  · exact ⟨rfl, rfl⟩
  · have hlive := Token.live_of_isLegal (t := r.tokenAt m munch.lexeme) (Munch.isLegal_first? hmunch)
    simp [hlive] at hend

theorem Delivers.isLegal (h : r.Delivers ts r') (hlive : ∀ t ∈ ts, t.atEnd = false) :
    ∀ t ∈ ts, t.lexeme.isLegal = true := by
  induction h with
  | nil => simp
  | cons hnext _ ih =>
      rw [List.forall_mem_cons] at hlive ⊢
      exact ⟨isLegal_of_next hnext hlive.1, ih hlive.2⟩

end Reader

/-! ## Spellings are read back -/

namespace Byte

variable {b : UInt8}

theorem ne_of_isWordStart (h : isWordStart b = true) :
    isBlank b = false ∧ b ≠ slash ∧ b ≠ hash := by
  simp only [isWordStart, isBlank, slash, hash, Bool.or_eq_true, Bool.and_eq_true, decide_eq_true_eq,
    beq_iff_eq, Bool.or_eq_false_iff, Bool.and_eq_false_iff, decide_eq_false_iff_not,
    beq_eq_false_iff_ne, UInt8.le_iff_toNat_le, ne_eq, ← UInt8.toNat_inj, UInt8.toNat_ofNat] at h ⊢
  omega

theorem ne_of_isDigit (h : isDigit b = true) :
    isBlank b = false ∧ b ≠ slash ∧ b ≠ hash ∧ isWordStart b = false := by
  simp only [isDigit, isWordStart, isBlank, slash, hash, Bool.and_eq_true, decide_eq_true_eq,
    Bool.or_eq_false_iff, Bool.and_eq_false_iff, decide_eq_false_iff_not, beq_eq_false_iff_ne,
    UInt8.le_iff_toNat_le, ne_eq, ← UInt8.toNat_inj, UInt8.toNat_ofNat] at h ⊢
  omega

/-- A blank ends every word and every number. -/
theorem not_word_of_isBlank (h : isBlank b = true) : isWordByte b = false ∧ isDigit b = false := by
  simp only [isBlank, isWordByte, isWordStart, isDigit] at h ⊢
  grind

end Byte

/-- All bytes of `run` are of the class, and the one behind them is not. -/
structure IsRun (among : UInt8 → Bool) (run after : Bytes) : Prop where
  all : ∀ b ∈ run, among b = true
  longest : ∀ b ∈ after.head?, among b = false

namespace IsRun

variable {among : UInt8 → Bool} {run after : Bytes}

theorem takeWhile (h : IsRun among run after) : (run ++ after).takeWhile among = run := by
  rw [List.takeWhile_append_of_pos h.all]
  cases after with
  | nil => simp
  | cons b after => rw [List.takeWhile_cons_of_neg (by simp [h.longest b rfl]), List.append_nil]

/-- A line feed ends a run. -/
theorem of_lineFeed (hall : run.all among = true) (hfeed : among Byte.lineFeed = false) :
    IsRun among run (Byte.lineFeed :: after) where
  all := List.all_eq_true.mp hall
  longest b hb := by
    obtain rfl : Byte.lineFeed = b := by simpa using hb
    exact hfeed

end IsRun

namespace Munch

variable {w rest : Bytes} {l : Lexeme}

theorem first?_word (hhead : w.head?.any Byte.isWordStart = true)
    (hrun : IsRun Byte.isWordByte w rest) :
    first? (w ++ rest) = some ⟨Lexeme.ofWord w, w.length⟩ := by
  have htake := hrun.takeWhile
  cases w with
  | nil => cases hhead
  | cons b w =>
      have hb : Byte.isWordStart b = true := by simpa using hhead
      rw [List.cons_append] at htake ⊢
      simp only [first?, (Byte.ne_of_isWordStart hb).2.2, hb, if_false, if_true, word, htake]

theorem first?_number (hne : w ≠ []) (hrun : IsRun Byte.isDigit w rest) :
    first? (w ++ rest) = some ⟨.number (some w), w.length⟩ := by
  have htake := hrun.takeWhile
  cases w with
  | nil => exact absurd rfl hne
  | cons b w =>
      obtain ⟨-, -, hhash, hstart⟩ := Byte.ne_of_isDigit (hrun.all b (by simp))
      have hb : Byte.isDigit b = true := hrun.all b (by simp)
      rw [List.cons_append] at htake ⊢
      simp only [first?, hhash, hstart, hb, Bool.false_eq_true, if_false, if_true, number, htake]

theorem first?_preprocessor (hhead : w.head? = some Byte.hash)
    (hrun : IsRun (· != Byte.lineFeed) w rest) :
    first? (w ++ rest) = some ⟨.preprocessor (some (Bytes.trimReturns w)), w.length⟩ := by
  have htake : Bytes.firstLine (w ++ rest) = w := hrun.takeWhile
  cases w with
  | nil => cases hhead
  | cons b w =>
      obtain rfl : b = Byte.hash := by simpa using hhead
      rw [List.cons_append] at htake ⊢
      simp only [first?, if_true, preprocessor, htake]

/-- A legal lexeme on a line of its own is read as what it is. -/
theorem first?_spelling (rest : Bytes) (h : l.isLegal = true) :
    first? (l.spelling ++ Byte.lineFeed :: rest) = some ⟨l, l.spelling.length⟩ := by
  unfold Lexeme.isLegal at h
  split at h
  · next k =>
      have hword : (utf8 k.spelling).head?.any Byte.isWordStart = true ∧
          (utf8 k.spelling).all Byte.isWordByte = true ∧
          Lexeme.ofWord (utf8 k.spelling) = .keyword k := by
        cases k <;> decide +kernel
      rw [Lexeme.spelling, first?_word hword.1 (.of_lineFeed hword.2.1 (by decide)), hword.2.2]
  · next o => cases o <;> rfl
  · next b => cases b <;> rfl
  · rfl
  · rfl
  · next w =>
      simp only [Bool.and_eq_true, Option.isNone_iff_eq_none] at h
      rw [Lexeme.spelling, Option.getD_some, first?_word h.1.1 (.of_lineFeed h.1.2 (by decide)),
        Lexeme.ofWord, h.2]
  · next w =>
      simp only [Bool.and_eq_true, Bool.not_eq_true', List.isEmpty_eq_false_iff] at h
      exact first?_number h.1 (.of_lineFeed h.2 (by decide))
  · next w =>
      simp only [Bool.and_eq_true, beq_iff_eq, bne_iff_ne] at h
      rw [Lexeme.spelling, Option.getD_some,
        first?_preprocessor h.1.1 (.of_lineFeed h.1.2 (by decide)), Bytes.trimReturns_eq_self h.2]
  · cases h

end Munch

/-- A spelling begins with a byte that is no blank, and with a slash only if it is one. -/
theorem Lexeme.exists_spelling {l : Lexeme} (h : l.isLegal = true) :
    ∃ b rest, l.spelling = b :: rest ∧ Byte.isBlank b = false ∧
      (b = Byte.slash → l = .operator .division) := by
  have hword : ∀ w : Bytes, w.head?.any Byte.isWordStart = true →
      ∃ b rest, w = b :: rest ∧ Byte.isBlank b = false ∧ b ≠ Byte.slash := by
    intro w hw
    cases w with
    | nil => cases hw
    | cons b rest =>
        obtain ⟨hblank, hslash, -⟩ := Byte.ne_of_isWordStart (b := b) (by simpa using hw)
        exact ⟨b, rest, rfl, hblank, hslash⟩
  unfold isLegal at h
  split at h
  · next k =>
      obtain ⟨b, rest, hk, hblank, hslash⟩ := hword (utf8 k.spelling) (by cases k <;> decide +kernel)
      exact ⟨b, rest, hk, hblank, fun h => absurd h hslash⟩
  · next o => cases o <;> exact ⟨_, _, rfl, by decide, by decide⟩
  · next b => cases b <;> exact ⟨_, _, rfl, by decide, by decide⟩
  · exact ⟨_, _, rfl, by decide, by decide⟩
  · exact ⟨_, _, rfl, by decide, by decide⟩
  · next w =>
      simp only [Bool.and_eq_true] at h
      obtain ⟨b, rest, hw, hblank, hslash⟩ := hword w h.1.1
      exact ⟨b, rest, hw, hblank, fun h => absurd h hslash⟩
  · next w =>
      cases w with
      | nil => cases h
      | cons b w =>
          simp only [List.all_cons, Bool.and_eq_true] at h
          obtain ⟨hblank, hslash, -⟩ := Byte.ne_of_isDigit h.2.1
          exact ⟨b, w, rfl, hblank, fun h => absurd h hslash⟩
  · next w =>
      cases w with
      | nil => cases h
      | cons b w =>
          simp only [List.head?_cons, Bool.and_eq_true, beq_iff_eq, Option.some.injEq] at h
          obtain rfl := h.1.1
          exact ⟨_, w, rfl, by decide, fun h => absurd h (by decide)⟩
  · cases h

namespace Gap

variable {m : Mark} {blanks rest : Bytes} {l : Lexeme}

theorem scan_blanks (h : blanks.all Byte.isBlank = true) :
    scan .between m (blanks ++ rest) = scan .between (m.past blanks) rest := by
  induction blanks generalizing m with
  | nil => rfl
  | cons b blanks ih =>
      obtain ⟨hb, hblanks⟩ : Byte.isBlank b = true ∧ blanks.all Byte.isBlank = true := by
        simpa using h
      rw [List.cons_append, scan, if_pos hb, ih hblanks]
      rfl

/-- A gap ends before any byte that is neither blank nor a slash. -/
theorem scan_stop {b : UInt8} (hblank : Byte.isBlank b = false) (hslash : b ≠ Byte.slash) :
    scan .between m (b :: rest) = .clear m (b :: rest) := by
  rw [scan, if_neg (by simp [hblank]), if_neg hslash]

/-- No gap starts inside a spelling: a slash with a line feed behind it opens no comment. -/
theorem scan_spelling (h : l.isLegal = true) :
    scan .between m (l.spelling ++ Byte.lineFeed :: rest)
      = .clear m (l.spelling ++ Byte.lineFeed :: rest) := by
  obtain ⟨b, text, hspelling, hblank, hslash⟩ := Lexeme.exists_spelling h
  by_cases hb : b = Byte.slash
  · rw [hslash hb]
    rfl
  · rw [hspelling]
    exact scan_stop hblank hb

end Gap

/-- Lexemes written down one after another, each on a line of its own. -/
def spell (ls : List Lexeme) : Bytes := ls.flatMap fun l => l.spelling ++ [Byte.lineFeed]

namespace Reader

variable {r : Reader} {blanks rest : Bytes} {l : Lexeme} {ls : List Lexeme}

theorem next_spelling (h : l.isLegal = true) (hblanks : blanks.all Byte.isBlank = true)
    (hr : r.rest = blanks ++ (l.spelling ++ Byte.lineFeed :: rest)) :
    r.next = (.ok (r.tokenAt (r.mark.past blanks) l),
      { r with
        mark := (r.mark.past blanks).past l.spelling
        rest := Byte.lineFeed :: rest }) := by
  have hscan : Gap.scan .between r.mark r.rest
      = .clear (r.mark.past blanks) (l.spelling ++ Byte.lineFeed :: rest) := by
    rw [hr, Gap.scan_blanks hblanks, Gap.scan_spelling h]
  have hmunch := Munch.first?_spelling rest h
  rw [next, hscan]
  cases htext : l.spelling ++ Byte.lineFeed :: rest with
  | nil => simp at htext
  | cons b text =>
      rw [htext] at hmunch
      simp only [hmunch]
      rw [← htext, List.take_left, List.drop_left]

/-- What was spelled is delivered, and then the end mark. -/
theorem holds_of_spell (hlegal : ∀ l ∈ ls, l.isLegal = true)
    (hblanks : blanks.all Byte.isBlank = true) (hr : r.rest = blanks ++ spell ls) :
    ∃ ts mark, r.Holds ts mark ∧ ts.map Token.lexeme = ls := by
  induction ls generalizing r blanks with
  | nil =>
      have hscan : Gap.scan .between r.mark r.rest = .clear (r.mark.past blanks) [] := by
        rw [hr, Gap.scan_blanks hblanks]
        rfl
      have hnext : r.next = (.ok (r.tokenAt (r.mark.past blanks) (.endOfStream none)),
          { r with mark := r.mark.past blanks, rest := [] }) := by
        rw [next, hscan]
      exact ⟨[], _, ⟨⟨_, .single hnext⟩, by simp, rfl⟩, rfl⟩
  | cons l ls ih =>
      obtain ⟨hl, hls⟩ := List.forall_mem_cons.mp hlegal
      have hline : r.rest = blanks ++ (l.spelling ++ Byte.lineFeed :: spell ls) := by
        rw [hr]
        simp [spell]
      have hnext := next_spelling hl hblanks hline
      -- The line feed that ended this lexeme is the blank before the next one.
      have hrest : r.next.2.rest = [Byte.lineFeed] ++ spell ls := by
        rw [hnext]
        rfl
      obtain ⟨ts, mark, hholds, hts⟩ := ih hls (by decide) hrest
      obtain ⟨r', hdeliv⟩ := hholds.delivers
      refine ⟨r.tokenAt (r.mark.past blanks) l :: ts, mark, ⟨⟨r', ?_⟩, ?_, hholds.atEnd⟩, ?_⟩
      · rw [hnext] at hdeliv
        exact .cons hnext hdeliv
      · rw [List.forall_mem_cons]
        exact ⟨Token.live_of_isLegal hl, hholds.live⟩
      · rw [List.map_cons, hts]
        rfl

/-- A source that was spelled out holds just what was spelled. -/
theorem new_holds_of_spell (file : String) (hlegal : ∀ l ∈ ls, l.isLegal = true) :
    ∃ ts mark, (Reader.new (spell ls) file).Holds ts mark ∧ ts.map Token.lexeme = ls :=
  holds_of_spell hlegal List.all_nil (List.nil_append (spell ls)).symm

end Reader

end MiniC
