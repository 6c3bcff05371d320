/-
# MiniC.Proofs.Tiling — what it means to read a source into tokens, with no scanner in sight.

A source is gaps and lexemes in turn, from its first byte to its last.  A gap is blanks and comments,
and goes on for as long as more of them follow.  A lexeme is the longest of its class that stands in
its place.  `Tiling.Fits` says just that about a way to cut a source up.

A source is read into tokens if and only if it can be cut up so, and then in one way only: each token
stands where its piece begins, and the end mark at the length of the source.
-/
import MiniC.Proofs.Stream

namespace MiniC

/-! ## Gaps -/

/-- Nothing follows on the same line. -/
def EndsLine (after : Bytes) : Prop := ∀ b ∈ after.head?, b = Byte.lineFeed

/-- Two slashes and the rest of their line, without its line feed. -/
inductive IsLineComment : Bytes → Bytes → Prop
  | mk {body after : Bytes} :
      Byte.lineFeed ∉ body → EndsLine after →
      IsLineComment (Byte.slash :: Byte.slash :: body) after

/-- The `*/` behind this text is the first one. -/
def FirstClose (body : Bytes) : Prop :=
  ∀ i < body.length, ¬ [Byte.star, Byte.slash] <+: (body ++ [Byte.star, Byte.slash]).drop i

/-- All from `/*` to the first `*/` that begins behind these two bytes. -/
inductive IsBlockComment : Bytes → Prop
  | mk {body : Bytes} :
      FirstClose body →
      IsBlockComment (Byte.slash :: Byte.star :: (body ++ [Byte.star, Byte.slash]))

/-- Blanks and comments in any number and order, with `after` behind them. -/
inductive IsGap : Bytes → Bytes → Prop
  | nil {after : Bytes} : IsGap [] after
  | blank {b : UInt8} {gap after : Bytes} :
      Byte.isBlank b = true → IsGap gap after → IsGap (b :: gap) after
  | line {comment gap after : Bytes} :
      IsLineComment comment (gap ++ after) → IsGap gap after → IsGap (comment ++ gap) after
  | block {comment gap after : Bytes} :
      IsBlockComment comment → IsGap gap after → IsGap (comment ++ gap) after

/-- Neither a blank nor a comment begins here. -/
structure EndsGap (after : Bytes) : Prop where
  blank : ∀ b ∈ after.head?, Byte.isBlank b = false
  line : ¬ [Byte.slash, Byte.slash] <+: after
  block : ¬ [Byte.slash, Byte.star] <+: after

/-! ## Lexemes -/

/-- The text, with `after` behind it, is how this lexeme stands in a source. -/
inductive IsLexeme : Lexeme → Bytes → Bytes → Prop
  | preprocessor {text after : Bytes} (returns : Nat) :
      text.head? = some Byte.hash → Byte.lineFeed ∉ text →
      text.getLast? ≠ some Byte.carriageReturn → EndsLine after →
      IsLexeme (.preprocessor (some text)) (text ++ List.replicate returns Byte.carriageReturn) after
  | keyword {k : Keyword} {after : Bytes} :
      IsRun Byte.isWordByte (utf8 k.spelling) after → IsLexeme (.keyword k) (utf8 k.spelling) after
  | identifier {word after : Bytes} :
      word.head?.any Byte.isWordStart = true → IsRun Byte.isWordByte word after →
      (∀ k : Keyword, utf8 k.spelling ≠ word) → IsLexeme (.identifier (some word)) word after
  | number {digits after : Bytes} :
      digits ≠ [] → IsRun Byte.isDigit digits after → IsLexeme (.number (some digits)) digits after
  | operator {o : Operator} {after : Bytes} :
      (∀ o' : Operator, utf8 o'.spelling <+: utf8 o.spelling ++ after →
        (utf8 o'.spelling).length ≤ (utf8 o.spelling).length) →
      IsLexeme (.operator o) (utf8 o.spelling) after
  | bracket {b : Bracket} {after : Bytes} : IsLexeme (.bracket b) (utf8 b.spelling) after
  | comma {after : Bytes} : IsLexeme (.comma none) [Byte.comma] after
  | semicolon {after : Bytes} : IsLexeme (.semicolon none) [Byte.semicolon] after

/-! ## Sources cut up -/

/-- A gap, the text of a lexeme behind it, and the lexeme. -/
structure Tile where
  gap : Bytes
  text : Bytes
  lexeme : Lexeme

/-- Tiles in order, and the gap behind the last of them. -/
structure Tiling where
  tiles : List Tile
  last : Bytes

namespace Tiling

/-- All of the text. -/
def text (T : Tiling) : Bytes := T.tiles.flatMap (fun x => x.gap ++ x.text) ++ T.last

/-- The lexemes and where they begin, if the first tile begins at `offset`. -/
def startsFrom : Nat → List Tile → List (Lexeme × Int)
  | _, [] => []
  | offset, x :: xs =>
    (x.lexeme, ((offset + x.gap.length : Nat) : Int)) ::
      startsFrom (offset + x.gap.length + x.text.length) xs

/-- The lexemes and where they begin, and the end mark behind all of the text. -/
def starts (T : Tiling) : List (Lexeme × Int) :=
  startsFrom 0 T.tiles ++ [(Lexeme.endOfStream none, (T.text.length : Int))]

/-- Every gap is one and ends where it has to, and every text is that of its lexeme. -/
inductive Fits : Tiling → Prop
  | last {gap : Bytes} : IsGap gap [] → Fits ⟨[], gap⟩
  | tile {x : Tile} {T : Tiling} :
      IsGap x.gap (x.text ++ T.text) → EndsGap (x.text ++ T.text) →
      IsLexeme x.lexeme x.text T.text → Fits T → Fits ⟨x :: T.tiles, T.last⟩

end Tiling

/-! ## Runs are cut off -/

section Runs

variable {among : UInt8 → Bool} {run after text : Bytes}

theorem isRun_takeWhile (among : UInt8 → Bool) (text : Bytes) :
    IsRun among (text.takeWhile among) (text.dropWhile among) where
  all := List.all_eq_true.mp List.all_takeWhile
  longest b hb := by
    have hhead := List.head?_dropWhile_not among text
    rw [Option.mem_def.mp hb] at hhead
    simpa using hhead

/-- Lines are runs too: of all bytes but the line feed. -/
theorem isRun_line :
    IsRun (· != Byte.lineFeed) run after ↔ Byte.lineFeed ∉ run ∧ EndsLine after := by
  constructor
  · intro h
    refine ⟨fun hmem => by simpa using h.all _ hmem, fun b hb => by simpa using h.longest b hb⟩
  · rintro ⟨hrun, hafter⟩
    refine ⟨fun b hb => ?_, fun b hb => by simpa using hafter b hb⟩
    rw [bne_iff_ne]
    rintro rfl
    exact hrun hb

theorem exists_line (text : Bytes) :
    ∃ line after, text = line ++ after ∧ Byte.lineFeed ∉ line ∧ EndsLine after :=
  ⟨_, _, List.takeWhile_append_dropWhile.symm, isRun_line.mp (isRun_takeWhile _ text)⟩

end Runs

/-! ## Gaps are scanned -/

theorem Mark.past_append (m : Mark) (text after : Bytes) :
    m.past (text ++ after) = (m.past text).past after := List.foldl_append

namespace Gap

variable {m start : Mark} {body comment gap after text : Bytes}

theorem scan_line (h : Byte.lineFeed ∉ body) :
    scan .line m (body ++ after) = scan .line (m.past body) after := by
  induction body generalizing m with
  | nil => rfl
  | cons b body ih =>
      obtain ⟨hb, hbody⟩ : b ≠ Byte.lineFeed ∧ Byte.lineFeed ∉ body := by
        simpa [eq_comm] using h
      rw [List.cons_append, scan, if_neg hb, ih hbody]
      rfl

/-- Where a line ends, so does a comment on it. -/
theorem scan_line_stop (h : EndsLine after) : scan .line m after = scan .between m after := by
  cases after with
  | nil => rfl
  | cons b after =>
      obtain rfl : b = Byte.lineFeed := h b rfl
      rfl

/-- The scan remembers whether the byte before was a star; a slash there would have closed the
comment. -/
theorem scan_block {star : Bool} (h : FirstClose body)
    (hstar : star = true → (body ++ [Byte.star]).head? ≠ some Byte.slash) :
    scan (.block start star) m (body ++ Byte.star :: Byte.slash :: after)
      = scan .between (m.past (body ++ [Byte.star, Byte.slash])) after := by
  induction body generalizing m star with
  | nil =>
      rw [List.nil_append, scan, if_neg (by simp [Byte.star, Byte.slash])]
      rfl
  | cons b body ih =>
      have hopen : ¬ (star && b == Byte.slash) = true := by
        intro hclose
        simp only [Bool.and_eq_true, beq_iff_eq] at hclose
        exact hstar hclose.1 (by simp [hclose.2])
      have hfirst : FirstClose body := fun i hi => by simpa using h (i + 1) (by simpa using hi)
      rw [List.cons_append, scan, if_neg hopen, ih hfirst]
      · rfl
      · intro hb hslash
        refine h 0 (by simp) ?_
        obtain rfl : b = Byte.star := by simpa using hb
        cases body with
        | nil => simp [Byte.star, Byte.slash] at hslash
        | cons c body =>
            obtain rfl : c = Byte.slash := by simpa using hslash
            simp

/-- A comment that is never closed takes all of the text. -/
theorem exists_close_or_unclosed (text : Bytes) :
    (∃ body after, text = body ++ Byte.star :: Byte.slash :: after ∧ FirstClose body) ∨
      ∀ start m star, (star = true → text.head? ≠ some Byte.slash) →
        ∃ stop, scan (.block start star) m text = .unclosed start stop := by
  induction text with
  | nil => exact .inr fun start m star _ => ⟨m, rfl⟩
  | cons b text ih =>
      by_cases hclose : [Byte.star, Byte.slash] <+: b :: text
      · obtain ⟨after, hafter⟩ := hclose
        exact .inl ⟨[], after, hafter.symm, fun i hi => by simp at hi⟩
      rcases ih with ⟨body, after, rfl, hfirst⟩ | hopen
      · refine .inl ⟨b :: body, after, rfl, fun i hi => ?_⟩
        cases i with
        | zero => exact fun h => hclose (h.trans ⟨after, by simp⟩)
        | succ i => exact hfirst i (by simpa using hi)
      · refine .inr fun start m star hstar => ?_
        have hslash : ¬ (star && b == Byte.slash) = true := by
          intro hb
          simp only [Bool.and_eq_true, beq_iff_eq] at hb
          exact hstar hb.1 (by simp [hb.2])
        rw [scan, if_neg hslash]
        refine hopen _ _ _ fun hb => ?_
        obtain rfl : b = Byte.star := by simpa using hb
        rintro hslash
        cases text with
        | nil => simp at hslash
        | cons c text =>
            obtain rfl : c = Byte.slash := by simpa using hslash
            exact hclose ⟨text, rfl⟩

theorem endsGap_nil : EndsGap [] := ⟨by simp, by simp, by simp⟩

theorem scan_endsGap (h : EndsGap after) : scan .between m after = .clear m after := by
  cases after with
  | nil => rfl
  | cons b after =>
      -- A slash may open a comment; the byte behind it tells.
      by_cases hb : b = Byte.slash
      · subst hb
        cases after with
        | nil => rfl
        | cons c after =>
            have hline : c ≠ Byte.slash := by
              rintro rfl
              exact h.line ⟨after, rfl⟩
            have hblock : c ≠ Byte.star := by
              rintro rfl
              exact h.block ⟨after, rfl⟩
            show scan (.slash m) (m.step Byte.slash) (c :: after) = _
            rw [scan, if_neg hline, if_neg hblock]
      · exact scan_stop (h.blank b rfl) hb

theorem scan_lineComment (h : IsLineComment comment after) :
    scan .between m (comment ++ after) = scan .between (m.past comment) after := by
  cases h with
  | @mk body _ hbody hline =>
      show scan .line ((m.step _).step _) (body ++ after) = _
      rw [scan_line hbody, scan_line_stop hline]
      rfl

theorem scan_blockComment (h : IsBlockComment comment) :
    scan .between m (comment ++ after) = scan .between (m.past comment) after := by
  cases h with
  | @mk body hbody =>
      have htext : (Byte.slash :: Byte.star :: (body ++ [Byte.star, Byte.slash])) ++ after
          = Byte.slash :: Byte.star :: (body ++ Byte.star :: Byte.slash :: after) := by
        simp
      rw [htext]
      -- The star that opens the comment does not count as the star of its end.
      show scan (.block m false) ((m.step _).step _) _ = _
      rw [scan_block hbody (by simp)]
      rfl

/-- A gap is passed as a whole. -/
theorem scan_append (hgap : IsGap gap after) :
    scan .between m (gap ++ after) = scan .between (m.past gap) after := by
  induction hgap generalizing m with
  | nil => rfl
  | blank hb _ ih =>
      rw [List.cons_append, scan, if_pos hb, ih]
      rfl
  | line hcomment _ ih =>
      rw [List.append_assoc, scan_lineComment hcomment, ih, Mark.past_append]
  | block hcomment _ ih =>
      rw [List.append_assoc, scan_blockComment hcomment, ih, Mark.past_append]

theorem scan_gap (hgap : IsGap gap after) (hends : EndsGap after) :
    scan .between m (gap ++ after) = .clear (m.past gap) after := by
  rw [scan_append hgap, scan_endsGap hends]

/-- The text begins with a gap, or a comment in it is never closed. -/
def HasGap (text : Bytes) : Prop :=
  (∃ gap after, text = gap ++ after ∧ IsGap gap after ∧ EndsGap after) ∨
    ∀ m, ∃ start stop, scan .between m text = .unclosed start stop

/-- A blank or a comment in front makes the gap longer. -/
theorem HasGap.prepend {front : Bytes} (h : HasGap text)
    (hgap : ∀ gap after, text = gap ++ after → IsGap gap after → IsGap (front ++ gap) after)
    (hscan : ∀ m, scan .between m (front ++ text) = scan .between (m.past front) text) :
    HasGap (front ++ text) := by
  rcases h with ⟨gap, after, rfl, hfirst, hends⟩ | hopen
  · exact .inl ⟨front ++ gap, after, (List.append_assoc ..).symm, hgap gap after rfl hfirst, hends⟩
  · refine .inr fun m => ?_
    rw [hscan]
    exact hopen _

theorem endsGap_cases (text : Bytes) :
    EndsGap text ∨ (∃ b rest, text = b :: rest ∧ Byte.isBlank b = true) ∨
      (∃ rest, text = Byte.slash :: Byte.slash :: rest) ∨
        ∃ rest, text = Byte.slash :: Byte.star :: rest := by
  by_cases hline : [Byte.slash, Byte.slash] <+: text
  · obtain ⟨rest, rfl⟩ := hline
    exact .inr (.inr (.inl ⟨rest, rfl⟩))
  by_cases hblock : [Byte.slash, Byte.star] <+: text
  · obtain ⟨rest, rfl⟩ := hblock
    exact .inr (.inr (.inr ⟨rest, rfl⟩))
  cases text with
  | nil => exact .inl endsGap_nil
  | cons b rest =>
      cases hb : Byte.isBlank b with
      | true => exact .inr (.inl ⟨b, rest, rfl, hb⟩)
      | false => exact .inl ⟨by simpa using hb, hline, hblock⟩

theorem hasGap (text : Bytes) : HasGap text := by
  -- A comment is passed in one step, so the induction is on the length.
  induction hlen : text.length using Nat.strongRecOn generalizing text with
  | ind n ih =>
      subst hlen
      rcases endsGap_cases text with hends | ⟨b, rest, rfl, hb⟩ | ⟨rest, rfl⟩ | ⟨rest, rfl⟩
      · exact .inl ⟨[], text, rfl, .nil, hends⟩
      · show HasGap ([b] ++ rest)
        refine (ih rest.length (by simp) rest rfl).prepend ?_ fun m => ?_
        · exact fun gap after _ hgap => .blank hb hgap
        · rw [List.singleton_append, scan, if_pos hb]
          rfl
      · obtain ⟨body, tail, rfl, hbody, htail⟩ := exists_line rest
        have hcomment : IsLineComment (Byte.slash :: Byte.slash :: body) tail := .mk hbody htail
        refine (ih tail.length (by simp; omega) tail rfl).prepend ?_ fun m => scan_lineComment hcomment
        rintro gap after rfl hgap
        exact .line hcomment hgap
      · rcases exists_close_or_unclosed rest with ⟨body, tail, rfl, hbody⟩ | hopen
        · have hcomment := IsBlockComment.mk hbody
          have htail := (ih tail.length (by simp; omega) tail rfl).prepend
            (fun gap after _ hgap => .block hcomment hgap) fun m => scan_blockComment hcomment
          simpa using htail
        · refine .inr fun m => ?_
          obtain ⟨stop, hstop⟩ := hopen m ((m.step Byte.slash).step Byte.star) false (by simp)
          exact ⟨m, stop, hstop⟩

/-- The scan finds the gap that a text begins with. -/
theorem exists_of_scan_clear {m' : Mark} (h : scan .between m text = .clear m' after) :
    ∃ gap, text = gap ++ after ∧ IsGap gap after ∧ EndsGap after ∧ m' = m.past gap := by
  rcases hasGap text with ⟨gap, after', rfl, hgap, hends⟩ | hopen
  · rw [scan_gap hgap hends] at h
    obtain ⟨rfl, rfl⟩ := Gap.clear.inj h
    exact ⟨gap, rfl, hgap, hends, rfl⟩
  · obtain ⟨start, stop, hstop⟩ := hopen m
    rw [hstop] at h
    cases h

end Gap

/-! ## Lexemes are munched -/

theorem Lexeme.ofWord_cases (word : Bytes) :
    (∃ k : Keyword, utf8 k.spelling = word ∧ ofWord word = .keyword k) ∨
      (∀ k : Keyword, utf8 k.spelling ≠ word) ∧ ofWord word = .identifier (some word) := by
  unfold ofWord
  split
  · next k hk =>
      have hfound := List.find?_some hk
      exact .inl ⟨k, by simpa using hfound, rfl⟩
  · next hnone =>
      refine .inr ⟨fun k => ?_, rfl⟩
      have hk : k ∈ Keyword.all := by cases k <;> decide
      simpa using List.find?_eq_none.mp hnone k hk

namespace Operator

variable {o : Operator} {text : Bytes}

theorem mem_all (o : Operator) : o ∈ all := by
  cases o <;> decide

theorem eq_of_spelling {o o' : Operator} (h : utf8 o.spelling = utf8 o'.spelling) : o = o' := by
  have hinj : ∀ o ∈ all, ∀ o' ∈ all, utf8 o.spelling = utf8 o'.spelling → o = o' := by
    decide +kernel
  exact hinj o o.mem_all o' o'.mem_all h

/-- Tried in an order of falling length, the first spelling that fits is the longest. -/
theorem longest_of_at? (h : at? text = some o) :
    utf8 o.spelling <+: text ∧ ∀ o' : Operator, utf8 o'.spelling <+: text →
      (utf8 o'.spelling).length ≤ (utf8 o.spelling).length := by
  have hsorted : longestFirst.Pairwise fun a b =>
      (utf8 b.spelling).length ≤ (utf8 a.spelling).length := by
    decide +kernel
  obtain ⟨hfits, before, later, hsplit, hbefore⟩ := List.find?_eq_some_iff_append.mp h
  refine ⟨List.isPrefixOf_iff_prefix.mp hfits, fun o' ho' => ?_⟩
  have hmem : o' ∈ longestFirst := by cases o' <;> decide
  rw [hsplit] at hsorted hmem
  rcases List.mem_append.mp hmem with hmem | hmem
  · have hnot := hbefore o' hmem
    simp [List.isPrefixOf_iff_prefix.mpr ho'] at hnot
  · rcases List.mem_cons.mp hmem with rfl | hmem
    · exact Nat.le_refl _
    · exact List.rel_of_pairwise_cons (List.pairwise_append.mp hsorted).2.1 hmem

theorem at?_of_longest (hfits : utf8 o.spelling <+: text)
    (hlongest : ∀ o' : Operator, utf8 o'.spelling <+: text →
      (utf8 o'.spelling).length ≤ (utf8 o.spelling).length) : at? text = some o := by
  cases hat : at? text with
  | none =>
      have hmem : o ∈ longestFirst := by cases o <;> decide
      have hnot := List.find?_eq_none.mp hat o hmem
      exact absurd (List.isPrefixOf_iff_prefix.mpr hfits) hnot
  | some o' =>
      obtain ⟨hfits', hlongest'⟩ := longest_of_at? hat
      have hlen := Nat.le_antisymm (hlongest o' hfits') (hlongest' o hfits)
      obtain ⟨after, rfl⟩ := hfits
      obtain ⟨after', heq⟩ := hfits'
      rw [eq_of_spelling (List.append_inj heq hlen).1]

end Operator

namespace Bytes

theorem exists_leading_returns (bs : Bytes) :
    ∃ n, bs = List.replicate n Byte.carriageReturn ++ bs.dropWhile (· == Byte.carriageReturn) := by
  have hall : ∀ b ∈ bs.takeWhile (· == Byte.carriageReturn), b = Byte.carriageReturn := by
    intro b hb
    simpa using List.all_eq_true.mp List.all_takeWhile b hb
  refine ⟨(bs.takeWhile (· == Byte.carriageReturn)).length, ?_⟩
  rw [← List.eq_replicate_of_mem hall, List.takeWhile_append_dropWhile]

theorem dropWhile_returns_append (n : Nat) (bs : Bytes) :
    (List.replicate n Byte.carriageReturn ++ bs).dropWhile (· == Byte.carriageReturn)
      = bs.dropWhile (· == Byte.carriageReturn) := by
  refine List.dropWhile_append_of_pos fun b hb => ?_
  rw [List.eq_of_mem_replicate hb]
  rfl

/-- The carriage returns at the end are what is dropped. -/
theorem exists_returns (bs : Bytes) :
    ∃ n, bs = trimReturns bs ++ List.replicate n Byte.carriageReturn := by
  obtain ⟨n, hn⟩ := exists_leading_returns bs.reverse
  refine ⟨n, ?_⟩
  rw [trimReturns, ← List.reverse_replicate, ← List.reverse_append, ← hn, List.reverse_reverse]

theorem trimReturns_append {text : Bytes} (n : Nat)
    (h : text.getLast? ≠ some Byte.carriageReturn) :
    trimReturns (text ++ List.replicate n Byte.carriageReturn) = text := by
  rw [trimReturns, List.reverse_append, List.reverse_replicate, dropWhile_returns_append]
  exact trimReturns_eq_self h

end Bytes

namespace Munch

variable {l : Lexeme} {text after : Bytes} {munch : Munch}

/-- What stands as a lexeme is read as that lexeme. -/
theorem first?_of_isLexeme (h : IsLexeme l text after) :
    first? (text ++ after) = some ⟨l, text.length⟩ := by
  cases h with
  | @preprocessor text _ returns hhead hline hlast hends =>
      have hrun : IsRun (· != Byte.lineFeed) (text ++ List.replicate returns Byte.carriageReturn)
          after := by
        refine isRun_line.mpr ⟨fun hmem => ?_, hends⟩
        rcases List.mem_append.mp hmem with hmem | hmem
        · exact hline hmem
        · exact absurd (List.eq_of_mem_replicate hmem) (by decide)
      rw [first?_preprocessor ?_ hrun, Bytes.trimReturns_append returns hlast]
      rw [List.head?_append, hhead]
      rfl
  | @keyword k _ hrun =>
      have hword : (utf8 k.spelling).head?.any Byte.isWordStart = true ∧
          Lexeme.ofWord (utf8 k.spelling) = .keyword k := by
        cases k <;> decide +kernel
      rw [first?_word hword.1 hrun, hword.2]
  | identifier hhead hrun hnone =>
      rcases Lexeme.ofWord_cases text with ⟨k, hk, -⟩ | ⟨-, hword⟩
      · exact absurd hk (hnone k)
      · rw [first?_word hhead hrun, hword]
  | number hne hrun => exact first?_number hne hrun
  | @operator o _ hlongest =>
      have hat := Operator.at?_of_longest (List.prefix_append _ _) hlongest
      have hsign : sign? (utf8 o.spelling ++ after)
          = some ⟨.operator o, (utf8 o.spelling).length⟩ := by
        rw [sign?, hat]
      -- No operator begins as a line, a word or a number does.
      rw [← hsign]
      cases o <;> rfl
  | @bracket b => cases b <;> rfl
  | comma => rfl
  | semicolon => rfl

/-- The munch takes a lexeme off the front of the text. -/
def Cuts (munch : Munch) (text : Bytes) : Prop :=
  ∃ w after, text = w ++ after ∧ munch.length = w.length ∧ IsLexeme munch.lexeme w after

theorem cuts_of_sign? (h : sign? text = some munch) : munch.Cuts text := by
  unfold sign? at h
  split at h
  · next o ho =>
      obtain ⟨⟨after, rfl⟩, hlongest⟩ := Operator.longest_of_at? ho
      obtain rfl := Option.some.inj h
      exact ⟨_, after, rfl, rfl, .operator hlongest⟩
  · split at h
    · next b hb =>
        rw [Bracket.at?] at hb
        have hfits := List.find?_some hb
        obtain ⟨after, rfl⟩ := List.isPrefixOf_iff_prefix.mp hfits
        obtain rfl := Option.some.inj h
        exact ⟨_, after, rfl, rfl, .bracket⟩
    · split at h
      · next hcomma =>
          obtain ⟨after, rfl⟩ := List.head?_eq_some_iff.mp hcomma
          obtain rfl := Option.some.inj h
          exact ⟨[Byte.comma], after, rfl, rfl, .comma⟩
      · split at h
        · next hsemicolon =>
            obtain ⟨after, rfl⟩ := List.head?_eq_some_iff.mp hsemicolon
            obtain rfl := Option.some.inj h
            exact ⟨[Byte.semicolon], after, rfl, rfl, .semicolon⟩
        · cases h

theorem cuts_preprocessor : (preprocessor (Byte.hash :: text)).Cuts (Byte.hash :: text) := by
  let line := Bytes.firstLine (Byte.hash :: text)
  have hrun := isRun_line.mp (isRun_takeWhile (· != Byte.lineFeed) (Byte.hash :: text))
  obtain ⟨returns, hreturns⟩ := Bytes.exists_returns line
  have hhead : (Bytes.trimReturns line).head? = some Byte.hash := by
    have hline : line = Byte.hash :: Bytes.firstLine text := rfl
    rw [hline]
    exact Bytes.head?_trimReturns (by decide)
  have hmem : Byte.lineFeed ∉ Bytes.trimReturns line :=
    fun h => hrun.1 (Bytes.mem_of_mem_trimReturns h)
  have hlexeme := IsLexeme.preprocessor returns hhead hmem Bytes.getLast?_trimReturns hrun.2
  rw [← hreturns] at hlexeme
  exact ⟨line, _, List.takeWhile_append_dropWhile.symm, rfl, hlexeme⟩

theorem cuts_word {b : UInt8} (hb : Byte.isWordStart b = true) :
    (word (b :: text)).Cuts (b :: text) := by
  have hrun := isRun_takeWhile Byte.isWordByte (b :: text)
  have hhead : ((b :: text).takeWhile Byte.isWordByte).head?.any Byte.isWordStart = true := by
    simp [Byte.isWordByte, hb]
  refine ⟨_, _, List.takeWhile_append_dropWhile.symm, rfl, ?_⟩
  rcases Lexeme.ofWord_cases ((b :: text).takeWhile Byte.isWordByte) with
    ⟨k, hk, hof⟩ | ⟨hnone, hof⟩
  · rw [word, hof]
    rw [← hk] at hrun ⊢
    exact .keyword hrun
  · rw [word, hof]
    exact .identifier hhead hrun hnone

theorem cuts_number {b : UInt8} (hb : Byte.isDigit b = true) :
    (number (b :: text)).Cuts (b :: text) :=
  ⟨_, _, List.takeWhile_append_dropWhile.symm, rfl,
    .number (by simp [hb]) (isRun_takeWhile Byte.isDigit (b :: text))⟩

/-- What is read as a lexeme stands as one. -/
theorem cuts_of_first? (h : first? text = some munch) : munch.Cuts text := by
  cases text with
  | nil => cases h
  | cons b text =>
      simp only [first?] at h
      split at h
      · next hb =>
          subst hb
          obtain rfl := Option.some.inj h
          exact cuts_preprocessor
      · split at h
        · next hb =>
            obtain rfl := Option.some.inj h
            exact cuts_word hb
        · split at h
          · next hb =>
              obtain rfl := Option.some.inj h
              exact cuts_number hb
          · exact cuts_of_sign? h

end Munch

/-! ## One way to cut -/

theorem IsGap.unique {gap gap' after after' : Bytes} (h : IsGap gap after) (hends : EndsGap after)
    (h' : IsGap gap' after') (hends' : EndsGap after') (heq : gap ++ after = gap' ++ after') :
    gap = gap' ∧ after = after' := by
  have hscan := Gap.scan_gap (m := {}) h hends
  rw [heq, Gap.scan_gap h' hends'] at hscan
  obtain ⟨-, rfl⟩ := Gap.clear.inj hscan
  exact ⟨List.append_cancel_right heq, rfl⟩

theorem IsLexeme.unique {l l' : Lexeme} {text text' after after' : Bytes}
    (h : IsLexeme l text after) (h' : IsLexeme l' text' after')
    (heq : text ++ after = text' ++ after') :
    l = l' ∧ text = text' ∧ after = after' := by
  have hmunch := Munch.first?_of_isLexeme h
  rw [heq, Munch.first?_of_isLexeme h'] at hmunch
  obtain ⟨rfl, hlen⟩ := Munch.mk.inj (Option.some.inj hmunch)
  obtain ⟨rfl, rfl⟩ := List.append_inj heq hlen.symm
  exact ⟨rfl, rfl, rfl⟩

theorem IsLexeme.ne_nil {l : Lexeme} {text after : Bytes} (h : IsLexeme l text after) :
    text ≠ [] := by
  have hpos := Munch.first?_length_pos (Munch.first?_of_isLexeme h)
  exact List.length_pos_iff.mp hpos

namespace Tiling

@[simp] theorem text_nil (gap : Bytes) : text ⟨[], gap⟩ = gap := rfl

@[simp] theorem text_cons (x : Tile) (T : Tiling) :
    text ⟨x :: T.tiles, T.last⟩ = x.gap ++ (x.text ++ T.text) := by
  simp [text]

/-- A gap up to the end of the source has no lexeme in it. -/
theorem ne_of_last {gap : Bytes} {x : Tile} {after : Bytes} (hlast : IsGap gap [])
    (hgap : IsGap x.gap (x.text ++ after)) (hends : EndsGap (x.text ++ after))
    (hlexeme : IsLexeme x.lexeme x.text after) : gap ≠ x.gap ++ (x.text ++ after) := by
  intro heq
  rw [← List.append_nil gap] at heq
  obtain ⟨-, hnil⟩ := hlast.unique Gap.endsGap_nil hgap hends heq
  exact hlexeme.ne_nil (List.append_eq_nil_iff.mp hnil.symm).1

/-- Gaps and lexemes end where they have to, so the cuts are forced from the left. -/
theorem Fits.unique {T T' : Tiling} (h : T.Fits) (h' : T'.Fits) (heq : T.text = T'.text) :
    T = T' := by
  induction h generalizing T' with
  | last hlast =>
      cases h' with
      | last =>
          rw [text_nil, text_nil] at heq
          rw [heq]
      | tile hgap hends hlexeme =>
          rw [text_nil, text_cons] at heq
          exact absurd heq (ne_of_last hlast hgap hends hlexeme)
  | @tile x T hgap hends hlexeme _ ih =>
      cases h' with
      | last hlast =>
          rw [text_nil, text_cons] at heq
          exact absurd heq.symm (ne_of_last hlast hgap hends hlexeme)
      | @tile x' T' hgap' hends' hlexeme' hT' =>
          rw [text_cons, text_cons] at heq
          obtain ⟨hgaps, heq⟩ := hgap.unique hends hgap' hends' heq
          obtain ⟨hlexemes, htexts, heq⟩ := hlexeme.unique hlexeme' heq
          have hx : x = x' := by
            rw [Tile.mk.injEq]
            exact ⟨hgaps, htexts, hlexemes⟩
          rw [ih hT' heq, hx]

end Tiling

/-! ## Sources are read -/

/-- What a token is and where. -/
def Token.placed (t : Token) : Lexeme × Int := (t.lexeme, t.offset)

namespace Reader

variable {r r' : Reader} {gap text after : Bytes} {l : Lexeme} {ts : List Token} {t mark : Token}

theorem next_of_isLexeme (hgap : IsGap gap (text ++ after)) (hends : EndsGap (text ++ after))
    (hlexeme : IsLexeme l text after) (hr : r.rest = gap ++ (text ++ after)) :
    r.next = (.ok (r.tokenAt (r.mark.past gap) l),
      { r with mark := (r.mark.past gap).past text, rest := after }) := by
  have hscan : Gap.scan .between r.mark r.rest = .clear (r.mark.past gap) (text ++ after) := by
    rw [hr, Gap.scan_gap hgap hends]
  have hmunch := Munch.first?_of_isLexeme hlexeme
  rw [next, hscan]
  cases htext : text ++ after with
  | nil => exact absurd (List.append_eq_nil_iff.mp htext).1 hlexeme.ne_nil
  | cons b rest =>
      rw [htext] at hmunch
      simp only [hmunch]
      rw [← htext, List.take_left, List.drop_left]

theorem next_of_last (hgap : IsGap gap []) (hr : r.rest = gap) :
    r.next = (.ok (r.tokenAt (r.mark.past gap) (.endOfStream none)),
      { r with mark := r.mark.past gap, rest := [] }) := by
  have hscan : Gap.scan .between r.mark r.rest = .clear (r.mark.past gap) [] := by
    rw [hr, ← Gap.scan_gap hgap Gap.endsGap_nil, List.append_nil]
  rw [next, hscan]

/-- A text that is cut up fitly is delivered piece by piece. -/
theorem holds_of_fits {T : Tiling} (h : T.Fits) (hr : r.rest = T.text) :
    ∃ ts mark, r.Holds ts mark ∧ (ts ++ [mark]).map Token.placed
      = Tiling.startsFrom r.mark.offset T.tiles
        ++ [(.endOfStream none, ((r.mark.offset + T.text.length : Nat) : Int))] := by
  induction h generalizing r with
  | @last gap hgap =>
      have hnext := next_of_last hgap hr
      refine ⟨[], _, ⟨⟨_, .single hnext⟩, by simp, rfl⟩, ?_⟩
      simp [Token.placed, tokenAt, Mark.offset_past, Tiling.startsFrom]
  | @tile x T hgap hends hlexeme _ ih =>
      have hnext := next_of_isLexeme hgap hends hlexeme (hr.trans (Tiling.text_cons x T))
      obtain ⟨ts, mark, hholds, hplaced⟩ := ih
        (r := { r with mark := (r.mark.past x.gap).past x.text, rest := T.text }) rfl
      obtain ⟨r', hdeliv⟩ := hholds.delivers
      refine ⟨_ :: ts, mark, ⟨⟨r', .cons hnext hdeliv⟩, ?_, hholds.atEnd⟩, ?_⟩
      · rw [List.forall_mem_cons]
        exact ⟨Token.live_of_isLegal (Munch.isLegal_first? (Munch.first?_of_isLexeme hlexeme)),
          hholds.live⟩
      · rw [List.cons_append, List.map_cons, hplaced]
        simp [Token.placed, tokenAt, Mark.offset_past, Tiling.startsFrom, Nat.add_assoc]

/-- A token that is not the end mark stands where the text behind its gap begins. -/
theorem next_live_cases (h : r.next = (.ok t, r')) (hlive : t.atEnd = false) :
    ∃ gap text after l, r.rest = gap ++ (text ++ after) ∧ IsGap gap (text ++ after) ∧
      EndsGap (text ++ after) ∧ IsLexeme l text after ∧ t = r.tokenAt (r.mark.past gap) l ∧
      r' = { r with mark := (r.mark.past gap).past text, rest := after } := by
  rcases next_ok_cases h with ⟨m, -, rfl, -⟩ | ⟨m, text, munch, hscan, hmunch, rfl, rfl⟩
  · cases hlive
  · obtain ⟨gap, hrest, hgap, hends, rfl⟩ := Gap.exists_of_scan_clear hscan
    obtain ⟨w, after, rfl, hlen, hlexeme⟩ := Munch.cuts_of_first? hmunch
    refine ⟨gap, w, after, munch.lexeme, hrest, hgap, hends, hlexeme, rfl, ?_⟩
    rw [hlen, List.take_left, List.drop_left]

theorem next_atEnd_cases (h : r.next = (.ok t, r')) (hend : t.atEnd = true) : IsGap r.rest [] := by
  rcases next_ok_cases h with ⟨m, hscan, -, -⟩ | ⟨m, text, munch, -, hmunch, rfl, -⟩
  · obtain ⟨gap, hrest, hgap, -, -⟩ := Gap.exists_of_scan_clear hscan
    rwa [hrest, List.append_nil]
  · have hlive := Token.live_of_isLegal (t := r.tokenAt m munch.lexeme) (Munch.isLegal_first? hmunch)
    simp [hlive] at hend

/-- What was read up to the end mark was a text cut up fitly. -/
theorem exists_fits_of_holds (h : r.Holds ts mark) : ∃ T : Tiling, T.Fits ∧ T.text = r.rest := by
  obtain ⟨⟨r', hdeliv⟩, hlive, hend⟩ := h
  induction ts generalizing r with
  | nil =>
      cases hdeliv with
      | cons hnext _ => exact ⟨⟨[], r.rest⟩, .last (next_atEnd_cases hnext hend), rfl⟩
  | cons t ts ih =>
      cases hdeliv with
      | cons hnext hdeliv =>
          rw [List.forall_mem_cons] at hlive
          obtain ⟨gap, text, after, l, hrest, hgap, hends, hlexeme, -, rfl⟩ :=
            next_live_cases hnext hlive.1
          obtain ⟨T, hT, htext⟩ := ih hlive.2 hdeliv
          obtain rfl : T.text = after := htext
          exact ⟨⟨⟨gap, text, l⟩ :: T.tiles, T.last⟩, .tile hgap hends hlexeme hT,
            (Tiling.text_cons _ T).trans hrest.symm⟩

end Reader

namespace Options

variable (o : Options) (source : Bytes) (name : Option String)

/-- A source is read into tokens if and only if it is cut up by a tiling that fits, and into those
that the tiling tells, each where its piece begins.  No source has two such tilings. -/
theorem tokenize_iff_tiling :
    (∀ placed : List (Lexeme × Int),
      (∃ tokens, (o.tokenize source name).1 = .ok tokens ∧ tokens.map Token.placed = placed) ↔
        ∃ T : Tiling, T.Fits ∧ T.text = source ∧ T.starts = placed) ∧
      ∀ T T' : Tiling, T.Fits → T'.Fits → T.text = source → T'.text = source → T = T' := by
  have hread : ∀ T : Tiling, T.Fits → T.text = source → ∃ tokens,
      (o.tokenize source name).1 = .ok tokens ∧ tokens.map Token.placed = T.starts := by
    rintro T hT rfl
    obtain ⟨ts, mark, hholds, hplaced⟩ :=
      Reader.holds_of_fits (r := Reader.new T.text (o.fileName name)) hT rfl
    refine ⟨ts ++ [mark], (tokenize_eq_ok_iff o T.text name).mpr ⟨ts, mark, hholds, rfl⟩, ?_⟩
    rw [hplaced, Tiling.starts]
    simp [Reader.new]
  refine ⟨fun placed => ⟨?_, ?_⟩, fun T T' hT hT' h h' => hT.unique hT' (h.trans h'.symm)⟩
  · rintro ⟨tokens, htokens, rfl⟩
    obtain ⟨ts, mark, hholds, -⟩ := (tokenize_eq_ok_iff o source name).mp htokens
    obtain ⟨T, hT, htext⟩ := Reader.exists_fits_of_holds hholds
    obtain ⟨tokens', htokens', hstarts⟩ := hread T hT htext
    rw [htokens] at htokens'
    obtain rfl := Except.ok.inj htokens'
    exact ⟨T, hT, htext, hstarts.symm⟩
  · rintro ⟨T, hT, htext, rfl⟩
    exact hread T hT htext

/-- The slash behind `/*` closes nothing, and `>==` is `>=` with an `=` behind it. -/
theorem tiling_of_comment_and_operators :
    ∃ T : Tiling, T.Fits ∧ T.text = utf8 "a/*/*/>==b" ∧
      T.starts = [(.identifier (some (utf8 "a")), 0), (.operator .greaterEqual, 6),
        (.operator .assign, 8), (.identifier (some (utf8 "b")), 9), (.endOfStream none, 10)] := by
  have hplaced : (({} : Options).tokenize (utf8 "a/*/*/>==b") none).1.toOption.map
      (List.map Token.placed)
        = some [(.identifier (some (utf8 "a")), 0), (.operator .greaterEqual, 6),
          (.operator .assign, 8), (.identifier (some (utf8 "b")), 9), (.endOfStream none, 10)] := by
    decide +kernel
  obtain ⟨hiff, -⟩ := tokenize_iff_tiling {} (utf8 "a/*/*/>==b") none
  cases htokens : (({} : Options).tokenize (utf8 "a/*/*/>==b") none).1 with
  | error e =>
      rw [htokens] at hplaced
      cases hplaced
  | ok tokens =>
      rw [htokens] at hplaced
      exact (hiff _).mp ⟨tokens, htokens, Option.some.inj hplaced⟩

end Options

end MiniC
