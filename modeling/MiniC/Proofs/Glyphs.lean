/-
# MiniC.Proofs.Glyphs — characters and the bytes that spell them.

Decoding loses nothing: the glyphs of a text spell the text again (`Glyph.encode_decode`).  So a text
has as many glyphs as bytes exactly if each of them is spelled by one byte.

Where a text may be cut is another matter, since a character of several bytes may lie across the cut.
Next to a byte of ASCII it cannot: no such byte goes on a character, and none opens one that goes on
(`Glyph.Seam`).
-/
import MiniC.Text.Glyph

namespace MiniC.Glyph

variable {b : UInt8} {c : Char} {k n bits least more skip : Nat} {text after rest : Bytes}

/-! ## One character -/

/-- A byte that goes on a character adds six bits. -/
theorem gather_succ (h : gather (k + 1) bits text = some n) :
    ∃ b rest, text = b :: rest ∧ 128 ≤ b.toNat ∧ b.toNat < 192 ∧
      gather k (bits * 64 + (b.toNat - 128)) rest = some n := by
  cases text with
  | nil => cases h
  | cons b rest =>
      rw [gather] at h
      split at h
      · next hb =>
          exact ⟨b, rest, rfl, UInt8.le_iff_toNat_le.mp hb.1, UInt8.lt_iff_toNat_lt.mp hb.2, h⟩
      · cases h

theorem toNat_of_scalar? (h : scalar? least n = some c) : least ≤ n ∧ c.val.toNat = n := by
  unfold scalar? at h
  split at h
  · next hn =>
      cases h
      refine ⟨hn.1, ?_⟩
      rw [Char.ofNat, dif_pos hn.2]
      rfl
  · cases h

/-- A character of several bytes: what they add up to is its number, and needs that many bytes. -/
theorem longer_of_eq_some {m : Nat}
    (h : (gather k bits rest >>= scalar? least).map (·, m) = some (c, more)) :
    gather k bits rest = some c.val.toNat ∧ least ≤ c.val.toNat ∧ more = m := by
  obtain ⟨c', hc', hpair⟩ := Option.map_eq_some_iff.mp h
  obtain ⟨rfl, rfl⟩ := by simpa using hpair
  obtain ⟨n, hn, hscalar⟩ := Option.bind_eq_some_iff.mp hc'
  obtain ⟨hleast, rfl⟩ := toNat_of_scalar? hscalar
  exact ⟨hn, hleast, rfl⟩

theorem ofNat_eq (h : n = b.toNat) : UInt8.ofNat n = b := by
  rw [h, UInt8.ofNat_toNat]

/-- The character that a text opens with is spelled by the bytes that it takes. -/
theorem spelled_of_charAt? (h : charAt? (b :: rest) = some (c, more)) :
    String.utf8EncodeChar c = b :: rest.take more ∧ more ≤ rest.length := by
  unfold charAt? at h
  simp only [UInt8.lt_iff_toNat_lt, UInt8.reduceToNat] at h
  -- The first byte says how many follow it; what they add up to is taken apart again by division.
  split at h
  · next hone =>
      obtain ⟨rfl, rfl⟩ := by simpa using h
      have hvalid : b.toNat.isValidChar := .inl (by omega)
      have hval : (Char.ofNat b.toNat).val.toNat = b.toNat := by
        rw [Char.ofNat, dif_pos hvalid]
        rfl
      simp only [String.utf8EncodeChar, hval]
      rw [if_pos (by omega), ofNat_eq rfl]
      exact ⟨rfl, Nat.zero_le _⟩
  split at h
  · cases h
  split at h
  · obtain ⟨hgather, hleast, rfl⟩ := longer_of_eq_some h
    obtain ⟨b₁, rest, rfl, hlo₁, hhi₁, hdone⟩ := gather_succ hgather
    have hval := Option.some.inj hdone
    simp only [String.utf8EncodeChar, ← hval] at hleast ⊢
    rw [if_neg (by omega), if_pos (by omega), ofNat_eq (b := b) (by omega),
      ofNat_eq (b := b₁) (by omega)]
    exact ⟨rfl, by simp⟩
  split at h
  · obtain ⟨hgather, hleast, rfl⟩ := longer_of_eq_some h
    obtain ⟨b₁, rest, rfl, hlo₁, hhi₁, hgather⟩ := gather_succ hgather
    obtain ⟨b₂, rest, rfl, hlo₂, hhi₂, hdone⟩ := gather_succ hgather
    have hval := Option.some.inj hdone
    simp only [String.utf8EncodeChar, ← hval] at hleast ⊢
    rw [if_neg (by omega), if_neg (by omega), if_pos (by omega), ofNat_eq (b := b) (by omega),
      ofNat_eq (b := b₁) (by omega), ofNat_eq (b := b₂) (by omega)]
    exact ⟨rfl, by simp⟩
  split at h
  · obtain ⟨hgather, hleast, rfl⟩ := longer_of_eq_some h
    obtain ⟨b₁, rest, rfl, hlo₁, hhi₁, hgather⟩ := gather_succ hgather
    obtain ⟨b₂, rest, rfl, hlo₂, hhi₂, hgather⟩ := gather_succ hgather
    obtain ⟨b₃, rest, rfl, hlo₃, hhi₃, hdone⟩ := gather_succ hgather
    have hval := Option.some.inj hdone
    simp only [String.utf8EncodeChar, ← hval] at hleast ⊢
    rw [if_neg (by omega), if_neg (by omega), if_neg (by omega), ofNat_eq (b := b) (by omega),
      ofNat_eq (b := b₁) (by omega), ofNat_eq (b := b₂) (by omega), ofNat_eq (b := b₃) (by omega)]
    exact ⟨rfl, by simp⟩
  · cases h

/-! ## Nothing is lost -/

theorem encode_cons (g : Glyph) (gs : List Glyph) : encode (g :: gs) = g.bytes ++ encode gs :=
  List.flatMap_cons

theorem encode_decodeFrom (skip : Nat) (text : Bytes) :
    encode (decodeFrom skip text) = text.drop skip := by
  fun_induction decodeFrom skip text with
  | case1 => simp [encode]
  | case2 skip b rest ih => exact ih
  | case3 b rest c more hchar ih =>
      have hspelled : (Glyph.char c).bytes = b :: rest.take more := (spelled_of_charAt? hchar).1
      rw [encode_cons, hspelled, ih, List.cons_append, List.take_append_drop, List.drop_zero]
  | case4 b rest _ ih =>
      rw [encode_cons, ih]
      rfl

theorem encode_decode (text : Bytes) : encode (decode text) = text := encode_decodeFrom 0 text

theorem bytes_ne_nil (g : Glyph) : g.bytes ≠ [] := by
  cases g with
  | char c => simp [bytes]
  | stray b => simp [bytes]

/-- There are never more glyphs than bytes, and as many only if each glyph is one byte. -/
theorem length_le_encode (gs : List Glyph) :
    gs.length ≤ (encode gs).length ∧
      (gs.length = (encode gs).length ↔ ∀ g ∈ gs, g.bytes.length = 1) := by
  induction gs with
  | nil => simp [encode]
  | cons g gs ih =>
      have hpos : 0 < g.bytes.length := List.length_pos_iff.mpr g.bytes_ne_nil
      rw [encode_cons, List.length_cons, List.length_append, List.forall_mem_cons, ← ih.2]
      omega

theorem length_decode_eq_iff (text : Bytes) :
    (decode text).length = text.length ↔ ∀ g ∈ decode text, g.bytes.length = 1 := by
  rw [← (length_le_encode (decode text)).2, encode_decode]

/-! ## Seams -/

theorem gather_append (h : b < 128) (k bits : Nat) (text rest : Bytes) :
    gather k bits (text ++ b :: rest) = gather k bits text := by
  induction text generalizing k bits with
  | nil =>
      cases k with
      | zero => rfl
      | succ k =>
          have hnot : ¬ (128 ≤ b ∧ b < 192) := fun hb => UInt8.not_le.mpr h hb.1
          exact if_neg hnot
  | cons d text ih =>
      cases k with
      | zero => rfl
      | succ k => rw [List.cons_append, gather, gather, ih]

/-- Whether bytes open with a character shows before any byte of ASCII behind them. -/
theorem charAt?_append (h : b < 128) (d : UInt8) (text rest : Bytes) :
    charAt? (d :: (text ++ b :: rest)) = charAt? (d :: text) := by
  simp only [charAt?, gather_append h]

theorem decodeFrom_append (h : b < 128) (rest : Bytes) (hskip : skip ≤ text.length) :
    decodeFrom skip (text ++ b :: rest) = decodeFrom skip text ++ decode (b :: rest) := by
  fun_induction decodeFrom skip text with
  | case1 skip =>
      obtain rfl : skip = 0 := Nat.le_zero.mp hskip
      rfl
  | case2 skip d text ih => exact ih (Nat.le_of_succ_le_succ hskip)
  | case3 d text c more hchar ih =>
      have hmore : more ≤ text.length := (spelled_of_charAt? hchar).2
      rw [List.cons_append, decodeFrom, charAt?_append h, hchar]
      exact congrArg (Glyph.char c :: ·) (ih hmore)
  | case4 d text hstray ih =>
      rw [List.cons_append, decodeFrom, charAt?_append h, hstray]
      exact congrArg (Glyph.stray d :: ·) (ih (Nat.zero_le _))

theorem decode_cons (h : b < 128) (rest : Bytes) :
    decode (b :: rest) = .char (Char.ofNat b.toNat) :: decode rest := by
  have hchar : charAt? (b :: rest) = some (Char.ofNat b.toNat, 0) := if_pos h
  rw [decode, decodeFrom, hchar]
  rfl

/-- Between the two texts there is a byte of ASCII, on the one side or the other, or nothing. -/
def Seam (text after : Bytes) : Prop :=
  ∀ b ∈ after.head?, 128 ≤ b → ∀ d ∈ text.getLast?, d < 128

/-- No character lies across a seam. -/
theorem Seam.decode_append (h : Seam text after) :
    decode (text ++ after) = decode text ++ decode after := by
  cases after with
  | nil => simp [decode, decodeFrom]
  | cons b rest =>
      by_cases hb : b < 128
      · exact decodeFrom_append hb rest (Nat.zero_le _)
      rcases List.eq_nil_or_concat text with rfl | ⟨init, d, rfl⟩
      · rfl
      -- The byte in front of the seam is a character of its own, with or without what follows.
      have hd : d < 128 := h b rfl (UInt8.not_lt.mp hb) d (by simp)
      have hcut : ∀ tail, decode (init ++ d :: tail) = decode init ++ decode (d :: tail) :=
        fun tail => decodeFrom_append hd tail (Nat.zero_le _)
      have hjoin : init ++ [d] ++ b :: rest = init ++ d :: b :: rest := by simp
      rw [List.concat_eq_append, hjoin, hcut, hcut [], decode_cons hd, decode_cons hd, List.append_assoc]
      rfl

end MiniC.Glyph
