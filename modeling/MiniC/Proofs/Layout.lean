/-
# MiniC.Proofs.Layout — blanks and comments between tokens carry no meaning.

Layout that begins with a blank may be put in front of any token.  The tokens before it are read as
before: a blank ends every word, number and sign, as the text behind it did, and comments and `#` lines
were closed already, since a token follows them.  The token itself has a longer gap in front of it, and
from there on the same text is read at other places.  No rule asks where a token stands.
-/
import MiniC.Proofs.Cursor
import MiniC.Proofs.Printing
import MiniC.Proofs.Strictness

namespace MiniC

/-! ## Layout -/

/-- Blanks, line comments with their line feed, and block comments, in any number and order. -/
inductive IsLayout : Bytes → Prop
  | nil : IsLayout []
  | blank {b : UInt8} {layout : Bytes} :
      Byte.isBlank b = true → IsLayout layout → IsLayout (b :: layout)
  | line {body layout : Bytes} :
      Byte.lineFeed ∉ body → IsLayout layout →
      IsLayout (Byte.slash :: Byte.slash :: body ++ Byte.lineFeed :: layout)
  | block {comment layout : Bytes} :
      IsBlockComment comment → IsLayout layout → IsLayout (comment ++ layout)

/-- Layout leaves nothing open, so it is a gap whatever follows. -/
theorem IsLayout.isGap {layout : Bytes} (h : IsLayout layout) (after : Bytes) :
    IsGap layout after := by
  induction h with
  | nil => exact .nil
  | blank hb _ ih => exact .blank hb ih
  | line hbody _ ih =>
      refine .line (.mk hbody ?_) (.blank rfl ih)
      intro b hb
      exact (Option.some.inj hb).symm
  | block hcomment _ ih => exact .block hcomment ih

theorem IsGap.append {gap gap' after : Bytes} (h : IsGap gap (gap' ++ after))
    (h' : IsGap gap' after) : IsGap (gap ++ gap') after := by
  generalize hall : gap' ++ after = all at h
  induction h with
  | nil => exact h'
  | blank hb _ ih => exact .blank hb (ih hall)
  | @line comment gap _ hcomment _ ih =>
      rw [List.append_assoc]
      refine .line ?_ (ih hall)
      rw [List.append_assoc, hall]
      exact hcomment
  | block hcomment _ ih =>
      rw [List.append_assoc]
      exact .block hcomment (ih hall)

/-- In front of a lexeme layout can be put in. -/
theorem resumes_layout {layout after : Bytes} (hblank : layout.head?.any Byte.isBlank = true)
    (hne : after ≠ []) (hends : EndsGap after) : Resumes after (layout ++ after) where
  blank := by
    cases layout with
    | nil => cases hblank
    | cons b layout => exact ⟨b, layout ++ after, rfl, by simpa using hblank⟩
  line hline := by
    -- A lexeme does not begin with a line feed.
    obtain ⟨b, rest, rfl⟩ := List.exists_cons_of_ne_nil hne
    have hfeed := hline b rfl
    have hb := hends.blank b rfl
    rw [hfeed] at hb
    cases hb

/-! ## The same errors further on -/

/-- The same error of reading, so many bytes further on. -/
inductive SyntaxError.Moved (n : Nat) : SyntaxError → SyntaxError → Prop
  | invalidByte {byte position : Int} {place place' : Option Location} {line line' : Option Bytes}
      {message hint : Option Bytes} :
      Moved n (.invalidByte byte position place line message hint)
        (.invalidByte byte (position + n) place' line' message hint)
  | unclosedComment {position : Int} {place place' : Option Location} {line line' : Option Bytes} :
      Moved n (.unclosedComment position place line) (.unclosedComment (position + n) place' line')

theorem Mark.offset_step_add {n : Nat} {m m' : Mark} (b : UInt8) (h : m'.offset = m.offset + n) :
    (m'.step b).offset = (m.step b).offset + n := by
  rw [Gap.offset_step, Gap.offset_step, h, Nat.add_right_comm]

/-- Readers of one text, the second `n` bytes further on. -/
def Likeness.Mirror.further (n : Nat) (source source' : Bytes) (file : String) :
    lexemes.Mirror :=
  .ofMarks lexemes (fun m m' => m'.offset = m.offset + n) (SyntaxError.Moved n) source source' file
    Mark.offset_step_add
    (fun _ _ => rfl)
    (fun h => by
      rw [h]
      exact .unclosedComment)
    (fun _ h => by
      rw [h]
      exact .invalidByte)

/-! ## Layout put in -/

/-- The text with a piece put in at an offset. -/
def Bytes.insertAt (text : Bytes) (offset : Nat) (piece : Bytes) : Bytes :=
  text.take offset ++ (piece ++ text.drop offset)

namespace Reader

variable {source layout : Bytes} {file : String} {t : Token}

/-- A token stands behind all that was passed before it and its gap. -/
theorem insertAt_offset {r : Reader} {gap after passed : Bytes} {l : Lexeme}
    (hsource : source = passed ++ gap ++ after) (hmark : r.mark = Mark.past {} passed)
    (piece : Bytes) : source.insertAt (r.tokenAt (r.mark.past gap) l).offset.toNat piece
      = passed ++ gap ++ (piece ++ after) := by
  have hoffset : (r.tokenAt (r.mark.past gap) l).offset.toNat = (passed ++ gap).length := by
    show (r.mark.past gap).offset = _
    rw [Mark.offset_past, hmark, Mark.offset_past, List.length_append]
    show 0 + passed.length + gap.length = _
    omega
  rw [Bytes.insertAt, hoffset, hsource, List.take_left, List.drop_left]

/-- With layout in front of one of its tokens a source is read as it was, and from there on further
on. -/
theorem mirror_insertAt (ht : t ∈ (new source file).stream) (hlive : t.atEnd = false)
    (hlayout : IsLayout layout) (hblank : layout.head?.any Byte.isBlank = true) :
    (Likeness.Mirror.further layout.length source (source.insertAt t.offset.toNat layout)
      file).later.readers (new source file)
        (new (source.insertAt t.offset.toNat layout) file) := by
  obtain ⟨⟨r', hdeliv⟩, hfirst⟩ := (new source file).delivers_stream
  obtain ⟨us, vs, hstream⟩ := List.append_of_mem ht
  rw [hstream] at hdeliv hfirst
  have hus : ∀ u ∈ us, u.atEnd = false := by
    intro u hu
    refine hfirst u ?_
    rw [List.dropLast_append_of_ne_nil (by simp)]
    exact List.mem_append_left _ hu
  obtain ⟨r, hbefore, hafter⟩ := hdeliv.split
  cases hafter with
  | cons hnext _ =>
      obtain ⟨gap, text, after, l, hrest, hgap, hends, hlexeme, rfl, rfl⟩ :=
        next_live_cases hnext hlive
      have hresumes : Resumes (text ++ after) (layout ++ (text ++ after)) :=
        resumes_layout hblank (by simp [hlexeme.ne_nil]) hends
      obtain ⟨passed, hsource, hmark⟩ := (inPlace_new source file).delivers hbefore
      have hcut : source = passed ++ gap ++ (text ++ after) := by
        rw [hbefore.source_eq, hrest, ← List.append_assoc] at hsource
        exact hsource
      rw [insertAt_offset hcut hmark]
      -- The tokens before are the same; the token itself has the layout in its gap.
      obtain ⟨u, hu, hsame⟩ := hbefore.resume hresumes
        (passed ++ gap ++ (layout ++ (text ++ after))) hus hrest
      obtain rfl : passed ++ gap = u := List.append_cancel_right (hcut.symm.trans hu)
      have hlonger : IsGap (gap ++ layout) (text ++ after) :=
        (hgap.resume hresumes.line).append (hlayout.isGap _)
      have hnext' := next_of_isLexeme
        (r := { r with
          source := passed ++ gap ++ (layout ++ (text ++ after))
          rest := gap ++ (layout ++ (text ++ after)) })
        hlonger hends hlexeme (List.append_assoc _ _ _).symm
      refine ⟨_, _, _, _, hbefore.append (.single hnext), hsame.append (.single hnext'), ?_,
        ⟨hbefore.source_eq, hbefore.file_eq⟩, ⟨rfl, hbefore.file_eq⟩, ?_⟩
      · exact Likeness.forall₂_lexemes.mpr (by simp [tokenAt])
      · refine Gap.scan_like Mark.offset_step_add .between ?_ after
        simp only [Mark.offset_past, List.length_append]
        omega

end Reader

/-! ## Trees without places -/

theorem Likeness.bare_eq_of_ofNode {L : Likeness} {n n' : Node} (h : L.OfNode n n') :
    n.bare = n'.bare := by
  have hpasses : L.Passes fun n n' => n.bare = n'.bare := by
    intro kind children children' token token' location location' hchildren htoken _
    have hchildren' : children.map Node.bare = children'.map Node.bare := by
      rw [← List.forall₂_eq_eq_eq, List.forall₂_map_left_iff, List.forall₂_map_right_iff]
      exact hchildren
    have htoken' : token.map Token.bare = token'.map Token.bare := by
      cases htoken with
      | none => rfl
      | some ht =>
          rw [Option.map_some, Option.map_some, Token.bare, L.lexeme_eq ht]
          rfl
    rw [Node.bare_mk, Node.bare_mk, hchildren', htoken']
  exact OfNode.lift hpasses n n' h

theorem Likeness.map_bare_eq {L : Likeness} {ns ns' : List Node} (h : L.OfNodes ns ns') :
    ns.map Node.bare = ns'.map Node.bare := by
  rw [← List.forall₂_eq_eq_eq, List.forall₂_map_left_iff, List.forall₂_map_right_iff]
  exact h.imp fun _ _ => bare_eq_of_ofNode

namespace Options

variable {o : Options} {source layout : Bytes} {name : Option String} {t : Token}

/-- Layout that begins with a blank, put in front of any token of a source, changes none of its
lexemes.  The stream ends in the same way, and an error there stands further on by as much as was put
in.  The source is accepted if it was, with the same tree but for places, or else refused for the same
reason, over the same lexeme. -/
theorem layout_carries_no_meaning (ht : t ∈ o.stream source name) (hlive : t.atEnd = false)
    (hlayout : IsLayout layout) (hblank : layout.head?.any Byte.isBlank = true) :
    (o.stream source name).map Token.lexeme
      = (o.stream (source.insertAt t.offset.toNat layout) name).map Token.lexeme ∧
    Agree (SyntaxError.Moved layout.length)
      (fun tokens tokens' => tokens.map Token.lexeme = tokens'.map Token.lexeme)
      (o.tokenize source name).1 (o.tokenize (source.insertAt t.offset.toNat layout) name).1 ∧
    Agree
      (fun f f' => ∃ e e', f = .refused e ∧ f' = .refused e' ∧
        (e.Moved layout.length e' ∨ Likeness.lexemes.OfError e e'))
      (fun r r' => r.tree.root.bare = r'.tree.root.bare)
      (o.parse source name).1 (o.parse (source.insertAt t.offset.toNat layout) name).1 := by
  have hmirror := Reader.mirror_insertAt ht hlive hlayout hblank
  have hlen : source.length ≤ (source.insertAt t.offset.toNat layout).length := by
    have hcut := congrArg List.length (List.take_append_drop t.offset.toNat source)
    simp only [Bytes.insertAt, List.length_append] at hcut ⊢
    omega
  refine ⟨Likeness.forall₂_lexemes.mp (stream_of_mirror hmirror), ?_, ?_⟩
  · exact (tokenize_of_mirror hmirror).imp (fun _ _ he => he) fun _ _ => Likeness.forall₂_lexemes.mp
  · refine (parse_of_mirror hmirror hlen).imp (fun _ _ he => he) ?_
    rintro r r' ⟨es, es', htree, htree', hlike⟩
    rw [htree, htree', Tree.ofItems, Tree.ofItems, Node.bare_branchAt, Node.bare_branchAt,
      Likeness.map_bare_eq hlike]

/-- A comment between a division and its operand, which without the blank would begin one byte
earlier. -/
theorem layout_behind_division :
    IsLayout (utf8 " /**/") ∧
    (({} : Options).stream (utf8 "void f()\x7ba=b/c;\x7d") none).map Token.lexeme
      = (({} : Options).stream (utf8 "void f()\x7ba=b/ /**/c;\x7d") none).map Token.lexeme ∧
    ∃ r r', (({} : Options).parse (utf8 "void f()\x7ba=b/c;\x7d") none).1 = .ok r ∧
      (({} : Options).parse (utf8 "void f()\x7ba=b/ /**/c;\x7d") none).1 = .ok r' ∧
      r.tree.root.bare = r'.tree.root.bare := by
  have hclose : FirstClose [] := fun i hi => absurd hi (Nat.not_lt_zero i)
  have hcomment : IsLayout (utf8 "/**/" ++ []) := .block (.mk hclose) .nil
  have hlayout : IsLayout (utf8 " /**/") := .blank rfl hcomment
  have hmem : ({ lexeme := .identifier (some (utf8 "c")), column := 14, offset := 13 } : Token)
      ∈ ({} : Options).stream (utf8 "void f()\x7ba=b/c;\x7d") none := by
    decide +kernel
  have haccepted : (({} : Options).parse (utf8 "void f()\x7ba=b/c;\x7d") none).1.toBool = true := by
    decide +kernel
  obtain ⟨hstream, -, hparse⟩ := layout_carries_no_meaning hmem rfl hlayout rfl
  refine ⟨hlayout, hstream, ?_⟩
  obtain ⟨r, hok⟩ := exists_ok_of_toBool haccepted
  rw [hok] at hparse
  generalize hok' : (Options.parse _ (Bytes.insertAt _ _ _) none).1 = outcome at hparse
  cases hparse with
  | @ok _ r' hbare => exact ⟨r, r', hok, hok', hbare⟩

end Options

end MiniC
