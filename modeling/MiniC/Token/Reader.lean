/-
# MiniC.Token.Reader — a source being read, one token at a time.

A `Reader` is a source and how far it has been read.  `next` passes one gap and one lexeme.  It
answers with a token or with the reason why there is none, and in both cases with the reader
afterwards: before a byte that starts no token the reader stands still, so asking again fails
again; an unclosed comment takes it to the end of the source.  At the end, every further `next`
answers with the end mark.
-/
import MiniC.Token.Gap
import MiniC.Token.Munch
import MiniC.Diagnostic

namespace MiniC

/-- A named source and how far it has been read: `rest` is what follows `mark`. -/
structure Reader where
  source : Bytes
  file : String
  mark : Mark
  rest : Bytes
deriving DecidableEq, Repr

namespace Reader

/-- A reader at the start of its source. -/
def new (source : Bytes) (file : String) : Reader := { source, file, mark := {}, rest := source }

/-! ## Lines of the source -/

/-- Line `n`, counted from one, without the carriage returns at its end. -/
def lineText (r : Reader) (n : Int) : Option Bytes :=
  if n < 1 then none else (Bytes.lineAfter (n.toNat - 1) r.source).map Bytes.trimReturns

/-- The line on which `m` stands, found from where `m` says that line starts. -/
def lineAt (r : Reader) (m : Mark) : Bytes :=
  Bytes.trimReturns (Bytes.firstLine (r.source.drop m.lineStart))

/-! ## One token -/

def locationAt (r : Reader) (m : Mark) : Location := { file := r.file, line := m.line, column := m.column }

def tokenAt (r : Reader) (m : Mark) (l : Lexeme) : Token :=
  { lexeme := l, line := m.line, column := m.column, offset := m.offset, file := r.file }

/-- The next token, or why there is none, and the reader afterwards. -/
def next (r : Reader) : Except SyntaxError Token × Reader :=
  match Gap.scan .between r.mark r.rest with
  | .unclosed start stop =>
    (.error (.unclosedComment start.offset (r.locationAt start) (r.lineAt start)),
      { r with mark := stop, rest := [] })
  | .clear m [] => (.ok (r.tokenAt m (.endOfStream none)), { r with mark := m, rest := [] })
  | .clear m (b :: rest) =>
    match Munch.first? (b :: rest) with
    | some munch =>
      (.ok (r.tokenAt m munch.lexeme),
        { r with
          mark := m.past ((b :: rest).take munch.length)
          rest := (b :: rest).drop munch.length })
    | none =>
      (.error (.invalidByte b.toNat m.offset (r.locationAt m) (r.lineAt m) none none),
        { r with mark := m, rest := b :: rest })

/-- Every token but the end mark takes the reader forward. -/
theorem rest_length_lt_of_next {r : Reader} {t : Token} (h : r.next.1 = .ok t)
    (live : t.atEnd = false) : r.next.2.rest.length < r.rest.length := by
  unfold next at h ⊢
  split at h
  · simp at h
  · simp only [Except.ok.injEq] at h
    subst h
    simp [tokenAt, Token.atEnd, Token.kind, Lexeme.kind] at live
  · next m b rest clear =>
    have shorter := Gap.length_le_of_scan_clear clear
    split at h
    · next munch found =>
      have positive := Munch.first?_length_pos found
      simp only [Gap.State.held, List.length_cons, List.length_drop] at shorter ⊢
      omega
    · simp at h

end Reader

end MiniC
