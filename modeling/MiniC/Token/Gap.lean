/-
# MiniC.Token.Gap — what stands between tokens.

A gap is any run of blanks, `//` comments and block comments.  A line comment ends before its line
feed or at the end of the source.  A block comment ends at the first `*/` after its opening two
bytes, so `/*/` opens one and does not close it; if there is none, the comment is unclosed and
takes the rest of the source with it.

`Gap.scan` passes a gap one byte at a time, as an automaton whose state is `Gap.State`.
-/
import MiniC.Source.Mark

namespace MiniC

/-- How a gap ends: clear, with the text that follows it, or inside a block comment that began at
`start` and is still open at `stop`, the end of the source. -/
inductive Gap where
  | clear (mark : Mark) (rest : Bytes)
  | unclosed (start stop : Mark)
deriving DecidableEq, Repr

namespace Gap

/-- Where in a gap the scan is. -/
inductive State where
  /-- Outside comments. -/
  | between
  /-- After a slash at `start` that may open a comment. -/
  | slash (start : Mark)
  /-- In a line comment. -/
  | line
  /-- In a block comment that began at `start`; `star` if the byte before was a star of its body. -/
  | block (start : Mark) (star : Bool)
deriving DecidableEq, Repr

/-- Passes the gap that `text` opens with. -/
def scan : State → Mark → Bytes → Gap
  | .between, m, [] => .clear m []
  | .between, m, b :: rest =>
    if Byte.isBlank b then scan .between (m.step b) rest
    else if b = Byte.slash then scan (.slash m) (m.step b) rest
    else .clear m (b :: rest)
  | .slash start, _, [] => .clear start [Byte.slash]
  | .slash start, m, b :: rest =>
    if b = Byte.slash then scan .line (m.step b) rest
    else if b = Byte.star then scan (.block start false) (m.step b) rest
    else .clear start (Byte.slash :: b :: rest)
  | .line, m, [] => .clear m []
  | .line, m, b :: rest =>
    if b = Byte.lineFeed then scan .between (m.step b) rest else scan .line (m.step b) rest
  | .block start _, m, [] => .unclosed start m
  | .block start star, m, b :: rest =>
    if star && b == Byte.slash then scan .between (m.step b) rest
    else scan (.block start (b == Byte.star)) (m.step b) rest

/-- A slash that turned out to open no comment is given back. -/
def State.held : State → Nat
  | .slash _ => 1
  | _ => 0

/-- A gap never adds to the text. -/
theorem length_le_of_scan_clear {s : State} {m m' : Mark} {text rest : Bytes}
    (h : scan s m text = .clear m' rest) : rest.length ≤ text.length + s.held := by
  fun_induction scan s m text with
  | case1 | case4 | case5 | case8 | case9 => cases h; simp [State.held]
  | case12 => cases h
  | case2 _ _ _ _ ih | case3 _ _ _ ih | case6 _ _ _ ih | case7 _ _ _ _ ih
  | case10 _ _ ih | case11 _ _ _ _ ih | case13 _ _ _ _ _ _ ih | case14 _ _ _ _ _ _ ih =>
    have := ih h
    simp [State.held] at this ⊢
    omega

end Gap

end MiniC
