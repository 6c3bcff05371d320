/-
# MiniC.Token.Stream — a reader taken to its end, all at once or by turns.

`Reader.drain` reads everything that is left, up to and including the end mark or up to the first
error.  A `Tap` does the same one token per call.  Taps hold no place of their own: any number of
them may draw on one reader, each token goes to whoever asks first, and a tap runs dry once it has
passed on the end mark or an error.
-/
import MiniC.Token.Reader

namespace MiniC

/-! ## All at once -/

/-- What was left in a reader: its tokens, the error that cut them short if one did, and the reader
afterwards. -/
structure Drained where
  tokens : List Token
  stop : Option SyntaxError
  reader : Reader
deriving DecidableEq, Repr

namespace Reader

/-- Reads to the end; `seen` holds the tokens read before, newest first. -/
def drainOnto (seen : List Token) (r : Reader) : Drained :=
  match delivery : r.next with
  | (.error e, after) => { tokens := seen.reverse, stop := some e, reader := after }
  | (.ok t, after) =>
    if live : t.atEnd then { tokens := (t :: seen).reverse, stop := none, reader := after }
    else
      have : after.rest.length < r.rest.length := by
        simpa [delivery] using rest_length_lt_of_next (congrArg Prod.fst delivery) (by simpa using live)
      after.drainOnto (t :: seen)
termination_by r.rest.length

/-- Everything that is left. -/
def drain (r : Reader) : Drained := r.drainOnto []

/-- The tokens that are left, with the end mark last, or the first error. -/
def tokens (r : Reader) : Except SyntaxError (List Token) :=
  match r.drain with
  | { stop := some e, .. } => .error e
  | { tokens, .. } => .ok tokens

end Reader

/-! ## By turns -/

/-- A consumer of a shared reader, dry once it has passed on the end mark or an error. -/
structure Tap where
  dry : Bool := false
deriving DecidableEq, Repr

namespace Tap

/-- Draws the next token, or nothing from a dry tap. -/
def pull (tap : Tap) (r : Reader) : Option (Except SyntaxError Token) × Tap × Reader :=
  if tap.dry then (none, tap, r)
  else
    match r.next with
    | (.error e, after) => (some (.error e), { dry := true }, after)
    | (.ok t, after) => (some (.ok t), { dry := t.atEnd }, after)

end Tap

end MiniC
