/-
# MiniC.Grammar.Parser — reading a grammar rule off a stream of tokens.

A `Parser` draws tokens from a reader only when a rule looks at them.  Tokens looked at and not yet
taken wait in `ahead`; no rule looks further than two tokens.  `tokensRead` counts what was drawn,
with the end mark, which can be drawn again and again, counted once.

A rule is a `Rule α`: it works on the parser, and leaves it where it stopped also when it fails.
Rules that can recur take a budget, an upper bound on how often they may; `Failure.exhausted` says
that it ran out.  `Parser.budget` is enough for everything the reader still holds.
-/
import MiniC.Journal
import MiniC.Token.Stream
import MiniC.Tree.Basic

namespace MiniC

/-! ## State -/

structure Parser where
  reader : Reader
  /-- Conditions must have a boolean operator at their top. -/
  strict : Bool := false
  ahead : List Token := []
  tokensRead : Nat := 0
  sawEnd : Bool := false
  started : Bool := false
  tree : Option Tree := none
  /-- Newest first. -/
  journal : List Event := []
deriving Repr

/-- Why a parser gives no tree. -/
inductive Failure where
  /-- The source is refused. -/
  | refused (reason : SyntaxError)
  /-- A rule recurred more often than its budget allows. -/
  | exhausted
  /-- A parser runs once. -/
  | alreadyRun
  /-- There is no tree to print. -/
  | noTree
deriving DecidableEq, Repr

namespace Failure

/-- The whole text of a failure. -/
def render : Failure → Bytes
  | .refused reason => reason.render
  | .exhausted => utf8 "reading budget exhausted"
  | .alreadyRun => utf8 "Parser.run() can only be called once"
  | .noTree => utf8 "no syntax tree to dump; run() has not succeeded"

end Failure

/-- A step of reading: it may look at tokens, take them, note events, fail. -/
abbrev Rule := EStateM Failure Parser

/-- A parser about to read from `reader`. -/
def Parser.new (reader : Reader) (strict : Bool) : Parser := { reader, strict }

/-- Enough recursion for what the parser has not yet taken: a token has at least one byte. -/
def Parser.budget (p : Parser) : Nat := p.ahead.length + p.reader.rest.length + 2

namespace Rule

/-! ## Looking and taking -/

/-- Notes an event. -/
def note (e : Event) : Rule Unit := modify fun p => { p with journal := e :: p.journal }

/-- Draws one more token from the reader and puts it last in `ahead`. -/
def draw : Rule Token := fun p =>
  let (delivery, reader) := p.reader.next
  let journal := (Event.ofDelivery delivery).reverse ++ p.journal
  match delivery with
  | .ok t =>
    .ok t
      { p with
        reader, journal
        ahead := p.ahead ++ [t]
        tokensRead := if p.sawEnd then p.tokensRead else p.tokensRead + 1
        sawEnd := p.sawEnd || t.atEnd }
  | .error e => .error (.refused e) { p with reader, journal }

/-- The token in front. -/
def peek : Rule Token := do
  match (← get).ahead with
  | t :: _ => return t
  | [] => draw

/-- The token behind the one in front. -/
def peekSecond : Rule Token := do
  let _ ← peek
  match (← get).ahead with
  | _ :: t :: _ => return t
  | _ => draw

/-- Takes the token in front. -/
def take : Rule Token := do
  let t ← peek
  modify fun p => { p with ahead := p.ahead.tail }
  return t

/-- Takes the token in front as a leaf. -/
def takeLeaf : Rule Node := return .leaf (← take)

/-! ## Refusing -/

/-- Refuses `found`, with the line it stands on. -/
def refuse {α : Type} (expected : Expectation) (found : Token) : Rule α := do
  throw (.refused (.unexpected expected found ((← get).reader.lineText found.line) none))

/-- Takes the token in front if it passes `fits`, else refuses it. -/
def expect (fits : Lexeme → Bool) (expected : Expectation) : Rule Token := do
  let t ← peek
  if fits t.lexeme then take else refuse expected t

def expectIdentifier (expected : Expectation) : Rule Node :=
  return .leaf (← expect (·.kind == .identifier) expected)

def expectSemicolon : Rule Token := expect (·.kind == .semicolon) .semicolon

def expectBracket (b : Bracket) : Rule Token := expect (· == .bracket b) (.bracket b)

/-- Takes the bracket that closes `opening`. -/
def close (b : Bracket) (opening : Token) : Rule Unit := do
  let t ← peek
  if t.isBracket b then
    let _ ← take
  else
    throw (.refused (.unmatched (.bracket b) t opening ((← get).reader.lineText t.line)))

/-! ## Repeating -/

/-- Adds the nodes of `item` to `seen`, newest first, for as long as `more` holds. -/
def repeatOnto (more : Rule Bool) (item : Rule (List Node)) : Nat → List Node → Rule (List Node)
  | 0, _ => throw .exhausted
  | budget + 1, seen => do
    if ← more then
      let nodes ← item
      repeatOnto more item budget (nodes.reverse ++ seen)
    else
      return seen.reverse

/-- The nodes of `item`, in order, for as long as `more` holds. -/
def repeatWhile (more : Rule Bool) (item : Rule (List Node)) (budget : Nat) : Rule (List Node) :=
  repeatOnto more item budget []

/-- A comma in front is taken and asks for another item. -/
def takeComma : Rule Bool := do
  if (← peek).kind == .comma then
    let _ ← take
    return true
  else
    return false

/-- Neither the end nor the curly bracket that closes a body. -/
def insideBody : Rule Bool := do
  let t ← peek
  return !(t.isBracket .rightCurlyBracket) && !t.atEnd

end Rule

end MiniC
