/-
# MiniC.Journal — what happened while a source was read.

Each stage notes what it does as an `Event`; a journal is a list of events in the order in which
they occurred.  What the reader has to note about a token or an error can be seen from the token or
error itself (`Event.ofDelivery`).
-/
import MiniC.Diagnostic
import MiniC.Text.Quoted

namespace MiniC

inductive Event where
  /-- A preprocessor line was read. -/
  | preprocessorLine (line column : Int) (text : Bytes)
  /-- A byte was met that starts no token. -/
  | unrecognizedByte (byte position : Int)
  /-- A top-level item begins with this token. -/
  | item (first : Token)
  /-- A statement begins with this token. -/
  | statement (first : Token)
  /-- The source was refused. -/
  | aborted (reason : SyntaxError)
  | parsing (file : String)
  | parsed (file : String) (tokens items nodes : Nat)
  | tokenized (file : String) (tokens : Nat)
deriving DecidableEq, Repr

namespace Event

/-- What the reader notes when it gives a token or fails. -/
def ofDelivery : Except SyntaxError Token → List Event
  | .ok t =>
    match t.lexeme with
    | .preprocessor text => [.preprocessorLine t.line t.column (text.getD [])]
    | _ => []
  | .error (.invalidByte byte position ..) => [.unrecognizedByte byte position]
  | .error _ => []

/-- How weighty an event is and which stage notes it. -/
def source : Event → String
  | .preprocessorLine .. | .unrecognizedByte .. => "DEBUG: rdcc.syntax.lexer: "
  | .item _ | .statement _ | .aborted _ => "DEBUG: rdcc.syntax.parser: "
  | .parsing _ | .parsed .. | .tokenized .. => "INFO: rdcc.syntax.frontend: "

def message : Event → Bytes
  | .preprocessorLine line column text =>
    utf8 "Preprocessor line at " ++ decimal line ++ utf8 ":" ++ decimal column ++ utf8 ": " ++ Text.quote text
  | .unrecognizedByte byte position =>
    utf8 "Unrecognized byte 0x" ++ hexPair byte ++ utf8 " at offset " ++ decimal position
  | .item first => utf8 "Top-level item at " ++ first.location.render ++ utf8 ": " ++ first.render
  | .statement first => utf8 "Statement at " ++ first.location.render ++ utf8 ": " ++ first.render
  | .aborted reason => utf8 "Parse aborted: " ++ reason.message
  | .parsing file => utf8 "Parsing " ++ utf8 file
  | .parsed file tokens items nodes =>
    utf8 "Parsed " ++ utf8 file ++ utf8 ": " ++ decimal tokens ++ utf8 " tokens, "
      ++ decimal items ++ utf8 " top-level items, " ++ decimal nodes ++ utf8 " nodes"
  | .tokenized file tokens =>
    utf8 "Tokenized " ++ utf8 file ++ utf8 ": " ++ decimal tokens ++ utf8 " tokens"

def render (e : Event) : Bytes := utf8 e.source ++ e.message

end Event

end MiniC
