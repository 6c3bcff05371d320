/-
# MiniC.Frontend — from source to tokens or to a tree, with a journal.

The stages put together under one set of options.  Reading stops at the first error.  The journal
is part of the answer, whether or not the source was accepted.
-/
import MiniC.Files.Folder
import MiniC.Grammar.Unit

namespace MiniC

structure Options where
  /-- The name of a source that has none of its own. -/
  file : String := "<input>"
  /-- Conditions must have a boolean operator at their top. -/
  strict : Bool := false
  /-- What a printed tree is moved in by, per level. -/
  indent : Indent := {}
deriving DecidableEq, Repr

/-- A source that was accepted. -/
structure Parsed where
  file : String
  tree : Tree
  tokenCount : Nat
  indent : Indent
deriving Repr

namespace Parsed

/-- The tree, printed. -/
def dump (r : Parsed) : Bytes := r.tree.render r.indent

end Parsed

namespace Options

/-- The name a source goes by: its own unless that is missing or empty. -/
def fileName (o : Options) : Option String → String
  | none => o.file
  | some name => if name.isEmpty then o.file else name

/-- Reads a source into a tree. -/
def parse (o : Options) (source : Bytes) (name : Option String) : Except Failure Parsed × List Event :=
  let file := o.fileName name
  let (outcome, p) := (Parser.new (Reader.new source file) o.strict).run
  let journal := .parsing file :: p.journal.reverse
  match outcome with
  | .ok tree =>
    (.ok { file, tree, tokenCount := p.tokensRead, indent := o.indent },
      journal ++ [.parsed file p.tokensRead tree.items.length tree.nodeCount])
  | .error failure => (.error failure, journal)

/-- Reads a source into tokens, the end mark last. -/
def tokenize (o : Options) (source : Bytes) (name : Option String) :
    Except SyntaxError (List Token) × List Event :=
  let file := o.fileName name
  let drained := (Reader.new source file).drain
  let journal := drained.tokens.flatMap fun t => Event.ofDelivery (.ok t)
  match drained.stop with
  | some e => (.error e, journal ++ Event.ofDelivery (.error e))
  | none => (.ok drained.tokens, journal ++ [.tokenized file drained.tokens.length])

end Options

/-! ## Files -/

/-- Why a file gives no tree. -/
inductive FileFailure where
  | notFound (path : String)
  | isDirectory (path : String)
  | tooLong (path : String)
  | failed (failure : Failure)
deriving DecidableEq, Repr

namespace FileFailure

/-- A missing file is named as it was asked for; elsewhere the clean path is shown. -/
def render : FileFailure → Bytes
  | .notFound path => utf8 "Source file not found: " ++ utf8 path
  | .isDirectory path => utf8 "[Errno 21] Is a directory: " ++ Text.quote (utf8 (Path.clean path))
  | .tooLong path => utf8 "[Errno 36] File name too long: " ++ Text.quote (utf8 (Path.clean path))
  | .failed failure => failure.render

end FileFailure

namespace Options

/-- Reads a file into a tree; its name in tokens and messages is the path as given. -/
def parseFile (o : Options) (lookup : String → Entry) (path : String) :
    Except FileFailure Parsed × List Event :=
  match lookup (Path.clean path) with
  | .missing | .unnamed => (.error (.notFound path), [])
  | .tooLong => (.error (.tooLong path), [])
  | .directory => (.error (.isDirectory path), [])
  | .file content =>
    let (outcome, journal) := o.parse content (some path)
    (outcome.mapError .failed, journal)

end Options

end MiniC
