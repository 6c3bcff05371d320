/-
# MiniC.Command.Run — the command: arguments and files in, output and exit code out.

With `--tokens` the command prints one token per line, else the syntax tree.  The journal goes to
the error channel under `--verbose`, ahead of anything the command says about the result.  The exit
code is 1 for a source that is refused, 2 for bad arguments or files, 3 for a fault of the command
itself, such as text that the standard channel cannot take.  A run that breaks down before it has a
job ends with 1 too, and says nothing.
-/
import MiniC.Command.Console
import MiniC.Command.Invocation
import MiniC.Frontend

namespace MiniC.Command

/-! ## Output -/

/-- What a run leaves behind. -/
structure Outcome where
  exitCode : UInt8 := 0
  stdout : Bytes := []
  stderr : Bytes := []
deriving DecidableEq, Repr

namespace Outcome

/-- Adds text to the error channel. -/
def warn (o : Outcome) (text : Bytes) : Outcome := { o with stderr := o.stderr ++ text }

/-- Adds a line of the command's own to the error channel. -/
def warnLine (o : Outcome) (text : Bytes) : Outcome := o.warn (Console.error (Console.line text))

end Outcome

/-! ## Faults -/

/-- What a run may fail with once its arguments are in order. -/
inductive Fault where
  /-- The front end fails with a text of its own. -/
  | failed (text : Bytes)
  /-- The front end fails with a diagnostic. -/
  | diagnosed (diagnostic : Diagnostic)
  | badParameter (text : Bytes)
  | notFound (text : Bytes)
  | forbidden (text : Bytes)
  | isDirectory (text : Bytes)
  /-- The system fails in some other way. -/
  | system (text : Bytes)
  /-- A value that cannot be used. -/
  | value (text : Bytes)
  /-- Something is done in a state that does not allow it. -/
  | state (text : Bytes)
deriving DecidableEq, Repr

/-- How a fault is reported. -/
inductive Trouble where
  /-- The source is refused; the text speaks for itself. -/
  | rejected (text : Bytes)
  /-- An argument or a file is no good. -/
  | invalid (text : Bytes)
  /-- A fault of the command itself. -/
  | internal (text : Bytes)
deriving DecidableEq, Repr

namespace Trouble

def exitCode : Trouble → UInt8
  | .rejected _ => 1
  | .invalid _ => 2
  | .internal _ => 3

def message : Trouble → Bytes
  | .rejected text => text
  | .invalid text => utf8 "Error: " ++ text
  | .internal text => utf8 "Internal error: " ++ text

/-- Ends a run; under `verbose` an internal fault is followed by a line on its cause, of which
nothing is known. -/
def finish (t : Trouble) (verbose : Bool) (o : Outcome) : Outcome :=
  let told := { o.warnLine t.message with exitCode := t.exitCode }
  match t with
  | .internal _ => if verbose then told.warn (utf8 "NoneType: None\n") else told
  | _ => told

end Trouble

/-- Sorts faults.  Whatever fails in the front end is about the source; of files only those that cannot
be opened are the caller's to mend. -/
def Fault.trouble : Fault → Trouble
  | .failed text => .rejected text
  | .diagnosed diagnostic => .rejected diagnostic.render
  | .badParameter text | .notFound text | .forbidden text | .isDirectory text => .invalid text
  | .system text | .value text | .state text => .internal text

/-- Ends a run with a fault. -/
def Fault.finish (f : Fault) (verbose : Bool) (o : Outcome) : Outcome := f.trouble.finish verbose o

/-! ## Fixed texts -/

def usage : String := "Usage: rdcc [OPTIONS] INPUT_FILE\n"

def versionText : String := "rdcc, version 1.0.0\n"

def helpText : String := usage ++ "
  Parse a C source file and print its syntax tree.

  INPUT_FILE is the C source file (.c) to parse.

  Examples:
      rdcc hello.c                 # Print the syntax tree
      rdcc --tokens hello.c        # One token per line
      rdcc --indent 4 hello.c      # Wider tree indentation
      rdcc -v hello.c              # Debug logging on stderr

  Supported C subset:
      - int/short/long/char/float/double types, struct definitions
      - function prototypes and definitions
      - if/else, while, for, break, return, assignment
      - arithmetic, comparison and logical operators

Options:
  --tokens                Print the token stream instead of the syntax tree
  --strict                Reject if/while/for conditions without a boolean
                          operator
  --indent INTEGER RANGE  Spaces per level in the tree dump  [default: 2; x>=0]
  -v, --verbose           Verbose output
  --version               Show the version and exit.
  --help                  Show this message and exit.
"

/-- A run that ends at its arguments. -/
def refuseUsage (e : UsageError) : Outcome :=
  let intro := if e.showsUsage then usage ++ "Try 'rdcc --help' for help.\n\n" else ""
  ({ exitCode := 2, stderr := utf8 intro } : Outcome).warnLine (utf8 "Error: " ++ e.message)

/-- How a run ends that has no job. -/
def halt : Invocation.Halt → Outcome
  | .usage e => refuseUsage e
  | .breakdown => { exitCode := 1 }

def answer : Inquiry → Outcome
  | .version => { stdout := utf8 versionText }
  | .help => { stdout := utf8 helpText }

/-! ## Jobs -/

/-- Prints lines to the standard channel until one is refused; `shown` holds the lines printed
before, newest first. -/
def printOnto (shown : List Bytes) : List Bytes → List Bytes × Option Console.Refusal
  | [] => (shown.reverse, none)
  | text :: rest =>
    match Console.standard (Console.line text) with
    | .error refusal => (shown.reverse, some refusal)
    | .ok written => printOnto (written :: shown) rest

/-- The journal on the error channel, if asked for; its lines are not the command's own. -/
def journalText (verbose : Bool) (journal : List Event) : Bytes :=
  if verbose then
    journal.flatMap fun e => Console.error (Glyph.decode e.render) ++ [Byte.lineFeed]
  else []

/-- Prints lines and goes on, or ends the run. -/
def printThen (verbose : Bool) (o : Outcome) (texts : List Bytes) (next : Outcome → Outcome) : Outcome :=
  let (shown, refusal) := printOnto [] texts
  let o := { o with stdout := o.stdout ++ shown.flatten }
  match refusal with
  | none => next o
  | some refusal => (Fault.value refusal.message).finish verbose o

def options (job : Invocation.Job) : Options :=
  { file := Path.clean job.path, strict := job.strict
    indent := { text := [Byte.space], times := job.indent } }

def runTokens (job : Invocation.Job) : Outcome :=
  let (outcome, journal) := (options job).tokenize job.content none
  let o : Outcome := { stderr := journalText job.verbose journal }
  match outcome with
  | .error e => (Fault.diagnosed e.diagnostic).finish job.verbose o
  | .ok tokens => printThen job.verbose o (tokens.map Token.render) id

def runTree (job : Invocation.Job) : Outcome :=
  let (outcome, journal) := (options job).parse job.content none
  let o : Outcome := { stderr := journalText job.verbose journal }
  match outcome with
  | .error (.refused e) => (Fault.diagnosed e.diagnostic).finish job.verbose o
  | .error failure => (Fault.state failure.render).finish job.verbose o
  | .ok parsed =>
    printThen job.verbose o [parsed.dump] fun o =>
      if job.verbose then
        (o.warnLine (utf8 "Tokenized: " ++ decimal parsed.tokenCount ++ utf8 " tokens")).warnLine
          (utf8 "Parsed: " ++ decimal parsed.tree.items.length ++ utf8 " top-level items")
      else o

/-- The command. -/
def run (arguments : List String) (lookup : String → Entry) : Outcome :=
  match Invocation.read arguments with
  | .error e => refuseUsage e
  | .ok v =>
    match v.inquiry with
    | some inquiry => answer inquiry
    | none =>
      match v.check lookup with
      | .error h => halt h
      | .ok job => if job.tokens then runTokens job else runTree job

/-- The path of which the content decides how a run ends, if there is one. -/
def inputPath? (arguments : List String) : Option String :=
  match Invocation.read arguments with
  | .ok v => v.arguments.head?
  | .error _ => none

end MiniC.Command
