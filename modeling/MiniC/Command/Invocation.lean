/-
# MiniC.Command.Invocation — the arguments of the command.

Options may stand anywhere among the arguments, up to a `--` that ends them.  A long option may
carry its value behind an equals sign; one that takes no value must not.  Letters after a single
dash are options of their own.  A dash alone is no option.

Which of several faults is told: first any fault of form, in the order of the arguments; then
`--version` or `--help`, whichever came first, answers instead of everything else; then the value
of `--indent`, the last one given; then the input file; then a surplus of arguments; and last an
indent too wide to be made.
-/
import MiniC.Files.Folder
import MiniC.Limits
import MiniC.Text.Integer
import MiniC.Text.Quoted
import MiniC.Text.Similarity

namespace MiniC

/-! ## Faults -/

/-- What can be wrong with the arguments. -/
inductive UsageError where
  | noSuchOption (name : String) (close : List String)
  | valueUnwanted (name : String)
  | valueMissing (name : String)
  | indentNotInteger (text : String)
  | indentNegative (n : Int)
  | inputMissing
  | inputNotFound (path : String)
  | inputIsDirectory (path : String)
  | surplus (arguments : List String)
deriving DecidableEq, Repr

namespace UsageError

/-- Names in alphabetical order, with commas between them. -/
def listed (names : List String) : Bytes :=
  utf8 (", ".intercalate (names.mergeSort fun a b => !(b < a)))

def message : UsageError → Bytes
  | .noSuchOption name close =>
    utf8 "No such option: " ++ utf8 name ++
    match close with
    | [] => []
    | [_] => utf8 " Did you mean " ++ listed close ++ utf8 "?"
    | _ => utf8 " (Possible options: " ++ listed close ++ utf8 ")"
  | .valueUnwanted name => utf8 "Option '" ++ utf8 name ++ utf8 "' does not take a value."
  | .valueMissing name => utf8 "Option '" ++ utf8 name ++ utf8 "' requires an argument."
  | .indentNotInteger text =>
    utf8 "Invalid value for '--indent': " ++ Text.quote (utf8 text) ++ utf8 " is not a valid integer range."
  | .indentNegative n =>
    utf8 "Invalid value for '--indent': " ++ decimal n ++ utf8 " is not in the range x>=0."
  | .inputMissing => utf8 "Missing argument 'INPUT_FILE'."
  | .inputNotFound path =>
    utf8 "Invalid value for 'INPUT_FILE': File " ++ Text.quote (utf8 path) ++ utf8 " does not exist."
  | .inputIsDirectory path =>
    utf8 "Invalid value for 'INPUT_FILE': File " ++ Text.quote (utf8 path) ++ utf8 " is a directory."
  | .surplus arguments =>
    utf8 (if arguments.length = 1 then "Got unexpected extra argument (" else "Got unexpected extra arguments (")
      ++ utf8 (" ".intercalate arguments) ++ utf8 ")"

/-- Whether the line on usage goes in front. -/
def showsUsage : UsageError → Bool
  | .valueUnwanted _ | .valueMissing _ => false
  | _ => true

end UsageError

/-! ## Reading the arguments -/

/-- What `--version` and `--help` ask for. -/
inductive Inquiry where
  | version | help
deriving DecidableEq, Repr

/-- The arguments sorted by what they mean, nothing checked yet. -/
structure Invocation where
  tokens : Bool := false
  strict : Bool := false
  verbose : Bool := false
  /-- The value of the last `--indent`. -/
  indent : Option String := none
  /-- The first of `--version` and `--help`. -/
  inquiry : Option Inquiry := none
  arguments : List String := []
deriving DecidableEq, Repr

namespace Invocation

/-- The long options that take no value. -/
inductive Switch where
  | tokens | strict | verbose | version | help
deriving DecidableEq, Repr

def switch? : String → Option Switch
  | "--tokens" => some .tokens
  | "--strict" => some .strict
  | "--verbose" => some .verbose
  | "--version" => some .version
  | "--help" => some .help
  | _ => none

def longNames : List String := ["--tokens", "--strict", "--indent", "--verbose", "--version", "--help"]

def turnOn (v : Invocation) : Switch → Invocation
  | .tokens => { v with tokens := true }
  | .strict => { v with strict := true }
  | .verbose => { v with verbose := true }
  | .version => { v with inquiry := v.inquiry <|> some .version }
  | .help => { v with inquiry := v.inquiry <|> some .help }

/-- A name, and behind the first equals sign its value. -/
def splitValue (argument : String) : String × Option String :=
  let cs := argument.toList
  match cs.dropWhile (· != '=') with
  | [] => (argument, none)
  | _ :: value => (String.ofList (cs.takeWhile (· != '=')), some (String.ofList value))

/-- The letters after a single dash; `v` is the only one there is. -/
def readLetters (v : Invocation) : List Char → Except UsageError Invocation
  | [] => .ok v
  | c :: rest =>
    if c = 'v' then readLetters (v.turnOn .verbose) rest
    else .error (.noSuchOption (String.ofList ['-', c]) [])

/-- Reads the arguments one after another. -/
def readFrom (v : Invocation) : List String → Except UsageError Invocation
  | [] => .ok v
  | argument :: rest =>
    match argument.toList with
    | ['-', '-'] => .ok { v with arguments := v.arguments ++ rest }
    | '-' :: '-' :: _ =>
      match splitValue argument with
      | ("--indent", some value) => readFrom { v with indent := some value } rest
      | ("--indent", none) =>
        match rest with
        | [] => .error (.valueMissing "--indent")
        | value :: rest => readFrom { v with indent := some value } rest
      | (name, value) =>
        match switch? name, value with
        | some s, none => readFrom (v.turnOn s) rest
        | some _, some _ => .error (.valueUnwanted name)
        | none, _ => .error (.noSuchOption name (Text.closest 3 name longNames))
    | '-' :: c :: letters => do readFrom (← readLetters v (c :: letters)) rest
    | _ => readFrom { v with arguments := v.arguments ++ [argument] } rest

def read (arguments : List String) : Except UsageError Invocation := readFrom {} arguments

/-! ## Checking what they say -/

/-- Everything the command needs to know. -/
structure Job where
  path : String
  content : Bytes
  tokens : Bool
  strict : Bool
  verbose : Bool
  indent : Nat
deriving DecidableEq, Repr

/-- Spaces per level if nothing is said. -/
def defaultIndent : Nat := 2

def checkIndent (v : Invocation) : Except UsageError Nat :=
  match v.indent with
  | none => .ok defaultIndent
  | some text =>
    match Text.integer? text with
    | none => .error (.indentNotInteger text)
    | some n => if n < 0 then .error (.indentNegative n) else .ok n.toNat

/-- Why there is no job. -/
inductive Halt where
  | usage (e : UsageError)
  /-- The command cannot go on, nor say why. -/
  | breakdown
deriving DecidableEq, Repr

/-- The input file and its content. -/
def checkInput (v : Invocation) (lookup : String → Entry) : Except Halt (String × Bytes) :=
  match v.arguments with
  | [] => .error (.usage .inputMissing)
  | path :: _ =>
    match lookup path with
    | .unnamed => .error .breakdown
    | .missing | .tooLong => .error (.usage (.inputNotFound path))
    | .directory => .error (.usage (.inputIsDirectory path))
    | .file content => .ok (path, content)

def checkSurplus (v : Invocation) : Except UsageError Unit :=
  match v.arguments with
  | _ :: extra :: more => .error (.surplus (extra :: more))
  | _ => .ok ()

/-- An indent must be one that can be made. -/
def checkWidth (indent : Nat) : Except Halt Unit :=
  match Excess.ofLength? indent with
  | some _ => .error .breakdown
  | none => .ok ()

/-- The job the arguments ask for. -/
def check (v : Invocation) (lookup : String → Entry) : Except Halt Job := do
  let indent ← v.checkIndent.mapError .usage
  let (path, content) ← v.checkInput lookup
  v.checkSurplus.mapError .usage
  checkWidth indent
  return { path, content, tokens := v.tokens, strict := v.strict, verbose := v.verbose, indent }

end Invocation

end MiniC
