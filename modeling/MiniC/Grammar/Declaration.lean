/-
# MiniC.Grammar.Declaration — types, variables, arguments and structures.

A type is `float`, `double`, `long double`, `void` where a function may return it, or an integer
type: an optional sign, an optional size and an optional base, of which at least one stands there.
The base `char` takes no size.
-/
import MiniC.Grammar.Parser

namespace MiniC.Rule

/-! ## Types -/

/-- Takes the token in front as a leaf if it is one of the keywords. -/
def optionalKeyword (among : List Keyword) : Rule (List Node) := do
  if (← peek).isKeyword among then return [← takeLeaf] else return []

/-- Ends an integer type of which sign and size have been read. -/
def integerBase (parts : List Node) (sized : Bool) : Rule Node := do
  let base ← optionalKeyword (if sized then [.int] else [.int, .char])
  let parts := parts ++ base
  if parts.isEmpty then refuse .typeSpecifier (← peek) else return .branch .variableType parts

/-- An integer type or `long double`. -/
def sizedType : Rule Node := do
  let sign ← optionalKeyword [.signed, .unsigned]
  let short ← optionalKeyword [.short]
  if short.isEmpty then
    let long ← optionalKeyword [.long]
    if long.isEmpty then
      integerBase sign false
    else
      let second ← optionalKeyword [.long]
      if second.isEmpty then
        let double ← if sign.isEmpty then optionalKeyword [.double] else pure []
        if double.isEmpty then integerBase (sign ++ long) true
        else return .branch .variableType (long ++ double)
      else
        integerBase (sign ++ long ++ second) true
  else
    integerBase (sign ++ short) true

/-- A type; `void` only where `allowVoid` says so. -/
def variableType (allowVoid : Bool) : Rule Node := do
  let t ← peek
  match t.lexeme with
  | .keyword .float | .keyword .double => return .branch .variableType [← takeLeaf]
  | .keyword .void =>
    if allowVoid then return .branch .variableType [← takeLeaf] else refuse .objectType t
  | _ => sizedType

/-- The type read was `void`. -/
def isVoid (type : Node) : Bool :=
  match type.children.head?.bind Node.token with
  | some t => t.isKeyword [.void]
  | none => false

/-! ## Variables -/

/-- The names after the first and the semicolon. -/
def variableRest (type first : Node) (budget : Nat) : Rule Node := do
  let others ← repeatWhile takeComma (return [← expectIdentifier .identifier]) budget
  let _ ← expectSemicolon
  return .branch .variableDefine (type :: first :: others)

/-- A type, names with commas between them, a semicolon. -/
def variableDefine (budget : Nat) : Rule Node := do
  let type ← variableType false
  let first ← expectIdentifier .identifier
  variableRest type first budget

/-! ## Arguments -/

def argument : Rule Node := do
  let type ← variableType false
  let name ← expectIdentifier .argumentName
  return .branch .funcArg [type, name]

/-- Arguments with commas between them, at least one. -/
def argumentList (budget : Nat) : Rule (List Node) := do
  let first ← argument
  let others ← repeatWhile takeComma (return [← argument]) budget
  return first :: others

/-- What stands between the parentheses of a function: nothing, `void` alone, or arguments. -/
def arguments (budget : Nat) : Rule (List Node) := do
  let t ← peek
  if t.isBracket .rightParenthesis then
    return []
  else if t.isKeyword [.void] then
    if (← peekSecond).isBracket .rightParenthesis then
      let _ ← take
      return []
    else
      argumentList budget
  else
    argumentList budget

/-! ## Structures -/

/-- A member: a variable definition. -/
def member (budget : Nat) : Rule Node := do
  let t ← peek
  if t.isTypeKeyword then variableDefine budget else refuse .member t

/-- Takes a name in front as a leaf. -/
def optionalName : Rule (List Node) := do
  if (← peek).kind == .identifier then return [← takeLeaf] else return []

/-- A structure with an optional name and its members; it starts at its keyword. -/
def structDefine (budget : Nat) : Rule Node := do
  let keyword ← take
  let name ← optionalName
  let opening ← expectBracket .leftCurlyBracket
  let members ← repeatWhile insideBody (return [← member budget]) budget
  close .rightCurlyBracket opening
  let _ ← expectSemicolon
  return .branchAt keyword.location .structDefine (name ++ members)

end MiniC.Rule
