/-
# MiniC.Proofs.Grammar — the language as a grammar, with no parser in sight.

    translation_unit ::= (PREPROCESSOR | struct_define | func_declare
                          | func_define | variable_define)*
    struct_define    ::= 'struct' IDENTIFIER? '{' variable_define* '}' ';'
    func_declare     ::= type IDENTIFIER '(' func_arg_list ')' ';'
    func_define      ::= type IDENTIFIER '(' func_arg_list ')' stmt_block
    func_arg_list    ::= (func_arg (',' func_arg)*)? | 'void'
    func_arg         ::= type IDENTIFIER
    variable_define  ::= type IDENTIFIER (',' IDENTIFIER)* ';'
    stmt_block       ::= '{' stmt* '}'
    stmt             ::= stmt_block
                       | 'if' '(' bool_expr ')' stmt 'else' stmt
                       | 'while' '(' bool_expr ')' stmt
                       | 'for' '(' for_clause ';' for_clause ';' for_clause ')' stmt
                       | 'break' ';' | 'return' bool_expr? ';'
                       | assignment ';' | variable_define | ';'
    for_clause       ::= (assignment | bool_expr)?
    assignment       ::= IDENTIFIER '=' bool_expr

Expressions have six left-recursive levels `A ::= A op B | B`, four boolean ones with `||`, `&&`,
`== !=` and `< <= > >=`, and two arithmetic ones with `+ -` and `* /`.  Below the boolean levels
stands `'!' bool_expr | '(' bool_expr ')' | expr`, below the arithmetic ones
`'(' expr ')' | IDENTIFIER | NUMBER`.

A word is a list of `Terminal`s: what the productions tell apart, so a keyword, operator or bracket
by which one it is, and any other lexeme by its kind alone.  The grammar is ambiguous where an
operator follows a negation; which tree is meant is said in `MiniC.Proofs.Precedence`, here only
which words there are.
-/
import MiniC.Grammar.Expression

namespace MiniC

/-! ## Terminals -/

/-- A letter of the grammar.  No production has the end mark. -/
inductive Terminal where
  | preprocessor | identifier | number | comma | semicolon | endOfStream
  | keyword (word : Keyword)
  | operator (op : Operator)
  | bracket (b : Bracket)
deriving DecidableEq, Repr

/-- What the grammar sees of a lexeme. -/
def Lexeme.terminal : Lexeme → Terminal
  | .keyword k => .keyword k
  | .operator o => .operator o
  | .bracket b => .bracket b
  | .preprocessor _ => .preprocessor
  | .identifier _ => .identifier
  | .number _ => .number
  | .comma _ => .comma
  | .semicolon _ => .semicolon
  | .endOfStream _ => .endOfStream

def Token.terminal (t : Token) : Terminal := t.lexeme.terminal

def Terminal.kind : Terminal → TokenKind
  | .keyword _ => .keyword
  | .operator _ => .operator
  | .bracket _ => .bracket
  | .preprocessor => .preprocessor
  | .identifier => .identifier
  | .number => .number
  | .comma => .comma
  | .semicolon => .semicolon
  | .endOfStream => .endOfStream

theorem Lexeme.terminal_kind (l : Lexeme) : l.terminal.kind = l.kind := by
  cases l <;> rfl

/-- Where a kind has only one terminal, the kind tells it. -/
theorem Lexeme.terminal_of_kind {l : Lexeme} {c : Terminal} (h : l.kind = c.kind)
    (hc : c.kind ∉ [.keyword, .operator, .bracket]) : l.terminal = c := by
  rw [← l.terminal_kind] at h
  generalize l.terminal = d at h
  cases c <;> cases d <;> simp_all [Terminal.kind]

theorem Token.terminal_of_kind {t : Token} {c : Terminal} (h : (t.kind == c.kind) = true)
    (hc : c.kind ∉ [.keyword, .operator, .bracket]) : t.terminal = c :=
  Lexeme.terminal_of_kind (eq_of_beq h) hc

/-- The lexeme that is told by its terminal, if there is just one. -/
def Terminal.lexeme? : Terminal → Option Lexeme
  | .keyword k => some (.keyword k)
  | .operator o => some (.operator o)
  | .bracket b => some (.bracket b)
  | _ => none

theorem Token.lexeme_of_terminal {t : Token} {c : Terminal} {l : Lexeme} (h : t.terminal = c)
    (hl : c.lexeme? = some l) : t.lexeme = l := by
  subst h
  unfold Token.terminal at hl
  cases ht : t.lexeme <;> simp_all [Lexeme.terminal, Terminal.lexeme?]

/-- The lexeme of a terminal with this text, if lexemes of its kind carry any. -/
def Terminal.withText (text : Option Bytes) : Terminal → Lexeme
  | .keyword k => .keyword k
  | .operator o => .operator o
  | .bracket b => .bracket b
  | .preprocessor => .preprocessor text
  | .identifier => .identifier text
  | .number => .number text
  | .comma => .comma text
  | .semicolon => .semicolon text
  | .endOfStream => .endOfStream text

/-- Beyond its terminal a lexeme has a text and nothing else. -/
theorem Token.exists_text {t : Token} {c : Terminal} (h : t.terminal = c) :
    ∃ text, t.lexeme = c.withText text := by
  refine ⟨t.lexeme.text?, ?_⟩
  rw [← h, Token.terminal]
  cases t.lexeme <;> rfl

theorem Token.kind_of_terminal {t : Token} {c : Terminal} (h : t.terminal = c) :
    t.kind = c.kind := by
  rw [← h]
  exact t.lexeme.terminal_kind.symm

theorem Token.live {t : Token} {c : Terminal} (h : t.terminal = c)
    (hc : (c.kind == .endOfStream) = false) : t.atEnd = false := by
  rw [Token.atEnd, Token.kind_of_terminal h]
  exact hc

theorem Token.live_of_lexeme {t : Token} {l : Lexeme} (h : t.lexeme = l)
    (hl : (l.kind == .endOfStream) = false) : t.atEnd = false := by
  subst h
  exact hl

theorem Token.atEnd_eq_false {t : Token} (h : t.terminal ≠ .endOfStream) : t.atEnd = false := by
  obtain ⟨lexeme, _, _, _, _⟩ := t
  cases lexeme with
  | endOfStream => exact absurd rfl h
  | _ => rfl

namespace Terminal

abbrev leftParen : Terminal := .bracket .leftParenthesis
abbrev rightParen : Terminal := .bracket .rightParenthesis
abbrev leftCurly : Terminal := .bracket .leftCurlyBracket
abbrev rightCurly : Terminal := .bracket .rightCurlyBracket

end Terminal

/-! ## Types -/

namespace TypeWords

def signs : List (List Keyword) := [[], [.signed], [.unsigned]]

def sizes : List (List Keyword) := [[], [.short], [.long], [.long, .long]]

/-- An optional sign, an optional size and an optional `int`, but not nothing at all. -/
def integers : List (List Keyword) :=
  (signs.flatMap fun sign => sizes.flatMap fun size =>
    [sign ++ size, sign ++ size ++ [.int]]).filter (· ≠ [])

/-- What a variable or an argument may be of: `char` takes no size, and what is no integer takes no
sign. -/
def object : List (List Keyword) :=
  [[.float], [.double], [.long, .double]] ++ integers ++ signs.map (· ++ [.char])

/-- What a function may return: also `void`. -/
def result : List (List Keyword) := [.void] :: object

end TypeWords

/-! ## Productions -/

inductive Symbol where
  | translationUnit | item | argList | arg | variableDefine
  | block | stmt | forClause | assignment
  | level (l : Level) | boolFactor | factor
deriving DecidableEq, Repr

/-- What the operators of a level stand between. -/
def Level.operand : Level → Symbol
  | .or => .level .and
  | .and => .level .equality
  | .equality => .level .comparison
  | .comparison => .boolFactor
  | .additive => .level .multiplicative
  | .multiplicative => .factor

/-- The operators of each level. -/
def Level.joins : Level → List Operator
  | .or => [.logicOr]
  | .and => [.logicAnd]
  | .equality => [.equal, .notEqual]
  | .comparison => [.less, .lessEqual, .greater, .greaterEqual]
  | .additive => [.add, .minus]
  | .multiplicative => [.mul, .division]

/-- The parser goes on with a level at these operators and at no others. -/
theorem Level.mem_operators {l : Level} {o : Operator} : o ∈ l.operators ↔ o ∈ l.joins := by
  cases l <;> cases o <;> decide

open Terminal in
/-- The words of each symbol, one constructor for each alternative of a production. -/
inductive Derives : Symbol → List Terminal → Prop
  | unit {items : List (List Terminal)} :
      (∀ w ∈ items, Derives .item w) → Derives .translationUnit items.flatten
  | line : Derives .item [preprocessor]
  | structDefine {name : List Terminal} {members : List (List Terminal)} :
      name ∈ [[], [identifier]] → (∀ w ∈ members, Derives .variableDefine w) →
      Derives .item
        (keyword .struct :: name ++ leftCurly :: members.flatten ++ [rightCurly, semicolon])
  | funcDeclare {type : List Keyword} {args : List Terminal} :
      type ∈ TypeWords.result → Derives .argList args →
      Derives .item
        (type.map keyword ++ identifier :: leftParen :: args ++ [rightParen, semicolon])
  | funcDefine {type : List Keyword} {args body : List Terminal} :
      type ∈ TypeWords.result → Derives .argList args → Derives .block body →
      Derives .item (type.map keyword ++ identifier :: leftParen :: args ++ rightParen :: body)
  | global {w : List Terminal} : Derives .variableDefine w → Derives .item w
  | noArgs : Derives .argList []
  | voidArgs : Derives .argList [keyword .void]
  | args {first : List Terminal} {others : List (List Terminal)} :
      Derives .arg first → (∀ w ∈ others, Derives .arg w) →
      Derives .argList (first ++ others.flatMap (comma :: ·))
  | arg {type : List Keyword} :
      type ∈ TypeWords.object → Derives .arg (type.map keyword ++ [identifier])
  | variableDefine {type : List Keyword} (others : Nat) :
      type ∈ TypeWords.object →
      Derives .variableDefine (type.map keyword ++ identifier ::
        (List.replicate others [comma, identifier]).flatten ++ [semicolon])
  | block {stmts : List (List Terminal)} :
      (∀ w ∈ stmts, Derives .stmt w) →
      Derives .block (leftCurly :: stmts.flatten ++ [rightCurly])
  | blockStmt {w : List Terminal} : Derives .block w → Derives .stmt w
  | ifStmt {c u v : List Terminal} :
      Derives (.level .or) c → Derives .stmt u → Derives .stmt v →
      Derives .stmt
        (keyword .if :: leftParen :: c ++ rightParen :: u ++ keyword .else :: v)
  | whileLoop {c u : List Terminal} :
      Derives (.level .or) c → Derives .stmt u →
      Derives .stmt (keyword .while :: leftParen :: c ++ rightParen :: u)
  | forLoop {a b c u : List Terminal} :
      Derives .forClause a → Derives .forClause b → Derives .forClause c → Derives .stmt u →
      Derives .stmt
        (keyword .for :: leftParen :: a ++ semicolon :: b ++ semicolon :: c ++ rightParen :: u)
  | breakStmt : Derives .stmt [keyword .break, semicolon]
  | returnNothing : Derives .stmt [keyword .return, semicolon]
  | returnValue {w : List Terminal} :
      Derives (.level .or) w → Derives .stmt (keyword .return :: w ++ [semicolon])
  | assignStmt {w : List Terminal} : Derives .assignment w → Derives .stmt (w ++ [semicolon])
  | localVariables {w : List Terminal} : Derives .variableDefine w → Derives .stmt w
  | emptyStmt : Derives .stmt [semicolon]
  | noClause : Derives .forClause []
  | assignClause {w : List Terminal} : Derives .assignment w → Derives .forClause w
  | exprClause {w : List Terminal} : Derives (.level .or) w → Derives .forClause w
  | assignment {w : List Terminal} :
      Derives (.level .or) w → Derives .assignment (identifier :: operator .assign :: w)
  | operand {l : Level} {w : List Terminal} : Derives l.operand w → Derives (.level l) w
  | chain {l : Level} {o : Operator} {u v : List Terminal} :
      Derives (.level l) u → o ∈ l.joins → Derives l.operand v →
      Derives (.level l) (u ++ operator o :: v)
  | not {w : List Terminal} :
      Derives (.level .or) w → Derives .boolFactor (operator .logicNot :: w)
  | group {w : List Terminal} :
      Derives (.level .or) w → Derives .boolFactor (leftParen :: w ++ [rightParen])
  | sum {w : List Terminal} : Derives (.level .additive) w → Derives .boolFactor w
  | paren {w : List Terminal} :
      Derives (.level .additive) w → Derives .factor (leftParen :: w ++ [rightParen])
  | name : Derives .factor [identifier]
  | number : Derives .factor [number]

namespace Derives

/-- The end mark is in no word. -/
theorem endOfStream_notMem {s : Symbol} {w : List Terminal} (h : Derives s w) :
    Terminal.endOfStream ∉ w := by
  induction h with
  | unit _ ih => simpa using ih
  | structDefine hname _ ih =>
      simp only [List.mem_cons, List.not_mem_nil, or_false] at hname
      rcases hname with rfl | rfl <;> simpa using ih
  | args _ _ hfirst hothers => simpa using ⟨hfirst, hothers⟩
  | variableDefine others => simp
  | block _ ih => simpa using ih
  | line | noArgs | voidArgs | breakStmt | returnNothing | emptyStmt | noClause | name | number => simp
  | arg => simp
  | funcDeclare _ _ ih => simpa using ih
  | funcDefine _ _ _ iha ihb => simp [iha, ihb]
  | ifStmt _ _ _ ihc ihu ihv => simp [ihc, ihu, ihv]
  | whileLoop _ _ ihc ihu => simp [ihc, ihu]
  | forLoop _ _ _ _ iha ihb ihc ihu => simp [iha, ihb, ihc, ihu]
  | chain _ _ _ ihu ihv => simp [ihu, ihv]
  | returnValue _ ih | assignStmt _ ih | assignment _ ih | not _ ih | group _ ih | paren _ ih =>
      simpa using ih
  | global _ ih | blockStmt _ ih | localVariables _ ih | assignClause _ ih | exprClause _ ih
  | operand _ ih | sum _ ih => exact ih

end Derives

end MiniC
