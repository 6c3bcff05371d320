/-
# MiniC.Proofs.Termination — why reading comes to an end, and how it may fail.

A reader gets forward with every token but the end mark, and stays within its source.  A parser gets
forward in every round of every loop, and before any rule comes back to itself, so a budget above the
number of tokens to come never runs out and makes no difference.

What is left are the errors of the language.  The steps that would fail on other grounds are never in a
state to: the token to take is there, a type has a first word, and the root of a tree is a translation
unit.
-/
import MiniC.Proofs.Cursor
import MiniC.Proofs.Pace

namespace MiniC

/-! ## Readers -/

/-- A lexeme is no longer than the text it was found in. -/
theorem Munch.length_le {text : Bytes} {munch : Munch} (h : first? text = some munch) :
    munch.length ≤ text.length := by
  obtain ⟨w, after, rfl, hlen, -⟩ := cuts_of_first? h
  rw [hlen, List.length_append]
  omega

namespace Reader

variable {r r' : Reader} {t : Token}

/-- Every token but the last takes the reader forward. -/
theorem offset_lt_of_next (h : r.next = (.ok t, r')) (hlive : t.atEnd = false) :
    r.mark.offset < r'.mark.offset := by
  obtain ⟨hfrom, hto⟩ := offset_of_next h
  exact Int.ofNat_lt.mp (Int.lt_of_le_of_lt hfrom (hto hlive))

/-- A lexeme lies within the source. -/
theorem InPlace.lexeme_le {m : Mark} {text : Bytes} {munch : Munch} (h : r.InPlace)
    (hscan : Gap.scan .between r.mark r.rest = .clear m text)
    (hmunch : Munch.first? text = some munch) : m.offset + munch.length ≤ r.source.length := by
  obtain ⟨passed, hsource, hmark⟩ := h
  obtain ⟨gap, hrest, -, -, rfl⟩ := Gap.exists_of_scan_clear hscan
  have hlen := Munch.length_le hmunch
  have hstart : r.mark.offset = passed.length := by
    rw [hmark, Mark.offset_past]
    exact Nat.zero_add _
  rw [hsource, hrest, Mark.offset_past, hstart, List.length_append, List.length_append]
  omega

/-- A stream has a token for each byte at most, and the end mark. -/
theorem length_stream_le (r : Reader) : r.stream.length ≤ r.rest.length + 1 := by
  obtain ⟨⟨r', hdeliv⟩, hlive⟩ := r.delivers_stream
  have hrest := hdeliv.rest_length_le
  rcases List.eq_nil_or_concat r.stream with hnil | ⟨ts, last, hstream⟩
  · simp [hnil]
  · -- All tokens but the last cost a byte.
    rw [List.concat_eq_append] at hstream
    rw [hstream, List.dropLast_concat] at hlive
    rw [hstream, List.map_append, List.sum_append, Parser.Took.sum_cost_of_live hlive] at hrest
    rw [hstream, List.length_append, List.length_singleton]
    omega

end Reader

namespace Rule

/-! ## Rules that take a token -/

section Takes

variable {x : Rule Node}

theorem takes_single (h : Takes x) : Takes (x >>= fun e => pure [e]) := h.bind fun _ => keeps_pure

theorem takes_expectIdentifier {expected : Expectation} : Takes (expectIdentifier expected) :=
  takes_of_reads (f := fun _ => expectIdentifier expected) (fun _ => alike_expectIdentifier)
    (fun _ => reads_expectIdentifier) (by rintro _ _ rfl; simp) 0

theorem takes_argument : Takes argument :=
  takes_of_reads (f := fun _ => argument) (fun _ => alike_argument) (fun _ => reads_argument)
    (fun _ _ h => h.ne_nil (by decide)) 0

theorem takes_member (n : Nat) : Takes (member n) :=
  takes_of_reads alike_member (fun h => reads_member (Nat.lt_of_succ_lt h))
    (fun _ _ h => h.ne_nil (by decide)) n

theorem takes_factor (n : Nat) : Takes (factor n) :=
  takes_of_reads alike_factor (fun h => reads_factor (Nat.lt_of_succ_lt h))
    (fun _ _ h => h.1.ne_nil (by decide)) n

theorem takes_boolFactor (n : Nat) : Takes (boolFactor n) :=
  takes_of_reads alike_boolFactor reads_boolFactor (fun _ _ h => h.1.ne_nil (by decide)) n

theorem takes_stmt (strict : Bool) (n : Nat) : Takes (stmt strict n) :=
  takes_of_reads alike_stmt reads_stmt (fun _ _ h => h.ne_nil (by decide)) n

theorem takes_item (strict : Bool) (n : Nat) : Takes (item strict n) :=
  takes_of_reads alike_item (fun h => reads_item (Nat.lt_of_succ_lt h))
    (fun _ _ h => h.ne_nil (by decide)) n

end Takes

/-! ## Rounds -/

/-- A round takes a token, be it in asking whether there is one. -/
def RoundTakes (more : Rule Bool) (item : Rule (List Node)) : Prop :=
  ∀ p p₁ p₂ nodes, more p = .ok true p₁ → item p₁ = .ok nodes p₂ → p₂.toCome < p.toCome

/-- A round takes a token if its item does. -/
theorem Takes.round {more : Rule Bool} {item : Rule (List Node)} (hitem : Takes item)
    (hmore : Keeps more) : RoundTakes more item :=
  fun p p₁ p₂ nodes hasked hread =>
    Nat.lt_of_lt_of_le (hitem p₁ nodes p₂ hread) (hmore p true p₁ hasked)

/-- What the operands of a level are read by. -/
def operandOf (n : Nat) : Level → Rule Node
  | .multiplicative => factor n
  | .additive => productOf (factor n) n
  | .comparison => boolFactor n
  | .equality => chain .comparison (boolFactor n) n
  | .and => chain .equality (chain .comparison (boolFactor n) n) n
  | .or => chain .and (chain .equality (chain .comparison (boolFactor n) n) n) n

/-- The loops of the grammar: how each asks whether to go on, and what it reads then. -/
inductive Loop (strict : Bool) (n : Nat) : Rule Bool → Rule (List Node) → Prop
  | names : Loop strict n takeComma (expectIdentifier .identifier >>= fun e => pure [e])
  | arguments : Loop strict n takeComma (argument >>= fun e => pure [e])
  | chain (l : Level) :
      Loop strict n (peek >>= fun t => pure (t.isOperator l.operators))
        (takeLeaf >>= fun op => operandOf n l >>= fun e => pure [op, e])
  | members : Loop strict n insideBody (member n >>= fun e => pure [e])
  | statements : Loop strict n insideBody (stmt strict n >>= fun e => pure [e])
  | items :
      Loop strict n (peek >>= fun t => pure (!t.atEnd)) (item strict n >>= fun e => pure [e])

/-- A chain takes what its first operand takes. -/
theorem takes_chain {l : Level} {x : Rule Node} {n : Nat} (hx : Takes x)
    (halike : Likeness.same.Alike Likeness.same.OfNode x x) : Takes (chain l x n) := by
  refine hx.bind fun first => ?_
  exact keeps_of_alike (alike_chainFrom halike (Likeness.OfNode.same_refl first) (Nat.le_refl n))

/-- By cases on the level: each is a chain of the next, down to a factor. -/
theorem takes_operandOf (n : Nat) (l : Level) : Takes (operandOf n l) := by
  have hfactor := alike_factor (L := .same) (Nat.le_refl n)
  have hboolFactor := alike_boolFactor (L := .same) (Nat.le_refl n)
  have hcmp := alike_chain (l := .comparison) hboolFactor (Nat.le_refl n)
  have hequal := alike_chain (l := .equality) hcmp (Nat.le_refl n)
  cases l with
  | multiplicative => exact takes_factor n
  | additive => exact takes_chain (takes_factor n) hfactor
  | comparison => exact takes_boolFactor n
  | equality => exact takes_chain (takes_boolFactor n) hboolFactor
  | and => exact takes_chain (takes_chain (takes_boolFactor n) hboolFactor) hcmp
  | or => exact takes_chain (takes_chain (takes_chain (takes_boolFactor n) hboolFactor) hcmp) hequal

theorem keeps_test (test : Token → Bool) : Keeps (peek >>= fun t => pure (test t)) :=
  keeps_of_alike (L := .same) (R := Eq) (.look .peek fun _ _ ht => .pure (congrArg test ht))

/-- By cases on the loop: in each of them the item takes a token. -/
theorem Loop.roundTakes {strict : Bool} {n : Nat} {more : Rule Bool} {item : Rule (List Node)}
    (h : Loop strict n more item) : RoundTakes more item := by
  have hcomma : Keeps takeComma := keeps_of_alike (L := .same) alike_takeComma
  have hinside : Keeps insideBody := keeps_of_alike (L := .same) alike_insideBody
  have hleaf : Keeps takeLeaf := keeps_of_alike (L := .same) alike_takeLeaf
  cases h with
  | names => exact (takes_single takes_expectIdentifier).round hcomma
  | arguments => exact (takes_single takes_argument).round hcomma
  | chain l =>
      refine Takes.round (hleaf.bind_takes fun op => ?_) (keeps_test _)
      exact (takes_operandOf n l).bind fun _ => keeps_pure
  | members => exact (takes_single (takes_member n)).round hinside
  | statements => exact (takes_single (takes_stmt strict n)).round hinside
  | items => exact (takes_single (takes_item strict n)).round (keeps_test _)

/-! ## Recursion -/

/-- A rule that comes back to itself through `body`, each time with less to spend and with fewer tokens
to come. -/
structure Recurs (f : Nat → Rule Node) (body : Nat → Rule Node → Rule Node) : Prop where
  zero : f 0 = throw .exhausted
  succ : ∀ n, f (n + 1) = body n (f n)
  takes : ∀ n, Takes (f n)
  descends : ∀ n, Descends (body n)

theorem recurs_factor : Recurs factor factorOf where
  zero := rfl
  succ _ := rfl
  takes := takes_factor
  descends := descends_factorOf

theorem recurs_boolFactor : Recurs boolFactor boolFactorOf where
  zero := rfl
  succ _ := rfl
  takes := takes_boolFactor
  descends := descends_boolFactorOf

theorem recurs_stmt (strict : Bool) : Recurs (stmt strict) (stmtOf strict) where
  zero := rfl
  succ _ := rfl
  takes := takes_stmt strict
  descends := descends_stmtOf strict

/-! ## Steps that could fail on other grounds -/

/-- A type that was read has a word, so that asking for its first one never fails. -/
theorem hasFirstWord_of_variableType {allowVoid : Bool} {p p' : Parser} {type : Node}
    (h : variableType allowVoid p = .ok type p') : type.HasFirstWord := by
  have hout : Outcome none p.ahead.length (.type allowVoid) p (variableType allowVoid p) :=
    reads_variableType p.ahead (Nat.le_succ _) p rfl (.left p)
  rw [h] at hout
  cases hout with
  | ok _ _ hword _ => exact hword.2

/-- A token that is taken was in front. -/
theorem front_of_take {p p' : Parser} {t : Token} (h : take p = .ok t p') :
    ∃ q, peek p = .ok t q ∧ q.ahead = t :: p'.ahead := by
  obtain ⟨s, q, hpeek, hrest⟩ := exists_of_bind_ok h
  cases hrest
  obtain ⟨a, hahead⟩ := ahead_of_peek hpeek
  refine ⟨q, hpeek, ?_⟩
  show q.ahead = t :: q.ahead.tail
  rw [hahead, List.tail_cons]

end Rule

/-! ## Whole runs -/

/-- A first run ends with a tree or with a refusal, whatever was looked at before. -/
theorem Parser.run_cases {p : Parser} (hfresh : p.started = false) :
    (∃ items, p.run.1 = .ok (Tree.ofItems p.reader.file items)) ∨
      ∃ e, p.run.1 = .error (.refused e) := by
  have hbudget : p.left < p.budget := Nat.lt_of_succ_lt p.left_add_one_lt_budget
  have hreads : Rule.Reads p.ahead.length p.left (Rule.items p.strict p.budget) .unit :=
    Rule.reads_items hbudget
  have hout := hreads p.ahead (Nat.le_succ _) { p with started := true } rfl
    (.left { p with started := true })
  generalize hrun : Rule.items p.strict p.budget { p with started := true } = result at hout
  cases hout with
  | ok => exact .inl ⟨_, congrArg Prod.fst (run_of_ok hfresh hrun)⟩
  | stuck => exact .inr ⟨_, run_of_error hfresh hrun⟩
  | unreadable => exact .inr ⟨_, run_of_error hfresh hrun⟩

/-- A budget above the number of tokens to come does as well as any. -/
theorem Rule.items_eq_of_lt {strict : Bool} {n : Nat} {p : Parser} (h : p.toCome < n) :
    items strict n p = items strict p.budget p := by
  have hbudget : p.toCome < p.budget :=
    Nat.lt_of_le_of_lt p.toCome_le_left (Nat.lt_of_succ_lt p.left_add_one_lt_budget)
  have heq : ∀ {m m' : Nat}, m ≤ m' → p.toCome < m → items strict m p = items strict m' p :=
    fun hle hm => eq_of_reads (alike_items hle) (fun _ _ => Likeness.OfNodes.eq_of_same) (reads_items hm)
  rcases Nat.le_total n p.budget with hle | hle
  · exact heq hle h
  · exact (heq hle hbudget).symm

namespace Options

variable (o : Options) (source : Bytes) (name : Option String)

/-- There is always an answer: a tree or a syntax error. -/
theorem parse_ok_or_refused :
    (∃ r, (o.parse source name).1 = .ok r) ∨ ∃ e, (o.parse source name).1 = .error (.refused e) := by
  rcases o.parse_cases source name with ⟨r, -, -, h, -⟩ | ⟨e, -, h, -⟩ | ⟨e, -, h, -⟩
  · exact .inl ⟨r, h⟩
  · exact .inr ⟨e, h⟩
  · exact .inr ⟨e, h⟩

/-- Where tokens are only read, no error is about a token that was found. -/
theorem tokenize_ok_or_unreadable :
    (∃ tokens, (o.tokenize source name).1 = .ok tokens) ∨
      ∃ e, (o.tokenize source name).1 = .error e ∧ e.found? = none := by
  cases htokens : (o.tokenize source name).1 with
  | ok tokens => exact .inl ⟨tokens, rfl⟩
  | error e =>
      obtain ⟨ts, hfails⟩ := (o.tokenize_eq_error_iff source name).mp htokens
      obtain ⟨_, _, -, hnext⟩ := hfails.delivers
      exact .inr ⟨e, rfl, Reader.found?_of_next hnext⟩

/-- How reading comes to an end, and why it fails only by a `SyntaxError`. -/
structure ReadingEnds : Prop where
  /-- Every token but the end mark takes a reader forward. -/
  forward : ∀ (r : Reader) t r', r.next = (.ok t, r') → t.atEnd = false →
    r.mark.offset < r'.mark.offset
  /-- So a source has at most one token per byte, and the end mark. -/
  stream_length : (o.stream source name).length ≤ source.length + 1
  /-- A reader starts in place: what it has passed and what is to come make up its source. -/
  in_place : (Reader.new source (o.fileName name)).InPlace
  /-- It stays so, after errors too, and never gets beyond its source. -/
  stays_in_place : ∀ r : Reader, r.InPlace →
    r.next.2.InPlace ∧ r.next.2.mark.offset ≤ r.source.length
  /-- No byte of a lexeme lies beyond the source. -/
  lexeme_inside : ∀ r : Reader, r.InPlace → ∀ m text munch,
    Gap.scan .between r.mark r.rest = .clear m text → Munch.first? text = some munch →
    m.offset + munch.length ≤ r.source.length
  /-- A round of a loop takes a token. -/
  round_takes : ∀ strict n more item, Rule.Loop strict n more item → Rule.RoundTakes more item
  /-- A rule that recurs takes a token before it does. -/
  factor_recurs : Rule.Recurs Rule.factor Rule.factorOf
  boolFactor_recurs : Rule.Recurs Rule.boolFactor Rule.boolFactorOf
  stmt_recurs : ∀ strict, Rule.Recurs (Rule.stmt strict) (Rule.stmtOf strict)
  /-- So a budget above the number of tokens to come makes no difference. -/
  budget_free : ∀ strict n p, p.toCome < n → Rule.items strict n p = Rule.items strict p.budget p
  /-- A first run of a parser ends with a tree, whose root is a translation unit, or with a refusal. -/
  run_ends : ∀ p : Parser, p.started = false →
    (∃ tree, p.run.1 = .ok tree ∧ Tree.ofNode tree.root = .ok tree) ∨
      ∃ e, p.run.1 = .error (.refused e)
  /-- So does `parse`. -/
  parse_ends : (∃ r, (o.parse source name).1 = .ok r) ∨
    ∃ e, (o.parse source name).1 = .error (.refused e)
  /-- And `tokenize` ends with tokens, or where the source cannot be read. -/
  tokenize_ends : (∃ tokens, (o.tokenize source name).1 = .ok tokens) ∨
    ∃ e, (o.tokenize source name).1 = .error e ∧ e.found? = none
  /-- A token that is taken was in front. -/
  taken_in_front : ∀ p t p', Rule.take p = .ok t p' →
    ∃ q, Rule.peek p = .ok t q ∧ q.ahead = t :: p'.ahead
  /-- A type that was read has a first word. -/
  type_first_word : ∀ allowVoid p type p', Rule.variableType allowVoid p = .ok type p' →
    ∃ t, type.children.head?.bind Node.token = some t

/-- Reading comes to an end, and fails only by a `SyntaxError`. -/
theorem reading_ends : o.ReadingEnds source name where
  forward _ _ _ := Reader.offset_lt_of_next
  stream_length := Reader.length_stream_le _
  in_place := Reader.inPlace_new _ _
  stays_in_place r h := by
    have hoffset := h.next.offset_le
    rw [r.source_next] at hoffset
    exact ⟨h.next, hoffset⟩
  lexeme_inside _ h _ _ _ := h.lexeme_le
  round_takes _ _ _ _ h := h.roundTakes
  factor_recurs := Rule.recurs_factor
  boolFactor_recurs := Rule.recurs_boolFactor
  stmt_recurs := Rule.recurs_stmt
  budget_free _ _ _ := Rule.items_eq_of_lt
  run_ends p hfresh := by
    rcases Parser.run_cases hfresh with ⟨items, hrun⟩ | hrefused
    · exact .inl ⟨_, hrun, rfl⟩
    · exact .inr hrefused
  parse_ends := o.parse_ok_or_refused source name
  tokenize_ends := o.tokenize_ok_or_unreadable source name
  taken_in_front _ _ _ := Rule.front_of_take
  type_first_word _ _ _ _ := Rule.hasFirstWord_of_variableType

end Options

end MiniC
