/-
# MiniC.Proofs.Concatenation — one source below another.

Two sources with a line feed between them are read as the first and then the second, further down.
The line feed closes whatever the first one leaves open at its end, a line comment or a `#` line, and
no item of the first waits for more.  From there on the reader stands before the text of the second at
a mark that differs by a `Shift`: so many lines, so many bytes, and the same columns.
-/
import MiniC.Proofs.Cursor
import MiniC.Proofs.Strictness

namespace MiniC

/-! ## Further down -/

/-- How far down something is moved: by lines, and by bytes. -/
structure Shift where
  lines : Nat
  bytes : Nat

namespace Shift

/-- How far down a text stands that has this one and a line feed above it. -/
def below (text : Bytes) : Shift := ⟨text.count Byte.lineFeed + 1, text.length + 1⟩

variable (d : Shift)

def mark (m : Mark) : Mark :=
  { m with offset := m.offset + d.bytes, line := m.line + d.lines, lineStart := m.lineStart + d.bytes }

def location (l : Location) : Location := { l with line := l.line + d.lines }

def token (t : Token) : Token := { t with line := t.line + d.lines, offset := t.offset + d.bytes }

mutual

/-- The node with its place and all tokens and places below it. -/
def node : Node → Node
  | ⟨kind, children, token, location⟩ =>
    ⟨kind, nodes children, token.map d.token, location.map d.location⟩

def nodes : List Node → List Node
  | [] => []
  | c :: cs => node c :: nodes cs

end

/-- The error with its place and the tokens that it names.  The line shown stays. -/
def error : SyntaxError → SyntaxError
  | .invalidByte byte position location line message hint =>
    .invalidByte byte (position + d.bytes) (location.map d.location) line message hint
  | .unclosedComment position location line =>
    .unclosedComment (position + d.bytes) (location.map d.location) line
  | .unexpected expected found line hint => .unexpected expected (d.token found) line hint
  | .unmatched expected found opening line =>
    .unmatched expected (d.token found) (d.token opening) line

@[simp]
theorem nodes_eq_map (ns : List Node) : d.nodes ns = ns.map d.node := by
  induction ns with
  | nil => rfl
  | cons n ns ih => rw [nodes, ih, List.map_cons]

/-! ## Readers and parsers further down -/

theorem mark_step {m m' : Mark} (b : UInt8) (h : m' = d.mark m) : m'.step b = d.mark (m.step b) := by
  subst h
  unfold Mark.step mark
  split
  · simp [Nat.add_right_comm]
  · simp [Nat.add_right_comm]

/-- What stands above a text moves the text down by what it is long. -/
theorem past_below (text : Bytes) :
    Mark.past {} (text ++ [Byte.lineFeed]) = (below text).mark {} := by
  have hstep : Mark.past {} (text ++ [Byte.lineFeed])
      = (Mark.past {} text).step Byte.lineFeed := by
    rw [Mark.past_append]
    rfl
  rw [hstep, Mark.step, if_pos rfl, Mark.offset_past, Mark.line_past]
  simp [mark, below, Nat.add_assoc]

/-- Tokens further down. -/
def likeness : Likeness where
  tokens t t' := t' = d.token t
  places l l' := l' = d.location l
  exists_like t := ⟨d.token t, rfl⟩
  lexeme_eq := by
    rintro t _ rfl
    rfl
  location := by
    rintro t _ rfl
    rfl

variable {d}

theorem eq_of_rel {α : Type} {f : α → α} {x y : Option α}
    (h : Option.Rel (fun a b => b = f a) x y) : y = x.map f := by
  cases h with
  | none => rfl
  | some h => rw [h, Option.map_some]

theorem eq_map_of_forall₂ {α : Type} {f : α → α} {xs ys : List α}
    (h : List.Forall₂ (fun a b => b = f a) xs ys) : ys = xs.map f := by
  induction h with
  | nil => rfl
  | cons h _ ih => rw [h, ih, List.map_cons]

theorem eq_of_ofNode {n n' : Node} (h : d.likeness.OfNode n n') : n' = d.node n := by
  have hpasses : d.likeness.Passes fun n n' => n' = d.node n := by
    intro kind children children' token token' location location' hchildren htoken hplace
    rw [node, nodes_eq_map, eq_map_of_forall₂ hchildren, eq_of_rel htoken, eq_of_rel hplace]
  exact Likeness.OfNode.lift hpasses n n' h

theorem eq_of_ofNodes {ns ns' : List Node} (h : d.likeness.OfNodes ns ns') :
    ns' = ns.map d.node := eq_map_of_forall₂ (h.imp fun _ _ => eq_of_ofNode)

end Shift

/-! ## Lines further down -/

/-- The lines of a text are found again below another one. -/
theorem Bytes.lineAfter_below (above text : Bytes) (n : Nat) :
    lineAfter (above.count Byte.lineFeed + 1 + n) (above ++ Byte.lineFeed :: text)
      = lineAfter n text := by
  induction above with
  | nil =>
      rw [List.count_nil, List.nil_append, Nat.add_comm 0 1, Nat.add_comm (1 + 0) n]
      rfl
  | cons b above ih =>
      by_cases hb : b = Byte.lineFeed
      · rw [hb, List.count_cons_self, List.cons_append, ← ih, Nat.add_right_comm _ 1 n,
          Nat.add_right_comm _ 1 n]
        rfl
      · -- A byte on the first line makes no difference to the lines below it.
        have hskip : ∀ k rest, lineAfter (k + 1) (b :: rest) = lineAfter (k + 1) rest := by
          intro k rest
          rw [lineAfter, lineAfter, List.dropWhile_cons_of_pos (by simpa using hb)]
        rw [List.count_cons_of_ne (by simpa using hb), List.cons_append, Nat.add_right_comm, hskip,
          ← Nat.add_right_comm, ih]

namespace Reader

variable (above text : Bytes) (file : String)

theorem lineText_below {n : Int} (hn : 1 ≤ n) :
    (new (above ++ Byte.lineFeed :: text) file).lineText (n + (Shift.below above).lines)
      = (new text file).lineText n := by
  obtain ⟨k, rfl⟩ : ∃ k : Nat, n = k + 1 := ⟨n.toNat - 1, by omega⟩
  have hline : ((k : Int) + 1 + (Shift.below above).lines).toNat - 1
      = above.count Byte.lineFeed + 1 + k := by
    show ((k : Int) + 1 + (above.count Byte.lineFeed + 1 : Nat)).toNat - 1 = _
    omega
  rw [lineText, lineText, if_neg (by omega), if_neg (by omega), hline]
  show (Bytes.lineAfter _ (above ++ Byte.lineFeed :: text)).map _ = _
  rw [Bytes.lineAfter_below]
  rfl

theorem lineAt_below (m : Mark) :
    (new (above ++ Byte.lineFeed :: text) file).lineAt ((Shift.below above).mark m)
      = (new text file).lineAt m := by
  show Bytes.trimReturns (Bytes.firstLine
    ((above ++ Byte.lineFeed :: text).drop (m.lineStart + (above.length + 1)))) = _
  have hcut : above ++ Byte.lineFeed :: text = (above ++ [Byte.lineFeed]) ++ text := by simp
  have hlen : above.length + 1 = (above ++ [Byte.lineFeed]).length := by simp
  rw [hcut, hlen, Nat.add_comm, ← List.drop_drop, List.drop_left]
  rfl

theorem locationAt_below (m : Mark) :
    (new (above ++ Byte.lineFeed :: text) file).locationAt ((Shift.below above).mark m)
      = (Shift.below above).location ((new text file).locationAt m) := rfl

end Reader

/-! ## Reading on behind the line feed -/

/-- Readers of a text, and of the text below another one. -/
def Shift.mirror (above text : Bytes) (file : String) : (below above).likeness.Mirror :=
  .ofMarks (below above).likeness (fun m m' => m' = (below above).mark m)
    (fun e e' => e' = (below above).error e) text (above ++ Byte.lineFeed :: text) file
    (mark_step _)
    (by
      rintro m _ l rfl
      rfl)
    (by
      rintro m _ rfl
      rw [Reader.lineAt_below, Reader.locationAt_below]
      rfl)
    (by
      rintro m _ b rfl
      rw [Reader.lineAt_below, Reader.locationAt_below]
      rfl)

/-- The line feed closes what is open, so the text above is read as it is read alone. -/
theorem Reader.exists_delivers_above {above : Bytes} (text : Bytes) {file : String}
    {ts : List Token} {mark : Token} (h : (new above file).Holds ts mark) :
    ∃ r, (new (above ++ Byte.lineFeed :: text) file).Delivers ts r ∧
      (Shift.mirror above text file).readers (new text file) r := by
  obtain ⟨r', hdeliv⟩ := h.delivers
  obtain ⟨r, hts, hlast⟩ := hdeliv.split
  cases hlast with
  | cons hnext _ =>
      have hgap := next_atEnd_cases hnext h.atEnd
      have hresumes : Resumes [] (Byte.lineFeed :: text) :=
        ⟨⟨_, _, rfl, rfl⟩, fun _ => by simp [EndsLine]⟩
      obtain ⟨u, hu, hbelow⟩ := hts.resume hresumes (above ++ Byte.lineFeed :: text) h.live
        (List.append_nil _).symm
      obtain rfl : above = u := by simpa [new] using hu
      -- The reader stands before the gap at the end, the line feed and the text.
      have hscan : Gap.scan .between r.mark (r.rest ++ Byte.lineFeed :: text)
          = Gap.scan .between ((Shift.below above).mark {}) text := by
        obtain ⟨passed, hsource, hmark⟩ := (inPlace_new above file).delivers hts
        have habove : above = passed ++ r.rest := by rwa [hts.source_eq] at hsource
        have hfeed : ∀ m : Mark, Gap.scan .between m (Byte.lineFeed :: text)
            = Gap.scan .between (m.step Byte.lineFeed) text := fun m => rfl
        rw [Gap.scan_append (hgap.resume hresumes.line), hfeed, hmark, ← Shift.past_below, habove,
          Mark.past_append, Mark.past_append]
        rfl
      refine ⟨_, hbelow, ⟨rfl, rfl⟩, ⟨rfl, ?_⟩, ?_⟩
      · exact hts.file_eq
      · show Gap.Like _ _ (Gap.scan .between r.mark (r.rest ++ Byte.lineFeed :: text))
        rw [hscan]
        exact Gap.scan_like (T := fun m m' => m' = (Shift.below above).mark m) (Shift.mark_step _)
          .between rfl text

/-! ## Parsing on behind the line feed -/

namespace Rule

variable {strict : Bool} {n : Nat} {w z : List Token} {es : List Node}

/-- What a loop had read before stays in front of all that it still reads. -/
theorem repeatOnto_append (more : Rule Bool) (item : Rule (List Node)) (n : Nat)
    (seen before : List Node) :
    repeatOnto more item n (seen ++ before)
      = repeatOnto more item n seen >>= fun es => pure (before.reverse ++ es) := by
  induction n generalizing seen with
  | zero => rfl
  | succ n ih =>
      rw [repeatOnto, repeatOnto, bind_assoc]
      refine congrArg (more >>= ·) (funext fun c => ?_)
      cases c with
      | false => simp
      | true =>
          rw [if_pos rfl, if_pos rfl, bind_assoc]
          refine congrArg (item >>= ·) (funext fun nodes => ?_)
          rw [← List.append_assoc]
          exact ih _

/-- After the items of a source the loop goes on to what follows, whatever that is. -/
theorem reaches_itemsOnto (h : Row BuildsItem w es)
    (hnone : offence strict (es.flatMap Node.nodes) = none) (hn : w.length < n) :
    ∃ rounds, n ≤ rounds + w.length ∧
      Reaches (items strict n) w z (itemsOnto strict n rounds es.reverse) := by
  cases h with
  | @mk parts hparts =>
      have hfront : ∀ y ∈ parts, ∃ t v, y.1 = t :: v ∧ t.atEnd = false :=
        fun y hy => (hparts y hy).front
      have hlen : parts.length ≤ (parts.flatMap Prod.fst).length := by
        refine parts_length_le fun y hy => ?_
        obtain ⟨t, v, hw, -⟩ := hfront y hy
        simp [hw]
      have hround : ∀ y ∈ parts, Round (peek >>= fun t => pure (!t.atEnd))
          (item strict n >>= fun e => pure [e]) y.1 y.2 := by
        intro y hy z k seen
        have hpass : offence strict y.2.nodes = none := by
          obtain ⟨before, after, rfl⟩ := List.append_of_mem hy
          simp only [List.map_append, List.map_cons, List.flatMap_append, List.flatMap_cons,
            offence_append, Option.or_eq_none_iff] at hnone
          exact hnone.2.1
        have hitem : Judges (item strict n) y.1 z y.2 (offence strict y.2.nodes) :=
          judges_item (hparts y hy) (Nat.lt_of_le_of_lt (length_le_of_mem hy) hn)
        rw [hpass] at hitem
        have hone : Reaches (item strict n >>= fun e => pure [e]) y.1 z (pure [y.2]) :=
          hitem.reaches.last (.refl _)
        refine reaches_repeatOnto_more (u := []) ?_ hone
        obtain ⟨t, v, hw, hlive⟩ := hfront y hy
        rw [hw]
        exact reaches_peek.look (by rw [hlive]; exact .refl _)
      obtain ⟨k, rfl⟩ : ∃ k, n = parts.length + k := ⟨n - parts.length, by omega⟩
      refine ⟨k, by omega, ?_⟩
      rw [← List.append_nil (parts.map Prod.snd).reverse]
      exact reaches_rounds hround

end Rule

/-- A refusal further down names tokens further down; that it shows the same line is for the sources
to tell. -/
theorem Shift.eq_of_ofError {d : Shift} {e e' : SyntaxError} (h : d.likeness.OfError e e')
    (hline : e'.sourceLine = e.sourceLine) : e' = d.error e := by
  cases h with
  | unexpected hfound =>
      obtain rfl := hfound
      obtain rfl := hline
      rfl
  | unmatched hfound hopening =>
      obtain rfl := hfound
      obtain rfl := hopening
      obtain rfl := hline
      rfl

theorem Likeness.OfError.found? {L : Likeness} {e e' : SyntaxError} (h : L.OfError e e') :
    ∃ t t', e.found? = some t ∧ e'.found? = some t' ∧ L.tokens t t' := by
  cases h with
  | unexpected hfound => exact ⟨_, _, rfl, rfl, hfound⟩
  | unmatched hfound _ => exact ⟨_, _, rfl, rfl, hfound⟩

namespace Options

variable {o : Options} {name : Option String} {above : Bytes} {ts : List Token} {mark : Token}
  {es es' : List Node} {q : Parser} {e : SyntaxError}

theorem one_le_line {text : Bytes} {t : Token} (h : t ∈ o.stream text name) : 1 ≤ t.line := by
  obtain ⟨⟨r, hdeliv⟩, -⟩ := (Reader.new text (o.fileName name)).delivers_stream
  exact hdeliv.line_le t h

/-- With the items of the source above read, the parser stands as one does before the text alone. -/
theorem items_above (text : Bytes)
    (hholds : (Reader.new above (o.fileName name)).Holds ts mark) (hrow : Row BuildsItem ts es)
    (hnone : offence o.strict (es.flatMap Node.nodes) = none) :
    ∃ p rounds, (Shift.mirror above text (o.fileName name)).Trails (o.start text name) p ∧
      (o.start text name).budget ≤ rounds ∧
      Rule.items o.strict (o.start (above ++ Byte.lineFeed :: text) name).budget
        (o.start (above ++ Byte.lineFeed :: text) name)
          = Rule.itemsOnto o.strict (o.start (above ++ Byte.lineFeed :: text) name).budget rounds
              es.reverse p := by
  let p₀ := o.start (above ++ Byte.lineFeed :: text) name
  have hbudget : p₀.budget = above.length + (o.start text name).budget + 1 := by
    simp [p₀, start, Parser.new, Reader.new, Parser.budget]
    omega
  have hlen : ts.length ≤ above.length := by
    obtain ⟨r, hdeliv⟩ := hholds.delivers
    obtain ⟨r', hts, -⟩ := hdeliv.split
    have hcost := hts.rest_length_le
    rw [Parser.Took.sum_cost_of_live hholds.live] at hcost
    exact Nat.le_trans (Nat.le_add_left _ _) hcost
  obtain ⟨r, hts, hr⟩ := Reader.exists_delivers_above text hholds
  obtain ⟨rounds, hrounds, hreach⟩ :=
    Rule.reaches_itemsOnto (z := []) (n := p₀.budget) hrow hnone (by omega)
  have hshows : p₀.Shows (ts ++ []) := ⟨ts, r, hts, by simp [p₀, start, Parser.new]⟩
  obtain ⟨p, htook, hrun⟩ := hreach p₀ hshows
  refine ⟨p, rounds, ?_, by omega, hrun⟩
  -- What the parser has drawn beyond the first source is mirrored by the text alone.
  obtain ⟨ds, hds, heq⟩ := htook.drawn
  obtain rfl : ds = ts ++ p.ahead := heq
  obtain ⟨r', hts', hahead⟩ := hds.split
  obtain ⟨-, rfl⟩ := hts.unique hts' rfl
  obtain ⟨us, r₁, hus, hlike, hr₁⟩ := Likeness.Mirror.delivers_back hr hahead
  exact ⟨us, r₁, hus, hlike, hr₁⟩

/-- The run over both sources ends as the run over the second one does, with the items of the first in
front. -/
theorem items_append_lineFeed (text : Bytes)
    (hholds : (Reader.new above (o.fileName name)).Holds ts mark) (hrow : Row BuildsItem ts es)
    (hnone : offence o.strict (es.flatMap Node.nodes) = none) :
    (Shift.mirror above text (o.fileName name)).Ends
      (fun es₂ all => all = es ++ es₂.map (Shift.below above).node)
      (Rule.items o.strict (o.start text name).budget (o.start text name))
      (Rule.items o.strict (o.start (above ++ Byte.lineFeed :: text) name).budget
        (o.start (above ++ Byte.lineFeed :: text) name)) := by
  obtain ⟨p, rounds, htrails, hrounds, hitems⟩ := items_above text hholds hrow hnone
  have hbudget : (o.start text name).budget
      ≤ (o.start (above ++ Byte.lineFeed :: text) name).budget := by
    simp [start, Parser.new, Reader.new, Parser.budget]
    omega
  rw [hitems, Rule.itemsOnto, ← List.nil_append es.reverse, Rule.repeatOnto_append,
    List.reverse_reverse]
  have hboth : (Shift.below above).likeness.Alike
      (fun es₂ all => all = es ++ es₂.map (Shift.below above).node)
      (Rule.items o.strict (o.start text name).budget)
      (Rule.itemsOnto o.strict (o.start (above ++ Byte.lineFeed :: text) name).budget rounds []
        >>= fun all => pure (es ++ all)) := by
    rw [← bind_pure (Rule.items o.strict (o.start text name).budget)]
    refine (Rule.alike_itemsOnto hbudget hrounds).bind fun es₂ all hlike => .pure ?_
    rw [Shift.eq_of_ofNodes hlike]
  exact hboth.mirrors _ _ htrails

/-- The line that a refusal shows is found again in both sources together. -/
theorem sourceLine_append_lineFeed {text : Bytes} {e' : SyntaxError} {q' : Parser}
    (h : Rule.items o.strict (o.start text name).budget (o.start text name)
      = .error (.refused e) q)
    (h' : Rule.items o.strict (o.start (above ++ Byte.lineFeed :: text) name).budget
      (o.start (above ++ Byte.lineFeed :: text) name) = .error (.refused e') q')
    (hlike : (Shift.below above).likeness.OfError e e') : e'.sourceLine = e.sourceLine := by
  obtain ⟨t, _, hfound, hfound', rfl⟩ := hlike.found?
  have hquotes : ∀ n, Likeness.lexemes.Alike Likeness.lexemes.OfNodes
      (Rule.items o.strict n) (Rule.items o.strict n) := fun n => Rule.alike_items (Nat.le_refl n)
  have hline := Rule.quotes_of_alike (hquotes _) h t hfound
  have hline' := Rule.quotes_of_alike (hquotes _) h' _ hfound'
  have hmem : t ∈ o.stream text name :=
    Rule.named_mem_stream rfl h t (SyntaxError.mem_named hfound)
  rw [hline, hline']
  exact Reader.lineText_below above text (o.fileName name) (one_le_line hmem)

/-- Two sources with a line feed between them, of which the first is accepted.

* If the second is accepted, so are both together.  The items are those of the first and then those
  of the second, further down, and the tokens are counted with one end mark.
* If the second is refused, so are both together, for the same reason, further down. -/
theorem parse_append_lineFeed {r : Parsed} (h : (o.parse above name).1 = .ok r) (text : Bytes) :
    (∀ r', (o.parse text name).1 = .ok r' →
      (o.parse (above ++ Byte.lineFeed :: text) name).1 = .ok
        { r with
          tree := .ofItems r.file (r.tree.items ++ r'.tree.items.map (Shift.below above).node)
          tokenCount := r.tokenCount + r'.tokenCount - 1 }) ∧
    ∀ e, (o.parse text name).1 = .error (.refused e) →
      (o.parse (above ++ Byte.lineFeed :: text) name).1
        = .error (.refused ((Shift.below above).error e)) := by
  obtain ⟨ts, mark, es, hholds, hrow, hnone, rfl⟩ := holds_of_parse_ok h
  have hends := items_append_lineFeed text hholds hrow hnone
  generalize hrun : Rule.items o.strict (o.start text name).budget (o.start text name) = result
    at hends
  generalize hrun' : Rule.items o.strict (o.start (above ++ Byte.lineFeed :: text) name).budget
    (o.start (above ++ Byte.lineFeed :: text) name) = result' at hends
  cases hends with
  | ok heq _ =>
      subst heq
      obtain ⟨ts₂, mark₂, hholds₂, -⟩ := o.holds_of_items_ok text name hrun
      rw [o.parse_eq_ok text name hrun, o.parse_eq_ok _ name hrun']
      refine ⟨?_, by simp⟩
      rintro r' ⟨⟩
      -- Both together hold the tokens of the first and those of the second.
      obtain ⟨r₁, hts, hr₁⟩ := Reader.exists_delivers_above text hholds
      obtain ⟨ts', mark', hholds', hlike, -⟩ := Likeness.Mirror.holds hr₁ hholds₂
      obtain ⟨r₂, hdeliv⟩ := hholds'.delivers
      have hboth : (Reader.new (above ++ Byte.lineFeed :: text) (o.fileName name)).Holds
          (ts ++ ts') mark' :=
        ⟨⟨r₂, by rw [List.append_assoc]; exact hts.append hdeliv⟩,
          List.forall_mem_append.mpr ⟨hholds.live, hholds'.live⟩, hholds'.atEnd⟩
      rw [o.tokensRead_of_items_ok _ name hrun' hboth, o.tokensRead_of_items_ok _ name hrun hholds₂,
        List.length_append, ← hlike.length_eq]
      have hcount : ts.length + ts₂.length + 1 = ts.length + 1 + (ts₂.length + 1) - 1 := by omega
      rw [hcount]
      rfl
  | refused hlike =>
      have hline := sourceLine_append_lineFeed hrun hrun' hlike
      rw [o.parse_of_error text name hrun, o.parse_of_error _ name hrun',
        Shift.eq_of_ofError hlike hline]
      refine ⟨by simp, ?_⟩
      rintro e ⟨⟩
      rfl
  | unreadable heq =>
      obtain rfl := heq
      rw [o.parse_of_error text name hrun, o.parse_of_error _ name hrun']
      refine ⟨by simp, ?_⟩
      rintro e ⟨⟩
      rfl
  | exhausted =>
      rw [o.parse_of_error text name hrun]
      exact ⟨by simp, by simp⟩

/-- A comment that nothing closes but the line feed, and a byte below it that starts no token. -/
theorem parse_comment_above_invalid_byte : ∃ r,
    (({} : Options).parse (utf8 "int a; // b") none).1 = .ok r ∧
      (({} : Options).parse (utf8 "int c;\n @") none).1 = .error (.refused
        (.invalidByte 64 8 (some { file := "<input>", line := 2, column := 2 })
          (some (utf8 " @")) none none)) ∧
      (({} : Options).parse (utf8 "int a; // b\nint c;\n @") none).1 = .error (.refused
        (.invalidByte 64 20 (some { file := "<input>", line := 3, column := 2 })
          (some (utf8 " @")) none none)) := by
  have habove : (({} : Options).parse (utf8 "int a; // b") none).1.toBool = true := by
    decide +kernel
  have hreason : (({} : Options).parse (utf8 "int c;\n @") none).1.map (fun _ => ())
      = .error (.refused (.invalidByte 64 8 (some { file := "<input>", line := 2, column := 2 })
        (some (utf8 " @")) none none)) := by
    decide +kernel
  obtain ⟨r, hok⟩ := exists_ok_of_toBool habove
  have herror := eq_error_of_map hreason
  exact ⟨r, hok, herror, (parse_append_lineFeed hok (utf8 "int c;\n @")).2 _ herror⟩

end Options

end MiniC
