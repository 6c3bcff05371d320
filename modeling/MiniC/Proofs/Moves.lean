/-
# MiniC.Proofs.Moves — a run as single moves on a stream that ends.

Whatever rules do, they do by three moves: another token is drawn, the one in front is dropped, an
event is noted.  A token is drawn only while at most one waits, so two is the most that ever wait.
Each move keeps the books: what was drawn comes from the reader in order, what waits is the last of it,
and every token is counted but the end mark, which counts once.

A run ends because the end mark is in front, and has drawn everything by then, or because it refuses a
token, which is then the last one drawn or the last but one.
-/
import MiniC.Proofs.Sharing
import MiniC.Proofs.Termination

namespace MiniC

/-! ## Streams that end -/

namespace Reader

variable {r r' : Reader} {t mark : Token} {ts us : List Token}

theorem Holds.next_cons (h : r.Holds (t :: ts) mark) :
    ∃ r', r.next = (.ok t, r') ∧ r'.Holds ts mark := by
  obtain ⟨r₁, hdeliv⟩ := h.delivers
  cases hdeliv with
  | @cons _ r' _ _ _ hnext hrest =>
      exact ⟨r', hnext, ⟨r₁, hrest⟩, (List.forall_mem_cons.mp h.live).2, h.atEnd⟩

theorem Holds.next_nil (h : r.Holds [] mark) : ∃ r', r.next = (.ok mark, r') ∧ r'.Holds [] mark := by
  obtain ⟨r₁, hdeliv⟩ := h.delivers
  cases hdeliv with
  | @cons _ r' _ _ _ hnext _ =>
      exact ⟨r', hnext, ⟨r', .single (next_again hnext h.atEnd)⟩, by simp, h.atEnd⟩

/-- What was not delivered is still held. -/
theorem Holds.after (h : r.Holds ts mark) (hdeliv : r.Delivers us r') :
    ∃ rest, r'.Holds rest mark ∧ us.filter (!·.atEnd) ++ rest = ts := by
  induction hdeliv generalizing ts with
  | nil => exact ⟨ts, h, rfl⟩
  | @cons r r₁ r₂ u us hnext _ ih =>
      cases ts with
      | nil =>
          obtain ⟨q, hq, hholds⟩ := h.next_nil
          rw [hnext] at hq
          cases hq
          obtain ⟨rest, hrest, heq⟩ := ih hholds
          exact ⟨rest, hrest, by rw [List.filter_cons_of_neg (by simp [h.atEnd]), heq]⟩
      | cons t ts =>
          obtain ⟨q, hq, hholds⟩ := h.next_cons
          rw [hnext] at hq
          cases hq
          obtain ⟨rest, hrest, heq⟩ := ih hholds
          have hlive := (List.forall_mem_cons.mp h.live).1
          exact ⟨rest, hrest, by rw [List.filter_cons_of_pos (by simp [hlive]), List.cons_append, heq]⟩

theorem Holds.next_ok (h : r.Holds ts mark) : ∃ t r', r.next = (.ok t, r') := by
  cases ts with
  | nil =>
      obtain ⟨r', hnext, -⟩ := h.next_nil
      exact ⟨mark, r', hnext⟩
  | cons t ts =>
      obtain ⟨r', hnext, -⟩ := h.next_cons
      exact ⟨t, r', hnext⟩

/-- Once the end mark has been delivered, everything before it has. -/
theorem Holds.filter_eq_of_mem (h : r.Holds ts mark) (hdeliv : r.Delivers us r') (hmem : t ∈ us)
    (hend : t.atEnd = true) : us.filter (!·.atEnd) = ts := by
  obtain ⟨rest, hrest, heq⟩ := h.after hdeliv
  have hnext := hdeliv.next_of_mem hmem hend
  cases rest with
  | nil => rwa [List.append_nil] at heq
  | cons s rest =>
      obtain ⟨q, hs, -⟩ := hrest.next_cons
      rw [hnext] at hs
      cases hs
      have hlive := hrest.live t (by simp)
      rw [hend] at hlive
      cases hlive

end Reader

/-! ## Moves -/

/-- How many tokens these are if the end mark counts once. -/
def tally (ds : List Token) : Nat := (ds.filter (!·.atEnd)).length + (ds.any Token.atEnd).toNat

theorem Reader.sum_cost (ds : List Token) : (ds.map cost).sum = (ds.filter (!·.atEnd)).length := by
  induction ds with
  | nil => rfl
  | cons t ds ih => cases ht : t.atEnd <;> simp [cost, ht, ih, Nat.add_comm]

namespace Parser

/-- From `p` move by move, drawing these tokens in this order, and only while at most one token is
ahead. -/
inductive Moves (p : Parser) : List Token → Parser → Prop
  | refl : Moves p [] p
  | draw {ds : List Token} {q q' : Parser} {t : Token} :
      Moves p ds q → q.ahead.length ≤ 1 → Rule.draw q = .ok t q' → Moves p (ds ++ [t]) q'
  | drop {ds : List Token} {q : Parser} : Moves p ds q → Moves p ds { q with ahead := q.ahead.tail }
  | note {ds : List Token} {q : Parser} {e : Event} :
      Moves p ds q → Moves p ds { q with journal := e :: q.journal }

namespace Moves

variable {p p' : Parser} {ds : List Token}

theorem drew (h : p.Moves ds p') : p.Drew ds p' := by
  induction h with
  | refl => exact .refl p
  | draw _ _ hdraw ih =>
      obtain ⟨hnext, hahead, -⟩ := Rule.draw_eq_ok hdraw
      exact ih.trans ⟨.single hnext, by simp [hahead]⟩
  | drop _ ih => exact ⟨ih.delivers, (List.tail_suffix _).trans ih.ahead⟩
  | note _ ih => exact ⟨ih.delivers, ih.ahead⟩

/-- Never more than two tokens are ahead. -/
theorem length_ahead_le (h : p.Moves ds p') (hp : p.ahead.length ≤ 2) : p'.ahead.length ≤ 2 := by
  induction h with
  | refl => exact hp
  | draw _ hshort hdraw _ =>
      rw [(Rule.draw_eq_ok hdraw).2.1, List.length_append, List.length_singleton]
      omega
  | @drop _ q _ ih =>
      show q.ahead.tail.length ≤ 2
      rw [List.length_tail]
      omega
  | note _ ih => exact ih

/-- Moves leave alone what they are not about. -/
theorem kept (h : p.Moves ds p') :
    p'.strict = p.strict ∧ p'.started = p.started ∧ p'.tree = p.tree := by
  induction h with
  | refl => exact ⟨rfl, rfl, rfl⟩
  | draw _ _ hdraw ih =>
      obtain ⟨-, -, hstrict, hstarted, htree, -⟩ := Rule.draw_eq_ok hdraw
      exact ⟨hstrict.trans ih.1, hstarted.trans ih.2.1, htree.trans ih.2.2⟩
  | drop _ ih => exact ih
  | note _ ih => exact ih

/-- The end mark is counted once, however often it is drawn. -/
theorem counted (h : p.Moves ds p') (hsaw : p.sawEnd = false) (hread : p.tokensRead = 0) :
    p'.sawEnd = ds.any Token.atEnd ∧ p'.tokensRead = tally ds := by
  have hcount : p'.sawEnd = ds.any Token.atEnd ∧
      p'.tokensRead = (ds.map Reader.cost).sum + p'.sawEnd.toNat := by
    induction h with
    | refl => exact ⟨hsaw, by simp [hread, hsaw]⟩
    | draw hmoves _ hdraw ih => exact count_of_draw hdraw hmoves.drew.delivers ih.1 ih.2
    | drop _ ih => exact ih
    | note _ ih => exact ih
  refine ⟨hcount.1, ?_⟩
  rw [hcount.2, hcount.1, tally, Reader.sum_cost]

end Moves

end Parser

/-! ## Runs made of moves -/

namespace Rule

theorem LeavesWith.stop {α : Type} {I : Parser → Prop} {o : EStateM.Result Failure Parser α}
    (h : LeavesWith I I o) : I (Rule.stop o) := by
  cases o with
  | ok a p => exact h
  | error failure p => exact h

/-- On a stream that ends the reader has another token for every draw. -/
theorem guarded_moves {p : Parser} {ts : List Token} {mark : Token} (h : p.reader.Holds ts mark) :
    Guarded (fun q => ∃ ds, p.Moves ds q) fun q => ∃ ds, p.Moves ds q where
  draw := by
    rintro q ⟨ds, hmoves⟩ hshort
    obtain ⟨rest, hholds, -⟩ := h.after hmoves.drew.delivers
    obtain ⟨t, r, hnext⟩ := hholds.next_ok
    obtain ⟨q', hdraw, -⟩ := draw_ok hnext
    rw [hdraw]
    exact ⟨_, hmoves.draw hshort hdraw⟩
  drop := by
    rintro q ⟨ds, hmoves⟩
    exact ⟨ds, hmoves.drop⟩
  note := by
    rintro q e ⟨ds, hmoves⟩
    exact ⟨ds, hmoves.note⟩
  fail := id

end Rule

/-! ## States on the way -/

namespace Rule

variable {α β : Type} {x : Rule α} {p q : Parser}

/-- Running `x` from `p` passes through `q`, before, between or behind its moves. -/
inductive Passes : Rule α → Parser → Parser → Prop
  | here {x : Rule α} {p : Parser} : Passes x p p
  | look {y : Rule Token} {f : Token → Rule α} {p p' q : Parser} {t : Token} :
      Likeness.Look y → y p = .ok t p' → Passes (f t) p' q → Passes (y >>= f) p q
  | unreadable {y : Rule Token} {f : Token → Rule α} {p p' : Parser} {failure : Failure} :
      Likeness.Look y → y p = .error failure p' → Passes (y >>= f) p p'
  | note {e : Event} {x : Rule α} {p q : Parser} :
      Passes x { p with journal := e :: p.journal } q → Passes (note e >>= fun _ => x) p q

/-- A look draws only where at most one token is ahead, also if it fails. -/
theorem guarded_short :
    Guarded (fun p => p.ahead.length ≤ 2) fun p => p.ahead.length ≤ 2 where
  draw := by
    intro p _ hshort
    rcases hnext : p.reader.next with ⟨e | t, r⟩
    · simp only [Rule.draw, hnext, LeavesWith]
      omega
    · simp only [Rule.draw, hnext, LeavesWith, List.length_append, List.length_singleton]
      omega
  drop := by
    intro p hp
    show p.ahead.tail.length ≤ 2
    rw [List.length_tail]
    omega
  note _ hp := hp
  fail := id

theorem Passes.length_ahead_le (h : Passes x p q) (hp : p.ahead.length ≤ 2) : q.ahead.length ≤ 2 := by
  induction h with
  | here => exact hp
  | look hlook hrun _ ih =>
      have hshort := guarded_short.look hlook hp
      rw [hrun] at hshort
      exact ih hshort
  | unreadable hlook hrun =>
      have hshort := guarded_short.look hlook hp
      rwa [hrun] at hshort
  | note _ ih => exact ih hp

/-- A rule that is made of moves passes from its first state to the one in which it stops. -/
theorem passes_stop {L : Likeness} {R : α → β → Prop} {y : Rule β} (h : L.Alike R x y) (p : Parser) :
    Passes x p (stop (x p)) := by
  induction h generalizing p with
  | pure | refuse | exhausted => exact .here
  | @look x f g hlook _ ih =>
      cases hx : x p with
      | error failure q =>
          rw [bind_error hx]
          exact .unreadable hlook hx
      | ok t q =>
          obtain ⟨t', ht⟩ := L.exists_like t
          rw [bind_ok hx]
          exact .look hlook hx (ih t t' ht q)
  | @note e _ _ _ _ _ ih => exact .note (ih { p with journal := e :: p.journal })

end Rule

namespace Parser

variable {p : Parser} {r : Reader} {strict : Bool} {ts ds : List Token} {mark : Token} {tree : Tree}
  {e : SyntaxError}

/-- Where a first run stops reading. -/
def halt (p : Parser) : Parser := Rule.stop (Rule.items p.strict p.budget { p with started := true })

/-- The tokens that a first run draws, move by move. -/
def RunDraws (p : Parser) (ds : List Token) : Prop := { p with started := true }.Moves ds p.halt

/-- A first run passes through this state. -/
def RunPasses (p q : Parser) : Prop :=
  Rule.Passes (Rule.items p.strict p.budget) { p with started := true } q

theorem runPasses_halt (p : Parser) : p.RunPasses p.halt :=
  Rule.passes_stop (Rule.alike_items (L := .lexemes) (Nat.le_refl _)) { p with started := true }

/-- Behind the last move only the tree is kept and the end noted. -/
theorem run_snd (hfresh : p.started = false) :
    p.run.2 = { p.halt with tree := p.run.2.tree, journal := p.run.2.journal } := by
  simp only [run, halt, hfresh, Bool.false_eq_true, if_false]
  rcases Rule.items p.strict p.budget { p with started := true } with _ | ⟨_ | _, _⟩ <;> rfl

/-- A first run that succeeds leaves its tree, and one that fails leaves what was there. -/
theorem run_tree (hfresh : p.started = false) (hnone : p.halt.tree = none) :
    p.run.2.tree = some tree ↔ p.run.1 = .ok tree := by
  unfold halt at hnone
  simp only [run, hfresh, Bool.false_eq_true, if_false]
  generalize Rule.items p.strict p.budget { p with started := true } = result at hnone ⊢
  rcases result with ⟨es, q⟩ | ⟨_ | _, q⟩
  · simp
  all_goals
    replace hnone : q.tree = none := hnone
    simp [hnone]

theorem exists_runDraws (h : p.reader.Holds ts mark) : ∃ ds, p.RunDraws ds := by
  have hmoves : Likeness.lexemes.Alike Likeness.lexemes.OfNodes (Rule.items p.strict p.budget)
      (Rule.items p.strict p.budget) := Rule.alike_items (Nat.le_refl _)
  have hguarded := Rule.guarded_moves (p := { p with started := true }) h
  exact (hguarded.of_alike hmoves ⟨[], .refl⟩).stop

/-- A run that succeeds has drawn all that was left, with the end mark. -/
theorem RunDraws.all (hdraws : (Parser.new r strict).RunDraws ds) (h : r.Holds ts mark)
    (hrun : (Parser.new r strict).run.1 = .ok tree) :
    ds.filter (!·.atEnd) = ts ∧ ds.any Token.atEnd = true := by
  let p : Parser := { Parser.new r strict with started := true }
  have hmoves : p.Moves ds (Rule.stop (Rule.items strict p.budget p)) := hdraws
  generalize hitems : Rule.items strict p.budget p = result at hmoves
  cases result with
  | error failure q =>
      rw [run_of_error (p := Parser.new r strict) rfl hitems] at hrun
      cases hrun
  | ok es q =>
      obtain ⟨t, a, hahead, htest⟩ := Rule.ahead_of_repeatOnto hitems
      have hend : t.atEnd = true := by simpa using htest
      have hmem : t ∈ ds := hmoves.drew.ahead.subset (by rw [Rule.stop, hahead]; simp)
      exact ⟨h.filter_eq_of_mem hmoves.drew.delivers hmem hend, List.any_eq_true.mpr ⟨t, hmem, hend⟩⟩

/-- The token that is refused is the last one drawn, or the last but one. -/
theorem RunDraws.refused (hdraws : (Parser.new r strict).RunDraws ds) (h : r.Holds ts mark)
    (hrun : (Parser.new r strict).run.1 = .error (.refused e)) :
    ∃ front found rest, e.found? = some found ∧ ds = front ++ found :: rest ∧ rest.length ≤ 1 := by
  let p : Parser := { Parser.new r strict with started := true }
  have hout : Outcome none 0 .unit p (Rule.items strict p.budget p) := Parser.items_outcome rfl strict
  have hmoves : p.Moves ds (Rule.stop (Rule.items strict p.budget p)) := hdraws
  generalize hitems : Rule.items strict p.budget p = result at hout hmoves
  cases hout with
  | ok =>
      rw [run_of_ok (p := Parser.new r strict) rfl hitems] at hrun
      cases hrun
  | @stuck _ found _ w v rest _ hahead _ hfound _ hrest =>
      rw [run_of_error (p := Parser.new r strict) rfl hitems] at hrun
      cases hrun
      obtain ⟨front, hfront⟩ := hmoves.drew.ahead
      refine ⟨front ++ v, found, rest, hfound, ?_, by omega⟩
      rw [Rule.stop, hahead] at hfront
      rw [List.append_assoc]
      exact hfront.symm
  | unreadable hdeliv hnext =>
      exact absurd ⟨⟨_, _, hdeliv, hnext⟩, hdeliv.live_of_next_error hnext⟩ h.not_fails

end Parser

end MiniC
