/-
# MiniC.Proofs.Delivery — what a reader delivers, and what a parser takes of it.

A reader is asked for one token at a time and a parser asks only when a rule looks.  Two relations
say how far that has gone, and everything about rules is stated through them.
`r.Delivers ts r'` is any number of answers in a row.  `p.Took w p'` says that `w` was taken between
two states of a parser; what was drawn beyond `w` waits in `p'.ahead`.

`p.Within k` says that at most `k` more tokens can be taken, which is what budgets are measured against;
`Parser.left` is a bound that can be read off a parser without reading on.
-/
import Mathlib.Algebra.GroupWithZero.Nat
import MiniC.Grammar.Unit

namespace MiniC

namespace Reader

/-! ## Answers in a row -/

/-- Asking `r` once for each token of `ts` gives these tokens and leaves `r'`. -/
inductive Delivers : Reader → List Token → Reader → Prop
  | nil (r : Reader) : Delivers r [] r
  | cons {r r' r'' : Reader} {t : Token} {ts : List Token} :
      r.next = (.ok t, r') → Delivers r' ts r'' → Delivers r (t :: ts) r''

namespace Delivers

variable {r r' r'' : Reader} {t : Token} {ts us : List Token}

theorem single (h : r.next = (.ok t, r')) : r.Delivers [t] r' := .cons h (.nil r')

theorem append (h : r.Delivers ts r') (h' : r'.Delivers us r'') : r.Delivers (ts ++ us) r'' := by
  induction h with
  | nil => exact h'
  | cons hnext _ ih => exact .cons hnext (ih h')

theorem split (h : r.Delivers (ts ++ us) r'') : ∃ r', r.Delivers ts r' ∧ r'.Delivers us r'' := by
  induction ts generalizing r with
  | nil => exact ⟨r, .nil r, h⟩
  | cons t ts ih =>
      cases h with
      | cons hnext hrest =>
          obtain ⟨r', hts, hus⟩ := ih hrest
          exact ⟨r', .cons hnext hts, hus⟩

/-- A reader has one answer at a time, so a longer delivery goes through every shorter one. -/
theorem extend (h : r.Delivers ts r') (h' : r.Delivers us r'') (hlen : ts.length ≤ us.length) :
    ∃ vs, us = ts ++ vs ∧ r'.Delivers vs r'' := by
  induction h generalizing us with
  | nil => exact ⟨us, rfl, h'⟩
  | cons hnext _ ih =>
      cases h' with
      | nil => simp at hlen
      | cons hnext' hrest =>
          rw [hnext] at hnext'
          obtain ⟨rfl, rfl⟩ := by simpa using hnext'
          obtain ⟨vs, rfl, hvs⟩ := ih hrest (by simpa using hlen)
          exact ⟨vs, rfl, hvs⟩

theorem unique (h : r.Delivers ts r') (h' : r.Delivers us r'') (hlen : ts.length = us.length) :
    us = ts ∧ r'' = r' := by
  obtain ⟨vs, rfl, hvs⟩ := h.extend h' (Nat.le_of_eq hlen)
  obtain rfl : vs = [] := List.eq_nil_of_length_eq_zero (by simpa using hlen)
  cases hvs
  exact ⟨by simp, rfl⟩

end Delivers

/-! ## Every answer but the end mark costs text -/

/-- One for a token that is read off the text, none for the end mark. -/
def cost (t : Token) : Nat := if t.atEnd then 0 else 1

theorem rest_length_add_cost_le {r r' : Reader} {t : Token} (h : r.next = (.ok t, r')) :
    r'.rest.length + cost t ≤ r.rest.length := by
  have hfst : r.next.1 = .ok t := by rw [h]
  have hsnd : r.next.2 = r' := by rw [h]
  cases hend : t.atEnd with
  | false =>
      have hlt := rest_length_lt_of_next hfst hend
      rw [hsnd] at hlt
      simp only [cost, hend, Bool.false_eq_true, if_false]
      omega
  | true =>
      unfold next at h
      split at h
      · simp at h
      · obtain ⟨-, rfl⟩ := by simpa using h
        simp [cost, hend]
      · next m b rest hscan =>
        have hshorter := Gap.length_le_of_scan_clear hscan
        split at h
        · obtain ⟨-, rfl⟩ := by simpa using h
          simp only [Gap.State.held, List.length_cons, List.length_drop, cost, hend, if_true]
            at hshorter ⊢
          omega
        · simp at h

theorem Delivers.rest_length_le {r r' : Reader} {ts : List Token} (h : r.Delivers ts r') :
    r'.rest.length + (ts.map cost).sum ≤ r.rest.length := by
  induction h with
  | nil => simp
  | cons hnext _ ih =>
      have hstep := rest_length_add_cost_le hnext
      simp only [List.map_cons, List.sum_cons]
      omega

/-- At the end of its text a reader answers with the end mark for ever. -/
theorem next_of_rest_nil {r : Reader} (h : r.rest = []) :
    r.next = (.ok (r.tokenAt r.mark (.endOfStream none)), r) := by
  obtain ⟨source, file, mark, rest⟩ := r
  obtain rfl : rest = [] := h
  rfl

end Reader

namespace Parser

/-! ## Tokens taken -/

/-- Between `p` and `p'` exactly `w` was taken, without the end mark; what was drawn beyond `w` is
ahead. -/
structure Took (p : Parser) (w : List Token) (p' : Parser) : Prop where
  drawn : ∃ ds, p.reader.Delivers ds p'.reader ∧ p.ahead ++ ds = w ++ p'.ahead
  live : ∀ t ∈ w, t.atEnd = false

/-- How many tokens can still be taken, at most. -/
def left (p : Parser) : Nat := (p.ahead.map Reader.cost).sum + p.reader.rest.length

namespace Took

variable {p p' p'' : Parser} {w v : List Token}

theorem refl (p : Parser) : p.Took [] p := ⟨⟨[], .nil _, by simp⟩, by simp⟩

theorem trans (h : p.Took w p') (h' : p'.Took v p'') : p.Took (w ++ v) p'' := by
  obtain ⟨ds, hds, heq⟩ := h.drawn
  obtain ⟨es, hes, heq'⟩ := h'.drawn
  refine ⟨⟨ds ++ es, hds.append hes, ?_⟩, ?_⟩
  · rw [← List.append_assoc, heq, List.append_assoc, heq', List.append_assoc]
  · intro t ht
    rcases List.mem_append.mp ht with ht | ht
    · exact h.live t ht
    · exact h'.live t ht

theorem sum_cost_of_live (h : ∀ t ∈ w, t.atEnd = false) : (w.map Reader.cost).sum = w.length := by
  induction w with
  | nil => rfl
  | cons t w ih =>
      have ht : Reader.cost t = 1 := by simp [Reader.cost, h t (by simp)]
      simp only [List.map_cons, List.sum_cons, List.length_cons, ht]
      rw [ih fun u hu => h u (List.mem_cons_of_mem t hu)]
      omega

theorem left_add_length_le (h : p.Took w p') : p'.left + w.length ≤ p.left := by
  obtain ⟨ds, hds, heq⟩ := h.drawn
  have hrest := hds.rest_length_le
  have hsum := congrArg (fun ts => (ts.map Reader.cost).sum) heq
  simp only [List.map_append, List.sum_append, sum_cost_of_live h.live] at hsum
  simp only [left]
  omega

/-- What was taken is determined by where the parser stands before and after. -/
theorem unique (h : p.Took w p') (h' : p.Took v p') : w = v := by
  obtain ⟨ds, hds, heq⟩ := h.drawn
  obtain ⟨es, hes, heq'⟩ := h'.drawn
  -- The two deliveries may differ only in end marks, which cost nothing.
  have hcost : (ds.map Reader.cost).sum = (es.map Reader.cost).sum := by
    rcases Nat.le_total ds.length es.length with hlen | hlen
    · obtain ⟨fs, rfl, hfs⟩ := hds.extend hes hlen
      have hrest := hfs.rest_length_le
      simp only [List.map_append, List.sum_append]
      omega
    · obtain ⟨fs, rfl, hfs⟩ := hes.extend hds hlen
      have hrest := hfs.rest_length_le
      simp only [List.map_append, List.sum_append]
      omega
  have hsum := congrArg (fun ts => (ts.map Reader.cost).sum) heq
  have hsum' := congrArg (fun ts => (ts.map Reader.cost).sum) heq'
  simp only [List.map_append, List.sum_append, sum_cost_of_live h.live] at hsum
  simp only [List.map_append, List.sum_append, sum_cost_of_live h'.live] at hsum'
  have hlen : ds.length = es.length := by
    have hlength := congrArg List.length heq
    have hlength' := congrArg List.length heq'
    simp only [List.length_append] at hlength hlength'
    omega
  obtain ⟨rfl, -⟩ := hds.unique hes hlen
  exact List.append_cancel_right (heq.symm.trans heq')

end Took

/-- At most `k` more tokens can be taken. -/
def Within (p : Parser) (k : Nat) : Prop := ∀ w p', p.Took w p' → w.length ≤ k

namespace Within

variable {p p' : Parser} {w : List Token} {j k : Nat}

theorem left (p : Parser) : p.Within p.left :=
  fun _ _ h => Nat.le_trans (Nat.le_add_left _ _) h.left_add_length_le

theorem mono (h : p.Within j) (hle : j ≤ k) : p.Within k :=
  fun w p' htook => Nat.le_trans (h w p' htook) hle

/-- What was taken counts. -/
theorem after (h : p.Within k) (htook : p.Took w p') : p'.Within (k - w.length) := by
  intro v p'' htook'
  have hboth := h _ _ (htook.trans htook')
  rw [List.length_append] at hboth
  omega

end Within

/-! ## Tokens to come -/

/-- The next tokens that rules will see are `ts`. -/
def Shows (p : Parser) (ts : List Token) : Prop :=
  ∃ ds r, p.reader.Delivers ds r ∧ ts <+: p.ahead ++ ds

namespace Shows

variable {p p' : Parser} {w z : List Token}

theorem of_isPrefix (h : p.Shows z) (hw : w <+: z) : p.Shows w := by
  obtain ⟨ds, r, hds, hz⟩ := h
  exact ⟨ds, r, hds, hw.trans hz⟩

/-- Taking what is shown first leaves the rest to be shown. -/
theorem after (h : p.Shows (w ++ z)) (htook : p.Took w p') : p'.Shows z := by
  obtain ⟨es, r, hes, rest, heq⟩ := h
  obtain ⟨ds, hds, htaken⟩ := htook.drawn
  -- Whichever of the two deliveries is the longer one goes through the other.
  rcases Nat.le_total ds.length es.length with hlen | hlen
  · obtain ⟨fs, rfl, hfs⟩ := hds.extend hes hlen
    refine ⟨fs, r, hfs, rest, ?_⟩
    rw [← List.append_assoc p.ahead, htaken] at heq
    simpa using heq
  · obtain ⟨fs, rfl, hfs⟩ := hes.extend hds hlen
    refine ⟨[], p'.reader, .nil _, rest ++ fs, ?_⟩
    rw [← List.append_assoc p.ahead, ← heq] at htaken
    simpa using htaken

/-- Tokens to come can be taken. -/
theorem length_le_left (h : p.Shows w) (hlive : ∀ t ∈ w, t.atEnd = false) : w.length ≤ p.left := by
  obtain ⟨ds, r, hds, rest, heq⟩ := h
  have hrest := hds.rest_length_le
  have hsum := congrArg (fun ts => (ts.map Reader.cost).sum) heq
  simp only [List.map_append, List.sum_append, Took.sum_cost_of_live hlive] at hsum
  simp only [left]
  omega

end Shows

/-- The budget a parser starts with is enough for all that is left. -/
theorem left_add_one_lt_budget (p : Parser) : p.left + 1 < p.budget := by
  have hsum : (p.ahead.map Reader.cost).sum ≤ p.ahead.length := by
    induction p.ahead with
    | nil => simp
    | cons t ts ih =>
        have ht : Reader.cost t ≤ 1 := by
          unfold Reader.cost
          split <;> omega
        simp only [List.map_cons, List.sum_cons, List.length_cons]
        omega
  simp only [left, budget]
  omega

end Parser

namespace Rule

variable {α β : Type} {p p' : Parser} {r : Reader} {s t : Token} {ts : List Token} {e : SyntaxError}

/-! ## One look, one token -/

theorem bind_ok {x : Rule α} {a : α} (h : x p = .ok a p') (f : α → Rule β) :
    (x >>= f) p = f a p' := by
  show EStateM.bind x f p = f a p'
  simp only [EStateM.bind, h]

theorem bind_error {x : Rule α} {failure : Failure} (h : x p = .error failure p')
    (f : α → Rule β) : (x >>= f) p = .error failure p' := by
  show EStateM.bind x f p = .error failure p'
  simp only [EStateM.bind, h]

theorem exists_of_bind_ok {x : Rule α} {f : α → Rule β} {b : β} (h : (x >>= f) p = .ok b p') :
    ∃ a q, x p = .ok a q ∧ f a q = .ok b p' := by
  cases hx : x p with
  | ok a q => exact ⟨a, q, rfl, (bind_ok hx f).symm.trans h⟩
  | error failure q => simp [bind_error hx f] at h

theorem draw_ok (h : p.reader.next = (.ok t, r)) :
    ∃ p', draw p = .ok t p' ∧ p'.ahead = p.ahead ++ [t] ∧ p'.reader = r := by
  simp [draw, h]

theorem draw_error (h : p.reader.next = (.error e, r)) :
    ∃ p', draw p = .error (.refused e) p' := by
  simp [draw, h]

/-- All that drawing a token does, but for what it notes. -/
theorem draw_eq_ok (h : draw p = .ok t p') :
    p.reader.next = (.ok t, p'.reader) ∧ p'.ahead = p.ahead ++ [t] ∧ p'.strict = p.strict ∧
      p'.started = p.started ∧ p'.tree = p.tree ∧ p'.sawEnd = (p.sawEnd || t.atEnd) ∧
      p'.tokensRead = if p.sawEnd then p.tokensRead else p.tokensRead + 1 := by
  rcases hnext : p.reader.next with ⟨_ | s, r⟩
  · simp [draw, hnext] at h
  · simp only [draw, hnext] at h
    cases h
    exact ⟨rfl, rfl, rfl, rfl, rfl, rfl, rfl⟩

/-- Drawing fails only where the reader does. -/
theorem draw_eq_error {failure : Failure} (h : draw p = .error failure p') :
    ∃ e, failure = .refused e ∧ p.reader.next = (.error e, p'.reader) := by
  rcases hnext : p.reader.next with ⟨e | s, r⟩
  · simp only [draw, hnext] at h
    cases h
    exact ⟨e, rfl, rfl⟩
  · simp [draw, hnext] at h

theorem took_of_note (p : Parser) (e : Event) : p.Took [] { p with journal := e :: p.journal } :=
  ⟨⟨[], .nil _, by simp⟩, by simp⟩

theorem took_of_draw (h : p.reader.next = (.ok t, r)) (hahead : p'.ahead = p.ahead ++ [t])
    (hreader : p'.reader = r) : p.Took [] p' :=
  ⟨⟨[t], by rw [hreader]; exact .single h, by simp [hahead]⟩, by simp⟩

theorem get_bind (f : Parser → Rule α) (p : Parser) : (get >>= f) p = f p p := rfl

theorem peek_of_ahead (h : p.ahead = t :: ts) : peek p = .ok t p := by
  rw [peek, get_bind, h]
  rfl

theorem peek_of_nil (h : p.ahead = []) : peek p = draw p := by
  rw [peek, get_bind, h]

theorem took_of_draw_ok (h : draw p = .ok t p') : p.Took [] p' ∧ p'.ahead = p.ahead ++ [t] := by
  obtain ⟨hnext, hahead, -⟩ := draw_eq_ok h
  exact ⟨took_of_draw hnext hahead rfl, hahead⟩

/-- What was looked at is in front. -/
theorem ahead_of_peek (h : peek p = .ok t p') : ∃ a, p'.ahead = t :: a := by
  cases hahead : p.ahead with
  | cons s a =>
      rw [peek_of_ahead hahead] at h
      cases h
      exact ⟨a, hahead⟩
  | nil =>
      rw [peek_of_nil hahead] at h
      obtain ⟨-, hlast⟩ := took_of_draw_ok h
      exact ⟨[], by rw [hlast, hahead, List.nil_append]⟩

/-- What was tested is in front. -/
theorem ahead_of_test {test : Token → Bool} {b : Bool}
    (h : (peek >>= fun t => pure (test t)) p = .ok b p') : ∃ t a, p'.ahead = t :: a ∧ test t = b := by
  obtain ⟨t, q, hpeek, hpure⟩ := exists_of_bind_ok h
  cases hpure
  obtain ⟨a, hahead⟩ := ahead_of_peek hpeek
  exact ⟨t, a, hahead, rfl⟩

theorem peekSecond_of_ahead (h : p.ahead = s :: t :: ts) : peekSecond p = .ok t p := by
  rw [peekSecond, bind_ok (peek_of_ahead h), get_bind, h]
  rfl

theorem peekSecond_of_single (h : p.ahead = [s]) : peekSecond p = draw p := by
  rw [peekSecond, bind_ok (peek_of_ahead h), get_bind, h]

theorem take_of_ahead (h : p.ahead = t :: ts) : take p = .ok t { p with ahead := ts } := by
  refine (bind_ok (peek_of_ahead h) _).trans ?_
  show EStateM.Result.ok t { p with ahead := p.ahead.tail } = _
  rw [h]
  rfl

theorem took_of_take (h : p.ahead = t :: ts) (hlive : t.atEnd = false) :
    p.Took [t] { p with ahead := ts } :=
  ⟨⟨[], .nil _, by simp [h]⟩, by simpa using hlive⟩

end Rule

end MiniC
