/-
  The conversion to postfix order, seen from its surroundings. What is written is never read
  again, so a conversion that has written something goes on as if it had not (`complete_after`).
  An open parenthesis hides all that waits below it, so the tokens of a group are converted as if
  they stood alone (`foldlM_step_inside`), and a group as a whole writes the postfix order of its
  inside and leaves what waits as it was (`foldlM_step_group`).
-/
import Calculator.Postfix.OfInfix
import Calculator.Proofs.Expression

namespace Calculator.Postfix.Conversion

/-- Takes the tokens from a given state on, and then writes out what waits. -/
def complete (state : Conversion) (ts : List Token) : Except CalculationError (List Token) := do
  let last ← ts.foldlM step state
  finish last.written last.pending

theorem ofInfix_eq_complete (ts : List Token) : ofInfix ts = start.complete ts := rfl

theorem complete_append (state : Conversion) (ts us : List Token) :
    state.complete (ts ++ us) = ts.foldlM step state >>= fun next => next.complete us := by
  simp [complete]

/-! ## One token -/

/-- The state after some more tokens have been written. -/
def write (ps : List Token) (state : Conversion) : Conversion :=
  { state with written := ps.reverse ++ state.written }

@[simp] theorem write_write (ps qs : List Token) (state : Conversion) :
    (state.write ps).write qs = state.write (ps ++ qs) := by
  simp [write]

@[simp] theorem step_number (l : Literal) (state : Conversion) :
    step state (.number l.text) = .ok (state.write [.number l.text]) := by
  simp [step, write]

@[simp] theorem step_unknown {t : Token} (h : t.isKnown = false) (state : Conversion) :
    step state t = .ok state := by
  cases t with
  | number literal =>
    have hread : Decimal.readLiteral? literal = none := by simpa using h
    simp [step, hread]
  | operator symbol =>
    have hfind : Operator.find? symbol = none := by simpa using h
    simp [step, hfind]
  | leftParen => simp at h
  | rightParen => simp at h

/-! ## What has been written before -/

/-- The same conversion after something has been written; `earlier` has its last token first. -/
def after (earlier : List Token) (state : Conversion) : Conversion :=
  { state with written := state.written ++ earlier }

@[simp] theorem written_after (earlier : List Token) (state : Conversion) :
    (state.after earlier).written = state.written ++ earlier := rfl

@[simp] theorem pending_after (earlier : List Token) (state : Conversion) :
    (state.after earlier).pending = state.pending := rfl

theorem flush_after (op : Operator) (written earlier : List Token) (pending : List Pending) :
    flush op (written ++ earlier) pending = (flush op written pending).after earlier := by
  induction pending generalizing written with
  | nil => rfl
  | cons top rest ih =>
    cases top with
    | paren => rfl
    | operator top =>
      by_cases hy : op.yieldsTo top = true
      · simpa [flush, hy] using ih (.operator top.symbol :: written)
      · simp [flush, hy, after]

theorem close_after (written earlier : List Token) (pending : List Pending) :
    close (written ++ earlier) pending = (close written pending).map (after earlier) := by
  induction pending generalizing written with
  | nil => rfl
  | cons top rest ih =>
    cases top with
    | paren => rfl
    | operator top => exact ih (.operator top.symbol :: written)

theorem finish_append (written earlier : List Token) (pending : List Pending) :
    finish (written ++ earlier) pending =
      (finish written pending).map (earlier.reverse ++ ·) := by
  induction pending generalizing written with
  | nil => simp [finish]
  | cons top rest ih =>
    cases top with
    | paren => rfl
    | operator top => exact ih (.operator top.symbol :: written)

theorem step_after (earlier : List Token) (state : Conversion) (t : Token) :
    step (state.after earlier) t = (step state t).map (after earlier) := by
  cases t with
  | number literal =>
    cases hread : Decimal.readLiteral? literal <;> simp [step, hread, after]
  | operator symbol =>
    cases hfind : Operator.find? symbol with
    | none => simp [step, hfind]
    | some op =>
      simp only [step, hfind, written_after, pending_after, flush_after]
      rfl
  | leftParen => rfl
  | rightParen => exact close_after _ _ _

theorem foldlM_step_after (earlier : List Token) (state : Conversion) (ts : List Token) :
    ts.foldlM step (state.after earlier) = (ts.foldlM step state).map (after earlier) := by
  induction ts generalizing state with
  | nil => rfl
  | cons t ts ih =>
    rw [List.foldlM_cons, List.foldlM_cons, step_after]
    cases step state t with
    | error e => rfl
    | ok next => simp [ih]

theorem complete_after (earlier : List Token) (state : Conversion) (ts : List Token) :
    (state.after earlier).complete ts = (state.complete ts).map (earlier.reverse ++ ·) := by
  rw [complete, complete, foldlM_step_after]
  cases ts.foldlM step state with
  | error e => rfl
  | ok last => exact finish_append last.written earlier last.pending

/-! ## What waits below an open parenthesis -/

/-- A conversion under way inside a parenthesis that was opened in the state `outer`. -/
def inside (outer state : Conversion) : Conversion :=
  ⟨state.written ++ outer.written, state.pending ++ .paren :: outer.pending⟩

@[simp] theorem written_inside (outer state : Conversion) :
    (outer.inside state).written = state.written ++ outer.written := rfl

@[simp] theorem pending_inside (outer state : Conversion) :
    (outer.inside state).pending = state.pending ++ .paren :: outer.pending := rfl

theorem flush_inside (outer : Conversion) (op : Operator) (written : List Token)
    (pending : List Pending) :
    flush op (written ++ outer.written) (pending ++ .paren :: outer.pending) =
      outer.inside (flush op written pending) := by
  induction pending generalizing written with
  | nil => rfl
  | cons top rest ih =>
    cases top with
    | paren => rfl
    | operator top =>
      by_cases hy : op.yieldsTo top = true
      · simpa [flush, hy] using ih (.operator top.symbol :: written)
      · simp [flush, hy, inside]

theorem close_inside (outer : Conversion) {written : List Token} {pending : List Pending}
    {next : Conversion} (h : close written pending = .ok next) :
    close (written ++ outer.written) (pending ++ .paren :: outer.pending) =
      .ok (outer.inside next) := by
  induction pending generalizing written with
  | nil => simp [close] at h
  | cons top rest ih =>
    cases top with
    | paren =>
      obtain rfl : _ = next := Except.ok.inj h
      rfl
    | operator top => exact ih h

theorem step_inside (outer : Conversion) {state next : Conversion} {t : Token}
    (h : step state t = .ok next) : step (outer.inside state) t = .ok (outer.inside next) := by
  cases t with
  | number literal =>
    cases hread : Decimal.readLiteral? literal with
    | none =>
      obtain rfl : state = next := by simpa [step, hread] using h
      simp [step, hread]
    | some x =>
      obtain rfl : _ = next := by simpa [step, hread] using h
      simp [step, hread, inside]
  | operator symbol =>
    cases hfind : Operator.find? symbol with
    | none =>
      obtain rfl : state = next := by simpa [step, hfind] using h
      simp [step, hfind]
    | some op =>
      simp only [step, hfind] at h ⊢
      obtain rfl : _ = next := Except.ok.inj h
      rw [written_inside, pending_inside, flush_inside]
      rfl
  | leftParen =>
    obtain rfl : _ = next := Except.ok.inj h
    rfl
  | rightParen => exact close_inside outer h

theorem foldlM_step_inside (outer : Conversion) {state last : Conversion} {ts : List Token}
    (h : ts.foldlM step state = .ok last) :
    ts.foldlM step (outer.inside state) = .ok (outer.inside last) := by
  induction ts generalizing state with
  | nil =>
    obtain rfl : state = last := Except.ok.inj h
    rfl
  | cons t ts ih =>
    obtain ⟨next, ht, hts⟩ := foldlM_cons_eq_ok_iff.1 h
    simp [step_inside outer ht, ih hts]

/-- The closing parenthesis writes out what the end of the text would have written out. -/
theorem close_of_finish (outer : Conversion) {written ps : List Token} {pending : List Pending}
    (h : finish written pending = .ok ps) :
    close (written ++ outer.written) (pending ++ .paren :: outer.pending) =
      .ok (outer.write ps) := by
  induction pending generalizing written with
  | nil =>
    obtain rfl : written.reverse = ps := Except.ok.inj h
    simp [close, write]
  | cons top rest ih =>
    cases top with
    | paren => simp [finish] at h
    | operator top => exact ih h

theorem foldlM_step_group {ts ps : List Token} (h : ofInfix ts = .ok ps) (state : Conversion) :
    (Token.leftParen :: ts ++ [Token.rightParen]).foldlM step state = .ok (state.write ps) := by
  obtain ⟨last, hts, hlast⟩ := bind_eq_ok_iff.1 h
  have hopen : step state .leftParen = .ok (state.inside start) := rfl
  have hclose : step (state.inside last) .rightParen = .ok (state.write ps) :=
    close_of_finish state hlast
  simp [hopen, foldlM_step_inside state hts, hclose]

/-- What is still to come does not depend on what has been written. -/
theorem complete_write (ps : List Token) (state : Conversion) (ts : List Token) :
    (state.write ps).complete ts =
      ((⟨[], state.pending⟩ : Conversion).complete ts).map (state.written.reverse ++ ps ++ ·) := by
  have h := complete_after (ps.reverse ++ state.written) ⟨[], state.pending⟩ ts
  simpa [after, write] using h

end Calculator.Postfix.Conversion
