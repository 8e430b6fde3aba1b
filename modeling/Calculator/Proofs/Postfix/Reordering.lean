/-
  What the conversion to postfix order makes of any tokens. `Reorders c ts ps` is the grammar of
  expressions with its factors loosened to rows: a row is any number of operands side by side,
  none included, and tokens without meaning are passed over. `ps` is the postfix order, in which
  the operands of a row simply follow one another.

  Main statement: the conversion succeeds with `ps` exactly when `Reorders .sum ts ps`
  (`ofInfix_eq_ok_iff`). One half is an induction over the reading: a phrase of category `c` leaves
  its postfix order written, but for some waiting operators that bind at least as tightly as `c`
  (`Holds`). The other half reads balanced tokens one by one (`exists_reorders`).
-/
import Calculator.Proofs.Postfix.Balance
import Calculator.Proofs.Postfix.Reduction

namespace Calculator.Postfix

/-- The tokens `ts`, read as category `c`, have the postfix order `ps`. -/
inductive Reorders : Category → List Token → List Token → Prop where
  | empty : Reorders .factor [] []
  | unknown {ts ps t} (row : Reorders .factor ts ps) (h : t.isKnown = false) :
      Reorders .factor (ts ++ [t]) ps
  | literal {ts ps} (row : Reorders .factor ts ps) (l : Literal) :
      Reorders .factor (ts ++ [.number l.text]) (ps ++ [.number l.text])
  | group {ts ps us qs} (row : Reorders .factor ts ps) (inner : Reorders .sum us qs) :
      Reorders .factor (ts ++ (.leftParen :: us ++ [.rightParen])) (ps ++ qs)
  | operand {c ts ps} (only : Reorders c.operand ts ps) : Reorders c ts ps
  | binary {c ts ps us qs} (op : Operator) (known : op ∈ Operator.table)
      (joins : op.symbol ∈ c.symbols) (left : Reorders c ts ps)
      (right : Reorders c.operand us qs) :
      Reorders c (ts ++ .operator op.symbol :: us) (ps ++ qs ++ [.operator op.symbol])

/-- An expression is read without any loosening. -/
theorem reorders_of_derives {c : Category} {ts : List Token} {e : Expression}
    (h : Derives c ts e) : Reorders c ts e.postorder := by
  induction h with
  | literal l => exact .literal .empty l
  | group inner ih => exact .group .empty ih
  | operand only ih => exact .operand ih
  | binary op known joins left right ihl ihr => exact .binary op known joins ihl ihr

/-! ## From the reading to the conversion -/

namespace Conversion

/-- What waits yields nothing to an operator that joins the operands of `c`. -/
def IsBelow (c : Category) : List Pending → Prop
  | .operator top :: _ => top.precedence < c.precedence
  | _ => True

/-- From `state` to `next`, the tokens `ps` have been written, but for the last of them, which are
operators that still wait and bind at least as tightly as those of `c`. -/
def Holds (c : Category) (ps : List Token) (state next : Conversion) : Prop :=
  ∃ ops : List Operator, next.pending = ops.map .operator ++ state.pending ∧
    (ops.map fun op => .operator op.symbol).reverse ++ next.written =
      ps.reverse ++ state.written ∧
    ∀ op ∈ ops, op ∈ Operator.table ∧ c.precedence ≤ op.precedence

theorem IsBelow.operand {c : Category} {pending : List Pending} (h : IsBelow c pending) :
    IsBelow c.operand pending := by
  match pending, h with
  | [], _ => trivial
  | .paren :: _, _ => trivial
  | .operator top :: _, h => exact Nat.lt_of_lt_of_le h c.precedence_le_operand

theorem Holds.of_operand {c : Category} {ps : List Token} {state next : Conversion}
    (h : Holds c.operand ps state next) : Holds c ps state next := by
  obtain ⟨ops, hpending, hwritten, hops⟩ := h
  refine ⟨ops, hpending, hwritten, ?_⟩
  intro op hop
  exact ⟨(hops op hop).1, Nat.le_trans c.precedence_le_operand (hops op hop).2⟩

/-- No operator binds as tightly as a factor, so a row is written out completely. -/
theorem Holds.eq_write {ps : List Token} {state next : Conversion}
    (h : Holds .factor ps state next) : next = state.write ps := by
  obtain ⟨ops, hpending, hwritten, hops⟩ := h
  have hnil : ops = [] := by
    refine List.eq_nil_iff_forall_not_mem.2 ?_
    intro op hop
    obtain ⟨known, hle⟩ := hops op hop
    rcases Operator.mem_symbols known with joins | joins
    · exact absurd hle (by rw [Operator.precedence_eq known joins]; decide)
    · exact absurd hle (by rw [Operator.precedence_eq known joins]; decide)
  subst hnil
  cases next
  simp_all [write]

theorem holds_write (c : Category) (ps : List Token) (state : Conversion) :
    Holds c ps state (state.write ps) :=
  ⟨[], rfl, rfl, by simp⟩

theorem flush_of_isBelow {c : Category} {op : Operator} (known : op ∈ Operator.table)
    (joins : op.symbol ∈ c.symbols) {ops : List Operator} {pending : List Pending}
    (hops : ∀ o ∈ ops, c.precedence ≤ o.precedence) (hbelow : IsBelow c pending)
    (written : List Token) :
    flush op written (ops.map .operator ++ pending) =
      ⟨(ops.map fun o => .operator o.symbol).reverse ++ written, pending⟩ := by
  have hprec := Operator.precedence_eq known joins
  induction ops generalizing written with
  | nil =>
    match pending, hbelow with
    | [], _ => rfl
    | .paren :: _, _ => rfl
    | .operator top :: _, hbelow =>
      have hy : ¬ op.yieldsTo top = true := by
        rw [Operator.yieldsTo_eq known, decide_eq_true_eq, hprec]
        exact Nat.not_le.2 hbelow
      simp [flush, hy]
  | cons o ops ih =>
    have hy : op.yieldsTo o = true := by
      rw [Operator.yieldsTo_eq known, decide_eq_true_eq, hprec]
      exact hops o List.mem_cons_self
    simp [flush, hy, ih fun p hp => hops p (List.mem_cons_of_mem _ hp)]

theorem finish_operators (ops : List Operator) (written : List Token) :
    finish written (ops.map .operator) =
      .ok ((ops.map fun op => Token.operator op.symbol).reverse ++ written).reverse := by
  induction ops generalizing written with
  | nil => simp [finish]
  | cons op ops ih => simp [finish, ih]

theorem finish_of_holds {ps : List Token} {next : Conversion} (h : Holds .sum ps start next) :
    finish next.written next.pending = .ok ps := by
  obtain ⟨ops, hpending, hwritten, -⟩ := h
  rw [hpending, show start.pending = [] from rfl, List.append_nil, finish_operators, hwritten]
  simp [start]

/-- The operator that joins two operands writes out what waits of the left one, and then waits
itself. -/
theorem Holds.step_operator {c : Category} {op : Operator} (known : op ∈ Operator.table)
    (joins : op.symbol ∈ c.symbols) {ps : List Token} {state next : Conversion}
    (hleft : Holds c ps state next) (hbelow : IsBelow c state.pending) :
    step next (.operator op.symbol) =
      .ok ⟨ps.reverse ++ state.written, .operator op :: state.pending⟩ := by
  obtain ⟨ops, hpending, hwritten, hops⟩ := hleft
  have hflush := flush_of_isBelow known joins (fun o ho => (hops o ho).2) hbelow next.written
  simp only [step, Operator.find?_symbol known]
  rw [hpending, hflush, hwritten]

theorem Holds.binary {c : Category} {op : Operator} (known : op ∈ Operator.table)
    (joins : op.symbol ∈ c.symbols) {ps qs : List Token} {state last : Conversion}
    (hright : Holds c.operand qs
      ⟨ps.reverse ++ state.written, .operator op :: state.pending⟩ last) :
    Holds c (ps ++ qs ++ [.operator op.symbol]) state last := by
  obtain ⟨ops, hpending, hwritten, hops⟩ := hright
  refine ⟨ops ++ [op], ?_, ?_, ?_⟩
  · rw [hpending, List.map_append, List.append_assoc]
    rfl
  · simp [hwritten]
  · intro o ho
    rcases List.mem_append.1 ho with ho | ho
    · exact ⟨(hops o ho).1, Nat.le_trans c.precedence_le_operand (hops o ho).2⟩
    · obtain rfl := List.mem_singleton.1 ho
      exact ⟨known, Nat.le_of_eq (Operator.precedence_eq known joins).symm⟩

/-- The invariant of the conversion, by induction on the reading. -/
theorem exists_holds {c : Category} {ts ps : List Token} (h : Reorders c ts ps)
    (state : Conversion) (hbelow : IsBelow c state.pending) :
    ∃ next, ts.foldlM step state = .ok next ∧ Holds c ps state next := by
  induction h generalizing state with
  | empty => exact ⟨state, rfl, holds_write .factor [] state⟩
  | unknown row hun ih =>
    obtain ⟨next, hrow, hnext⟩ := ih state hbelow
    exact ⟨next, by simp [hrow, hun], hnext⟩
  | literal row l ih =>
    obtain ⟨next, hrow, hnext⟩ := ih state hbelow
    obtain rfl := hnext.eq_write
    exact ⟨state.write (_ ++ [.number l.text]), by simp [hrow], holds_write _ _ _⟩
  | group row inner ihrow ihinner =>
    obtain ⟨next, hrow, hnext⟩ := ihrow state hbelow
    obtain rfl := hnext.eq_write
    obtain ⟨last, hinner, hlast⟩ := ihinner start trivial
    have hinside : ofInfix _ = .ok _ :=
      bind_eq_ok_iff.2 ⟨last, hinner, finish_of_holds hlast⟩
    refine ⟨_, ?_, holds_write _ _ _⟩
    rw [List.foldlM_append, hrow, ok_bind, foldlM_step_group hinside, write_write]
  | operand only ih =>
    obtain ⟨next, hts, hnext⟩ := ih state hbelow.operand
    exact ⟨next, hts, hnext.of_operand⟩
  | binary op known joins left right ihl ihr =>
    obtain ⟨next, hts, hnext⟩ := ihl state hbelow
    obtain ⟨last, hus, hlast⟩ := ihr ⟨_, .operator op :: state.pending⟩
      (Operator.precedence_lt known joins)
    refine ⟨last, ?_, Holds.binary known joins hlast⟩
    simp [hts, hnext.step_operator known joins hbelow, hus]

end Conversion

theorem ofInfix_of_reorders {ts ps : List Token} (h : Reorders .sum ts ps) :
    ofInfix ts = .ok ps := by
  obtain ⟨last, hts, hlast⟩ := Conversion.exists_holds h Conversion.start trivial
  exact bind_eq_ok_iff.2 ⟨last, hts, Conversion.finish_of_holds hlast⟩

/-! ## A reading for all balanced tokens -/

theorem reorders_append_row {xs : List Token}
    (hxs : ∀ us qs, Reorders .factor us qs → ∃ rs, Reorders .factor (us ++ xs) rs)
    {c : Category} {ts ps : List Token} (h : Reorders c ts ps) :
    ∃ rs, Reorders c (ts ++ xs) rs := by
  induction h with
  | empty => exact hxs _ _ .empty
  | unknown row hun => exact hxs _ _ (.unknown row hun)
  | literal row l => exact hxs _ _ (.literal row l)
  | group row inner => exact hxs _ _ (.group row inner)
  | operand only ih =>
    obtain ⟨rs, hrs⟩ := ih
    exact ⟨rs, .operand hrs⟩
  | binary op known joins left right ihl ihr =>
    obtain ⟨rs, hrs⟩ := ihr
    have h := Reorders.binary op known joins left hrs
    rw [← List.cons_append, ← List.append_assoc] at h
    exact ⟨_, h⟩

/-- An operator may follow any tokens: its right operand is an empty row for now. -/
theorem reorders_append_operator {op : Operator} (known : op ∈ Operator.table)
    {ts ps : List Token} (h : Reorders .sum ts ps) :
    ∃ rs, Reorders .sum (ts ++ [.operator op.symbol]) rs := by
  rcases Operator.mem_symbols known with joins | joins
  · exact ⟨_, .binary op known joins h (.operand .empty)⟩
  · cases h with
    | operand only => exact ⟨_, .operand (.binary op known joins only .empty)⟩
    | binary op' known' joins' left right =>
      have h := Reorders.binary op' known' joins' left (.binary op known joins right .empty)
      rw [← List.cons_append, ← List.append_assoc] at h
      exact ⟨_, h⟩

theorem reorders_append_token {t : Token} (ht : t.paren? = none) {ts ps : List Token}
    (h : Reorders .sum ts ps) : ∃ rs, Reorders .sum (ts ++ [t]) rs := by
  by_cases hun : t.isKnown = true
  · cases t with
    | number literal =>
      obtain ⟨x, hread⟩ := Option.isSome_iff_exists.1 hun
      exact reorders_append_row (fun us qs row => ⟨_, row.literal ⟨literal, x, hread⟩⟩) h
    | operator symbol =>
      obtain ⟨op, hfind⟩ := Option.isSome_iff_exists.1 hun
      obtain ⟨known, rfl⟩ := Operator.find?_eq_some_iff.1 hfind
      exact reorders_append_operator known h
    | leftParen => cases ht
    | rightParen => cases ht
  · exact reorders_append_row (fun us qs row => ⟨qs, row.unknown (by simpa using hun)⟩) h

/-- The tokens have a reading but for `n` parentheses that are still open. -/
def IsOpen : Nat → List Token → Prop
  | 0, ts => ∃ ps, Reorders .sum ts ps
  | n + 1, ts => ∃ us vs, ts = us ++ .leftParen :: vs ∧ IsOpen n us ∧ ∃ ps, Reorders .sum vs ps

theorem isOpen_append {xs : List Token}
    (hxs : ∀ us qs, Reorders .sum us qs → ∃ rs, Reorders .sum (us ++ xs) rs) {n : Nat}
    {ts : List Token} (h : IsOpen n ts) : IsOpen n (ts ++ xs) := by
  cases n with
  | zero =>
    obtain ⟨ps, hps⟩ := h
    exact hxs ts ps hps
  | succ n =>
    obtain ⟨us, vs, rfl, hopen, ps, hps⟩ := h
    exact ⟨us, vs ++ xs, by simp, hopen, hxs vs ps hps⟩

/-- A closing parenthesis makes the innermost open part a group, which is one more operand of what
stood before it. -/
theorem isOpen_close {n : Nat} {ts : List Token} (h : IsOpen (n + 1) ts) :
    IsOpen n (ts ++ [.rightParen]) := by
  obtain ⟨us, vs, rfl, hopen, ps, hps⟩ := h
  have hgroup : ∀ ws qs, Reorders .sum ws qs →
      ∃ rs, Reorders .sum (ws ++ (.leftParen :: vs ++ [.rightParen])) rs := fun ws qs =>
    reorders_append_row fun _ _ row => ⟨_, row.group hps⟩
  have := isOpen_append hgroup hopen
  simpa using this

theorem isOpen_step {n m : Nat} {ts : List Token} {t : Token} (h : IsOpen n ts)
    (hclimb : t.paren?.toList.foldlM climb n = .ok m) : IsOpen m (ts ++ [t]) := by
  cases hp : t.paren? with
  | none =>
    rw [hp] at hclimb
    obtain rfl : n = m := Except.ok.inj hclimb
    exact isOpen_append (fun us qs => reorders_append_token hp) h
  | some s =>
    rw [hp] at hclimb
    cases t with
    | number literal => cases hp
    | operator symbol => cases hp
    | leftParen =>
      obtain rfl : DyckStep.U = s := Option.some.inj hp
      obtain rfl : n + 1 = m := Except.ok.inj hclimb
      exact ⟨ts, [], rfl, h, [], .operand (.operand .empty)⟩
    | rightParen =>
      obtain rfl : DyckStep.D = s := Option.some.inj hp
      cases n with
      | zero => cases hclimb
      | succ n =>
        obtain rfl : n = m := Except.ok.inj hclimb
        exact isOpen_close h

theorem isOpen_of_climb {us : List Token} {n m : Nat} {ts : List Token} (h : IsOpen n ts)
    (hclimb : (us.filterMap Token.paren?).foldlM climb n = .ok m) : IsOpen m (ts ++ us) := by
  induction us generalizing n ts with
  | nil =>
    obtain rfl : n = m := Except.ok.inj hclimb
    rwa [List.append_nil]
  | cons t us ih =>
    rw [filterMap_cons_eq, List.foldlM_append] at hclimb
    obtain ⟨k, ht, hus⟩ := bind_eq_ok_iff.1 hclimb
    have := ih (isOpen_step h ht) hus
    simpa using this

theorem exists_reorders {ts : List Token} (h : IsBalanced (ts.filterMap Token.paren?)) :
    ∃ ps, Reorders .sum ts ps := by
  have hempty : IsOpen 0 [] := ⟨[], .operand (.operand .empty)⟩
  exact isOpen_of_climb hempty (isBalanced_iff.1 h)

theorem ofInfix_eq_ok_iff {ts ps : List Token} : ofInfix ts = .ok ps ↔ Reorders .sum ts ps := by
  constructor
  · intro h
    obtain ⟨qs, hqs⟩ := exists_reorders (exists_ofInfix_eq_ok_iff.1 ⟨ps, h⟩)
    obtain rfl : ps = qs := Except.ok.inj (h.symm.trans (ofInfix_of_reorders hqs))
    exact hqs
  · exact ofInfix_of_reorders

/-! ## What a reading keeps -/

theorem mem_of_reorders {c : Category} {ts ps : List Token} (h : Reorders c ts ps) {t : Token}
    (ht : t ∈ ps) : t ∈ ts := by
  induction h with
  | empty => exact ht
  | unknown row hun ih => exact List.mem_append_left _ (ih ht)
  | literal row l ih =>
    rcases List.mem_append.1 ht with ht | ht
    · exact List.mem_append_left _ (ih ht)
    · exact List.mem_append_right _ ht
  | group row inner ihrow ihinner =>
    rcases List.mem_append.1 ht with ht | ht
    · exact List.mem_append_left _ (ihrow ht)
    · simp [ihinner ht]
  | operand only ih => exact ih ht
  | binary op known joins left right ihl ihr =>
    simp only [List.mem_append, List.mem_singleton] at ht
    rcases ht with (ht | ht) | rfl
    · exact List.mem_append_left _ (ihl ht)
    · simp [ihr ht]
    · simp

/-- Only numbers and operators are written, and only those that mean something. -/
theorem known_of_reorders {c : Category} {ts ps : List Token} (h : Reorders c ts ps) :
    ∀ t ∈ ps, t.isKnown = true ∧ t.paren? = none := by
  induction h with
  | empty => simp
  | unknown row hun ih => exact ih
  | literal row l ih =>
    simp only [List.forall_mem_append, List.forall_mem_singleton]
    exact ⟨ih, by simp, rfl⟩
  | group row inner ihrow ihinner => exact List.forall_mem_append.2 ⟨ihrow, ihinner⟩
  | operand only ih => exact ih
  | binary op known joins left right ihl ihr =>
    simp only [List.forall_mem_append, List.forall_mem_singleton]
    exact ⟨⟨ihl, ihr⟩, by simp [known], rfl⟩

/-- The numbers keep their order. -/
theorem filter_isNumber_of_reorders {c : Category} {ts ps : List Token} (h : Reorders c ts ps) :
    ps.filter Token.isNumber = ts.filter fun t => t.isKnown && t.isNumber := by
  induction h with
  | empty => rfl
  | unknown row hun ih => simp [ih, hun]
  | literal row l ih => simp [ih]
  | group row inner ihrow ihinner => simp [ihrow, ihinner]
  | operand only ih => exact ih
  | binary op known joins left right ihl ihr => simp [ihl, ihr]

theorem perm_isOperator_of_reorders {c : Category} {ts ps : List Token} (h : Reorders c ts ps) :
    (ps.filter Token.isOperator).Perm (ts.filter fun t => t.isKnown && t.isOperator) := by
  induction h with
  | empty => exact .nil
  | unknown row hun ih => simpa [hun] using ih
  | literal row l ih => simpa using ih
  | group row inner ihrow ihinner => simpa using ihrow.append ihinner
  | operand only ih => exact ih
  | binary op known joins left right ihl ihr =>
    have hmove := ((ihl.append ihr).append_right [Token.operator op.symbol]).trans
      ((List.perm_append_singleton _ _).trans List.perm_middle.symm)
    simpa [known] using hmove

/-- The conversion loses nothing that means something, and adds nothing: the parentheses go, the
numbers stay in their order, and the operators change places only. -/
theorem ofInfix_conserves {ts ps : List Token} (h : ofInfix ts = .ok ps) :
    .leftParen ∉ ps ∧ .rightParen ∉ ps ∧
      ps.filter Token.isNumber = (ts.filter fun t => t.isKnown && t.isNumber) ∧
      (ps.filter Token.isOperator).Perm (ts.filter fun t => t.isKnown && t.isOperator) := by
  have hreads : Reorders .sum ts ps := ofInfix_eq_ok_iff.1 h
  have hplain : ∀ t ∈ ps, t.paren? = none := fun t ht => (known_of_reorders hreads t ht).2
  refine ⟨?_, ?_, filter_isNumber_of_reorders hreads, perm_isOperator_of_reorders hreads⟩
  · intro hleft
    cases hplain .leftParen hleft
  · intro hright
    cases hplain .rightParen hright

/-- In `2+(3*1.2.3 4$)` a literal and a symbol mean nothing. -/
theorem ofInfix_conserves_product :
    ofInfix [.number ['2'], .operator '+', .leftParen, .number ['3'], .operator '*',
        .number ['1', '.', '2', '.', '3'], .number ['4'], .operator '$', .rightParen] =
      .ok [.number ['2'], .number ['3'], .number ['4'], .operator '*', .operator '+'] ∧
    [Token.operator '*', .operator '+'].Perm [Token.operator '+', .operator '*'] := by
  have hps : ofInfix [.number ['2'], .operator '+', .leftParen, .number ['3'], .operator '*',
        .number ['1', '.', '2', '.', '3'], .number ['4'], .operator '$', .rightParen] =
      .ok [.number ['2'], .number ['3'], .number ['4'], .operator '*', .operator '+'] := by
    decide +kernel
  have hoperators : [Token.number ['2'], .operator '+', .leftParen, .number ['3'], .operator '*',
      .number ['1', '.', '2', '.', '3'], .number ['4'], .operator '$', .rightParen].filter
        (fun t => t.isKnown && t.isOperator) = [.operator '+', .operator '*'] := by
    decide +kernel
  have hperm := (ofInfix_conserves hps).2.2.2
  rw [hoperators] at hperm
  exact ⟨hps, hperm⟩

end Calculator.Postfix
