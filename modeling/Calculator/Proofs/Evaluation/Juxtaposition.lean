/-
  Which texts have a value. The evaluation does not ask where an operand is expected: a text has a
  value as soon as the postfix order of its tokens is that of some expression
  (`evaluate_map_value_eq_ok_iff`). So `1(2)+` is accepted, as `1 2 +` in postfix order, although
  it is no expression.

  Two operands side by side are all that can go wrong (`calculate_eq_ok_iff_derives`): where none
  are, a reading has at most one number more than it has operators, and it is an expression if it
  has one more (`derives_of_countP`).
-/
import Calculator.Proofs.Evaluation.Errors

namespace Calculator

open Postfix

/-! ## Operands side by side -/

namespace Token

/-- The tokens that an operand may start with. -/
def startsOperand : Token → Bool
  | number _ => true
  | leftParen => true
  | _ => false

/-- The tokens that an operand may end with. -/
def endsOperand : Token → Bool
  | number _ => true
  | rightParen => true
  | _ => false

end Token

/-- Not both the end of an operand and the start of the next one. -/
def Separates (t u : Token) : Prop := ¬ (t.endsOperand = true ∧ u.startsOperand = true)

instance : DecidableRel Separates := fun t u =>
  inferInstanceAs (Decidable (¬ (t.endsOperand = true ∧ u.startsOperand = true)))

/-- No operand directly follows another. -/
def Unjuxtaposed (ts : List Token) : Prop := ts.IsChain Separates

instance : DecidablePred Unjuxtaposed := fun ts => inferInstanceAs (Decidable (ts.IsChain Separates))

theorem Unjuxtaposed.cons {t : Token} {ts : List Token} (ht : t.endsOperand = false)
    (hts : Unjuxtaposed ts) : Unjuxtaposed (t :: ts) :=
  List.isChain_cons.2 ⟨fun u _ => by simp [Separates, ht], hts⟩

theorem Unjuxtaposed.append_cons {ts us : List Token} {t : Token} (hts : Unjuxtaposed ts)
    (ht : t.startsOperand = false) (hus : Unjuxtaposed (t :: us)) :
    Unjuxtaposed (ts ++ t :: us) := by
  refine List.IsChain.append hts hus ?_
  intro u _ v hv
  obtain rfl : t = v := by simpa using hv
  simp [Separates, ht]

theorem unjuxtaposed_of_derives {c : Category} {ts : List Token} {e : Expression}
    (h : Derives c ts e) : Unjuxtaposed ts := by
  induction h with
  | literal l => exact .singleton _
  | group inner ih => exact (ih.cons rfl).append_cons rfl (.singleton _)
  | operand only ih => exact ih
  | binary op known joins left right ihl ihr => exact ihl.append_cons rfl (ihr.cons rfl)

/-- What has no meaning in arithmetic is a literal that cannot be read. -/
theorem Token.isNumber_of_isArithmetic {t : Token} (h : t.isArithmetic = true)
    (hun : t.isKnown = false) : t.isNumber = true := by
  cases t with
  | number literal => rfl
  | operator symbol => exact absurd (hun.symm.trans h) (by decide)
  | leftParen => cases hun
  | rightParen => cases hun

theorem Token.startsOperand_of_isNumber {t : Token} (h : t.isNumber = true) :
    t.startsOperand = true ∧ t.endsOperand = true := by
  cases t with
  | number literal => exact ⟨rfl, rfl⟩
  | operator symbol => cases h
  | leftParen => cases h
  | rightParen => cases h

/-- A row is empty, or ends as an operand does. -/
theorem row_cases {c : Category} {ts ps : List Token} (h : Reorders c ts ps) (hc : c = .factor)
    (hts : ∀ t ∈ ts, t.isArithmetic = true) :
    (ts = [] ∧ ps = []) ∨ ∃ us t, ts = us ++ [t] ∧ t.endsOperand = true := by
  induction h with
  | empty => exact .inl ⟨rfl, rfl⟩
  | unknown row hun ih =>
    have hnum := Token.isNumber_of_isArithmetic (hts _ (by simp)) hun
    exact .inr ⟨_, _, rfl, (Token.startsOperand_of_isNumber hnum).2⟩
  | literal row l ih => exact .inr ⟨_, _, rfl, rfl⟩
  | group row inner ihrow ihinner => exact .inr ⟨_, _, (List.append_assoc _ _ _).symm, rfl⟩
  | operand only ih =>
    subst hc
    exact ih rfl hts
  | binary op known joins left right ihl ihr =>
    subst hc
    simp [Category.symbols] at joins

/-- Before an operand that directly follows no other, a row is empty. -/
theorem row_eq_nil {ts ps us : List Token} {t : Token} (row : Reorders .factor ts ps)
    (hts : ∀ t ∈ ts, t.isArithmetic = true) (hadj : Unjuxtaposed (ts ++ t :: us))
    (ht : t.startsOperand = true) : ts = [] ∧ ps = [] := by
  rcases row_cases row rfl hts with hnil | ⟨vs, u, rfl, hu⟩
  · exact hnil
  · have hlast := (List.isChain_append.1 hadj).2.2 u (by simp) t (by simp)
    exact absurd ⟨hu, ht⟩ hlast

/-! ## Numbers and operators -/

/-- A tree has one leaf more than it has operators. -/
theorem countP_isNumber_postorder (e : Expression) :
    e.postorder.countP Token.isNumber = e.postorder.countP Token.isOperator + 1 := by
  induction e with
  | literal l => rfl
  | binary op known left right ihl ihr =>
    simp [ihl, ihr]
    omega

/-- Without operands side by side there is at most one operand more than there are operators, and
a literal that cannot be read is one of them. -/
theorem countP_isNumber_add_le {c : Category} {ts ps : List Token} (h : Reorders c ts ps)
    (hts : ∀ t ∈ ts, t.isArithmetic = true) (hadj : Unjuxtaposed ts) :
    ps.countP Token.isNumber + ts.countP (fun t => !t.isKnown) ≤ ps.countP Token.isOperator + 1 := by
  induction h with
  | empty => simp
  | unknown row hun ih =>
    obtain ⟨hrow, hlast⟩ := List.forall_mem_append.1 hts
    have hnum := Token.isNumber_of_isArithmetic (hlast _ List.mem_cons_self) hun
    obtain ⟨rfl, rfl⟩ := row_eq_nil row hrow hadj (Token.startsOperand_of_isNumber hnum).1
    simp [hun]
  | literal row l ih =>
    obtain ⟨hrow, -⟩ := List.forall_mem_append.1 hts
    obtain ⟨rfl, rfl⟩ := row_eq_nil row hrow hadj rfl
    simp
  | group row inner ihrow ihinner =>
    obtain ⟨hrow, hgroup⟩ := List.forall_mem_append.1 hts
    obtain ⟨rfl, rfl⟩ := row_eq_nil row hrow hadj rfl
    obtain ⟨hinner, -⟩ := List.forall_mem_append.1 (List.forall_mem_cons.1 hgroup).2
    simpa using ihinner hinner hadj.tail.left_of_append
  | operand only ih => exact ih hts hadj
  | binary op known joins left right ihl ihr =>
    obtain ⟨hleft, hright⟩ := List.forall_mem_append.1 hts
    have hl := ihl hleft hadj.left_of_append
    have hr := ihr (List.forall_mem_cons.1 hright).2 hadj.right_of_append.tail
    simp [known]
    omega

theorem derives_of_countP {c : Category} {ts ps : List Token} (h : Reorders c ts ps)
    (hknown : ∀ t ∈ ts, t.isKnown = true) (hadj : Unjuxtaposed ts) :
    ps.countP Token.isNumber ≤ ps.countP Token.isOperator + 1 ∧
      (ps.countP Token.isNumber = ps.countP Token.isOperator + 1 → ∃ e, Derives c ts e) := by
  have harith : ∀ {us : List Token}, (∀ t ∈ us, t.isKnown = true) →
      ∀ t ∈ us, t.isArithmetic = true :=
    fun hus t ht => Token.isArithmetic_of_isKnown (hus t ht)
  refine ⟨Nat.le_of_add_right_le (countP_isNumber_add_le h (harith hknown) hadj), ?_⟩
  induction h with
  | empty => simp
  | unknown row hun ih =>
    have := hknown _ (List.mem_append_right _ List.mem_cons_self)
    simp [hun] at this
  | literal row l ih =>
    obtain ⟨hrow, -⟩ := List.forall_mem_append.1 hknown
    obtain ⟨rfl, rfl⟩ := row_eq_nil row (harith hrow) hadj rfl
    exact fun _ => ⟨_, .literal l⟩
  | group row inner ihrow ihinner =>
    obtain ⟨hrow, hgroup⟩ := List.forall_mem_append.1 hknown
    obtain ⟨rfl, rfl⟩ := row_eq_nil row (harith hrow) hadj rfl
    obtain ⟨hinner, -⟩ := List.forall_mem_append.1 (List.forall_mem_cons.1 hgroup).2
    intro hcount
    obtain ⟨e, he⟩ := ihinner hinner hadj.tail.left_of_append hcount
    exact ⟨e, .group he⟩
  | operand only ih =>
    intro hcount
    obtain ⟨e, he⟩ := ih hknown hadj hcount
    exact ⟨e, .operand he⟩
  | @binary c ts ps us qs op known joins left right ihl ihr =>
    obtain ⟨hleft, hright⟩ := List.forall_mem_append.1 hknown
    have hus := (List.forall_mem_cons.1 hright).2
    have hleftAdj := hadj.left_of_append
    have hrightAdj := hadj.right_of_append.tail
    have hl := countP_isNumber_add_le left (harith hleft) hleftAdj
    have hr := countP_isNumber_add_le right (harith hus) hrightAdj
    have hnumbers : (ps ++ qs ++ [Token.operator op.symbol]).countP Token.isNumber =
        ps.countP Token.isNumber + qs.countP Token.isNumber := by
      simp
    have hoperators : (ps ++ qs ++ [Token.operator op.symbol]).countP Token.isOperator =
        ps.countP Token.isOperator + qs.countP Token.isOperator + 1 := by
      simp [Nat.add_assoc]
    rw [hnumbers, hoperators]
    intro hcount
    -- a number too few on one side cannot be made up for on the other
    obtain ⟨e, he⟩ := ihl hleft hleftAdj (by omega)
    obtain ⟨f, hf⟩ := ihr hus hrightAdj (by omega)
    exact ⟨_, .binary op known joins he hf⟩

/-! ## Texts with a value -/

theorem evaluate_map_value_eq_ok_iff {text : String} {x : Binary64} :
    (evaluate text).map Evaluation.value = .ok x ↔
      ∃ e : Expression, Reorders .sum (tokenize text.toList) e.postorder ∧ e.value = x := by
  rw [evaluate_map_value, bind_eq_ok_iff]
  constructor
  · rintro ⟨ps, hps, hx⟩
    have hread := ofInfix_eq_ok_iff.1 hps
    have hall : ps.filter Token.isKnown = ps :=
      List.filter_eq_self.2 fun t ht => (known_of_reorders hread t ht).1
    obtain ⟨e, he, hvalue⟩ := exists_of_value_eq_ok hx
    rw [hall] at he
    exact ⟨e, he ▸ hread, hvalue⟩
  · rintro ⟨e, hread, rfl⟩
    exact ⟨e.postorder, ofInfix_of_reorders hread, value_postorder e⟩

theorem calculate_map_value_eq_ok_iff {text : String} {x : Binary64} :
    (calculate text).map Evaluation.value = .ok x ↔
      isCalculable text = true ∧ (evaluate text).map Evaluation.value = .ok x ∧
        x.isFinite = true := by
  simp only [map_eq_ok_iff, calculate_eq_ok_iff]
  constructor
  · rintro ⟨r, ⟨hcalc, hr, hfin⟩, rfl⟩
    exact ⟨hcalc, ⟨r, hr, rfl⟩, hfin⟩
  · rintro ⟨hcalc, ⟨r, hr, rfl⟩, hfin⟩
    exact ⟨r, ⟨hcalc, hr, hfin⟩, rfl⟩

theorem isCalculable_of_evaluate {text : String} {x : Binary64}
    (hknown : ∀ t ∈ tokenize text.toList, t.isKnown = true)
    (hx : (evaluate text).map Evaluation.value = .ok x) : isCalculable text = true := by
  refine isCalculable_iff.2 ⟨?_, fun t ht => Token.isArithmetic_of_isKnown (hknown t ht)⟩
  intro hnil
  rw [evaluate_map_value, hnil] at hx
  cases hx

/-- A text with a value is a reading of a tree with that value, and an expression for that tree if
no two operands stand side by side. -/
theorem calculate_eq_ok_iff_derives {text : String}
    (hknown : ∀ t ∈ tokenize text.toList, t.isKnown = true) (x : Binary64) :
    ((calculate text).map Evaluation.value = .ok x ↔
      x.isFinite = true ∧
        ∃ e : Expression, Reorders .sum (tokenize text.toList) e.postorder ∧ e.value = x) ∧
    (Unjuxtaposed (tokenize text.toList) ∧ (calculate text).map Evaluation.value = .ok x ↔
      x.isFinite = true ∧
        ∃ e : Expression, Derives .sum (tokenize text.toList) e ∧ e.value = x) := by
  have hreads : (calculate text).map Evaluation.value = .ok x ↔
      x.isFinite = true ∧
        ∃ e : Expression, Reorders .sum (tokenize text.toList) e.postorder ∧ e.value = x := by
    rw [calculate_map_value_eq_ok_iff, ← evaluate_map_value_eq_ok_iff]
    constructor
    · rintro ⟨-, hx, hfin⟩
      exact ⟨hfin, hx⟩
    · rintro ⟨hfin, hx⟩
      exact ⟨isCalculable_of_evaluate hknown hx, hx, hfin⟩
  refine ⟨hreads, ?_⟩
  rw [hreads]
  constructor
  · rintro ⟨hadj, hfin, e, hread, rfl⟩
    obtain ⟨f, hf⟩ := (derives_of_countP hread hknown hadj).2 (countP_isNumber_postorder e)
    -- both trees belong to the one postfix order that the tokens have
    have horder : e.postorder = f.postorder := Except.ok.inj
      ((ofInfix_of_reorders hread).symm.trans (ofInfix_of_reorders (reorders_of_derives hf)))
    have hvalue : f.value = e.value := by
      have h := value_postorder e
      rw [horder, value_postorder] at h
      exact Except.ok.inj h
    exact ⟨hfin, f, hf, hvalue⟩
  · rintro ⟨hfin, e, he, rfl⟩
    exact ⟨unjuxtaposed_of_derives he, hfin, e, reorders_of_derives he, rfl⟩

theorem calculate_eq_ok_iff_derives_nine :
    (∀ t ∈ tokenize "(1 +2)*3".toList, t.isKnown = true) ∧
      (calculate "(1 +2)*3").map Evaluation.value = .ok (.ofBits 0x4022000000000000) ∧
      ∃ e : Expression, Derives .sum (tokenize "(1 +2)*3".toList) e ∧
        e.value = .ofBits 0x4022000000000000 := by
  have hknown : ∀ t ∈ tokenize "(1 +2)*3".toList, t.isKnown = true := by decide +kernel
  have hadj : Unjuxtaposed (tokenize "(1 +2)*3".toList) := by decide +kernel
  have hvalue : (calculate "(1 +2)*3").map Evaluation.value =
      .ok (.ofBits 0x4022000000000000) := by decide +kernel
  have h := (calculate_eq_ok_iff_derives hknown (.ofBits 0x4022000000000000)).2
  exact ⟨hknown, hvalue, (h.1 ⟨hadj, hvalue⟩).2⟩

/-- An operator too few between the first two operands, and one too many after them. -/
theorem calculate_juxtaposed_ok :
    (∀ t ∈ tokenize "1(2)+".toList, t.isKnown = true) ∧
      (calculate "1(2)+").map Evaluation.value = .ok (.ofBits 0x4008000000000000) ∧
      ¬ ∃ e : Expression, Derives .sum (tokenize "1(2)+".toList) e := by
  refine ⟨by decide +kernel, by decide +kernel, ?_⟩
  rintro ⟨e, he⟩
  have hadj := unjuxtaposed_of_derives he
  revert hadj
  decide +kernel

end Calculator
