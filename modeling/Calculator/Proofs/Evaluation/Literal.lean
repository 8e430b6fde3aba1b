/-
  Literals are read exactly. A literal that was cut from a text is a run of numerals, and has a
  value if it has a digit and not two points: the number nearest to the rational that it denotes,
  however many digits it has. A text with nothing but one literal is calculated to that value
  (`readLiteral?_of_mem_tokenize`).
-/
import Calculator.Proofs.Binary64.Nearest
import Calculator.Proofs.Decimal.Grammar
import Calculator.Proofs.Decimal.Rounding
import Calculator.Proofs.Evaluation.Errors
import Calculator.Proofs.Token.Rendering

namespace Calculator

open Binary64 Decimal Pattern Postfix

/-! ## The value of a literal -/

section Literal

variable {s : List Char} (hne : s ≠ []) (hs : ∀ c ∈ s, isNumeral c = true)
include hne hs

theorem exists_readLiteral?_numerals_iff : (∃ x, readLiteral? s = some x) ↔
    (∃ c ∈ s, c.isDigit = true) ∧ s.count '.' ≤ 1 := by
  have hmantissa : s ∈ mantissa.matches' ↔ (∃ c ∈ s, c.isDigit = true) ∧ s.count '.' ≤ 1 :=
    mem_mantissa_iff.trans (and_iff_right hs)
  rw [readLiteral?_numerals hne hs, ← hmantissa]
  split_ifs with h
  · simp [h]
  · simp [h]

theorem readLiteral?_numerals_eq_some {x : Binary64} (hx : readLiteral? s = some x) :
    x = ofMagnitude false (ofPositions s).toRat := by
  rw [readLiteral?_numerals hne hs] at hx
  split_ifs at hx
  rw [← toBinary64_eq]
  exact (Option.some.inj hx).symm

end Literal

/-! ## Texts with one literal -/

/-- A literal that cannot be read leaves nothing to evaluate. -/
theorem value_ofInfix_number (literal : List Char) :
    (ofInfix [.number literal] >>= value) =
      match readLiteral? literal with
      | some x => .ok x
      | none => .error .invalidExpression := by
  cases hread : readLiteral? literal with
  | some x =>
    have hps : ofInfix [.number literal] = .ok [.number literal] := by
      simp [ofInfix, Conversion.step, hread, Conversion.start, Conversion.finish]
    have hvalue : value [.number literal] = .ok x := by simp [value, reduce, hread]
    simp [hps, hvalue]
  | none =>
    have hps : ofInfix [.number literal] = .ok [] := by
      simp [ofInfix, Conversion.step, hread, Conversion.start, Conversion.finish]
    simp [hps, value]

theorem calculate_number {text : String} {literal : List Char}
    (h : tokenize text.toList = [.number literal]) :
    (calculate text).map Evaluation.value =
      match readLiteral? literal with
      | some x => if x.isFinite then .ok x else .error .nonFiniteResult
      | none => .error .invalidExpression := by
  have hcalc : isCalculable text = true := isCalculable_of_tokenize h (by simp)
  rw [calculate_map_value hcalc, h, value_ofInfix_number]
  cases readLiteral? literal <;> rfl

/-- A literal of a text has a value if it has a digit and at most one point, and then the nearest
one; alone in a text, it is the result unless it is too large or has no value. -/
theorem readLiteral?_of_mem_tokenize {text : String} {literal : List Char}
    (h : Token.number literal ∈ tokenize text.toList) :
    ((∃ x, readLiteral? literal = some x) ↔
      (∃ c ∈ literal, c.isDigit = true) ∧ literal.count '.' ≤ 1) ∧
    (∀ x, readLiteral? literal = some x →
      IsNearest (ofPositions literal).toRat x ∧
      (x = zero false ↔ (ofPositions literal).toRat ≤ (2 : Rat) ^ (-1075 : Int)) ∧
      (x = infinity false ↔ overflowBound ≤ (ofPositions literal).toRat) ∧
      (x = infinity false ∨ ∃ place, x = finite false place)) ∧
    (tokenize text.toList = [.number literal] →
      (calculate text).map Evaluation.value =
        match readLiteral? literal with
        | some x =>
          if (ofPositions literal).toRat < overflowBound then .ok x else .error .nonFiniteResult
        | none => .error .invalidExpression) := by
  obtain ⟨hne, hnumerals⟩ := (isCanonical_tokenize text.toList).isWritten _ h
  have hq := toRat_nonneg (ofPositions literal)
  refine ⟨exists_readLiteral?_numerals_iff hne hnumerals, ?_, ?_⟩
  · intro x hx
    obtain rfl := readLiteral?_numerals_eq_some hne hnumerals hx
    refine ⟨isNearest_ofMagnitude hq, ofMagnitude_eq_zero_iff hq,
      ofMagnitude_eq_infinity_iff hq, ?_⟩
    unfold ofMagnitude
    split_ifs
    · exact .inr ⟨_, rfl⟩
    · exact .inl rfl
  · intro halone
    rw [calculate_number halone]
    cases hread : readLiteral? literal with
    | none => rfl
    | some x =>
      obtain rfl := readLiteral?_numerals_eq_some hne hnumerals hread
      simp only [isFinite_ofMagnitude hq, decide_eq_true_eq]

/-- The literal is `2 ^ 53 + 1`, halfway between two numbers: it is read as the one at the even
place. -/
theorem readLiteral?_of_mem_tokenize_halfway :
    tokenize "9007199254740 993.".toList = [.number "9007199254740993.".toList] ∧
      readLiteral? "9007199254740993.".toList = some (.ofBits 0x4340000000000000) ∧
      IsNearest (ofPositions "9007199254740993.".toList).toRat (.ofBits 0x4340000000000000) ∧
      (calculate "9007199254740 993.").map Evaluation.value = .ok (.ofBits 0x4340000000000000) := by
  have halone : tokenize "9007199254740 993.".toList = [.number "9007199254740993.".toList] := by
    decide +kernel
  have hmem : Token.number "9007199254740993.".toList ∈ tokenize "9007199254740 993.".toList := by
    rw [halone]
    exact List.mem_singleton_self _
  have hread : readLiteral? "9007199254740993.".toList = some (.ofBits 0x4340000000000000) := by
    decide +kernel
  have hbelow : (ofPositions "9007199254740993.".toList).toRat < overflowBound := by decide +kernel
  obtain ⟨-, hvalue, hcalculate⟩ := readLiteral?_of_mem_tokenize hmem
  refine ⟨halone, hread, (hvalue _ hread).1, ?_⟩
  rw [hcalculate halone, hread]
  exact if_pos hbelow

end Calculator
