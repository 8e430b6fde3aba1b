/-
  The number at the head of a line and the first operand of its calculation. The cut into tokens
  joins numerals across blanks, and knows neither signs nor exponents; the reader of the head knows
  both, and stops at a blank. Where a line of arithmetic starts with a literal that can be read, and
  no numeral comes next, both end the literal at the same place and read the same number
  (`leadingNumber?_first_operand`). So a function of the line is one of the operand that `=` takes
  first.
-/
import Calculator.Proofs.Evaluation.Errors
import Calculator.Proofs.LeadingNumber.Longest
import Calculator.Proofs.Postfix.Conversion
import Calculator.Proofs.Token.Rendering

namespace Calculator

open Decimal Pattern Postfix

section Literal

variable {literal rest : List Char} {x : Binary64}

theorem ne_nil_of_readLiteral? (h : readLiteral? literal = some x) : literal ≠ [] := by
  rintro rfl
  cases h

/-! ## The reader of the head -/

/-- A literal at the head of a text is the number there, if it does not go on. -/
theorem leadingNumber?_of_literal (hliteral : ∀ c ∈ literal, isNumeral c = true)
    (hread : readLiteral? literal = some x) (hrest : ∀ c ∈ rest.head?, continuesNumber c = false)
    {cs : List Char} (hcs : cs.dropWhile isBlank = literal ++ rest) :
    leadingNumber? cs = some x := by
  have hne := ne_nil_of_readLiteral? hread
  have hhead : ∀ c ∈ (literal ++ rest).head?, isNumeral c = true := by
    intro c hc
    rw [List.head?_append_of_ne_nil _ hne] at hc
    exact hliteral c (List.mem_of_mem_head? hc)
  have hsign : ∀ c ∈ (literal ++ rest).head?, c ≠ '-' ∧ c ≠ '+' := fun c hc =>
    ne_sign_of_isNumeral (hhead c hc)
  have hword : ∀ c ∈ (literal ++ rest).head?, c ≠ 'I' := by
    rintro c hc rfl
    exact absurd (hhead 'I' hc) (by decide)
  classical
  rw [readLiteral?_numerals hne hliteral] at hread
  split_ifs at hread with hmantissa
  simp only [continuesNumber_eq_false_iff] at hrest
  have hdecimal := read?_mantissa_append hmantissa fun c hc =>
    ⟨(hrest c hc).1, fun heq => absurd heq (hrest c hc).2.1⟩
  rw [readExponent_of_head fun c hc => (hrest c hc).2.2, Int.add_zero] at hdecimal
  have hunsigned : leadingUnsigned? (literal ++ rest) = some x := by
    rw [leadingUnsigned?_of_head hword, hdecimal]
    exact hread
  rw [leadingNumber?_of_dropWhile (s := []) (.inl rfl) hsign hcs, hunsigned]
  rfl

/-! ## The first token -/

theorem tokenize_literal_append (hne : literal ≠ []) (hliteral : ∀ c ∈ literal, isNumeral c = true)
    (hrest : ∀ c ∈ (rest.dropWhile isBlank).head?, isNumeral c = false) :
    tokenize (literal ++ rest) = .number literal :: tokenize rest := by
  refine tokenize_text_append (t := .number literal) ⟨hne, hliteral⟩ ?_
  rintro u hu ⟨-, hnumber⟩
  rw [isNumber_of_head?_tokenize hrest u hu] at hnumber
  cases hnumber

/-- The first operand is written out before all else. -/
theorem head?_of_ofInfix_literal {l : Literal} {ts ps : List Token}
    (h : ofInfix (.number l.text :: ts) = .ok ps) : ps.head? = some (.number l.text) := by
  have hrest : (Conversion.start.write [.number l.text]).complete ts = .ok ps := by
    simpa [ofInfix, Conversion.complete] using h
  rw [Conversion.complete_write] at hrest
  obtain ⟨qs, -, rfl⟩ := map_eq_ok_iff.1 hrest
  rfl

end Literal

/-! ## Lines of arithmetic -/

/-- Arithmetic does not go on with a literal: what follows is no numeral, and no exponent. -/
theorem continuesNumber_of_isCalculable {text : String} {front rest : List Char}
    (hcalc : isCalculable text = true) (htext : text.toList = front ++ rest)
    (hrest : ∀ c ∈ (rest.dropWhile isBlank).head?, isNumeral c = false) :
    ∀ c ∈ rest.head?, continuesNumber c = false := by
  intro c hc
  have hadmitted : (isBlank c || isArithmetic c) = true := by
    rw [isCalculable, Bool.and_eq_true, List.all_eq_true, htext] at hcalc
    exact hcalc.2 c (List.mem_append_right front (List.mem_of_mem_head? hc))
  have hnumeral : isNumeral c = false := by
    by_contra hnumeral
    rw [Bool.not_eq_false] at hnumeral
    obtain ⟨cs, rfl⟩ := List.head?_eq_some_iff.1 hc
    rw [List.dropWhile_cons_of_neg (by simp [hnumeral])] at hrest
    rw [hrest c rfl] at hnumeral
    cases hnumeral
  rw [isNumeral, Bool.or_eq_false_iff, decide_eq_false_iff_not] at hnumeral
  rw [continuesNumber_eq_false_iff]
  refine ⟨hnumeral.1, hnumeral.2, ?_, ?_⟩
  · rintro rfl
    exact absurd hadmitted (by decide)
  · rintro rfl
    exact absurd hadmitted (by decide)

/-- The number at the head of a line of arithmetic is the first operand of its calculation. -/
theorem leadingNumber?_first_operand {text : String} {blanks literal rest : List Char}
    {x : Binary64} (hcalc : isCalculable text = true)
    (htext : text.toList = blanks ++ literal ++ rest) (hblanks : ∀ c ∈ blanks, isBlank c = true)
    (hliteral : ∀ c ∈ literal, isNumeral c = true) (hread : readLiteral? literal = some x)
    (hrest : ∀ c ∈ (rest.dropWhile isBlank).head?, isNumeral c = false) :
    (tokenize text.toList).head? = some (.number literal) ∧
      (∀ ps, ofInfix (tokenize text.toList) = .ok ps → ps.head? = some (.number literal)) ∧
      leadingNumber? text.toList = some x ∧
      ∀ (f : CircularFunction) (unit : AngleUnit), f.ofText text unit = .ok (f.apply x unit) := by
  have hne := ne_nil_of_readLiteral? hread
  have hskip : text.toList.dropWhile isBlank = literal ++ rest := by
    obtain ⟨c, cs, rfl⟩ := List.exists_cons_of_ne_nil hne
    have hc : isBlank c = false := isBlank_of_isNumeral (hliteral c List.mem_cons_self)
    rw [htext, List.append_assoc, List.dropWhile_append_of_pos hblanks, List.cons_append,
      List.dropWhile_cons_of_neg (by simp [hc])]
  have htokens : tokenize text.toList = .number literal :: tokenize rest := by
    rw [← tokenize_dropWhile, hskip, tokenize_literal_append hne hliteral hrest]
  have hnumber : leadingNumber? text.toList = some x :=
    leadingNumber?_of_literal hliteral hread
      (continuesNumber_of_isCalculable hcalc htext hrest) hskip
  refine ⟨?_, ?_, hnumber, ?_⟩
  · rw [htokens]
    rfl
  · intro ps hps
    rw [htokens] at hps
    exact head?_of_ofInfix_literal (l := ⟨literal, x, hread⟩) hps
  · intro f unit
    rw [CircularFunction.ofText, hnumber]

/-- In ` 12.50 *(3-1)` the literal ends at a blank for the one reader, and at the `*` for the
other. -/
theorem leadingNumber?_first_operand_product :
    isCalculable " 12.50 *(3-1)" = true ∧
      " 12.50 *(3-1)".toList = " ".toList ++ "12.50".toList ++ " *(3-1)".toList ∧
      (∀ c ∈ " ".toList, isBlank c = true) ∧ (∀ c ∈ "12.50".toList, isNumeral c = true) ∧
      readLiteral? "12.50".toList = some (.ofBits 0x4029000000000000) ∧
      (∀ c ∈ (" *(3-1)".toList.dropWhile isBlank).head?, isNumeral c = false) ∧
      (tokenize " 12.50 *(3-1)".toList).head? = some (.number "12.50".toList) ∧
      leadingNumber? " 12.50 *(3-1)".toList = some (.ofBits 0x4029000000000000) ∧
      CircularFunction.sin.ofText " 12.50 *(3-1)" .radians =
        .ok (CircularFunction.sin.apply (.ofBits 0x4029000000000000) .radians) := by
  have hcalc : isCalculable " 12.50 *(3-1)" = true := by decide
  have htext : " 12.50 *(3-1)".toList = " ".toList ++ "12.50".toList ++ " *(3-1)".toList := by
    decide
  have hblanks : ∀ c ∈ " ".toList, isBlank c = true := List.all_eq_true.1 (by decide)
  have hliteral : ∀ c ∈ "12.50".toList, isNumeral c = true := List.all_eq_true.1 (by decide)
  have hread : readLiteral? "12.50".toList = some (.ofBits 0x4029000000000000) := by
    decide +kernel
  have hrest : ∀ c ∈ (" *(3-1)".toList.dropWhile isBlank).head?, isNumeral c = false := by
    intro c hc
    obtain rfl : '*' = c := Option.some.inj hc
    decide
  obtain ⟨htoken, -, hnumber, hfunction⟩ :=
    leadingNumber?_first_operand hcalc htext hblanks hliteral hread hrest
  exact ⟨hcalc, htext, hblanks, hliteral, hread, hrest, htoken, hnumber,
    hfunction .sin .radians⟩

/-- Where a numeral comes next, only the cut into tokens joins it. -/
example : tokenize "1 2".toList = [.number "12".toList] ∧
    leadingNumber? "1 2".toList = some (.ofBits 0x3FF0000000000000) := by
  decide +kernel

end Calculator
