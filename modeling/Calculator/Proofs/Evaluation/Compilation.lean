/-
  An expression evaluates to the value of its tree. Whatever text its tokens are cut from, the
  conversion gives the postfix order of the tree, and the evaluation gives the value that the
  operators have when they are applied from the leaves up (`evaluate_of_derives`).
-/
import Calculator.Proofs.Postfix.Reordering

namespace Calculator

open Postfix

theorem evaluate_eq_ok_iff {text : String} {e : Evaluation} :
    evaluate text = .ok e ↔
      ∃ ps, ofInfix (tokenize text.toList) = .ok ps ∧ value ps = .ok e.value ∧
        e.trace = ⟨.ofList (Token.render (tokenize text.toList)), .ofList (Token.render ps)⟩ := by
  obtain ⟨x, trace⟩ := e
  simp only [evaluate, bind_eq_ok_iff, Except.ok.injEq, Evaluation.mk.injEq]
  constructor
  · rintro ⟨ps, hps, y, hy, rfl, rfl⟩
    exact ⟨ps, hps, hy, rfl⟩
  · rintro ⟨ps, hps, hx, rfl⟩
    exact ⟨ps, hps, x, hx, rfl, rfl⟩

/-- The value apart from its trace. -/
theorem evaluate_map_value (text : String) :
    (evaluate text).map Evaluation.value = ofInfix (tokenize text.toList) >>= value := by
  simp only [evaluate]
  cases hps : ofInfix (tokenize text.toList) with
  | error e => simp
  | ok ps => cases hx : value ps <;> simp [hx]

theorem evaluate_of_derives {ts : List Token} {e : Expression} (h : Derives .sum ts e)
    {text : String} (htext : tokenize text.toList = ts) :
    ofInfix ts = .ok e.postorder ∧ (evaluate text).map Evaluation.value = .ok e.value := by
  have hps : ofInfix ts = .ok e.postorder := ofInfix_of_reorders (reorders_of_derives h)
  refine ⟨hps, ?_⟩
  simp [evaluate_map_value, htext, hps]

/-- The operand of `*` is the group alone, and the operand of `-` is the whole product. -/
theorem evaluate_of_derives_product_of_group :
    ∃ e : Expression, Derives .sum (tokenize "8 - (3 -2)* .5".toList) e ∧
      ofInfix (tokenize "8 - (3 -2)* .5".toList) = .ok e.postorder ∧
      (evaluate "8 - (3 -2)* .5").map Evaluation.value = .ok e.value ∧
      e.value = .ofBits 0x401E000000000000 := by
  have minus : (⟨'-', 1, .left⟩ : Operator) ∈ Operator.table := by decide
  have times : (⟨'*', 2, .left⟩ : Operator) ∈ Operator.table := by decide
  let eight : Literal := ⟨['8'], .ofBits 0x4020000000000000, by decide +kernel⟩
  let three : Literal := ⟨['3'], .ofBits 0x4008000000000000, by decide +kernel⟩
  let two : Literal := ⟨['2'], .ofBits 0x4000000000000000, by decide +kernel⟩
  let half : Literal := ⟨['.', '5'], .ofBits 0x3FE0000000000000, by decide +kernel⟩
  have hgroup := Derives.group (.binary _ minus (by decide) (.operand (.operand (.literal three)))
    (.operand (.literal two)))
  have hproduct := Derives.binary (c := .product) _ times (by decide) (.operand hgroup)
    (.literal half)
  have hsum := Derives.binary (c := .sum) _ minus (by decide)
    (.operand (.operand (.literal eight))) hproduct
  have htext : tokenize "8 - (3 -2)* .5".toList =
      [.number ['8'], .operator '-', .leftParen, .number ['3'], .operator '-', .number ['2'],
        .rightParen, .operator '*', .number ['.', '5']] := by decide
  have hvalue : Operator.apply ⟨'-', 1, .left⟩ (.ofBits 0x4020000000000000)
      (Operator.apply ⟨'*', 2, .left⟩
        (Operator.apply ⟨'-', 1, .left⟩ (.ofBits 0x4008000000000000) (.ofBits 0x4000000000000000))
        (.ofBits 0x3FE0000000000000)) = .ofBits 0x401E000000000000 := by decide +kernel
  obtain ⟨hps, hx⟩ := evaluate_of_derives hsum htext
  rw [htext]
  exact ⟨_, hsum, hps, hx, hvalue⟩

end Calculator
