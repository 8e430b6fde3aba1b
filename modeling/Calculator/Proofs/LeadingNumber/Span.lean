/-
  Finding the number at the head of a line by byte positions is safe (`run_headNumber?`): of any
  text, no access is refused, each position lies on the boundary of a character, and what lies
  between the two ends of a number is a decimal that can be read. So nothing is found only where no
  digit is, and the number found is that of the reader of characters, `leadingNumber?`. Each step
  of the position is the one that the reader of characters takes through its text: behind the sign
  (`meets_sign`), behind the mantissa (`meets_mantissaEnd?`) and behind the exponent
  (`meets_exponentEnd`). All that is stepped over is ASCII, which keeps positions on boundaries.
-/
import Calculator.LeadingNumber.Span
import Calculator.Proofs.LeadingNumber.Longest
import Calculator.Proofs.Text.ByteReader

namespace Calculator

open Decimal Pattern

/-! ## Digits -/

section Digits

variable {c : Char} {cs : List Char}

theorem toNat_lt_of_isDigit (h : c.isDigit = true) : c.toNat < 128 := by
  have hnine : '9'.toNat < 128 := by decide
  exact Nat.lt_of_le_of_lt (Char.isDigit_iff_toNat.1 h).2 hnine

theorem isDigitByte_iff {b : UInt8} :
    isDigitByte b = true ↔ '0'.toNat ≤ b.toNat ∧ b.toNat ≤ '9'.toNat := by
  rw [isDigitByte, Bool.and_eq_true, decide_eq_true_eq, decide_eq_true_eq, UInt8.le_iff_toNat_le,
    UInt8.le_iff_toNat_le]
  exact Iff.rfl

@[simp] theorem isDigitByte_toUInt8 (h : c.toNat < 128) : isDigitByte c.toUInt8 = c.isDigit := by
  rw [Bool.eq_iff_iff, isDigitByte_iff, toNat_toUInt8 h, Char.isDigit_iff_toNat]

@[simp] theorem isDigitByte_of_le {b : UInt8} (h : 128 ≤ b.toNat) : isDigitByte b = false := by
  have hnine : '9'.toNat < 128 := by decide
  rw [Bool.eq_false_iff, Ne, isDigitByte_iff]
  omega

/-- Digits are counted in the bytes as in the characters. -/
theorem length_takeWhile_isDigitByte (cs : List Char) :
    ((utf8 cs).takeWhile isDigitByte).length = (leadingDigits cs).length := by
  induction cs with
  | nil => rfl
  | cons c cs ih =>
    rcases Nat.lt_or_ge c.toNat 128 with hc | hc
    · cases hdigit : c.isDigit with
      | false => simp [leadingDigits, hc, hdigit]
      | true => simpa [leadingDigits, hc, hdigit] using ih
    · have hdigit : c.isDigit = false := by
        by_contra hdigit
        have hlt := toNat_lt_of_isDigit (Bool.not_eq_false _ ▸ hdigit)
        omega
      obtain ⟨b, bs, hbytes, hb⟩ := exists_utf8_cons_eq hc cs
      simp [leadingDigits, hbytes, hb, hdigit]

theorem leadingUnsigned?_eq_none_iff :
    leadingUnsigned? cs = none ↔ ¬ "Infinity".toList <+: cs ∧ ¬ OpensWithDigit cs := by
  by_cases hword : "Infinity".toList <+: cs
  · obtain ⟨rest, rfl⟩ := hword
    rw [leadingUnsigned?_infinity]
    exact ⟨nofun, fun h => absurd (List.prefix_append _ _) h.1⟩
  · rw [leadingUnsigned?_of_not_word hword, Option.map_eq_none_iff, read?_eq_none_iff]
    exact ⟨fun h => ⟨hword, h⟩, And.right⟩

end Digits

/-! ## Steps of the position -/

namespace IsAt

variable {text : String} {start : Nat} {cs : List Char}

theorem afterDigits (h : IsAt text start cs) :
    IsAt text (start + (leadingDigits cs).length) (Decimal.afterDigits cs) := by
  rw [← leadingDigits_append_afterDigits cs] at h
  exact h.append_ascii fun c hc => toNat_lt_of_isDigit (isDigit_of_mem_leadingDigits hc)

end IsAt

namespace ByteReader

section Steps

variable {text : String} {start : Nat} {cs : List Char}

theorem meets_digitCount (h : IsAt text start cs) :
    Meets text (digitCount text start) (· = (leadingDigits cs).length) := by
  refine (meets_bytes h).bind ?_
  rintro _ rfl
  exact meets_pure (length_takeWhile_isDigitByte cs)

/-- The reader of characters is behind the sign there, too. -/
theorem meets_sign (h : IsAt text start cs) : Meets text (sign text start) fun (negative, stop) =>
    ∃ rest, readSign cs = (negative, rest) ∧ IsAt text stop rest := by
  refine (meets_byteAt? h).bind ?_
  intro first hfirst
  have hminus := hfirst '-' (by decide)
  have hplus := hfirst '+' (by decide)
  split_ifs with hm hp
  · obtain ⟨rest, rfl, hbehind⟩ := h.exists_tail (hminus.1 hm) (by decide)
    exact meets_pure ⟨rest, rfl, hbehind⟩
  · obtain ⟨rest, rfl, hbehind⟩ := h.exists_tail (hplus.1 hp) (by decide)
    exact meets_pure ⟨rest, rfl, hbehind⟩
  · have hhead : ∀ c ∈ cs.head?, c ≠ '-' ∧ c ≠ '+' := fun c hc =>
      ⟨ne_of_byte hminus hm c hc, ne_of_byte hplus hp c hc⟩
    exact meets_pure ⟨cs, readSign_append (.inl rfl) hhead, h⟩

/-- A position behind the mantissa: what an exponent leaves there, the decimal leaves. -/
def EndsMantissa (text : String) (cs : List Char) : Option Nat → Prop
  | none => ¬ OpensWithDigit cs
  | some stop => ∃ rest d, IsAt text stop rest ∧ read? cs = some (d, (readExponent rest).2)

theorem meets_mantissaEnd? (h : IsAt text start cs) :
    Meets text (mantissaEnd? text start) (EndsMantissa text cs) := by
  refine (meets_digitCount h).bind ?_
  rintro _ rfl
  have hwhole := h.afterDigits
  refine (meets_byteAt? hwhole).bind ?_
  intro next hnext
  have hpoint := hnext '.' (by decide)
  split_ifs with hbyte hnone
  · obtain ⟨more, hmore, hbehind⟩ := hwhole.exists_tail (hpoint.1 hbyte) (by decide)
    refine (meets_digitCount hbehind).bind ?_
    rintro _ rfl
    refine meets_pure ?_
    simp only [List.length_eq_zero_iff]
    split_ifs with hnone
    · rw [afterDigits_eq_self hnone.1] at hmore
      refine not_opensWithDigit_iff.2 ⟨hnone.1, fun other hother => ?_⟩
      rw [hmore] at hother
      rw [← (List.cons.inj hother).2]
      exact hnone.2
    · obtain ⟨d, hread⟩ := exists_read?_of_point hmore (by tauto)
      exact ⟨_, d, hbehind.afterDigits, hread⟩
  · refine meets_pure ?_
    rw [List.length_eq_zero_iff] at hnone
    rw [afterDigits_eq_self hnone] at hpoint
    refine not_opensWithDigit_iff.2 ⟨hnone, fun other hother => ?_⟩
    exact absurd (hpoint.2 (by rw [hother]; rfl)) hbyte
  · rw [List.length_eq_zero_iff] at hnone
    obtain ⟨d, hread⟩ := exists_read?_of_whole hnone fun hhead => hbyte (hpoint.2 hhead)
    exact meets_pure ⟨_, d, hwhole, hread⟩

theorem meets_exponentEnd (h : IsAt text start cs) : Meets text (exponentEnd text start)
    fun stop => IsAt text stop (readExponent cs).2 := by
  refine (meets_byteAt? h).bind ?_
  intro first hfirst
  have hlower := hfirst 'e' (by decide)
  have hupper := hfirst 'E' (by decide)
  split_ifs with hbyte
  · obtain ⟨mark, more, hmark, hcs, hbehind⟩ : ∃ mark more, (mark = 'e' ∨ mark = 'E') ∧
        cs = mark :: more ∧ IsAt text (start + 1) more := by
      rcases hbyte with he | he
      · obtain ⟨more, hcs, hbehind⟩ := h.exists_tail (hlower.1 he) (by decide)
        exact ⟨'e', more, .inl rfl, hcs, hbehind⟩
      · obtain ⟨more, hcs, hbehind⟩ := h.exists_tail (hupper.1 he) (by decide)
        exact ⟨'E', more, .inr rfl, hcs, hbehind⟩
    subst hcs
    refine (meets_sign hbehind).bind ?_
    rintro ⟨negative, behindSign⟩ ⟨rest, hsign, hrest⟩
    refine (meets_digitCount hrest).bind ?_
    rintro _ rfl
    refine meets_pure ?_
    simp only [List.length_eq_zero_iff]
    split_ifs with hnone
    · simpa [readExponent, hsign, hnone] using h
    · rw [← leadingDigits_append_afterDigits rest] at hsign
      rw [readExponent_of_readSign hmark hsign hnone (fun c => isDigit_of_mem_leadingDigits)
        (head?_afterDigits rest)]
      exact hrest.afterDigits
  · obtain ⟨hnotLower, hnotUpper⟩ := not_or.1 hbyte
    rw [readExponent_of_head fun c hc =>
      ⟨ne_of_byte hlower hnotLower c hc, ne_of_byte hupper hnotUpper c hc⟩]
    exact meets_pure h

end Steps

/-! ## The span of the number -/

/-- What is found in a text with `cs` behind its sign. -/
def Locates (text : String) (minus : Bool) (cs : List Char) : Option NumberSpan → Prop
  | none => ¬ "Infinity".toList <+: cs ∧ ¬ OpensWithDigit cs
  | some (.infinity negative) => negative = minus ∧ "Infinity".toList <+: cs
  | some (.decimal negative start stop) => negative = minus ∧ ¬ "Infinity".toList <+: cs ∧
      ∃ d rest, read? cs = some (d, rest) ∧ IsAt text start cs ∧ IsAt text stop rest

theorem meets_numberSpan? (text : String) : Meets text (numberSpan? text) fun span? =>
    ∃ minus cs, readSign text.toList = (minus, cs) ∧ Locates text minus cs span? := by
  refine (meets_sign (isAt_zero text)).bind ?_
  rintro ⟨minus, start⟩ ⟨cs, hsign, hstart⟩
  have hall : IsAt text start (cs ++ []) := by rwa [List.append_nil]
  refine (meets_characters hall (isAt_utf8ByteSize text)).bind ?_
  rintro _ rfl
  split_ifs with hword
  · exact meets_pure ⟨minus, _, hsign, rfl, List.isPrefixOf_iff_prefix.1 hword⟩
  · rw [List.isPrefixOf_iff_prefix] at hword
    refine (meets_mantissaEnd? hstart).bind ?_
    rintro (_ | behindMantissa) hmantissa
    · exact meets_pure ⟨minus, _, hsign, hword, hmantissa⟩
    · obtain ⟨rest, d, hrest, hread⟩ := hmantissa
      refine (meets_exponentEnd hrest).bind ?_
      intro stop hstop
      exact meets_pure ⟨minus, _, hsign, rfl, hword, d, _, hread, hstart, hstop⟩

theorem leadingNumber?_withoutBlanks {line : String} {minus : Bool} {cs : List Char}
    (h : readSign (withoutBlanks line).toList = (minus, cs)) :
    leadingNumber? line.toList =
      (leadingUnsigned? cs).map fun x => if minus then -x else x := by
  rw [withoutBlanks, String.toList_ofList] at h
  simp only [leadingNumber?, h]

/-! ## The number in the span -/

theorem readLiteral?_of_mem_decimal {part : List Char} {d : Decimal}
    (hmem : part ∈ decimal.matches') (hread : read? part = some (d, [])) :
    readLiteral? part = some d.toBinary64 := by
  obtain ⟨c, cs, rfl, hc⟩ := exists_cons_of_mem_decimal hmem
  obtain ⟨hminus, hplus⟩ := ne_sign_of_isNumeral hc
  simp [readLiteral?, hminus, hplus, readUnsigned?, hread]

/-- Between the two ends stands a decimal, and it can be read. -/
theorem exists_literal {text : String} {start stop : Nat} {cs rest : List Char} {d : Decimal}
    (h : IsAt text start cs) (hstop : IsAt text stop rest) (hread : read? cs = some (d, rest))
    (before : List Access) :
    (Access.slice start stop).IsSafe text ∧ ∃ literal ∈ decimal.matches',
      (characters text start stop).run before = .ok (literal, .slice start stop :: before) ∧
        readLiteral? literal = some d.toBinary64 := by
  obtain ⟨part, hmem, rfl, halone⟩ := exists_decimal_of_read? hread
  have hsafe := h.isSafe_slice hstop
  refine ⟨hsafe, part, hmem, ?_, readLiteral?_of_mem_decimal hmem halone⟩
  rw [run_characters hsafe, h.toList_extract hstop]

theorem exists_run_value? {text : String} {minus : Bool} {cs : List Char}
    {span? : Option NumberSpan} (h : Locates text minus cs span?) {before : List Access}
    (hbefore : ∀ access ∈ before, access.IsSafe text) :
    ∃ accesses,
      (value? text span?).run before =
        .ok ((leadingUnsigned? cs).map fun x => if minus then -x else x, accesses) ∧
      (∀ access ∈ accesses, access.IsSafe text) ∧
      ∀ negative start stop, span? = some (.decimal negative start stop) →
        start ≤ stop ∧ accesses = .slice start stop :: before ∧
          ∃ literal ∈ decimal.matches',
            (characters text start stop).run before = .ok (literal, accesses) ∧
              ∃ x, readLiteral? literal = some x := by
  match span? with
  | none =>
    rw [leadingUnsigned?_eq_none_iff.2 h]
    exact ⟨before, rfl, hbefore, nofun⟩
  | some (.infinity negative) =>
    obtain ⟨rfl, rest, rfl⟩ := h
    rw [leadingUnsigned?_infinity]
    refine ⟨before, ?_, hbefore, nofun⟩
    cases negative <;> rfl
  | some (.decimal negative start stop) =>
    obtain ⟨rfl, hword, d, rest, hread, hstart, hstop⟩ := h
    obtain ⟨hsafe, literal, hmem, hchars, hliteral⟩ := exists_literal hstart hstop hread before
    refine ⟨.slice start stop :: before, ?_, List.forall_mem_cons.2 ⟨hsafe, hbefore⟩, ?_⟩
    · rw [leadingUnsigned?_of_not_word hword, hread]
      simp [value?, hchars, hliteral]
    · intro _ _ _ heq
      obtain ⟨rfl, rfl, rfl⟩ := NumberSpan.decimal.inj (Option.some.inj heq)
      exact ⟨hsafe.1, rfl, literal, hmem, hchars, d.toBinary64, hliteral⟩

/-- Nothing is refused on the way to the number at the head of a line. What is found to be a
decimal can be read, so there is no number only where no digit is. -/
theorem run_headNumber? (line : String) :
    let text := withoutBlanks line
    let unsigned := (readSign text.toList).2
    ∃ span? located accesses,
      (numberSpan? text).run [] = .ok (span?, located) ∧
      (headNumber? text).run [] = .ok (leadingNumber? line.toList, accesses) ∧
      (∀ access ∈ accesses, access.IsSafe text) ∧
      (∀ negative start stop, span? = some (.decimal negative start stop) →
        start ≤ stop ∧ accesses = .slice start stop :: located ∧
          ∃ literal ∈ decimal.matches',
            (characters text start stop).run located = .ok (literal, accesses) ∧
              ∃ x, readLiteral? literal = some x) ∧
      (leadingNumber? line.toList = none ↔
        ¬ "Infinity".toList <+: unsigned ∧ ¬ OpensWithDigit unsigned) := by
  intro text unsigned
  obtain ⟨span?, located, hspan, hlocated, minus, cs, hsign, hfound⟩ :=
    meets_numberSpan? text [] (by simp)
  obtain ⟨accesses, hvalue, hsafe, hdecimal⟩ := exists_run_value? hfound hlocated
  have hunsigned : unsigned = cs := congrArg Prod.snd hsign
  rw [leadingNumber?_withoutBlanks hsign, Option.map_eq_none_iff, hunsigned]
  refine ⟨span?, located, accesses, hspan, ?_, hsafe, hdecimal, leadingUnsigned?_eq_none_iff⟩
  simp [headNumber?, hspan, hvalue]

/-- The last look goes behind the exponent, to the end of the text. -/
example : (numberSpan? "-1.5e3é").run [] = .ok (some (.decimal true 1 6),
    [.slice 5 8, .byte 5, .byte 4, .slice 3 8, .byte 2, .slice 1 8, .slice 1 8, .byte 0]) := rfl

end ByteReader

end Calculator
