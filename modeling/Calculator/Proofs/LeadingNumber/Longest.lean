/-
  The number at the head of a text is read from its longest part there that is written like a
  number: a sign or none, the word `Infinity` or a mantissa, and an exponent or none. It has the
  value that this part has alone, except that the word with an exponent, which alone has no value,
  is read as the word (`leadingNumber?_longest`).
-/
import Calculator.Proofs.Decimal.Grammar
import Calculator.Proofs.LeadingNumber

namespace Calculator

open Binary64 RegularExpression

namespace Pattern

def infinityWord : Pattern := word "Infinity".toList

/-- `(Infinity | mantissa) exponentPart?` -/
def unsignedNumber : Pattern := (infinityWord + mantissa) * optional exponentPart

/-- `sign? (Infinity | mantissa) exponentPart?` -/
def number : Pattern := optional sign * unsignedNumber

end Pattern

open Pattern

/-! ## Without a sign -/

section Unsigned

variable {s rest : List Char}

theorem mem_unsignedNumber : s ∈ unsignedNumber.matches' ↔
    (∃ e ∈ (optional exponentPart).matches', s = "Infinity".toList ++ e) ∨
      s ∈ decimal.matches' := by
  simp only [unsignedNumber, decimal, mem_mul, mem_add, infinityWord, mem_word]
  constructor
  · rintro ⟨_, rfl | hm, e, he, rfl⟩
    · exact .inl ⟨e, he, rfl⟩
    · exact .inr ⟨_, hm, e, he, rfl⟩
  · rintro (⟨e, he, rfl⟩ | ⟨m, hm, e, he, rfl⟩)
    · exact ⟨_, .inl rfl, e, he, rfl⟩
    · exact ⟨m, .inr hm, e, he, rfl⟩

theorem exists_cons_of_mem_decimal (h : s ∈ decimal.matches') :
    ∃ c cs, s = c :: cs ∧ isNumeral c = true := by
  obtain ⟨m, hm, e, -, rfl⟩ := mem_mul.1 h
  obtain ⟨hnum, ⟨d, hd, -⟩, -⟩ := Decimal.mem_mantissa_iff.1 hm
  obtain ⟨c, cs, rfl⟩ := List.exists_cons_of_ne_nil (List.ne_nil_of_mem hd)
  exact ⟨c, cs ++ e, rfl, hnum c (by simp)⟩

theorem head?_infinity_append (rest : List Char) :
    ∀ c ∈ ("Infinity".toList ++ rest).head?, c ≠ '-' ∧ c ≠ '+' := by
  intro c hc
  obtain rfl : 'I' = c := Option.some.inj hc
  decide

/-- Neither the word nor a mantissa starts with a sign. -/
theorem head?_of_mem_unsignedNumber (h : s ∈ unsignedNumber.matches') :
    ∀ c ∈ (s ++ rest).head?, c ≠ '-' ∧ c ≠ '+' := by
  rcases mem_unsignedNumber.1 h with ⟨e, -, rfl⟩ | hdecimal
  · rw [List.append_assoc]
    exact head?_infinity_append (e ++ rest)
  · obtain ⟨d, cs, rfl, hd⟩ := exists_cons_of_mem_decimal hdecimal
    intro c hc
    obtain rfl : d = c := Option.some.inj hc
    exact Decimal.ne_sign_of_isNumeral hd

/-- The names of infinity and NaN have three or eight letters. -/
theorem readName?_of_length {cs : List Char} (h : 8 < cs.length) : Decimal.readName? cs = none := by
  refine Decimal.readName?_eq_none fun name hname heq => ?_
  have hshort : ∀ name ∈ ["inf".toList, "infinity".toList, "nan".toList], name.length ≤ 8 := by
    decide
  have hle := hshort name hname
  rw [← heq, List.length_map] at hle
  omega

theorem readUnsigned?_infinity_append (h : s ∈ exponentPart.matches') :
    Decimal.readUnsigned? ("Infinity".toList ++ s) = none := by
  obtain ⟨mark, signText, ds, -, -, -, rfl⟩ := Decimal.mem_exponentPart.1 h
  have hread : Decimal.read? ("Infinity".toList ++ mark :: (signText ++ ds)) = none := rfl
  simp only [Decimal.readUnsigned?, hread]
  exact readName?_of_length (by simp)

theorem leadingUnsigned?_of_isLongestPrefix (h : IsLongestPrefix decimal s (s ++ rest)) :
    leadingUnsigned? (s ++ rest) = Decimal.readUnsigned? s ∧
      ∃ x, Decimal.readUnsigned? s = some x := by
  obtain ⟨d, halone, hread⟩ := Decimal.read?_of_isLongestPrefix h
  have hhead : ∀ c ∈ (s ++ rest).head?, c ≠ 'I' := by
    obtain ⟨d, cs, rfl, hd⟩ := exists_cons_of_mem_decimal h.mem
    rintro c hc rfl
    obtain rfl : d = 'I' := Option.some.inj hc
    exact absurd hd (by decide)
  have hvalue : Decimal.readUnsigned? s = some d.toBinary64 := by
    simp [Decimal.readUnsigned?, halone]
  rw [leadingUnsigned?_of_head hhead, hread, hvalue]
  exact ⟨rfl, d.toBinary64, rfl⟩

end Unsigned

/-! ## With a sign -/

/-- `part` is the word `Infinity`, maybe signed, with an exponent, and `word` is it without. -/
def IsInfinityWithExponent (part word : List Char) : Prop :=
  word ∈ (optional sign * infinityWord).matches' ∧ ∃ e ∈ exponentPart.matches', part = word ++ e

section Signed

variable {s u : List Char} (hs : s ∈ (optional sign).matches')
  (hu : ∀ c ∈ u.head?, c ≠ '-' ∧ c ≠ '+')
include hs hu

theorem readLiteral?_sign_append : Decimal.readLiteral? (s ++ u) =
    (Decimal.readUnsigned? u).map fun x => if s = ['-'] then -x else x := by
  simp [Decimal.readLiteral?, Decimal.readSign_append hs hu]

theorem leadingNumber?_of_dropWhile {cs : List Char} (hcs : cs.dropWhile isBlank = s ++ u) :
    leadingNumber? cs = (leadingUnsigned? u).map fun x => if s = ['-'] then -x else x := by
  simp [leadingNumber?, hcs, Decimal.readSign_append hs hu]

theorem isInfinityWithExponent_iff {word : List Char} : IsInfinityWithExponent (s ++ u) word ↔
    word = s ++ "Infinity".toList ∧ ∃ e ∈ exponentPart.matches', u = "Infinity".toList ++ e := by
  constructor
  · rintro ⟨⟨t, ht, _, hword, rfl⟩, e, he, heq⟩
    obtain rfl := mem_word.1 hword
    have hread := congrArg Prod.snd (Decimal.readSign_append hs hu)
    rw [heq, List.append_assoc, Decimal.readSign_append ht (head?_infinity_append e)] at hread
    obtain rfl : "Infinity".toList ++ e = u := hread
    rw [List.append_assoc] at heq
    rw [List.append_cancel_right heq]
    exact ⟨rfl, e, he, rfl⟩
  · rintro ⟨rfl, e, he, rfl⟩
    exact ⟨⟨s, hs, _, mem_word.2 rfl, rfl⟩, e, he, (List.append_assoc _ _ _).symm⟩

end Signed

theorem leadingNumber?_of_isLongestPrefix {part cs : List Char}
    (h : IsLongestPrefix number part (cs.dropWhile isBlank)) :
    (∃ x, leadingNumber? cs = some x) ∧
    (∀ word, IsInfinityWithExponent part word →
      Decimal.readLiteral? part = none ∧ leadingNumber? cs = Decimal.readLiteral? word) ∧
    ((∀ word, ¬ IsInfinityWithExponent part word) →
      leadingNumber? cs = Decimal.readLiteral? part) := by
  obtain ⟨rest, hrest⟩ := h.isPrefix
  obtain ⟨s, hs, u, hu, rfl⟩ := mem_mul.1 h.mem
  rw [List.append_assoc] at hrest
  have hlongest : IsLongestPrefix unsignedNumber u (u ++ rest) := by
    refine ⟨List.prefix_append u rest, hu, ?_⟩
    rintro other hpre hother
    have hle := h.length_le (s ++ other)
      (hrest ▸ (List.prefix_append_right_inj s).2 hpre) (mem_mul.2 ⟨s, hs, other, hother, rfl⟩)
    simpa using hle
  have halone : ∀ c ∈ u.head?, c ≠ '-' ∧ c ≠ '+' := by
    rw [← List.append_nil u]
    exact head?_of_mem_unsignedNumber hu
  rw [leadingNumber?_of_dropWhile hs (head?_of_mem_unsignedNumber hu) hrest.symm,
    readLiteral?_sign_append hs halone]
  simp only [isInfinityWithExponent_iff hs halone]
  rcases mem_unsignedNumber.1 hu with ⟨e, he, rfl⟩ | hdecimal
  · rw [List.append_assoc, leadingUnsigned?_infinity]
    have hinfinity : Decimal.readUnsigned? "Infinity".toList = some (infinity false) := rfl
    have hhead : ∀ c ∈ "Infinity".toList.head?, c ≠ '-' ∧ c ≠ '+' := head?_infinity_append []
    refine ⟨⟨_, rfl⟩, ?_, ?_⟩
    · rintro _ ⟨rfl, d, hd, heq⟩
      rw [heq, readUnsigned?_infinity_append hd, readLiteral?_sign_append hs hhead, hinfinity]
      exact ⟨rfl, rfl⟩
    · intro hnot
      rcases mem_optional.1 he with rfl | he
      · rw [List.append_nil, hinfinity]
      · exact absurd ⟨rfl, e, he, rfl⟩ (hnot _)
  · obtain ⟨hread, x, hx⟩ := leadingUnsigned?_of_isLongestPrefix
      (hlongest.of_imp hdecimal fun other hother => mem_unsignedNumber.2 (.inr hother))
    rw [hread]
    refine ⟨⟨_, by rw [hx]; rfl⟩, ?_, fun _ => rfl⟩
    rintro word ⟨-, e, -, rfl⟩
    obtain ⟨c, cs, heq, hc⟩ := exists_cons_of_mem_decimal hdecimal
    obtain rfl : 'I' = c := (List.cons.inj heq).1
    exact absurd hc (by decide)

/-! ## The longest number -/

theorem exists_number_of_leadingNumber? {cs : List Char} {x : Binary64}
    (h : leadingNumber? cs = some x) :
    ∃ part, part <+: cs.dropWhile isBlank ∧ part ∈ number.matches' := by
  obtain ⟨s, hs, heq⟩ := Decimal.exists_readSign (cs.dropWhile isBlank)
  obtain ⟨y, hy, -⟩ : ∃ y, leadingUnsigned? (Decimal.readSign (cs.dropWhile isBlank)).2 = some y ∧
      _ = x := Option.map_eq_some_iff.1 h
  rw [heq]
  generalize (Decimal.readSign (cs.dropWhile isBlank)).2 = t at hy
  suffices hunsigned : ∃ u, u <+: t ∧ u ∈ unsignedNumber.matches' by
    obtain ⟨u, hpre, hu⟩ := hunsigned
    exact ⟨s ++ u, (List.prefix_append_right_inj s).2 hpre, mem_mul.2 ⟨s, hs, u, hu, rfl⟩⟩
  by_cases hword : "Infinity".toList <+: t
  · exact ⟨_, hword, mem_unsignedNumber.2 (.inl ⟨[], .inl rfl, rfl⟩)⟩
  · rw [leadingUnsigned?_of_not_word hword] at hy
    obtain ⟨⟨d, rest⟩, hread, -⟩ := Option.map_eq_some_iff.1 hy
    obtain ⟨m, hpre, hm⟩ := Decimal.exists_mantissa_of_read? hread
    have hdecimal := Decimal.mem_decimal_of_mem_mantissa hm
    exact ⟨m, hpre, mem_unsignedNumber.2 (.inr hdecimal)⟩

theorem leadingNumber?_ne_nan (cs : List Char) : leadingNumber? cs ≠ some nan := by
  intro h
  obtain ⟨x, hx, hneg⟩ := Option.map_eq_some_iff.1 h
  have hnan : x = nan := by
    split_ifs at hneg
    · rw [← neg_neg x, hneg]
      rfl
    · exact hneg
  rw [hnan, leadingUnsigned?] at hx
  split_ifs at hx
  · simp at hx
  · obtain ⟨d, -, hd⟩ := Option.map_eq_some_iff.1 hx
    exact Decimal.toBinary64_ne_nan d.1 hd

/-- What is read at the head of a text, after blanks. -/
theorem leadingNumber?_longest (cs : List Char) :
    ((∃ x, leadingNumber? cs = some x) ↔
      ∃ part, part <+: cs.dropWhile isBlank ∧ part ∈ number.matches') ∧
    (∀ part, IsLongestPrefix number part (cs.dropWhile isBlank) →
      (∀ word, IsInfinityWithExponent part word →
        Decimal.readLiteral? part = none ∧ leadingNumber? cs = Decimal.readLiteral? word) ∧
      ((∀ word, ¬ IsInfinityWithExponent part word) →
        leadingNumber? cs = Decimal.readLiteral? part)) ∧
    leadingNumber? cs ≠ some nan := by
  refine ⟨⟨?_, ?_⟩, ?_, leadingNumber?_ne_nan cs⟩
  · rintro ⟨x, hx⟩
    exact exists_number_of_leadingNumber? hx
  · intro hsome
    obtain ⟨part, hlongest⟩ := exists_isLongestPrefix hsome
    exact (leadingNumber?_of_isLongestPrefix hlongest).1
  · intro part hlongest
    exact (leadingNumber?_of_isLongestPrefix hlongest).2

/-- The point and the exponent that nothing follows are left where they are. -/
theorem leadingNumber?_longest_half :
    IsLongestPrefix number "-.5e3".toList ("  -.5e3.e-".toList.dropWhile isBlank) ∧
      (∀ word, ¬ IsInfinityWithExponent "-.5e3".toList word) ∧
      leadingNumber? "  -.5e3.e-".toList = Decimal.readLiteral? "-.5e3".toList := by
  have hlongest :
      IsLongestPrefix number "-.5e3".toList ("  -.5e3.e-".toList.dropWhile isBlank) := by
    refine ⟨by decide +kernel, by decide +kernel, ?_⟩
    simp only [← List.mem_inits]
    decide +kernel
  have hfinite : ∀ word, ¬ IsInfinityWithExponent "-.5e3".toList word := by
    intro word hword
    have hminus : ['-'] ∈ (optional sign).matches' := by decide +kernel
    obtain ⟨-, e, -, heq⟩ :=
      (isInfinityWithExponent_iff hminus (u := ".5e3".toList) (by simp)).1 hword
    simp at heq
  exact ⟨hlongest, hfinite, ((leadingNumber?_longest "  -.5e3.e-".toList).2.1 _ hlongest).2 hfinite⟩

/-- The whole text is a number, but it has no value alone. -/
theorem leadingNumber?_infinity_exponent :
    IsLongestPrefix number "Infinitye5".toList ("Infinitye5".toList.dropWhile isBlank) ∧
      Decimal.readLiteral? "Infinitye5".toList = none ∧
      leadingNumber? "Infinitye5".toList = some (infinity false) := by
  have hwhole : "Infinitye5".toList.dropWhile isBlank = "Infinitye5".toList := by decide +kernel
  rw [hwhole]
  exact ⟨⟨List.prefix_refl _, by decide +kernel, fun other hpre _ => hpre.length_le⟩,
    by decide +kernel, by decide +kernel⟩

end Calculator
