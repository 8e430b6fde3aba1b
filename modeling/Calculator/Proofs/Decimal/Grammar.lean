/-
  The texts of unsigned decimals: a mantissa, which is digits with a point before, among or after
  them or without one, and an exponent if there is one. A run of numerals is a mantissa if it has a
  digit and no second point (`mem_mantissa_iff`). Of any text, the reader takes the longest part at
  its head that is a decimal, and reads that as it would alone (`read?_of_isLongestPrefix`); it
  finds one wherever there is one (`exists_mantissa_of_read?`).
-/
import Mathlib.Data.List.TakeWhile
import Calculator.Proofs.Decimal.Reader
import Calculator.Proofs.Text.Pattern
import Calculator.Token.Lexer

namespace Calculator

open RegularExpression

namespace Pattern

/-- `digits [. digits?] | . digits` -/
def mantissa : Pattern := digits * optional (char '.' * star digit) + char '.' * digits

/-- `+` or `-` -/
def sign : Pattern := anyOf ['+', '-']

/-- `[eE] sign? digits` -/
def exponentPart : Pattern := anyOf ['e', 'E'] * (optional sign * digits)

/-- `mantissa exponentPart?` -/
def decimal : Pattern := mantissa * optional exponentPart

end Pattern

open Pattern

namespace Decimal

/-! ## Mantissas -/

section Mantissa

variable {s rest : List Char}

theorem mem_mantissa_cases : s ∈ mantissa.matches' ↔
    (s ≠ [] ∧ ∀ c ∈ s, c.isDigit = true) ∨
      ∃ whole fraction, s = whole ++ '.' :: fraction ∧ (whole ≠ [] ∨ fraction ≠ []) ∧
        (∀ c ∈ whole, c.isDigit = true) ∧ ∀ c ∈ fraction, c.isDigit = true := by
  have hpoint : ∀ {t : List Char}, t ∈ (char '.' : Pattern).matches' ↔ t = ['.'] := Iff.rfl
  simp only [mantissa, mem_add, mem_mul, mem_optional, mem_star_digit, mem_digits, hpoint]
  constructor
  · rintro (⟨whole, ⟨hne, hwhole⟩, _, rfl | ⟨_, rfl, fraction, hfraction, rfl⟩, rfl⟩ |
      ⟨_, rfl, fraction, ⟨hne, hfraction⟩, rfl⟩)
    · exact .inl ⟨by simpa using hne, by simpa using hwhole⟩
    · exact .inr ⟨whole, fraction, rfl, .inl hne, hwhole, hfraction⟩
    · exact .inr ⟨[], fraction, rfl, .inr hne, by simp, hfraction⟩
  · rintro (⟨hne, hs⟩ | ⟨whole, fraction, rfl, hnum, hwhole, hfraction⟩)
    · exact .inl ⟨s, ⟨hne, hs⟩, [], .inl rfl, List.append_nil s⟩
    · by_cases hne : whole = []
      · have hfractionNe : fraction ≠ [] := hnum.resolve_left (not_not_intro hne)
        exact .inr ⟨['.'], rfl, fraction, ⟨hfractionNe, hfraction⟩, by rw [hne]; rfl⟩
      · exact .inl ⟨whole, ⟨hne, hwhole⟩, '.' :: fraction,
          .inr ⟨['.'], rfl, fraction, hfraction, rfl⟩, rfl⟩

theorem count_point_of_isDigit (h : ∀ c ∈ s, c.isDigit = true) : s.count '.' = 0 := by
  refine List.count_eq_zero.2 fun hpoint => ?_
  exact absurd (h '.' hpoint) (by decide)

theorem isDigit_of_isNumeral {c : Char} (h : isNumeral c = true) (hc : c ≠ '.') :
    c.isDigit = true := by
  simpa [isNumeral, hc] using h

theorem ne_sign_of_isNumeral {c : Char} (h : isNumeral c = true) : c ≠ '-' ∧ c ≠ '+' := by
  constructor
  · rintro rfl
    exact absurd h (by decide)
  · rintro rfl
    exact absurd h (by decide)

@[simp] theorem isNumeral_of_isDigit {c : Char} (h : c.isDigit = true) : isNumeral c = true := by
  simp [isNumeral, h]

/-- Which runs of numerals can be read. -/
theorem mem_mantissa_iff : s ∈ mantissa.matches' ↔
    (∀ c ∈ s, isNumeral c = true) ∧ (∃ c ∈ s, c.isDigit = true) ∧ s.count '.' ≤ 1 := by
  rw [mem_mantissa_cases]
  constructor
  · rintro (⟨hne, hs⟩ | ⟨whole, fraction, rfl, hnum, hwhole, hfraction⟩)
    · obtain ⟨c, hc⟩ := List.exists_mem_of_ne_nil s hne
      exact ⟨fun c hc => isNumeral_of_isDigit (hs c hc), ⟨c, hc, hs c hc⟩,
        by simp [count_point_of_isDigit hs]⟩
    · have hall : ∀ c ∈ whole ++ fraction, c.isDigit = true :=
        List.forall_mem_append.2 ⟨hwhole, hfraction⟩
      have hne : whole ++ fraction ≠ [] := by simpa [or_iff_not_imp_left] using hnum
      obtain ⟨c, hc⟩ := List.exists_mem_of_ne_nil _ hne
      refine ⟨?_, ⟨c, ?_, hall c hc⟩, ?_⟩
      · rw [List.forall_mem_append, List.forall_mem_cons]
        exact ⟨fun c hc => isNumeral_of_isDigit (hwhole c hc), by decide,
          fun c hc => isNumeral_of_isDigit (hfraction c hc)⟩
      · rcases List.mem_append.1 hc with hc | hc
        · exact List.mem_append_left _ hc
        · exact List.mem_append_right _ (List.mem_cons_of_mem _ hc)
      · simp [count_point_of_isDigit hwhole, count_point_of_isDigit hfraction]
  · rintro ⟨hs, ⟨d, hd, hdigit⟩, hcount⟩
    by_cases hpoint : '.' ∈ s
    · obtain ⟨whole, fraction, rfl⟩ := List.append_of_mem hpoint
      rw [List.count_append, List.count_cons_self] at hcount
      have hnotWhole : '.' ∉ whole := List.count_eq_zero.1 (by omega)
      have hnotFraction : '.' ∉ fraction := List.count_eq_zero.1 (by omega)
      rw [List.forall_mem_append, List.forall_mem_cons] at hs
      refine .inr ⟨whole, fraction, rfl, ?_, ?_, ?_⟩
      · rcases List.mem_append.1 hd with hd | hd
        · exact .inl (List.ne_nil_of_mem hd)
        · rcases List.mem_cons.1 hd with rfl | hd
          · exact absurd hdigit (by decide)
          · exact .inr (List.ne_nil_of_mem hd)
      · exact fun c hc => isDigit_of_isNumeral (hs.1 c hc) fun heq => hnotWhole (heq ▸ hc)
      · exact fun c hc => isDigit_of_isNumeral (hs.2.2 c hc) fun heq => hnotFraction (heq ▸ hc)
    · exact .inl ⟨List.ne_nil_of_mem hd,
        fun c hc => isDigit_of_isNumeral (hs c hc) fun heq => hpoint (heq ▸ hc)⟩

/-- The number that digits with at most one point among them stand for. -/
def ofPositions (s : List Char) : Decimal :=
  ⟨Nat.ofDigitChars 10 (s.filter Char.isDigit) 0, -((s.dropWhile (· ≠ '.')).length - 1 : ℕ)⟩

theorem ofPositions_whole (hs : ∀ c ∈ s, c.isDigit = true) :
    ofPositions s = ⟨Nat.ofDigitChars 10 s 0, 0⟩ := by
  have hfilter : s.filter Char.isDigit = s := List.filter_eq_self.2 hs
  have hdrop : s.dropWhile (· ≠ '.') = [] := by
    rw [List.dropWhile_eq_nil_iff]
    intro c hc
    have hne : c ≠ '.' := by
      rintro rfl
      exact absurd (hs '.' hc) (by decide)
    simpa using hne
  rw [ofPositions, hfilter, hdrop]
  rfl

theorem ofPositions_point {whole fraction : List Char} (hwhole : ∀ c ∈ whole, c.isDigit = true)
    (hfraction : ∀ c ∈ fraction, c.isDigit = true) :
    ofPositions (whole ++ '.' :: fraction) =
      ⟨Nat.ofDigitChars 10 (whole ++ fraction) 0, -fraction.length⟩ := by
  have hfilter : (whole ++ '.' :: fraction).filter Char.isDigit = whole ++ fraction := by
    rw [List.filter_append, List.filter_cons_of_neg (by decide), List.filter_eq_self.2 hwhole,
      List.filter_eq_self.2 hfraction]
  have hdrop : (whole ++ '.' :: fraction).dropWhile (· ≠ '.') = '.' :: fraction := by
    rw [List.dropWhile_append_of_pos]
    · simp
    · intro c hc
      have hne : c ≠ '.' := by
        rintro rfl
        exact absurd (hwhole '.' hc) (by decide)
      simpa using hne
  rw [ofPositions, hfilter, hdrop]
  simp

/-- A mantissa is read to its end where no digit follows, and no first point. -/
theorem read?_mantissa_append (hs : s ∈ mantissa.matches')
    (hrest : ∀ c ∈ rest.head?, c.isDigit = false ∧ (c = '.' → '.' ∈ s)) :
    read? (s ++ rest) =
      some (⟨(ofPositions s).digits, (ofPositions s).exponent + (readExponent rest).1⟩,
        (readExponent rest).2) := by
  rcases mem_mantissa_cases.1 hs with
    ⟨hne, hdigits⟩ | ⟨whole, fraction, rfl, hnum, hwhole, hfraction⟩
  · have hpoint : '.' ∉ s := List.count_eq_zero.1 (count_point_of_isDigit hdigits)
    have hend : ∀ c ∈ rest.head?, c.isDigit = false ∧ c ≠ '.' := fun c hc =>
      ⟨(hrest c hc).1, fun heq => hpoint ((hrest c hc).2 heq)⟩
    rw [read?_whole_append hdigits hne hend, ofPositions_whole hdigits, Int.zero_add]
  · rw [List.append_assoc, List.cons_append,
      read?_point_append hwhole hnum hfraction fun c hc => (hrest c hc).1,
      ofPositions_point hwhole hfraction, Int.sub_eq_add_neg, Int.add_comm]

theorem read?_mantissa (hs : s ∈ mantissa.matches') : read? s = some (ofPositions s, []) := by
  have hread : read? (s ++ []) =
      some (⟨(ofPositions s).digits, (ofPositions s).exponent + 0⟩, []) :=
    read?_mantissa_append hs (by simp)
  rwa [List.append_nil, Int.add_zero] at hread

/-- Where the longest mantissa ends. -/
theorem head?_of_isLongestPrefix (h : IsLongestPrefix mantissa s (s ++ rest)) :
    ∀ c ∈ rest.head?, c.isDigit = false ∧ (c = '.' → '.' ∈ s) := by
  intro c hc
  obtain ⟨more, rfl⟩ := List.head?_eq_some_iff.1 hc
  obtain ⟨hnum, ⟨d, hd, hdigit⟩, hcount⟩ := mem_mantissa_iff.1 h.mem
  have hlonger : s ++ [c] ∉ mantissa.matches' := h.append_not_mem ⟨more, rfl⟩ (by simp)
  have hdigitAfter : isNumeral c = true → (s ++ [c]).count '.' ≤ 1 → False := by
    intro hc hle
    refine hlonger (mem_mantissa_iff.2 ⟨?_, ⟨d, List.mem_append_left _ hd, hdigit⟩, hle⟩)
    exact List.forall_mem_append.2 ⟨hnum, by simpa using hc⟩
  constructor
  · by_contra hdigitC
    rw [Bool.not_eq_false] at hdigitC
    refine hdigitAfter (isNumeral_of_isDigit hdigitC) ?_
    rw [List.count_append, count_point_of_isDigit (s := [c]) (by simpa using hdigitC)]
    exact hcount
  · rintro rfl
    by_contra hnot
    refine hdigitAfter (by decide) ?_
    simp [List.count_eq_zero.2 hnot]

theorem exists_mantissa_of_read? {cs : List Char} {d : Decimal} (h : read? cs = some (d, rest)) :
    ∃ part, part <+: cs ∧ part ∈ mantissa.matches' := by
  have hdigits : ∀ ds : List Char, ∀ c ∈ leadingDigits ds, c.isDigit = true :=
    fun ds c => isDigit_of_mem_leadingDigits
  rcases opensWithDigit_of_read? h with hwhole | ⟨more, rfl, hfraction⟩
  · exact ⟨leadingDigits cs, List.takeWhile_prefix _,
      mem_mantissa_cases.2 (.inl ⟨hwhole, hdigits cs⟩)⟩
  · refine ⟨'.' :: leadingDigits more, ?_, ?_⟩
    · exact (List.prefix_cons_inj '.').2 (List.takeWhile_prefix _)
    · exact mem_mantissa_cases.2
        (.inr ⟨[], leadingDigits more, rfl, .inr hfraction, by simp, hdigits more⟩)

end Mantissa

/-! ## Signs and exponents -/

section Exponent

variable {s rest : List Char}

theorem readSign_append (hs : s ∈ (optional sign).matches')
    (hrest : ∀ c ∈ rest.head?, c ≠ '-' ∧ c ≠ '+') :
    readSign (s ++ rest) = (decide (s = ['-']), rest) := by
  rcases mem_optional.1 hs with rfl | hsign
  · cases rest with
    | nil => rfl
    | cons c rest => exact readSign_cons (hrest c rfl).1 (hrest c rfl).2 rest
  · obtain ⟨c, hc, rfl⟩ := mem_anyOf.1 hsign
    simp only [List.mem_cons, List.not_mem_nil, or_false] at hc
    rcases hc with rfl | rfl <;> rfl

theorem exists_readSign (cs : List Char) :
    ∃ s ∈ (optional sign).matches', cs = s ++ (readSign cs).2 := by
  unfold readSign
  split
  · exact ⟨['-'], by decide, rfl⟩
  · exact ⟨['+'], by decide, rfl⟩
  · exact ⟨[], by decide, rfl⟩

theorem mem_exponentPart : s ∈ exponentPart.matches' ↔ ∃ mark signText ds,
    (mark = 'e' ∨ mark = 'E') ∧ signText ∈ (optional sign).matches' ∧
      (ds ≠ [] ∧ ∀ c ∈ ds, c.isDigit = true) ∧ s = mark :: (signText ++ ds) := by
  simp only [exponentPart, mem_mul, mem_digits, mem_anyOf]
  constructor
  · rintro ⟨_, ⟨mark, hmark, rfl⟩, _, ⟨signText, hsign, ds, hds, rfl⟩, rfl⟩
    exact ⟨mark, signText, ds, by simpa using hmark, hsign, hds, rfl⟩
  · rintro ⟨mark, signText, ds, hmark, hsign, hds, rfl⟩
    exact ⟨[mark], ⟨mark, by simpa using hmark, rfl⟩, signText ++ ds,
      ⟨signText, hsign, ds, hds, rfl⟩, rfl⟩

/-- The mark of an exponent does not go on with the mantissa. -/
theorem exists_cons_of_mem_exponentPart (hs : s ∈ exponentPart.matches') :
    ∃ mark cs, s = mark :: cs ∧ mark.isDigit = false ∧ mark ≠ '.' := by
  obtain ⟨mark, signText, ds, hmark, -, -, rfl⟩ := mem_exponentPart.1 hs
  refine ⟨mark, _, rfl, ?_⟩
  rcases hmark with rfl | rfl
  · decide
  · decide

theorem head?_of_isDigit {ds : List Char} (hne : ds ≠ []) (hds : ∀ c ∈ ds, c.isDigit = true) :
    ∀ c ∈ (ds ++ rest).head?, c ≠ '-' ∧ c ≠ '+' := by
  intro c hc
  rw [List.head?_append_of_ne_nil _ hne] at hc
  exact ne_sign_of_isDigit (hds c (List.mem_of_mem_head? hc))

/-- An exponent is read to its end where no digit follows. -/
theorem readExponent_exponentPart_append (hs : s ∈ exponentPart.matches') :
    ∃ value, ∀ rest : List Char, (∀ c ∈ rest.head?, c.isDigit = false) →
      readExponent (s ++ rest) = (value, rest) := by
  obtain ⟨mark, signText, ds, hmark, hsign, ⟨hne, hds⟩, rfl⟩ := mem_exponentPart.1 hs
  refine ⟨if decide (signText = ['-']) then -(Nat.ofDigitChars 10 ds 0 : Int)
    else Nat.ofDigitChars 10 ds 0, ?_⟩
  intro rest hrest
  have hread : readSign (signText ++ (ds ++ rest)) = (decide (signText = ['-']), ds ++ rest) :=
    readSign_append hsign (head?_of_isDigit hne hds)
  rw [List.cons_append, List.append_assoc]
  exact readExponent_of_readSign hmark hread hne hds hrest

theorem readExponent_eq_zero {cs : List Char}
    (h : ∀ part, part <+: cs → part ∉ exponentPart.matches') : readExponent cs = (0, cs) := by
  cases cs with
  | nil => rfl
  | cons mark cs =>
    simp only [readExponent]
    refine if_neg ?_
    rintro ⟨hmark, hne⟩
    obtain ⟨signText, hsign, heq⟩ := exists_readSign cs
    refine h (mark :: (signText ++ leadingDigits (readSign cs).2)) ?_
      (mem_exponentPart.2 ⟨mark, signText, _, hmark, hsign,
        ⟨hne, fun c => isDigit_of_mem_leadingDigits⟩, rfl⟩)
    rw [List.prefix_cons_inj]
    conv => rhs; rw [heq]
    exact (List.prefix_append_right_inj signText).2 (List.takeWhile_prefix _)

theorem exponentPart_append_digit {c : Char} (hs : s ∈ exponentPart.matches')
    (hc : c.isDigit = true) : s ++ [c] ∈ exponentPart.matches' := by
  obtain ⟨mark, signText, ds, hmark, hsign, ⟨hne, hds⟩, rfl⟩ := mem_exponentPart.1 hs
  refine mem_exponentPart.2 ⟨mark, signText, ds ++ [c], hmark, hsign, ⟨by simp, ?_⟩, by simp⟩
  exact List.forall_mem_append.2 ⟨hds, by simpa using hc⟩

end Exponent

/-! ## The longest decimal -/

theorem mem_decimal_of_mem_mantissa {s : List Char} (hs : s ∈ mantissa.matches') :
    s ∈ decimal.matches' :=
  mem_mul.2 ⟨s, hs, [], .inl rfl, List.append_nil s⟩

theorem read?_of_isLongestPrefix {part rest : List Char}
    (h : IsLongestPrefix decimal part (part ++ rest)) :
    ∃ d, read? part = some (d, []) ∧ read? (part ++ rest) = some (d, rest) := by
  obtain ⟨s, hs, e, he, rfl⟩ := mem_mul.1 h.mem
  rcases mem_optional.1 he with rfl | he
  · rw [List.append_nil] at h ⊢
    have hlongest : IsLongestPrefix mantissa s (s ++ rest) :=
      h.of_imp hs fun other => mem_decimal_of_mem_mantissa
    have hnone : readExponent rest = (0, rest) := by
      refine readExponent_eq_zero fun e hpre he => ?_
      obtain ⟨mark, cs, rfl, -⟩ := exists_cons_of_mem_exponentPart he
      exact h.append_not_mem hpre (by simp) (mem_mul.2 ⟨s, hs, _, .inr he, rfl⟩)
    have hread := read?_mantissa_append hs (head?_of_isLongestPrefix hlongest)
    rw [hnone, Int.add_zero] at hread
    exact ⟨ofPositions s, read?_mantissa hs, hread⟩
  · obtain ⟨value, hvalue⟩ := readExponent_exponentPart_append he
    have hrest : ∀ c ∈ rest.head?, c.isDigit = false := by
      intro c hc
      by_contra hdigit
      obtain ⟨more, rfl⟩ := List.head?_eq_some_iff.1 hc
      have hlonger := exponentPart_append_digit he (Bool.not_eq_false _ ▸ hdigit)
      exact h.append_not_mem ⟨more, rfl⟩ (by simp)
        (mem_mul.2 ⟨s, hs, e ++ [c], .inr hlonger, (List.append_assoc s e [c]).symm⟩)
    have hmark : ∀ more : List Char, ∀ c ∈ (e ++ more).head?,
        c.isDigit = false ∧ (c = '.' → '.' ∈ s) := by
      intro more c hc
      obtain ⟨mark, cs, rfl, hdigit, hpoint⟩ := exists_cons_of_mem_exponentPart he
      obtain rfl : mark = c := Option.some.inj hc
      exact ⟨hdigit, fun heq => absurd heq hpoint⟩
    have hread := read?_mantissa_append hs (hmark rest)
    have halone := read?_mantissa_append hs (hmark [])
    rw [hvalue [] (by simp), List.append_nil] at halone
    rw [hvalue rest hrest, ← List.append_assoc] at hread
    exact ⟨_, halone, hread⟩

/-- What is read is a decimal, and it is read the same alone. -/
theorem exists_decimal_of_read? {cs rest : List Char} {d : Decimal} (h : read? cs = some (d, rest)) :
    ∃ part ∈ decimal.matches', cs = part ++ rest ∧ read? part = some (d, []) := by
  obtain ⟨m, hpre, hm⟩ := exists_mantissa_of_read? h
  obtain ⟨part, hlongest⟩ := exists_isLongestPrefix ⟨m, hpre, mem_decimal_of_mem_mantissa hm⟩
  obtain ⟨after, rfl⟩ := hlongest.isPrefix
  obtain ⟨e, halone, hread⟩ := read?_of_isLongestPrefix hlongest
  obtain ⟨rfl, rfl⟩ := Prod.mk.inj (Option.some.inj (hread.symm.trans h))
  exact ⟨part, hlongest.mem, rfl, halone⟩

/-- The decimals are the texts that the reader takes as a whole. -/
theorem exists_read?_iff {cs : List Char} :
    (∃ d, read? cs = some (d, [])) ↔ cs ∈ decimal.matches' := by
  constructor
  · rintro ⟨d, hd⟩
    obtain ⟨part, hmem, rfl, -⟩ := exists_decimal_of_read? hd
    rwa [List.append_nil]
  · intro hcs
    have hlongest : IsLongestPrefix decimal cs (cs ++ []) :=
      ⟨List.prefix_append cs [], hcs, fun other hpre _ => by simpa using hpre.length_le⟩
    obtain ⟨d, hd, -⟩ := read?_of_isLongestPrefix hlongest
    exact ⟨d, hd⟩

/-! ## Runs of numerals -/

section Numerals

variable {s : List Char} (hne : s ≠ []) (hs : ∀ c ∈ s, isNumeral c = true)

include hs in
theorem mem_mantissa_of_mem_decimal (h : s ∈ decimal.matches') : s ∈ mantissa.matches' := by
  obtain ⟨m, hm, e, he, rfl⟩ := mem_mul.1 h
  rcases mem_optional.1 he with rfl | he
  · rwa [List.append_nil]
  · obtain ⟨mark, signText, ds, hmark, -, -, rfl⟩ := mem_exponentPart.1 he
    have hnum := hs mark (by simp)
    rcases hmark with rfl | rfl
    · exact absurd hnum (by decide)
    · exact absurd hnum (by decide)

theorem toLower_of_isNumeral {c : Char} (h : isNumeral c = true) : c.toLower = c := by
  by_cases hc : c = '.'
  · rw [hc]
    rfl
  · have hdigit := mem_digit_iff.2 (isDigit_of_isNumeral h hc)
    simp only [List.mem_cons, List.not_mem_nil, or_false] at hdigit
    rcases hdigit with rfl | rfl | rfl | rfl | rfl | rfl | rfl | rfl | rfl | rfl <;> rfl

include hne hs

/-- No name starts with a numeral. -/
theorem readName?_numerals : readName? s = none := by
  obtain ⟨c, cs, rfl⟩ := List.exists_cons_of_ne_nil hne
  have hc : isNumeral c = true := hs c (by simp)
  refine readName?_eq_none fun name hname heq => ?_
  have hletter : ∀ name ∈ ["inf".toList, "infinity".toList, "nan".toList],
      ∀ d ∈ name.head?, isNumeral d = false := by simp [isNumeral]
  have hfirst := hletter name hname c (by rw [← heq, List.map_cons, toLower_of_isNumeral hc]; rfl)
  rw [hc] at hfirst
  cases hfirst

theorem readSign_numerals : readSign s = (false, s) := by
  obtain ⟨c, cs, rfl⟩ := List.exists_cons_of_ne_nil hne
  obtain ⟨hminus, hplus⟩ := ne_sign_of_isNumeral (hs c List.mem_cons_self)
  exact readSign_cons hminus hplus cs

/-- A run of numerals has a value if it is a mantissa, and then that of its positions. -/
theorem readLiteral?_numerals [Decidable (s ∈ mantissa.matches')] : readLiteral? s =
    if s ∈ mantissa.matches' then some (ofPositions s).toBinary64 else none := by
  have hread : readLiteral? s = readUnsigned? s := by
    simp [readLiteral?, readSign_numerals hne hs]
  rw [hread, readUnsigned?]
  split_ifs with hmantissa
  · rw [read?_mantissa hmantissa]
  · have hnone : ∀ d, read? s ≠ some (d, []) := fun d hd =>
      hmantissa (mem_mantissa_of_mem_decimal hs (exists_read?_iff.1 ⟨d, hd⟩))
    rw [readName?_numerals hne hs]
    split
    · rename_i d hd
      exact absurd hd (hnone d)
    · rfl

end Numerals

end Decimal

end Calculator
