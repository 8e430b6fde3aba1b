/-
  Reading a number in front of other text. `Mantissa` is a number written out in positions: digits,
  and after a point more digits if there are any. It is read up to its last digit, whatever
  follows, as long as that does not go on with it (`read?_text_append`); an exponent that follows
  is added to that of the digits. With nothing behind it, it is a literal (`readLiteral?_text`).
-/
import Mathlib.Data.List.Basic
import Calculator.Decimal.Reader

namespace Calculator.Decimal

/-- The characters with which a number that has been read could go on. -/
def continuesNumber (c : Char) : Bool := c.isDigit || c ∈ ['.', 'e', 'E']

/-! ## Digits -/

section Digits

variable {ds rest : List Char}

theorem leadingDigits_append (hds : ∀ c ∈ ds, c.isDigit = true)
    (hrest : ∀ c ∈ rest.head?, c.isDigit = false) : leadingDigits (ds ++ rest) = ds := by
  rw [leadingDigits, List.takeWhile_append_of_pos hds]
  cases rest with
  | nil => simp
  | cons c rest => simp [hrest c rfl]

theorem afterDigits_append (hds : ∀ c ∈ ds, c.isDigit = true)
    (hrest : ∀ c ∈ rest.head?, c.isDigit = false) : afterDigits (ds ++ rest) = rest := by
  rw [afterDigits, List.dropWhile_append_of_pos hds]
  cases rest with
  | nil => rfl
  | cons c rest => simp [hrest c rfl]

theorem head?_afterDigits (cs : List Char) : ∀ c ∈ (afterDigits cs).head?, c.isDigit = false := by
  intro c hc
  have hnot := List.head?_dropWhile_not Char.isDigit cs
  rw [← afterDigits, Option.mem_def.1 hc] at hnot
  simpa using hnot

theorem afterDigits_eq_self {cs : List Char} (h : leadingDigits cs = []) : afterDigits cs = cs := by
  have happend := leadingDigits_append_afterDigits cs
  rwa [h] at happend

/-! ## Sign, fraction, exponent and name -/

@[simp] theorem readSign_cons {c : Char} (hminus : c ≠ '-') (hplus : c ≠ '+') (cs : List Char) :
    readSign (c :: cs) = (false, c :: cs) := by
  unfold readSign
  split
  · rename_i heq
    exact absurd (List.cons.inj heq).1 hminus
  · rename_i heq
    exact absurd (List.cons.inj heq).1 hplus
  · rfl

theorem readFraction_of_head {hasWhole : Bool} (h : ∀ c ∈ rest.head?, c ≠ '.') :
    readFraction hasWhole rest = ([], rest) := by
  unfold readFraction
  split
  · exact absurd rfl (h '.' rfl)
  · rfl

theorem readFraction_point {hasWhole : Bool} (hnum : hasWhole = true ∨ ds ≠ [])
    (hds : ∀ c ∈ ds, c.isDigit = true) (hrest : ∀ c ∈ rest.head?, c.isDigit = false) :
    readFraction hasWhole ('.' :: (ds ++ rest)) = (ds, rest) := by
  simp only [readFraction, leadingDigits_append hds hrest, afterDigits_append hds hrest]
  exact if_pos (by simpa using hnum)

theorem readExponent_of_head (h : ∀ c ∈ rest.head?, c ≠ 'e' ∧ c ≠ 'E') :
    readExponent rest = (0, rest) := by
  cases rest with
  | nil => rfl
  | cons c rest => simp [readExponent, h c rfl]

theorem readExponent_of_readSign {mark : Char} {cs : List Char} {negative : Bool}
    (hmark : mark = 'e' ∨ mark = 'E') (hsign : readSign cs = (negative, ds ++ rest)) (hne : ds ≠ [])
    (hds : ∀ c ∈ ds, c.isDigit = true) (hrest : ∀ c ∈ rest.head?, c.isDigit = false) :
    readExponent (mark :: cs) =
      (if negative then -(Nat.ofDigitChars 10 ds 0 : Int) else Nat.ofDigitChars 10 ds 0, rest) := by
  have hdigits := leadingDigits_append hds hrest
  have hafter := afterDigits_append hds hrest
  simp [readExponent, hsign, hdigits, hafter, hne, hmark]

theorem readExponent_append (negative : Bool) (hne : ds ≠ [])
    (hds : ∀ c ∈ ds, c.isDigit = true) (hrest : ∀ c ∈ rest.head?, c.isDigit = false) :
    readExponent ('e' :: (if negative then '-' else '+') :: (ds ++ rest)) =
      (if negative then -(Nat.ofDigitChars 10 ds 0 : Int) else Nat.ofDigitChars 10 ds 0, rest) := by
  have hsign : readSign ((if negative then '-' else '+') :: (ds ++ rest)) =
      (negative, ds ++ rest) := by
    cases negative <;> rfl
  exact readExponent_of_readSign (.inl rfl) hsign hne hds hrest

end Digits

theorem readName?_eq_none {cs : List Char}
    (h : ∀ name ∈ ["inf".toList, "infinity".toList, "nan".toList], cs.map Char.toLower ≠ name) :
    readName? cs = none := by
  unfold readName?
  simp only
  rw [if_neg, if_neg]
  · exact h _ (by simp)
  · rintro (heq | heq)
    · exact h _ (by simp) heq
    · exact h _ (by simp) heq

/-! ## Whole numbers and fractions -/

/-- Digits in positions: those before the point, of which there is one at least, and those after
it. -/
structure Mantissa where
  whole : List Char
  fraction : List Char
  whole_ne_nil : whole ≠ []
  isDigit_whole : ∀ c ∈ whole, c.isDigit = true
  isDigit_fraction : ∀ c ∈ fraction, c.isDigit = true

namespace Mantissa

/-- The point is left out if nothing follows it. -/
def text (m : Mantissa) : List Char :=
  if m.fraction = [] then m.whole else m.whole ++ '.' :: m.fraction

def toDecimal (m : Mantissa) : Decimal :=
  ⟨Nat.ofDigitChars 10 (m.whole ++ m.fraction) 0, -m.fraction.length⟩

theorem exists_cons_text (m : Mantissa) : ∃ c cs, m.text = c :: cs ∧ c.isDigit = true := by
  obtain ⟨c, cs, hwhole⟩ := List.exists_cons_of_ne_nil m.whole_ne_nil
  have hc : c.isDigit = true := m.isDigit_whole c (by simp [hwhole])
  unfold text
  split_ifs
  · exact ⟨c, cs, hwhole, hc⟩
  · exact ⟨c, cs ++ '.' :: m.fraction, by simp [hwhole], hc⟩

theorem mem_text {m : Mantissa} {c : Char} (h : c ∈ m.text) : c.isDigit = true ∨ c = '.' := by
  unfold text at h
  split_ifs at h
  · exact .inl (m.isDigit_whole c h)
  · rcases List.mem_append.1 h with h | h
    · exact .inl (m.isDigit_whole c h)
    · rcases List.mem_cons.1 h with h | h
      · exact .inr h
      · exact .inl (m.isDigit_fraction c h)

end Mantissa

section Positions

variable {whole fraction rest : List Char} (hwhole : ∀ c ∈ whole, c.isDigit = true)
include hwhole

/-- Digits without a point. -/
theorem read?_whole_append (hne : whole ≠ [])
    (hrest : ∀ c ∈ rest.head?, c.isDigit = false ∧ c ≠ '.') :
    read? (whole ++ rest) =
      some (⟨Nat.ofDigitChars 10 whole 0, (readExponent rest).1⟩, (readExponent rest).2) := by
  have hdigit : ∀ c ∈ rest.head?, c.isDigit = false := fun c hc => (hrest c hc).1
  have hfraction : readFraction (!whole.isEmpty) rest = ([], rest) :=
    readFraction_of_head fun c hc => (hrest c hc).2
  simp [read?, leadingDigits_append hwhole hdigit, afterDigits_append hwhole hdigit, hfraction, hne]

/-- Digits with a point before, among or after them. -/
theorem read?_point_append (hnum : whole ≠ [] ∨ fraction ≠ [])
    (hfraction : ∀ c ∈ fraction, c.isDigit = true)
    (hrest : ∀ c ∈ rest.head?, c.isDigit = false) :
    read? (whole ++ '.' :: (fraction ++ rest)) =
      some (⟨Nat.ofDigitChars 10 (whole ++ fraction) 0,
        (readExponent rest).1 - fraction.length⟩, (readExponent rest).2) := by
  have hpoint : ∀ c ∈ ('.' :: (fraction ++ rest)).head?, c.isDigit = false := by simp
  have hread : readFraction (!whole.isEmpty) ('.' :: (fraction ++ rest)) = (fraction, rest) :=
    readFraction_point (by simpa using hnum) hfraction hrest
  have hsome : ¬ (whole = [] ∧ fraction = []) := by tauto
  simp [read?, leadingDigits_append hwhole hpoint, afterDigits_append hwhole hpoint, hread, hsome]

end Positions

/-! ## Where a digit is -/

section OpensWithDigit

variable {cs : List Char}

/-- A digit comes first, or a point and a digit. -/
def OpensWithDigit (cs : List Char) : Prop :=
  leadingDigits cs ≠ [] ∨ ∃ more, cs = '.' :: more ∧ leadingDigits more ≠ []

theorem not_opensWithDigit_iff : ¬ OpensWithDigit cs ↔
    leadingDigits cs = [] ∧ ∀ more, cs = '.' :: more → leadingDigits more = [] := by
  simp [OpensWithDigit]

/-- A decimal is read wherever there is a digit. -/
theorem read?_eq_none_iff : read? cs = none ↔ ¬ OpensWithDigit cs := by
  constructor
  · rintro hnone (hwhole | ⟨more, rfl, hfraction⟩)
    · simp [read?, hwhole] at hnone
    · have hempty : ∀ c ∈ ([] : List Char), c.isDigit = true := by simp
      have hread := read?_point_append hempty (.inr hfraction)
        (fun c => isDigit_of_mem_leadingDigits) (head?_afterDigits more)
      rw [List.nil_append, leadingDigits_append_afterDigits, hnone] at hread
      cases hread
  · intro hnot
    obtain ⟨hwhole, hpoint⟩ := not_opensWithDigit_iff.1 hnot
    have hfraction : (readFraction false cs).1 = [] := by
      unfold readFraction
      split
      · rename_i more
        simp [hpoint more rfl]
      · rfl
    simp [read?, hwhole, afterDigits_eq_self hwhole, hfraction]

theorem opensWithDigit_of_read? {d : Decimal} {rest : List Char} (h : read? cs = some (d, rest)) :
    OpensWithDigit cs := by
  by_contra hnot
  rw [read?_eq_none_iff.2 hnot] at h
  cases h

theorem exists_read?_of_point {more : List Char} (hmore : afterDigits cs = '.' :: more)
    (hdigit : leadingDigits cs ≠ [] ∨ leadingDigits more ≠ []) :
    ∃ d, read? cs = some (d, (readExponent (afterDigits more)).2) := by
  have hcs : leadingDigits cs ++ '.' :: (leadingDigits more ++ afterDigits more) = cs := by
    rw [leadingDigits_append_afterDigits, ← hmore, leadingDigits_append_afterDigits]
  have hread := read?_point_append (fun c => isDigit_of_mem_leadingDigits) hdigit
    (fun c => isDigit_of_mem_leadingDigits) (head?_afterDigits more)
  rw [hcs] at hread
  exact ⟨_, hread⟩

theorem exists_read?_of_whole (hwhole : leadingDigits cs ≠ [])
    (hpoint : (afterDigits cs).head? ≠ some '.') :
    ∃ d, read? cs = some (d, (readExponent (afterDigits cs)).2) := by
  have hafter : ∀ c ∈ (afterDigits cs).head?, c.isDigit = false ∧ c ≠ '.' := fun c hc =>
    ⟨head?_afterDigits cs c hc, fun heq => hpoint (heq ▸ hc)⟩
  have hread := read?_whole_append (fun c => isDigit_of_mem_leadingDigits) hwhole hafter
  rw [leadingDigits_append_afterDigits] at hread
  exact ⟨_, hread⟩

end OpensWithDigit

theorem read?_text_append (m : Mantissa) {rest after : List Char} {exponent : Int}
    (hrest : ∀ c ∈ rest.head?, c.isDigit = false ∧ c ≠ '.')
    (hexponent : readExponent rest = (exponent, after)) :
    read? (m.text ++ rest) = some (⟨m.toDecimal.digits, m.toDecimal.exponent + exponent⟩, after) := by
  unfold Mantissa.text
  split_ifs with hnil
  · rw [read?_whole_append m.isDigit_whole m.whole_ne_nil hrest, hexponent]
    simp [Mantissa.toDecimal, hnil]
  · rw [List.append_assoc, List.cons_append, read?_point_append m.isDigit_whole
      (.inl m.whole_ne_nil) m.isDigit_fraction (fun c hc => (hrest c hc).1), hexponent,
      Int.sub_eq_add_neg, Int.add_comm]
    rfl

theorem continuesNumber_eq_false_iff {c : Char} :
    continuesNumber c = false ↔ c.isDigit = false ∧ c ≠ '.' ∧ c ≠ 'e' ∧ c ≠ 'E' := by
  simp [continuesNumber]

theorem read?_text (m : Mantissa) {rest : List Char}
    (hrest : ∀ c ∈ rest.head?, continuesNumber c = false) :
    read? (m.text ++ rest) = some (m.toDecimal, rest) := by
  simp only [continuesNumber_eq_false_iff] at hrest
  rw [read?_text_append m (fun c hc => ⟨(hrest c hc).1, (hrest c hc).2.1⟩)
    (readExponent_of_head fun c hc => (hrest c hc).2.2), Int.add_zero]

theorem ne_sign_of_isDigit {c : Char} (h : c.isDigit = true) : c ≠ '-' ∧ c ≠ '+' := by
  constructor
  · rintro rfl
    exact absurd h (by decide)
  · rintro rfl
    exact absurd h (by decide)

theorem readLiteral?_text (m : Mantissa) : readLiteral? m.text = some m.toDecimal.toBinary64 := by
  have hread : read? (m.text ++ []) = some (m.toDecimal, []) := read?_text m (by simp)
  rw [List.append_nil] at hread
  obtain ⟨c, cs, htext, hc⟩ := m.exists_cons_text
  obtain ⟨hminus, hplus⟩ := ne_sign_of_isDigit hc
  have hsign : readSign m.text = (false, m.text) := by simp [htext, hminus, hplus]
  simp [readLiteral?, hsign, readUnsigned?, hread]

end Calculator.Decimal
