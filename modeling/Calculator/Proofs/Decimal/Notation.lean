/-
  The two notations of a decimal. In positions, a number is written without a zero in front of its
  other digits and without one at the end of its fraction (`print_mem_positional`); with an
  exponent, it is a digit other than zero, a fraction of that kind or none, and an exponent with its
  sign and without zeros in front (`exists_print_scientific`).
-/
import Calculator.Proofs.Decimal.Grammar
import Calculator.Proofs.Decimal.Printer

namespace Calculator

open RegularExpression

namespace Pattern

/-- `[1-9] [0-9]*` -/
def positiveWhole : Pattern := nonzeroDigit * star digit

/-- `. [0-9]* [1-9]` -/
def trimmedFraction : Pattern := char '.' * (star digit * nonzeroDigit)

/-- `(0 | [1-9] [0-9]*) (. [0-9]* [1-9])?` -/
def positional : Pattern := (char '0' + positiveWhole) * optional trimmedFraction

/-- `[1-9] (. [0-9]* [1-9])?` -/
def normalized : Pattern := nonzeroDigit * optional trimmedFraction

/-- `e [+-] [1-9] [0-9]*` -/
def writtenExponent : Pattern := char 'e' * (sign * positiveWhole)

/-! ## Digits without zeros at an end -/

section Digits

variable {s : List Char} (hne : s ≠ []) (hs : ∀ c ∈ s, c.isDigit = true)
include hne hs

theorem mem_positiveWhole (hhead : ∀ c ∈ s.head?, c ≠ '0') : s ∈ positiveWhole.matches' := by
  obtain ⟨first, rest, rfl⟩ := List.exists_cons_of_ne_nil hne
  obtain ⟨hfirst, hrest⟩ := List.forall_mem_cons.1 hs
  exact mem_mul.2 ⟨[first], mem_nonzeroDigit.2 ⟨first, ⟨hfirst, hhead first rfl⟩, rfl⟩, rest,
    mem_star_digit.2 hrest, rfl⟩

theorem mem_trimmedFraction (hlast : ∀ c ∈ s.getLast?, c ≠ '0') :
    '.' :: s ∈ trimmedFraction.matches' := by
  obtain rfl | ⟨front, last, rfl⟩ := List.eq_nil_or_concat' s
  · exact absurd rfl hne
  · obtain ⟨hfront, hdigit⟩ := List.forall_mem_append.1 hs
    have hnonzero : [last] ∈ nonzeroDigit.matches' :=
      mem_nonzeroDigit.2 ⟨last, ⟨hdigit last (by simp), hlast last (by simp)⟩, rfl⟩
    exact mem_mul.2 ⟨['.'], rfl, front ++ [last],
      mem_mul.2 ⟨front, mem_star_digit.2 hfront, [last], hnonzero, rfl⟩, rfl⟩

end Digits

end Pattern

open Pattern

namespace Decimal

/-! ## The notations -/

section Notations

variable {ds : List Char} (exponent : Int) (hne : ds ≠ []) (hds : ∀ c ∈ ds, c.isDigit = true)
  (hhead : ∀ c ∈ ds.head?, c ≠ '0') (hlast : ∀ c ∈ ds.getLast?, c ≠ '0')
include hne hds hlast hhead

theorem positional_mem : positional ds exponent ∈ Pattern.positional.matches' := by
  unfold positional
  simp only
  split_ifs with hneg hshort
  · let zeros := List.replicate (-exponent - 1).toNat '0'
    have hfraction : '.' :: (zeros ++ ds) ∈ trimmedFraction.matches' := by
      refine mem_trimmedFraction (by simp [hne]) ?_ ?_
      · exact List.forall_mem_append.2 ⟨fun c => isDigit_of_mem_replicate, hds⟩
      · rwa [List.getLast?_append_of_ne_nil _ hne]
    exact mem_mul.2 ⟨['0'], .inl rfl, _, .inr hfraction, by simp [zeros]⟩
  · let zeros := List.replicate (exponent.toNat + 1 - ds.length) '0'
    have hwhole : ds ++ zeros ∈ positiveWhole.matches' := by
      refine mem_positiveWhole (by simp [hne]) ?_ ?_
      · exact List.forall_mem_append.2 ⟨hds, fun c => isDigit_of_mem_replicate⟩
      · rwa [List.head?_append_of_ne_nil _ hne]
    exact mem_mul.2 ⟨_, .inr hwhole, [], .inl rfl, List.append_nil _⟩
  · have hwhole : ds.take (exponent.toNat + 1) ∈ positiveWhole.matches' := by
      refine mem_positiveWhole (by simp [hne]) (fun c hc => hds c (List.mem_of_mem_take hc)) ?_
      rwa [List.head?_take, if_neg (Nat.succ_ne_zero _)]
    have hfraction : '.' :: ds.drop (exponent.toNat + 1) ∈ trimmedFraction.matches' := by
      refine mem_trimmedFraction ?_ (fun c hc => hds c (List.mem_of_mem_drop hc)) ?_
      · simpa using hshort
      · rwa [List.getLast?_drop, if_neg hshort]
    exact mem_mul.2 ⟨_, .inr hwhole, _, .inr hfraction, by simp⟩

theorem exists_normalized_scientific : ∃ m ∈ normalized.matches', scientific ds exponent =
    m ++ ('e' :: (if exponent < 0 then '-' else '+') :: Nat.toDigits 10 exponent.natAbs) := by
  match ds, hne with
  | [first], _ =>
    have hfirst : [first] ∈ nonzeroDigit.matches' :=
      mem_nonzeroDigit.2 ⟨first, ⟨hds first (by simp), hhead first rfl⟩, rfl⟩
    exact ⟨[first], mem_mul.2 ⟨_, hfirst, [], .inl rfl, rfl⟩, by simp [scientific]⟩
  | first :: second :: rest, _ =>
    obtain ⟨hdigit, hrest⟩ := List.forall_mem_cons.1 hds
    have hfirst : [first] ∈ nonzeroDigit.matches' :=
      mem_nonzeroDigit.2 ⟨first, ⟨hdigit, hhead first rfl⟩, rfl⟩
    have hfraction : '.' :: second :: rest ∈ trimmedFraction.matches' := by
      refine mem_trimmedFraction (by simp) hrest ?_
      rwa [List.getLast?_cons_cons] at hlast
    exact ⟨_, mem_mul.2 ⟨_, hfirst, _, .inr hfraction, rfl⟩, by simp [scientific]⟩

end Notations

theorem writtenExponent_mem {exponent : Int} (h : exponent ≠ 0) :
    'e' :: (if exponent < 0 then '-' else '+') :: Nat.toDigits 10 exponent.natAbs ∈
      writtenExponent.matches' := by
  have hsize : exponent.natAbs ≠ 0 := Int.natAbs_ne_zero.2 h
  have hdigits : Nat.toDigits 10 exponent.natAbs ∈ positiveWhole.matches' :=
    mem_positiveWhole Nat.toDigits_ne_nil
      (fun c => Nat.isDigit_of_mem_toDigits (by decide) (le_refl 10)) (head?_toDigits hsize)
  have hsign : [if exponent < 0 then '-' else '+'] ∈ sign.matches' := by
    refine mem_anyOf.2 ⟨_, ?_, rfl⟩
    split_ifs
    · decide
    · decide
  exact mem_mul.2 ⟨['e'], rfl, _, mem_mul.2 ⟨_, hsign, _, hdigits, rfl⟩, rfl⟩

/-! ## The text of a decimal -/

section Print

variable {d : Decimal} (hd : d.digits ≠ 0)
include hd

theorem print_mem_positional (h : isPositional d.leadingExponent = true) :
    d.print ∈ Pattern.positional.matches' := by
  rw [print, if_pos h]
  exact positional_mem _ (significand_ne_nil hd) (fun c => isDigit_of_mem_significand)
    (head?_significand hd) (getLast?_significand d)

theorem exists_print_scientific (h : isPositional d.leadingExponent = false) :
    ∃ m ∈ normalized.matches', ∃ e ∈ writtenExponent.matches', d.print = m ++ e ∧
      readExponent e = (d.leadingExponent, []) := by
  obtain ⟨m, hm, htext⟩ := exists_normalized_scientific d.leadingExponent (significand_ne_nil hd)
    (fun c => isDigit_of_mem_significand) (head?_significand hd) (getLast?_significand d)
  have hexponent : d.leadingExponent ≠ 0 := by
    intro hzero
    rw [hzero] at h
    cases h
  have hend : ∀ c ∈ ([] : List Char).head?, c.isDigit = false := by simp
  have hread := readExponent_print d.leadingExponent hend
  rw [List.append_nil] at hread
  exact ⟨m, hm, _, writtenExponent_mem hexponent, by rw [print, h, if_neg (by decide), htext],
    hread⟩

end Print

end Decimal

end Calculator
