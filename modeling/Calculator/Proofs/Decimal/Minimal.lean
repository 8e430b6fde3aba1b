/-
  No decimal is shorter than the shortest one. Of all decimals that read back as a number, the
  shortest decimal of its place has the fewest significant digits, and of those with as many it is
  the nearest (`shortest_minimal`).

  Whatever lies between the number and a decimal that reads back reads back too. So if anything on a
  grid of multiples of a power of ten reads back, one of the two neighbours of the number does
  (`exists_neighbour`), and the search stops at the coarsest grid where that is so
  (`isFirst_searchGrids`). A decimal with `n` significant digits leads to a point of the grid that
  gives the number `n` digits (`exists_multiple`): it is such a point itself, or it is below the
  power of ten that the leading digit of the number is worth, which then reads back too.
-/
import Calculator.Proofs.Binary64.Nearest
import Calculator.Proofs.Binary64.Printer

namespace Calculator.Decimal

open Binary64

/-! ## Significant digits -/

/-- What fewer units of a power of ten are equal to ends in a zero, as that power is greater. -/
theorem mod_ten_of_fewer {m s : Nat} {e f : Int} (hfewer : m < s)
    (heq : (s : ℚ) * (10 : ℚ) ^ f = m * (10 : ℚ) ^ e) : s % 10 = 0 := by
  have hexponent : f < e := by
    by_contra hle
    have hcast : (m : ℚ) < s := by exact_mod_cast hfewer
    have hpow : (10 : ℚ) ^ e ≤ (10 : ℚ) ^ f := zpow_le_zpow_right₀ (by norm_num) (not_lt.1 hle)
    have hstrict : (m : ℚ) * (10 : ℚ) ^ e < s * (10 : ℚ) ^ f :=
      calc (m : ℚ) * (10 : ℚ) ^ e ≤ m * (10 : ℚ) ^ f :=
            mul_le_mul_of_nonneg_left hpow (Nat.cast_nonneg m)
        _ < s * (10 : ℚ) ^ f := mul_lt_mul_of_pos_right hcast (by positivity)
    exact absurd heq hstrict.ne'
  obtain ⟨k, rfl⟩ : ∃ k : ℕ, e = ((k + 1 : ℕ) : ℤ) + f := ⟨(e - f - 1).toNat, by omega⟩
  rw [zpow_add₀ (by norm_num), zpow_natCast, ← mul_assoc] at heq
  have hmultiple : s = m * 10 ^ (k + 1) := by
    exact_mod_cast mul_right_cancel₀ (by positivity) heq
  rw [hmultiple, pow_succ, ← Nat.mul_assoc, Nat.mul_mod_left]

section Significand

variable {d : Decimal} (hd : d.digits ≠ 0)
include hd

theorem length_significand_pos : 0 < d.significand.length :=
  List.length_pos_of_ne_nil (significand_ne_nil hd)

theorem significand_bounds :
    10 ^ (d.significand.length - 1) ≤ Nat.ofDigitChars 10 d.significand 0 ∧
      Nat.ofDigitChars 10 d.significand 0 < 10 ^ d.significand.length := by
  obtain ⟨zeros, hdigits, hlength⟩ := digits_eq_significand d
  obtain ⟨hlower, hupper⟩ := toDigits_bounds hd
  have hpos := length_significand_pos hd
  have hzeros : 0 < 10 ^ zeros := by positivity
  have hsplit : d.significand.length + zeros - 1 = zeros + (d.significand.length - 1) := by omega
  rw [hlength, hsplit, hdigits, pow_add] at hlower
  rw [hlength, Nat.add_comm, hdigits, pow_add] at hupper
  exact ⟨Nat.le_of_mul_le_mul_left hlower hzeros, Nat.lt_of_mul_lt_mul_left hupper⟩

theorem significand_mod_ten : Nat.ofDigitChars 10 d.significand 0 % 10 ≠ 0 := by
  obtain hnil | ⟨front, last, heq⟩ := List.eq_nil_or_concat d.significand
  · exact absurd hnil (significand_ne_nil hd)
  · rw [List.concat_eq_append] at heq
    have hdigit : last.isDigit = true := isDigit_of_mem_significand (d := d) (by simp [heq])
    have hnonzero : last ≠ '0' := getLast?_significand d last (by simp [heq])
    have hbounds : 48 ≤ last.toNat ∧ last.toNat ≤ 57 := Char.isDigit_iff_toNat.1 hdigit
    have hne : last.toNat ≠ 48 := fun h => hnonzero (Char.toNat_inj.1 h)
    have hzero : '0'.toNat = 48 := rfl
    rw [heq, Nat.ofDigitChars_append, Nat.ofDigitChars_cons, Nat.ofDigitChars_nil]
    omega

/-- A number has as many significant digits as any number of units of a power of ten needs that is
equal to it. -/
theorem length_significand_le_iff {n : Nat} : d.significand.length ≤ n ↔
    ∃ (m : Nat) (e : Int), m < 10 ^ n ∧ d.toRat = m * (10 : Rat) ^ e := by
  obtain ⟨hlower, hupper⟩ := significand_bounds hd
  constructor
  · intro h
    exact ⟨_, _, lt_of_lt_of_le hupper (Nat.pow_le_pow_right (by decide) h),
      toRat_eq_significand d⟩
  · rintro ⟨m, e, hm, heq⟩
    by_contra hmore
    rw [toRat_eq_significand] at heq
    have hfewer : m < Nat.ofDigitChars 10 d.significand 0 :=
      lt_of_lt_of_le hm (le_trans (Nat.pow_le_pow_right (by decide) (by omega)) hlower)
    exact significand_mod_ten hd (mod_ten_of_fewer hfewer heq)

theorem length_significand_congr {c : Decimal} (h : c.toRat = d.toRat) :
    c.significand.length = d.significand.length := by
  have hc : c.digits ≠ 0 := by
    intro hzero
    rw [toRat_of_digits_eq_zero hzero] at h
    have hpos := le_toRat hd (le_refl _)
    have hpow : (0 : ℚ) < (10 : ℚ) ^ d.exponent := by positivity
    linarith
  apply le_antisymm
  · rw [length_significand_le_iff hc, h, ← length_significand_le_iff hd]
  · rw [length_significand_le_iff hd, ← h, ← length_significand_le_iff hc]

end Significand

/-! ## The leading digit -/

/-- The digits of the integer part give the size of a number. -/
theorem toDigits_floor_bounds {y : Rat} (hy : 1 ≤ y) :
    (10 : Rat) ^ ((Nat.toDigits 10 y.floor.toNat).length - 1) ≤ y ∧
      y < (10 : Rat) ^ (Nat.toDigits 10 y.floor.toNat).length := by
  obtain ⟨hlower, hupper⟩ := floor_bounds (le_trans zero_le_one hy)
  generalize y.floor.toNat = n at *
  have hn : n ≠ 0 := by
    rintro rfl
    rw [Nat.cast_zero, zero_add] at hupper
    exact absurd hy (not_le.2 hupper)
  obtain ⟨hdown, hup⟩ := toDigits_bounds hn
  constructor
  · refine le_trans ?_ hlower
    exact_mod_cast hdown
  · refine lt_of_lt_of_le hupper ?_
    exact_mod_cast hup

/-- The smallest magnitude is worth a digit before the point when it is taken `10 ^ 324` times. -/
theorem one_le_magnitude_mul {place : Nat} (h : place ≠ 0) :
    1 ≤ magnitude place * (10 : Rat) ^ (324 : ℕ) := by
  have hleast : 1 ≤ magnitude 1 * (10 : ℚ) ^ (324 : ℕ) := by decide +kernel
  refine le_trans hleast (mul_le_mul_of_nonneg_right (magnitude_le_iff.2 ?_) (by positivity))
  exact Nat.one_le_iff_ne_zero.2 h

theorem leadingExponent_bounds {place : Nat} (h : place ≠ 0) :
    (10 : Rat) ^ Binary64.leadingExponent place ≤ magnitude place ∧
      magnitude place < (10 : Rat) ^ (Binary64.leadingExponent place + 1) := by
  have hpow : (0 : ℚ) < (10 : ℚ) ^ (324 : ℕ) := by positivity
  have hscale : ∀ e : Int,
      (10 : ℚ) ^ e * (10 : ℚ) ^ (324 : ℕ) = (10 : ℚ) ^ (e + ((324 : ℕ) : ℤ)) := fun e => by
    rw [zpow_add₀ (by norm_num), zpow_natCast]
  have hbounds := toDigits_floor_bounds (one_le_magnitude_mul h)
  rw [← mul_le_mul_iff_left₀ hpow, ← mul_lt_mul_iff_left₀ hpow, hscale, hscale]
  unfold Binary64.leadingExponent
  generalize magnitude place * (10 : ℚ) ^ (324 : ℕ) = y at *
  have hlength : 0 < (Nat.toDigits 10 y.floor.toNat).length := Nat.length_toDigits_pos
  generalize (Nat.toDigits 10 y.floor.toNat).length = length at *
  have hleft : (length : Int) - 325 + ((324 : ℕ) : Int) = ((length - 1 : ℕ) : Int) := by omega
  have hright : (length : Int) - 325 + 1 + ((324 : ℕ) : Int) = (length : Int) := by omega
  rwa [hleft, hright, zpow_natCast, zpow_natCast]

/-! ## Grids -/

section Grid

variable {place : Place}

/-- What lies between a decimal that reads back and the number reads back too, and is as near. -/
theorem reads_of_between {d c : Decimal} (hd : d.toBinary64 = finite false place)
    (h : d.toRat ≤ c.toRat ∧ c.toRat ≤ magnitude place ∨
      magnitude place ≤ c.toRat ∧ c.toRat ≤ d.toRat) :
    c.toBinary64 = finite false place ∧
      |c.toRat - magnitude place| ≤ |d.toRat - magnitude place| := by
  rw [toBinary64_eq_finite_iff] at hd ⊢
  rcases h with ⟨hlower, hupper⟩ | ⟨hlower, hupper⟩
  · have hfirst := nearestPlace_mono hlower
    have hlast := nearestPlace_mono hupper
    rw [nearestPlace_magnitude] at hlast
    refine ⟨⟨rfl, le_antisymm hlast (hd.2 ▸ hfirst)⟩, ?_⟩
    rw [abs_of_nonpos (by linarith), abs_of_nonpos (by linarith)]
    linarith
  · have hfirst := nearestPlace_mono hlower
    have hlast := nearestPlace_mono hupper
    rw [nearestPlace_magnitude] at hfirst
    refine ⟨⟨rfl, le_antisymm (hd.2 ▸ hlast) hfirst⟩, ?_⟩
    rw [abs_of_nonneg (by linarith), abs_of_nonneg (by linarith)]
    linarith

/-- The greatest multiple of a power of ten that is not above a magnitude. -/
def below (place : Place) (exponent : Int) : Decimal :=
  ⟨(magnitude place / (10 : Rat) ^ exponent).floor.toNat, exponent⟩

/-- The next multiple. -/
def above (place : Place) (exponent : Int) : Decimal :=
  ⟨(magnitude place / (10 : Rat) ^ exponent).floor.toNat + 1, exponent⟩

variable {exponent : Int}

variable (place exponent) in
theorem neighbour_bounds :
    (below place exponent).toRat ≤ magnitude place ∧
      magnitude place < (above place exponent).toRat := by
  have hpow : (0 : ℚ) < (10 : ℚ) ^ exponent := by positivity
  obtain ⟨hlower, hupper⟩ := floor_bounds (div_nonneg (magnitude_nonneg place) hpow.le)
  constructor
  · exact (le_div_iff₀ hpow).1 hlower
  · rw [div_lt_iff₀ hpow] at hupper
    simpa [above, toRat] using hupper

/-- If anything on a grid reads back, a neighbour does that is as near. -/
theorem exists_neighbour {k : Nat}
    (hk : (⟨k, exponent⟩ : Decimal).toBinary64 = finite false place) :
    ∃ c ∈ [below place exponent, above place exponent], c.toBinary64 = finite false place ∧
      |c.toRat - magnitude place| ≤ |toRat ⟨k, exponent⟩ - magnitude place| := by
  have hpow : (0 : ℚ) < (10 : ℚ) ^ exponent := by positivity
  obtain ⟨hbelow, habove⟩ := neighbour_bounds place exponent
  rcases Nat.lt_or_ge (below place exponent).digits k with hlt | hle
  · refine ⟨above place exponent, by simp, reads_of_between hk (.inr ⟨habove.le, ?_⟩)⟩
    have hcast : ((above place exponent).digits : ℚ) ≤ k := by exact_mod_cast hlt
    exact mul_le_mul_of_nonneg_right hcast hpow.le
  · refine ⟨below place exponent, by simp, reads_of_between hk (.inl ⟨?_, hbelow⟩)⟩
    have hcast : (k : ℚ) ≤ (below place exponent).digits := by exact_mod_cast hle
    exact mul_le_mul_of_nonneg_right hcast hpow.le

/-! ## The search -/

theorem onGrid?_eq : onGrid? place exponent =
    (if magnitude place / (10 : Rat) ^ exponent - (below place exponent).digits < 1 / 2 then
      [below place exponent, above place exponent]
    else [above place exponent, below place exponent]).find?
      fun d => d.toBinary64 = finite false place := rfl

theorem abs_below_sub : |(below place exponent).toRat - magnitude place| =
    (magnitude place / (10 : Rat) ^ exponent - (below place exponent).digits) *
      (10 : Rat) ^ exponent := by
  have hpow : (10 : ℚ) ^ exponent ≠ 0 := by positivity
  have hle := (neighbour_bounds place exponent).1
  rw [abs_sub_comm, abs_of_nonneg (by linarith), sub_mul, div_mul_cancel₀ _ hpow]
  rfl

theorem abs_above_sub : |(above place exponent).toRat - magnitude place| =
    (1 - (magnitude place / (10 : Rat) ^ exponent - (below place exponent).digits)) *
      (10 : Rat) ^ exponent := by
  have hpow : (10 : ℚ) ^ exponent ≠ 0 := by positivity
  have hlt := (neighbour_bounds place exponent).2
  have habove : (above place exponent).toRat =
      ((below place exponent).digits + 1) * (10 : ℚ) ^ exponent := by
    simp [above, below, toRat]
  rw [abs_of_nonneg (by linarith), habove, sub_mul, sub_mul, div_mul_cancel₀ _ hpow]
  ring

/-- If the nearer neighbour is tried first, the one that is found is the nearest point of the grid
of those that read back. -/
theorem closest_of_find? {first second d : Decimal}
    (hmem : ∀ c, c ∈ [below place exponent, above place exponent] ↔ c ∈ [first, second])
    (hle : |first.toRat - magnitude place| ≤ |second.toRat - magnitude place|)
    (h : [first, second].find? (fun c => c.toBinary64 = finite false place) = some d) :
    d ∈ [below place exponent, above place exponent] ∧
      ∀ k, (⟨k, exponent⟩ : Decimal).toBinary64 = finite false place →
        |d.toRat - magnitude place| ≤ |toRat ⟨k, exponent⟩ - magnitude place| := by
  refine ⟨(hmem d).2 (List.mem_of_find?_eq_some h), fun k hk => ?_⟩
  obtain ⟨c, hc, hreads, hcloser⟩ := exists_neighbour hk
  refine le_trans ?_ hcloser
  rw [hmem, List.mem_cons, List.mem_singleton] at hc
  by_cases hfirst : first.toBinary64 = finite false place
  · rw [List.find?_cons_of_pos (by simpa using hfirst)] at h
    obtain rfl := Option.some.inj h
    rcases hc with rfl | rfl
    · exact le_refl _
    · exact hle
  · rw [List.find?_cons_of_neg (by simpa using hfirst)] at h
    obtain rfl : d = second := List.mem_singleton.1 (List.mem_of_find?_eq_some h)
    rcases hc with rfl | rfl
    · exact absurd hreads hfirst
    · exact le_refl _

theorem closest_of_onGrid? {d : Decimal} (h : onGrid? place exponent = some d) :
    d ∈ [below place exponent, above place exponent] ∧
      ∀ k, (⟨k, exponent⟩ : Decimal).toBinary64 = finite false place →
        |d.toRat - magnitude place| ≤ |toRat ⟨k, exponent⟩ - magnitude place| := by
  have hpow : (0 : ℚ) < (10 : ℚ) ^ exponent := by positivity
  rw [onGrid?_eq] at h
  split_ifs at h with hhalf
  · refine closest_of_find? (fun c => Iff.rfl) ?_ h
    rw [abs_below_sub, abs_above_sub]
    exact mul_le_mul_of_nonneg_right (by linarith) hpow.le
  · refine closest_of_find? (fun c => List.mem_reverse.symm) ?_ h
    rw [abs_below_sub, abs_above_sub]
    exact mul_le_mul_of_nonneg_right (by linarith) hpow.le

theorem not_reads_of_onGrid? (h : onGrid? place exponent = none) (k : Nat) :
    (⟨k, exponent⟩ : Decimal).toBinary64 ≠ finite false place := by
  intro hk
  obtain ⟨c, hc, hreads, -⟩ := exists_neighbour hk
  rw [onGrid?_eq, List.find?_eq_none] at h
  have hnone := h c
  split_ifs at hnone
  · exact hnone hc (by simpa using hreads)
  · exact hnone (List.mem_reverse.2 hc) (by simpa using hreads)

/-- The first decimal that reads back, on grids from that of `10 ^ exponent` on: the nearest one of
its grid, next to the number, where no coarser grid has any. -/
structure IsFirst (place : Place) (exponent : Int) (d : Decimal) : Prop where
  exponent_le : d.exponent ≤ exponent
  next_to : ∃ n : Nat, toRat ⟨n, d.exponent⟩ ≤ magnitude place ∧ d.digits ≤ n + 1
  closest : ∀ k, (⟨k, d.exponent⟩ : Decimal).toBinary64 = finite false place →
    |d.toRat - magnitude place| ≤ |toRat ⟨k, d.exponent⟩ - magnitude place|
  not_reads : ∀ e, d.exponent < e → e ≤ exponent → ∀ k,
    (⟨k, e⟩ : Decimal).toBinary64 ≠ finite false place

theorem isFirst_of_onGrid? {d : Decimal} (h : onGrid? place exponent = some d) :
    IsFirst place exponent d := by
  obtain ⟨hmem, hclosest⟩ := closest_of_onGrid? h
  simp only [List.mem_cons, List.not_mem_nil, or_false] at hmem
  have hneighbour : d.exponent = exponent ∧ d.digits ≤ (below place exponent).digits + 1 := by
    rcases hmem with rfl | rfl
    · exact ⟨rfl, Nat.le_succ _⟩
    · exact ⟨rfl, le_refl _⟩
  obtain ⟨rfl, hdigits⟩ := hneighbour
  exact ⟨le_refl _, ⟨_, (neighbour_bounds place d.exponent).1, hdigits⟩, hclosest,
    fun e hlt hle => absurd hlt (not_lt.2 hle)⟩

theorem isFirst_searchGrids {steps : Nat} (h : exponent - steps = -1074) :
    IsFirst place exponent (searchGrids place steps exponent) := by
  induction steps generalizing exponent with
  | zero =>
    obtain rfl : exponent = -1074 := by omega
    -- the last grid holds every magnitude
    have hexact : (searchGrids place 0 (-1074)).toRat = magnitude place := toRat_last place
    refine ⟨le_refl _, ⟨_, hexact.le, Nat.le_succ _⟩, fun k _ => ?_,
      fun e hlt hle => absurd hlt (not_lt.2 hle)⟩
    rw [hexact, sub_self, abs_zero]
    exact abs_nonneg _
  | succ steps ih =>
    rw [searchGrids]
    cases hgrid : onGrid? place exponent with
    | some d => exact isFirst_of_onGrid? hgrid
    | none =>
      have hrest := @ih (exponent - 1) (by omega)
      refine ⟨?_, hrest.next_to, hrest.closest, fun e hlt hle => ?_⟩
      · exact le_trans hrest.exponent_le (by omega)
      · rcases eq_or_lt_of_le hle with rfl | hless
        · exact not_reads_of_onGrid? hgrid
        · exact hrest.not_reads e hlt (by omega)

theorem isFirst_shortest (place : Place) :
    IsFirst place (Binary64.leadingExponent place) (shortest place) :=
  isFirst_searchGrids (leadingExponent_sub_steps place)

end Grid

/-! ## The fewest digits -/

theorem toRat_mul_pow (m n : Nat) (e : Int) :
    toRat ⟨m * 10 ^ n, e⟩ = m * (10 : Rat) ^ ((n : Int) + e) := by
  rw [toRat, zpow_add₀ (by norm_num), zpow_natCast]
  push_cast
  ring

section Minimal

variable {place : Place} (hplace : place.val ≠ 0)
include hplace

/-- A decimal with few digits leads to a point of a coarse grid that is as near. -/
theorem exists_multiple {d : Decimal} (hd : d.toBinary64 = finite false place) {e : Int}
    (he : e ≤ Binary64.leadingExponent place)
    (hlength : d.significand.length ≤ Binary64.leadingExponent place + 1 - e) :
    ∃ k : Nat, (⟨k, e⟩ : Decimal).toBinary64 = finite false place ∧
      |toRat ⟨k, e⟩ - magnitude place| ≤ |d.toRat - magnitude place| := by
  have hdigits := digits_ne_zero_of_reads hd hplace
  have hvalue := toRat_eq_significand d
  have hleading := (leadingExponent_bounds hplace).1
  -- how the leading exponent is found does not matter below, and is not to be computed
  generalize Binary64.leadingExponent place = leading at *
  rcases le_or_gt e (d.leadingExponent + 1 - d.significand.length) with hfine | hcoarse
  · -- a point of that grid itself
    have hsame : toRat ⟨Nat.ofDigitChars 10 d.significand 0 *
        10 ^ (d.leadingExponent + 1 - d.significand.length - e).toNat, e⟩ = d.toRat := by
      rw [toRat_mul_pow, hvalue, Int.toNat_of_nonneg (by omega), Int.sub_add_cancel]
    exact ⟨_, (toBinary64_congr hsame).trans hd, by rw [hsame]⟩
  · -- below the leading digit of the number
    obtain ⟨k, hpower⟩ : ∃ k, toRat ⟨k, e⟩ = (10 : ℚ) ^ leading := by
      refine ⟨1 * 10 ^ (leading - e).toNat, ?_⟩
      rw [toRat_mul_pow, Int.toNat_of_nonneg (by omega), Int.sub_add_cancel, Nat.cast_one, one_mul]
    have hless : d.toRat < (10 : ℚ) ^ (d.leadingExponent + 1) :=
      not_le.1 fun h => absurd ((le_leadingExponent_iff hdigits).2 h) (by omega)
    have hle : (10 : ℚ) ^ (d.leadingExponent + 1) ≤ (10 : ℚ) ^ leading :=
      zpow_le_zpow_right₀ (by norm_num) (by omega)
    refine ⟨k, reads_of_between hd (.inl ⟨?_, ?_⟩)⟩
    · rw [hpower]
      exact le_trans hless.le hle
    · rw [hpower]
      exact hleading

/-- The digits from the leading one down to the grid that a decimal is found on. -/
theorem length_significand_le {d : Decimal} (hd : d.digits ≠ 0)
    (h : IsFirst place (Binary64.leadingExponent place) d) :
    d.significand.length ≤ Binary64.leadingExponent place + 1 - d.exponent := by
  have hleading := (leadingExponent_bounds hplace).2
  have hle := h.exponent_le
  obtain ⟨b, hb, hdigits⟩ := h.next_to
  generalize Binary64.leadingExponent place = leading at *
  obtain ⟨n, hn⟩ : ∃ n : Nat, leading + 1 - d.exponent = n :=
    ⟨_, (Int.toNat_of_nonneg (by omega)).symm⟩
  have hpow : (0 : ℚ) < (10 : ℚ) ^ d.exponent := by positivity
  -- the neighbour below has at most that many digits, and the one above may be a power of ten
  have hbelow : b < 10 ^ n := by
    have hlt : (b : ℚ) * (10 : ℚ) ^ d.exponent < (10 : ℚ) ^ (leading + 1) :=
      lt_of_le_of_lt hb hleading
    have hsplit : leading + 1 = (n : Int) + d.exponent := by omega
    rw [hsplit, zpow_add₀ (by norm_num), zpow_natCast] at hlt
    have hcast : (b : ℚ) < 10 ^ n := lt_of_mul_lt_mul_right hlt hpow.le
    exact_mod_cast hcast
  rw [hn, Nat.cast_le, length_significand_le_iff hd]
  rcases Nat.lt_or_eq_of_le (le_trans hdigits hbelow) with hlt | heq
  · exact ⟨d.digits, d.exponent, hlt, rfl⟩
  · refine ⟨1, n + d.exponent, Nat.one_lt_pow (by omega) (by decide), ?_⟩
    rw [← toRat_mul_pow, Nat.one_mul, ← heq]

theorem minimal_of_isFirst {c d : Decimal} (hc : c.toBinary64 = finite false place)
    (hfirst : IsFirst place (Binary64.leadingExponent place) c)
    (hd : d.toBinary64 = finite false place) :
    c.significand.length ≤ d.significand.length ∧
      (d.significand.length = c.significand.length →
        |c.toRat - magnitude place| ≤ |d.toRat - magnitude place|) := by
  have hlength := length_significand_le hplace (digits_ne_zero_of_reads hc hplace) hfirst
  have hpos := length_significand_pos (digits_ne_zero_of_reads hd hplace)
  have hmultiple := fun e => @exists_multiple place hplace d hd e
  generalize Binary64.leadingExponent place = leading at *
  constructor
  · by_contra hfewer
    obtain ⟨k, hk, -⟩ := hmultiple (leading + 1 - d.significand.length) (by omega) (by omega)
    exact hfirst.not_reads _ (by omega) (by omega) k hk
  · intro heq
    obtain ⟨k, hk, hcloser⟩ := hmultiple c.exponent hfirst.exponent_le (by omega)
    exact le_trans (hfirst.closest k hk) hcloser

/-- Of the decimals that read back, the shortest one has the fewest digits, and is the nearest of
those that have as many. -/
theorem shortest_minimal {d : Decimal} (hd : d.toBinary64 = finite false place) :
    (shortest place).significand.length ≤ d.significand.length ∧
      (d.significand.length = (shortest place).significand.length →
        |(shortest place).toRat - magnitude place| ≤ |d.toRat - magnitude place|) :=
  minimal_of_isFirst hplace (toBinary64_shortest place) (isFirst_shortest place) hd

end Minimal

end Calculator.Decimal
