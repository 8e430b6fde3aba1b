/-
  Rounding takes the nearest number. Of all places the one that a rational number is rounded to is
  the closest (`nearestPlace_closest`), and another one is as close only if the place is even
  (`nearestPlace_even`). Beyond the largest finite number, halfway to what would be the next one
  (`overflowBound`), there is infinity. So the number that `IsNearest` specifies is the one that
  rounding gives (`isNearest_iff`), and there is no other.
-/
import Calculator.Proofs.Binary64.Order

namespace Calculator

/-! ## Rounding to integers -/

section Integers

variable {q : Rat} (hq : 0 ≤ q) (n : Nat)
include hq

theorem floor_bounds : (q.floor.toNat : ℚ) ≤ q ∧ q < q.floor.toNat + 1 := by
  have hfloor : ((q.floor.toNat : ℕ) : ℤ) = q.floor :=
    Int.toNat_of_nonneg (Rat.le_floor_iff.2 (by simpa using hq))
  have hcast : (q.floor.toNat : ℚ) = (q.floor : ℚ) := by exact_mod_cast hfloor
  rw [hcast]
  exact ⟨Rat.floor_le q, by simpa using Rat.lt_floor_add_one q⟩

/-- Every integer is at most the one below a number or at least the one above it. -/
theorem abs_natCast_sub :
    (n : ℚ) ≤ q.floor.toNat ∧ |(n : ℚ) - q| = q - n ∨
      q.floor.toNat + 1 ≤ (n : ℚ) ∧ |(n : ℚ) - q| = n - q := by
  obtain ⟨hlower, hupper⟩ := floor_bounds hq
  rcases Nat.lt_or_ge q.floor.toNat n with hlt | hle
  · have hcast : (q.floor.toNat : ℚ) + 1 ≤ n := by exact_mod_cast hlt
    exact .inr ⟨hcast, abs_of_nonneg (by linarith)⟩
  · have hcast : (n : ℚ) ≤ q.floor.toNat := by exact_mod_cast hle
    exact .inl ⟨hcast, (abs_sub_comm _ _).trans (abs_of_nonneg (by linarith))⟩

/-- A number is rounded to the integer below it or to the one above it, and not to the farther. -/
theorem abs_roundHalfEven_sub :
    (roundHalfEven q = q.floor.toNat ∧ |(roundHalfEven q : ℚ) - q| = q - q.floor.toNat ∧
      q - q.floor.toNat ≤ 1 / 2 ∧ (q - q.floor.toNat = 1 / 2 → roundHalfEven q % 2 = 0)) ∨
    (roundHalfEven q = q.floor.toNat + 1 ∧
      |(roundHalfEven q : ℚ) - q| = q.floor.toNat + 1 - q ∧
      1 / 2 ≤ q - q.floor.toNat ∧ (q - q.floor.toNat = 1 / 2 → roundHalfEven q % 2 = 0)) := by
  obtain ⟨hlower, hupper⟩ := floor_bounds hq
  have hdown := roundHalfEven_eq_floor_iff q
  rcases roundHalfEven_cases q with heq | heq
  · refine .inl ⟨heq, ?_, ?_, ?_⟩
    · rw [heq, abs_sub_comm, abs_of_nonneg (by linarith)]
    · exact (hdown.1 heq).elim le_of_lt And.left
    · intro hhalf
      rw [heq]
      exact (hdown.1 heq).elim (fun hlt => absurd hhalf hlt.ne) And.right
  · have hnot : ¬ (q - q.floor.toNat < 1 / 2 ∨
        q - q.floor.toNat ≤ 1 / 2 ∧ q.floor.toNat % 2 = 0) := fun h => by
      have := hdown.2 h
      omega
    rw [not_or, not_lt, not_and] at hnot
    refine .inr ⟨heq, ?_, hnot.1, ?_⟩
    · rw [heq, Nat.cast_add_one, abs_of_nonneg (by linarith)]
    · intro hhalf
      have hodd := hnot.2 hhalf.le
      omega

theorem roundHalfEven_closest : |(roundHalfEven q : ℚ) - q| ≤ |(n : ℚ) - q| := by
  rcases abs_roundHalfEven_sub hq with ⟨-, hround, hhalf, -⟩ | ⟨-, hround, hhalf, -⟩
  · rcases abs_natCast_sub hq n with ⟨hn, habs⟩ | ⟨hn, habs⟩
    · linarith
    · linarith
  · rcases abs_natCast_sub hq n with ⟨hn, habs⟩ | ⟨hn, habs⟩
    · linarith
    · linarith

/-- Another integer is as close only at a half. -/
theorem roundHalfEven_even (hne : n ≠ roundHalfEven q)
    (htie : |(n : ℚ) - q| = |(roundHalfEven q : ℚ) - q|) : roundHalfEven q % 2 = 0 := by
  rcases abs_roundHalfEven_sub hq with ⟨heq, hround, hhalf, heven⟩ | ⟨heq, hround, hhalf, heven⟩
  · rcases abs_natCast_sub hq n with ⟨hn, habs⟩ | ⟨hn, habs⟩
    · have hcast : (n : ℚ) = q.floor.toNat := by linarith
      exact absurd ((Nat.cast_injective hcast).trans heq.symm) hne
    · exact heven (by linarith)
  · rcases abs_natCast_sub hq n with ⟨hn, habs⟩ | ⟨hn, habs⟩
    · exact heven (by linarith)
    · have hcast : (n : ℚ) = ((q.floor.toNat + 1 : ℕ) : ℚ) := by push_cast; linarith
      exact absurd ((Nat.cast_injective hcast).trans heq.symm) hne

end Integers

namespace Binary64

/-! ## Places -/

/-- A number of spacings and the place that many spacings above the start of a spacing. -/
theorem units_add {shift spacings : Nat} (hupper : spacings ≤ 2 * binade)
    (hlower : shift ≠ 0 → binade ≤ spacings) :
    units (shift * binade + spacings) = spacings * 2 ^ shift := by
  have hpos : 0 < binade := by decide
  have hquot : (shift * binade + spacings) / binade = shift + spacings / binade := by
    rw [Nat.add_comm, Nat.add_mul_div_right _ _ hpos, Nat.add_comm]
  unfold units
  simp only
  rw [hquot, Nat.shiftLeft_eq]
  rcases Nat.lt_or_eq_of_le hupper with hlt | rfl
  · have hshift : shift + spacings / binade - 1 = shift := by
      by_cases hs : shift = 0
      · have := (Nat.div_lt_iff_lt_mul hpos).2 hlt
        omega
      · have hone : spacings / binade = 1 :=
          Nat.div_eq_of_lt_le (by simpa using hlower hs) (by simpa using hlt)
        omega
    rw [hshift, Nat.add_sub_cancel_left]
  · -- the first place of the next spacing
    have hshift : shift + 2 * binade / binade - 1 = shift + 1 := by
      rw [Nat.mul_div_cancel _ hpos]
      omega
    have hsucc : (shift + 1) * binade = shift * binade + binade := Nat.succ_mul shift binade
    have hdiff : shift * binade + 2 * binade - (shift + 1) * binade = binade := by omega
    rw [hshift, hdiff, pow_succ]
    ring

/-- What is not a multiple of a spacing is below where the spacing starts. -/
theorem units_eq_or_lt (place shift : Nat) :
    (∃ n, units place = n * 2 ^ shift) ∨ shift ≠ 0 ∧ units place < binade * 2 ^ shift := by
  have hunits : units place = (place - (place / binade - 1) * binade) * 2 ^ (place / binade - 1) :=
    Nat.shiftLeft_eq _ _
  obtain ⟨hlt, -⟩ := spacings_bounds place
  rcases Nat.lt_or_ge (place / binade - 1) shift with hless | hge
  · refine .inr ⟨by omega, ?_⟩
    calc units place < 2 ^ 53 * 2 ^ (place / binade - 1) :=
          hunits ▸ Nat.mul_lt_mul_of_pos_right hlt (by positivity)
      _ = binade * 2 ^ (place / binade - 1 + 1) := by
          rw [pow_succ]
          simp only [binade]
          ring
      _ ≤ binade * 2 ^ shift :=
          Nat.mul_le_mul_left _ (Nat.pow_le_pow_right (by decide) hless)
  · obtain ⟨more, hmore⟩ := Nat.exists_eq_add_of_le hge
    refine .inl ⟨(place - (place / binade - 1) * binade) * 2 ^ more, ?_⟩
    rw [hunits, hmore, pow_add]
    ring

theorem abs_magnitude_sub (place : Nat) (q : Rat) :
    |magnitude place - q| = |(units place : ℚ) - q / unit| * unit := by
  have hscale : magnitude place - q = ((units place : ℚ) - q / unit) * unit := by
    rw [magnitude, sub_mul, div_mul_cancel₀ _ unit_pos.ne']
  rw [hscale, abs_mul, abs_of_pos unit_pos]

theorem units_injective {p r : Nat} (h : units p = units r) : p = r := by
  have hmagnitude : magnitude p = magnitude r := by rw [magnitude, magnitude, h]
  exact le_antisymm (magnitude_le_iff.1 hmagnitude.le) (magnitude_le_iff.1 hmagnitude.ge)

theorem abs_multiple_sub (n shift : Nat) (x : Rat) :
    |((n * 2 ^ shift : ℕ) : ℚ) - x| = |(n : ℚ) - x / 2 ^ shift| * 2 ^ shift := by
  have hpow : (0 : ℚ) < 2 ^ shift := by positivity
  have hscale : ((n * 2 ^ shift : ℕ) : ℚ) - x = ((n : ℚ) - x / 2 ^ shift) * 2 ^ shift := by
    rw [sub_mul, div_mul_cancel₀ _ hpow.ne']
    push_cast
    rfl
  rw [hscale, abs_mul, abs_of_pos hpow]

section Units

variable {x : Rat} {shift : Nat} (hx : 0 ≤ x) (hshift : x.floor.toNat.log2 - 52 = shift)
include hx

theorem multiple_closest (n : Nat) :
    |((roundHalfEven (x / 2 ^ shift) * 2 ^ shift : ℕ) : ℚ) - x| ≤
      |((n * 2 ^ shift : ℕ) : ℚ) - x| := by
  rw [abs_multiple_sub, abs_multiple_sub]
  exact mul_le_mul_of_nonneg_right
    (roundHalfEven_closest (div_nonneg hx (by positivity)) n) (by positivity)

include hshift

/-- Below where the spacing starts there is nothing as close. -/
theorem multiple_closer {n : Nat} (hzero : shift ≠ 0) (hn : n < binade * 2 ^ shift) :
    |((roundHalfEven (x / 2 ^ shift) * 2 ^ shift : ℕ) : ℚ) - x| < |(n : ℚ) - x| := by
  have hstart := binade_mul_le hshift hzero
  have hcast : (n : ℚ) < ((binade * 2 ^ shift : ℕ) : ℚ) := by exact_mod_cast hn
  calc |((roundHalfEven (x / 2 ^ shift) * 2 ^ shift : ℕ) : ℚ) - x|
      ≤ |((binade * 2 ^ shift : ℕ) : ℚ) - x| := multiple_closest hx binade
    _ = x - ((binade * 2 ^ shift : ℕ) : ℚ) := by rw [abs_sub_comm, abs_of_nonneg (by linarith)]
    _ < x - n := by linarith
    _ = |(n : ℚ) - x| := by rw [abs_sub_comm, abs_of_nonneg (by linarith)]

end Units

section Nearest

variable {q : Rat} (hq : 0 ≤ q) (place : Nat)
include hq

/-- The nearest place is a multiple of the spacing; other places are multiples too, or too low. -/
theorem nearestPlace_closest : |magnitude (nearestPlace q) - q| ≤ |magnitude place - q| := by
  have hx : 0 ≤ q / unit := div_nonneg hq unit_pos.le
  rw [abs_magnitude_sub, abs_magnitude_sub]
  refine mul_le_mul_of_nonneg_right ?_ unit_pos.le
  unfold nearestPlace
  simp only
  generalize q / unit = x at hx ⊢
  generalize hshift : x.floor.toNat.log2 - 52 = shift
  obtain ⟨hupper, hlower⟩ := roundHalfEven_spacings hshift
  rw [units_add hupper hlower]
  rcases units_eq_or_lt place shift with ⟨n, hn⟩ | ⟨hzero, hlt⟩
  · rw [hn]
    exact multiple_closest hx n
  · exact (multiple_closer hx hshift hzero hlt).le

/-- Another place is as close only at a half. -/
theorem nearestPlace_even (hne : place ≠ nearestPlace q)
    (htie : |magnitude place - q| = |magnitude (nearestPlace q) - q|) :
    nearestPlace q % 2 = 0 := by
  have hx : 0 ≤ q / unit := div_nonneg hq unit_pos.le
  rw [abs_magnitude_sub, abs_magnitude_sub] at htie
  replace htie := mul_right_cancel₀ unit_pos.ne' htie
  unfold nearestPlace at hne htie ⊢
  simp only at hne htie ⊢
  generalize q / unit = x at hx hne htie ⊢
  generalize hshift : x.floor.toNat.log2 - 52 = shift at hne htie ⊢
  obtain ⟨hupper, hlower⟩ := roundHalfEven_spacings hshift
  rw [units_add hupper hlower] at htie
  rcases units_eq_or_lt place shift with ⟨n, hn⟩ | ⟨hzero, hlt⟩
  · have hneSpacings : n ≠ roundHalfEven (x / 2 ^ shift) := by
      rintro rfl
      refine hne (units_injective ?_)
      rw [units_add hupper hlower, hn]
    rw [hn, abs_multiple_sub, abs_multiple_sub] at htie
    have heven := roundHalfEven_even (div_nonneg hx (by positivity)) n hneSpacings
      (mul_right_cancel₀ (by positivity) htie)
    have hbinade : binade % 2 = 0 := by decide
    rw [Nat.add_mod, Nat.mul_mod, hbinade, heven]
    simp
  · exact absurd htie (multiple_closer hx hshift hzero hlt).ne'

end Nearest

/-! ## The ends of the finite range -/

/-- Halfway between the largest finite number and `2 ^ 1024`. -/
def overflowBound : Rat := 2 ^ 1024 - 2 ^ 970

theorem nearestPlace_overflowBound : nearestPlace overflowBound = placeCount := by decide +kernel

theorem nearestPlace_lt_iff {q : Rat} (hq : 0 ≤ q) :
    nearestPlace q < placeCount ↔ q < overflowBound := by
  constructor
  · intro hlt
    by_contra hge
    have hmono := nearestPlace_mono (not_lt.1 hge)
    rw [nearestPlace_overflowBound] at hmono
    omega
  · intro hlt
    have hmono := nearestPlace_mono hlt.le
    rw [nearestPlace_overflowBound] at hmono
    refine lt_of_le_of_ne hmono fun heq => ?_
    -- the largest finite number is closer
    have hclosest := nearestPlace_closest hq (placeCount - 1)
    have hpast : magnitude placeCount = overflowBound + 2 ^ 970 := by decide +kernel
    have hlargest : magnitude (placeCount - 1) = overflowBound - 2 ^ 970 := by decide +kernel
    have hpos : (0 : ℚ) < 2 ^ 970 := by positivity
    rw [heq, hpast, hlargest] at hclosest
    generalize (2 : ℚ) ^ 970 = gap at hclosest hpos
    rw [abs_of_nonneg (by linarith)] at hclosest
    rcases abs_cases (overflowBound - gap - q) with ⟨habs, -⟩ | ⟨habs, -⟩
    · linarith
    · linarith

/-- Half of the smallest positive number is rounded to zero, and no more than that. -/
theorem nearestPlace_eq_zero_iff {q : Rat} (hq : 0 ≤ q) :
    nearestPlace q = 0 ↔ q ≤ (2 : Rat) ^ (-1075 : Int) := by
  have hsmallest : magnitude 1 = 2 * (2 : Rat) ^ (-1075 : Int) := by decide +kernel
  have hhalf : nearestPlace ((2 : Rat) ^ (-1075 : Int)) = 0 := by decide +kernel
  constructor
  · intro hzero
    have hclosest := nearestPlace_closest hq 1
    rw [hzero, magnitude_zero, hsmallest] at hclosest
    rcases abs_cases (2 * (2 : Rat) ^ (-1075 : Int) - q) with ⟨habs, -⟩ | ⟨habs, hneg⟩
    · rw [habs, zero_sub, abs_neg, abs_of_nonneg hq] at hclosest
      linarith
    · rw [habs, zero_sub, abs_neg, abs_of_nonneg hq] at hclosest
      have hpos : (0 : ℚ) < (2 : Rat) ^ (-1075 : Int) := by positivity
      linarith
  · intro hle
    have hmono := nearestPlace_mono hle
    omega

/-! ## The nearest number -/

/-- `x` is the number nearest to `q`, which is not negative: a finite one, of two that are as near
the one at an even place, or from the overflow bound on infinity. -/
inductive IsNearest (q : Rat) : Binary64 → Prop
  | finite (place : Place) (below : q < overflowBound)
      (closest : ∀ p : Place, |magnitude place - q| ≤ |magnitude p - q|)
      (even : ∀ p : Place, p ≠ place → |magnitude p - q| = |magnitude place - q| →
        place.val % 2 = 0) :
      IsNearest q (finite false place)
  | infinity (above : overflowBound ≤ q) : IsNearest q (infinity false)

theorem isNearest_ofMagnitude {q : Rat} (hq : 0 ≤ q) : IsNearest q (ofMagnitude false q) := by
  unfold ofMagnitude
  split_ifs with hlt
  · refine .finite _ ((nearestPlace_lt_iff hq).1 hlt) (fun p => nearestPlace_closest hq p) ?_
    intro p hne htie
    exact nearestPlace_even hq p (fun heq => hne (Fin.ext heq)) htie
  · refine .infinity (not_lt.1 fun hbelow => hlt ((nearestPlace_lt_iff hq).2 hbelow))

/-- Between two even places there is an odd one. -/
theorem closest_unique {q : Rat} {p r : Place} (hp : p.val % 2 = 0) (hr : r.val % 2 = 0)
    (hclosest : ∀ s : Place, |magnitude p - q| ≤ |magnitude s - q|)
    (htie : |magnitude p - q| = |magnitude r - q|) : ¬ p < r := by
  intro hlt
  have hplaces : p.val < r.val := hlt
  let s : Place := ⟨p + 1, by omega⟩
  have hps : magnitude p < magnitude s := not_le.1 fun h => by
    have := magnitude_le_iff.1 h
    simp [s] at this
  have hsr : magnitude s < magnitude r := not_le.1 fun h => by
    have : r.val ≤ p + 1 := magnitude_le_iff.1 h
    omega
  have hmiddle : magnitude p - q = -(magnitude r - q) :=
    (abs_eq_abs.1 htie).resolve_left (by linarith)
  have hcloser : |magnitude s - q| < |magnitude p - q| := by
    have hdistance : |magnitude p - q| = q - magnitude p := by
      rw [abs_sub_comm, abs_of_nonneg (by linarith)]
    rw [hdistance, abs_lt]
    constructor
    · linarith
    · linarith
  exact absurd (hclosest s) (not_le.2 hcloser)

theorem IsNearest.unique {q : Rat} {x y : Binary64} (hx : IsNearest q x) (hy : IsNearest q y) :
    x = y := by
  cases hx with
  | infinity above =>
    cases hy with
    | infinity _ => rfl
    | finite place below _ _ => exact absurd below (not_lt.2 above)
  | finite p below closest even =>
    cases hy with
    | infinity above => exact absurd below (not_lt.2 above)
    | finite r _ closest' even' =>
      have htie := le_antisymm (closest r) (closest' p)
      by_contra hne
      have hplaces : p ≠ r := fun heq => hne (congrArg _ heq)
      have hp := even r hplaces.symm htie.symm
      have hr := even' p hplaces htie
      rcases lt_or_gt_of_ne hplaces with hlt | hgt
      · exact closest_unique hp hr closest htie hlt
      · exact closest_unique hr hp closest' htie.symm hgt

section Rounded

variable {q : Rat} (hq : 0 ≤ q)
include hq

theorem isNearest_iff {x : Binary64} : IsNearest q x ↔ x = ofMagnitude false q := by
  constructor
  · intro hx
    exact hx.unique (isNearest_ofMagnitude hq)
  · rintro rfl
    exact isNearest_ofMagnitude hq

theorem ofMagnitude_eq_zero_iff :
    ofMagnitude false q = zero false ↔ q ≤ (2 : Rat) ^ (-1075 : Int) := by
  rw [zero, ofMagnitude_eq_finite_iff, ← nearestPlace_eq_zero_iff hq]
  simp

theorem isFinite_ofMagnitude (s : Bool) :
    (ofMagnitude s q).isFinite = decide (q < overflowBound) := by
  simp only [← nearestPlace_lt_iff hq, ofMagnitude]
  split_ifs with hlt
  · simp [isFinite, hlt]
  · simp [isFinite, hlt]

theorem ofMagnitude_eq_infinity_iff :
    ofMagnitude false q = infinity false ↔ overflowBound ≤ q := by
  rw [← not_lt, ← nearestPlace_lt_iff hq, ofMagnitude]
  split_ifs with hlt
  · simp [hlt]
  · simp [hlt]

end Rounded

end Binary64

end Calculator
