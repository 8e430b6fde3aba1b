/-
  Rounding keeps order. Nearest places are monotone in the number rounded (`nearestPlace_mono`):
  within a spacing because rounding to integers is, and across spacings because a place where the
  spacing doubles lies between the two. So the order of magnitudes is that of their places
  (`magnitude_le_iff`), and what is far enough away rounds to an infinity or to zero.
-/
import Calculator.Binary64.Exact

namespace Calculator

/-! ## Rounding to integers -/

theorem roundHalfEven_cases (q : Rat) :
    roundHalfEven q = q.floor.toNat ∨ roundHalfEven q = q.floor.toNat + 1 := by
  unfold roundHalfEven
  simp only
  split_ifs
  · exact .inl rfl
  · exact .inr rfl
  · exact .inl rfl
  · exact .inr rfl

/-- What is rounded down: an excess below one half, and one half above an even integer. -/
theorem roundHalfEven_eq_floor_iff (q : Rat) :
    roundHalfEven q = q.floor.toNat ↔
      q - q.floor.toNat < 1 / 2 ∨ q - q.floor.toNat ≤ 1 / 2 ∧ q.floor.toNat % 2 = 0 := by
  unfold roundHalfEven
  simp only
  split_ifs with hbelow habove heven
  · exact iff_of_true rfl (.inl hbelow)
  · exact iff_of_false (Nat.succ_ne_self _) fun h =>
      h.elim hbelow fun h => not_lt.2 h.1 habove
  · exact iff_of_true rfl (.inr ⟨not_lt.1 habove, heven⟩)
  · exact iff_of_false (Nat.succ_ne_self _) fun h => h.elim hbelow fun h => heven h.2

theorem roundHalfEven_mono {q r : Rat} (h : q ≤ r) : roundHalfEven q ≤ roundHalfEven r := by
  have hfloor : q.floor.toNat ≤ r.floor.toNat := Int.toNat_le_toNat (Rat.floor_monotone h)
  have hq := roundHalfEven_cases q
  rcases Nat.lt_or_eq_of_le hfloor with hlt | heq
  · have hr := roundHalfEven_cases r
    omega
  · rcases roundHalfEven_cases r with hr | hr
    · -- the same integer below, and `r` is rounded down to it: so is `q`, whose excess is no greater
      have hdown : roundHalfEven q = q.floor.toNat := by
        have hexcess : q - r.floor.toNat ≤ r - r.floor.toNat := sub_le_sub_right h _
        rw [roundHalfEven_eq_floor_iff] at hr ⊢
        rw [heq]
        rcases hr with hr | ⟨hr, heven⟩
        · exact .inl (lt_of_le_of_lt hexcess hr)
        · exact .inr ⟨le_trans hexcess hr, heven⟩
      omega
    · omega

namespace Binary64

/-! ## Places -/

/-- Where the spacing has doubled, a number of units has arrived at its first place. -/
theorem binade_mul_le {x : Rat} {shift : Nat} (h : x.floor.toNat.log2 - 52 = shift)
    (hshift : shift ≠ 0) : ((binade * 2 ^ shift : ℕ) : ℚ) ≤ x := by
  have hn : x.floor.toNat ≠ 0 := by
    intro hzero
    rw [hzero, Nat.log2_zero] at h
    omega
  have hpow : binade * 2 ^ shift = 2 ^ (52 + shift) := (pow_add 2 52 shift).symm
  have hle : binade * 2 ^ shift ≤ x.floor.toNat := by
    rw [hpow]
    exact (Nat.le_log2 hn).1 (by omega)
  refine (Rat.le_floor_iff (x := (binade * 2 ^ shift : ℕ))).1 ?_
  omega

/-- The number of spacings in a number of units: at most those of two binades, and at least those
of one where the spacing has doubled. -/
theorem roundHalfEven_spacings {x : Rat} {shift : Nat} (h : x.floor.toNat.log2 - 52 = shift) :
    roundHalfEven (x / 2 ^ shift) ≤ 2 * binade ∧
      (shift ≠ 0 → binade ≤ roundHalfEven (x / 2 ^ shift)) := by
  have hpos : (0 : ℚ) < 2 ^ shift := by positivity
  constructor
  · have hx : x ≤ ((2 ^ (53 + shift) : ℕ) : ℚ) := by
      have hn : x.floor.toNat < 2 ^ (53 + shift) :=
        Nat.lt_of_lt_of_le Nat.lt_log2_self (Nat.pow_le_pow_right (by decide) (by omega))
      refine le_of_lt ((Rat.floor_lt_iff (x := (2 ^ (53 + shift) : ℕ))).1 ?_)
      omega
    have hle : x / 2 ^ shift ≤ ((2 * binade : ℕ) : ℚ) := by
      rw [div_le_iff₀ hpos]
      refine le_trans hx (le_of_eq ?_)
      rw [pow_add]
      norm_num [binade]
    simpa only [roundHalfEven_natCast] using roundHalfEven_mono hle
  · intro hshift
    have hle : ((binade : ℕ) : ℚ) ≤ x / 2 ^ shift := by
      rw [le_div_iff₀ hpos]
      exact_mod_cast binade_mul_le h hshift
    simpa only [roundHalfEven_natCast] using roundHalfEven_mono hle

theorem nearestPlace_mono {q r : Rat} (h : q ≤ r) : nearestPlace q ≤ nearestPlace r := by
  have hunits : q / unit ≤ r / unit := div_le_div_of_nonneg_right h unit_pos.le
  unfold nearestPlace
  simp only
  generalize q / unit = x at *
  generalize r / unit = y at *
  have hlog : x.floor.toNat.log2 ≤ y.floor.toNat.log2 := by
    rw [Nat.log2_eq_log_two, Nat.log2_eq_log_two]
    exact Nat.log_mono_right (Int.toNat_le_toNat (Rat.floor_monotone hunits))
  generalize hs : x.floor.toNat.log2 - 52 = s
  generalize ht : y.floor.toNat.log2 - 52 = t
  rcases Nat.lt_or_eq_of_le (show s ≤ t by omega) with hlt | rfl
  · -- the greater spacing starts where `x` has at most arrived
    have hx := (roundHalfEven_spacings hs).1
    have hy := (roundHalfEven_spacings ht).2 (by omega)
    have hbinades : (s + 1) * binade ≤ t * binade := Nat.mul_le_mul_right _ hlt
    rw [Nat.succ_mul] at hbinades
    omega
  · have hround : roundHalfEven (x / 2 ^ s) ≤ roundHalfEven (y / 2 ^ s) :=
      roundHalfEven_mono (div_le_div_of_nonneg_right hunits (by positivity))
    omega

theorem magnitude_le_iff {p q : Nat} : magnitude p ≤ magnitude q ↔ p ≤ q := by
  constructor
  · intro h
    simpa only [nearestPlace_magnitude] using nearestPlace_mono h
  · intro h
    by_contra hlt
    have hle := nearestPlace_mono (le_of_lt (not_le.1 hlt))
    rw [nearestPlace_magnitude, nearestPlace_magnitude] at hle
    exact hlt (le_of_eq (congrArg magnitude (Nat.le_antisymm h hle)))

/-! ## Far away -/

/-- No finite number has 401 digits before the point. -/
theorem placeCount_le_nearestPlace {q : Rat} (h : (10 : Rat) ^ (400 : Int) ≤ q) :
    placeCount ≤ nearestPlace q := by
  refine Nat.le_trans ?_ (nearestPlace_mono h)
  decide +kernel

/-- No number other than zero has 399 zeros after the point. -/
theorem nearestPlace_eq_zero {q : Rat} (h : q ≤ (10 : Rat) ^ (-400 : Int)) :
    nearestPlace q = 0 := by
  refine Nat.le_zero.1 (Nat.le_trans (nearestPlace_mono h) ?_)
  decide +kernel

theorem ofMagnitude_eq_finite_iff {s t : Bool} {q : Rat} {p : Place} :
    ofMagnitude s q = finite t p ↔ s = t ∧ nearestPlace q = p := by
  unfold ofMagnitude
  split
  · simp [Fin.ext_iff]
  · rename_i h
    refine iff_of_false (by simp) ?_
    rintro ⟨-, hp⟩
    exact h (hp ▸ p.isLt)

end Binary64

end Calculator
