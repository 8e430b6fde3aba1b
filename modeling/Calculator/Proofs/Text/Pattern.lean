/-
  Patterns of texts, as regular expressions over characters, and the longest part at the head of a
  text that has a given pattern. Where any part at the head has it, one of them is the longest
  (`exists_isLongestPrefix`).
-/
import Mathlib.Computability.RegularExpressions
import Mathlib.Data.Nat.Find
import Mathlib.Tactic.IntervalCases

namespace Calculator

open RegularExpression

abbrev Pattern : Type := RegularExpression Char

namespace Pattern

/-- One of the given characters. -/
def anyOf (cs : List Char) : Pattern := (cs.map char).foldr (· + ·) 0

/-- The given characters, one after the other. -/
def word (cs : List Char) : Pattern := (cs.map char).foldr (· * ·) 1

/-- The pattern or nothing. -/
def optional (p : Pattern) : Pattern := 1 + p

def digit : Pattern := anyOf ['0', '1', '2', '3', '4', '5', '6', '7', '8', '9']

def nonzeroDigit : Pattern := anyOf ['1', '2', '3', '4', '5', '6', '7', '8', '9']

/-- At least one digit. -/
def digits : Pattern := digit * star digit

/-! ## What has a pattern -/

section Matches

variable {cs s : List Char} {p q : Pattern}

theorem mem_mul : s ∈ (p * q).matches' ↔ ∃ a ∈ p.matches', ∃ b ∈ q.matches', a ++ b = s := Iff.rfl

theorem mem_add : s ∈ (p + q).matches' ↔ s ∈ p.matches' ∨ s ∈ q.matches' := Iff.rfl

theorem mem_optional : s ∈ (optional p).matches' ↔ s = [] ∨ s ∈ p.matches' := Iff.rfl

theorem mem_anyOf : s ∈ (anyOf cs).matches' ↔ ∃ c ∈ cs, s = [c] := by
  unfold anyOf
  induction cs with
  | nil => simp [Language.notMem_zero]
  | cons c cs ih =>
    have hchar : s ∈ (char c : Pattern).matches' ↔ s = [c] := Iff.rfl
    rw [List.map_cons, List.foldr_cons, mem_add, ih, hchar]
    simp

theorem mem_word : s ∈ (word cs).matches' ↔ s = cs := by
  unfold word
  induction cs generalizing s with
  | nil => rfl
  | cons c cs ih =>
    rw [List.map_cons, List.foldr_cons, mem_mul]
    constructor
    · rintro ⟨_, rfl, rest, hrest, rfl⟩
      rw [ih.1 hrest]
      rfl
    · rintro rfl
      exact ⟨[c], rfl, cs, ih.2 rfl, rfl⟩

theorem mem_star_anyOf : s ∈ (star (anyOf cs)).matches' ↔ ∀ c ∈ s, c ∈ cs := by
  rw [matches'_star, Language.mem_kstar]
  constructor
  · rintro ⟨parts, rfl, hparts⟩ c hc
    obtain ⟨part, hpart, hcpart⟩ := List.mem_flatten.1 hc
    obtain ⟨d, hd, rfl⟩ := mem_anyOf.1 (hparts part hpart)
    rwa [List.mem_singleton.1 hcpart]
  · intro h
    refine ⟨s.map fun c => [c], by simp [← List.flatMap_def], ?_⟩
    intro part hpart
    obtain ⟨c, hc, rfl⟩ := List.mem_map.1 hpart
    exact mem_anyOf.2 ⟨c, h c hc, rfl⟩

end Matches

/-! ## Digits -/

section Digits

variable {c : Char} {s : List Char}

theorem mem_digit_iff :
    c ∈ ['0', '1', '2', '3', '4', '5', '6', '7', '8', '9'] ↔ c.isDigit = true := by
  constructor
  · intro h
    simp only [List.mem_cons, List.not_mem_nil, or_false] at h
    rcases h with rfl | rfl | rfl | rfl | rfl | rfl | rfl | rfl | rfl | rfl <;> rfl
  · intro h
    obtain ⟨hlower, hupper⟩ : 48 ≤ c.toNat ∧ c.toNat ≤ 57 := Char.isDigit_iff_toNat.1 h
    have hc : Char.ofNat c.toNat = c := Char.ofNat_toNat c
    rw [← hc]
    generalize c.toNat = n at hlower hupper
    interval_cases n <;> decide

theorem mem_nonzeroDigit_iff :
    c ∈ ['1', '2', '3', '4', '5', '6', '7', '8', '9'] ↔ c.isDigit = true ∧ c ≠ '0' := by
  rw [← mem_digit_iff, List.mem_cons (b := '0')]
  constructor
  · intro h
    refine ⟨.inr h, ?_⟩
    rintro rfl
    revert h
    decide
  · rintro ⟨h | h, hne⟩
    · exact absurd h hne
    · exact h

theorem mem_star_digit : s ∈ (star digit).matches' ↔ ∀ c ∈ s, c.isDigit = true := by
  rw [digit, mem_star_anyOf]
  simp only [mem_digit_iff]

theorem mem_nonzeroDigit :
    s ∈ nonzeroDigit.matches' ↔ ∃ c, (c.isDigit = true ∧ c ≠ '0') ∧ s = [c] := by
  rw [nonzeroDigit, mem_anyOf]
  simp only [mem_nonzeroDigit_iff]

theorem mem_digits : s ∈ digits.matches' ↔ s ≠ [] ∧ ∀ c ∈ s, c.isDigit = true := by
  rw [digits, mem_mul]
  simp only [digit, mem_anyOf, mem_star_anyOf, mem_digit_iff]
  constructor
  · rintro ⟨_, ⟨c, hc, rfl⟩, cs, hcs, rfl⟩
    exact ⟨by simp, List.forall_mem_cons.2 ⟨hc, hcs⟩⟩
  · rintro ⟨hne, hs⟩
    obtain ⟨c, cs, rfl⟩ := List.exists_cons_of_ne_nil hne
    obtain ⟨hc, hcs⟩ := List.forall_mem_cons.1 hs
    exact ⟨[c], ⟨c, hc, rfl⟩, cs, hcs, rfl⟩

end Digits

/-! ## The longest part at the head -/

/-- Of the parts at the head of `cs` that have the pattern, `part` is the longest. -/
structure IsLongestPrefix (p : Pattern) (part cs : List Char) : Prop where
  isPrefix : part <+: cs
  mem : part ∈ p.matches'
  length_le : ∀ other, other <+: cs → other ∈ p.matches' → other.length ≤ part.length

theorem exists_isLongestPrefix {p : Pattern} {cs : List Char}
    (h : ∃ part, part <+: cs ∧ part ∈ p.matches') : ∃ part, IsLongestPrefix p part cs := by
  let HasLength (n : ℕ) : Prop := ∃ part, part <+: cs ∧ part ∈ p.matches' ∧ part.length = n
  obtain ⟨first, hpre, hmem⟩ := h
  classical
  have hgreatest : HasLength (Nat.findGreatest HasLength cs.length) :=
    Nat.findGreatest_spec hpre.length_le ⟨first, hpre, hmem, rfl⟩
  obtain ⟨part, hpart, hpartMem, hlength⟩ := hgreatest
  refine ⟨part, hpart, hpartMem, ?_⟩
  intro other hother hotherMem
  rw [hlength]
  exact Nat.le_findGreatest hother.length_le ⟨other, hother, hotherMem, rfl⟩

/-- With more of what follows, the longest part would be a longer one. -/
theorem IsLongestPrefix.append_not_mem {p : Pattern} {part rest more : List Char}
    (h : IsLongestPrefix p part (part ++ rest)) (hmore : more <+: rest) (hne : more ≠ []) :
    part ++ more ∉ p.matches' := by
  intro hmem
  have hle := h.length_le (part ++ more) ((List.prefix_append_right_inj part).2 hmore) hmem
  have hpos := List.length_pos_of_ne_nil hne
  rw [List.length_append] at hle
  omega

/-- What is longest among more parts is longest among fewer. -/
theorem IsLongestPrefix.of_imp {p q : Pattern} {part cs : List Char}
    (h : IsLongestPrefix p part cs) (hmem : part ∈ q.matches')
    (himp : ∀ other, other ∈ q.matches' → other ∈ p.matches') : IsLongestPrefix q part cs :=
  ⟨h.isPrefix, hmem, fun other hpre hother => h.length_le other hpre (himp other hother)⟩

end Pattern

end Calculator
