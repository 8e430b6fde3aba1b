/-
  Cutting a text loses nothing but its blanks. The texts of the tokens, one after the other, are the
  text without blanks (`flatMap_text_tokenize`); and of all lists of tokens with that text, the cut
  is the one that is canonical (`tokenize_eq_iff`), so that no other rule of where to cut has to be
  known. Rendering is undone by cutting for canonical lists and for no others (`tokenize_lossless`).

  The cut may be made in one pass from the left, in which one literal at most is held back
  (`finish_scan`).
-/
import Calculator.Proofs.Token.Rendering

namespace Calculator

open Token

/-! ## What a text and its tokens have in common -/

@[simp] theorem text_ofSymbol (c : Char) : (ofSymbol c).text = [c] := by
  unfold ofSymbol
  split_ifs with hl hr
  · rw [hl]
    rfl
  · rw [hr]
    rfl
  · rfl

theorem flatMap_text_consChar (c : Char) (ts : List Token) :
    (consChar c ts).flatMap text = c :: ts.flatMap text := by
  cases hn : isNumeral c with
  | true =>
    rcases consChar_numeral hn ts with ⟨literal, us, rfl, heq⟩ | ⟨-, heq⟩
    · simp [heq, text]
    · simp [heq, text]
  | false => simp [hn]

theorem flatMap_text_tokenize (cs : List Char) :
    (tokenize cs).flatMap text = cs.filter fun c => !isBlank c := by
  unfold tokenize
  induction cs.filter fun c => !isBlank c with
  | nil => rfl
  | cons c cs ih => rw [List.foldr_cons, flatMap_text_consChar, ih]

@[simp] theorem tokenize_filter (cs : List Char) :
    tokenize (cs.filter fun c => !isBlank c) = tokenize cs := by
  simp [tokenize]

theorem tokenize_flatMap_text {ts : List Token} (h : IsCanonical ts) :
    tokenize (ts.flatMap text) = ts := by
  obtain ⟨hwritten, hchain⟩ := h
  induction ts with
  | nil => rfl
  | cons t ts ih =>
    obtain ⟨ht, hts⟩ := List.forall_mem_cons.1 hwritten
    obtain ⟨hhead, htail⟩ := List.isChain_cons.1 hchain
    have hrest : tokenize (ts.flatMap text) = ts := ih hts htail
    rw [List.flatMap_cons, tokenize_text_append ht (by rwa [hrest]), hrest]

/-- The tokens of a text are the canonical list with the same characters. -/
theorem tokenize_eq_iff {cs : List Char} {ts : List Token} :
    tokenize cs = ts ↔ IsCanonical ts ∧ ts.flatMap text = cs.filter fun c => !isBlank c := by
  constructor
  · rintro rfl
    exact ⟨isCanonical_tokenize cs, flatMap_text_tokenize cs⟩
  · rintro ⟨hcanonical, htext⟩
    rw [← tokenize_filter, ← htext, tokenize_flatMap_text hcanonical]

/-- Cutting keeps all characters but blanks, in literals as long as can be, and undoes rendering
wherever that can be undone. -/
theorem tokenize_lossless (cs : List Char) (ts : List Token) :
    (tokenize cs).flatMap text = (cs.filter fun c => !isBlank c) ∧
      IsCanonical (tokenize cs) ∧ (tokenize (render ts) = ts ↔ IsCanonical ts) := by
  obtain ⟨hcanonical, htext⟩ := tokenize_eq_iff.1 (rfl : tokenize cs = tokenize cs)
  refine ⟨htext, hcanonical, ?_, tokenize_render⟩
  intro h
  exact (tokenize_eq_iff.1 h).1

/-- Rendered, two literals side by side become one. -/
example : tokenize (render [number ['1'], number ['2']]) = [number ['1', '2']] := by decide

/-! ## One pass from the left -/

/-- A text that is being cut, up to some character. -/
structure Scan where
  /-- The tokens that are finished, the last one first. -/
  finished : List Token
  /-- The literal that is held back until it ends, its last character first. -/
  literal : List Char

namespace Scan

/-- Nothing finished, nothing held back. -/
def start : Scan := ⟨[], []⟩

/-- The finished tokens, once the literal is one of them. -/
def flush (s : Scan) : List Token :=
  if s.literal = [] then s.finished else number s.literal.reverse :: s.finished

/-- Takes one character. -/
def step (s : Scan) (c : Char) : Scan :=
  if isBlank c then s
  else if isNumeral c then { s with literal := c :: s.literal }
  else ⟨ofSymbol c :: s.flush, []⟩

/-- The tokens when the text ends. -/
def finish (s : Scan) : List Token := s.flush.reverse

/-- Where the literal ends, the tokens that follow it do not change it. -/
theorem reverse_flush_append {s : Scan} (h : ∀ c ∈ s.literal, isNumeral c = true)
    (ts : List Token) (hts : ∀ t ∈ ts.head?, t.isNumber = false) :
    s.flush.reverse ++ ts = s.finished.reverse ++ s.literal.reverse.foldr consChar ts := by
  unfold flush
  by_cases hnil : s.literal = []
  · rw [if_pos hnil, hnil]
    rfl
  · have hne : s.literal.reverse ≠ [] := by simpa using hnil
    have hnum : ∀ c ∈ s.literal.reverse, isNumeral c = true := by simpa using h
    rw [if_neg hnil, foldr_consChar_numerals hne hnum hts]
    simp

/-- The pass goes on as if the literal that is held back stood before the rest of the text. -/
theorem finish_foldl_step {s : Scan} (h : ∀ c ∈ s.literal, isNumeral c = true) (cs : List Char) :
    (cs.foldl step s).finish =
      s.finished.reverse ++ s.literal.reverse.foldr consChar (tokenize cs) := by
  induction cs generalizing s with
  | nil =>
    have hend := reverse_flush_append h [] (by simp)
    rwa [List.append_nil] at hend
  | cons c cs ih =>
    rw [List.foldl_cons]
    cases hblank : isBlank c with
    | true =>
      rw [step, if_pos hblank, tokenize_cons_blank hblank]
      exact ih h
    | false =>
      rw [step, if_neg (by simp [hblank]), tokenize_cons hblank]
      cases hnum : isNumeral c with
      | true =>
        have hmore : ∀ d ∈ c :: s.literal, isNumeral d = true := List.forall_mem_cons.2 ⟨hnum, h⟩
        rw [if_pos rfl, ih hmore, List.reverse_cons, List.foldr_append]
        rfl
      | false =>
        have hend := reverse_flush_append h (ofSymbol c :: tokenize cs)
          (by simp)
        rw [if_neg (by simp), ih (by simp), consChar_symbol hnum, ← hend]
        simp

theorem finish_scan (cs : List Char) : (cs.foldl step start).finish = tokenize cs :=
  finish_foldl_step (by simp [start]) cs

end Scan

end Calculator
