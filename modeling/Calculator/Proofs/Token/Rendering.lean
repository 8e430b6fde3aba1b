/-
  The texts of tokens, with one space between any two, are cut into the same tokens again. Lists of
  tokens that can be cut from a text are those in which literals are runs of numerals, no two of
  them side by side, and operators are no other characters (`isCanonical_tokenize`); on these,
  cutting undoes rendering (`tokenize_render`). A list of words, in which literals may stand side by
  side, is told from its rendering by the spaces (`map_ofWord_splitOn_render`).
-/
import Calculator.Proofs.Token.Lexer

namespace Calculator

namespace Token

/-- Whether a text has the token for itself: a literal is a run of numerals, and the symbol of an
operator is neither a blank nor a part of other tokens. -/
def IsWritten : Token → Prop
  | number literal => literal ≠ [] ∧ ∀ c ∈ literal, isNumeral c = true
  | operator symbol => isBlank symbol = false ∧ isNumeral symbol = false ∧
      symbol ≠ '(' ∧ symbol ≠ ')'
  | leftParen => True
  | rightParen => True

/-- Two tokens that can stand side by side: not both literals. -/
def MayPrecede (t u : Token) : Prop := ¬ (t.isNumber = true ∧ u.isNumber = true)

end Token

open Token

/-- The lists of tokens that are cut from texts. -/
structure IsCanonical (ts : List Token) : Prop where
  isWritten : ∀ t ∈ ts, t.IsWritten
  mayPrecede : ts.IsChain MayPrecede

/-! ## Characters -/

@[simp] theorem isBlank_of_isNumeral {c : Char} (h : isNumeral c = true) : isBlank c = false := by
  simp only [isNumeral, Bool.or_eq_true, decide_eq_true_eq] at h
  rcases h with h | rfl
  · exact isBlank_of_isDigit h
  · decide

@[simp] theorem tokenize_nil : tokenize [] = [] := rfl

@[simp] theorem tokenize_cons_blank {c : Char} (h : isBlank c = true) (cs : List Char) :
    tokenize (c :: cs) = tokenize cs := by
  simp [tokenize, h]

@[simp] theorem tokenize_cons {c : Char} (h : isBlank c = false) (cs : List Char) :
    tokenize (c :: cs) = consChar c (tokenize cs) := by
  simp [tokenize, h]

@[simp] theorem consChar_symbol {c : Char} (h : isNumeral c = false) (ts : List Token) :
    consChar c ts = ofSymbol c :: ts := by
  simp [consChar, h]

@[simp] theorem consChar_number {c : Char} (h : isNumeral c = true) (literal : List Char)
    (ts : List Token) : consChar c (number literal :: ts) = number (c :: literal) :: ts := by
  simp [consChar, h]

theorem consChar_of_head {c : Char} (h : isNumeral c = true) {ts : List Token}
    (hts : ∀ t ∈ ts.head?, t.isNumber = false) : consChar c ts = number [c] :: ts := by
  unfold consChar
  rw [if_pos h]
  split
  · rename_i literal rest
    exact absurd (hts (number literal) rfl) (by simp)
  · rfl

/-- A numeral makes a literal, together with one that follows. -/
theorem consChar_numeral {c : Char} (h : isNumeral c = true) (ts : List Token) :
    (∃ literal us, ts = number literal :: us ∧ consChar c ts = number (c :: literal) :: us) ∨
      ((∀ t ∈ ts.head?, t.isNumber = false) ∧ consChar c ts = number [c] :: ts) := by
  by_cases hts : ∀ t ∈ ts.head?, t.isNumber = false
  · exact .inr ⟨hts, consChar_of_head h hts⟩
  · cases ts with
    | nil => simp at hts
    | cons t ts =>
      cases t with
      | number literal => exact .inl ⟨literal, ts, rfl, consChar_number h literal ts⟩
      | operator symbol => simp at hts
      | leftParen => simp at hts
      | rightParen => simp at hts

@[simp] theorem isNumber_ofSymbol (c : Char) : (ofSymbol c).isNumber = false := by
  unfold ofSymbol
  split_ifs <;> rfl

theorem isWritten_ofSymbol {c : Char} (hblank : isBlank c = false) (hnum : isNumeral c = false) :
    (ofSymbol c).IsWritten := by
  unfold ofSymbol
  split_ifs with hl hr
  · trivial
  · trivial
  · exact ⟨hblank, hnum, hl, hr⟩

/-! ## Cutting -/

theorem isCanonical_consChar {c : Char} (hc : isBlank c = false) {ts : List Token}
    (h : IsCanonical ts) : IsCanonical (consChar c ts) := by
  cases hn : isNumeral c with
  | true =>
    rcases consChar_numeral hn ts with ⟨literal, us, rfl, heq⟩ | ⟨hhead, heq⟩
    · obtain ⟨⟨hne, hnums⟩, hus⟩ := List.forall_mem_cons.1 h.isWritten
      rw [heq]
      refine ⟨List.forall_mem_cons.2 ⟨⟨by simp, List.forall_mem_cons.2 ⟨hn, hnums⟩⟩, hus⟩, ?_⟩
      obtain ⟨hhead, htail⟩ := List.isChain_cons.1 h.mayPrecede
      exact List.isChain_cons.2 ⟨fun u hu => hhead u hu, htail⟩
    · rw [heq]
      refine ⟨List.forall_mem_cons.2 ⟨⟨by simp, by simpa using hn⟩, h.isWritten⟩, ?_⟩
      refine List.isChain_cons.2 ⟨?_, h.mayPrecede⟩
      rintro u hu ⟨-, hnumber⟩
      rw [hhead u hu] at hnumber
      cases hnumber
  | false =>
    rw [consChar_symbol hn]
    refine ⟨List.forall_mem_cons.2 ⟨isWritten_ofSymbol hc hn, h.isWritten⟩, ?_⟩
    refine List.isChain_cons.2 ⟨?_, h.mayPrecede⟩
    rintro u - ⟨hnumber, -⟩
    rw [isNumber_ofSymbol] at hnumber
    cases hnumber

theorem isCanonical_tokenize (cs : List Char) : IsCanonical (tokenize cs) := by
  induction cs with
  | nil => exact ⟨by simp, .nil⟩
  | cons c cs ih =>
    cases hc : isBlank c with
    | true => simpa [hc] using ih
    | false => simpa [hc] using isCanonical_consChar hc ih

/-! ## Texts one after the other -/

theorem consChar_append (c : Char) (ts : List Token) {us : List Token}
    (h : ∀ u ∈ us.head?, u.isNumber = false) : consChar c (ts ++ us) = consChar c ts ++ us := by
  cases hn : isNumeral c with
  | true =>
    rcases consChar_numeral hn ts with ⟨literal, vs, rfl, heq⟩ | ⟨hhead, heq⟩
    · simp [heq, hn]
    · rw [heq, List.cons_append]
      refine consChar_of_head hn ?_
      cases ts with
      | nil => exact h
      | cons t ts => exact hhead
  | false => simp [hn]

/-- A text can be cut before anything but a literal. -/
theorem tokenize_append (cs : List Char) {ds : List Char}
    (h : ∀ t ∈ (tokenize ds).head?, t.isNumber = false) :
    tokenize (cs ++ ds) = tokenize cs ++ tokenize ds := by
  induction cs with
  | nil => rfl
  | cons c cs ih =>
    cases hc : isBlank c with
    | true => simp [hc, ih]
    | false => simp [hc, ih, consChar_append c _ h]

theorem tokenize_symbol_cons {c : Char} (hblank : isBlank c = false) (hnum : isNumeral c = false)
    (cs : List Char) : tokenize (c :: cs) = ofSymbol c :: tokenize cs := by
  simp [hblank, hnum]

theorem foldr_consChar_numerals {ds : List Char} (hne : ds ≠ [])
    (h : ∀ c ∈ ds, isNumeral c = true) {ts : List Token}
    (hts : ∀ t ∈ ts.head?, t.isNumber = false) : ds.foldr consChar ts = number ds :: ts := by
  induction ds with
  | nil => exact absurd rfl hne
  | cons c ds ih =>
    obtain ⟨hc, hds⟩ := List.forall_mem_cons.1 h
    rw [List.foldr_cons]
    by_cases hnil : ds = []
    · subst hnil
      exact consChar_of_head hc hts
    · rw [ih hnil hds, consChar_number hc]

theorem tokenize_numerals {ds : List Char} (hne : ds ≠ []) (h : ∀ c ∈ ds, isNumeral c = true) :
    tokenize ds = [number ds] := by
  have hkept : (ds.filter fun c => !isBlank c) = ds :=
    List.filter_eq_self.2 fun c hc => by simp [h c hc]
  rw [tokenize, hkept, foldr_consChar_numerals hne h (by simp)]

@[simp] theorem tokenize_dropWhile (cs : List Char) :
    tokenize (cs.dropWhile isBlank) = tokenize cs := by
  induction cs with
  | nil => rfl
  | cons c cs ih =>
    cases hc : isBlank c with
    | true => simp [hc, ih]
    | false => simp [hc]

/-- The first token is a literal only if the first character that is no blank is a numeral. -/
theorem isNumber_of_head?_tokenize {cs : List Char}
    (h : ∀ c ∈ (cs.dropWhile isBlank).head?, isNumeral c = false) :
    ∀ t ∈ (tokenize cs).head?, t.isNumber = false := by
  rw [← tokenize_dropWhile]
  have hblank := List.head?_dropWhile_not isBlank cs
  cases hcs : cs.dropWhile isBlank with
  | nil => simp
  | cons c ds =>
    rw [hcs] at h hblank
    simp [tokenize_symbol_cons hblank (h c rfl)]

theorem tokenize_text_append {t : Token} (ht : t.IsWritten) {cs : List Char}
    (hnext : ∀ u ∈ (tokenize cs).head?, MayPrecede t u) :
    tokenize (t.text ++ cs) = t :: tokenize cs := by
  cases t with
  | number literal =>
    have hhead : ∀ u ∈ (tokenize cs).head?, u.isNumber = false := by
      intro u hu
      simpa [MayPrecede] using hnext u hu
    rw [text, tokenize_append literal hhead, tokenize_numerals ht.1 ht.2]
    rfl
  | operator symbol =>
    obtain ⟨hblank, hnum, hleft, hright⟩ := ht
    rw [text, List.singleton_append, tokenize_symbol_cons hblank hnum, ofSymbol, if_neg hleft,
      if_neg hright]
  | leftParen => exact tokenize_symbol_cons (by decide) (by decide) cs
  | rightParen => exact tokenize_symbol_cons (by decide) (by decide) cs

/-! ## Rendering -/

theorem tokenize_render {ts : List Token} (h : IsCanonical ts) : tokenize (render ts) = ts := by
  obtain ⟨hwritten, hchain⟩ := h
  induction ts with
  | nil => rfl
  | cons t ts ih =>
    obtain ⟨ht, hts⟩ := List.forall_mem_cons.1 hwritten
    obtain ⟨hhead, htail⟩ := List.isChain_cons.1 hchain
    cases ts with
    | nil =>
      rw [render, ← List.append_nil t.text]
      exact tokenize_text_append ht (by simp)
    | cons u us =>
      have hrest : tokenize (' ' :: render (u :: us)) = u :: us := by
        rw [tokenize_cons_blank (by decide), ih hts htail]
      rw [render, tokenize_text_append ht (by rw [hrest]; exact hhead), hrest]

theorem render_eq_intercalate (ts : List Token) : render ts = [' '].intercalate (ts.map text) := by
  induction ts with
  | nil => rfl
  | cons t ts ih =>
    cases ts with
    | nil => simp [render]
    | cons u us =>
      rw [render, ih]
      simp [List.intercalate_cons_cons]

/-! ## Words -/

namespace Token

/-- The token that a word is taken for, where there are no parentheses. -/
def ofWord (word : List Char) : Token :=
  match word with
  | [c] => if c ∈ ['+', '-', '*', '/'] then operator c else number [c]
  | _ => number word

theorem not_mem_text {t : Token} (h : t.IsWritten) : ' ' ∉ t.text := by
  cases t with
  | number literal =>
    intro hmem
    exact absurd (h.2 ' ' hmem) (by decide)
  | operator symbol =>
    intro hmem
    obtain rfl : ' ' = symbol := List.mem_singleton.1 hmem
    exact absurd h.1 (by decide)
  | leftParen => decide
  | rightParen => decide

theorem ofWord_text {t : Token} (h : t.IsWritten) (hknown : t.isKnown = true)
    (hparen : t.paren? = none) : ofWord t.text = t := by
  cases t with
  | number literal =>
    match literal, h.2 with
    | [], _ => rfl
    | [c], hnum =>
      have hc : c ∉ ['+', '-', '*', '/'] := by
        have hc : isNumeral c = true := hnum c List.mem_cons_self
        intro hmem
        simp only [List.mem_cons, List.not_mem_nil, or_false] at hmem
        rcases hmem with rfl | rfl | rfl | rfl <;> exact absurd hc (by decide)
      rw [text, ofWord, if_neg hc]
    | _ :: _ :: _, _ => rfl
  | operator symbol =>
    have hmem : symbol ∈ ['+', '-', '*', '/'] := by
      rw [isKnown, isSome_find?] at hknown
      exact of_decide_eq_true hknown
    rw [text, ofWord, if_pos hmem]
  | leftParen => cases hparen
  | rightParen => cases hparen

end Token

/-- The words of a rendered list are its tokens. -/
theorem map_ofWord_splitOn_render {ts : List Token} (hne : ts ≠ [])
    (h : ∀ t ∈ ts, t.IsWritten ∧ t.isKnown = true ∧ t.paren? = none) :
    ((render ts).splitOn ' ').map ofWord = ts := by
  have hspace : ∀ word ∈ ts.map text, ' ' ∉ word := by
    intro word hword
    obtain ⟨t, ht, rfl⟩ := List.mem_map.1 hword
    exact not_mem_text (h t ht).1
  rw [render_eq_intercalate, List.splitOn_intercalate ' ' hspace (by simpa using hne),
    List.map_map]
  refine (List.map_congr_left fun t ht => ?_).trans (List.map_id ts)
  obtain ⟨hwritten, hknown, hparen⟩ := h t ht
  exact ofWord_text hwritten hknown hparen

end Calculator
