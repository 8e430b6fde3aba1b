/-
  Reducing a postfix list is evaluating a tree. The postfix order of a tree reduces to its value
  on top of any stack (`foldlM_reduce_postorder`), and whatever reduces to a value is, tokens
  without meaning apart, the postfix order of a tree with that value (`exists_of_value_eq_ok`).

  A list that reduces to one value never looks below the stack it starts with, so on any stack it
  acts as a literal of that value (`foldlM_reduce_of_value`).
-/
import Calculator.Postfix.Value
import Calculator.Proofs.Expression

namespace Calculator.Postfix

/-! ## One token -/

@[simp] theorem reduce_number (l : Literal) (stack : List Binary64) :
    reduce stack (.number l.text) = .ok (l.value :: stack) := by
  simp [reduce]

@[simp] theorem reduce_operator {op : Operator} (known : op ∈ Operator.table) (a b : Binary64)
    (rest : List Binary64) :
    reduce (b :: a :: rest) (.operator op.symbol) = .ok (op.apply a b :: rest) := by
  simp [reduce, known]

@[simp] theorem reduce_unknown {t : Token} (h : t.isKnown = false) (stack : List Binary64) :
    reduce stack t = .ok stack := by
  cases t with
  | number literal =>
    have hread : Decimal.readLiteral? literal = none := by simpa using h
    simp [reduce, hread]
  | operator symbol =>
    have hfind : Operator.find? symbol = none := by simpa using h
    simp [reduce, hfind]
  | leftParen => simp at h
  | rightParen => simp at h

/-- What a token does to a stack when it succeeds. -/
theorem reduce_eq_ok {stack after : List Binary64} {t : Token} (h : reduce stack t = .ok after) :
    (t.isKnown = false ∧ after = stack) ∨
    (∃ l : Literal, t = .number l.text ∧ after = l.value :: stack) ∨
    (∃ op ∈ Operator.table, ∃ a b rest, t = .operator op.symbol ∧ stack = b :: a :: rest ∧
      after = op.apply a b :: rest) := by
  cases t with
  | number literal =>
    cases hread : Decimal.readLiteral? literal with
    | none =>
      left
      exact ⟨by simp [hread], by simpa [reduce, hread] using h.symm⟩
    | some x =>
      right; left
      exact ⟨⟨literal, x, hread⟩, rfl, by simpa [reduce, hread] using h.symm⟩
  | operator symbol =>
    cases hfind : Operator.find? symbol with
    | none =>
      left
      exact ⟨by simp [hfind], by simpa [reduce, hfind] using h.symm⟩
    | some op =>
      right; right
      obtain ⟨known, rfl⟩ := Operator.find?_eq_some_iff.1 hfind
      rcases stack with _ | ⟨b, _ | ⟨a, rest⟩⟩
      · simp [reduce, hfind] at h
      · simp [reduce, hfind] at h
      · exact ⟨op, known, a, b, rest, rfl, rfl, by simpa [reduce, hfind] using h.symm⟩
  | leftParen => simp [reduce] at h
  | rightParen => simp [reduce] at h

/-! ## From a tree to its value -/

@[simp] theorem foldlM_reduce_postorder (e : Expression) (stack : List Binary64) :
    e.postorder.foldlM reduce stack = .ok (e.value :: stack) := by
  induction e generalizing stack with
  | literal l => simp
  | binary op known left right ihl ihr => simp [ihl, ihr, known]

@[simp] theorem value_postorder (e : Expression) : value e.postorder = .ok e.value := by
  simp [value]

/-! ## Below the stack -/

theorem reduce_append {stack after : List Binary64} {t : Token} (h : reduce stack t = .ok after)
    (below : List Binary64) : reduce (stack ++ below) t = .ok (after ++ below) := by
  rcases reduce_eq_ok h with ⟨hun, rfl⟩ | ⟨l, rfl, rfl⟩ | ⟨op, known, a, b, rest, rfl, rfl, rfl⟩
  · exact reduce_unknown hun _
  · exact reduce_number l _
  · exact reduce_operator known a b _

theorem foldlM_reduce_append {ps : List Token} {stack after : List Binary64}
    (h : ps.foldlM reduce stack = .ok after) (below : List Binary64) :
    ps.foldlM reduce (stack ++ below) = .ok (after ++ below) := by
  induction ps generalizing stack with
  | nil =>
    obtain rfl : stack = after := Except.ok.inj h
    rfl
  | cons t ps ih =>
    obtain ⟨middle, ht, hps⟩ := foldlM_cons_eq_ok_iff.1 h
    simp [reduce_append ht below, ih hps]

theorem foldlM_reduce_of_value {ps : List Token} {x : Binary64} (h : value ps = .ok x)
    (stack : List Binary64) : ps.foldlM reduce stack = .ok (x :: stack) := by
  obtain ⟨after, hps, hx⟩ := bind_eq_ok_iff.1 h
  match after, hx with
  | [y], hx =>
    obtain rfl : y = x := Except.ok.inj hx
    exact foldlM_reduce_append hps stack

/-! ## From a value to its tree -/

/-- The postfix orders of a stack of trees, from the bottom of the stack to its top. -/
def orderOf (trees : List Expression) : List Token :=
  trees.reverse.flatMap Expression.postorder

@[simp] theorem orderOf_cons (e : Expression) (trees : List Expression) :
    orderOf (e :: trees) = orderOf trees ++ e.postorder := by
  simp [orderOf]

/-- While the stack holds the values of trees, a token that means something goes into the trees. -/
theorem reduce_trees {trees : List Expression} {t : Token} {after : List Binary64}
    (h : reduce (trees.map Expression.value) t = .ok after) :
    ∃ grown : List Expression, after = grown.map Expression.value ∧
      orderOf grown = orderOf trees ++ [t].filter Token.isKnown := by
  rcases reduce_eq_ok h with ⟨hun, rfl⟩ | ⟨l, rfl, rfl⟩ | ⟨op, known, a, b, rest, rfl, hst, rfl⟩
  · exact ⟨trees, rfl, by simp [hun]⟩
  · exact ⟨.literal l :: trees, rfl, by simp⟩
  · -- the two uppermost values belong to two trees, which become the operands of one
    obtain ⟨right, trees, rfl, hb, hst⟩ := List.map_eq_cons_iff.1 hst
    obtain ⟨left, trees, rfl, ha, rfl⟩ := List.map_eq_cons_iff.1 hst
    exact ⟨.binary op known left right :: trees, by simp [ha, hb], by simp [known]⟩

theorem foldlM_reduce_trees {ps : List Token} {trees : List Expression} {after : List Binary64}
    (h : ps.foldlM reduce (trees.map Expression.value) = .ok after) :
    ∃ grown : List Expression, after = grown.map Expression.value ∧
      orderOf grown = orderOf trees ++ ps.filter Token.isKnown := by
  induction ps generalizing trees with
  | nil =>
    obtain rfl : _ = after := Except.ok.inj h
    exact ⟨trees, rfl, by simp⟩
  | cons t ps ih =>
    obtain ⟨middle, ht, hps⟩ := foldlM_cons_eq_ok_iff.1 h
    obtain ⟨more, rfl, hmore⟩ := reduce_trees ht
    obtain ⟨grown, rfl, hgrown⟩ := ih hps
    refine ⟨grown, rfl, ?_⟩
    rw [hgrown, hmore, List.append_assoc, ← List.filter_append, List.singleton_append]

theorem exists_of_value_eq_ok {ps : List Token} {x : Binary64} (h : value ps = .ok x) :
    ∃ e : Expression, ps.filter Token.isKnown = e.postorder ∧ e.value = x := by
  have hempty : ps.foldlM reduce (([] : List Expression).map Expression.value) = .ok [x] :=
    foldlM_reduce_of_value h []
  obtain ⟨grown, hgrown, horder⟩ := foldlM_reduce_trees hempty
  obtain ⟨e, trees, rfl, hx, hnil⟩ := List.map_eq_cons_iff.1 hgrown.symm
  obtain rfl : trees = [] := List.map_eq_nil_iff.1 hnil
  exact ⟨e, by simpa [orderOf] using horder.symm, hx⟩

end Calculator.Postfix
