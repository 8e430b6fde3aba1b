/-
  Arithmetic expressions: their trees, the value and the postfix order of a tree, and the grammar
  that gives a list of tokens its tree.

  `Derives c ts e` says that the tokens `ts` are of category `c` and that `e` is their tree:

    sum     := product | sum ('+' | '-') product
    product := factor | product ('*' | '/') factor
    factor  := literal | '(' sum ')'

  A chain of products (or of factors) thus groups to the left, and the operators of a product bind
  tighter than those of a sum. The grammar names its symbols itself; `mem_symbols` and
  `precedence_lt` say how they agree with the precedences of the operator table.
-/
import Calculator.Decimal.Reader
import Calculator.Operator
import Calculator.Token.Basic

namespace Calculator

/-- A literal that can be read, with the number it stands for. -/
structure Literal where
  text : List Char
  value : Binary64
  reads : Decimal.readLiteral? text = some value

attribute [simp] Literal.reads

/-- A tree with readable literals at its leaves and operators of the table inside. -/
inductive Expression where
  | literal (l : Literal)
  | binary (op : Operator) (known : op ∈ Operator.table) (left right : Expression)

namespace Expression

/-- The value, found from the leaves up. -/
@[simp] def value : Expression → Binary64
  | literal l => l.value
  | binary op _ left right => op.apply left.value right.value

/-- The tokens in postfix order: the left operand, the right one, and then their operator. -/
@[simp] def postorder : Expression → List Token
  | literal l => [.number l.text]
  | binary op _ left right => left.postorder ++ right.postorder ++ [.operator op.symbol]

end Expression

namespace Token

def isNumber : Token → Bool
  | number _ => true
  | _ => false

def isOperator : Token → Bool
  | operator _ => true
  | _ => false

/-- Whether a token means something: a literal that can be read, an operator of the table, or a
parenthesis. -/
def isKnown : Token → Bool
  | number literal => (Decimal.readLiteral? literal).isSome
  | operator symbol => (Operator.find? symbol).isSome
  | leftParen => true
  | rightParen => true

section Equations

variable (literal : List Char) (symbol : Char)

@[simp] theorem isNumber_number : (number literal).isNumber = true := by rfl

@[simp] theorem isNumber_operator : (operator symbol).isNumber = false := by rfl

@[simp] theorem isNumber_paren : leftParen.isNumber = false ∧ rightParen.isNumber = false :=
  ⟨rfl, rfl⟩

@[simp] theorem isOperator_number : (number literal).isOperator = false := by rfl

@[simp] theorem isOperator_operator : (operator symbol).isOperator = true := by rfl

@[simp] theorem isOperator_paren : leftParen.isOperator = false ∧ rightParen.isOperator = false :=
  ⟨rfl, rfl⟩

@[simp] theorem isKnown_number :
    (number literal).isKnown = (Decimal.readLiteral? literal).isSome := by rfl

@[simp] theorem isKnown_operator :
    (operator symbol).isKnown = (Operator.find? symbol).isSome := by rfl

@[simp] theorem isKnown_paren : leftParen.isKnown = true ∧ rightParen.isKnown = true := ⟨rfl, rfl⟩

end Equations

end Token

/-! ## The grammar -/

/-- The categories of the grammar, the loosest first. -/
inductive Category where
  | sum | product | factor
deriving DecidableEq

namespace Category

/-- The symbols that join the operands of a category. -/
def symbols : Category → List Char
  | sum => ['+', '-']
  | product => ['*', '/']
  | factor => []

/-- The category of those operands. -/
def operand : Category → Category
  | sum => product
  | product => factor
  | factor => factor

/-- How tightly an operator must bind to stand between the operands of a category. -/
def precedence : Category → Nat
  | sum => 1
  | product => 2
  | factor => 3

theorem precedence_le_operand (c : Category) : c.precedence ≤ c.operand.precedence := by
  cases c <;> decide

end Category

/-- The tokens `ts` are of category `c`, with the tree `e`. -/
inductive Derives : Category → List Token → Expression → Prop where
  | literal (l : Literal) : Derives .factor [.number l.text] (.literal l)
  | group {ts e} (inner : Derives .sum ts e) :
      Derives .factor (.leftParen :: ts ++ [.rightParen]) e
  | operand {c ts e} (only : Derives c.operand ts e) : Derives c ts e
  | binary {c ts us e f} (op : Operator) (known : op ∈ Operator.table)
      (joins : op.symbol ∈ c.symbols) (left : Derives c ts e) (right : Derives c.operand us f) :
      Derives c (ts ++ .operator op.symbol :: us) (.binary op known e f)

/-! ## The grammar and the operator table -/

namespace Operator

variable {op : Operator}

/-- Every operator of the table joins the operands of a sum or those of a product. -/
theorem mem_symbols (known : op ∈ table) :
    op.symbol ∈ Category.sum.symbols ∨ op.symbol ∈ Category.product.symbols := by
  rcases mem_table_iff.1 known with rfl | rfl | rfl | rfl <;> decide

theorem precedence_eq (known : op ∈ table) {c : Category} (joins : op.symbol ∈ c.symbols) :
    op.precedence = c.precedence := by
  rcases mem_table_iff.1 known with rfl | rfl | rfl | rfl <;> cases c <;> revert joins <;> decide

theorem precedence_bounds (known : op ∈ table) : 1 ≤ op.precedence ∧ op.precedence ≤ 2 := by
  rcases mem_symbols known with joins | joins
  · rw [precedence_eq known joins]
    decide
  · rw [precedence_eq known joins]
    decide

/-- An operator binds less tightly than any operator inside its operands. -/
theorem precedence_lt (known : op ∈ table) {c : Category} (joins : op.symbol ∈ c.symbols) :
    op.precedence < c.operand.precedence := by
  rw [precedence_eq known joins]
  cases c with
  | sum => decide
  | product => decide
  | factor => cases joins

/-- Every operator of the table groups to the left, so that it yields to its equals. -/
theorem yieldsTo_eq (known : op ∈ table) (earlier : Operator) :
    op.yieldsTo earlier = decide (op.precedence ≤ earlier.precedence) := by
  rcases mem_table_iff.1 known with rfl | rfl | rfl | rfl <;> rfl

end Operator

theorem isKnown_of_derives {c : Category} {ts : List Token} {e : Expression}
    (h : Derives c ts e) : ∀ t ∈ ts, t.isKnown = true := by
  induction h with
  | literal l => simp
  | group inner ih =>
    exact List.forall_mem_append.2 ⟨List.forall_mem_cons.2 ⟨rfl, ih⟩, by simp⟩
  | operand only ih => exact ih
  | binary op known joins left right ihl ihr =>
    exact List.forall_mem_append.2 ⟨ihl, List.forall_mem_cons.2 ⟨by simp [known], ihr⟩⟩

end Calculator
