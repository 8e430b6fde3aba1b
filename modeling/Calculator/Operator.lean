/-
  The binary operators: their table, which of two neighbours is applied first, and their values.
-/
import Calculator.Binary64.Arithmetic

namespace Calculator

inductive Associativity where
  | left | right
deriving DecidableEq

structure Operator where
  symbol : Char
  /-- The higher, the tighter it binds. -/
  precedence : Nat
  associativity : Associativity
deriving DecidableEq

namespace Operator

def table : List Operator :=
  [⟨'+', 1, .left⟩, ⟨'-', 1, .left⟩, ⟨'*', 2, .left⟩, ⟨'/', 2, .left⟩]

/-- The operator with the given symbol, if there is one. -/
def find? (symbol : Char) : Option Operator := table.find? fun op => op.symbol = symbol

theorem mem_table_iff {op : Operator} :
    op ∈ table ↔ op = ⟨'+', 1, .left⟩ ∨ op = ⟨'-', 1, .left⟩ ∨ op = ⟨'*', 2, .left⟩ ∨
      op = ⟨'/', 2, .left⟩ := by
  simp [table]

theorem find?_eq_some_iff {symbol : Char} {op : Operator} :
    find? symbol = some op ↔ op ∈ table ∧ op.symbol = symbol := by
  constructor
  · intro h
    exact ⟨List.mem_of_find?_eq_some h, by simpa using List.find?_some h⟩
  · rintro ⟨h, rfl⟩
    rcases mem_table_iff.1 h with rfl | rfl | rfl | rfl <;> rfl

@[simp] theorem find?_symbol {op : Operator} (known : op ∈ table) : find? op.symbol = some op :=
  find?_eq_some_iff.2 ⟨known, rfl⟩

/-- Whether `op` lets an operator to its left take the operand between them: always if that one
binds tighter, and among equals if `op` groups to the left. -/
def yieldsTo (op earlier : Operator) : Bool :=
  match op.associativity with
  | .left => op.precedence ≤ earlier.precedence
  | .right => op.precedence < earlier.precedence

/-- The value of an application. Only the operations of the table have one. -/
def apply (op : Operator) (a b : Binary64) : Binary64 :=
  match op.symbol with
  | '+' => a + b
  | '-' => a - b
  | '*' => a * b
  | '/' => a / b
  | _ => .nan

end Operator

end Calculator
