/-
  A session at the calculator: clicks, typing and keys, one after the other. The line takes typed
  text only while it has the keyboard; a screen that wants the keyboard for it is satisfied at the
  next frame, which most events bring about themselves.
-/
import Calculator.Decimal.Printer
import Calculator.LeadingNumber
import Calculator.Screen

namespace Calculator

inductive Button where
  /-- Appends its character to the line. -/
  | key (symbol : Char)
  | clear
  | delete
  | equals
  | function (f : CircularFunction)
  /-- Shows the angle unit in use, and changes to the other. -/
  | unit
  /-- Opens and closes the trace panel. -/
  | trace
deriving DecidableEq

namespace Button

/-- The buttons in their order on the screen. -/
def layout : List Button :=
  [function .sin, function .cos, function .tan, unit,
   clear, delete, key '(', key ')',
   key '7', key '8', key '9', key '/',
   key '4', key '5', key '6', key '*',
   key '1', key '2', key '3', key '-',
   key '0', key '.', equals, key '+',
   trace]

/-- What stands on a button while the given unit is in use. -/
def label (inUse : AngleUnit) : Button → String
  | key symbol => .singleton symbol
  | clear => "C"
  | delete => "DEL"
  | equals => "="
  | function f => f.name
  | unit => inUse.label
  | trace => "Démarche"

end Button

namespace Screen

/-- Replaces the line by its value, or says what is wrong with it. -/
def calculate (s : Screen) : Screen :=
  match Calculator.calculate s.display with
  | .ok result => s.showResult (.ofList result.value.print) result.trace
  | .error e => s.fail e.message

/-- Replaces the line by a function of the number at its head. -/
def applyFunction (f : CircularFunction) (s : Screen) : Screen :=
  match f.ofText s.display s.unit with
  | .ok x => s.showResult (.ofList x.print) .empty
  | .error e => s.fail e.message

/-- Adds typed text to the line; the keyboard stays where it is. -/
def type (text : String) (s : Screen) : Screen :=
  { s with display := s.display ++ text, notice := .blank }

end Screen

structure Session where
  screen : Screen := {}
  /-- Whether the line has the keyboard. -/
  hasKeyboard : Bool := false
  /-- Whether the trace panel is open. -/
  traceOpen : Bool := false
deriving DecidableEq

inductive Event where
  | click (button : Button)
  | type (text : String)
  | enter
  | escape
  /-- A frame in which the user does nothing. -/
  | repaint
deriving DecidableEq

namespace Session

/-- Gives the line the keyboard if the screen wants it to have it. -/
def settle (s : Session) : Session :=
  if s.screen.wantsKeyboard then
    { s with screen := { s.screen with wantsKeyboard := false }, hasKeyboard := true }
  else s

@[simp] theorem settle_settle (s : Session) : s.settle.settle = s.settle := by
  cases h : s.screen.wantsKeyboard <;> simp [settle, h]

/-- What a button does, once it is pressed. -/
def press (s : Session) : Button → Session
  | .key symbol => { s with screen := s.screen.append (.singleton symbol) }
  | .clear => { s with screen := s.screen.clear }
  | .delete => { s with screen := s.screen.backspace }
  | .equals => { s with screen := s.screen.calculate }
  | .function f => { s with screen := s.screen.applyFunction f }
  | .unit => { s with screen := s.screen.toggleUnit }
  | .trace => { s with traceOpen := !s.traceOpen }

/-- One event. A click takes the keyboard from the line. Enter calculates in the frame in which the
line is given the keyboard; at any other time it only takes the keyboard away. -/
def step (s : Session) : Event → Session
  | .click button => { s.settle with hasKeyboard := false }.press button
  | .type text =>
    let settled := s.settle
    if settled.hasKeyboard then { settled with screen := settled.screen.type text } else settled
  | .enter =>
    if s.screen.wantsKeyboard then
      let settled := s.settle
      { settled with screen := settled.screen.calculate }
    else { s with hasKeyboard := false }
  | .escape => { s with screen := s.screen.clear }.settle
  | .repaint => s.settle

/-- The session after a list of events. -/
def run (s : Session) (events : List Event) : Session := events.foldl step s

@[simp] theorem run_nil (s : Session) : s.run [] = s := rfl

@[simp] theorem run_cons (s : Session) (e : Event) (events : List Event) :
    s.run (e :: events) = (s.step e).run events := rfl

@[simp] theorem run_append (s : Session) (first second : List Event) :
    s.run (first ++ second) = (s.run first).run second := List.foldl_append

/-! ## What can be read on the screen -/

/-- The texts, the line itself apart: the title, the notice if there is one, and the trace while
its panel is open. -/
def labels (s : Session) : List String :=
  let notice := if s.screen.notice.text = "" then [] else [s.screen.notice.text]
  let trace :=
    if s.traceOpen then ["Jetons :", s.screen.trace.tokens, "RPN :", s.screen.trace.reordered]
    else []
  "Calculatrice CSP" :: notice ++ trace

/-- The labels of the buttons. -/
def buttonLabels (s : Session) : List String := Button.layout.map (Button.label s.screen.unit)

/-- The button that shows a label at present. -/
def button? (s : Session) (label : String) : Option Button :=
  Button.layout.find? fun b => b.label s.screen.unit = label

end Session

end Calculator
