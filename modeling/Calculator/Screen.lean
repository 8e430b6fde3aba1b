/-
  What the calculator shows: the line being edited, a notice below it, the angle unit and the
  trace of the last calculation; and the actions on it.
-/
import Calculator.Evaluation
import Calculator.Trigonometry.Function

namespace Calculator

inductive NoticeKind where
  | error | info
deriving DecidableEq

structure Notice where
  kind : NoticeKind
  text : String
deriving DecidableEq

/-- No notice is one without text, of the kind of errors. -/
def Notice.blank : Notice := ⟨.error, ""⟩

structure Screen where
  display : String := ""
  notice : Notice := .blank
  unit : AngleUnit := .degrees
  trace : Trace := .empty
  /-- Whether the line is to be given the keyboard. -/
  wantsKeyboard : Bool := true
deriving DecidableEq

namespace Screen

def clearNotice (s : Screen) : Screen := { s with notice := .blank }

def append (text : String) (s : Screen) : Screen :=
  { s with display := s.display ++ text, notice := .blank, wantsKeyboard := true }

def clear (s : Screen) : Screen := { s with display := "", notice := .blank, wantsKeyboard := true }

/-- Takes the last character off the line, if it has one. -/
def backspace (s : Screen) : Screen :=
  { s with display := .ofList s.display.toList.dropLast, notice := .blank, wantsKeyboard := true }

def inform (text : String) (s : Screen) : Screen :=
  { s with notice := ⟨.info, text⟩, wantsKeyboard := true }

/-- Changes to the other angle unit and says so. -/
def toggleUnit (s : Screen) : Screen :=
  inform ("Mode : " ++ s.unit.toggle.label) { s with unit := s.unit.toggle }

/-- Reports an error. The line stays, to be mended; the trace of an earlier success goes. -/
def fail (text : String) (s : Screen) : Screen :=
  { s with notice := ⟨.error, text⟩, trace := .empty, wantsKeyboard := true }

/-- Puts a result in place of the line. -/
def showResult (text : String) (trace : Trace) (s : Screen) : Screen :=
  { s with display := text, notice := .blank, trace := trace, wantsKeyboard := true }

/-- What can be done to a screen. -/
inductive Action where
  | append (text : String)
  | clear
  | backspace
  | toggleUnit
  | clearNotice
  | fail (text : String)
  | inform (text : String)
  | showResult (text : String) (trace : Trace)
deriving DecidableEq

def perform (s : Screen) : Action → Screen
  | .append text => s.append text
  | .clear => s.clear
  | .backspace => s.backspace
  | .toggleUnit => s.toggleUnit
  | .clearNotice => s.clearNotice
  | .fail text => s.fail text
  | .inform text => s.inform text
  | .showResult text trace => s.showResult text trace

end Screen

end Calculator
