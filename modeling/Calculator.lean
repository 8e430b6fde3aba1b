import Calculator.Session
import Calculator.Proofs.Binary64.Notation
import Calculator.Proofs.LeadingNumber.Longest
import Calculator.Proofs.LeadingNumber.Operand
import Calculator.Proofs.LeadingNumber.Span
import Calculator.Proofs.Evaluation.Admission
import Calculator.Proofs.Evaluation.Continuation
import Calculator.Proofs.Evaluation.DivisionByZero
import Calculator.Proofs.Evaluation.Literal
import Calculator.Proofs.Evaluation.Skipped
import Calculator.Proofs.Evaluation.Trace
import Calculator.Proofs.Screen.Editing
import Calculator.Proofs.Session.AngleUnit
import Calculator.Proofs.Session.Entry
import Calculator.Proofs.Session.Equals
import Calculator.Proofs.Session.Failure
import Calculator.Proofs.Session.Notice
import Calculator.Proofs.Session.Repaint
import Calculator.Proofs.Session.Trace
import Calculator.Proofs.Token.Lossless
