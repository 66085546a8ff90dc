import SmallMl.Source.Location

/-!
# Diagnostics

A `Diagnostic` is a message with the place it points at, the stage that raised it and how severe it
is.  `atEnd` is set when the fault was noticed at the end of the input, so that more text might have
completed the construct.

A `Failure` is what a command reports: a diagnostic or a plain message, under any number of notes
that say what was being done.  Notes come in front of the text but do not hide the diagnostic below
them: `Failure.diagnostic?` looks through them.
-/

namespace SmallMl

inductive Severity
  | error
  | warning
  deriving DecidableEq

namespace Severity

def name : Severity → String
  | error => "error"
  | warning => "warning"

/-- The severity with the given number; every number but 1 is an error. -/
def ofCode (n : Nat) : Severity := if n = 1 then .warning else .error

end Severity

inductive Stage
  | lexer
  | parser
  deriving DecidableEq

namespace Stage

def name : Stage → String
  | lexer => "lexer"
  | parser => "parser"

/-- The stage with the given number; every number but 1 is the lexer. -/
def ofCode (n : Nat) : Stage := if n = 1 then .parser else .lexer

end Stage

structure Diagnostic where
  loc : Location
  message : String
  severity : Severity
  stage : Stage
  /-- The name of the source; empty if it has none. -/
  filename : String
  /-- The fault was noticed at the end of the input. -/
  atEnd : Bool
  deriving DecidableEq

namespace Diagnostic

def place (d : Diagnostic) : String :=
  if d.filename = "" then d.loc.render else d.filename ++ ":" ++ d.loc.render

/-- The text `place: message`. -/
def text (d : Diagnostic) : String := d.place ++ ": " ++ d.message

def report (d : Diagnostic) : String :=
  d.place ++ ": " ++ d.severity.name ++ ": " ++ d.message

end Diagnostic

inductive Failure
  | diagnostic (d : Diagnostic)
  | plain (message : String)
  | noted (note : String) (cause : Failure)
  deriving DecidableEq

namespace Failure

/-- The whole text, the outermost note first. -/
def text : Failure → String
  | diagnostic d => d.text
  | plain message => message
  | noted note cause => note ++ ": " ++ cause.text

def diagnostic? : Failure → Option Diagnostic
  | diagnostic d => some d
  | plain _ => none
  | noted _ cause => cause.diagnostic?

def report (f : Failure) : String :=
  match f.diagnostic? with
  | some d => d.report
  | none => "error: " ++ f.text

/-- The input ended in the middle of a construct. -/
def isIncomplete (f : Failure) : Bool := f.diagnostic?.any (·.atEnd)

end Failure

end SmallMl
