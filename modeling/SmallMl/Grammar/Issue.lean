import SmallMl.Token.Stream

/-!
# What can be wrong with a sequence of tokens

An `Issue` is a complaint about a place.  It also says whether the token that could not be used was
the end of the input.
-/

namespace SmallMl

/-- Why a sequence of tokens is no program. -/
inductive Complaint
  | unexpectedEnd
  | unexpected (spelling : String)
  | expected (k : Kind)
  | expectedEquals
  | expectedIndex
  | expectedFunctionName
  | expectedType
  | unknownType (name : String)
  | malformedLet
  | malformedParams
  deriving DecidableEq

namespace Complaint

def message : Complaint → String
  | unexpectedEnd => "unexpected end of input"
  | unexpected spelling => String.join ["unexpected '", spelling, "'"]
  | expected k => String.join ["expected '", k.name, "'"]
  | expectedEquals => "expected '='"
  | expectedIndex => "expected '(' after '.'"
  | expectedFunctionName => "expected function name after 'let rec'"
  | expectedType => "expected type"
  | unknownType name => String.join ["unknown type '", name, "'"]
  | malformedLet => "malformed let binding"
  | malformedParams => "malformed let rec argument list"

end Complaint

structure Issue where
  loc : Location
  complaint : Complaint
  /-- The token that could not be used is the end of the input. -/
  atEnd : Bool
  deriving DecidableEq

namespace Issue

def raise (t : Token) (loc : Location) (c : Complaint) : Issue := ⟨loc, c, t.isEof⟩

/-- The token `t` cannot start an expression. -/
def unexpected (t : Token) : Issue :=
  raise t t.range.start (if t.isEof then .unexpectedEnd else .unexpected t.spelling)

def toDiagnostic (i : Issue) (settings : Settings) : Diagnostic :=
  ⟨i.loc, i.complaint.message, .error, .parser, settings.filename, i.atEnd⟩

end Issue

end SmallMl
