import SmallMl.Grammar.Step

/-!
# Reading a program

`Program.parse` reads a source text: it takes token after token from the stream, comments passed
over, and stops at the end token, at the first lexeme that is no token and at the first token that
cannot be used.  The stream is asked for the next token only when the one before it has been used,
so a fault further on in the text is not noticed, and neither is a comment that does not end.
-/

namespace SmallMl

namespace Grammar.State

def program (s : State) (t : Token) : Program :=
  match s.items.reverse, s.items with
  | first :: items, last :: _ => ⟨Range.span first.range last.range, first :: items⟩
  | items, _ => ⟨t.range, items⟩

end Grammar.State

open Grammar (State)

/-- What comes of reading a source text: a program or an error, and the stream as far as it was
read. -/
structure Parse where
  result : Except Diagnostic Program
  stream : Stream

namespace Parse

def run (s : State) (src : Stream) : Parse :=
  match _h : src.next.1 with
  | .error d => ⟨.error d, src.next.2⟩
  | .ok t =>
    match s.step t with
    | .error i => ⟨.error (i.toDiagnostic src.settings), src.next.2⟩
    | .ok s' => if _ht : t.isEof then ⟨.ok (s'.program t), src.next.2⟩ else run s' src.next.2
termination_by src.rest.length
decreasing_by exact Stream.length_next (_h ▸ Stream.more_ok (Bool.eq_false_iff.2 _ht))

def warnings (p : Parse) : List Diagnostic := p.stream.warnings

def heard (p : Parse) : List Diagnostic := p.stream.heard

end Parse

namespace Program

def parse (settings : Settings) (text : List Char) : Parse :=
  Parse.run .initial (.ofText settings text)

def parseBytes (settings : Settings) (bytes : List UInt8) : Parse :=
  parse settings (Utf8.decode bytes)

/-- The text stops in the middle of a construct or of a comment, so more text may complete it. -/
def needsMore (text : List Char) : Bool :=
  let p := parse {} text
  match p.result with
  | .error d => (Failure.diagnostic d).isIncomplete
  | .ok _ => !p.warnings.isEmpty

end Program

end SmallMl
