import SmallMl.Diagnostic
import SmallMl.Source.Utf8
import SmallMl.Token.Lexeme

/-!
# Streams of tokens

A `Stream` reads a source text token by token.  `Stream.read` gives the next token, comments
included; `Stream.next` passes over comments.  A lexeme that is no token gives a diagnostic, and
reading goes on behind it.  At the end of the text both give the end token again and again.

A comment that the text ends in is no error but a warning.  Warnings are kept in the order in which
they arise, and the listener, if there is one, hears each of them at once.

* `Stream.length_read`: every result but the end token leaves less text.
* `Stream.readAll`, `Stream.nextAll`: all results up to and including the end token.
-/

namespace SmallMl

/-- What a reader of a source text is told about it. -/
structure Settings where
  /-- The name shown in diagnostics; empty if there is none. -/
  filename : String := ""
  /-- Somebody listens to warnings. -/
  listening : Bool := false
  deriving DecidableEq, Inhabited

structure Stream where
  settings : Settings
  /-- The characters not read yet. -/
  rest : List Char
  /-- The place in front of `rest`. -/
  loc : Location
  /-- The warnings so far, the first one first. -/
  warnings : List Diagnostic
  /-- The warnings that the listener has heard. -/
  heard : List Diagnostic
  deriving DecidableEq

namespace Fault

def toDiagnostic (f : Fault) (settings : Settings) (loc : Location) : Diagnostic :=
  ⟨loc, f.message, .error, .lexer, settings.filename, false⟩

end Fault

namespace Stream

def ofText (settings : Settings) (text : List Char) : Stream := ⟨settings, text, .start, [], []⟩

def ofBytes (settings : Settings) (bytes : List UInt8) : Stream :=
  ofText settings (Utf8.decode bytes)

/-- The warning about a comment that starts at `loc` and does not end. -/
def unclosedComment (settings : Settings) (loc : Location) : Diagnostic :=
  ⟨loc, "unterminated comment", .warning, .lexer, settings.filename, false⟩

def warn (s : Stream) (d : Diagnostic) : Stream :=
  { s with
    warnings := s.warnings ++ [d]
    heard := if s.settings.listening then s.heard ++ [d] else s.heard }

def here (s : Stream) : Location := s.loc.after (s.rest.takeWhile Lexeme.isBlank)

def body (s : Stream) : List Char := s.rest.dropWhile Lexeme.isBlank

def endToken (loc : Location) : Token := ⟨.eof, ⟨loc, loc⟩, []⟩

def behind (s : Stream) (l : Lexeme) : Stream :=
  let s' := { s with rest := l.rest, loc := s.here.after l.text }
  if l.unclosed then s'.warn (unclosedComment s.settings s.here) else s'

/-- The lexeme `l` as a result: a token, or an error at its start. -/
def result (s : Stream) (l : Lexeme) : Except Diagnostic Token :=
  match l.found with
  | .ok k => .ok ⟨k, ⟨s.here, s.here.after l.text⟩, l.text⟩
  | .error f => .error (f.toDiagnostic s.settings s.here)

/-- The next token, comments included. -/
def read (s : Stream) : Except Diagnostic Token × Stream :=
  match s.body with
  | [] => (.ok (endToken s.here), { s with rest := [], loc := s.here })
  | c :: r => (s.result (Lexeme.read c r), s.behind (Lexeme.read c r))

/-! ### Progress -/

theorem length_body_le (s : Stream) : s.body.length ≤ s.rest.length :=
  (List.dropWhile_suffix _).length_le

@[simp] theorem rest_warn (s : Stream) (d : Diagnostic) : (s.warn d).rest = s.rest := rfl

@[simp] theorem rest_behind (s : Stream) (l : Lexeme) : (s.behind l).rest = l.rest := by
  unfold behind
  split <;> rfl

def More (r : Except Diagnostic Token) : Prop := ∀ t, r = .ok t → t.isEof = false

theorem more_error (d : Diagnostic) : More (.error d) := by
  intro t h
  cases h

theorem more_ok {t : Token} (h : t.isEof = false) : More (.ok t) := by
  intro t' h'
  cases h'
  exact h

/-- **Progress**: a result other than the end token leaves less text. -/
theorem length_read {s : Stream} (h : More s.read.1) : s.read.2.rest.length < s.rest.length := by
  have hb := s.length_body_le
  unfold read at h ⊢
  split at h
  · exact Bool.noConfusion (h _ rfl)
  · next c r hc =>
    have hl := Lexeme.length_rest_lt c r
    rw [hc] at hb
    simp only [List.length_cons] at hb
    simp only [rest_behind]
    omega

/-- The next token that is no comment. -/
def next (s : Stream) : Except Diagnostic Token × Stream :=
  match _h : s.read.1 with
  | .ok t => if _hc : t.isComment then next s.read.2 else (.ok t, s.read.2)
  | .error d => (.error d, s.read.2)
termination_by s.rest.length
decreasing_by exact length_read (_h ▸ more_ok (Token.isEof_of_isComment _hc))

theorem length_next {s : Stream} (h : More s.next.1) : s.next.2.rest.length < s.rest.length := by
  fun_induction next s with
  | case1 s t ht hc ih =>
    have := length_read (ht ▸ more_ok (Token.isEof_of_isComment hc) : More s.read.1)
    exact Nat.lt_trans (ih h) this
  | case2 s t ht hc => exact length_read (ht ▸ h)
  | case3 s d hd => exact length_read (hd ▸ h)

/-! ### All results -/

/-- All results of `read` up to and including the end token, with the stream behind them. -/
def readAll (s : Stream) : List (Except Diagnostic Token) × Stream :=
  match _h : s.read.1 with
  | .ok t =>
    if _ht : t.isEof then ([.ok t], s.read.2)
    else
      let r := readAll s.read.2
      (.ok t :: r.1, r.2)
  | .error d =>
    let r := readAll s.read.2
    (.error d :: r.1, r.2)
termination_by s.rest.length
decreasing_by
  · exact length_read (_h ▸ more_ok (Bool.eq_false_iff.2 _ht))
  · exact length_read (_h ▸ more_error d)

/-- All results of `next` up to and including the end token, with the stream behind them. -/
def nextAll (s : Stream) : List (Except Diagnostic Token) × Stream :=
  match _h : s.next.1 with
  | .ok t =>
    if _ht : t.isEof then ([.ok t], s.next.2)
    else
      let r := nextAll s.next.2
      (.ok t :: r.1, r.2)
  | .error d =>
    let r := nextAll s.next.2
    (.error d :: r.1, r.2)
termination_by s.rest.length
decreasing_by
  · exact length_next (_h ▸ more_ok (Bool.eq_false_iff.2 _ht))
  · exact length_next (_h ▸ more_error d)

end Stream

end SmallMl
