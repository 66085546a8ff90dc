import SmallMl.Grammar.Parse
import SmallMl.Text.Blank
import SmallMl.Tree.Outline
import SmallMl.Tree.Sexp

/-!
# Interactive sessions

A session asks for a line, reads what was typed and shows it, in one line for each expression or as
an outline.  Lines are collected as long as they need more (`Program.needsMore`); an empty line
submits what has been typed so far.  A submitted text that starts with a colon is a command.

`Session.feed` says what one entry does: the events it causes and the session after it.
`Session.run` feeds a whole script, with a prompt in front of every entry.  When the script is at
its end the session is, too.  `Session.script` is the script of bytes that come in without an editor
of lines: each line is an entry, and a line that is too long to be taken at once is several.
-/

namespace SmallMl

/-- What comes in at a prompt. -/
inductive Session.Input
  | line (text : List Char)
  /-- The line is given up, and what has been typed so far with it. -/
  | abort
  /-- No more lines can be read. -/
  | failure

inductive Event
  | prompt (text : String)
  | out (text : String)
  | err (text : String)
  /-- An entry to remember. -/
  | history (entry : String)
  deriving DecidableEq

/-- A session between two entries. -/
structure Session where
  /-- Expressions are shown as outlines. -/
  tree : Bool
  /-- Somebody remembers what was submitted. -/
  remembers : Bool
  /-- What has been typed and not been submitted yet. -/
  buffer : List Char
  deriving DecidableEq

structure Reply where
  events : List Event
  session : Session
  /-- The session goes on. -/
  goesOn : Bool

namespace Session

def start (tree remembers : Bool) : Session := ⟨tree, remembers, []⟩

def promptText (s : Session) : String := if s.buffer.isEmpty then "# " else "  "

def line (s : String) : String := s ++ "\n"

def clear (s : Session) : Session := { s with buffer := [] }

def helpText : List String :=
  [":tree  print the full syntax tree with source ranges",
    ":sexp  print compact S-expressions (default)",
    ":quit  leave"]

def command (s : Session) (cmd : List Char) : Reply :=
  match String.ofList cmd with
  | ":quit" | ":q" => ⟨[], s, false⟩
  | ":tree" => ⟨[], { s with tree := true }, true⟩
  | ":sexp" => ⟨[], { s with tree := false }, true⟩
  | ":help" => ⟨helpText.map fun l => .out (line l), s, true⟩
  | c => ⟨[.err (line ("unknown command " ++ c ++ "; type :help"))], s, true⟩

def shown (s : Session) (p : Program) : List Event :=
  if s.tree then [.out (Node.program p).outlineText]
  else p.items.map fun e => .out (line e.sexpText)

def eval (s : Session) (text : List Char) : List Event :=
  let p := Program.parse ⟨"", true⟩ text
  p.heard.map (fun d => .err (line d.report)) ++
    match p.result with
    | .error d => [.err (line d.report)]
    | .ok program => s.shown program

def historyEntry (text : List Char) : String :=
  String.ofList (text.map fun c => if c = '\n' then ' ' else c)

def submit (s : Session) (text : List Char) : Reply :=
  match Blank.trim text with
  | [] => ⟨[], s, true⟩
  | ':' :: cs => s.command (':' :: cs)
  | _ =>
    ⟨(if s.remembers then [.history (historyEntry text)] else []) ++ s.eval text, s, true⟩

def extend (s : Session) (l : List Char) : List Char :=
  if s.buffer.isEmpty then l else s.buffer ++ '\n' :: l

def feed (s : Session) : Input → Reply
  | .abort => ⟨[], s.clear, true⟩
  | .failure => ⟨[.out "\n"], s.clear, false⟩
  | .line l =>
    if !s.buffer.isEmpty && Blank.isBlank l then s.clear.submit s.buffer
    else if Program.needsMore (s.extend l) then ⟨[], { s with buffer := s.extend l }, true⟩
    else s.clear.submit (s.extend l)

/-- What a script does: the events, the session at its end and the number of entries not read. -/
structure Run where
  events : List Event
  session : Session
  unread : Nat

def run (s : Session) : List Input → Run
  | [] => ⟨[.prompt s.promptText, .out "\n"], s.clear, 0⟩
  | i :: is =>
    let r := s.feed i
    if r.goesOn then
      let rest := run r.session is
      ⟨.prompt s.promptText :: r.events ++ rest.events, rest.session, rest.unread⟩
    else ⟨.prompt s.promptText :: r.events, r.session, is.length⟩

/-! ### Lines that are typed ahead -/

/-- The bytes of a line, its end included, that are taken at once. -/
def lineRoom : Nat := 4096

/-- The line without the carriage return at its end; its last byte comes first. -/
def dropReturn : List UInt8 → List UInt8
  | 13 :: r => r
  | r => r

/-- Cuts a byte string into lines.  A line that has no room is cut into pieces, but not between a
carriage return and what follows it.  `acc` is the current piece, its last byte first, and `room`
the number of bytes that may still be added. -/
def cut (acc : List UInt8) (room : Nat) : List UInt8 → List (List UInt8)
  | [] => if acc.isEmpty then [] else [acc.reverse]
  | b :: bs =>
    if b = 10 then (dropReturn acc).reverse :: cut [] lineRoom bs
    else if 1 < room then cut (b :: acc) (room - 1) bs
    else if b = 13 then acc.reverse :: cut [b] (lineRoom - 1) bs
    else (b :: acc).reverse :: cut [] lineRoom bs

/-- The lines of a byte string, in pieces of at most `lineRoom` bytes.  The last line need not have
an end. -/
def pieces (bytes : List UInt8) : List (List UInt8) := cut [] lineRoom bytes

def script (bytes : List UInt8) : List Input :=
  (pieces bytes).map fun p => .line (Utf8.decode p)

end Session

namespace Event

/-- Neighbouring writes to one channel are one write. -/
def join : List Event → List Event
  | [] => []
  | e :: es =>
    match e, join es with
    | out a, out b :: r => out (a ++ b) :: r
    | err a, err b :: r => err (a ++ b) :: r
    | e, r => e :: r

def toOut : Event → String
  | prompt s | out s => s
  | _ => ""

def toErr : Event → String
  | err s => s
  | _ => ""

end Event

end SmallMl
