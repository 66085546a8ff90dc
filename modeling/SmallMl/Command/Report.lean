import SmallMl.Command.Folder
import SmallMl.Grammar.Parse
import SmallMl.Text.Escaped
import SmallMl.Tree.Outline
import SmallMl.Tree.Record

/-!
# Commands on files

A command reads one source and reports: what goes to the two output channels and the exit code.

* `Report.check` only says what is wrong with the source.
* `Report.tree` shows the program as an outline or as JSON.
* `Report.tokens` lists the tokens, with their ranges, kinds, classes and literals; it goes on after
  errors and lists them at the end.

All three show warnings, and their errors have the same texts.
-/

namespace SmallMl

/-- Where sources come from. -/
structure Inputs where
  file : String → Except ReadError (List UInt8)
  stdin : List UInt8
  /-- Why the standard input cannot be read, if it cannot. -/
  stdinError : Option ReadError := none

namespace Inputs

def stdinName : String := "-"

/-- The name under which the system knows the standard input. -/
def stdinPath : String := "/dev/stdin"

def load (i : Inputs) (name : String) : Except Failure (List UInt8) :=
  if name = stdinName then
    match i.stdinError with
    | none => .ok i.stdin
    | some e => .error (.noted "read standard input" (.plain (e.message stdinPath)))
  else match i.file name with
    | .ok bytes => .ok bytes
    | .error e => .error (.noted ("read " ++ name) (.plain (e.message name)))

def displayName (name : String) : String := if name = stdinName then "<stdin>" else name

def settings (name : String) : Settings := ⟨displayName name, true⟩

end Inputs

structure Report where
  code : Nat
  stdout : String
  stderr : String
  deriving DecidableEq

namespace Report

def success : Nat := 0

def inputError : Nat := 1

def usageError : Nat := 2

def unlines (ls : List String) : String := String.join (ls.map (· ++ "\n"))

def ofFailure (f : Failure) : Report := ⟨inputError, "", unlines [f.report]⟩

def parsed (i : Inputs) (name : String) (f : Program → Except Failure String) : Report :=
  match i.load name with
  | .error e => ofFailure e
  | .ok bytes =>
    let p := Program.parseBytes (Inputs.settings name) bytes
    let warnings := p.heard.map Diagnostic.report
    match p.result with
    | .error d => ⟨inputError, "", unlines (warnings ++ [(Failure.diagnostic d).report])⟩
    | .ok program =>
      match f program with
      | .error e => ⟨inputError, "", unlines (warnings ++ [e.report])⟩
      | .ok out => ⟨success, out, unlines warnings⟩

def check (i : Inputs) (name : String) : Report := parsed i name fun _ => .ok ""

inductive Format
  | text
  | json
  deriving DecidableEq

namespace Format

def ofName? : String → Option Format
  | "text" => some text
  | "json" => some json
  | _ => none

def write : Format → Program → Except Failure String
  | text, p => .ok (Node.program p).outlineText
  | json, p =>
    match Json.encode (Node.program p).record with
    | .ok s => .ok s
    | .error u => .error (.noted "encode AST" (.plain u.message))

end Format

/-- Shows the program of the source in the format of the given name. -/
def tree (i : Inputs) (name format : String) : Report :=
  match Format.ofName? format with
  | none =>
    ⟨usageError, "",
      unlines ["error: unknown AST format " ++ Quoted.text format ++ " (want text or json)"]⟩
  | some f => parsed i name f.write

/-! ### The table of tokens -/

def pad (width : Nat) (s : String) : String :=
  s ++ String.ofList (List.replicate (width - s.length) ' ')

def row (range kind className literal : String) : String :=
  pad 20 range ++ " " ++ pad 12 kind ++ " " ++ pad 8 className ++ " " ++ literal

def rule (n : Nat) : String := String.ofList (List.replicate n '-')

def tableHead : List String :=
  [row "RANGE" "TOKEN" "CLASS" "LITERAL", row (rule 20) (rule 12) (rule 8) (rule 20)]

def tokenRow (t : Token) : String :=
  row t.range.render t.kind.name t.kind.className (String.ofList (Escaped.literal t.lit))

def tokensOf (rs : List (Except Diagnostic Token)) : List Token :=
  rs.filterMap fun
    | .ok t => some t
    | .error _ => none

def errorsOf (rs : List (Except Diagnostic Token)) : List Diagnostic :=
  rs.filterMap fun
    | .ok _ => none
    | .error d => some d

def errorLines (ds : List Diagnostic) : List String :=
  if ds.isEmpty then [] else "" :: "Errors:" :: ds.map fun d => "  " ++ d.report

def tokens (i : Inputs) (name : String) (comments : Bool) : Report :=
  match i.load name with
  | .error e => ofFailure e
  | .ok bytes =>
    let s := Stream.ofBytes (Inputs.settings name) bytes
    let (results, s') := if comments then s.readAll else s.nextAll
    let errors := errorsOf results
    ⟨if errors.isEmpty then success else inputError,
      unlines (tableHead ++ (tokensOf results).map tokenRow ++ errorLines errors),
      unlines (s'.heard.map Diagnostic.report)⟩

end Report

end SmallMl
