import SmallMl.Command.Arguments
import SmallMl.Command.Report
import SmallMl.Command.Session

/-!
# The command

The arguments decide on one action (`Action.ofArguments`).  The actions other than an interactive
session read at most one source; a session whose lines come from a file is run on all of them at
once, and its prompts go to the output like everything else it shows.
-/

namespace SmallMl

inductive Action
  /-- Explain the usage, after the reason why it is explained. -/
  | usage (reason : List String) (code : Nat)
  | version
  | session
  | noInput
  | tokens (name : String) (comments : Bool)
  | tree (name format : String)
  | check (name : String)
  deriving DecidableEq

namespace Action

def versionText : String := "0.1.0-dev"

def usageLines : List String :=
  ["MinCaml front end " ++ versionText, "", "Usage: mincamlc [options] <file.ml>",
    "       mincamlc -repl", "", "Options:"] ++
  Flag.all.flatMap fun f =>
    ["  -" ++ f.name ++ (if f.isSwitch then "" else " string"), "    \t" ++ f.description]

def banner : String :=
  String.join ["MinCaml front end ", versionText, ". Type :help for commands."]

def ofOptions (o : Options) (operands : List String) : Action :=
  if o.version then version
  else if o.repl then session
  else match operands with
    | [] => noInput
    | name :: _ =>
      if o.emitTokens then tokens name o.comments
      else if o.emitAst then tree name o.astFormat
      else check name

def ofArguments (args : List String) : Action :=
  match Arguments.read {} args with
  | .ok (o, operands) => ofOptions o operands
  | .error .help => usage [] Report.success
  | .error e => usage e.message Report.usageError

def sessionReport (bytes : List UInt8) : Report :=
  let r := (Session.start false true).run (Session.script bytes)
  ⟨Report.success, Report.unlines [banner] ++ String.join (r.events.map Event.toOut),
    String.join (r.events.map Event.toErr)⟩

def report (i : Inputs) : Action → Report
  | usage reason code => ⟨code, "", Report.unlines (reason ++ usageLines)⟩
  | version => ⟨Report.success, Report.unlines ["mincamlc version " ++ versionText], ""⟩
  | session => sessionReport i.stdin
  | noInput =>
    ⟨Report.usageError, "",
      Report.unlines ["error: no input file", "usage: mincamlc [options] <file.ml>"]⟩
  | tokens name comments => Report.tokens i name comments
  | tree name format => Report.tree i name format
  | check name => Report.check i name

end Action

end SmallMl
