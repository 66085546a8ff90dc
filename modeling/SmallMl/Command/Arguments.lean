import SmallMl.Text.Quoted

/-!
# Command-line arguments

Options start with one or two dashes.  A switch is set by its name alone, or to a truth value behind
an equals sign; the option with a value takes it from behind an equals sign or from the next
argument.  A later setting wins over an earlier one.  Options end at the first argument that is none
(a dash alone is none) and behind `--`.

`Arguments.read` gives the options and the arguments behind them, or what is wrong with the first
option that cannot be read.
-/

namespace SmallMl

inductive Flag
  | astFormat
  | comments
  | emitAst
  | emitTokens
  | repl
  | version
  deriving DecidableEq

namespace Flag

/-- The options in the order in which they are listed. -/
def all : List Flag := [astFormat, comments, emitAst, emitTokens, repl, version]

def name : Flag → String
  | astFormat => "ast-format"
  | comments => "comments"
  | emitAst => "emit-ast"
  | emitTokens => "emit-tokens"
  | repl => "repl"
  | version => "version"

/-- The option is set or not and has no value. -/
def isSwitch : Flag → Bool
  | astFormat => false
  | _ => true

def description : Flag → String
  | astFormat => "AST output format (text or json) (default \"text\")"
  | comments => "Include comments in the token stream"
  | emitAst => "Output AST"
  | emitTokens => "Output token stream"
  | repl => "Start an interactive read-parse-print loop"
  | version => "Print version"

def ofName? (s : String) : Option Flag := all.find? (·.name == s)

end Flag

structure Options where
  astFormat : String := "text"
  comments : Bool := false
  emitAst : Bool := false
  emitTokens : Bool := false
  repl : Bool := false
  version : Bool := false
  deriving DecidableEq

namespace Options

def setSwitch (o : Options) (f : Flag) (b : Bool) : Options :=
  match f with
  | .astFormat => o
  | .comments => { o with comments := b }
  | .emitAst => { o with emitAst := b }
  | .emitTokens => { o with emitTokens := b }
  | .repl => { o with repl := b }
  | .version => { o with version := b }

def setValue (o : Options) (f : Flag) (v : String) : Options :=
  match f with
  | .astFormat => { o with astFormat := v }
  | _ => o

end Options

inductive FlagError
  | badForm (arg : String)
  | undefined (name : String)
  | badTruthValue (value name : String)
  | needsValue (name : String)
  /-- Help was asked for. -/
  | help
  deriving DecidableEq

namespace FlagError

def message : FlagError → List String
  | badForm arg => ["bad flag syntax: " ++ arg]
  | undefined name => ["flag provided but not defined: -" ++ name]
  | badTruthValue value name =>
    ["invalid boolean value " ++ Quoted.text value ++ " for -" ++ name ++ ": parse error"]
  | needsValue name => ["flag needs an argument: -" ++ name]
  | help => []

end FlagError

namespace Arguments

def truthValue? : String → Option Bool
  | "1" | "t" | "T" | "TRUE" | "true" | "True" => some true
  | "0" | "f" | "F" | "FALSE" | "false" | "False" => some false
  | _ => none

inductive Shape
  /-- No option; options end in front of it. -/
  | operand
  /-- The mark behind which options end. -/
  | terminator
  | bad
  /-- An option with its name and the value behind the equals sign. -/
  | option (name : List Char) (value : Option (List Char))

def splitValue : List Char → List Char × Option (List Char)
  | [] => ([], none)
  | c :: cs =>
    match cs.dropWhile (· != '=') with
    | [] => (c :: cs, none)
    | _ :: value => (c :: cs.takeWhile (· != '='), some value)

def named : List Char → Shape
  | [] => .bad
  | c :: cs =>
    if c = '-' || c = '=' then .bad
    else .option (splitValue (c :: cs)).1 (splitValue (c :: cs)).2

def shape : List Char → Shape
  | '-' :: '-' :: [] => .terminator
  | '-' :: '-' :: cs => named cs
  | '-' :: c :: cs => named (c :: cs)
  | _ => .operand

def read (o : Options) : List String → Except FlagError (Options × List String)
  | [] => .ok (o, [])
  | arg :: rest =>
    match shape arg.toList with
    | .operand => .ok (o, arg :: rest)
    | .terminator => .ok (o, rest)
    | .bad => .error (.badForm arg)
    | .option name value =>
      let name := String.ofList name
      match Flag.ofName? name with
      | none => .error (if name = "help" || name = "h" then .help else .undefined name)
      | some f =>
        if f.isSwitch then
          match value with
          | none => read (o.setSwitch f true) rest
          | some v =>
            match truthValue? (String.ofList v) with
            | some b => read (o.setSwitch f b) rest
            | none => .error (.badTruthValue (String.ofList v) name)
        else
          match value with
          | some v => read (o.setValue f (String.ofList v)) rest
          | none =>
            match rest with
            | v :: rest => read (o.setValue f v) rest
            | [] => .error (.needsValue name)

end Arguments

end SmallMl
