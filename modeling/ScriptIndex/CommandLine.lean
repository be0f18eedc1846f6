/-!
# The command line

The arguments are read from left to right, and the first one that settles the matter wins.

* `CommandLine.action` — what the arguments ask for;
* `CommandLine.usage` — the help text.
-/

namespace ScriptIndex.CommandLine

inductive Action where
  | print (text : String)
  /-- Complain about an argument and end. -/
  | refuse (argument : String)
  /-- Serve an editor on standard input and output. -/
  | serve
deriving DecidableEq, Repr

/-- What is left behind by a run that does not serve. -/
structure Report where
  code : Nat
  out : String
  err : String
deriving DecidableEq, Repr

def version : String :=
  "dasls 0.1.0"

def usage : String :=
  version ++ ", a static daScript language server.\n" ++
  "\n" ++
  "Usage: dasls [OPTIONS]\n" ++
  "\n" ++
  "Available options:\n" ++
  "\n" ++
  "--stdio                      Start the LSP server using stdio transport\n" ++
  "--version                    Print the version\n" ++
  "--help                       Print this help message\n" ++
  "\n" ++
  "Logging is controlled with RUST_LOG, e.g. RUST_LOG=dasls=trace.\n" ++
  "\n"

/-- What the arguments ask for, once it is known whether serving was asked for before them. -/
def actionFrom (serving : Bool) : List String → Action
  | [] => if serving then .serve else .print usage
  | argument :: rest =>
    if argument = "--stdio" then actionFrom true rest
    else if argument = "--version" then .print (version ++ "\n")
    else if argument = "--help" then .print usage
    else .refuse argument

def action (arguments : List String) : Action :=
  actionFrom false arguments

/-- What a run leaves behind; one that serves ends silently when its input does. -/
def Action.report : Action → Report
  | print text => { code := 0, out := text, err := "" }
  | refuse argument => { code := 1, out := "", err := "Error: Unknown argument: '" ++ argument ++ "'\n" }
  | serve => { code := 0, out := "", err := "" }

end ScriptIndex.CommandLine
