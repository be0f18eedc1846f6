import ScriptIndex.Identifier
import ScriptIndex.Workspace

/-!
# What an editor asks

Answers about a position in an open document, from the symbols of that document. The word or the
call at the cursor is looked at first: without one, no symbols are asked for.

* `Query.completion` — the functions in reach, then the other words of the document;
* `Query.hover`, `Query.definition`, `Query.signatureHelp` — the function at the cursor;
* `Query.diagnostics` — the directives of a document that lead into a cycle.
-/

namespace ScriptIndex

structure Location where
  uri : Uri
  range : Range
deriving DecidableEq, Repr

inductive CompletionItem where
  /-- A function, with its signature and its documentation. -/
  | function (label detail documentation : String)
  | word (label : String)
deriving DecidableEq, Repr

/-- The signature of the function that is being called. -/
structure SignatureHelp where
  label : String
  documentation : Option String
  parameters : List String
  /-- The parameter the cursor is at, if the function has parameters. -/
  active : Option Nat
deriving DecidableEq, Repr

structure Diagnostic where
  range : Range
  severity : Severity
  message : String
deriving DecidableEq, Repr

def CompletionItem.label : CompletionItem → String
  | function label _ _ => label
  | word label => label

namespace Query

/-- The row of a position and the number of characters before it in that row. -/
def cursor? (ws : Workspace) (uri : Uri) (position : Position) : Option (List Char × Nat) :=
  (ws.document? uri).map fun document =>
    let line := document.lineText position.line
    (line, Text.indexOfColumn line position.character)

def word? (ws : Workspace) (uri : Uri) (position : Position) : Option String :=
  match cursor? ws uri position with
  | none => none
  | some (line, offset) =>
    match Identifier.wordAt line offset with
    | [] => none
    | word => some (String.ofList word)

/-- The function of a name among the symbols of a document. -/
def function (ws : Workspace) (disk : SourceReader) (uri : Uri) (name : String) :
    Outcome Workspace (Option Declaration) :=
  let outcome := ws.symbols disk uri
  { value := outcome.value.bind fun symbols => symbols.find? name
    state := outcome.state
    events := outcome.events }

/-- The function whose name stands at a position. -/
def functionAt (ws : Workspace) (disk : SourceReader) (uri : Uri) (position : Position) :
    Outcome Workspace (Option Declaration) :=
  match word? ws uri position with
  | none => { value := none, state := ws }
  | some name => function ws disk uri name

/-! ### Completion -/

/-- The completions for the symbols and the text of a document. -/
def completionItems (settings : Settings) (symbols : FileSymbols) (text : List Char) :
    List CompletionItem :=
  let functions := symbols.functions.map fun d => .function d.name d.signature d.markdown
  let words :=
    if settings.identifierCompletions then
      Identifier.harvest text (symbols.functions.map Declaration.name)
    else []
  functions ++ words.map .word

def completion (ws : Workspace) (disk : SourceReader) (uri : Uri) :
    Outcome Workspace (Option (List CompletionItem)) :=
  let outcome := ws.symbols disk uri
  match outcome.value, ws.document? uri with
  | some symbols, some document =>
    let items := completionItems ws.settings symbols document.chars
    { value := some items
      state := outcome.state
      events := outcome.events ++ [.completed uri.text items.length] }
  | _, _ => { value := none, state := outcome.state, events := outcome.events }

/-! ### The function at the cursor -/

/-- The documentation and signature of the function at a position, as markdown. -/
def hover (ws : Workspace) (disk : SourceReader) (uri : Uri) (position : Position) :
    Outcome Workspace (Option String) :=
  let outcome := functionAt ws disk uri position
  { outcome with value := outcome.value.map Declaration.markdown }

def locate? (d : Declaration) : Option Location :=
  (Uri.ofPath? d.file).map fun uri =>
    let start : Position := { line := d.line, character := 0 }
    { uri, range := { start, stop := start } }

/-- The header of the function at a position, in the file that declares it. -/
def definition (ws : Workspace) (disk : SourceReader) (uri : Uri) (position : Position) :
    Outcome Workspace (Option Location) :=
  let outcome := functionAt ws disk uri position
  { outcome with value := outcome.value.bind locate? }

/-- The signature of a function, with the cursor at an argument. Arguments beyond the last parameter
count for the last. -/
def helpFor (d : Declaration) (argument : Nat) : SignatureHelp where
  label := d.signature
  documentation := if d.doc = "" then none else some d.doc
  parameters := d.parameters.map Parameter.label
  active := if d.parameters.isEmpty then none else some (min argument (d.parameters.length - 1))

/-- The signature of the function that is called around a position. -/
def signatureHelp (ws : Workspace) (disk : SourceReader) (uri : Uri) (position : Position) :
    Outcome Workspace (Option SignatureHelp) :=
  match (cursor? ws uri position).bind fun (line, offset) => CallSite.around? line offset with
  | none => { value := none, state := ws }
  | some call =>
    let outcome := function ws disk uri call.callee
    { value := outcome.value.map fun d => helpFor d call.argument
      state := outcome.state
      events := outcome.events }

/-! ### Diagnostics -/

/-- The finding about a directive that leads into a cycle, on the whole row of the directive. -/
def diagnose (settings : Settings) (document : Document) (cycle : CircularRequire) : Diagnostic where
  range :=
    { start := { line := cycle.line, character := 0 }
      stop := { line := cycle.line, character := Text.width (document.lineText cycle.line) } }
  severity := settings.circularRequireSeverity
  message := "Circular require: '" ++ cycle.module ++ "' (" ++ cycle.target.text ++
    ") leads back to a file that is already being resolved"

def diagnostics (ws : Workspace) (disk : SourceReader) (uri : Uri) :
    Outcome Workspace (List Diagnostic) :=
  let outcome := ws.symbols disk uri
  match outcome.value, ws.document? uri with
  | some symbols, some document =>
    { outcome with value := symbols.cycles.map (diagnose ws.settings document) }
  | _, _ => { outcome with value := [] }

end Query

end ScriptIndex
