import ScriptIndex.Protocol.Hello
import ScriptIndex.Protocol.Values

/-!
# Messages

The messages an editor sends, those it is sent, and the replies to its requests.

* `ClientMessage` — what an editor says, and `ClientMessage.read`, which takes it from JSON;
* `ServerMessage` — what it is told unasked;
* `Reply` — the result of a request.
-/

namespace ScriptIndex

inductive ClientMessage where
  | hello (hello : Hello)
  /-- The reply to the first request has arrived. -/
  | ready
  /-- The server is about to be ended. -/
  | shutdown
  | didOpen (uri : Uri) (version : Int) (text : String)
  | didChange (uri : Uri) (version : Int) (changes : List Change)
  | didSave (uri : Uri)
  | didClose (uri : Uri)
  | didChangeConfiguration (settings : Json)
  | didChangeWatchedFiles (uris : List Uri)
  | completion (uri : Uri)
  | hover (uri : Uri) (position : Position)
  | definition (uri : Uri) (position : Position)
  | signatureHelp (uri : Uri) (position : Position)

/-- A message to the editor that is not a reply. -/
inductive ServerMessage where
  /-- Asks to be told of changes to files with an extension. -/
  | watchFiles (extension : String)
  /-- The findings about a document, all of them. -/
  | publish (uri : Uri) (diagnostics : List Diagnostic) (version : Option Int)

inductive Reply where
  | capabilities
  | done
  | completion (items : Option (List CompletionItem))
  | hover (markdown : Option String)
  | definition (location : Option Location)
  | signatureHelp (help : Option SignatureHelp)

/-! ### Reading messages -/

namespace Json

def position? (json : Json) : Option Position := do
  let line ← (← json.get? "line").nat?
  let character ← (← json.get? "character").nat?
  return { line, character }

def range? (json : Json) : Option Range := do
  let start ← (← json.get? "start").position?
  let stop ← (← json.get? "end").position?
  return { start, stop }

def change? (json : Json) : Option Change := do
  let text ← (← json.get? "text").str?
  match json.getSome? "range" with
  | none => return { range := none, text }
  | some range => return { range := some (← range.range?), text }

def uri? (json : Json) : Option Uri :=
  (Uri.read json).toOption

def uriOf? (json : Json) : Option Uri := do
  (← json.get? "uri").uri?

/-- The URI of a file that has changed, which comes with the kind of the change. -/
def changedUri? (json : Json) : Option Uri := do
  let _ ← (← json.get? "type").int?
  json.uriOf?

/-- The document a message is about. -/
def document? (json : Json) : Option Json :=
  json.get? "textDocument"

/-- The document and the position a question is about. -/
def place? (json : Json) : Option (Uri × Position) := do
  let uri ← (← json.document?).uriOf?
  let position ← (← json.get? "position").position?
  return (uri, position)

end Json

namespace ClientMessage

/-- The message of a method other than the first request, with its parameters. -/
def read? (method : String) (params : Json) : Option ClientMessage :=
  match method with
  | "initialized" => some ready
  | "shutdown" => some shutdown
  | "textDocument/didOpen" => do
    let document ← params.document?
    let _ ← (← document.get? "languageId").str?
    let version ← (← document.get? "version").int?
    let text ← (← document.get? "text").str?
    return didOpen (← document.uriOf?) version text
  | "textDocument/didChange" => do
    let document ← params.document?
    let version ← (← document.get? "version").int?
    let changes ← (← (← params.get? "contentChanges").arr?).mapM Json.change?
    return didChange (← document.uriOf?) version changes
  | "textDocument/didSave" => do
    return didSave (← (← params.document?).uriOf?)
  | "textDocument/didClose" => do
    return didClose (← (← params.document?).uriOf?)
  | "workspace/didChangeConfiguration" => do
    return didChangeConfiguration (← params.get? "settings")
  | "workspace/didChangeWatchedFiles" => do
    let changes ← (← params.get? "changes").arr?
    return didChangeWatchedFiles (← changes.mapM Json.changedUri?)
  | "textDocument/completion" => do
    let (uri, _) ← params.place?
    return completion uri
  | "textDocument/hover" => do
    let (uri, position) ← params.place?
    return hover uri position
  | "textDocument/definition" => do
    let (uri, position) ← params.place?
    return definition uri position
  | "textDocument/signatureHelp" => do
    let (uri, position) ← params.place?
    return signatureHelp uri position
  | _ => none

/-- The message of a method with its parameters. -/
def read (method : String) (params : Json) : Except JsonFault ClientMessage :=
  if method = "initialize" then (Hello.read params).map hello
  else
    match read? method params with
    | some message => .ok message
    | none => .error .unfit

/-- The methods that are answered. -/
def requests : List String :=
  ["initialize", "shutdown", "textDocument/completion", "textDocument/hover",
    "textDocument/definition", "textDocument/signatureHelp"]

/-- The methods that are handled without an answer. -/
def notifications : List String :=
  ["initialized", "textDocument/didOpen", "textDocument/didChange", "textDocument/didSave",
    "textDocument/didClose", "workspace/didChangeConfiguration", "workspace/didChangeWatchedFiles"]

/-- The requests that are known and refused. -/
def refusedRequests : List String :=
  ["callHierarchy/incomingCalls", "callHierarchy/outgoingCalls", "codeAction/resolve",
    "codeLens/resolve", "completionItem/resolve", "documentLink/resolve", "inlayHint/resolve",
    "textDocument/codeAction", "textDocument/codeLens", "textDocument/colorPresentation",
    "textDocument/declaration", "textDocument/diagnostic", "textDocument/documentColor",
    "textDocument/documentHighlight", "textDocument/documentLink", "textDocument/documentSymbol",
    "textDocument/foldingRange", "textDocument/formatting", "textDocument/implementation",
    "textDocument/inlayHint", "textDocument/inlineValue", "textDocument/linkedEditingRange",
    "textDocument/moniker", "textDocument/onTypeFormatting", "textDocument/prepareCallHierarchy",
    "textDocument/prepareRename", "textDocument/prepareTypeHierarchy", "textDocument/rangeFormatting",
    "textDocument/references", "textDocument/rename", "textDocument/selectionRange",
    "textDocument/semanticTokens/full", "textDocument/semanticTokens/full/delta",
    "textDocument/semanticTokens/range", "textDocument/typeDefinition",
    "textDocument/willSaveWaitUntil", "typeHierarchy/subtypes", "typeHierarchy/supertypes",
    "workspace/diagnostic", "workspace/executeCommand", "workspace/symbol",
    "workspace/willCreateFiles", "workspace/willDeleteFiles", "workspace/willRenameFiles",
    "workspaceSymbol/resolve"]

/-- The notifications that are known and ignored. -/
def ignoredNotifications : List String :=
  ["$/cancelRequest", "textDocument/willSave", "workspace/didChangeWorkspaceFolders",
    "workspace/didCreateFiles", "workspace/didDeleteFiles", "workspace/didRenameFiles"]

/-- Whether a method is known and is answered. -/
def isRequest (method : String) : Bool :=
  requests.contains method || refusedRequests.contains method

/-- Whether a method is known and is not answered. -/
def isNotification (method : String) : Bool :=
  notifications.contains method || ignoredNotifications.contains method

end ClientMessage

/-! ### Writing messages -/

namespace ServerMessage

def method : ServerMessage → String
  | watchFiles _ => "client/registerCapability"
  | publish .. => "textDocument/publishDiagnostics"

/-- Whether the editor is expected to reply. -/
def isRequest : ServerMessage → Bool
  | watchFiles _ => true
  | publish .. => false

def params : ServerMessage → Json
  | watchFiles extension =>
    let watcher := Json.obj [("globPattern", .str ("**/*." ++ extension))]
    let registration := Json.obj
      [("id", .str "dasls-watched-files"), ("method", .str "workspace/didChangeWatchedFiles"),
        ("registerOptions", .obj [("watchers", .arr [watcher])])]
    .obj [("registrations", .arr [registration])]
  | publish uri diagnostics version =>
    .obj <| [("uri", .str uri.text), ("diagnostics", .arr (diagnostics.map Diagnostic.json))] ++
      Json.optional "version" (version.map Json.int)

end ServerMessage

namespace Reply

/-- What the server can do, as written in a message. -/
def capabilitiesJson (name version : String) : Json :=
  let triggers := fun characters => Json.obj [("triggerCharacters", .strings characters)]
  .obj
    [("capabilities", .obj
      [("textDocumentSync", .nat 2),
        ("hoverProvider", .bool true),
        ("completionProvider", triggers ["."]),
        ("signatureHelpProvider", triggers ["(", ","]),
        ("definitionProvider", .bool true)]),
      ("serverInfo", .obj [("name", .str name), ("version", .str version)])]

/-- The result of a request, as written in a message. -/
def json : Reply → Json
  | capabilities => capabilitiesJson "dasls" "0.1.0"
  | done => .null
  | completion items => .orNull (items.map fun items => .arr (items.map CompletionItem.json))
  | hover markdown => .orNull (markdown.map Query.hoverJson)
  | definition location => .orNull (location.map Location.json)
  | signatureHelp help => .orNull (help.map SignatureHelp.json)

end Reply

end ScriptIndex
