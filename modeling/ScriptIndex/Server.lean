import ScriptIndex.Protocol.Messages

/-!
# The server

What the server does with a message: the workspace after it, the messages it sends and, for a
request, the reply. The disk is a reader given with each message.

* `Server.publish` — the findings about a document, as they are now;
* `Server.handle` — one message.

After a change the findings are sent for the changed document and for every open document whose
symbols were dropped because of it.
-/

namespace ScriptIndex

structure Response where
  sent : List ServerMessage := []
  /-- The reply, if the message was a request. -/
  reply : Option Reply := none

namespace Server

/-- Computes the findings about a document and sends them, with the version they are for. -/
def publish (disk : SourceReader) (ws : Workspace) (uri : Uri) : Outcome Workspace ServerMessage :=
  let version := (ws.document? uri).bind Document.version
  let outcome := Query.diagnostics ws disk uri
  { value := .publish uri outcome.value version
    state := outcome.state
    events := outcome.events ++ [.publishing outcome.value.length uri.text] }

/-- Sends the findings about several documents, one after the other. -/
def publishAll (disk : SourceReader) (ws : Workspace) : List Uri → Outcome Workspace (List ServerMessage)
  | [] => { value := [], state := ws }
  | uri :: rest =>
    let first := publish disk ws uri
    let others := publishAll disk first.state rest
    { value := first.value :: others.value
      state := others.state
      events := first.events ++ others.events }

/-- Sends the findings about several documents after a step that reported `events`. -/
def publishAfter (disk : SourceReader) (ws : Workspace) (events : List Event) (uris : List Uri) :
    Outcome Workspace Response :=
  let outcome := publishAll disk ws uris
  { value := { sent := outcome.value }, state := outcome.state, events := events ++ outcome.events }

/-- Extracts a document again and sends the findings about it and about those that depend on it. -/
def refreshAndPublish (disk : SourceReader) (ws : Workspace) (uri : Uri) : Outcome Workspace Response :=
  let outcome := ws.refresh disk uri
  let stale := (outcome.value.map Workspace.Refreshed.stale).getD []
  publishAfter disk outcome.state outcome.events (uri :: stale)

/-- Takes settings from JSON and puts them in use, if there are usable ones. -/
def configureFrom (ws : Workspace) (json : Json) : Outcome Workspace (Option Bool) :=
  let result := Settings.ofJson json
  let events := Settings.readEvents result
  match result with
  | .ok (some settings) =>
    let outcome := ws.configure settings
    { value := some outcome.value, state := outcome.state, events := events ++ outcome.events }
  | _ => { value := none, state := ws, events }

/-- The events of announcing what to work on; folders, even none of them, go before a root. -/
def folderEvents (folders : Option (List Uri)) (root : Option Uri) : List Event :=
  match folders, root with
  | some folders, _ => folders.map fun uri => .folderAdded uri.text
  | none, some root => [.rootAdded root.text]
  | none, none => []

def start (ws : Workspace) (hello : Hello) : Outcome Workspace Response :=
  let opening := .starting :: folderEvents hello.folders hello.root
  match hello.options with
  | none => { value := { reply := some .capabilities }, state := ws, events := opening }
  | some json =>
    let outcome := configureFrom ws json
    { value := { reply := some .capabilities }
      state := outcome.state
      events := opening ++ outcome.events }

def change (disk : SourceReader) (ws : Workspace) (uri : Uri) (version : Int) (changes : List Change) :
    Outcome Workspace Response :=
  match ws.document? uri with
  | none => { value := {}, state := ws, events := [.unknownDocument uri.text] }
  | some document =>
    let document := { document.applyAll changes with version := some version }
    refreshAndPublish disk (ws.openDocument uri document) uri

def reconfigure (disk : SourceReader) (ws : Workspace) (json : Json) : Outcome Workspace Response :=
  let outcome := configureFrom ws json
  let events := .settingsAnnounced :: outcome.events
  match outcome.value with
  | none => { value := {}, state := ws, events := events ++ [.settingsKept] }
  | some _ => publishAfter disk outcome.state events (ws.documents.map OpenDocument.uri)

/-- The file that a change on disk is about, unless it is open or no source file. -/
def changedFile? (ws : Workspace) (uri : Uri) : Option Path :=
  if ws.isOpen uri then none
  else uri.toPath?.filter ws.settings.isSourceFile

/-- Adds a change on disk to the open documents affected so far. -/
def noteChange (soFar : Outcome Workspace (List Uri)) (uri : Uri) : Outcome Workspace (List Uri) :=
  match changedFile? soFar.state uri with
  | none => soFar
  | some file =>
    let outcome := soFar.state.fileChanged file
    { value := soFar.value ++ outcome.value.filter fun other => !soFar.value.contains other
      state := outcome.state
      events := soFar.events ++ outcome.events }

/-- Notes all changes on disk that one message tells of. -/
def noteAll (ws : Workspace) (uris : List Uri) : Outcome Workspace (List Uri) :=
  uris.foldl noteChange { value := [], state := ws, events := [.filesChanged uris.length] }

/-- What noting a change keeps holds once all changes are noted. -/
theorem noteAll_induction {P : Outcome Workspace (List Uri) → Prop} (ws : Workspace) (uris : List Uri)
    (hstart : P { value := [], state := ws, events := [.filesChanged uris.length] })
    (hnote : ∀ soFar uri, P soFar → P (noteChange soFar uri)) : P (noteAll ws uris) :=
  List.foldlRecOn uris noteChange hstart fun soFar hsoFar uri _ => hnote soFar uri hsoFar

def filesChanged (disk : SourceReader) (ws : Workspace) (uris : List Uri) : Outcome Workspace Response :=
  let outcome := noteAll ws uris
  publishAfter disk outcome.state outcome.events outcome.value

def replying {α : Type} (reply : α → Reply) (outcome : Outcome Workspace α) :
    Outcome Workspace Response :=
  { value := { reply := some (reply outcome.value) }, state := outcome.state, events := outcome.events }

def handle (disk : SourceReader) (ws : Workspace) : ClientMessage → Outcome Workspace Response
  | .hello hello => start ws hello
  | .ready =>
    { value := { sent := [.watchFiles ws.settings.fileExtension] }, state := ws, events := [.clientReady] }
  | .shutdown => { value := { reply := some .done }, state := ws, events := [.shuttingDown] }
  | .didOpen uri version text =>
    refreshAndPublish disk (ws.openDocument uri { text, version := some version }) uri
  | .didChange uri version changes => change disk ws uri version changes
  | .didSave uri => refreshAndPublish disk ws uri
  | .didClose uri =>
    let outcome := ws.close uri
    { value := { sent := [.publish uri [] none] }, state := outcome.state, events := outcome.events }
  | .didChangeConfiguration settings => reconfigure disk ws settings
  | .didChangeWatchedFiles uris => filesChanged disk ws uris
  | .completion uri => replying .completion (Query.completion ws disk uri)
  | .hover uri position => replying .hover (Query.hover ws disk uri position)
  | .definition uri position => replying .definition (Query.definition ws disk uri position)
  | .signatureHelp uri position => replying .signatureHelp (Query.signatureHelp ws disk uri position)

end Server

end ScriptIndex
