import ScriptIndex.Document
import ScriptIndex.Extraction
import ScriptIndex.Uri

/-!
# The workspace

The open documents, the settings and the symbol cache. What is open in the editor is read from
there, everything else from the disk, which is a reader given at each step.

* `Workspace.reader` — open documents before the disk;
* `Workspace.symbols`, `Workspace.refresh` — the symbols of an open document;
* `Workspace.fileChanged`, `Workspace.close`, `Workspace.configure` — what makes symbols stale.
-/

namespace ScriptIndex

structure OpenDocument where
  uri : Uri
  document : Document
deriving DecidableEq, Repr

/-- The state of the index. -/
structure Workspace where
  settings : Settings := {}
  /-- The open documents, one for each address. -/
  documents : List OpenDocument := []
  cache : SymbolCache := {}
deriving DecidableEq, Repr

namespace Workspace

/-! ### Documents -/

def document? (ws : Workspace) (uri : Uri) : Option Document :=
  (Keyed.find? OpenDocument.uri uri ws.documents).map OpenDocument.document

def isOpen (ws : Workspace) (uri : Uri) : Bool :=
  Keyed.has OpenDocument.uri uri ws.documents

/-- The open document that a path names. -/
def documentAt? (ws : Workspace) (path : Path) : Option Document :=
  match Uri.ofPath? path with
  | some uri => ws.document? uri
  | none => none

/-- Reads open documents, and from `disk` what is not open. -/
def reader (ws : Workspace) (disk : SourceReader) : SourceReader where
  isFile path := (ws.documentAt? path).isSome || disk.isFile path
  read path :=
    match ws.documentAt? path with
    | some document => .ok document.text
    | none => disk.read path
  limit := ws.documents.length + disk.limit

/-- Opens a document, in the place of what was open under its address. -/
def openDocument (ws : Workspace) (uri : Uri) (document : Document) : Workspace :=
  { ws with documents := Keyed.put OpenDocument.uri { uri, document } ws.documents }

/-- The addresses of those files that are open. -/
def openUris (ws : Workspace) (paths : List Path) : List Uri :=
  (paths.filterMap Uri.ofPath?).filter ws.isOpen

/-! ### Symbols -/

/-- The symbols of an open document that is a file, from the cache if they are there. -/
def symbols (ws : Workspace) (disk : SourceReader) (uri : Uri) :
    Outcome Workspace (Option FileSymbols) :=
  match uri.toPath?, ws.document? uri with
  | some file, some document =>
    let outcome := Extraction.symbolsFor ws.settings.naming (ws.reader disk) false file document.text
      ws.cache
    { value := some outcome.value
      state := { ws with cache := outcome.state }
      events := outcome.events }
  | _, _ => { value := none, state := ws }

/-- New symbols for an open document, and the open documents that have to be looked at again. -/
structure Refreshed where
  symbols : FileSymbols
  /-- The other open documents whose symbols were dropped. -/
  stale : List Uri

/-- Extracts an open document that is a file again after its text has changed. -/
def refresh (ws : Workspace) (disk : SourceReader) (uri : Uri) : Outcome Workspace (Option Refreshed) :=
  match uri.toPath?, ws.document? uri with
  | some file, some document =>
    let outcome := Extraction.refresh ws.settings.naming (ws.reader disk) file document.text ws.cache
    { value := some { symbols := outcome.value.symbols, stale := ws.openUris outcome.value.stale }
      state := { ws with cache := outcome.state }
      events := outcome.events }
  | _, _ => { value := none, state := ws }

/-! ### Changes -/

/-- Drops what was computed from a file, and tells which files lost their symbols. -/
def invalidate (ws : Workspace) (file : Path) : Outcome Workspace (List Path) :=
  let (dropped, cache) := ws.cache.invalidate file
  { value := dropped, state := { ws with cache }, events := Event.ofDropped dropped file }

/-- A file changed on disk. Tells the open documents that have to be looked at again. -/
def fileChanged (ws : Workspace) (file : Path) : Outcome Workspace (List Uri) :=
  let outcome := ws.invalidate file
  { value := ws.openUris outcome.value, state := outcome.state, events := outcome.events }

/-- Closes a document; what was computed from its text is dropped. -/
def close (ws : Workspace) (uri : Uri) : Outcome Workspace Unit :=
  let ws := { ws with documents := Keyed.drop OpenDocument.uri uri ws.documents }
  match uri.toPath? with
  | none => { value := (), state := ws }
  | some file =>
    let outcome := ws.invalidate file
    { value := (), state := outcome.state, events := outcome.events }

/-- Puts settings in use, and tells whether all cached symbols had to be dropped. -/
def configure (ws : Workspace) (settings : Settings) : Outcome Workspace Bool :=
  if ws.settings.namingDiffers settings then
    { value := true
      state := { ws with settings, cache := ws.cache.clear }
      events := [.namingChanged] }
  else { value := false, state := { ws with settings } }

end Workspace

end ScriptIndex
