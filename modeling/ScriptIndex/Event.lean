import ScriptIndex.Settings
import ScriptIndex.SourceItem
import ScriptIndex.SourceReader

/-!
# The log

Everything worth a line in the log is an event; the wording is given here and nowhere else.

* `Event` — what can be reported;
* `Event.level`, `Event.message` — how serious an event is, and how it is told;
* `Outcome` — the answer of a step, the state after it and the events it reported.
-/

namespace ScriptIndex

inductive Level where
  | trace
  | info
  | warn
deriving DecidableEq, Repr

def Level.name : Level → String
  | trace => "TRACE"
  | info => "INFO"
  | warn => "WARN"

inductive Event where
  | directive (module : String) (line : Nat)
  | header (name : String) (line : Nat)
  | resolved (module : String) (file target : Path)
  | unresolved (module : String) (file : Path)
  | extracting (file : Path) (bytes : Nat)
  /-- A directive leads back to a file whose requires are being followed. -/
  | circular (target file : Path) (line : Nat)
  | unreadable (file : Path) (reason : String)
  | requiredUnreadable (target : Path)
  /-- Functions of a required file were taken over. -/
  | merged (taken total : Nat) (target : Path)
  /-- The symbols of a file are known. -/
  | extracted (file : Path) (functions requires : Nat)
  /-- Entries of the cache were dropped because of a file. -/
  | invalidated (count : Nat) (file : Path)
  /-- A section of the settings cannot be used. -/
  | badSettings (fault : SettingsFault)
  /-- Settings are listed next. -/
  | settingsRead
  | setting (name value : String)
  /-- All cached symbols were dropped because files are named differently now. -/
  | namingChanged
  | starting
  | folderAdded (uri : String)
  /-- A root was announced in place of workspace folders. -/
  | rootAdded (uri : String)
  | clientReady
  /-- The client does not watch files for the server. -/
  | watcherDeclined (reason : String)
  | shuttingDown
  /-- A change was announced for a document that is not open. -/
  | unknownDocument (uri : String)
  | settingsAnnounced
  /-- The announced settings cannot be used. -/
  | settingsKept
  | filesChanged (count : Nat)
  | publishing (count : Nat) (uri : String)
  | completed (uri : String) (count : Nat)

namespace Event

def level : Event → Level
  | circular .. | unreadable .. | requiredUnreadable .. | badSettings .. | unknownDocument ..
  | settingsKept => .warn
  | settingsRead | setting .. | namingChanged | starting | folderAdded .. | rootAdded ..
  | clientReady | watcherDeclined .. | shuttingDown => .info
  | _ => .trace

def message : Event → String
  | directive module line => s!"  require '{module}' at line {line}"
  | header name line => s!"  def '{name}' at line {line}"
  | resolved module file target =>
    s!"Resolved require '{module}' from {file.text} to {target.text}"
  | unresolved module file => s!"Unresolved require '{module}' from {file.text}"
  | extracting file bytes => s!"Extracting symbols from {file.text} ({bytes} bytes)"
  | circular target file line =>
    s!"Circular require of {target.text} from {file.text} at line {line + 1}"
  | unreadable file reason => s!"Failed to read {file.text}: {reason}"
  | requiredUnreadable target => s!"Required file {target.text} could not be read"
  | merged taken total target => s!"  merged {taken} of {total} symbols from {target.text}"
  | extracted file functions requires =>
    s!"Extraction of {file.text} complete: {functions} functions, {requires} requires"
  | invalidated count file =>
    s!"Invalidated {count} symbol cache entries starting at {file.text}"
  | badSettings fault => s!"Invalid '{fault.part.key}' settings: {fault.fault.message}"
  | settingsRead => "Server configuration:"
  | setting name value => s!"  {name}: {value}"
  | namingChanged => "Require resolution settings changed, clearing symbol cache"
  | starting => "Initializing dasls"
  | folderAdded uri => s!"Adding workspace folder: {uri}"
  | rootAdded uri => s!"Adding root URI as workspace folder: {uri}"
  | clientReady => "dasls initialized"
  | watcherDeclined reason => s!"Client declined file watcher registration: {reason}"
  | shuttingDown => "dasls shutting down"
  | unknownDocument uri => s!"Change for unknown document {uri}"
  | settingsAnnounced => "Configuration changed"
  | settingsKept => "No usable settings in configuration change, keeping current configuration"
  | filesChanged count => s!"Received watched files change: {count} changes"
  | publishing count uri => s!"Publishing {count} diagnostics for {uri}"
  | completed uri count => s!"Completion for {uri}: {count} items"

/-- The line of an event in the log. -/
def line (event : Event) : String :=
  event.level.name ++ " " ++ event.message

end Event

/-! ### The events of single results -/

def SourceItem.event : SourceItem → Event
  | function d => .header d.name d.line
  | require module line => .directive module line

def Resolution.event (resolution : Resolution) (file : Path) (module : String) : Event :=
  match resolution.found with
  | some target => .resolved module file target
  | none => .unresolved module file

def ReadFault.events (fault : ReadFault) (file : Path) : List Event :=
  fault.message?.toList.map (Event.unreadable file)

def Settings.events (settings : Settings) : List Event :=
  [.settingsRead,
    .setting "file_extension" settings.fileExtension,
    .setting "spec_suffix" settings.specSuffix,
    .setting "identifier_completions" (if settings.identifierCompletions then "true" else "false"),
    .setting "circular_require_severity" settings.circularRequireSeverity.name]

def Settings.readEvents (result : Except SettingsFault (Option Settings)) : List Event :=
  match result with
  | .error fault => [.badSettings fault]
  | .ok none => []
  | .ok (some settings) => settings.events

def Event.ofDropped (dropped : List Path) (file : Path) : List Event :=
  if dropped.isEmpty then [] else [.invalidated dropped.length file]

/-! ### Outcomes -/

/-- The answer of a step, the state it leaves behind and the events it reported, in order. -/
structure Outcome (σ α : Type) where
  value : α
  state : σ
  events : List Event := []

end ScriptIndex
