import ScriptIndex.Json.Fault
import ScriptIndex.Uri

/-!
# The first request

An editor opens a connection by telling what it can do, what to work on, and settings.

* `Hello` — what the server keeps of it;
* `Hello.read` — the parameters of the request. Members are looked at in the order in which they are
  written, and the first one that does not fit is told.
-/

namespace ScriptIndex

/-- A URI, which has a scheme.  Nothing else is asked of it, and it is kept as it is written. -/
def Uri.read : Json → Except JsonFault Uri
  | .str text => if hasScheme text.toList then .ok ⟨text⟩ else .error (.noScheme text)
  | found => .error (.wrongType found "a string representing an URL")

/-- What an editor tells first, as far as it matters. -/
structure Hello where
  folders : Option (List Uri) := none
  /-- The root to work on if there are no folders. -/
  root : Option Uri := none
  options : Option Json := none

namespace Hello

/-- The greatest number that a process can have. -/
def maxProcess : Nat := Nat.pow 2 32 - 1

/-- The words that tell how much is to be traced. -/
def traceWords : List String := ["off", "messages", "verbose"]

/-- Checks the number of a process, which may be left out. -/
def checkProcess : Json → Except JsonFault Unit
  | .null => .ok ()
  | .int n => if 0 ≤ n ∧ n ≤ maxProcess then .ok () else .error (.outOfRange n "u32")
  | found => .error (.wrongType found "u32")

/-- Checks how much is to be traced, which may be left out. -/
def checkTrace : Json → Except JsonFault Unit
  | .null => .ok ()
  | .str word => if traceWords.contains word then .ok () else .error (.unknownWord word traceWords)
  | .obj _ => .error .unfit
  | found => .error (.wrongType found "string or map")

/-- Checks what the editor can do, none of which matters. -/
def checkCapabilities : Json → Except JsonFault Unit
  | .obj _ => .ok ()
  | .arr _ => .error .unfit
  | found => .error (.wrongType found "struct ClientCapabilities")

def checkText : Json → Except JsonFault Unit
  | .str _ => .ok ()
  | found => .error (.wrongType found "a string")

/-- Checks the name and version of the editor, which may be left out. -/
def checkClient : Json → Except JsonFault Unit
  | .null => .ok ()
  | .obj members => do
    members.forM fun (key, json) =>
      if key = "name" then checkText json
      else if key = "version" then json.readText.map fun _ => ()
      else .ok ()
    if (members.lookup "name").isNone then .error (.missing "name")
  | .arr _ => .error .unfit
  | found => .error (.wrongType found "struct ClientInfo")

/-- A folder, which has a URI and a name. -/
def readFolder : Json → Except JsonFault Uri
  | .obj members => do
    let uri ← members.foldlM (fun uri (key, json) =>
      if key = "uri" then some <$> Uri.read json
      else if key = "name" then (checkText json).map fun _ => uri
      else .ok uri) none
    match uri with
    | none => .error (.missing "uri")
    | some uri => if (members.lookup "name").isNone then .error (.missing "name") else .ok uri
  | .arr _ => .error .unfit
  | found => .error (.wrongType found "struct WorkspaceFolder")

/-- The folders to work on, which may be left out. -/
def readFolders : Json → Except JsonFault (Option (List Uri))
  | .null => .ok none
  | .arr items => some <$> items.mapM readFolder
  | found => .error (.wrongType found "a sequence")

/-- The root to work on, which may be left out. -/
def readRoot : Json → Except JsonFault (Option Uri)
  | .null => .ok none
  | json => some <$> Uri.read json

/-- Reads one member of the parameters; unknown members are ignored. -/
def readMember (hello : Hello) (member : String × Json) : Except JsonFault Hello :=
  let (key, json) := member
  let checked := fun (check : Except JsonFault Unit) => check.map fun _ => hello
  if key = "workspaceFolders" then (readFolders json).map fun folders => { hello with folders }
  else if key = "rootUri" then (readRoot json).map fun root => { hello with root }
  else if key = "initializationOptions" then
    .ok { hello with options := if json matches .null then none else some json }
  else if key = "processId" then checked (checkProcess json)
  else if key = "capabilities" then checked (checkCapabilities json)
  else if key = "trace" then checked (checkTrace json)
  else if key = "clientInfo" then checked (checkClient json)
  else if key = "rootPath" || key = "locale" then checked (json.readText.map fun _ => ())
  else .ok hello

/-- Reads the parameters of the first request, which must tell what the editor can do. -/
def read : Json → Except JsonFault Hello
  | .obj members => do
    let hello ← members.foldlM readMember {}
    if (members.lookup "capabilities").isNone then .error (.missing "capabilities") else .ok hello
  | .arr _ => .error .unfit
  | found => .error (.wrongType found "struct InitializeParams")

end Hello

end ScriptIndex
