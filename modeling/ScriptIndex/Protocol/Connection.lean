import ScriptIndex.Json.Reader
import ScriptIndex.Server

/-!
# A connection to an editor

On a stream every message stands in a frame: header lines, a blank line, and as many bytes as the
header `Content-Length` says.  The message is an envelope: a request has a number that its reply
repeats, a notification has none.  A connection knows how far the handshake has come and refuses what
comes too early or too late.

* `Frame.render`, `Frame.length?` — a message in its frame, and the number of bytes that a header line
  announces;
* `RpcError` — why a request is refused, with its code and words;
* `Connection.call` — one call of a method, with what is sent meanwhile and how it is answered;
* `Connection.receive` — one envelope, and the envelopes that answer it.
-/

namespace ScriptIndex

/-! ### Frames -/

namespace Frame

/-- The header that announces the number of bytes. -/
def lengthHeader : List Char := "content-length".toList

/-- A message in its frame. -/
def render (message : Json) : String :=
  let body := message.render
  "Content-Length: " ++ toString body.utf8ByteSize ++ "\r\n\r\n" ++ body

/-- The number written by some digits. -/
def number? (digits : List Char) : Option Nat :=
  if digits = [] || !digits.all Char.isDigit then none
  else some (Json.digitsValue digits)

/-- The number of bytes that a header line announces, if it is that header. -/
def length? (line : List Char) : Option Nat :=
  match Text.cut? [':'] line with
  | none => none
  | some (name, value) =>
    if (Text.trim name).map Char.toLower = lengthHeader then number? (Text.trim value) else none

/-- The blank line between header and body. -/
def isEnd (line : List Char) : Bool :=
  Text.isBlankText line

end Frame

/-! ### Envelopes -/

/-- Why a request is refused. -/
structure RpcError where
  code : Int
  message : String
  /-- What the reason is about. -/
  about : Option String := none
deriving DecidableEq, Repr

namespace RpcError

def parseError : RpcError := { code := -32700, message := "Parse error" }

/-- The message is no call, or the call is not allowed now. -/
def invalidRequest : RpcError := { code := -32600, message := "Invalid request" }

def methodNotFound : RpcError := { code := -32601, message := "Method not found" }

/-- There is no such method among those that are known at all. -/
def unknownMethod (method : String) : RpcError := { methodNotFound with about := some method }

/-- The parameters of the request do not fit its method. -/
def invalidParams (message : String) : RpcError := { code := -32602, message }

def notInitialized : RpcError := { code := -32002, message := "Server not initialized" }

/-- What a code stands for. -/
def kind (error : RpcError) : String :=
  if error.code = -32700 then "Parse error"
  else if error.code = -32600 then "Invalid request"
  else if error.code = -32601 then "Method not found"
  else if error.code = -32602 then "Invalid params"
  else if error.code = -32603 then "Internal error"
  else if error.code = -32800 then "Canceled"
  else if error.code = -32801 then "Content modified"
  else "Server error"

/-- A refusal, as it stands in the log. -/
def describe (error : RpcError) : String :=
  error.kind ++ ": " ++ error.message

def json (error : RpcError) : Json :=
  .obj ([("code", .int error.code), ("message", .str error.message)] ++
    Json.optional "data" (error.about.map .str))

def read? (json : Json) : Option RpcError := do
  let code ← (← json.get? "code").int?
  let message ← (← json.get? "message").str?
  return { code, message }

end RpcError

/-- How far the handshake has come. -/
inductive Phase where
  /-- The first request is still to come. -/
  | waiting
  | running
  /-- The server was asked to get ready to end. -/
  | stopping
  | ended
deriving DecidableEq, Repr

structure Connection where
  phase : Phase := .waiting
  workspace : Workspace := {}
  requests : Nat := 0
deriving DecidableEq, Repr

namespace Connection

/-- The events of the editor's reply to the request to watch files. -/
def watcherEvents (answer : Except RpcError Unit) : List Event :=
  match answer with
  | .ok () => []
  | .error refusal => [.watcherDeclined refusal.describe]

/-- An envelope around a result or a refusal. -/
def answer (id : Json) (content : Except RpcError Json) : Json :=
  match content with
  | .ok result => .obj [("jsonrpc", .str "2.0"), ("result", result), ("id", id)]
  | .error refusal => .obj [("jsonrpc", .str "2.0"), ("error", refusal.json), ("id", id)]

/-- Envelopes around messages to the editor; requests are numbered from `number` on. -/
def wrap (number : Nat) : List ServerMessage → List Json
  | [] => []
  | message :: rest =>
    let number' := if message.isRequest then number + 1 else number
    let id := if message.isRequest then some (Json.nat number) else none
    .obj ([("jsonrpc", .str "2.0"), ("method", .str message.method), ("params", message.params)] ++
      Json.optional "id" id) :: wrap number' rest

structure Exchange where
  /-- The messages sent meanwhile, in order. -/
  sent : List ServerMessage := []
  /-- The result, or why there is none, for a call that is answered. -/
  answer : Option (Except RpcError Json) := none

/-- Why a known method cannot be called in a phase. A request can be taken back in every phase. -/
def refusal? (phase : Phase) (method : String) : Option RpcError :=
  if method = "$/cancelRequest" then none
  else
    match phase with
    | .waiting => if method = "initialize" then none else some .notInitialized
    | .running => if method = "initialize" then some .invalidRequest else none
    | .stopping | .ended => some .invalidRequest

/-- The phase after a method is called that can be called. The first request opens the connection
only once it is handled. -/
def phaseAfter (phase : Phase) (method : String) : Phase :=
  if method = "shutdown" then .stopping else phase

def ignore (c : Connection) : Outcome Connection Exchange :=
  { value := {}, state := c }

def refuse (c : Connection) (error : RpcError) : Outcome Connection Exchange :=
  { value := { answer := some (.error error) }, state := c }

def dispatch (c : Connection) (disk : SourceReader) (message : ClientMessage) :
    Outcome Connection Exchange :=
  let outcome := Server.handle disk c.workspace message
  let phase :=
    match message with
    | .hello .. => .running
    | _ => c.phase
  let sent := outcome.value.sent
  { value := { sent, answer := outcome.value.reply.map fun reply => .ok reply.json }
    state :=
      { phase
        workspace := outcome.state
        requests := c.requests + (sent.filter ServerMessage.isRequest).length }
    events := outcome.events }

/-- Handles a call of a method with its parameters: `shutdown` has none, and every other method has
some. -/
def accept (c : Connection) (disk : SourceReader) (method : String) (params : Option Json) :
    Outcome Connection Exchange :=
  match params with
  | none =>
    if method = "shutdown" then c.dispatch disk .shutdown
    else c.refuse (.invalidParams "Missing params field")
  | some params =>
    if method = "shutdown" then c.refuse (.invalidParams ("Unexpected params: " ++ params.render))
    else
      match ClientMessage.read method params with
      | .ok message => c.dispatch disk message
      | .error fault => c.refuse (.invalidParams fault.message)

/-- Handles a call of a method. A request without a number is ignored, and a notification with one is
refused. -/
def call (c : Connection) (disk : SourceReader) (numbered : Bool) (method : String)
    (params : Option Json) : Outcome Connection Exchange :=
  if method = "exit" then { c with phase := .ended }.ignore
  else if !ClientMessage.isRequest method && !ClientMessage.isNotification method then
    if method.startsWith "$/" then c.ignore else c.refuse (.unknownMethod method)
  else
    match refusal? c.phase method with
    | some error => c.refuse error
    | none =>
      let c := { c with phase := phaseAfter c.phase method }
      if ClientMessage.isRequest method && !numbered then c.ignore
      else if ClientMessage.isNotification method && numbered then c.refuse .invalidRequest
      else if ClientMessage.refusedRequests.contains method then c.refuse .methodNotFound
      else if ClientMessage.ignoredNotifications.contains method then c.ignore
      else c.accept disk method params

/-- Whether a value can be the number of a call. -/
def isNumber : Json → Bool
  | .null | .str _ => true
  | .int n => -Int.pow 2 63 ≤ n && n < Int.pow 2 63
  | _ => false

/-- Whether a value is an envelope of the version in use. -/
def isEnvelope (envelope : Json) : Bool :=
  (envelope.get? "jsonrpc").bind Json.str? = some "2.0" && (envelope.get? "id").all isNumber &&
    (envelope.get? "method").all fun method => method.str?.isSome

/-- The editor's reply to a request of the server, if an envelope is one. -/
def reply? (envelope : Json) : Option (Except RpcError Unit) :=
  if (envelope.get? "id").isNone then none
  else if (envelope.get? "result").isSome then some (.ok ())
  else ((envelope.get? "error").bind RpcError.read?).map .error

/-- Handles one envelope: a call, or the reply to a request of the server. -/
def receive (c : Connection) (disk : SourceReader) (envelope : Json) : Outcome Connection (List Json) :=
  if !isEnvelope envelope then { value := [answer .null (.error .invalidRequest)], state := c }
  else
    match reply? envelope with
    | some reply => { value := [], state := c, events := watcherEvents reply }
    | none =>
      let id := envelope.get? "id"
      let method := ((envelope.get? "method").bind Json.str?).getD ""
      let outcome := c.call disk id.isSome method (envelope.get? "params")
      let replies :=
        match id, outcome.value.answer with
        | some id, some content => [answer id content]
        | _, _ => []
      { value := wrap c.requests outcome.value.sent ++ replies
        state := outcome.state
        events := outcome.events }

def receiveUnreadable (c : Connection) : Outcome Connection (List Json) :=
  { value := [answer .null (.error .parseError)], state := c }

end Connection

end ScriptIndex
