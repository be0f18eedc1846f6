import ScriptIndex.CommandLine
import ScriptIndex.Json.Reader
import ScriptIndex.Protocol.Connection

/-!
# The program

Reads the command line and, if asked to, serves an editor on standard input and output. All decisions
are made elsewhere; here bytes are read and written.

The files of the disk are read as they are asked for: a message is handled with the files known so
far, and handled anew, from the same state, as long as it asked for paths not looked at yet.
-/

namespace ScriptIndex.Program

/-- The paths looked at so far, and the files found there. -/
structure Observed where
  paths : List Path := []
  files : List MemoryFile := []

/-- Looks at a path. What cannot be read as bytes, or has a name that is no text, is not a file. -/
def observe (seen : Observed) (path : Path) : IO Observed := do
  let paths := path :: seen.paths
  if Path.ofString path.text ≠ path then return { seen with paths }
  try
    let contents ← IO.FS.readBinFile path.text
    let file : MemoryFile := { path, text := String.fromUTF8? contents }
    return { paths, files := Keyed.put MemoryFile.key file seen.files }
  catch _ =>
    return { seen with paths }

/-- The paths that the entries of a cache watch and that were not looked at yet. -/
def unseen (seen : Observed) (cache : SymbolCache) : List Path :=
  (cache.entries.flatMap fun entry => entry.symbols.watched).foldl
    (fun paths p => if p.isIn seen.paths then paths else p.addTo paths) []

/-- Handles an envelope with the files it asks for. -/
partial def handle (c : Connection) (envelope : Json) (seen : Observed) :
    IO (Outcome Connection (List Json)) := do
  let outcome := c.receive (.ofFiles seen.files) envelope
  let cache := outcome.state.workspace.cache
  if cache.scans = c.workspace.cache.scans then return outcome
  match unseen seen cache with
  | [] => return outcome
  | paths => handle c envelope (← paths.foldlM observe seen)

/-- Reads header lines up to the blank one and gives the announced number of bytes. -/
partial def readHeader (stdin : IO.FS.Stream) (length : Option Nat) : IO (Option Nat) := do
  let line ← stdin.getLine
  if line.isEmpty then return none
  if Frame.isEnd line.toList then return length
  readHeader stdin (Frame.length? line.toList <|> length)

/-- Reads a number of bytes, fewer at the end of the input. -/
partial def readBytes (stdin : IO.FS.Stream) (count : Nat) (soFar : ByteArray) : IO ByteArray := do
  if soFar.size ≥ count then return soFar
  let chunk ← stdin.read (count - soFar.size).toUSize
  if chunk.isEmpty then return soFar
  readBytes stdin count (soFar ++ chunk)

/-- Serves an editor until it ends the connection or the input ends. -/
partial def serve (stdin stdout : IO.FS.Stream) (c : Connection) : IO Unit := do
  if c.phase = .ended then return
  match ← readHeader stdin none with
  | none => return
  | some length =>
    let body ← readBytes stdin length .empty
    let outcome ←
      match (String.fromUTF8? body).bind fun text => Json.parse? text.toList with
      | none => pure c.receiveUnreadable
      | some envelope => handle c envelope {}
    for message in outcome.value do
      stdout.putStr (Frame.render message)
    stdout.flush
    serve stdin stdout outcome.state

end ScriptIndex.Program

def main (arguments : List String) : IO UInt32 := do
  let action := ScriptIndex.CommandLine.action arguments
  if action = .serve then
    ScriptIndex.Program.serve (← IO.getStdin) (← IO.getStdout) {}
  let report := action.report
  (← IO.getStdout).putStr report.out
  (← IO.getStderr).putStr report.err
  return report.code.toUInt32
