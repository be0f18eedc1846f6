import ScriptIndex.Keyed
import ScriptIndex.Path

/-!
# Where sources are read from

Following a require means asking whether a file is there and reading it. A reader answers both
questions, and it bounds how many files a chain of requires can lead through.

* `SourceReader` — the two questions and the bound;
* `ReadFault` — why a file could not be read;
* `SourceReader.ofFiles` — a reader over a list of texts.
-/

namespace ScriptIndex

inductive ReadFault where
  | missing
  | isDirectory
  /-- The path goes on after a file. -/
  | notDirectory
  | nulInPath
  /-- The path or one of its names is longer than file systems allow. -/
  | nameTooLong
  | notUtf8
deriving DecidableEq, Repr

/-- Why a file could not be read, in words. A missing file is not worth a word. -/
def ReadFault.message? : ReadFault → Option String
  | missing => none
  | isDirectory => some "Is a directory (os error 21)"
  | notDirectory => some "Not a directory (os error 20)"
  | nulInPath => some "file name contained an unexpected NUL byte"
  | nameTooLong => some "File name too long (os error 36)"
  | notUtf8 => some "stream did not contain valid UTF-8"

structure SourceReader where
  isFile : Path → Bool
  read : Path → Except ReadFault String
  /-- How many different paths can at most be found for modules, under one naming, and be read. -/
  limit : Nat

/-- A file held in memory; without a text it is there and cannot be read. -/
structure MemoryFile where
  path : Path
  text : Option String
deriving DecidableEq, Repr

def MemoryFile.key (file : MemoryFile) : List Component :=
  file.path.components

namespace SourceReader

def ofFiles (files : List MemoryFile) : SourceReader where
  isFile p := Keyed.has MemoryFile.key p.components files
  read p :=
    match Keyed.find? MemoryFile.key p.components files with
    | some { text := some text, .. } => .ok text
    | _ => .error .missing
  limit := files.length

end SourceReader

end ScriptIndex
