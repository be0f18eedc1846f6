import ScriptIndex.SourceReader

/-!
# A tree of files

A file system as a value: directories and files by their place below the root. Paths are followed
step by step, as a file system does it: `..` goes up from the directory reached so far, and nothing
but a directory can be entered.  There are no links: every file has one place.  A disk that follows
links is a source of texts of another kind, in which one file may be read under several paths.

* `FileTree.follow` — the place a path leads to;
* `FileTree.write`, `FileTree.makeDirectory`, `FileTree.remove` — the changes;
* `FileTree.reader` — the tree as a source of texts.
-/

namespace ScriptIndex

/-- The names that lead from the root to a file or directory. -/
abbrev Place := List (List UInt8)

inductive Node where
  | directory
  | file (contents : ByteArray)

/-- One place of a tree, with what stands there. -/
structure TreeEntry where
  place : Place
  node : Node

/-- The files and directories below the root, which is always there. -/
structure FileTree where
  entries : List TreeEntry := []

namespace FileTree

def node? (tree : FileTree) (place : Place) : Option Node :=
  if place = [] then some .directory
  else (Keyed.find? TreeEntry.place place tree.entries).map TreeEntry.node

def isDirectory (tree : FileTree) (place : Place) : Bool :=
  match tree.node? place with
  | some .directory => true
  | _ => false

def maxName : Nat := 255

def maxPath : Nat := 4095

/-- The place reached from `place` by the segments of a path. -/
def walk (tree : FileTree) (place : Place) : List (List UInt8) → Except ReadFault Place
  | [] => .ok place
  | segment :: rest =>
    if !tree.isDirectory place then .error .notDirectory
    else if segment = [] || segment = [dot] then tree.walk place rest
    else if segment = [dot, dot] then tree.walk place.dropLast rest
    else if segment.length > maxName then .error .nameTooLong
    else
      let next := place ++ [segment]
      if (tree.node? next).isSome then tree.walk next rest else .error .missing

/-- The place a path leads to. A relative path starts in a directory that holds nothing. -/
def follow (tree : FileTree) (path : Path) : Except ReadFault Place :=
  if path.bytes.contains 0 then .error .nulInPath
  else if path.bytes.length > maxPath then .error .nameTooLong
  else
    match path.bytes with
    | [] => .error .missing
    | first :: rest =>
      if first = slash then tree.walk [] (rest.splitOn slash)
      else ({} : FileTree).walk [] (path.bytes.splitOn slash)

def isFile (tree : FileTree) (path : Path) : Bool :=
  match tree.follow path with
  | .error _ => false
  | .ok place =>
    match tree.node? place with
    | some (.file _) => true
    | _ => false

def read (tree : FileTree) (path : Path) : Except ReadFault String :=
  match tree.follow path with
  | .error fault => .error fault
  | .ok place =>
    match tree.node? place with
    | none => .error .missing
    | some .directory => .error .isDirectory
    | some (.file contents) =>
      match String.fromUTF8? contents with
      | some text => .ok text
      | none => .error .notUtf8

def put (tree : FileTree) (place : Place) (node : Node) : FileTree :=
  { entries := Keyed.put TreeEntry.place { place, node } tree.entries }

/-- Goes from `place` along some components, makes every directory that is missing on the way, and
tells where the way ends. -/
def makeWay (tree : FileTree) (place : Place) : List Component → FileTree × Place
  | [] => (tree, place)
  | .name bytes :: rest =>
    let next := place ++ [bytes]
    let tree := if (tree.node? next).isSome then tree else tree.put next .directory
    tree.makeWay next rest
  | .up :: rest => tree.makeWay place.dropLast rest
  | .root :: rest | .here :: rest => tree.makeWay place rest

/-- Makes a directory and those around it. -/
def makeDirectory (tree : FileTree) (path : Path) : FileTree :=
  (tree.makeWay [] path.components).1

/-- Writes a file, with the directories around it. -/
def write (tree : FileTree) (path : Path) (contents : ByteArray) : FileTree :=
  match path.components.getLast? with
  | some (.name fileName) =>
    let (tree, place) := tree.makeWay [] path.components.dropLast
    tree.put (place ++ [fileName]) (.file contents)
  | _ => tree

def remove (tree : FileTree) (path : Path) : FileTree :=
  match tree.follow path with
  | .ok place => { entries := Keyed.drop TreeEntry.place place tree.entries }
  | .error _ => tree

/-- The names of what stands directly in a directory. -/
def list (tree : FileTree) (path : Path) : List (List UInt8) :=
  match tree.follow path with
  | .ok dir =>
    tree.entries.filterMap fun entry =>
      if entry.place.dropLast = dir then entry.place.getLast? else none
  | .error _ => []

/-- Reads from a tree of files. The path of a module has no dots before its ending, so the name in
which the ending starts is that of an entry or stands at the root, and each of the two spellings can
be read once for each of these. -/
def reader (tree : FileTree) : SourceReader where
  isFile := tree.isFile
  read := tree.read
  limit := 2 * (tree.entries.length + 1)

end FileTree

end ScriptIndex
