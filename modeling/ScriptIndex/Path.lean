import ScriptIndex.Text.Utf8

/-!
# Paths

A path is a sequence of bytes, most often those of a text, and it names a file through its
components: repeated and trailing slashes and dots after the first component do not count, while
`..` is kept. Two paths name the same file when their components are equal, but a path is always
shown as it was written.

* `Path.ofString`, `Path.text` — the path of a text, and how a path is shown;
* `Path.components` — what a path names;
* `Path.parent?`, `Path.join`, `Path.extension?` — the usual operations;
* `Path.directories` — the directories around a file, the nearest first;
* `Path.normalize` — a path without `.` and `..`, where a `..` with nothing to take back is dropped;
* `Path.compare` — the order in which paths are listed, component by component.
-/

namespace ScriptIndex

inductive Component where
  /-- The slash that starts an absolute path. -/
  | root
  /-- A dot that starts a relative path. -/
  | here
  | up
  | name (bytes : List UInt8)
deriving DecidableEq, Repr

def slash : UInt8 := 0x2F

/-- The byte that segments with a meaning of their own are made of. -/
def dot : UInt8 := 0x2E

namespace Component

def bytes : Component → List UInt8
  | root => [slash]
  | here => [dot]
  | up => [dot, dot]
  | name bytes => bytes

/-- The component a segment between two slashes stands for, if any. -/
def ofSegment? (segment : List UInt8) : Option Component :=
  if segment = [] || segment = [dot] then none
  else if segment = [dot, dot] then some up
  else some (name segment)

/-- The rank of a kind of component; names come last. -/
def rank : Component → Nat
  | root => 0
  | here => 1
  | up => 2
  | name _ => 3

/-- Compares bytes from the left; a sequence comes after its prefixes. -/
def compareBytes : List UInt8 → List UInt8 → Ordering
  | [], [] => .eq
  | [], _ :: _ => .lt
  | _ :: _, [] => .gt
  | a :: as, b :: bs => (Ord.compare a b).then (compareBytes as bs)

/-- Components are ordered by kind, names by their bytes. -/
protected def compare (a b : Component) : Ordering :=
  match a, b with
  | name s, name t => compareBytes s t
  | a, b => Ord.compare a.rank b.rank

end Component

/-- A path, as it was written. -/
structure Path where
  bytes : List UInt8
deriving DecidableEq, Repr

namespace Path

def ofString (text : String) : Path :=
  ⟨Text.encode text.toList⟩

def text (p : Path) : String :=
  String.ofList (Text.decode p.bytes)

/-- What the first segment of a path stands for: nothing before the first of several segments is the
root, and a dot counts here and nowhere else. -/
def start (first : List UInt8) (more : Bool) : List Component :=
  if first = [] then (if more then [.root] else [])
  else if first = [dot] then [.here]
  else (Component.ofSegment? first).toList

def parse (bytes : List UInt8) : List Component :=
  match bytes.splitOn slash with
  | [] => []
  | first :: rest => start first (!rest.isEmpty) ++ rest.filterMap Component.ofSegment?

/-- What a path names. Paths with equal components name the same file. -/
def components (p : Path) : List Component :=
  parse p.bytes

/-- Whether a list holds a path that names the same file as `p`. -/
def isIn (p : Path) (paths : List Path) : Bool :=
  decide (p.components ∈ paths.map components)

/-- Appends a path to a list that has none naming the same file. -/
def addTo (p : Path) (paths : List Path) : List Path :=
  if p.isIn paths then paths else paths ++ [p]

def isAbsolute (p : Path) : Bool :=
  p.components.head? = some .root

/-- The plainest way to write some components. -/
def ofComponents : List Component → Path
  | .root :: rest => ⟨slash :: [slash].intercalate (rest.map Component.bytes)⟩
  | parts => ⟨[slash].intercalate (parts.map Component.bytes)⟩

/-! ### Directories -/

/-- The directory a path lies in. The root and the empty path lie in none. -/
def parent? (p : Path) : Option Path :=
  match p.components.getLast? with
  | none | some .root => none
  | some _ => some (ofComponents p.components.dropLast)

/-- The directories around the file whose reversed components are given, the nearest first. -/
def around : List Component → List Path
  | [] | .root :: _ => []
  | _ :: outer => ofComponents outer.reverse :: around outer

/-- The directories around a file: its parent, the parent of that, and so on. -/
def directories (p : Path) : List Path :=
  around p.components.reverse

/-- The path reached from directory `p` by `q`; an absolute `q` is reached from anywhere. -/
def join (p q : Path) : Path :=
  if q.isAbsolute || p.bytes = [] then q
  else if p.bytes.getLast? = some slash then ⟨p.bytes ++ q.bytes⟩
  else ⟨p.bytes ++ slash :: q.bytes⟩

/-! ### Normal form -/

/-- Takes one component up or down from reversed components without `.` and `..`. -/
def enter (stack : List Component) : Component → List Component
  | .here => stack
  | .up =>
    match stack with
    | .name _ :: outer => outer
    | stack => stack
  | part => part :: stack

def resolveDots (parts : List Component) : List Component :=
  (parts.foldl enter []).reverse

/-- The path without `.` and `..`, by its text alone. A `..` that follows no name is dropped. -/
def normalize (p : Path) : Path :=
  ofComponents (resolveDots p.components)

/-! ### File names -/

/-- The part of a file name after its last dot; a dot that starts the name does not count. -/
def extensionOf? (fileName : List UInt8) : Option (List UInt8) :=
  let tail := (fileName.reverse.takeWhile (· ≠ dot)).reverse
  if tail.length + 1 < fileName.length then some tail else none

def extension? (p : Path) : Option (List UInt8) :=
  match p.components.getLast? with
  | some (.name fileName) => extensionOf? fileName
  | _ => none

/-! ### Order -/

/-- Compares lists of components from the left; a list comes after its prefixes. -/
def compareComponents : List Component → List Component → Ordering
  | [], [] => .eq
  | [], _ :: _ => .lt
  | _ :: _, [] => .gt
  | a :: as, b :: bs => (Component.compare a b).then (compareComponents as bs)

/-- Paths are ordered component by component. -/
protected def compare (p q : Path) : Ordering :=
  compareComponents p.components q.components

def sort (paths : List Path) : List Path :=
  paths.mergeSort fun p q => (Path.compare p q).isLE

end Path

end ScriptIndex
