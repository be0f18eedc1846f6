import ScriptIndex.Declaration
import ScriptIndex.Keyed

/-!
# The symbols of a file

What the index knows of one file once its requires are followed: its functions, own and required,
each name once; the directives that lead into a cycle; the files required; and every path that was
asked for on the way, so that a file appearing there is noticed.

* `FileSymbols.declare` — an own declaration, which takes the place of an earlier one of its name;
* `FileSymbols.adopt` — the functions of a required file whose names are still free.
-/

namespace ScriptIndex

/-- A require directive that leads back to a file whose requires are being followed. -/
structure CircularRequire where
  /-- The line of the directive, counted from zero. -/
  line : Nat
  module : String
  target : Path
deriving DecidableEq, Repr

structure FileSymbols where
  /-- Its functions, those it declares and those it requires. -/
  functions : List Declaration := []
  /-- The directives that lead into a cycle. -/
  cycles : List CircularRequire := []
  /-- The files it requires directly and whose functions were taken over. -/
  requires : List Path := []
  /-- Every path that was asked for to resolve its directives. -/
  watched : List Path := []
deriving DecidableEq, Repr

namespace FileSymbols

def find? (symbols : FileSymbols) (name : String) : Option Declaration :=
  Keyed.find? Declaration.name name symbols.functions

/-- Adds an own declaration, in the place of an earlier function of its name if there is one. -/
def declare (symbols : FileSymbols) (d : Declaration) : FileSymbols :=
  { symbols with functions := Keyed.put Declaration.name d symbols.functions }

/-- Adds a required function unless its name is taken. -/
def adoptOne (functions : List Declaration) (d : Declaration) : List Declaration :=
  if Keyed.has Declaration.name d.name functions then functions else functions ++ [d.asRequired]

/-- Adds the functions of a required file whose names are not taken. -/
def adopt (symbols : FileSymbols) (required : List Declaration) : FileSymbols :=
  { symbols with functions := required.foldl adoptOne symbols.functions }

def reportCycle (symbols : FileSymbols) (cycle : CircularRequire) : FileSymbols :=
  { symbols with cycles := symbols.cycles ++ [cycle] }

def require (symbols : FileSymbols) (target : Path) : FileSymbols :=
  { symbols with requires := target.addTo symbols.requires }

/-- Notes the paths that a search asked for. -/
def watch (symbols : FileSymbols) (probed : List Path) : FileSymbols :=
  { symbols with watched := probed.foldl (fun paths p => p.addTo paths) symbols.watched }

end FileSymbols

end ScriptIndex
