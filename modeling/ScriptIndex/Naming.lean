import ScriptIndex.Path
import ScriptIndex.Text.Cut

/-!
# From module references to files

A module `m` required from a file is looked up in the directory of that file and then in every
directory around it. In each directory two spellings are tried, `m.<extension>` and
`m.<specSuffix>.<extension>`, and the first one that is there is the file of the module.

* `Naming.candidates` — the two spellings in one directory;
* `Naming.resolve` — the search, which tells the file found and every path it asked for.
-/

namespace ScriptIndex

structure Naming where
  /-- The extension of source files, without a dot in front. -/
  extension : String
  /-- What stands between module and extension in the second spelling. -/
  specSuffix : String
deriving DecidableEq, Repr

/-- The result of looking for the file of a module. -/
structure Resolution where
  /-- The first candidate that is there. -/
  found : Option Path
  /-- Every candidate that was asked for, in order. -/
  probed : List Path
deriving DecidableEq, Repr

namespace Naming

def withoutLeadingDots (s : String) : String :=
  String.ofList (s.toList.dropWhile (· = '.'))

def withoutOuterDots (s : String) : String :=
  String.ofList (Text.stripEnds (· = '.') s.toList)

/-- Names files by an extension and a suffix, either of which may be written with its dots. -/
def ofWritten (extension specSuffix : String) : Naming where
  extension := withoutLeadingDots extension
  specSuffix := withoutOuterDots specSuffix

def standard : Naming where
  extension := "das"
  specSuffix := "spec"

def extend (base : Path) (ending : String) : Path :=
  ⟨base.bytes ++ dot :: Text.encode ending.toList⟩

def plain (naming : Naming) (base : Path) : Path :=
  extend base naming.extension

/-- The second spelling of a module's file. -/
def spec (naming : Naming) (base : Path) : Path :=
  extend (extend base naming.specSuffix) naming.extension

/-- The files `module` may stand for in directory `dir`, the plain spelling first. -/
def candidates (naming : Naming) (dir : Path) (module : String) : List Path :=
  let base := (dir.join (.ofString module)).normalize
  [naming.plain base, naming.spec base]

/-- Asks for each path in turn until one is there. -/
def firstOf (isThere : Path → Bool) : List Path → Resolution
  | [] => { found := none, probed := [] }
  | path :: rest =>
    if isThere path then { found := some path, probed := [path] }
    else
      let later := firstOf isThere rest
      { found := later.found, probed := path :: later.probed }

/-- Looks for a module in each directory in turn. -/
def search (naming : Naming) (isThere : Path → Bool) (module : String) : List Path → Resolution
  | [] => { found := none, probed := [] }
  | dir :: outer =>
    let near := firstOf isThere (naming.candidates dir module)
    match near.found with
    | some _ => near
    | none =>
      let far := naming.search isThere module outer
      { found := far.found, probed := near.probed ++ far.probed }

/-- Looks for the module required from `file`, in its directory first and then ever further out. -/
def resolve (naming : Naming) (isThere : Path → Bool) (file : Path) (module : String) : Resolution :=
  naming.search isThere module file.directories

end Naming

end ScriptIndex
