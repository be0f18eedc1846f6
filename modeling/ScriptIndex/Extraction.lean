import ScriptIndex.Event
import ScriptIndex.SymbolCache

/-!
# Extracting the symbols of a file

The symbols of a file are its own declarations together with those of the files it requires. Items
are taken in source order: a declaration takes the place of what bears its name, a required file
adds the names that are still free. Required files are extracted in the same way and cached, and a
directive that leads back to a file on the way is reported and not followed.

* `Draft` — the symbols gathered so far, with the cache as it is by then;
* `Extraction.absorb` — what one item adds;
* `Extraction.visit` — one file with all it requires, below the files that led there;
* `Extraction.extract`, `Extraction.symbolsFor`, `Extraction.refresh` — the ways to ask for symbols.
-/

namespace ScriptIndex

/-- What has been gathered of a file while its items are taken in. -/
structure Draft where
  symbols : FileSymbols := {}
  cache : SymbolCache
  events : List Event := []

namespace Draft

def report (draft : Draft) (event : Event) : Draft :=
  { draft with events := draft.events ++ [event] }

/-- Notes a directive that leads back to a file on the way. -/
def closeCycle (draft : Draft) (file : Path) (cycle : CircularRequire) : Draft :=
  { draft with symbols := draft.symbols.reportCycle cycle }.report
    (.circular cycle.target file cycle.line)

/-- Takes over the symbols of the file that a directive leads to. If that file leads into a cycle,
so does the directive. -/
def takeOver (draft : Draft) (directive : CircularRequire) (required : FileSymbols) : Draft :=
  let symbols :=
    if required.cycles.isEmpty then draft.symbols else draft.symbols.reportCycle directive
  let merged := symbols.adopt required.functions
  let taken := merged.functions.length - symbols.functions.length
  { draft with symbols := merged.require directive.target }.report
    (.merged taken required.functions.length directive.target)

/-- Caches the gathered symbols as those of `file`. -/
def finish (draft : Draft) (file : Path) : Outcome SymbolCache FileSymbols :=
  let symbols := draft.symbols
  { value := symbols
    state := draft.cache.insert file symbols
    events := draft.events ++ [.extracted file symbols.functions.length symbols.requires.length] }

end Draft

namespace Extraction

/-- A way to get the symbols of a file from its text. -/
abbrev Follow := Path → String → SymbolCache → Outcome SymbolCache FileSymbols

/-- The symbols of a required file: from the cache, or else by reading and following it. -/
def required (reader : SourceReader) (follow : Follow) (target : Path) (cache : SymbolCache) :
    Outcome SymbolCache (Option FileSymbols) :=
  match cache.get? target with
  | some symbols => { value := some symbols, state := cache }
  | none =>
    match reader.read target with
    | .error fault =>
      { value := none, state := cache, events := fault.events target ++ [.requiredUnreadable target] }
    | .ok text =>
      let outcome := follow target text cache
      { value := some outcome.value, state := outcome.state, events := outcome.events }

/-- What a directive of `file` adds. A file counts as present if it is cached or can be read.
`chain` holds the files on the way, `file` among them. -/
def followRequire (naming : Naming) (reader : SourceReader) (follow : Follow) (chain : List Path)
    (file : Path) (draft : Draft) (module : String) (line : Nat) : Draft :=
  let isThere := fun path => draft.cache.contains path || reader.isFile path
  let resolution := naming.resolve isThere file module
  let draft := { draft with symbols := draft.symbols.watch resolution.probed }.report
    (resolution.event file module)
  match resolution.found with
  | none => draft
  | some target =>
    let directive : CircularRequire := { line, module, target }
    if target.isIn chain then draft.closeCycle file directive
    else
      let outcome := required reader follow target draft.cache
      let draft := { draft with cache := outcome.state, events := draft.events ++ outcome.events }
      match outcome.value with
      | none => draft
      | some symbols => draft.takeOver directive symbols

def absorb (naming : Naming) (reader : SourceReader) (follow : Follow) (chain : List Path)
    (file : Path) (draft : Draft) : SourceItem → Draft
  | .function d => { draft with symbols := draft.symbols.declare d }
  | .require module line => followRequire naming reader follow chain file draft module line

/-- Takes in all items of `file` in order. -/
def gather (naming : Naming) (reader : SourceReader) (follow : Follow) (chain : List Path)
    (file : Path) (text : String) (cache : SymbolCache) : Draft :=
  let items := SourceItem.scan file text.toList
  items.foldl (absorb naming reader follow chain file)
    { cache := cache.countScan
      events := .extracting file text.utf8ByteSize :: items.map SourceItem.event }

/-- Extracts a file below the files of `chain` and caches its symbols. `depth` bounds how far
requires are followed; the files on the way are all different, so one more than the reader can read
is enough. -/
def visit (naming : Naming) (reader : SourceReader) :
    (depth : Nat) → (chain : List Path) → Follow
  | 0, _, _, _, cache => { value := {}, state := cache }
  | depth + 1, chain, file, text, cache =>
    let way := file :: chain
    (gather naming reader (visit naming reader depth way) way file text cache).finish file

def extract (naming : Naming) (reader : SourceReader) : Follow :=
  visit naming reader (reader.limit + 1) []

/-- The symbols of a file, from the cache unless `force` is set. -/
def symbolsFor (naming : Naming) (reader : SourceReader) (force : Bool) (file : Path) (text : String)
    (cache : SymbolCache) : Outcome SymbolCache FileSymbols :=
  match (if force then none else cache.get? file) with
  | some symbols => { value := symbols, state := cache }
  | none => extract naming reader file text cache

/-- New symbols for a file whose text has changed, and the other files whose symbols were dropped
because they depend on it. -/
structure Refreshed where
  symbols : FileSymbols
  /-- The files that have to be looked at again. -/
  stale : List Path

/-- Extracts a file again after its text has changed. -/
def refresh (naming : Naming) (reader : SourceReader) (file : Path) (text : String)
    (cache : SymbolCache) : Outcome SymbolCache Refreshed :=
  let (dropped, cache) := cache.invalidate file
  let outcome := extract naming reader file text cache
  let stale := dropped.filter fun path => decide (path.components ≠ file.components)
  { value := { symbols := outcome.value, stale }
    state := outcome.state
    events := Event.ofDropped dropped file ++ outcome.events }

end Extraction

end ScriptIndex
