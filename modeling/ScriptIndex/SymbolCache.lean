import ScriptIndex.FileSymbols

/-!
# The symbol cache

The symbols of files, kept until something they were computed from changes. For every path that an
entry watches the cache knows the entry, so that a change to a file drops every entry that was
computed from it, directly or through other files.

* `SymbolCache.insert` — a new entry in the place of the old one of that file;
* `SymbolCache.dependentsOf` — the files whose entries watch a path;
* `SymbolCache.invalidate` — drops a file's entry and all that depend on it, and tells which.
-/

namespace ScriptIndex

structure CacheEntry where
  file : Path
  symbols : FileSymbols
deriving DecidableEq, Repr

/-- The files whose entries watch one path. -/
structure Watchers where
  path : Path
  files : List Path
deriving DecidableEq, Repr

/-- The entries of the cache, who watches what, and how many files were read for it. -/
structure SymbolCache where
  /-- The entries, one for each file. -/
  entries : List CacheEntry := []
  /-- The watchers of each watched path. -/
  dependents : List Watchers := []
  /-- How many files have been scanned so far. -/
  scans : Nat := 0
deriving DecidableEq, Repr

namespace CacheEntry

def key (entry : CacheEntry) : List Component :=
  entry.file.components

end CacheEntry

namespace Watchers

def key (watchers : Watchers) : List Component :=
  watchers.path.components

end Watchers

namespace SymbolCache

def get? (cache : SymbolCache) (file : Path) : Option FileSymbols :=
  (Keyed.find? CacheEntry.key file.components cache.entries).map CacheEntry.symbols

def contains (cache : SymbolCache) (file : Path) : Bool :=
  Keyed.has CacheEntry.key file.components cache.entries

def size (cache : SymbolCache) : Nat :=
  cache.entries.length

def dependentsOf (cache : SymbolCache) (path : Path) : List Path :=
  ((Keyed.find? Watchers.key path.components cache.dependents).map Watchers.files).getD []

def countScan (cache : SymbolCache) : SymbolCache :=
  { cache with scans := cache.scans + 1 }

/-- Notes that `file` watches `path`. -/
def link (file : Path) (dependents : List Watchers) (path : Path) : List Watchers :=
  match Keyed.find? Watchers.key path.components dependents with
  | none => dependents ++ [{ path, files := [file] }]
  | some watchers =>
    Keyed.put Watchers.key { watchers with files := file.addTo watchers.files } dependents

/-- What is left of the watchers of a path once `file` no longer watches `watched`. -/
def unlinkOne (file : Path) (watched : List Path) (watchers : Watchers) : Option Watchers :=
  if watchers.path.isIn watched then
    match watchers.files.filter fun other => decide (other.components ≠ file.components) with
    | [] => none
    | files => some { watchers with files }
  else some watchers

/-- Forgets that `file` watches the paths `watched`. -/
def unlink (file : Path) (watched : List Path) (dependents : List Watchers) : List Watchers :=
  dependents.filterMap (unlinkOne file watched)

def erase (cache : SymbolCache) (file : Path) : SymbolCache :=
  match cache.get? file with
  | none => cache
  | some symbols =>
    { cache with
      entries := Keyed.drop CacheEntry.key file.components cache.entries
      dependents := unlink file symbols.watched cache.dependents }

def insert (cache : SymbolCache) (file : Path) (symbols : FileSymbols) : SymbolCache :=
  let cache := cache.erase file
  { cache with
    entries := cache.entries ++ [{ file, symbols }]
    dependents := symbols.watched.foldl (link file) cache.dependents }

/-- Drops the entries of the queued files and of all files that depend on a dropped one; at most
`budget` of them. Gives the files in the order in which they were dropped. -/
def sweep : (budget : Nat) → (queue : List Path) → SymbolCache → List Path × SymbolCache
  | 0, _, cache => ([], cache)
  | budget + 1, queue, cache =>
    match queue.find? cache.contains with
    | none => ([], cache)
    | some file =>
      let rest := cache.erase file
      let (dropped, final) := sweep budget (queue ++ rest.dependentsOf file) rest
      (file :: dropped, final)

/-- Drops the entry of a file and of every file that depends on it, through however many others.
Every step drops an entry, so as many steps as there are entries suffice. -/
def invalidate (cache : SymbolCache) (file : Path) : List Path × SymbolCache :=
  sweep cache.size (file :: cache.dependentsOf file) cache

/-- Drops all entries; the count of scans goes on. -/
def clear (cache : SymbolCache) : SymbolCache :=
  { scans := cache.scans }

end SymbolCache

end ScriptIndex
