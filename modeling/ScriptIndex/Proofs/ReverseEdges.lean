import ScriptIndex.Proofs.Dependents

/-!
# The table of watchers after any operations

A cache is used through three operations: symbols are put in, a file is dropped with all that depends
on it, or everything is dropped.  Each of them changes the entries and the table of watchers side by
side, and the table is never more and never less than what can be read off the entries: no watcher is
forgotten, none is left behind, and a path that nobody watches any more has no row.

* `CacheStep`, `SymbolCache.afterSteps` — the operations, and the caches they lead to;
* `SymbolCache.Tidy` — both tables agree and no row is empty;
* `SymbolCache.Tidy.insert`, `SymbolCache.Tidy.invalidate`, `SymbolCache.Tidy.after` — every
  operation keeps it;
* `SymbolCache.dependents_exact` — so it holds after any sequence of operations.
-/

namespace ScriptIndex

/-- One operation on a cache. -/
inductive CacheStep where
  /-- Puts in the symbols of a file. -/
  | insert (file : Path) (symbols : FileSymbols)
  /-- Drops a file and all that depends on it. -/
  | invalidate (file : Path)
  /-- Drops everything. -/
  | clear

namespace SymbolCache

/-- The cache after an operation. -/
def after (cache : SymbolCache) : CacheStep → SymbolCache
  | .insert file symbols => cache.insert file symbols
  | .invalidate file => (cache.invalidate file).2
  | .clear => cache.clear

/-- The cache after some operations, starting from an empty one. -/
def afterSteps (steps : List CacheStep) : SymbolCache :=
  steps.foldl after {}

/-! ## Rows are never empty -/

/-- Every row of a table names a watcher. -/
def Occupied (rows : List Watchers) : Prop :=
  ∀ row ∈ rows, row.files ≠ []

namespace Occupied

variable {rows : List Watchers}

/-- A row that is written names at least the file it was written for. -/
theorem link (h : Occupied rows) (file path : Path) : Occupied (link file rows path) := by
  intro row hrow
  unfold SymbolCache.link at hrow
  split at hrow
  · rcases List.mem_append.mp hrow with hrow | hrow
    · exact h row hrow
    · rw [List.mem_singleton.mp hrow]
      exact List.cons_ne_nil _ _
  · next watchers hfind =>
    rcases Keyed.mem_put hrow with rfl | hrow
    · intro hnil
      have hfile : file.isIn (file.addTo watchers.files) = true := Path.isIn_addTo.mpr (Or.inl rfl)
      have hempty : file.addTo watchers.files = [] := hnil
      rw [hempty] at hfile
      simp [Path.isIn] at hfile
    · exact h row hrow

theorem foldl_link (h : Occupied rows) (file : Path) (watched : List Path) :
    Occupied (watched.foldl (SymbolCache.link file) rows) := by
  induction watched generalizing rows with
  | nil => exact h
  | cons path rest ih => exact ih (h.link file path)

/-- A row that loses its last watcher goes with it. -/
theorem unlink (h : Occupied rows) (file : Path) (watched : List Path) :
    Occupied (unlink file watched rows) := by
  intro row hrow
  obtain ⟨old, hold, hrest⟩ := List.mem_filterMap.mp hrow
  unfold unlinkOne at hrest
  split at hrest
  · split at hrest
    · cases hrest
    · next hfiles =>
      rw [← Option.some.inj hrest]
      exact hfiles
  · rw [← Option.some.inj hrest]
    exact h old hold

end Occupied

/-! ## What every operation keeps -/

/-- The watchers are those whose entries watch, and no row is empty. -/
structure Tidy (cache : SymbolCache) : Prop where
  linked : cache.Linked
  occupied : Occupied cache.dependents

namespace Tidy

variable {cache : SymbolCache}

theorem empty (scans : Nat) : Tidy { scans := scans } where
  linked := .empty scans
  occupied := by
    intro row hrow
    cases hrow

theorem erase (h : cache.Tidy) (file : Path) : (cache.erase file).Tidy where
  linked := h.linked.erase file
  occupied := by
    unfold SymbolCache.erase
    split
    · exact h.occupied
    · next symbols _ => exact h.occupied.unlink file symbols.watched

theorem insert (h : cache.Tidy) (file : Path) (symbols : FileSymbols) :
    (cache.insert file symbols).Tidy where
  linked := h.linked.insert file symbols
  occupied := (h.erase file).occupied.foldl_link file symbols.watched

/-- A sweep takes out one entry after the other. -/
theorem sweep (h : cache.Tidy) (budget : Nat) (queue : List Path) :
    (sweep budget queue cache).2.Tidy := by
  induction budget generalizing queue cache with
  | zero => exact h
  | succ budget ih =>
    unfold SymbolCache.sweep
    split
    · exact h
    · next file _ => exact ih (h.erase file) _

theorem invalidate (h : cache.Tidy) (file : Path) : (cache.invalidate file).2.Tidy :=
  h.sweep cache.size _

/-- **What one operation keeps.** -/
theorem after (h : cache.Tidy) (step : CacheStep) : (cache.after step).Tidy := by
  cases step with
  | insert file symbols => exact h.insert file symbols
  | invalidate file => exact h.invalidate file
  | clear => exact .empty cache.scans

theorem afterSteps (steps : List CacheStep) : (afterSteps steps).Tidy := by
  unfold SymbolCache.afterSteps
  have hstart : Tidy {} := .empty 0
  generalize ({} : SymbolCache) = cache at hstart
  induction steps generalizing cache with
  | nil => exact hstart
  | cons step rest ih => exact ih (cache.after step) (hstart.after step)

end Tidy

/-- **The watchers are exact.**  After any sequence of operations on an empty cache, with any symbols,
the watchers of a path are the files that have an entry which watches it, every watched path has one
row, and no row is empty. -/
theorem dependents_exact (steps : List CacheStep) :
    (∀ w d : Path, d.isIn ((afterSteps steps).dependentsOf w) = true ↔
      ∃ symbols, (afterSteps steps).get? d = some symbols ∧ w.isIn symbols.watched = true) ∧
    ((afterSteps steps).dependents.map Watchers.key).Nodup ∧
    ∀ row ∈ (afterSteps steps).dependents, row.files ≠ [] := by
  have htidy := Tidy.afterSteps steps
  exact ⟨htidy.linked.watchers, htidy.linked.rows_nodup, htidy.occupied⟩

/-- A file that watches itself, and another one twice, is put in anew with one watch of its own; the
rows of what it watched before are gone. -/
example :
    let a := Path.ofString "/a.das"
    let b := Path.ofString "/b.das"
    let c := Path.ofString "/c.das"
    (afterSteps [.insert a { watched := [a, b, .ofString "//b.das"] }, .insert c { watched := [a] },
      .insert a { watched := [c] }]).dependents = [⟨a, [c]⟩, ⟨c, [a]⟩] := by
  decide +kernel

end SymbolCache

end ScriptIndex
