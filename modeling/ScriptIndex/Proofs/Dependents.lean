import Mathlib.Data.List.Nodup
import ScriptIndex.Proofs.Resolving
import ScriptIndex.SymbolCache

/-!
# Entries and those who watch them

The cache keeps its entries and, for every watched path, the files that watch it.  The second table
can be read off the first: `SymbolCache.Linked` says so, and every operation of the cache keeps it.
This is what makes dropping a file sound: nothing that is left was computed from what is gone.

* `SymbolCache.get?_erase`, `SymbolCache.get?_insert` — what is found after an operation;
* `SymbolCache.Linked` — the watchers of a path are the files whose entries watch it;
* `SymbolCache.Linked.insert`, `SymbolCache.Linked.erase` — it holds after each operation;
* `SymbolCache.Pruned`, `SymbolCache.invalidate_pruned` — what is left after a file was dropped.
-/

namespace ScriptIndex

/-! ## Rows with distinct keys -/

namespace Keyed

variable {α κ : Type} [DecidableEq κ] {key : α → κ}

/-- Putting a row keeps the keys, or adds the new one at the end. -/
theorem map_key_put (row : α) (rows : List α) :
    (put key row rows).map key =
      if key row ∈ rows.map key then rows.map key else rows.map key ++ [key row] := by
  induction rows with
  | nil => simp [put]
  | cons first rest ih =>
    by_cases same : key first = key row
    · simp [put, same]
    · have hne : ¬ key row = key first := fun h => same h.symm
      rw [put, if_neg same, List.map_cons, ih]
      by_cases hmem : key row ∈ rest.map key
      · rw [if_pos hmem, if_pos (by simpa [hne] using hmem), List.map_cons]
      · rw [if_neg hmem, if_neg (by simpa [hne] using hmem), List.map_cons, List.cons_append]

theorem nodup_put {row : α} {rows : List α} (h : (rows.map key).Nodup) :
    ((put key row rows).map key).Nodup := by
  rw [map_key_put]
  split
  · exact h
  · rename_i hmem
    rw [List.nodup_append]
    refine ⟨h, List.nodup_singleton _, ?_⟩
    rintro k hk k' hk' rfl
    exact hmem (List.mem_singleton.mp hk' ▸ hk)

/-- After putting a row there are that row and old ones. -/
theorem mem_put {row row' : α} {rows : List α} (h : row' ∈ put key row rows) :
    row' = row ∨ row' ∈ rows := by
  induction rows with
  | nil => exact Or.inl (List.mem_singleton.mp h)
  | cons first rest ih =>
    unfold put at h
    split at h
    · rcases List.mem_cons.mp h with rfl | h
      · exact Or.inl rfl
      · exact Or.inr (List.mem_cons_of_mem _ h)
    · rcases List.mem_cons.mp h with rfl | h
      · exact Or.inr List.mem_cons_self
      · exact (ih h).imp_right (List.mem_cons_of_mem _)

/-- With distinct keys every row is the one that is found under its key. -/
theorem find?_of_mem {row : α} {rows : List α} (h : (rows.map key).Nodup) (hrow : row ∈ rows) :
    find? key (key row) rows = some row := by
  induction rows with
  | nil => simp at hrow
  | cons first rest ih =>
    rw [List.map_cons, List.nodup_cons] at h
    rcases List.mem_cons.mp hrow with rfl | hrest
    · simp [find?]
    · have hne : key first ≠ key row := fun heq => h.1 (heq ▸ List.mem_map_of_mem hrest)
      have hskip : find? key (key row) (first :: rest) = find? key (key row) rest := by
        simp [find?, hne]
      rw [hskip]
      exact ih h.2 hrest

/-- Rewriting rows without touching their keys commutes with looking one up. -/
theorem find?_filterMap {f : α → Option α} (hf : ∀ row row', f row = some row' → key row' = key row)
    (k : κ) {rows : List α} (h : (rows.map key).Nodup) :
    find? key k (rows.filterMap f) = (find? key k rows).bind f := by
  induction rows with
  | nil => rfl
  | cons row rest ih =>
    rw [List.map_cons, List.nodup_cons] at h
    by_cases hk : key row = k
    · have hrow : find? key k (row :: rest) = some row := by simp [find?, hk]
      rw [hrow, Option.bind_some]
      cases hfr : f row with
      | some row' =>
        rw [List.filterMap_cons_some hfr]
        simp [find?, (hf row row' hfr).trans hk]
      | none =>
        -- a later row cannot stand in: its key would be `k` as well
        rw [List.filterMap_cons_none hfr]
        unfold find?
        rw [List.find?_eq_none]
        intro row' hrow' hkey
        obtain ⟨old, hold, hfo⟩ := List.mem_filterMap.mp hrow'
        apply h.1
        rw [hk, ← of_decide_eq_true hkey, hf old row' hfo]
        exact List.mem_map_of_mem hold
    · have hskip : find? key k (row :: rest) = find? key k rest := by simp [find?, hk]
      rw [hskip, ← ih h.2]
      cases hfr : f row with
      | some row' =>
        rw [List.filterMap_cons_some hfr]
        simp [find?, (hf row row' hfr), hk]
      | none => rw [List.filterMap_cons_none hfr]

end Keyed

namespace SymbolCache

/-! ## What is found after an operation -/

theorem contains_eq (cache : SymbolCache) (p : Path) : cache.contains p = (cache.get? p).isSome := by
  unfold contains get?
  rw [Option.isSome_map, Keyed.isSome_find?]

theorem get?_congr (cache : SymbolCache) {p q : Path} (h : p.components = q.components) :
    cache.get? p = cache.get? q := by
  unfold get?
  rw [h]

theorem mem_of_get? {cache : SymbolCache} {p : Path} {s : FileSymbols} (h : cache.get? p = some s) :
    ∃ e ∈ cache.entries, e.file.components = p.components ∧ e.symbols = s := by
  obtain ⟨e, he, rfl⟩ := Option.map_eq_some_iff.mp h
  exact ⟨e, List.mem_of_find?_eq_some he, Keyed.key_of_find? CacheEntry.key he, rfl⟩

theorem contains_of_mem {cache : SymbolCache} {e : CacheEntry} {p : Path} (h : e ∈ cache.entries)
    (hp : e.file.components = p.components) : cache.contains p = true :=
  (Keyed.has_iff _ _ _).mpr ⟨e, h, hp⟩

theorem mem_of_contains {cache : SymbolCache} {p : Path} (h : cache.contains p = true) :
    ∃ e ∈ cache.entries, e.file.components = p.components :=
  (Keyed.has_iff _ _ _).mp h

theorem ne_of_get? {cache : SymbolCache} {p q : Path} {s : FileSymbols} (hp : cache.get? p = some s)
    (hq : cache.get? q = none) : p.components ≠ q.components := by
  intro hkey
  rw [get?_congr cache hkey, hq] at hp
  cases hp

/-- With distinct keys every entry is the one that is found for its file. -/
theorem get?_of_mem {cache : SymbolCache} (h : (cache.entries.map CacheEntry.key).Nodup)
    {e : CacheEntry} (he : e ∈ cache.entries) : cache.get? e.file = some e.symbols := by
  unfold get?
  rw [show e.file.components = e.key from rfl, Keyed.find?_of_mem h he]
  rfl

theorem erase_of_uncached {cache : SymbolCache} {file : Path} (h : cache.get? file = none) :
    cache.erase file = cache := by
  unfold erase
  rw [h]

theorem erase_of_cached {cache : SymbolCache} {file : Path} {s : FileSymbols}
    (h : cache.get? file = some s) :
    cache.erase file =
      { cache with
        entries := Keyed.drop CacheEntry.key file.components cache.entries
        dependents := unlink file s.watched cache.dependents } := by
  unfold erase
  rw [h]

theorem mem_erase {cache : SymbolCache} {file : Path} {e : CacheEntry} :
    e ∈ (cache.erase file).entries ↔ e ∈ cache.entries ∧ e.file.components ≠ file.components := by
  cases hget : cache.get? file with
  | none =>
    rw [erase_of_uncached hget]
    have hnone : ∀ e ∈ cache.entries, e.file.components ≠ file.components := by
      intro e he heq
      have hc := contains_of_mem he heq
      rw [contains_eq, hget] at hc
      simp at hc
    exact ⟨fun he => ⟨he, hnone e he⟩, And.left⟩
  | some s =>
    rw [erase_of_cached hget, Keyed.drop, List.mem_filter, decide_eq_true_iff]
    rfl

theorem get?_erase (cache : SymbolCache) (file p : Path) :
    (cache.erase file).get? p = if p.components = file.components then none else cache.get? p := by
  cases hget : cache.get? file with
  | none =>
    rw [erase_of_uncached hget]
    by_cases hp : p.components = file.components
    · rw [if_pos hp, get?_congr cache hp]
      exact hget
    · rw [if_neg hp]
  | some s =>
    rw [erase_of_cached hget]
    show Option.map _ (Keyed.find? _ _ (Keyed.drop _ _ _)) = _
    rw [Keyed.find?_drop]
    split
    · rfl
    · rfl

theorem mem_insert {cache : SymbolCache} {file : Path} {s : FileSymbols} {e : CacheEntry} :
    e ∈ (cache.insert file s).entries ↔
      (e ∈ cache.entries ∧ e.file.components ≠ file.components) ∨ e = ⟨file, s⟩ := by
  show e ∈ (cache.erase file).entries ++ [⟨file, s⟩] ↔ _
  rw [List.mem_append, mem_erase, List.mem_singleton]

/-- Nothing is lost by caching a file that had no entry. -/
theorem subset_insert {cache : SymbolCache} {file : Path} {s : FileSymbols}
    (h : cache.get? file = none) : ∀ e ∈ cache.entries, e ∈ (cache.insert file s).entries := by
  intro e he
  refine mem_insert.mpr (Or.inl ⟨he, ?_⟩)
  intro hkey
  have hcontains := contains_of_mem he hkey
  rw [contains_eq, h] at hcontains
  cases hcontains

theorem get?_insert (cache : SymbolCache) (file p : Path) (s : FileSymbols) :
    (cache.insert file s).get? p =
      if p.components = file.components then some s else cache.get? p := by
  have hfind : (cache.insert file s).get? p =
      ((cache.erase file).get? p).or (if p.components = file.components then some s else none) := by
    show Option.map _ (List.find? _ (_ ++ [_])) = _
    rw [List.find?_append, Option.map_or]
    congr 1
    by_cases hp : file.components = p.components
    · simp [CacheEntry.key, hp]
    · have hp' : ¬ p.components = file.components := fun h => hp h.symm
      simp [CacheEntry.key, hp, hp']
  rw [hfind, get?_erase]
  by_cases hp : p.components = file.components
  · simp [hp]
  · simp [hp]

theorem get?_insert_self (cache : SymbolCache) (file : Path) (s : FileSymbols) :
    (cache.insert file s).get? file = some s := by
  rw [get?_insert, if_pos rfl]

theorem scans_insert (cache : SymbolCache) (file : Path) (s : FileSymbols) :
    (cache.insert file s).scans = cache.scans := by
  show (cache.erase file).scans = cache.scans
  unfold erase
  split <;> rfl

/-! ## The table of watchers -/

/-- The files that watch a path, according to a table. -/
def watchersIn (rows : List Watchers) (w : Path) : List Path :=
  ((Keyed.find? Watchers.key w.components rows).map Watchers.files).getD []

theorem dependentsOf_eq (cache : SymbolCache) (w : Path) :
    cache.dependentsOf w = watchersIn cache.dependents w := rfl

theorem nodup_link {rows : List Watchers} (file path : Path)
    (h : (rows.map Watchers.key).Nodup) : ((link file rows path).map Watchers.key).Nodup := by
  unfold link
  cases hfind : Keyed.find? Watchers.key path.components rows with
  | some watchers => exact Keyed.nodup_put h
  | none =>
    rw [List.map_append, List.nodup_append]
    refine ⟨h, List.nodup_singleton _, ?_⟩
    rintro k hk k' hk' rfl
    obtain ⟨row, hrow, hkey⟩ := List.mem_map.mp hk
    have hnew : row.key = path.components := hkey.trans (List.mem_singleton.mp hk')
    have hfound := Keyed.find?_of_mem h hrow
    rw [hnew, hfind] at hfound
    simp at hfound

/-- After linking, `file` watches `path` too, and nothing else is different. -/
theorem isIn_watchersIn_link (file path w d : Path) (rows : List Watchers) :
    d.isIn (watchersIn (link file rows path) w) = true ↔
      d.isIn (watchersIn rows w) = true ∨
        (w.components = path.components ∧ d.components = file.components) := by
  unfold link
  cases hfind : Keyed.find? Watchers.key path.components rows with
  | none =>
    have happ : Keyed.find? Watchers.key w.components (rows ++ [{ path, files := [file] }]) =
        (Keyed.find? Watchers.key w.components rows).or
          (if path.components = w.components then some { path, files := [file] } else none) := by
      unfold Keyed.find?
      rw [List.find?_append]
      by_cases hp : path.components = w.components <;> simp [Watchers.key, hp]
    unfold watchersIn
    rw [happ]
    by_cases hp : w.components = path.components
    · rw [hp, hfind]
      simp [Path.isIn]
    · have hp' : ¬ path.components = w.components := fun h => hp h.symm
      simp [hp, hp']
  | some watchers =>
    have hkey : watchers.path.components = path.components :=
      Keyed.key_of_find? Watchers.key hfind
    unfold watchersIn
    show d.isIn ((Option.map _ (Keyed.find? _ _ (Keyed.put _ _ _))).getD []) = true ↔ _
    rw [Keyed.find?_put]
    by_cases hp : w.components = path.components
    · have hput : Watchers.key { watchers with files := file.addTo watchers.files } =
          w.components := hkey.trans hp.symm
      rw [if_pos hput, hp, hfind]
      show d.isIn (file.addTo watchers.files) = true ↔ d.isIn watchers.files = true ∨ _
      rw [Path.isIn_addTo, or_comm]
      simp
    · have hput : ¬ Watchers.key { watchers with files := file.addTo watchers.files } =
          w.components := fun h => hp (h.symm.trans hkey)
      rw [if_neg hput]
      simp [hp]

theorem nodup_foldl_link {rows : List Watchers} (file : Path) (watched : List Path)
    (h : (rows.map Watchers.key).Nodup) :
    ((watched.foldl (link file) rows).map Watchers.key).Nodup := by
  induction watched generalizing rows with
  | nil => exact h
  | cons path rest ih => exact ih (nodup_link file path h)

theorem isIn_watchersIn_foldl_link (file w d : Path) (watched : List Path) (rows : List Watchers) :
    d.isIn (watchersIn (watched.foldl (link file) rows) w) = true ↔
      d.isIn (watchersIn rows w) = true ∨
        (w.isIn watched = true ∧ d.components = file.components) := by
  induction watched generalizing rows with
  | nil => simp [Path.isIn]
  | cons path rest ih =>
    rw [List.foldl_cons, ih, isIn_watchersIn_link]
    have hcons : w.isIn (path :: rest) = true ↔
        w.components = path.components ∨ w.isIn rest = true := by
      simp [Path.isIn]
    rw [hcons]
    tauto

theorem key_of_unlinkOne {file : Path} {watched : List Path} {row row' : Watchers}
    (h : unlinkOne file watched row = some row') : row'.key = row.key := by
  unfold unlinkOne at h
  split at h
  · split at h
    · simp at h
    · rw [← Option.some.inj h]
      rfl
  · rw [Option.some.inj h]

/-- Whether or not the row is dropped, what is left of its files are the others. -/
theorem files_of_unlinkOne {file : Path} {watched : List Path} {row : Watchers}
    (h : row.path.isIn watched = true) :
    ((unlinkOne file watched row).map Watchers.files).getD [] =
      row.files.filter fun other => decide (other.components ≠ file.components) := by
  unfold unlinkOne
  rw [if_pos h]
  split
  · rename_i hnil
    rw [hnil]
    rfl
  · rfl

theorem nodup_unlink {rows : List Watchers} (file : Path) (watched : List Path)
    (h : (rows.map Watchers.key).Nodup) : ((unlink file watched rows).map Watchers.key).Nodup := by
  have hsub : ((unlink file watched rows).map Watchers.key).Sublist (rows.map Watchers.key) := by
    unfold unlink
    induction rows with
    | nil => simp
    | cons row rest ih =>
      rw [List.map_cons, List.nodup_cons] at h
      cases hrow : unlinkOne file watched row with
      | none =>
        rw [List.filterMap_cons_none hrow, List.map_cons]
        exact (ih h.2).cons _
      | some row' =>
        rw [List.filterMap_cons_some hrow, List.map_cons, List.map_cons, key_of_unlinkOne hrow]
        exact (ih h.2).cons_cons _
  exact h.sublist hsub

/-- After unlinking, `file` watches none of the given paths, and nothing else is different. -/
theorem isIn_watchersIn_unlink (file w d : Path) (watched : List Path) {rows : List Watchers}
    (h : (rows.map Watchers.key).Nodup) :
    d.isIn (watchersIn (unlink file watched rows) w) = true ↔
      d.isIn (watchersIn rows w) = true ∧
        (w.isIn watched = true → d.components ≠ file.components) := by
  unfold watchersIn unlink
  rw [Keyed.find?_filterMap (fun _ _ => key_of_unlinkOne) _ h]
  cases hfind : Keyed.find? Watchers.key w.components rows with
  | none => simp [Path.isIn]
  | some row =>
    have hkey : row.path.components = w.components := Keyed.key_of_find? Watchers.key hfind
    show d.isIn ((Option.map Watchers.files (unlinkOne file watched row)).getD []) = true ↔
      d.isIn row.files = true ∧ _
    rw [← Path.isIn_congr hkey watched]
    by_cases hw : row.path.isIn watched = true
    · rw [files_of_unlinkOne hw, Path.isIn_iff, Path.isIn_iff]
      constructor
      · rintro ⟨q, hq, hqd⟩
        obtain ⟨hmem, hne⟩ := List.mem_filter.mp hq
        exact ⟨⟨q, hmem, hqd⟩, fun _ => hqd ▸ of_decide_eq_true hne⟩
      · rintro ⟨⟨q, hq, hqd⟩, hne⟩
        exact ⟨q, List.mem_filter.mpr ⟨hq, decide_eq_true (hqd ▸ hne hw)⟩, hqd⟩
    · unfold unlinkOne
      rw [if_neg hw]
      simp [hw]

theorem nodup_erase {cache : SymbolCache} (file : Path)
    (h : (cache.dependents.map Watchers.key).Nodup) :
    ((cache.erase file).dependents.map Watchers.key).Nodup := by
  unfold erase
  split
  · exact h
  · exact nodup_unlink file _ h

theorem nodup_insert {cache : SymbolCache} (file : Path) (s : FileSymbols)
    (h : (cache.dependents.map Watchers.key).Nodup) :
    ((cache.insert file s).dependents.map Watchers.key).Nodup :=
  nodup_foldl_link file s.watched (nodup_erase file h)

/-! ## The two tables agree -/

/-- Every file has one entry and every watched path one row, and the watchers of a path are exactly
the files whose entries watch it. -/
structure Linked (cache : SymbolCache) : Prop where
  entries_nodup : (cache.entries.map CacheEntry.key).Nodup
  rows_nodup : (cache.dependents.map Watchers.key).Nodup
  watchers : ∀ w d : Path, d.isIn (cache.dependentsOf w) = true ↔
    ∃ s, cache.get? d = some s ∧ w.isIn s.watched = true

namespace Linked

variable {cache : SymbolCache}

theorem empty (scans : Nat) : Linked { scans := scans } where
  entries_nodup := List.nodup_nil
  rows_nodup := List.nodup_nil
  watchers := by simp [dependentsOf, get?, Keyed.find?, Path.isIn]

theorem countScan (h : cache.Linked) : cache.countScan.Linked :=
  ⟨h.entries_nodup, h.rows_nodup, h.watchers⟩

theorem erase (h : cache.Linked) (file : Path) : (cache.erase file).Linked := by
  cases hget : cache.get? file with
  | none =>
    rw [erase_of_uncached hget]
    exact h
  | some old =>
    refine ⟨?_, nodup_erase file h.rows_nodup, ?_⟩
    · rw [erase_of_cached hget]
      exact h.entries_nodup.sublist (List.filter_sublist.map _)
    · intro w d
      have hrows : (cache.erase file).dependentsOf w =
          watchersIn (unlink file old.watched cache.dependents) w := by
        rw [erase_of_cached hget]
        rfl
      rw [hrows, isIn_watchersIn_unlink file w d old.watched h.rows_nodup, ← dependentsOf_eq,
        h.watchers, get?_erase]
      constructor
      · rintro ⟨⟨s, hs, hw⟩, hne⟩
        by_cases hd : d.components = file.components
        · -- the entry of `file` itself watched `w`, so it is the one that was unlinked
          rw [get?_congr cache hd, hget, Option.some.injEq] at hs
          exact absurd hd (hne (hs ▸ hw))
        · exact ⟨s, by rw [if_neg hd]; exact hs, hw⟩
      · rintro ⟨s, hs, hw⟩
        by_cases hd : d.components = file.components
        · rw [if_pos hd] at hs
          simp at hs
        · rw [if_neg hd] at hs
          exact ⟨⟨s, hs, hw⟩, fun _ => hd⟩

theorem insert (h : cache.Linked) (file : Path) (s : FileSymbols) : (cache.insert file s).Linked := by
  have he := h.erase file
  refine ⟨?_, nodup_insert file s h.rows_nodup, ?_⟩
  · show (((cache.erase file).entries ++ [CacheEntry.mk file s]).map CacheEntry.key).Nodup
    rw [List.map_append, List.nodup_append]
    refine ⟨he.entries_nodup, List.nodup_singleton _, ?_⟩
    rintro k hk k' hk' rfl
    obtain ⟨e, hmem, hkey⟩ := List.mem_map.mp hk
    exact (mem_erase.mp hmem).2 (hkey.trans (List.mem_singleton.mp hk'))
  · intro w d
    have hrows : (cache.insert file s).dependentsOf w =
        watchersIn (s.watched.foldl (link file) (cache.erase file).dependents) w := rfl
    rw [hrows, isIn_watchersIn_foldl_link, ← dependentsOf_eq, he.watchers, get?_insert, get?_erase]
    by_cases hd : d.components = file.components
    · simp [hd]
    · simp [hd]

end Linked

/-! ## Dropping a file -/

theorem size_erase_lt {cache : SymbolCache} {file : Path} (h : cache.contains file = true) :
    (cache.erase file).size < cache.size := by
  obtain ⟨e, he, hkey⟩ := mem_of_contains h
  have hsub : (cache.erase file).entries.Sublist cache.entries := by
    unfold SymbolCache.erase
    split
    · exact List.Sublist.refl _
    · exact List.filter_sublist
  have hne : (cache.erase file).entries ≠ cache.entries := by
    intro heq
    have hmem : e ∈ (cache.erase file).entries := heq ▸ he
    exact (mem_erase.mp hmem).2 hkey
  have hlt : (cache.erase file).entries.length ≠ cache.entries.length :=
    fun hlen => hne (hsub.eq_of_length hlen)
  have hle := hsub.length_le
  unfold size
  omega

/-- Dropping takes entries away and changes none. -/
theorem sweep_subset (budget : Nat) (queue : List Path) (cache : SymbolCache) :
    ∀ e ∈ (sweep budget queue cache).2.entries, e ∈ cache.entries := by
  induction budget generalizing queue cache with
  | zero => exact fun e he => he
  | succ budget ih =>
    intro e he
    unfold sweep at he
    split at he
    · exact he
    · exact (mem_erase.mp (ih _ _ e he)).1

/-- The step argument of dropping: with as many steps as there are entries, the queue is dropped
whole, and so is everything that watches a dropped file. -/
theorem sweep_spec {budget : Nat} {queue : List Path} {cache : SymbolCache} (hl : cache.Linked)
    (hb : cache.size ≤ budget) :
    (sweep budget queue cache).2.Linked ∧
      (∀ e ∈ cache.entries, e ∈ (sweep budget queue cache).2.entries ∨
        e.file.isIn (sweep budget queue cache).1 = true) ∧
      (∀ q ∈ queue, ∀ e ∈ (sweep budget queue cache).2.entries,
        e.file.components ≠ q.components) ∧
      (∀ d ∈ (sweep budget queue cache).1, ∀ e ∈ (sweep budget queue cache).2.entries,
        d.isIn e.symbols.watched = false) := by
  induction budget generalizing queue cache with
  | zero =>
    have hnil : cache.entries = [] := List.length_eq_zero_iff.mp (Nat.le_zero.mp hb)
    simp [sweep, hl, hnil]
  | succ budget ih =>
    cases hfind : queue.find? cache.contains with
    | none =>
      have hnone : ∀ q ∈ queue, cache.contains q = false := by
        intro q hq
        simpa using List.find?_eq_none.mp hfind q hq
      simp only [sweep, hfind]
      refine ⟨hl, fun e he => Or.inl he, ?_, by simp⟩
      intro q hq e he heq
      have hc := contains_of_mem he heq
      rw [hnone q hq] at hc
      simp at hc
    | some file =>
      have hc : cache.contains file = true := List.find?_some hfind
      have hfile : file ∈ queue := List.mem_of_find?_eq_some hfind
      have hsize := size_erase_lt hc
      obtain ⟨hlinked, hkept, hqueue, hclosed⟩ :=
        @ih (queue ++ (cache.erase file).dependentsOf file) (cache.erase file) (hl.erase file)
          (by omega)
      simp only [sweep, hfind]
      refine ⟨hlinked, ?_, ?_, ?_⟩
      · intro e he
        by_cases hkey : e.file.components = file.components
        · exact Or.inr (Path.isIn_iff.mpr ⟨file, List.mem_cons_self, hkey.symm⟩)
        · rcases hkept e (mem_erase.mpr ⟨he, hkey⟩) with h | h
          · exact Or.inl h
          · obtain ⟨d, hd, hde⟩ := Path.isIn_iff.mp h
            exact Or.inr (Path.isIn_iff.mpr ⟨d, List.mem_cons_of_mem _ hd, hde⟩)
      · intro q hq
        exact hqueue q (List.mem_append_left _ hq)
      · intro d hd e he
        rcases List.mem_cons.mp hd with rfl | hd
        · -- an entry that watches `file` was queued when `file` went
          rw [← Bool.not_eq_true]
          intro hwatch
          have hmem : e ∈ (cache.erase d).entries := sweep_subset _ _ _ e he
          have hget := get?_of_mem (hl.erase d).entries_nodup hmem
          have hdep := ((hl.erase d).watchers d e.file).mpr ⟨_, hget, hwatch⟩
          obtain ⟨q, hq, hqe⟩ := Path.isIn_iff.mp hdep
          exact hqueue q (List.mem_append_right _ hq) e he hqe.symm
        · exact hclosed d hd e he

/-- What is left of a cache once some files are stale: some of its entries, none of a stale file and
none that watches one, and with an entry all entries it watches. -/
structure Pruned (cache : SymbolCache) (stale : Path → Prop) (left : SymbolCache) : Prop where
  linked : left.Linked
  subset : ∀ e ∈ left.entries, e ∈ cache.entries
  fresh : ∀ e ∈ left.entries, ¬ stale e.file
  unwatched : ∀ e ∈ left.entries, ∀ q : Path, q.isIn e.symbols.watched = true → ¬ stale q
  closed : ∀ e ∈ left.entries, ∀ o ∈ cache.entries, o.file.isIn e.symbols.watched = true →
    o ∈ left.entries

/-- If no file is stale, all entries may be left. -/
theorem Pruned.refl {cache : SymbolCache} (hl : cache.Linked) :
    cache.Pruned (fun _ => False) cache where
  linked := hl
  subset := fun _ he => he
  fresh := fun _ _ hstale => hstale
  unwatched := fun _ _ _ _ hstale => hstale
  closed := fun _ _ _ ho _ => ho

/-- **Dropping a file is sound.** -/
theorem invalidate_pruned {cache : SymbolCache} (hl : cache.Linked) (file : Path) :
    cache.Pruned file.SameFile (cache.invalidate file).2 := by
  have hsub := sweep_subset cache.size (file :: cache.dependentsOf file) cache
  obtain ⟨hlinked, hkept, hqueue, hclosed⟩ :=
    @sweep_spec cache.size (file :: cache.dependentsOf file) cache hl (Nat.le_refl _)
  refine ⟨hlinked, hsub, fun e he => hqueue file List.mem_cons_self e he, ?_, ?_⟩
  · intro e he q hwatch hq
    rw [Path.isIn_congr hq] at hwatch
    have hget := get?_of_mem hl.entries_nodup (hsub e he)
    have hdep := (hl.watchers file e.file).mpr ⟨_, hget, hwatch⟩
    obtain ⟨d, hd, hde⟩ := Path.isIn_iff.mp hdep
    exact hqueue d (List.mem_cons_of_mem _ hd) e he hde.symm
  · intro e he o ho hwatch
    rcases hkept o ho with h | h
    · exact h
    · obtain ⟨d, hd, hdo⟩ := Path.isIn_iff.mp h
      have hno := hclosed d hd e he
      rw [Path.isIn_congr hdo, hwatch] at hno
      cases hno

end SymbolCache

end ScriptIndex
