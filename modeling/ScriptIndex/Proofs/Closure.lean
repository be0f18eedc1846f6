import Mathlib.Data.List.Nodup
import Mathlib.Logic.Relation
import ScriptIndex.Proofs.ReverseEdges

/-!
# What dropping a file takes along

A file that is dropped takes along every entry that was computed from it, directly or through other
entries.  The sweep that does this deletes watchers from the very table it reads the next files from,
on graphs that may have cycles.  Nothing is lost by that: a watcher that is deleted belongs to an
entry that is already gone.

* `SymbolCache.Feeds`, `SymbolCache.Affects` — one entry watches a path, and what a path affects;
* `SymbolCache.without` — a cache without some files, both tables together;
* `SymbolCache.Tidy.sweep_eq_without`, `SymbolCache.sweep_reached` — a sweep removes what it names, and
  names only what its queue affects;
* `SymbolCache.isIn_invalidate_iff` — the dropped files are the entries affected by the file;
* `SymbolCache.invalidate_exact` — all of it for every cache that operations lead to.
-/

namespace ScriptIndex

open Relation

namespace SymbolCache

variable {cache : SymbolCache}

/-! ## What a path affects -/

/-- There is an entry for `l`, and it watches `k`. -/
def Feeds (cache : SymbolCache) (k l : List Component) : Prop :=
  ∃ e ∈ cache.entries, e.key = l ∧ k ∈ e.symbols.watched.map Path.components

/-- `q` is the file `p`, or its entry watches a path that `p` affects. -/
def Affects (cache : SymbolCache) (p q : Path) : Prop :=
  ReflTransGen cache.Feeds p.components q.components

theorem Feeds.mono {left : SymbolCache} (h : ∀ e ∈ left.entries, e ∈ cache.entries)
    {k l : List Component} (hfeeds : left.Feeds k l) : cache.Feeds k l := by
  obtain ⟨e, he, hkey, hwatch⟩ := hfeeds
  exact ⟨e, h e he, hkey, hwatch⟩

theorem feeds_of_mem {e : CacheEntry} (he : e ∈ cache.entries) {w : Path}
    (hwatch : w.isIn e.symbols.watched = true) : cache.Feeds w.components e.key :=
  ⟨e, he, rfl, of_decide_eq_true hwatch⟩

/-- The watchers of a path are the files it feeds. -/
theorem Linked.feeds_of_mem_dependentsOf (h : cache.Linked) {w d : Path}
    (hd : d ∈ cache.dependentsOf w) : cache.Feeds w.components d.components := by
  obtain ⟨s, hget, hwatch⟩ := (h.watchers w d).mp (Path.isIn_of_mem hd)
  obtain ⟨e, he, hkey, rfl⟩ := mem_of_get? hget
  exact ⟨e, he, hkey, of_decide_eq_true hwatch⟩

/-! ## A cache without some files -/

/-- A row without the files of `gone`; nothing is left of a row without a watcher. -/
def rowWithout (gone : List Path) (row : Watchers) : Option Watchers :=
  match row.files.filter fun other => !other.isIn gone with
  | [] => none
  | files => some { row with files }

/-- The cache without the entries of some files, which no longer watch anything. -/
def without (cache : SymbolCache) (gone : List Path) : SymbolCache :=
  { cache with
    entries := cache.entries.filter fun e => !e.file.isIn gone
    dependents := cache.dependents.filterMap (rowWithout gone) }

theorem rowWithout_eq_some {gone : List Path} {row : Watchers} (hfiles : row.files ≠ [])
    (h : ∀ other ∈ row.files, other.isIn gone = false) : rowWithout gone row = some row := by
  have hall : (row.files.filter fun other => !other.isIn gone) = row.files := by
    rw [List.filter_eq_self]
    intro other hother
    rw [h other hother]
    rfl
  simp only [rowWithout, hall]

theorem filter_not_isIn_append {α : Type} (file : α → Path) (gone more : List Path) (rows : List α) :
    ((rows.filter fun row => !(file row).isIn gone).filter fun row => !(file row).isIn more) =
      rows.filter fun row => !(file row).isIn (gone ++ more) := by
  rw [List.filter_filter]
  refine List.filter_congr fun row _ => ?_
  rw [Bool.eq_iff_iff]
  simp [Path.isIn, and_comm]

theorem rowWithout_append (gone more : List Path) (row : Watchers) :
    (rowWithout gone row).bind (rowWithout more) = rowWithout (gone ++ more) row := by
  have hboth := filter_not_isIn_append id gone more row.files
  simp only [id] at hboth
  simp only [rowWithout, ← hboth]
  cases row.files.filter fun other => !other.isIn gone with
  | nil => rfl
  | cons first rest => rfl

/-- Files that go one after the other might as well go at once. -/
theorem without_without (cache : SymbolCache) (gone more : List Path) :
    (cache.without gone).without more = cache.without (gone ++ more) := by
  simp only [without, filter_not_isIn_append CacheEntry.file, List.filterMap_filterMap,
    rowWithout_append]

/-- Only what the paths name matters. -/
theorem without_congr {gone gone' : List Path} (h : ∀ q : Path, q.isIn gone = q.isIn gone') :
    cache.without gone = cache.without gone' := by
  have hrow : rowWithout gone = rowWithout gone' := by
    funext row
    simp only [rowWithout, h]
  simp only [without, h, hrow]

/-- Whoever is named in a row has an entry that watches the path of the row. -/
theorem Linked.watches_of_mem_row (h : cache.Linked) {row : Watchers} (hrow : row ∈ cache.dependents)
    {other : Path} (hother : other ∈ row.files) :
    ∃ s, cache.get? other = some s ∧ row.path.isIn s.watched = true := by
  have hfiles : cache.dependentsOf row.path = row.files := by
    show ((Keyed.find? Watchers.key row.key cache.dependents).map Watchers.files).getD [] = row.files
    rw [Keyed.find?_of_mem h.rows_nodup hrow]
    rfl
  exact (h.watchers row.path other).mp (hfiles ▸ Path.isIn_of_mem hother)

/-- A file without an entry can be left out for nothing. -/
theorem Tidy.without_eq_self (h : cache.Tidy) {gone : List Path}
    (hgone : ∀ p ∈ gone, cache.get? p = none) : cache.without gone = cache := by
  have hnot : ∀ p : Path, (cache.get? p).isSome = true → p.isIn gone = false := by
    intro p hp
    rw [← Bool.not_eq_true]
    intro hin
    obtain ⟨q, hq, hqp⟩ := Path.isIn_iff.mp hin
    rw [← get?_congr cache hqp, hgone q hq] at hp
    cases hp
  have hentries : (cache.entries.filter fun e => !e.file.isIn gone) = cache.entries := by
    rw [List.filter_eq_self]
    intro e he
    rw [hnot e.file (by rw [← contains_eq]; exact contains_of_mem he rfl)]
    rfl
  have hrows : cache.dependents.filterMap (rowWithout gone) = cache.dependents := by
    rw [List.filterMap_congr fun row hrow => ?_, List.filterMap_some]
    refine rowWithout_eq_some (h.occupied row hrow) fun other hother => hnot other ?_
    obtain ⟨s, hget, -⟩ := h.linked.watches_of_mem_row hrow hother
    rw [hget]
    rfl
  simp only [without, hentries, hrows]

theorem Tidy.without_nil (h : cache.Tidy) : cache.without [] = cache :=
  h.without_eq_self fun _ hp => absurd hp List.not_mem_nil

/-- **Erasing one file.**  The rows that its entry does not watch have no need to be looked at. -/
theorem Tidy.erase_eq_without (h : cache.Tidy) (file : Path) :
    cache.erase file = cache.without [file] := by
  cases hget : cache.get? file with
  | none =>
    rw [h.without_eq_self fun p hp => List.mem_singleton.mp hp ▸ hget]
    simp only [SymbolCache.erase, hget]
  | some symbols =>
    have hisIn : ∀ other : Path,
        (!other.isIn [file]) = decide (other.components ≠ file.components) := by
      intro other
      rw [Bool.eq_iff_iff]
      simp [Path.isIn]
    have hentries : Keyed.drop CacheEntry.key file.components cache.entries =
        cache.entries.filter fun e => !e.file.isIn [file] :=
      List.filter_congr fun e _ => (hisIn e.file).symm
    have hrows : unlink file symbols.watched cache.dependents =
        cache.dependents.filterMap (rowWithout [file]) := by
      refine List.filterMap_congr fun row hrow => ?_
      by_cases hwatch : row.path.isIn symbols.watched = true
      · cases hleft : row.files.filter fun other => decide (other.components ≠ file.components) <;>
          simp only [unlinkOne, hwatch, if_true, rowWithout, hisIn, hleft]
      · -- an entry that does not watch the path of a row is not named there
        rw [rowWithout_eq_some (h.occupied row hrow)]
        · simp only [unlinkOne, hwatch, Bool.false_eq_true, if_false]
        · intro other hother
          obtain ⟨s, hs, hw⟩ := h.linked.watches_of_mem_row hrow hother
          rw [← Bool.not_eq_true]
          intro hin
          have hfile : other.components = file.components := by simpa [Path.isIn] using hin
          rw [get?_congr cache hfile, hget] at hs
          exact hwatch (Option.some.inj hs ▸ hw)
    simp only [SymbolCache.erase, hget, without, hentries, hrows]

/-! ## A sweep -/

theorem sweep_of_size_zero (h : cache.size = 0) (budget : Nat) (queue : List Path) :
    sweep budget queue cache = ([], cache) := by
  cases budget with
  | zero => rfl
  | succ budget =>
    have hnone : queue.find? cache.contains = none := by
      rw [List.find?_eq_none]
      intro q _ hq
      obtain ⟨e, he, -⟩ := mem_of_contains hq
      rw [List.length_eq_zero_iff.mp h] at he
      cases he
    simp only [sweep, hnone]

/-- With a budget for all entries a larger one makes no difference. -/
theorem sweep_of_le {budget budget' : Nat} {queue : List Path} {cache : SymbolCache}
    (h : cache.size ≤ budget) (h' : cache.size ≤ budget') :
    sweep budget queue cache = sweep budget' queue cache := by
  induction budget generalizing budget' queue cache with
  | zero =>
    have hsize := Nat.le_zero.mp h
    rw [sweep_of_size_zero hsize, sweep_of_size_zero hsize]
  | succ budget ih =>
    cases budget' with
    | zero =>
      have hsize := Nat.le_zero.mp h'
      rw [sweep_of_size_zero hsize, sweep_of_size_zero hsize]
    | succ budget' =>
      cases hfind : queue.find? cache.contains with
      | none => simp only [sweep, hfind]
      | some file =>
        have hlt := size_erase_lt (List.find?_some hfind)
        have hrest := @ih budget' (queue ++ (cache.erase file).dependentsOf file) (cache.erase file)
          (by omega) (by omega)
        simp only [sweep, hfind, hrest]

/-- **A sweep removes what it names**, from both tables, and nothing else. -/
theorem Tidy.sweep_eq_without (h : cache.Tidy) (budget : Nat) (queue : List Path) :
    (SymbolCache.sweep budget queue cache).2 =
      cache.without (SymbolCache.sweep budget queue cache).1 := by
  induction budget generalizing queue cache with
  | zero => exact h.without_nil.symm
  | succ budget ih =>
    cases hfind : queue.find? cache.contains with
    | none =>
      simp only [SymbolCache.sweep, hfind]
      exact h.without_nil.symm
    | some file =>
      simp only [SymbolCache.sweep, hfind]
      rw [ih (h.erase file), h.erase_eq_without, without_without]
      rfl

/-- A sweep names files that have an entry, each of them once. -/
theorem sweep_named (budget : Nat) (queue : List Path) (cache : SymbolCache) :
    (∀ d ∈ (sweep budget queue cache).1, cache.contains d = true) ∧
      ((sweep budget queue cache).1.map Path.components).Nodup := by
  induction budget generalizing queue cache with
  | zero => exact ⟨by simp [sweep], by simp [sweep]⟩
  | succ budget ih =>
    cases hfind : queue.find? cache.contains with
    | none => simp [sweep, hfind]
    | some file =>
      obtain ⟨hcontains, hnodup⟩ := ih (queue ++ (cache.erase file).dependentsOf file)
        (cache.erase file)
      -- what is named later has an entry once `file` has none
      have hlater : ∀ d ∈ (sweep budget (queue ++ (cache.erase file).dependentsOf file)
          (cache.erase file)).1, cache.contains d = true ∧ d.components ≠ file.components := by
        intro d hd
        obtain ⟨e, he, hkey⟩ := mem_of_contains (hcontains d hd)
        obtain ⟨he, hne⟩ := mem_erase.mp he
        exact ⟨contains_of_mem he hkey, hkey ▸ hne⟩
      simp only [sweep, hfind, List.map_cons, List.nodup_cons, List.mem_cons, forall_eq_or_imp]
      refine ⟨⟨List.find?_some hfind, fun d hd => (hlater d hd).1⟩, ?_, hnodup⟩
      intro hmem
      obtain ⟨d, hd, hsame⟩ := List.mem_map.mp hmem
      exact (hlater d hd).2 hsame

/-- **A sweep names only what its queue affects.** -/
theorem sweep_reached (hl : cache.Linked) (budget : Nat) (queue : List Path) :
    ∀ d ∈ (sweep budget queue cache).1, ∃ q ∈ queue, cache.Affects q d := by
  induction budget generalizing queue cache with
  | zero => simp [sweep]
  | succ budget ih =>
    cases hfind : queue.find? cache.contains with
    | none => simp [sweep, hfind]
    | some file =>
      intro d hd
      simp only [sweep, hfind, List.mem_cons] at hd
      have hfile := List.mem_of_find?_eq_some hfind
      rcases hd with rfl | hd
      · exact ⟨d, hfile, ReflTransGen.refl⟩
      · obtain ⟨q, hq, hreach⟩ := ih (hl.erase file) _ d hd
        have hmono : ∀ k l, (cache.erase file).Feeds k l → cache.Feeds k l :=
          fun _ _ => Feeds.mono fun e he => (mem_erase.mp he).1
        have hreach' : cache.Affects q d := ReflTransGen.mono hmono _ _ hreach
        rcases List.mem_append.mp hq with hq | hq
        · exact ⟨q, hq, hreach'⟩
        · -- `q` was queued because its entry watches `file`
          have hfeeds := hmono _ _ ((hl.erase file).feeds_of_mem_dependentsOf hq)
          exact ⟨file, hfile, ReflTransGen.head hfeeds hreach'⟩

/-! ## Dropping a file -/

/-- Nothing that a file affects is left when the file is dropped. -/
theorem invalidate_unreached (hl : cache.Linked) {p : Path} {l : List Component}
    (hreach : ReflTransGen cache.Feeds p.components l) :
    ∀ e ∈ (cache.invalidate p).2.entries, e.key ≠ l := by
  have hpruned := invalidate_pruned hl p
  induction hreach with
  | refl => exact fun e he hkey => hpruned.fresh e he hkey
  | @tail b c hpb hbc ih =>
    intro e he hkey
    obtain ⟨e', he', hkey', hwatch⟩ := hbc
    have hsame : e' = e := List.inj_on_of_nodup_map hl.entries_nodup he' (hpruned.subset e he)
      (hkey'.trans hkey.symm)
    subst hsame
    -- `e'` is left and watches `b`: then `b` is not `p`, and if `b` has an entry that is left as well
    rcases ReflTransGen.cases_tail hpb with hb | ⟨a, -, o, ho, hokey, -⟩
    · obtain ⟨w, hw, hwb⟩ := List.mem_map.mp hwatch
      exact hpruned.unwatched e' he w (Path.isIn_of_mem hw) (hwb.trans hb)
    · have hisIn : o.file.isIn e'.symbols.watched = true := by
        rw [← hokey] at hwatch
        exact decide_eq_true hwatch
      exact ih o (hpruned.closed e' he o ho hisIn) hokey

/-- **The dropped files** are those that have an entry and are affected by the file. -/
theorem isIn_invalidate_iff (hl : cache.Linked) {p q : Path} :
    q.isIn (cache.invalidate p).1 = true ↔ cache.contains q = true ∧ cache.Affects p q := by
  constructor
  · intro hq
    obtain ⟨d, hd, hdq⟩ := Path.isIn_iff.mp hq
    have hcontains := (sweep_named _ _ _).1 d hd
    obtain ⟨o, ho, hreach⟩ := sweep_reached hl _ _ d hd
    refine ⟨?_, ?_⟩
    · rwa [contains_eq, ← get?_congr cache hdq, ← contains_eq]
    · show ReflTransGen cache.Feeds p.components q.components
      rw [← hdq]
      rcases List.mem_cons.mp ho with rfl | ho
      · exact hreach
      · exact ReflTransGen.head (hl.feeds_of_mem_dependentsOf ho) hreach
  · rintro ⟨hcontains, hreach⟩
    obtain ⟨e, he, hkey⟩ := mem_of_contains hcontains
    obtain ⟨-, hkept, -, -⟩ := @sweep_spec cache.size (p :: cache.dependentsOf p) cache hl
      (Nat.le_refl _)
    rcases hkept e he with hleft | hdropped
    · exact absurd hkey (invalidate_unreached hl hreach e hleft)
    · rwa [← Path.isIn_congr hkey]

/-- **Dropping is exact.**  Whatever operations led to a cache, and whether or not a file has an entry,
dropping it needs no more steps than there are entries; it names, each once, the files that have an
entry and are affected by it; the entries of these go, the others stay as they are; and none that
stays watches the file or a dropped one. -/
theorem invalidate_exact (steps : List CacheStep) (p : Path) :
    let cache := afterSteps steps
    let dropped := (cache.invalidate p).1
    let left := (cache.invalidate p).2
    (∀ budget, cache.size ≤ budget →
      sweep budget (p :: cache.dependentsOf p) cache = (dropped, left)) ∧
    (dropped.map Path.components).Nodup ∧
    (∀ q : Path, q.isIn dropped = true ↔ cache.contains q = true ∧ cache.Affects p q) ∧
    left.entries = cache.entries.filter (fun e => !e.file.isIn dropped) ∧
    ∀ e ∈ left.entries, ∀ w ∈ e.symbols.watched,
      w.components ≠ p.components ∧ w.isIn dropped = false := by
  intro cache dropped left
  have htidy : cache.Tidy := Tidy.afterSteps steps
  have hpruned := invalidate_pruned htidy.linked p
  have hleft : left = cache.without dropped := htidy.sweep_eq_without _ _
  refine ⟨fun budget hbudget => sweep_of_le hbudget (Nat.le_refl _), (sweep_named _ _ _).2,
    fun q => isIn_invalidate_iff htidy.linked, by rw [hleft]; rfl, ?_⟩
  intro e he w hw
  refine ⟨hpruned.unwatched e he w (Path.isIn_of_mem hw), ?_⟩
  rw [← Bool.not_eq_true]
  intro hdropped
  -- a dropped path that `e` watches affects `e`
  obtain ⟨-, hreach⟩ := (isIn_invalidate_iff htidy.linked).mp hdropped
  have hfeeds := feeds_of_mem (hpruned.subset e he) (Path.isIn_of_mem hw)
  exact invalidate_unreached htidy.linked (ReflTransGen.tail hreach hfeeds) e he rfl

/-- Two files that watch each other, one of which watches itself as well, go together, with a third one
that watches them; a file that they watch stays. -/
example :
    let a := Path.ofString "/a.das"
    let b := Path.ofString "/b.das"
    let c := Path.ofString "/c.das"
    let d := Path.ofString "/d.das"
    ((afterSteps [.insert a { watched := [b, a] }, .insert b { watched := [a, d] },
      .insert c { watched := [b] }, .insert d {}]).invalidate (.ofString "//a.das")).1 =
      [.ofString "//a.das", b, c] := by
  decide +kernel

end SymbolCache

end ScriptIndex
