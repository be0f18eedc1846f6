import Mathlib.Data.Finset.Card
import ScriptIndex.Proofs.ExtractionLog

/-!
# Each file is scanned once

While a file is extracted, others are scanned, cached and taken from the cache at every depth of the
way.  A file is scanned only if it is neither cached nor on the way, and it is cached when its scan is
over.  So no file is scanned twice, the scans can be counted by the entries that are new, and entries
that were there before are not touched.

* `Extraction.scanned` — the files whose scan a log reports;
* `SymbolCache.Gains` — a later cache whose new entries are those of the scanned files;
* `SymbolCache.Gains.append`, `SymbolCache.Gains.extraction` — what two stretches and what one file add;
* `Reports.gains` — whatever is reported, the cache gains the files that were scanned;
* `Extraction.extract_scans_once` — the count for the extraction of a file from any cache.
-/

namespace ScriptIndex

/-- The file whose extraction an event begins. -/
def Event.begun? : Event → Option Path
  | .extracting file _ => some file
  | _ => none

/-- The files that were scanned, according to a log. -/
def Extraction.scanned (log : List Event) : List Path :=
  log.filterMap Event.begun?

open Extraction (scanned)

theorem scanned_of_isQuiet {log : List Event} (h : ∀ event ∈ log, event.isQuiet = true) :
    scanned log = [] := by
  refine List.filterMap_eq_nil_iff.mpr fun event hevent => ?_
  have hquiet := h event hevent
  cases event with
  | extracting file bytes => cases hquiet
  | _ => rfl

theorem scanned_extraction (file : Path) (bytes functions requires : Nat) (log : List Event) :
    scanned (.extracting file bytes :: (log ++ [.extracted file functions requires])) =
      file :: scanned log := by
  simp [scanned, Event.begun?]

namespace SymbolCache

/-- The files that have an entry, each as what all paths to it have in common. -/
def keys (cache : SymbolCache) : Finset (List Component) :=
  (cache.entries.map CacheEntry.key).toFinset

theorem mem_keys {cache : SymbolCache} {p : Path} :
    p.components ∈ cache.keys ↔ cache.contains p = true := by
  simp [keys, contains, Keyed.has]

/-! ## What a cache gains -/

/-- From `cache` to `later` the given files were scanned, none of them on `way`, and cached: they are
different and had no entry, all other entries are as they were, and there are no further ones. -/
structure Gains (way : List Path) (cache later : SymbolCache) (files : List Path) : Prop where
  kept : ∀ e ∈ cache.entries, e ∈ later.entries
  found : ∀ p s, cache.get? p = some s → later.get? p = some s
  counted : later.scans = cache.scans + files.length
  distinct : (files.map Path.components).Nodup
  offWay : ∀ p ∈ files, p.isIn way = false
  uncached : ∀ p ∈ files, cache.contains p = false
  contains_iff : ∀ p, later.contains p = true ↔ cache.contains p = true ∨ p.isIn files = true

namespace Gains

variable {way : List Path} {cache middle later : SymbolCache} {files more : List Path}

theorem nil (way : List Path) (cache : SymbolCache) : Gains way cache cache [] where
  kept := fun _ he => he
  found := fun _ _ hget => hget
  counted := rfl
  distinct := List.nodup_nil
  offWay := by simp
  uncached := by simp
  contains_iff := by simp [Path.isIn]

/-- What is scanned later was not cached by then, so it is none of the files scanned before. -/
theorem append (h : Gains way cache middle files) (h' : Gains way middle later more) :
    Gains way cache later (files ++ more) where
  kept := fun e he => h'.kept e (h.kept e he)
  found := fun p s hget => h'.found p s (h.found p s hget)
  counted := by
    rw [h'.counted, h.counted, List.length_append]
    omega
  distinct := by
    rw [List.map_append, List.nodup_append]
    refine ⟨h.distinct, h'.distinct, ?_⟩
    rintro k hk l hl rfl
    obtain ⟨p, hp, rfl⟩ := List.mem_map.mp hl
    have hcached := (h.contains_iff p).mpr (Or.inr (decide_eq_true hk))
    rw [h'.uncached p hp] at hcached
    cases hcached
  offWay := by
    intro p hp
    rcases List.mem_append.mp hp with hp | hp
    · exact h.offWay p hp
    · exact h'.offWay p hp
  uncached := by
    intro p hp
    rcases List.mem_append.mp hp with hp | hp
    · exact h.uncached p hp
    · have hmiddle := h'.uncached p hp
      rw [← Bool.not_eq_true] at hmiddle ⊢
      exact fun hcached => hmiddle ((h.contains_iff p).mpr (Or.inl hcached))
  contains_iff := by
    intro p
    have happend : p.isIn (files ++ more) = true ↔ p.isIn files = true ∨ p.isIn more = true := by
      simp [Path.isIn]
    rw [h'.contains_iff, h.contains_iff, happend, or_assoc]

/-- A file that is neither cached nor on the way is scanned, others below it, and cached. -/
theorem extraction {target : Path} (hoff : target.isIn way = false)
    (hget : cache.get? target = none) (h : Gains (target :: way) cache.countScan later files)
    (s : FileSymbols) : Gains way cache (later.insert target s) (target :: files) := by
  have huncached : cache.contains target = false := by
    rw [contains_eq, hget]
    rfl
  have hother : ∀ p ∈ files, p.components ≠ target.components :=
    fun p hp => Path.ne_of_not_isIn_cons (h.offWay p hp)
  have hlater : later.get? target = none := by
    rw [← Option.not_isSome_iff_eq_none, ← contains_eq, h.contains_iff]
    rintro (hcached | hscanned)
    · exact Bool.false_ne_true (huncached.symm.trans hcached)
    · obtain ⟨p, hp, hkey⟩ := Path.isIn_iff.mp hscanned
      exact hother p hp hkey
  refine ⟨fun e he => subset_insert hlater e (h.kept e he), ?_, ?_, ?_, ?_, ?_, ?_⟩
  · intro p r hp
    have hfound := h.found p r hp
    rw [get?_insert, if_neg (ne_of_get? hfound hlater)]
    exact hfound
  · rw [scans_insert, h.counted, List.length_cons]
    show cache.scans + 1 + files.length = cache.scans + (files.length + 1)
    omega
  · rw [List.map_cons, List.nodup_cons]
    refine ⟨fun hmem => ?_, h.distinct⟩
    obtain ⟨p, hp, hkey⟩ := List.mem_map.mp hmem
    exact hother p hp hkey
  · refine List.forall_mem_cons.mpr ⟨hoff, fun p hp => ?_⟩
    have hway := h.offWay p hp
    rw [← Bool.not_eq_true] at hway ⊢
    intro hin
    obtain ⟨q, hq, hkey⟩ := Path.isIn_iff.mp hin
    exact hway (Path.isIn_iff.mpr ⟨q, List.mem_cons_of_mem _ hq, hkey⟩)
  · exact List.forall_mem_cons.mpr ⟨huncached, h.uncached⟩
  · intro p
    have hcons : p.isIn (target :: files) = true ↔
        p.components = target.components ∨ p.isIn files = true := by
      simp [Path.isIn]
    have hcontains := h.contains_iff p
    rw [contains_eq] at hcontains
    rw [contains_eq, get?_insert, hcons]
    by_cases hkey : p.components = target.components
    · simp [hkey]
    · rw [if_neg hkey, hcontains]
      simp only [hkey, false_or]
      rfl

end Gains

end SymbolCache

/-- **Whatever is reported is gained.** -/
theorem Reports.gains {reader : SourceReader} {way : List Path} {c c' : SymbolCache}
    {log : List Event} (h : Reports reader way c c' log) : c.Gains way c' (scanned log) := by
  induction h with
  | quiet h =>
    rw [scanned_of_isQuiet h]
    exact .nil _ _
  | append _ _ ih ih' =>
    unfold scanned
    rw [List.filterMap_append]
    exact ih.append ih'
  | extraction offWay uncached _ _ ih =>
    rw [scanned_extraction]
    exact ih.extraction offWay uncached _

/-! ## Extractions -/

namespace Extraction

/-- The new entries of other files are those of the files that were gained. -/
theorem erase_keys_of_gains {cache later : SymbolCache} {file : Path} {files : List Path}
    (h : cache.Gains [file] later files) (s : FileSymbols) :
    ((later.insert file s).keys \ cache.keys).erase file.components =
      (files.map Path.components).toFinset := by
  have hcontains : ∀ p : Path, p.components ≠ file.components →
      ((later.insert file s).contains p = true ↔ later.contains p = true) := by
    intro p hne
    rw [SymbolCache.contains_eq, SymbolCache.get?_insert, if_neg hne, SymbolCache.contains_eq]
  ext k
  simp only [Finset.mem_erase, Finset.mem_sdiff, List.mem_toFinset]
  constructor
  · rintro ⟨hne, hnew, hold⟩
    obtain ⟨e, -, rfl⟩ := List.mem_map.mp (List.mem_toFinset.mp hnew)
    have hlater := (hcontains e.file hne).mp (SymbolCache.mem_keys.mp hnew)
    rcases (h.contains_iff e.file).mp hlater with hcached | hscanned
    · exact absurd (SymbolCache.mem_keys.mpr hcached) hold
    · exact of_decide_eq_true hscanned
  · intro hk
    obtain ⟨p, hp, rfl⟩ := List.mem_map.mp hk
    have hne : p.components ≠ file.components := Path.ne_of_not_isIn_cons (h.offWay p hp)
    refine ⟨hne, ?_, ?_⟩
    · rw [SymbolCache.mem_keys, hcontains p hne, h.contains_iff]
      exact Or.inr (Path.isIn_of_mem hp)
    · rw [SymbolCache.mem_keys, h.uncached p hp]
      exact Bool.false_ne_true

/-- **Each file is scanned once, and other entries are not touched.**  For every cache, reader, naming,
file and text: extracting the file leaves every entry of another file as it was, both in the table
and when it is looked up; the files whose scan is reported are different; and the count of scans goes
up by their number, which is one and the number of other files that have an entry now and had none. -/
theorem extract_scans_once (naming : Naming) (reader : SourceReader) (cache : SymbolCache) (file : Path)
    (text : String) :
    let outcome := extract naming reader file text cache
    (∀ e ∈ cache.entries, e.file.components ≠ file.components → e ∈ outcome.state.entries) ∧
      (∀ p s, p.components ≠ file.components → cache.get? p = some s →
        outcome.state.get? p = some s) ∧
      ((scanned outcome.events).map Path.components).Nodup ∧
      outcome.state.scans = cache.scans + (scanned outcome.events).length ∧
      outcome.state.scans =
        cache.scans + 1 + ((outcome.state.keys \ cache.keys).erase file.components).card := by
  intro outcome
  obtain ⟨later, log, functions, requires, hlog, hstate, hevents⟩ :=
    @visit_reports naming reader reader.limit [] file text cache
  have hgains := hlog.gains
  have hscanned : scanned outcome.events = file :: scanned log :=
    (congrArg scanned hevents).trans (scanned_extraction ..)
  have hscans : outcome.state.scans = cache.scans + 1 + (scanned log).length :=
    (congrArg SymbolCache.scans hstate).trans ((SymbolCache.scans_insert ..).trans hgains.counted)
  refine ⟨fun e he hne => ?_, fun p s hne hget => ?_, ?_, ?_, ?_⟩
  · show e ∈ (visit naming reader (reader.limit + 1) [] file text cache).state.entries
    rw [hstate]
    exact SymbolCache.mem_insert.mpr (Or.inl ⟨hgains.kept e he, hne⟩)
  · show (visit naming reader (reader.limit + 1) [] file text cache).state.get? p = some s
    rw [hstate, SymbolCache.get?_insert, if_neg hne]
    exact hgains.found p s hget
  · rw [hscanned, List.map_cons, List.nodup_cons]
    refine ⟨fun hmem => ?_, hgains.distinct⟩
    obtain ⟨p, hp, hkey⟩ := List.mem_map.mp hmem
    exact Path.ne_of_not_isIn_cons (hgains.offWay p hp) hkey
  · rw [hscans, hscanned, List.length_cons]
    omega
  · have hnew : (outcome.state.keys \ cache.keys).erase file.components =
        ((scanned log).map Path.components).toFinset :=
      (congrArg (fun c : SymbolCache => (c.keys \ cache.keys).erase file.components) hstate).trans
        (erase_keys_of_gains hgains _)
    rw [hscans, hnew, List.toFinset_card_of_nodup hgains.distinct, List.length_map]

/-- Two files that lead to a third one, which leads back to the first of them. -/
example :
    let files : List MemoryFile := [⟨.ofString "/w/b.das", some "require d"⟩,
      ⟨.ofString "/w/c.das", some "require d"⟩, ⟨.ofString "/w/d.das", some "require b\ndef f()"⟩]
    (extract .standard (.ofFiles files) (.ofString "/w/a.das") "require b\nrequire c" {}).state.scans =
      4 := by
  decide +kernel

end Extraction

end ScriptIndex
