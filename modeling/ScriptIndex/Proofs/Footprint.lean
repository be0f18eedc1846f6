import ScriptIndex.Proofs.DiskChanges
import ScriptIndex.Proofs.RequireGraph

/-!
# What an extraction depends on

Every question that a traversal asks its reader is about a path it has noted: it searches for modules
among the paths it watches, and it reads only files it has found.  So the watched paths of the entries
it makes are all it depends on, and another reader that answers alike on these leads the same way.

* `SourceReader.AgreeOn`, `SourceReader.AgreeOn.files` — two readers that answer alike on some paths,
  and so on the files of these;
* `Gathers.transfer` — a traversal with one reader is a traversal with the other;
* `Gathers.unique` — and a reader admits one traversal only;
* `FileSymbols.Attentive` — what is required or reported is watched;
* `extract_footprint` — both, for the extraction of a file from any cache.
-/

namespace ScriptIndex

open Extraction (look)

/-! ## Readers that agree -/

namespace SourceReader

/-- Two readers give the same answers about some paths. -/
def AgreeOn (reader reader' : SourceReader) (paths : List Path) : Prop :=
  ∀ w ∈ paths, reader.isFile w = reader'.isFile w ∧ reader.text? w = reader'.text? w

/-- Two readers give the same answers about the files of some paths, under every path that can be asked
for. -/
def AgreeOnFiles (naming : Naming) (reader reader' : SourceReader) (paths : List Path) : Prop :=
  ∀ q, naming.Asks q → q.isIn paths = true →
    reader.isFile q = reader'.isFile q ∧ reader.text? q = reader'.text? q

variable {naming : Naming} {reader reader' : SourceReader} {asked asked' : Path → Prop}
  {paths : List Path}

/-- Readers for which paths are names agree on files if they agree on candidates. -/
theorem AgreeOn.files (hr : reader.Regular naming asked) (hr' : reader'.Regular naming asked')
    (hpaths : ∀ w ∈ paths, naming.Asks w) (h : reader.AgreeOn reader' paths) :
    AgreeOnFiles naming reader reader' paths := by
  intro q hq hin
  obtain ⟨w, hw, hwq⟩ := Path.isIn_iff.mp hin
  obtain ⟨hfile, htext⟩ := h w hw
  have ha := hr.asks w (hpaths w hw)
  have ha' := hr'.asks w (hpaths w hw)
  rw [← hr.isFile_congr w q ha (hr.asks q hq) hwq, ← hr'.isFile_congr w q ha' (hr'.asks q hq) hwq,
    ← hr.text_congr w q ha (hr.asks q hq) hwq, ← hr'.text_congr w q ha' (hr'.asks q hq) hwq]
  exact ⟨hfile, htext⟩

/-- Readers that agree on what a search asks for lead it the same way. -/
theorem AgreeOnFiles.look_eq (h : AgreeOnFiles naming reader reader' paths) {cache : SymbolCache}
    {file : Path} {module : String}
    (hprobed : ∀ q : Path, q.isIn (look naming reader cache file module).probed = true →
      q.isIn paths = true) :
    look naming reader cache file module = look naming reader' cache file module := by
  apply Naming.resolve_congr
  intro q hq
  rw [(h q (Naming.asks_of_probed hq) (hprobed q (Path.isIn_of_mem hq))).1]

/-- And what it finds is read alike. -/
theorem AgreeOnFiles.text_eq (h : AgreeOnFiles naming reader reader' paths) {cache : SymbolCache}
    {file target : Path} {module : String}
    (found : (look naming reader cache file module).found = some target)
    (hprobed : ∀ q : Path, q.isIn (look naming reader cache file module).probed = true →
      q.isIn paths = true) :
    reader.text? target = reader'.text? target :=
  (h target (Naming.asks_of_found found)
    (hprobed target (Path.isIn_of_mem (Naming.found_mem_probed found)))).2

end SourceReader

/-! ## Two readers, one traversal -/

namespace Gathers

variable {naming : Naming} {reader reader' : SourceReader} {chain : List Path} {file : Path}
  {items : List SourceItem} {s s' : FileSymbols} {c c' : SymbolCache}

/-- A file that has an entry before a traversal has one after it. -/
theorem contains_mono (h : Gathers naming reader chain file items s c s' c') {p : Path}
    (hp : c.contains p = true) : c'.contains p = true := by
  obtain ⟨e, he, hkey⟩ := SymbolCache.mem_of_contains hp
  exact SymbolCache.contains_of_mem (h.keeps e he) hkey

/-- **A traversal depends on what it watches.**  A reader that agrees with the first one on the files
watched in the end, by the symbols and by every entry that was added, is led step by step through
the same traversal. -/
theorem transfer (h : Gathers naming reader chain file items s c s' c')
    (hs : reader.AgreeOnFiles naming reader' s'.watched)
    (hc : ∀ e ∈ c'.entries, c.contains e.file = false →
      reader.AgreeOnFiles naming reader' e.symbols.watched) :
    Gathers naming reader' chain file items s c s' c' := by
  induction h with
  | done => exact .done
  | declared _ ih => exact .declared (ih hs hc)
  | missing found rest ih =>
    have hlook := hs.look_eq fun q hq => rest.adds.isIn_of_probed rfl hq
    rw [hlook] at found ih
    exact .missing found (ih hs hc)
  | circular found onWay rest ih =>
    have hlook := hs.look_eq fun q hq => rest.adds.isIn_of_probed rfl hq
    rw [hlook] at found ih
    exact .circular found onWay (ih hs hc)
  | unreadable found offWay uncached unread rest ih =>
    have hlook := hs.look_eq fun q hq => rest.adds.isIn_of_probed rfl hq
    rw [hs.text_eq found fun q hq => rest.adds.isIn_of_probed rfl hq] at unread
    rw [hlook] at found ih
    exact .unreadable found offWay uncached unread (ih hs hc)
  | cached found offWay hit rest ih =>
    have hlook := hs.look_eq fun q hq => rest.adds.isIn_of_probed FileSymbols.takeOver_watched hq
    rw [hlook] at found ih
    exact .cached found offWay hit (ih hs hc)
  | @followed _ _ _ _ s' c c₁ c' _ _ target _ r found offWay uncached read below rest ihBelow ih =>
    have hprobed : ∀ q : Path, q.isIn _ = true → q.isIn s'.watched = true :=
      fun q hq => rest.adds.isIn_of_probed FileSymbols.takeOver_watched hq
    have hlook := hs.look_eq hprobed
    rw [hs.text_eq found hprobed] at read
    rw [hlook] at found ih
    have huncached : c₁.get? target = none :=
      below.uncached_of_isIn (Path.isIn_of_mem List.mem_cons_self) uncached
    have hadded : ∀ e ∈ (c₁.insert target r).entries, e ∈ c'.entries := rest.keeps
    -- the entry of the target is one of those that were added, and so are all that it led to
    have hbelow := ihBelow
      (hc ⟨target, r⟩ (hadded _ (SymbolCache.mem_insert.mpr (Or.inr rfl)))
        (by rw [SymbolCache.contains_eq, uncached]; rfl))
      fun e he => hc e (hadded e (SymbolCache.subset_insert huncached e he))
    refine .followed found offWay uncached read hbelow (ih hs fun e he hnew => hc e he ?_)
    -- what has no entry after the target was cached had none before
    rw [← Bool.not_eq_true] at hnew ⊢
    intro hcontains
    obtain ⟨o, ho, hkey⟩ := SymbolCache.mem_of_contains (below.contains_mono hcontains)
    exact hnew (SymbolCache.contains_of_mem (SymbolCache.subset_insert huncached o ho) hkey)

/-- **A traversal has one result.**  The search, the way, the cache and the reader decide which rule
applies to a directive. -/
theorem unique (h : Gathers naming reader chain file items s c s' c') {t' : FileSymbols}
    {d' : SymbolCache} (h' : Gathers naming reader chain file items s c t' d') :
    s' = t' ∧ c' = d' := by
  induction h generalizing t' d' with
  | done =>
    cases h'
    exact ⟨rfl, rfl⟩
  | declared _ ih =>
    cases h' with
    | declared rest => exact ih rest
  | missing found _ ih => cases h' <;> grind
  | circular found onWay _ ih => cases h' <;> grind
  | unreadable found offWay uncached unread _ ih => cases h' <;> grind
  | cached found offWay hit _ ih => cases h' <;> grind
  | followed found offWay uncached read _ _ ihBelow ih => cases h' <;> grind

end Gathers

/-! ## What is required or reported is watched -/

namespace FileSymbols

/-- The files that were taken over and the targets of the reported directives are watched. -/
structure Attentive (s : FileSymbols) : Prop where
  requires : ∀ q ∈ s.requires, q.isIn s.watched = true
  cycles : ∀ r ∈ s.cycles, r.target.isIn s.watched = true

namespace Attentive

variable {s : FileSymbols}

theorem empty : Attentive {} where
  requires := fun _ hq => absurd hq List.not_mem_nil
  cycles := fun _ hr => absurd hr List.not_mem_nil

theorem declare (h : s.Attentive) (d : Declaration) : (s.declare d).Attentive :=
  ⟨h.requires, h.cycles⟩

theorem watch (h : s.Attentive) (probed : List Path) : (s.watch probed).Attentive where
  requires := fun q hq => isIn_watch.mpr (Or.inr (h.requires q hq))
  cycles := fun r hr => isIn_watch.mpr (Or.inr (h.cycles r hr))

theorem reportCycle (h : s.Attentive) {cycle : CircularRequire}
    (htarget : cycle.target.isIn s.watched = true) : (s.reportCycle cycle).Attentive where
  requires := h.requires
  cycles := by
    intro r hr
    rcases List.mem_append.mp hr with hr | hr
    · exact h.cycles r hr
    · rw [List.mem_singleton.mp hr]
      exact htarget

theorem takeOver (h : s.Attentive) {directive : CircularRequire}
    (htarget : directive.target.isIn s.watched = true) (r : FileSymbols) :
    (s.takeOver directive r).Attentive where
  requires := by
    intro q hq
    rw [takeOver_requires] at hq
    rw [takeOver_watched]
    rcases Path.isIn_addTo.mp (Path.isIn_of_mem hq) with hq | hq
    · rw [Path.isIn_congr hq]
      exact htarget
    · obtain ⟨q', hq', hkey⟩ := Path.isIn_iff.mp hq
      rw [← Path.isIn_congr hkey]
      exact h.requires q' hq'
  cycles := by
    intro report hreport
    rw [takeOver_cycles] at hreport
    rw [takeOver_watched]
    rcases List.mem_append.mp hreport with hreport | hreport
    · exact h.cycles report hreport
    · split at hreport
      · cases hreport
      · rw [List.mem_singleton.mp hreport]
        exact htarget

/-- The target of a directive was found, and what is found was asked for. -/
theorem adds {naming : Naming} {file : Path} {item : SourceItem} {s' : FileSymbols}
    (hadds : Adds naming file item s s') (h : s.Attentive) : s'.Attentive := by
  have hfound : ∀ {isFile : Path → Bool} {module : String} {target : Path},
      (naming.resolve isFile file module).found = some target →
      target.isIn (s.watch (naming.resolve isFile file module).probed).watched = true :=
    fun found => isIn_watch.mpr (Or.inl (Path.isIn_of_mem (Naming.found_mem_probed found)))
  cases hadds with
  | declared => exact h.declare _
  | lookedFor isFile => exact h.watch _
  | circular found => exact (h.watch _).reportCycle (hfound found)
  | followed found required => exact (h.watch _).takeOver (hfound found) required

end Attentive

end FileSymbols

/-! ## Extractions -/

/-- An entry that was made when `file` was extracted with `cache`: that of the file itself, or one of
a file that had none. -/
def Created (cache : SymbolCache) (file : Path) (e : CacheEntry) : Prop :=
  e.file.components = file.components ∨ cache.contains e.file = false

instance (cache : SymbolCache) (file : Path) (e : CacheEntry) : Decidable (Created cache file e) :=
  inferInstanceAs (Decidable (_ ∨ _))

/-- Every entry that an extraction makes is added up from nothing. -/
theorem Extraction.created_adds {naming : Naming} {reader : SourceReader} {asked : Path → Prop}
    (hr : reader.Regular naming asked) {cache : SymbolCache} {file : Path} {text : String}
    {e : CacheEntry} (he : e ∈ (extract naming reader file text cache).state.entries)
    (hcreated : Created cache file e) : ∃ items, AddsAll naming e.file items {} e.symbols := by
  obtain ⟨c, hgathers, hstate⟩ := extract_gathers hr file text cache
  rw [hstate] at he
  rcases SymbolCache.mem_insert.mp he with ⟨he, hkey⟩ | rfl
  · refine (hgathers.entries_added e he).resolve_left fun hold => ?_
    have hcontains : cache.contains e.file = true := SymbolCache.contains_of_mem hold rfl
    rw [hcreated.resolve_left hkey] at hcontains
    cases hcontains
  · exact ⟨_, hgathers.adds⟩

/-- **The watched paths are all that an extraction depends on.**  Take any naming, cache, file and text,
and any two readers that answer alike about paths with the same components, as far as these can be
asked for, and from which finitely many such files can be read.  If the readers agree on every path
that is watched by an entry made in the extraction with the first one, then the extraction with the
second one gives the same symbols and leaves the same cache.  And every entry that is made watches the
files it requires and the targets it reports. -/
theorem extract_footprint {naming : Naming} {reader reader' : SourceReader}
    {asked asked' : Path → Prop} (hr : reader.Regular naming asked)
    (hr' : reader'.Regular naming asked') (cache : SymbolCache) (file : Path) (text : String) :
    ((∀ e ∈ (Extraction.extract naming reader file text cache).state.entries,
          Created cache file e → reader.AgreeOn reader' e.symbols.watched) →
        (Extraction.extract naming reader' file text cache).value =
            (Extraction.extract naming reader file text cache).value ∧
          (Extraction.extract naming reader' file text cache).state =
            (Extraction.extract naming reader file text cache).state) ∧
      ∀ e ∈ (Extraction.extract naming reader file text cache).state.entries,
        Created cache file e → e.symbols.Attentive := by
  constructor
  · intro hagree
    obtain ⟨c, hgathers, hstate⟩ := Extraction.extract_gathers hr file text cache
    obtain ⟨c', hgathers', hstate'⟩ := Extraction.extract_gathers hr' file text cache
    have hfiles : ∀ e ∈ (Extraction.extract naming reader file text cache).state.entries,
        Created cache file e → reader.AgreeOnFiles naming reader' e.symbols.watched := by
      intro e he hcreated
      obtain ⟨items, hadds⟩ := Extraction.created_adds hr he hcreated
      exact (hagree e he hcreated).files hr hr' hadds.watchesCandidates
    have hroot : ⟨file, (Extraction.extract naming reader file text cache).value⟩ ∈
        (Extraction.extract naming reader file text cache).state.entries := by
      rw [hstate]
      exact SymbolCache.mem_insert.mpr (Or.inr rfl)
    -- an entry that was added below is not that of the file, which had no entry until the end
    have hadded : ∀ e ∈ c.entries, cache.countScan.contains e.file = false →
        reader.AgreeOnFiles naming reader' e.symbols.watched := by
      intro e he hnew
      refine hfiles e ?_ (Or.inr hnew)
      rw [hstate]
      refine SymbolCache.mem_insert.mpr (Or.inl ⟨he, fun hkey => ?_⟩)
      have huncached : cache.countScan.get? file = none := by
        rw [← SymbolCache.get?_congr _ hkey, ← Option.not_isSome_iff_eq_none,
          ← SymbolCache.contains_eq, hnew]
        exact Bool.false_ne_true
      have hnone := hgathers.uncached_of_isIn (Path.isIn_of_mem List.mem_cons_self) huncached
      have hsome := SymbolCache.contains_of_mem he hkey
      rw [SymbolCache.contains_eq, hnone] at hsome
      cases hsome
    have hsame := hgathers.transfer (hfiles _ hroot (Or.inl rfl)) hadded
    obtain ⟨hvalue, hcache⟩ := hgathers'.unique hsame
    exact ⟨hvalue, by rw [hstate, hstate', hvalue, hcache]⟩
  · intro e he hcreated
    obtain ⟨items, hadds⟩ := Extraction.created_adds hr he hcreated
    exact hadds.preserves (fun _ _ _ => FileSymbols.Attentive.adds) .empty

/-- The same files in memory and on a disk, but for one further away that is in memory only and has the
name a directive asks for.  One required file cannot be read, and the cache holds another. -/
theorem extract_footprint_elsewhere :
    let file := Path.ofString "/p/a.das"
    let naming : Naming := { extension := "das", specSuffix := "spec" }
    let reader := SourceReader.ofFiles [⟨Path.ofString "/q/d.das", some "def fd()"⟩,
      ⟨Path.ofString "/p/b.das", some "require c\ndef fb()"⟩, ⟨Path.ofString "/p/c.das", none⟩,
      ⟨Path.ofString "/p/e.das", some "def fe()"⟩]
    let tree := ((({} : FileTree).edit (.ofString "/p/b.das") (some "require c\ndef fb()".toUTF8)).edit
      (.ofString "/p/c.das") (some ⟨#[0xFF]⟩)).edit (.ofString "/p/e.das") (some "def fe()".toUTF8)
    let cache := SymbolCache.insert {} (Path.ofString "/p/e.das") {}
    let text := "require b\nrequire e\nrequire d"
    (∀ e ∈ (Extraction.extract naming reader file text cache).state.entries,
        Created cache file e → reader.AgreeOn tree.reader e.symbols.watched) ∧
      (Extraction.extract naming reader file text cache).state.size = 3 ∧
      ((Extraction.extract naming tree.reader file text cache).value =
          (Extraction.extract naming reader file text cache).value ∧
        (Extraction.extract naming tree.reader file text cache).state =
          (Extraction.extract naming reader file text cache).state) ∧
      ∀ e ∈ (Extraction.extract naming reader file text cache).state.entries,
        Created cache file e → e.symbols.Attentive := by
  intro file naming reader tree cache text
  have hagree : ∀ e ∈ (Extraction.extract naming reader file text cache).state.entries,
      Created cache file e → reader.AgreeOn tree.reader e.symbols.watched := by
    unfold SourceReader.AgreeOn
    decide +kernel
  have hrooted : tree.Rooted := by
    refine (FileTree.edit_spec (FileTree.edit_spec (FileTree.edit_spec FileTree.rooted_empty ?_).1 ?_).1
      ?_).1 <;> decide +kernel
  obtain ⟨hsame, hattentive⟩ := extract_footprint (SourceReader.ofFiles_regular _ naming)
    (FileTree.reader_regular hrooted (by decide +kernel)) cache file text
  exact ⟨hagree, by decide +kernel, hsame hagree, hattentive⟩

end ScriptIndex
