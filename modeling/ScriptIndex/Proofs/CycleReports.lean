import ScriptIndex.Proofs.RequireGraph

/-!
# Which directives are reported as circular

A traversal reports a directive when it leads back to a file on the way, and when the file it leads
to has reports of its own.  Neither is said in terms of the graph, and both depend on the order in
which files were looked at.  Together they still say exactly this: the target of the directive
reaches a cycle of the graph.

* `cycleReport` — what is to be reported for an item, by the graph alone;
* `reachesCycle_iff_reports` — a file has something to report exactly if it reaches a cycle;
* `Exact.gathers` — a traversal over exact entries gathers exact reports and leaves exact entries;
* `cycles_exact` — so every entry is exact after every sequence of calls.
-/

namespace ScriptIndex

open Relation

variable {naming : Naming} {reader : SourceReader}

open Classical in
/-- The report for an item of the file `p`: a directive is to be reported if its target can be read
and reaches a cycle. -/
noncomputable def cycleReport (naming : Naming) (reader : SourceReader) (p : Path) :
    SourceItem → Option CircularRequire
  | .function _ => none
  | .require module line =>
    match (naming.resolve reader.isFile p module).found with
    | none => none
    | some t =>
      if (reader.text? t).isSome = true ∧ ReachesCycle naming reader t.components then
        some { line, module, target := t }
      else none

/-! ## The report for one directive -/

section

variable {p t : Path} {module : String} {line : Nat}

theorem cycleReport_missing (h : (naming.resolve reader.isFile p module).found = none) :
    cycleReport naming reader p (.require module line) = none := by
  simp only [cycleReport, h]

theorem cycleReport_unreadable (h : (naming.resolve reader.isFile p module).found = some t)
    (ht : reader.text? t = none) : cycleReport naming reader p (.require module line) = none := by
  simp [cycleReport, h, ht]

theorem cycleReport_some (h : (naming.resolve reader.isFile p module).found = some t)
    (ht : (reader.text? t).isSome = true) (hcycle : ReachesCycle naming reader t.components) :
    cycleReport naming reader p (.require module line) = some ⟨line, module, t⟩ := by
  simp [cycleReport, h, ht, hcycle]

theorem cycleReport_none (h : (naming.resolve reader.isFile p module).found = some t)
    (hcycle : ¬ ReachesCycle naming reader t.components) :
    cycleReport naming reader p (.require module line) = none := by
  simp [cycleReport, h, hcycle]

/-- Taking over symbols whose own reports are right adds the right report. -/
theorem takeOver_cycles_of_found {s r : FileSymbols}
    (h : (naming.resolve reader.isFile p module).found = some t)
    (hempty : r.cycles.isEmpty = true ↔ ¬ ReachesCycle naming reader t.components)
    (ht : (reader.text? t).isSome = true) :
    (s.takeOver ⟨line, module, t⟩ r).cycles =
      s.cycles ++ (cycleReport naming reader p (.require module line)).toList := by
  rw [FileSymbols.takeOver_cycles]
  by_cases hcycle : ReachesCycle naming reader t.components
  · rw [if_neg (fun he => hempty.mp he hcycle), cycleReport_some h ht hcycle]
    rfl
  · rw [if_pos (hempty.mpr hcycle), cycleReport_none h hcycle]
    rfl

theorem append_filterMap {α β : Type} (f : α → Option β) (done : List β) (item : α)
    (items : List α) :
    (done ++ (f item).toList) ++ items.filterMap f = done ++ (item :: items).filterMap f := by
  cases h : f item with
  | none => simp [h]
  | some b => simp [h]

theorem leadsTo_of_cycleReport {r : CircularRequire} {item : SourceItem}
    (h : cycleReport naming reader p item = some r) :
    ∃ module line t, item = .require module line ∧ LeadsTo naming reader p module t ∧
      ReachesCycle naming reader t.components := by
  cases item with
  | function d => simp [cycleReport] at h
  | require module line =>
    unfold cycleReport at h
    cases hfound : (naming.resolve reader.isFile p module).found with
    | none => simp [hfound] at h
    | some t =>
      by_cases hc : (reader.text? t).isSome = true ∧ ReachesCycle naming reader t.components
      · exact ⟨module, line, t, rfl, ⟨hfound, hc.1⟩, hc.2⟩
      · simp [hfound, hc] at h

end

/-! ## The reports of a file -/

/-- A file has something to report exactly if it reaches a cycle. -/
theorem reachesCycle_iff_reports (hr : reader.Regular naming fun _ => True) {p : Path}
    {text : String} (ht : reader.text? p = some text) :
    ReachesCycle naming reader p.components ↔
      (SourceItem.scan p text.toList).filterMap (cycleReport naming reader p) ≠ [] := by
  rw [reachesCycle_iff_step]
  constructor
  · rintro ⟨l, hedge, hcycle⟩
    obtain ⟨module, line, t, hmem, ⟨hfound, hread⟩, rfl⟩ := (requires_iff hr ht).mp hedge
    apply List.ne_nil_of_mem
    exact List.mem_filterMap.mpr ⟨_, hmem, cycleReport_some hfound hread hcycle⟩
  · intro hne
    obtain ⟨r, hmem⟩ := List.exists_mem_of_ne_nil _ hne
    obtain ⟨item, hitem, hreport⟩ := List.mem_filterMap.mp hmem
    obtain ⟨module, line, t, rfl, hleads, hcycle⟩ := leadsTo_of_cycleReport hreport
    exact ⟨t.components, (requires_iff hr ht).mpr ⟨module, line, t, hitem, hleads, rfl⟩, hcycle⟩

/-- Every entry reports exactly the directives that lead to a cycle, in source order. -/
def Exact (naming : Naming) (reader : SourceReader) (cache : SymbolCache) : Prop :=
  ∀ e ∈ cache.entries, ∀ text, reader.text? e.file = some text →
    e.symbols.cycles =
      (SourceItem.scan e.file text.toList).filterMap (cycleReport naming reader e.file)

namespace Exact

variable {cache : SymbolCache}

theorem insert (h : Exact naming reader cache) {file : Path} {s : FileSymbols} {text : String}
    (ht : reader.text? file = some text)
    (hs : s.cycles = (SourceItem.scan file text.toList).filterMap (cycleReport naming reader file)) :
    Exact naming reader (cache.insert file s) := by
  intro e he text' ht'
  rcases SymbolCache.mem_insert.mp he with ⟨he, -⟩ | rfl
  · exact h e he text' ht'
  · rw [ht, Option.some.injEq] at ht'
    exact ht' ▸ hs

/-- The reports of a cached file say whether it reaches a cycle. -/
theorem isEmpty_iff (hr : reader.Regular naming fun _ => True)
    (hg : Grounded reader (fun _ => True) cache) (h : Exact naming reader cache) {t : Path}
    {r : FileSymbols} (hget : cache.get? t = some r) :
    r.cycles.isEmpty = true ↔ ¬ ReachesCycle naming reader t.components := by
  obtain ⟨e, he, hkey, rfl⟩ := SymbolCache.mem_of_get? hget
  obtain ⟨text, ht⟩ := Option.isSome_iff_exists.mp (hg e he).2.2
  rw [List.isEmpty_iff, h e he text ht, ← hkey, reachesCycle_iff_reports hr ht, not_not]

theorem readable_of_get? (hr : reader.Regular naming fun _ => True)
    (hg : Grounded reader (fun _ => True) cache) {t : Path} {r : FileSymbols}
    (hget : cache.get? t = some r) : (reader.text? t).isSome = true := by
  obtain ⟨e, he, hkey, -⟩ := SymbolCache.mem_of_get? hget
  rw [← hr.text_congr e.file t trivial trivial hkey]
  exact (hg e he).2.2

/-- **The traversal reports what the graph says.**  A directive back to a file on the way closes a
cycle of the graph; for all others the reports of the target decide, and they are exact. -/
theorem gathers (hr : reader.Regular naming fun _ => True) {chain : List Path} {file : Path}
    {items : List SourceItem} {s s' : FileSymbols} {c c' : SymbolCache} {text : String}
    (h : Gathers naming reader chain file items s c s' c')
    (htrail : Trail naming reader (fun _ => True) (file :: chain))
    (ht : reader.text? file = some text)
    (hitems : ∀ item ∈ items, item ∈ SourceItem.scan file text.toList)
    (hg : Grounded reader (fun _ => True) c) (hc : Exact naming reader c) :
    s'.cycles = s.cycles ++ items.filterMap (cycleReport naming reader file) ∧
      Exact naming reader c' := by
  induction h generalizing text with
  | done => exact ⟨by simp, hc⟩
  | declared _ ih =>
    exact ih htrail ht (fun i hi => hitems i (List.mem_cons_of_mem _ hi)) hg hc
  | missing found _ ih =>
    rw [hg.look_eq hr] at found
    rw [List.filterMap_cons_none (cycleReport_missing found)]
    exact ih htrail ht (fun i hi => hitems i (List.mem_cons_of_mem _ hi)) hg hc
  | @circular _ _ _ _ _ _ _ _ _ target found onWay _ ih =>
    rw [hg.look_eq hr] at found
    -- the target is on the way, so it reaches this file, and the directive leads back to it
    have hread := htrail.readable_of_isIn hr trivial onWay
    have hedge := requires_of_found ht (hitems _ List.mem_cons_self) found hread
    have hcycle : ReachesCycle naming reader target.components :=
      ⟨target.components, ReflTransGen.refl, TransGen.tail' (htrail.reaches onWay) hedge⟩
    rw [List.filterMap_cons_some (cycleReport_some found hread hcycle)]
    obtain ⟨hcycles, hc'⟩ :=
      ih htrail ht (fun i hi => hitems i (List.mem_cons_of_mem _ hi)) hg hc
    exact ⟨hcycles.trans (List.append_assoc _ _ _), hc'⟩
  | unreadable found _ _ unread _ ih =>
    rw [hg.look_eq hr] at found
    rw [List.filterMap_cons_none (cycleReport_unreadable found unread)]
    exact ih htrail ht (fun i hi => hitems i (List.mem_cons_of_mem _ hi)) hg hc
  | cached found _ hit _ ih =>
    rw [hg.look_eq hr] at found
    obtain ⟨hcycles, hc'⟩ :=
      ih htrail ht (fun i hi => hitems i (List.mem_cons_of_mem _ hi)) hg hc
    rw [takeOver_cycles_of_found found (hc.isEmpty_iff hr hg hit) (readable_of_get? hr hg hit)]
      at hcycles
    exact ⟨hcycles.trans (append_filterMap _ _ _ _), hc'⟩
  | @followed _ _ _ _ _ _ _ _ _ _ target _ r found _ uncached read below _ ihBelow ih =>
    have hg₁ := (Grounded.gathers hr below hg).follow hr found uncached read r
    rw [hg.look_eq hr] at found
    have hread : (reader.text? target).isSome = true := by rw [read]; rfl
    have hedge := requires_of_found ht (hitems _ List.mem_cons_self) found hread
    -- the target is traversed first; its own reports are exact by then
    obtain ⟨hbelow, hc₁⟩ :=
      ihBelow (htrail.follow trivial hread hedge) read (fun _ hi => hi) hg hc
    have hempty : r.cycles.isEmpty = true ↔ ¬ ReachesCycle naming reader target.components := by
      rw [List.isEmpty_iff, hbelow, reachesCycle_iff_reports hr read, not_not]
      rfl
    obtain ⟨hcycles, hc'⟩ :=
      ih htrail ht (fun i hi => hitems i (List.mem_cons_of_mem _ hi)) hg₁ (hc₁.insert read hbelow)
    rw [takeOver_cycles_of_found found hempty hread] at hcycles
    exact ⟨hcycles.trans (append_filterMap _ _ _ _), hc'⟩

theorem extract (hr : reader.Regular naming fun _ => True) {file : Path} {text : String}
    (hf : reader.isFile file = true) (ht : reader.text? file = some text)
    (h : Grounded reader (fun _ => True) cache ∧ Exact naming reader cache) :
    Grounded reader (fun _ => True) (Extraction.extract naming reader file text cache).state ∧
      Exact naming reader (Extraction.extract naming reader file text cache).state := by
  have hread : (reader.text? file).isSome = true := by rw [ht]; rfl
  obtain ⟨c₁, hgathers, hstate⟩ := Extraction.extract_gathers hr file text cache
  have hg₁ : Grounded reader (fun _ => True) c₁ := Grounded.gathers hr hgathers h.1
  obtain ⟨hcycles, hc₁⟩ := gathers hr hgathers (.root trivial hread) ht (fun _ hi => hi) h.1 h.2
  rw [hstate]
  exact ⟨hg₁.insert trivial hf hread, hc₁.insert ht hcycles⟩

end Exact

/-! ## Every sequence of calls -/

/-- **Cycle reports are exact and independent of history.**  In a workspace of files held in memory,
under any naming, after any sequence of extractions, look-ups, refreshes and invalidations of files
with the texts they have there, every entry reports, in source order, exactly those of its directives
whose target is readable and reaches a cycle of the graph of requires; in particular it reports
nothing exactly if the file reaches no cycle. -/
theorem cycles_exact (naming : Naming) (files : List MemoryFile) (calls : List Call)
    (hcalls : ∀ call ∈ calls, call.Honest (.ofFiles files)) :
    ∀ e ∈ (Call.runAll naming (.ofFiles files) calls).entries, ∃ text,
      (SourceReader.ofFiles files).read e.file = .ok text ∧
      e.symbols.cycles = (SourceItem.scan e.file text.toList).filterMap
        (cycleReport naming (.ofFiles files) e.file) ∧
      (e.symbols.cycles = [] ↔ ¬ ReachesCycle naming (.ofFiles files) e.file.components) := by
  have hr := SourceReader.ofFiles_regular files naming
  have hempty : Grounded (.ofFiles files) (fun _ => True) {} ∧ Exact naming (.ofFiles files) {} :=
    ⟨fun e he => by simp at he, fun e he => by simp at he⟩
  obtain ⟨hg, hexact⟩ := Call.runAll_invariant
    (P := fun cache => Grounded (.ofFiles files) (fun _ => True) cache ∧
      Exact naming (.ofFiles files) cache) hempty
    (fun file text cache ht h =>
      Exact.extract hr (SourceReader.isFile_of_ofFiles_text (by rw [ht]; rfl)) ht h)
    (fun file cache h =>
      ⟨fun e he => h.1 e (SymbolCache.sweep_subset _ _ _ e he),
        fun e he => h.2 e (SymbolCache.sweep_subset _ _ _ e he)⟩) hcalls
  intro e he
  obtain ⟨text, ht⟩ := Option.isSome_iff_exists.mp (hg e he).2.2
  have hcycles := hexact e he text ht
  refine ⟨text, SourceReader.text?_eq_some.mp ht, hcycles, ?_⟩
  rw [hcycles, reachesCycle_iff_reports hr ht, not_not]

/-- Two files that require each other, one that leads to them, one that cannot be read, and calls in
an order that leaves no two entries from the same traversal. -/
theorem cycles_exact_mutual :
    let a := Path.ofString "/p/a.das"
    let b := Path.ofString "/p/b.das"
    let c := Path.ofString "/p/c.das"
    let naming : Naming := { extension := "das", specSuffix := "spec" }
    let files : List MemoryFile := [⟨a, some "require b"⟩, ⟨b, some "require a"⟩,
      ⟨c, some "require d\nrequire b"⟩, ⟨Path.ofString "/p/d.das", none⟩]
    let calls := [Call.extract c "require d\nrequire b", .refresh b "require a", .invalidate a,
      .symbolsFor false b "require a", .symbolsFor false c "require d\nrequire b"]
    (∀ call ∈ calls, call.Honest (.ofFiles files)) ∧
      ((Call.runAll naming (.ofFiles files) calls).entries.map fun e => (e.file, e.symbols.cycles)) =
        [(a, [⟨0, "b", b⟩]), (b, [⟨0, "a", a⟩]), (c, [⟨1, "b", b⟩])] ∧
      ∀ e ∈ (Call.runAll naming (.ofFiles files) calls).entries, ∃ text,
        (SourceReader.ofFiles files).read e.file = .ok text ∧
        e.symbols.cycles = (SourceItem.scan e.file text.toList).filterMap
          (cycleReport naming (.ofFiles files) e.file) ∧
        (e.symbols.cycles = [] ↔ ¬ ReachesCycle naming (.ofFiles files) e.file.components) := by
  intro a b c naming files calls
  have hcalls : ∀ call ∈ calls, call.Honest (.ofFiles files) := by
    simp only [calls, List.forall_mem_cons]
    exact ⟨rfl, rfl, trivial, rfl, rfl, List.forall_mem_nil _⟩
  exact ⟨hcalls, by decide +kernel, cycles_exact naming files calls hcalls⟩

end ScriptIndex
