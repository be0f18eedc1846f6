import ScriptIndex.Proofs.Coherence

/-!
# Where functions come from

Whether or not the files make cycles: a function in the cache stands in the present text of the file
it is said to come from, on the line it is said to stand on, and so does what an editor is shown.

* `Session.Faithful` — what is cached and shown is there;
* `Session.run_faithful` — after every run, as long as what changes is announced under the path it is
  read by;
* `Session.run_unfaithful` — an ending that leads elsewhere, and a function is kept that is gone.
-/

namespace ScriptIndex

/-! ## Symbols and their entries -/

/-- Symbols that were asked for are those of an entry by then. -/
theorem Extraction.symbolsFor_cached {naming : Naming} {reader : SourceReader} {asked : Path → Prop}
    (hr : reader.Regular naming asked) (file : Path) (text : String) (cache : SymbolCache) :
    ∃ e ∈ (symbolsFor naming reader false file text cache).state.entries,
      e.symbols = (symbolsFor naming reader false file text cache).value := by
  unfold symbolsFor
  rw [if_neg Bool.false_ne_true]
  cases hget : cache.get? file with
  | some symbols =>
    obtain ⟨e, he, -, hsymbols⟩ := SymbolCache.mem_of_get? hget
    exact ⟨e, he, hsymbols⟩
  | none =>
    obtain ⟨c₁, -, hstate⟩ := extract_gathers hr file text cache
    refine ⟨⟨file, (extract naming reader file text cache).value⟩, ?_, rfl⟩
    dsimp only
    rw [hstate]
    exact SymbolCache.mem_insert.mpr (Or.inr rfl)

theorem Workspace.symbols_cached {ws : Workspace} {disk : SourceReader} {asked : Path → Prop}
    (hr : (ws.reader disk).Regular ws.settings.naming asked) {uri : Uri} {symbols : FileSymbols}
    (h : (ws.symbols disk uri).value = some symbols) :
    ∃ e ∈ (ws.symbols disk uri).state.cache.entries, e.symbols = symbols := by
  unfold Workspace.symbols at h ⊢
  split at h
  · next file document _ _ =>
    obtain rfl := Option.some.inj h
    exact Extraction.symbolsFor_cached hr file document.text ws.cache
  · cases h

/-- The function at a position has the name that stands there, and is one of the document's. -/
theorem Query.of_functionAt {ws : Workspace} {disk : SourceReader} {uri : Uri} {position : Position}
    {f : Declaration} (h : (functionAt ws disk uri position).value = some f) :
    word? ws uri position = some f.name ∧
      ∃ symbols, (ws.symbols disk uri).value = some symbols ∧ f ∈ symbols.functions := by
  unfold functionAt at h
  split at h
  · cases h
  · next name hword =>
    obtain ⟨symbols, hsymbols, hfind⟩ := Option.bind_eq_some_iff.mp h
    have hname := Keyed.key_of_find? Declaration.name hfind
    exact ⟨hname ▸ hword, symbols, hsymbols, List.mem_of_find?_eq_some hfind⟩

namespace Session

/-! ## What is shown -/

/-- A declaration is read from the present text of its file. -/
def Reads (s : Session) (d : Declaration) : Prop :=
  ∃ text, s.reader.read d.file = .ok text ∧ .function d ∈ SourceItem.scan d.file text.toList

/-- Every function of every entry is read from its file, up to the export mark, which it has in
entries of that file only; and what is shown for a word in a document is a place or a description of
a function of that name which is read from its file. -/
structure Faithful (s : Session) : Prop where
  entries : ∀ e ∈ s.workspace.cache.entries, ∀ f ∈ e.symbols.functions,
    (∃ d, s.Reads d ∧ f = { d with exported := f.exported }) ∧
      (f.file.components ≠ e.file.components → f.exported = false)
  definition : ∀ uri position location,
    (Query.definition s.workspace s.disk uri position).value = some location →
      ∃ d, s.Reads d ∧ Query.word? s.workspace uri position = some d.name ∧
        Query.locate? d = some location
  hover : ∀ uri position markdown,
    (Query.hover s.workspace s.disk uri position).value = some markdown →
      ∃ d, s.Reads d ∧ Query.word? s.workspace uri position = some d.name ∧ d.markdown = markdown

variable {s : Session}

theorem reads_of_attested {f : Declaration} (h : Attested s.reader f) :
    ∃ d, s.Reads d ∧ f = { d with exported := f.exported } := by
  obtain ⟨text, d, ht, hmem, hf⟩ := h
  have hfile : d.file = f.file := SourceItem.file_of_mem_scan hmem
  exact ⟨d, ⟨text, SourceReader.text?_eq_some.mp (hfile ▸ ht), hfile ▸ hmem⟩, hf⟩

/-- What is found at a position is read from its file. -/
theorem Kept.reads_functionAt {loops : Path → Path → Prop} (h : Kept loops s)
    (hdisk : s.disk.Regular s.naming s.naming.Asks)
    (hloops : LoopsAre s.naming s.reader (fun _ => True) loops) {uri : Uri} {position : Position}
    {f : Declaration}
    (hf : (Query.functionAt s.workspace s.disk uri position).value = some f) :
    ∃ d, s.Reads d ∧ Query.word? s.workspace uri position = some d.name ∧
      f = { d with exported := f.exported } := by
  obtain ⟨hword, symbols, hsymbols, hmem⟩ := Query.of_functionAt hf
  obtain ⟨e, he, rfl⟩ := Workspace.symbols_cached (regular hdisk) hsymbols
  have hafter := (h.symbols hdisk hloops uri).sound
  obtain ⟨cache, hstate⟩ := s.workspace.symbols_state s.disk uri
  rw [hstate] at he hafter
  obtain ⟨d, hd, heq⟩ := reads_of_attested (hafter.attested he f hmem).1
  refine ⟨d, hd, ?_, heq⟩
  rw [hword, heq]

/-- **Nothing stale and nothing invented**, after any run in which the disk is regular and every change
shows under the paths of the announced file alone, however the files require each other. -/
theorem run_faithful (h : Run Confined (fun s => s.disk.Regular s.naming s.naming.Asks) s) :
    s.Faithful := by
  have hloops : ∀ s : Session, LoopsAre s.naming s.reader (fun _ => True) fun _ _ => True :=
    fun _ => ⟨fun _ _ => trivial, fun _ _ _ => trivial⟩
  have hkept : Kept (fun _ _ => True) s := h.kept fun s hdisk => ⟨hdisk, hloops s⟩
  refine ⟨?_, ?_, ?_⟩
  · intro e he f hf
    obtain ⟨hattested, hexported⟩ := hkept.sound.attested he f hf
    exact ⟨reads_of_attested hattested, hexported⟩
  · intro uri position location hlocation
    obtain ⟨f, hf, hlocate⟩ := Option.bind_eq_some_iff.mp hlocation
    obtain ⟨d, hd, hword, heq⟩ := hkept.reads_functionAt h.isOk (hloops s) hf
    refine ⟨d, hd, hword, ?_⟩
    rw [heq] at hlocate
    exact hlocate
  · intro uri position markdown hmarkdown
    obtain ⟨f, hf, hshown⟩ := Option.map_eq_some_iff.mp hmarkdown
    obtain ⟨d, hd, hword, heq⟩ := hkept.reads_functionAt h.isOk (hloops s) hf
    refine ⟨d, hd, hword, ?_⟩
    rw [heq] at hshown
    exact hshown

/-- Two files require each other, and the one on the disk is written again. -/
theorem run_faithful_mutual :
    let uri : Uri := ⟨"file:///w/a.das"⟩
    let s := (TreeSession.play ⟨{}, {}⟩ [
      .edit (.ofString "/w/b.das") (some "require a\ndef fb()".toUTF8),
      .act (.openDocument uri { text := "require b\ndef fa()\nfc(1)" }),
      .edit (.ofString "/w/b.das") (some "require a\n\ndef fc(x)".toUTF8), .act (.symbols uri)]).session
    Run Confined (fun s => s.disk.Regular s.naming s.naming.Asks) s ∧
      s.workspace.cache.entries.length = 2 ∧
      (Query.hover s.workspace s.disk uri ⟨2, 1⟩).value.isSome = true ∧ s.Faithful := by
  intro uri s
  have hok : ∀ s : TreeSession, s.tree.Rooted → s.session.naming.Plain →
      s.session.OnTree ∧ s.session.naming.Plain ∧ True :=
    fun s hrooted hplain => ⟨s.onTree hrooted, hplain, trivial⟩
  have hwritten : Run Written (fun s => s.OnTree ∧ s.naming.Plain ∧ True) s :=
    TreeSession.run_play hok (by decide +kernel) (by decide +kernel)
  have hrun : Run Confined (fun s => s.disk.Regular s.naming s.naming.Asks) s :=
    hwritten.confined.mono (fun _ hs => hs.1) fun _ _ _ _ hchanged => hchanged
  exact ⟨hrun, by decide +kernel, by decide +kernel, run_faithful hrun⟩

/-- With an ending that leads elsewhere a function can stay in the cache when it is gone, even on a tree,
with every file announced that is written. -/
theorem run_unfaithful : ¬ ∀ s, Run Written OnTree s → s.Faithful := by
  intro h
  have hrun : Run Written OnTree detour.session :=
    run_detour.mono (fun _ hs => hs.1) fun _ _ _ _ hwritten => hwritten
  have hold : ∃ e ∈ detour.workspace.cache.entries, ∃ f ∈ e.symbols.functions,
      f.name = "old" ∧ f.file = .ofString "/w/m.d/../f" := by decide +kernel
  obtain ⟨e, he, f, hf, hname, hfile⟩ := hold
  obtain ⟨d, ⟨text, hread, hmem⟩, heq⟩ := ((h detour.session hrun).entries e he f hf).1
  have hfile' : d.file = .ofString "/w/m.d/../f" := by rw [← hfile, heq]
  have hname' : d.name = "old" := by rw [← hname, heq]
  have hnew : detour.session.reader.text? (.ofString "/w/m.d/../f") = some "def new()" := by decide +kernel
  rw [hfile'] at hread hmem
  obtain rfl := Option.some.inj (hnew.symm.trans (SourceReader.text?_eq_some.mpr hread))
  have hscan : SourceItem.scan (.ofString "/w/m.d/../f") "def new()".toList = [.function
      { name := "new", parameters := [], exported := false, file := .ofString "/w/m.d/../f",
        line := 0, doc := "" }] := by decide +kernel
  rw [hscan, List.mem_singleton, SourceItem.function.injEq] at hmem
  rw [hmem] at hname'
  exact absurd hname' (by decide)

end Session

end ScriptIndex
