import ScriptIndex.Proofs.Sessions

/-!
# A cache that tells what is there

However documents are edited, files changed and questions asked: as long as the files make no cycle
and what changes on the disk is announced under the path it is read by, every cached entry is what
extracting the file anew over the present workspace would give.

* `Acyclic.loopsAre` — without cycles no traversal comes back to a file on its way;
* `TreeSession.IsLayered` — sessions without cycles that can be told by a check;
* `Session.run_coherent` — the cached entries, and the symbols of open documents;
* `Session.run_incoherent` — an ending that leads through a directory and out of it again, and an
  entry that no announcement of the changed file reaches.
-/

namespace ScriptIndex

open Relation

/-! ## Without cycles -/

/-- Where no cycle can be reached, none is reported. -/
theorem Acyclic.loopsAre {naming : Naming} {reader : SourceReader} (h : Acyclic naming reader)
    (loops : Path → Path → Prop) : LoopsAre naming reader (fun _ => True) loops where
  step := fun _ _ => trivial
  back := fun {file _} _ hstep hback => absurd (TransGen.head' hstep hback) (h file.components)

/-- Every entry of a sound cache is what extracting its file on an empty cache gives. -/
theorem Sound.entry_same {naming : Naming} {reader : SourceReader} {asked : Path → Prop}
    {cache : SymbolCache} (hr : reader.Regular naming asked) (hacyclic : Acyclic naming reader)
    (h : Sound naming reader asked (fun _ _ => False) cache) {e : CacheEntry}
    (he : e ∈ cache.entries) :
    ∃ text, reader.read e.file = .ok text ∧
      e.symbols.Same (Extraction.extract naming reader e.file text {}).value := by
  obtain ⟨text, ht, -⟩ := h.meant e he
  obtain ⟨ha, hf, -⟩ := h.grounded e he
  have hsame := h.explained.symbolsFor_same hr (hacyclic.loopsAre _) ha hf ht trivial
  have hget : cache.get? e.file = some e.symbols := SymbolCache.get?_of_mem h.linked.entries_nodup he
  refine ⟨text, SourceReader.text?_eq_some.mp ht, ?_⟩
  unfold Extraction.symbolsFor at hsame
  rw [if_neg Bool.false_ne_true, hget] at hsame
  exact hsame

/-! ## Two layers -/

/-- The modules that a text requires. -/
def requiredModules (text : String) : List String :=
  (SourceItem.scan ⟨[]⟩ text.toList).filterMap fun
    | .function _ => none
    | .require module _ => some module

theorem mem_requiredModules {p : Path} {text module : String} {line : Nat}
    (h : .require module line ∈ SourceItem.scan p text.toList) : module ∈ requiredModules text :=
  List.mem_filterMap.mpr ⟨_, SourceItem.require_mem_scan ⟨[]⟩ h, rfl⟩

/-- The text of an entry of a tree. -/
def TreeEntry.text? (entry : TreeEntry) : Option String :=
  match entry.node with
  | .directory => none
  | .file contents => String.fromUTF8? contents

theorem FileTree.entry_of_text? {tree : FileTree} {p : Path} {text : String}
    (h : tree.reader.text? p = some text) : ∃ entry ∈ tree.entries, entry.text? = some text := by
  obtain ⟨place, contents, -, hcontents, htext⟩ := text?_iff.mp h
  have hnode := contents?_iff.mp hcontents
  unfold node? at hnode
  split at hnode
  · cases hnode
  · obtain ⟨entry, hentry, hfile⟩ := Option.map_eq_some_iff.mp hnode
    refine ⟨entry, List.mem_of_find?_eq_some hentry, ?_⟩
    unfold TreeEntry.text?
    rw [hfile]
    exact htext

theorem Workspace.of_documentAt? {ws : Workspace} {p : Path} {document : Document}
    (h : ws.documentAt? p = some document) :
    ∃ d ∈ ws.documents, d.document = document ∧
      ∃ file, d.uri.toPath? = some file ∧ file.components = p.components := by
  unfold documentAt? at h
  split at h
  · next uri huri =>
    obtain ⟨d, hd, hdocument⟩ := Option.map_eq_some_iff.mp h
    refine ⟨d, List.mem_of_find?_eq_some hd, hdocument, ?_⟩
    rw [Keyed.key_of_find? OpenDocument.uri hd]
    exact Uri.toPath?_of_ofPath? huri
  · cases h

namespace TreeSession

/-- No file on the disk requires anything, and what open documents require is not open. -/
def IsLayered (s : TreeSession) : Prop :=
  (∀ entry ∈ s.tree.entries, ∀ text ∈ entry.text?, requiredModules text = []) ∧
    ∀ d ∈ s.workspace.documents, ∀ file ∈ d.uri.toPath?,
      ∀ module ∈ requiredModules d.document.text,
        ∀ t ∈ (s.session.naming.resolve s.session.reader.isFile file module).found, s.workspace.documentAt? t = none

instance (s : TreeSession) : Decidable s.IsLayered :=
  inferInstanceAs (Decidable (_ ∧ _))

/-- In a session of two layers only open documents require, and only what is not open. -/
theorem IsLayered.of_requires {s : TreeSession} (h : s.IsLayered) {k l : List Component}
    (hedge : Requires s.session.naming s.session.reader k l) :
    ∃ p t : Path, p.components = k ∧ t.components = l ∧ s.workspace.documentAt? p ≠ none ∧
      s.workspace.documentAt? t = none := by
  obtain ⟨p, text, module, line, t, hp, ht, hmem, ⟨hfound, -⟩, hl⟩ := hedge
  refine ⟨p, t, hp, hl, ?_⟩
  have hmodule := mem_requiredModules hmem
  have ht : ((s.workspace.documentAt? p).map Document.text).or (s.tree.reader.text? p) = some text := by
    rw [← Workspace.reader_text?]
    exact ht
  cases hopen : s.workspace.documentAt? p with
  | none =>
    rw [hopen] at ht
    obtain ⟨entry, hentry, htext⟩ := FileTree.entry_of_text? ht
    rw [h.1 entry hentry text htext] at hmodule
    cases hmodule
  | some document =>
    rw [hopen] at ht
    obtain rfl := Option.some.inj ht
    obtain ⟨d, hd, rfl, file, hfile, hcomponents⟩ := Workspace.of_documentAt? hopen
    rw [← Naming.resolve_file_congr hcomponents] at hfound
    exact ⟨Option.some_ne_none _, h.2 d hd file hfile module hmodule t hfound⟩

theorem IsLayered.acyclic {s : TreeSession} (h : s.IsLayered) : Acyclic s.session.naming s.session.reader := by
  intro k hcycle
  obtain ⟨l, hfirst, -⟩ := TransGen.head'_iff.mp hcycle
  obtain ⟨m, -, hlast⟩ := TransGen.tail'_iff.mp hcycle
  obtain ⟨p, -, hp, -, hopen, -⟩ := h.of_requires hfirst
  obtain ⟨-, t, -, ht, -, hclosed⟩ := h.of_requires hlast
  exact hopen ((s.workspace.documentAt?_congr (hp.trans ht.symm)).trans hclosed)

end TreeSession

/-! ## Runs without cycles -/

namespace Session

/-- Every cached entry is that of a readable file and equals, in all four parts and with paths taken
for what they name, what extracting the file on an empty cache gives; and so do the symbols of every
open document, which are there whenever they are asked for. -/
structure Coherent (s : Session) : Prop where
  entries : ∀ e ∈ s.workspace.cache.entries, ∃ text, s.reader.read e.file = .ok text ∧
    e.symbols.Same (Extraction.extract s.naming s.reader e.file text {}).value
  documents : ∀ uri document, s.workspace.document? uri = some document →
    ∃ file symbols, uri.toPath? = some file ∧ s.reader.read file = .ok document.text ∧
      (s.workspace.symbols s.disk uri).value = some symbols ∧
      symbols.Same (Extraction.extract s.naming s.reader file document.text {}).value

/-- **Cached symbols are those of the present workspace**, after any run in which the disk is regular,
every change shows under the paths of the announced file alone, and no file ever requires itself,
directly or through others. -/
theorem run_coherent {s : Session}
    (h : Run Confined
      (fun s => s.disk.Regular s.naming s.naming.Asks ∧ Acyclic s.naming s.reader) s) :
    s.Coherent := by
  obtain ⟨hdisk, hacyclic⟩ := h.isOk
  have hkept : Kept (fun _ _ => False) s := h.kept fun s hs => ⟨hs.1, hs.2.loopsAre _⟩
  refine ⟨fun e he => hkept.sound.entry_same (regular hdisk) hacyclic he, ?_⟩
  intro uri document hopen
  obtain ⟨p, hp⟩ := hkept.files uri (by rw [hopen]; rfl)
  obtain ⟨file, hfile, ha, hf, ht⟩ := Workspace.file_of_document? hp hopen s.disk
  refine ⟨file, _, hfile, SourceReader.text?_eq_some.mp ht, ?_,
    hkept.sound.explained.symbolsFor_same (regular hdisk) (hacyclic.loopsAre _) ha hf ht trivial⟩
  unfold Workspace.symbols
  rw [hfile, hopen]
  rfl

/-- A document is open when a file for the module it requires appears nearer to it. -/
theorem run_coherent_nearer :
    let uri : Uri := ⟨"file:///w/x/a.das"⟩
    let s := (TreeSession.play ⟨{}, {}⟩ [
      .edit (.ofString "/w/m.das") (some "def far()".toUTF8),
      .act (.openDocument uri { text := "require m" }),
      .edit (.ofString "/w/x/m.das") (some "def near()".toUTF8), .act (.symbols uri)]).session
    Run Confined (fun s => s.disk.Regular s.naming s.naming.Asks ∧ Acyclic s.naming s.reader) s ∧
      s.workspace.cache.entries.length = 3 ∧ s.Coherent := by
  intro uri s
  have hok : ∀ s : TreeSession, s.tree.Rooted → s.session.naming.Plain ∧ s.IsLayered →
      s.session.OnTree ∧ s.session.naming.Plain ∧ Acyclic s.session.naming s.session.reader :=
    fun s hrooted h => ⟨s.onTree hrooted, h.1, h.2.acyclic⟩
  have hwritten : Run Written
      (fun s => s.OnTree ∧ s.naming.Plain ∧ Acyclic s.naming s.reader) s :=
    TreeSession.run_play hok (by decide +kernel) (by decide +kernel)
  exact ⟨hwritten.confined, by decide +kernel, run_coherent hwritten.confined⟩

/-! ## An ending that leads elsewhere -/

/-- With `d/../f` for an ending the module `m` lies in `m.d/../f`.  This is the file `f`, and the one
who announces that `f` changed does not know it under that path. -/
def detour : TreeSession :=
  TreeSession.play ⟨{ settings := { fileExtension := "d/../f" } }, {}⟩ [
    .edit (.ofString "/w/m.d/x") (some "".toUTF8), .edit (.ofString "/w/f") (some "def old()".toUTF8),
    .act (.openDocument ⟨"file:///w/a"⟩ { text := "require m" }),
    .edit (.ofString "/w/f") (some "def new()".toUTF8)]

theorem run_detour :
    Run Written (fun s => s.OnTree ∧ Acyclic s.naming s.reader) detour.session := by
  have hok : ∀ s : TreeSession, s.tree.Rooted → s.IsLayered →
      s.session.OnTree ∧ Acyclic s.session.naming s.session.reader :=
    fun s hrooted h => ⟨s.onTree hrooted, h.acyclic⟩
  exact TreeSession.run_play hok (by decide +kernel) (by decide +kernel)

/-- With an ending that leads elsewhere what is cached can be out of date, even on a tree, with every
file announced that is written. -/
theorem run_incoherent :
    ¬ ∀ s, Run Written (fun s => s.OnTree ∧ Acyclic s.naming s.reader) s → s.Coherent := by
  intro h
  obtain ⟨file, symbols, hfile, -, hsymbols, hsame⟩ :=
    (h detour.session run_detour).documents ⟨"file:///w/a"⟩ { text := "require m" } (by decide +kernel)
  have hpath : (⟨"file:///w/a"⟩ : Uri).toPath? = some (.ofString "/w/a") := by decide +kernel
  obtain rfl := Option.some.inj (hfile.symm.trans hpath)
  have hnames := congrArg (List.map Prod.fst) hsame.functions
  rw [List.map_map, List.map_map] at hnames
  have hold : ((detour.workspace.symbols detour.tree.reader ⟨"file:///w/a"⟩).value.map
      fun symbols => symbols.functions.map Declaration.name) = some ["old"] := by decide +kernel
  have hnew : (Extraction.extract detour.session.naming detour.session.reader (.ofString "/w/a")
      "require m" {}).value.functions.map Declaration.name = ["new"] := by decide +kernel
  have hsymbols' : (detour.workspace.symbols detour.tree.reader ⟨"file:///w/a"⟩).value =
      some symbols := hsymbols
  rw [hsymbols'] at hold
  have heq : ["old"] = ["new"] := (Option.some.inj hold).symm.trans (hnames.trans hnew)
  exact absurd heq (by decide)

end Session

end ScriptIndex
