import ScriptIndex.Proofs.Additions
import ScriptIndex.Proofs.Sessions

/-!
# Findings that are known

The findings about a document come from its symbols.  Once these are cached, asking for the findings
extracts nothing, so that neither the disk nor the other documents matter for the answer; and what is
cached stays as it is until it is dropped.

* `SymbolCache.Grows`, `Workspace.Grows` — a later state that has all entries of the earlier one;
* `Extraction.extract_grows` — over any reader extracting adds entries and changes none;
* `Query.known?` — the findings that are given without extracting anything;
* `Query.diagnostics_of_known`, `Query.known_of_diagnostics` — what is known is answered, and what is
  answered is known from then on;
* `Workspace.known?_invalidate` — what dropping a file leaves known.
-/

namespace ScriptIndex

/-! ## Extracting adds entries -/

/-- A later cache: the watchers are in step with its entries, and the earlier ones are among them. -/
structure SymbolCache.Grows (cache later : SymbolCache) : Prop where
  linked : later.Linked
  kept : ∀ p s, cache.get? p = some s → later.get? p = some s

namespace SymbolCache.Grows

variable {cache later : SymbolCache}

theorem refl (h : cache.Linked) : cache.Grows cache :=
  ⟨h, fun _ _ hget => hget⟩

theorem uncached (h : cache.Grows later) {file : Path} (hget : later.get? file = none) :
    cache.get? file = none := by
  cases hcached : cache.get? file with
  | none => rfl
  | some s =>
    rw [h.kept file s hcached] at hget
    cases hget

/-- A new entry is one more. -/
theorem insert (h : cache.Grows later) {file : Path} (hget : cache.get? file = none)
    (symbols : FileSymbols) : cache.Grows (later.insert file symbols) where
  linked := h.linked.insert file symbols
  kept := by
    intro p s hp
    rw [get?_insert, if_neg (ne_of_get? hp hget)]
    exact h.kept p s hp

end SymbolCache.Grows

namespace SymbolCache

variable {cache : SymbolCache}

/-- A file that is dropped has no entry. -/
theorem get?_invalidate_self (h : cache.Linked) (file : Path) :
    (cache.invalidate file).2.get? file = none := by
  cases hget : (cache.invalidate file).2.get? file with
  | none => rfl
  | some s =>
    obtain ⟨e, he, hkey, -⟩ := mem_of_get? hget
    exact absurd hkey ((invalidate_pruned h file).fresh e he)

/-- An entry stays as it is unless it is among the dropped ones. -/
theorem get?_invalidate (h : cache.Linked) (file : Path) {p : Path} {s : FileSymbols}
    (hget : cache.get? p = some s) :
    (cache.invalidate file).2.get? p = some s ∨ p.isIn (cache.invalidate file).1 = true := by
  obtain ⟨e, he, hkey, rfl⟩ := mem_of_get? hget
  obtain ⟨hlinked, hkept, -, -⟩ :=
    @sweep_spec cache.size (file :: cache.dependentsOf file) cache h (Nat.le_refl _)
  rcases hkept e he with hleft | hdropped
  · rw [← get?_congr _ hkey]
    exact Or.inl (get?_of_mem hlinked.entries_nodup hleft)
  · rw [← Path.isIn_congr hkey]
    exact Or.inr hdropped

end SymbolCache

namespace Extraction

variable {naming : Naming} {reader : SourceReader}

/-- Extracting a file that is not cached adds its entry, and others, and changes none. -/
theorem extract_grows {cache : SymbolCache} (hlinked : cache.Linked) {file : Path}
    (hget : cache.get? file = none) (text : String) :
    cache.Grows (extract naming reader file text cache).state ∧
      (extract naming reader file text cache).state.get? file =
        some (extract naming reader file text cache).value := by
  obtain ⟨later, hlater, hstate⟩ := @visit_preserves naming reader cache.Grows (fun _ => True)
    (fun _ _ _ _ _ => trivial) (fun _ h => ⟨h.linked.countScan, h.kept⟩)
    (fun target symbols _ _ _ huncached hcache hlater =>
      hlater.insert (hcache.uncached huncached) symbols)
    reader.limit [] file text cache (.refl hlinked)
  unfold extract
  rw [hstate]
  exact ⟨hlater.insert hget _, SymbolCache.get?_insert_self later file _⟩

theorem symbolsFor_grows {cache : SymbolCache} (hlinked : cache.Linked) (file : Path) (text : String) :
    cache.Grows (symbolsFor naming reader false file text cache).state ∧
      (symbolsFor naming reader false file text cache).state.get? file =
        some (symbolsFor naming reader false file text cache).value := by
  unfold symbolsFor
  rw [if_neg Bool.false_ne_true]
  cases hget : cache.get? file with
  | some symbols => exact ⟨.refl hlinked, hget⟩
  | none => exact extract_grows hlinked hget text

end Extraction

/-! ## What is known about a document -/

/-- The findings about a document that are given without extracting anything: those of the cached
symbols, and none if the document is not open or no file. -/
def Query.known? (ws : Workspace) (uri : Uri) : Option (List Diagnostic) :=
  match uri.toPath?, ws.document? uri with
  | some file, some document =>
    (ws.cache.get? file).map fun symbols => symbols.cycles.map (diagnose ws.settings document)
  | _, _ => some []

/-- What is known stays known as long as the settings, the document and its entry stay. -/
theorem Query.known?_of_kept {ws later : Workspace} {uri : Uri} {findings : List Diagnostic}
    (hknown : known? ws uri = some findings) (hsettings : later.settings = ws.settings)
    (hdocument : later.document? uri = ws.document? uri)
    (hkept : ∀ file ∈ uri.toPath?, ∀ symbols, ws.cache.get? file = some symbols →
      later.cache.get? file = some symbols) : known? later uri = some findings := by
  unfold known? at hknown ⊢
  rw [hdocument, hsettings]
  split at hknown
  · next file document hfile _ =>
    obtain ⟨symbols, hget, hfindings⟩ := Option.map_eq_some_iff.mp hknown
    rw [hkept file hfile symbols hget]
    exact congrArg some hfindings
  · exact hknown

namespace Workspace

variable {ws later : Workspace} {uri : Uri}

theorem isOpen_congr (h : later.document? uri = ws.document? uri) :
    later.isOpen uri = ws.isOpen uri := by
  rw [isOpen_eq, isOpen_eq, h]

theorem isOpen_of_document? {document : Document} (h : ws.document? uri = some document) :
    ws.isOpen uri = true := by
  rw [isOpen_eq, h]
  rfl

/-- A later workspace that differs in new entries of the cache alone. -/
structure Grows (ws later : Workspace) : Prop where
  settings : later.settings = ws.settings
  documents : later.documents = ws.documents
  cache : ws.cache.Grows later.cache

theorem Grows.refl (h : ws.cache.Linked) : ws.Grows ws :=
  ⟨rfl, rfl, .refl h⟩

theorem Grows.document? (h : ws.Grows later) (uri : Uri) :
    later.document? uri = ws.document? uri := by
  unfold Workspace.document?
  rw [h.documents]

theorem Grows.isOpen (h : ws.Grows later) (uri : Uri) : later.isOpen uri = ws.isOpen uri :=
  isOpen_congr (h.document? uri)

theorem Grows.known? (h : ws.Grows later) {findings : List Diagnostic}
    (hknown : Query.known? ws uri = some findings) : Query.known? later uri = some findings :=
  Query.known?_of_kept hknown h.settings (h.document? uri) fun file _ => h.cache.kept file

/-- Asking for the symbols of a document adds entries. -/
theorem symbols_grows (hlinked : ws.cache.Linked) (disk : SourceReader) (uri : Uri) :
    ws.Grows (ws.symbols disk uri).state := by
  unfold symbols
  split
  · next file document _ _ =>
    exact ⟨rfl, rfl, (Extraction.symbolsFor_grows hlinked file document.text).1⟩
  · exact .refl hlinked

/-- The symbols that an open file is given are cached from then on. -/
theorem symbols_get? (hlinked : ws.cache.Linked) (disk : SourceReader) {file : Path}
    {document : Document} (hfile : uri.toPath? = some file) (hopen : ws.document? uri = some document) :
    ∃ symbols, (ws.symbols disk uri).value = some symbols ∧
      (ws.symbols disk uri).state.cache.get? file = some symbols := by
  unfold symbols
  rw [hfile, hopen]
  exact ⟨_, rfl, (Extraction.symbolsFor_grows hlinked file document.text).2⟩

/-- Cached symbols are given as they are. -/
theorem symbols_of_cached {file : Path} {document : Document} {symbols : FileSymbols}
    (hfile : uri.toPath? = some file) (hopen : ws.document? uri = some document)
    (hget : ws.cache.get? file = some symbols) (disk : SourceReader) :
    (ws.symbols disk uri).value = some symbols := by
  simp only [Workspace.symbols, hfile, hopen, Extraction.symbolsFor, Bool.false_eq_true, if_false,
    hget]

theorem mem_openUris {paths : List Path} :
    uri ∈ ws.openUris paths ↔ ws.isOpen uri = true ∧ ∃ p ∈ paths, Uri.ofPath? p = some uri := by
  unfold openUris
  rw [List.mem_filter, List.mem_filterMap]
  exact and_comm

/-- What is known about an open document stays known unless the document is among the dropped files. -/
theorem known?_invalidate (hlinked : ws.cache.Linked) {file : Path} (hopen : ws.isOpen uri = true)
    (hcanonical : uri.Canonical) (hfresh : uri ∉ ws.openUris (ws.invalidate file).value)
    {findings : List Diagnostic} (hknown : Query.known? ws uri = some findings) :
    Query.known? (ws.invalidate file).state uri = some findings := by
  refine Query.known?_of_kept hknown rfl rfl fun p hp symbols hget => ?_
  refine (SymbolCache.get?_invalidate hlinked file hget).resolve_right fun hdropped => hfresh ?_
  -- the address of the dropped file is the one the document is open under
  obtain ⟨d, hd, hcomponents⟩ := Path.isIn_iff.mp hdropped
  have huri := (Uri.ofPath?_congr hcomponents).trans (hcanonical p hp)
  exact mem_openUris.mpr ⟨hopen, d, hd, huri⟩

end Workspace

namespace Query

variable {ws : Workspace} {uri : Uri}

/-- What is known is what is answered. -/
theorem diagnostics_of_known {findings : List Diagnostic} (h : known? ws uri = some findings)
    (disk : SourceReader) : (diagnostics ws disk uri).value = findings := by
  unfold known? at h
  cases hfile : uri.toPath? with
  | none =>
    rw [hfile] at h
    simp only [diagnostics, Workspace.symbols, hfile]
    exact Option.some.inj h
  | some file =>
    cases hopen : ws.document? uri with
    | none =>
      rw [hfile, hopen] at h
      simp only [diagnostics, Workspace.symbols, hfile, hopen]
      exact Option.some.inj h
    | some document =>
      rw [hfile, hopen] at h
      obtain ⟨symbols, hget, hfindings⟩ := Option.map_eq_some_iff.mp h
      simp only [diagnostics, Workspace.symbols_of_cached hfile hopen hget, hopen]
      exact hfindings

/-- What is answered is known from then on. -/
theorem known_of_diagnostics (hlinked : ws.cache.Linked) (disk : SourceReader) :
    known? (diagnostics ws disk uri).state uri = some (diagnostics ws disk uri).value := by
  have hgrows := Workspace.symbols_grows hlinked disk uri
  rw [diagnostics_state]
  unfold known? diagnostics
  rw [hgrows.document?, hgrows.settings]
  cases hfile : uri.toPath? with
  | none =>
    simp only [Workspace.symbols, hfile]
  | some file =>
    cases hopen : ws.document? uri with
    | none => simp only [Workspace.symbols, hfile, hopen]
    | some document =>
      obtain ⟨symbols, hvalue, hget⟩ := Workspace.symbols_get? hlinked disk hfile hopen
      simp only [hvalue, hget, Option.map_some]

end Query

end ScriptIndex
