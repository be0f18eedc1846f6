import Mathlib.Data.List.Nodup
import ScriptIndex.Proofs.Addresses
import ScriptIndex.Proofs.Upkeep
import ScriptIndex.Workspace

/-!
# Open documents before the disk

A workspace reads what is open from the editor and everything else from the disk.  Open documents are
found by their addresses, so two paths to the same file find the same document, and a document that
is opened, changed or closed concerns one file.

* `Workspace.reader_regular` — over a regular disk the workspace is a regular reader;
* `Workspace.agreeOff_documents`, `Workspace.agreeOff_disk` — what a change concerns;
* `Workspace.file_of_document?` — an open document is what is read under its path;
* `Workspace.reader_open_first` — what is open wins over the disk, under canonical addresses;
* `Workspace.reader_overlooks_open` — and may lose to it under another one;
* `Workspace.sound_symbols`, `Workspace.sound_refresh`, `Workspace.sound_close`,
  `Workspace.sound_configure` — the operations keep the cache sound.
-/

namespace ScriptIndex.Workspace

variable {ws ws' : Workspace} {disk disk' : SourceReader}

/-- The paths that matter in a workspace: those its naming can ask for, and those of open documents. -/
def Asked (ws : Workspace) (q : Path) : Prop :=
  ws.settings.naming.Asks q ∨ (ws.documentAt? q).isSome = true

theorem documentAt?_congr (ws : Workspace) {p q : Path} (h : p.components = q.components) :
    ws.documentAt? p = ws.documentAt? q := by
  unfold documentAt?
  rw [Uri.ofPath?_congr h]

theorem documentAt?_eq {q : Path} {uri : Uri} (h : Uri.ofPath? q = some uri) :
    ws.documentAt? q = ws.document? uri := by
  unfold documentAt?
  rw [h]

theorem reader_text? (ws : Workspace) (disk : SourceReader) (q : Path) :
    (ws.reader disk).text? q = ((ws.documentAt? q).map Document.text).or (disk.text? q) := by
  unfold SourceReader.text? reader
  dsimp only
  cases ws.documentAt? q with
  | none => rfl
  | some document => rfl

theorem reader_isFile (ws : Workspace) (disk : SourceReader) (q : Path) :
    (ws.reader disk).isFile q = ((ws.documentAt? q).isSome || disk.isFile q) := rfl

/-! ## Regularity -/

/-- There are no more open files than open documents. -/
theorem open_bounded {paths : List Path} (hopen : ∀ p ∈ paths, (ws.documentAt? p).isSome = true)
    (hnodup : (paths.map Path.components).Nodup) : paths.length ≤ ws.documents.length := by
  have huri : ∀ p ∈ paths, ∃ uri, Uri.ofPath? p = some uri ∧ ∃ d ∈ ws.documents, d.uri = uri := by
    intro p hp
    have hsome := hopen p hp
    cases h : Uri.ofPath? p with
    | none =>
      unfold documentAt? at hsome
      rw [h] at hsome
      cases hsome
    | some uri =>
      refine ⟨uri, rfl, ?_⟩
      rw [documentAt?_eq h, document?, Option.isSome_map, Keyed.isSome_find?, Keyed.has_iff] at hsome
      exact hsome
  have hinj : ∀ p ∈ paths, ∀ q ∈ paths, Uri.ofPath? p = Uri.ofPath? q → p = q := by
    intro p hp q hq heq
    obtain ⟨uri, hpuri, -⟩ := huri p hp
    have hcomponents := Uri.components_of_ofPath? hpuri (heq ▸ hpuri)
    exact List.inj_on_of_nodup_map hnodup hp hq hcomponents
  have huris : (paths.map Uri.ofPath?).Nodup := hnodup.of_map.map_on hinj
  have hsub : paths.map Uri.ofPath? ⊆ ws.documents.map fun d => some d.uri := by
    intro u hu
    obtain ⟨p, hp, rfl⟩ := List.mem_map.mp hu
    obtain ⟨uri, hpuri, d, hd, rfl⟩ := huri p hp
    exact List.mem_map.mpr ⟨d, hd, hpuri.symm⟩
  have hle := (huris.subperm hsub).length_le
  rwa [List.length_map, List.length_map] at hle

/-- **Over a regular disk a workspace is a regular reader.** -/
theorem reader_regular
    (hdisk : disk.Regular ws.settings.naming ws.settings.naming.Asks) :
    (ws.reader disk).Regular ws.settings.naming ws.Asked where
  asks := fun _ h => Or.inl h
  isFile_congr := by
    intro p q hp hq h
    rw [reader_isFile, reader_isFile, documentAt?_congr ws h]
    cases hopen : (ws.documentAt? q).isSome with
    | true => rfl
    | false =>
      have hp' := hp.resolve_right (by rw [documentAt?_congr ws h, hopen]; exact Bool.false_ne_true)
      have hq' := hq.resolve_right (by rw [hopen]; exact Bool.false_ne_true)
      exact hdisk.isFile_congr p q hp' hq' h
  text_congr := by
    intro p q hp hq h
    rw [reader_text?, reader_text?, documentAt?_congr ws h]
    cases hopen : ws.documentAt? q with
    | some document => rfl
    | none =>
      have hp' := hp.resolve_right (by rw [documentAt?_congr ws h, hopen]; exact Bool.false_ne_true)
      have hq' := hq.resolve_right (by rw [hopen]; exact Bool.false_ne_true)
      exact hdisk.text_congr p q hp' hq' h
  bounded := by
    intro paths hpaths hnodup
    let isOpen := fun p => (ws.documentAt? p).isSome
    have hsplit := List.length_eq_length_filter_add (l := paths) isOpen
    have hnodup' : ∀ f : Path → Bool, ((paths.filter f).map Path.components).Nodup :=
      fun f => hnodup.sublist (List.filter_sublist.map _)
    have hopen : (paths.filter isOpen).length ≤ ws.documents.length :=
      open_bounded (fun p hp => (List.mem_filter.mp hp).2) (hnodup' isOpen)
    have hclosed := hdisk.bounded (paths.filter fun p => !isOpen p) (by
      intro p hp
      obtain ⟨hmem, hnot⟩ := List.mem_filter.mp hp
      obtain ⟨hasked, hread⟩ := hpaths p hmem
      have hnone : ws.documentAt? p = none := by simpa [isOpen] using hnot
      rw [reader_text?, hnone] at hread
      exact ⟨hasked.resolve_right (by rw [hnone]; exact Bool.false_ne_true), hread⟩)
      (hnodup' _)
    show paths.length ≤ ws.documents.length + disk.limit
    omega

/-! ## Changes -/

/-- Documents that differ under one address differ for the file of that address alone. -/
theorem agreeOff_documents (hsettings : ws'.settings = ws.settings) {uri : Uri}
    (h : ∀ u, u ≠ uri → ws'.document? u = ws.document? u) (disk : SourceReader) :
    (ws.reader disk).AgreeOff (fun q => Uri.ofPath? q = some uri) ws.Asked (ws'.reader disk)
      ws'.Asked := by
  intro q hasked hq
  have hsame : ws'.documentAt? q = ws.documentAt? q := by
    unfold documentAt?
    cases huri : Uri.ofPath? q with
    | none => rfl
    | some u => exact h u fun heq => hq (huri.trans (congrArg some heq))
  unfold Asked at hasked ⊢
  rw [hsettings, hsame, reader_isFile, reader_isFile, reader_text?, reader_text?, hsame]
  exact ⟨hasked, rfl, rfl⟩

/-- An address has a path if it is the address of one. -/
theorem sameFile_of_toPath? {uri : Uri} {file q : Path} (hfile : uri.toPath? = some file)
    (hq : Uri.ofPath? q = some uri) : file.SameFile q := by
  obtain ⟨file', hfile', hcomponents⟩ := Uri.toPath?_of_ofPath? hq
  rw [hfile, Option.some.injEq] at hfile'
  exact hfile' ▸ hcomponents.symm

/-- A change of one file on disk concerns that file alone. -/
theorem agreeOff_disk {p : Path}
    (h : disk.AgreeOff p.SameFile ws.settings.naming.Asks disk' ws.settings.naming.Asks) :
    (ws.reader disk).AgreeOff p.SameFile ws.Asked (ws.reader disk') ws.Asked := by
  intro q hasked hq
  refine ⟨hasked, ?_⟩
  rw [reader_isFile, reader_isFile, reader_text?, reader_text?]
  cases hopen : ws.documentAt? q with
  | some document => exact ⟨rfl, rfl⟩
  | none =>
    have hasks := hasked.resolve_right (by rw [hopen]; exact Bool.false_ne_true)
    exact (h q hasks hq).2

/-- A change on disk of a file that is open does not show. -/
theorem agreeOff_disk_open {p : Path}
    (h : disk.AgreeOff p.SameFile ws.settings.naming.Asks disk' ws.settings.naming.Asks)
    (hopen : (ws.documentAt? p).isSome = true) :
    (ws.reader disk).AgreeOff (fun _ => False) ws.Asked (ws.reader disk') ws.Asked := by
  intro q hasked _
  by_cases hq : p.SameFile q
  · refine ⟨hasked, ?_⟩
    rw [← documentAt?_congr ws hq] at hopen
    obtain ⟨document, hdocument⟩ := Option.isSome_iff_exists.mp hopen
    rw [reader_isFile, reader_isFile, reader_text?, reader_text?, hdocument]
    exact ⟨rfl, rfl⟩
  · exact agreeOff_disk h q hasked hq

/-! ## Open documents -/

/-- What is open under the address of a path is read there. -/
theorem file_of_document? {uri : Uri} {p : Path} (huri : Uri.ofPath? p = some uri)
    {document : Document} (hopen : ws.document? uri = some document) (disk : SourceReader) :
    ∃ file, uri.toPath? = some file ∧ ws.Asked file ∧ (ws.reader disk).isFile file = true ∧
      (ws.reader disk).text? file = some document.text := by
  obtain ⟨file, hfile, hcomponents⟩ := Uri.toPath?_of_ofPath? huri
  have hdocument : ws.documentAt? file = some document := by
    rw [documentAt?_congr ws hcomponents, documentAt?_eq huri]
    exact hopen
  refine ⟨file, hfile, Or.inr ?_, ?_, ?_⟩
  · rw [hdocument]
    rfl
  · rw [reader_isFile, hdocument]
    rfl
  · rw [reader_text?, hdocument]
    rfl

theorem isOpen_eq (ws : Workspace) (uri : Uri) : ws.isOpen uri = (ws.document? uri).isSome := by
  unfold isOpen document?
  rw [Option.isSome_map, Keyed.isSome_find?]

/-- A document that is found for a path is open under an address that leads there. -/
theorem denotes_of_documentAt? {p : Path} {document : Document}
    (h : ws.documentAt? p = some document) :
    ∃ uri, ws.document? uri = some document ∧ uri.Denotes p := by
  unfold documentAt? at h
  cases huri : Uri.ofPath? p with
  | none =>
    rw [huri] at h
    cases h
  | some uri =>
    rw [huri] at h
    exact ⟨uri, h, Uri.denotes_of_ofPath? huri⟩

/-- **What is open wins over the disk**, for every path of which this holds: if documents are open
under addresses that lead to its file, one of these addresses is canonical.  Then the file is there,
and its text is that of an open document whose address leads to it; and a path that no open document
stands for is answered as the disk answers. -/
theorem reader_open_first (ws : Workspace) (disk : SourceReader) (p : Path)
    (hown : ∀ uri, ws.isOpen uri = true → uri.Denotes p →
      ∃ own, ws.isOpen own = true ∧ own.Denotes p ∧ own.Canonical) :
    ((∃ uri, ws.isOpen uri = true ∧ uri.Denotes p) →
      (ws.reader disk).isFile p = true ∧ ∃ uri document, ws.document? uri = some document ∧
        uri.Denotes p ∧ (ws.reader disk).read p = .ok document.text) ∧
    ((¬ ∃ uri, ws.isOpen uri = true ∧ uri.Denotes p) →
      (ws.reader disk).isFile p = disk.isFile p ∧ (ws.reader disk).read p = disk.read p) := by
  constructor
  · rintro ⟨uri, hopen, hdenotes⟩
    obtain ⟨own, hownOpen, hownDenotes, hcanonical⟩ := hown uri hopen hdenotes
    rw [isOpen_eq] at hownOpen
    obtain ⟨document, hdocument⟩ := Option.isSome_iff_exists.mp hownOpen
    have hat : ws.documentAt? p = some document := by
      rw [documentAt?_eq (Uri.ofPath?_of_denotes hownDenotes hcanonical)]
      exact hdocument
    refine ⟨?_, own, document, hdocument, hownDenotes, ?_⟩
    · rw [reader_isFile, hat]
      rfl
    · simp only [reader, hat]
  · intro hnone
    have hat : ws.documentAt? p = none := by
      cases hsome : ws.documentAt? p with
      | none => rfl
      | some document =>
        obtain ⟨uri, hdocument, hdenotes⟩ := denotes_of_documentAt? hsome
        refine absurd ⟨uri, ?_, hdenotes⟩ hnone
        rw [isOpen_eq, hdocument]
        rfl
    rw [reader_isFile, hat]
    refine ⟨rfl, ?_⟩
    simp only [reader, hat]

/-- A file with a blank in its name, open under two addresses of which the second is canonical, and a
file that is not open. -/
theorem reader_open_first_blank :
    let other : Uri := ⟨"file:///w/%61%20b.das"⟩
    let own : Uri := ⟨"file:///w/a%20b.das"⟩
    let ws : Workspace := { documents := [⟨other, { text := "def f()" }⟩, ⟨own, { text := "def g()" }⟩] }
    let disk := SourceReader.ofFiles
      [⟨.ofString "/w/a b.das", some "def h()"⟩, ⟨.ofString "/w/c.das", some "def c()"⟩]
    let p := Path.ofString "/w//a b.das"
    let q := Path.ofString "/w/c.das"
    (ws.isOpen other = true ∧ other.Denotes p ∧ ¬ other.Canonical) ∧
      (ws.isOpen own = true ∧ own.Denotes p ∧ own.Canonical) ∧
      ((ws.reader disk).isFile p = true ∧ ∃ uri document, ws.document? uri = some document ∧
        uri.Denotes p ∧ (ws.reader disk).read p = .ok document.text) ∧
      (ws.reader disk).isFile q = disk.isFile q ∧ (ws.reader disk).read q = disk.read q := by
  intro other own ws disk p q
  have hother : ws.isOpen other = true ∧ other.Denotes p ∧ ¬ other.Canonical := by decide +kernel
  have hown : ws.isOpen own = true ∧ own.Denotes p ∧ own.Canonical := by decide +kernel
  have hnone : ¬ ∃ uri, ws.isOpen uri = true ∧ uri.Denotes q := by
    rintro ⟨uri, hopen, hdenotes⟩
    obtain ⟨d, hd, rfl⟩ := (Keyed.has_iff _ _ _).mp hopen
    revert d
    decide +kernel
  exact ⟨hother, hown, (reader_open_first ws disk p fun _ _ _ => ⟨own, hown⟩).1 ⟨own, hown.1, hown.2.1⟩,
    (reader_open_first ws disk q fun uri hopen hdenotes => absurd ⟨uri, hopen, hdenotes⟩ hnone).2 hnone⟩

/-- A document that is open only under an address that is not canonical is overlooked: the disk
answers for its file. -/
theorem reader_overlooks_open :
    ¬ ∀ (ws : Workspace) (disk : SourceReader) (p : Path), p.isAbsolute = true →
      (∃ uri, ws.isOpen uri = true ∧ uri.Denotes p) →
        (ws.reader disk).isFile p = true ∧ ∃ uri document, ws.document? uri = some document ∧
          uri.Denotes p ∧ (ws.reader disk).read p = .ok document.text := by
  intro h
  let uri : Uri := ⟨"file:///w/%61.das"⟩
  let ws : Workspace := { documents := [⟨uri, { text := "def in_editor()" }⟩] }
  let disk := SourceReader.ofFiles [⟨.ofString "/w/a.das", some "def on_disk()"⟩]
  obtain ⟨-, u, document, hdocument, -, hread⟩ := h ws disk (.ofString "/w/a.das") (by decide +kernel)
    ⟨uri, by decide +kernel, by decide +kernel⟩
  obtain ⟨d, hd, rfl⟩ := Option.map_eq_some_iff.mp hdocument
  have hmem : d ∈ ws.documents := List.mem_of_find?_eq_some hd
  rw [List.mem_singleton.mp hmem] at hread
  revert hread
  decide +kernel

/-! ## The cache stays sound -/

variable {loops : Path → Path → Prop} {uri : Uri}

theorem document?_openDocument (ws : Workspace) (uri : Uri) (document : Document) (u : Uri) :
    (ws.openDocument uri document).document? u = if uri = u then some document else ws.document? u := by
  unfold document? openDocument
  rw [Keyed.find?_put]
  split <;> rfl

/-- Asking for symbols touches the cache alone. -/
theorem symbols_state (ws : Workspace) (disk : SourceReader) (uri : Uri) :
    ∃ cache, (ws.symbols disk uri).state = { ws with cache } := by
  unfold symbols
  split <;> exact ⟨_, rfl⟩

theorem refresh_state (ws : Workspace) (disk : SourceReader) (uri : Uri) :
    ∃ cache, (ws.refresh disk uri).state = { ws with cache } := by
  unfold refresh
  split <;> exact ⟨_, rfl⟩

/-- Asking for the symbols of a file keeps the cache sound. -/
theorem sound_symbols (hr : (ws.reader disk).Regular ws.settings.naming ws.Asked)
    (hloops : LoopsAre ws.settings.naming (ws.reader disk) (fun _ => True) loops)
    (hfiles : (ws.document? uri).isSome = true → ∃ p, Uri.ofPath? p = some uri)
    (h : Sound ws.settings.naming (ws.reader disk) ws.Asked loops ws.cache) :
    Sound ws.settings.naming (ws.reader disk) ws.Asked loops (ws.symbols disk uri).state.cache := by
  unfold symbols
  split
  · next file document hfile hopen =>
    obtain ⟨p, hp⟩ := hfiles (by rw [hopen]; rfl)
    obtain ⟨file', hfile', ha, hf, ht⟩ := file_of_document? hp hopen disk
    rw [hfile, Option.some.injEq] at hfile'
    subst hfile'
    exact h.symbolsFor hr hloops ha hf ht
  · exact h

/-- Refreshing a file makes a change of its document good. -/
theorem sound_refresh {reader : SourceReader} {asked : Path → Prop}
    (hr : reader.Regular ws.settings.naming asked)
    (hr' : (ws.reader disk).Regular ws.settings.naming ws.Asked)
    (hloops : LoopsAre ws.settings.naming (ws.reader disk) (fun _ => True) loops)
    {p : Path} (huri : Uri.ofPath? p = some uri) {document : Document}
    (hopen : ws.document? uri = some document)
    (hagree : reader.AgreeOff (fun q => Uri.ofPath? q = some uri) asked (ws.reader disk) ws.Asked)
    (h : Sound ws.settings.naming reader asked loops ws.cache) :
    Sound ws.settings.naming (ws.reader disk) ws.Asked loops (ws.refresh disk uri).state.cache := by
  obtain ⟨file, hfile, ha, hf, ht⟩ := file_of_document? huri hopen disk
  have hagree' := hagree.mono fun q hq => sameFile_of_toPath? hfile hq
  unfold refresh
  rw [hfile, hopen]
  exact h.refresh hr hr' hloops hagree' ha hf ht

theorem settings_close (ws : Workspace) (uri : Uri) :
    (ws.close uri).state.settings = ws.settings := by
  unfold close
  cases uri.toPath? <;> rfl

theorem document?_close (ws : Workspace) (uri u : Uri) :
    (ws.close uri).state.document? u = if u = uri then none else ws.document? u := by
  have hdrop : (ws.close uri).state.document? u =
      (Keyed.find? OpenDocument.uri u (Keyed.drop OpenDocument.uri uri ws.documents)).map
        OpenDocument.document := by
    unfold close
    cases uri.toPath? <;> rfl
  rw [hdrop, Keyed.find?_drop]
  split <;> rfl

/-- Closing a document drops what was computed from it. -/
theorem sound_close (hr : (ws.reader disk).Regular ws.settings.naming ws.Asked)
    (h : Sound ws.settings.naming (ws.reader disk) ws.Asked loops ws.cache) :
    Sound ws.settings.naming ((ws.close uri).state.reader disk) (ws.close uri).state.Asked loops
      (ws.close uri).state.cache := by
  have hagree : (ws.reader disk).AgreeOff (fun q => Uri.ofPath? q = some uri) ws.Asked
      ((ws.close uri).state.reader disk) (ws.close uri).state.Asked :=
    agreeOff_documents (ws.settings_close uri)
      (fun u hu => (ws.document?_close uri u).trans (if_neg hu)) disk
  revert hagree
  unfold close
  cases hfile : uri.toPath? with
  | some file =>
    intro hagree
    exact h.invalidate hr (hagree.mono fun q hq => sameFile_of_toPath? hfile hq)
  | none =>
    intro hagree
    refine h.unchanged hr (hagree.mono fun q hq => ?_)
    obtain ⟨file, hsome, -⟩ := Uri.toPath?_of_ofPath? hq
    rw [hfile] at hsome
    cases hsome

theorem settings_configure (ws : Workspace) (settings : Settings) :
    (ws.configure settings).state.settings = settings := by
  unfold configure
  split <;> rfl

theorem document?_configure (ws : Workspace) (settings : Settings) (u : Uri) :
    (ws.configure settings).state.document? u = ws.document? u := by
  unfold configure
  split <;> rfl

/-- New settings that keep the naming keep what the cache says; other ones clear it. -/
theorem sound_configure (settings : Settings)
    (h : Sound ws.settings.naming (ws.reader disk) ws.Asked loops ws.cache) :
    Sound settings.naming ((ws.configure settings).state.reader disk)
      (ws.configure settings).state.Asked loops (ws.configure settings).state.cache := by
  unfold configure
  split
  · exact .empty _
  · next hsame =>
    have hnaming := Settings.naming_eq hsame
    have hasked : Asked { ws with settings } = ws.Asked := by
      funext q
      show (settings.naming.Asks q ∨ _) = _
      rw [hnaming]
      rfl
    show Sound settings.naming (ws.reader disk) (Asked { ws with settings }) loops ws.cache
    rw [hnaming, hasked]
    exact h

end ScriptIndex.Workspace
