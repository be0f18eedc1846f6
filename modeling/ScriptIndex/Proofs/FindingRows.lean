import ScriptIndex.Proofs.Carrying
import ScriptIndex.Proofs.Findings
import ScriptIndex.Proofs.LineBreaks

/-!
# Findings and the rows they are shown on

A finding is about a directive, which is counted in lines of the source text, and it is shown on a row
of the document.  Right after a refresh every finding is about a directive of the present text, and it
lies on the row of that directive as long as every break before the end of the directive ends a line.
A break that is none for the source text, such as a form feed, moves all findings below it.

* `Reading.require_of_line`, `SourceItem.line_of_require` — the line of a directive;
* `Extraction.directive_of_cycle` — a report is about a directive of the text;
* `Workspace.refresh_cached` — a refresh gives the symbols of the present text and caches them;
* `Diagnostic.SitsOn`, `Query.diagnostics_sit` — a finding covers the row of its directive;
* `Query.diagnostics_stray` — or misses it.
-/

namespace ScriptIndex

/-! ## The line of a directive -/

theorem Text.eq_of_afterPrefix? {mark s rest : List Char} (h : afterPrefix? mark s = some rest) :
    s = mark ++ rest := by
  unfold afterPrefix? at h
  split at h
  · next hprefix =>
    rw [← Option.some.inj h]
    exact eq_append_drop hprefix
  · cases h

namespace Reading

/-- A line is a directive if it starts like one and names a module. -/
theorem require_of_line {reading : Reading} {file : Path} {number n : Nat} {text : List Char}
    {module : String} (h : (reading.line file number text).2 = some (.require module n)) :
    n = number ∧ ∃ rest, text = requireMark ++ rest ∧ Text.trim rest ≠ [] ∧
      module = String.ofList (Text.trim rest) := by
  unfold line at h
  split at h
  · cases h
  · split at h
    · next rest hrest =>
      dsimp only at h
      split at h
      · cases h
      · next hmodule =>
        rw [Option.some.injEq, SourceItem.require.injEq] at h
        exact ⟨h.2.symm, rest, Text.eq_of_afterPrefix? hrest, hmodule, h.1.symm⟩
    · obtain ⟨header, -, hitem⟩ := Option.map_eq_some_iff.mp h
      cases hitem

end Reading

/-- A directive stands on the line of its number. -/
theorem SourceItem.line_of_require {file : Path} {text : List Char} {module : String} {n : Nat}
    (h : .require module n ∈ SourceItem.scan file text) :
    ∃ rest, (Text.lines text)[n]? = some (Reading.requireMark ++ rest) ∧ Text.trim rest ≠ [] ∧
      module = String.ofList (Text.trim rest) := by
  obtain ⟨i, line, hline, hitem⟩ := Reading.line_of_mem_items h
  obtain ⟨hn, rest, rfl, hrest⟩ := Reading.require_of_line hitem
  rw [Nat.zero_add] at hn
  exact ⟨rest, hn ▸ hline, hrest⟩

/-- The row of a directive is the directive, as long as every break before its end ends a line. -/
theorem Document.lineText_of_require {document : Document} {file : Path} {module : String} {n : Nat}
    (h : .require module n ∈ SourceItem.scan file document.chars)
    (hstep : Text.InStep document.chars n) :
    ∃ rest, document.lineText n = Reading.requireMark ++ rest ∧
      String.ofList (Text.trim rest) = module := by
  obtain ⟨rest, hline, htrim, rfl⟩ := SourceItem.line_of_require h
  obtain ⟨hn, -⟩ := List.getElem?_eq_some_iff.mp hline
  obtain ⟨blanks, hblanks, hrow⟩ := Text.rowText_of_inStep hn hstep
  have hsource : (Text.lines document.chars).getD n [] = Reading.requireMark ++ rest := by
    rw [List.getD_eq_getElem?_getD, hline]
    rfl
  rw [hsource, Text.dropEndWhile_append_of_exists (Text.exists_of_trim_ne_nil htrim),
    List.append_assoc] at hrow
  refine ⟨_, hrow, ?_⟩
  rw [Text.trim_append_of_blank hblanks, Text.trim_dropEndWhile]

/-! ## Reports after a refresh -/

/-- Every report about a file is about a directive of its text. -/
theorem Extraction.directive_of_cycle {naming : Naming} {reader : SourceReader} {file : Path}
    {text : String} {cache : SymbolCache} {cycle : CircularRequire}
    (h : cycle ∈ (extract naming reader file text cache).value.cycles) :
    .require cycle.module cycle.line ∈ SourceItem.scan file text.toList := by
  have hall : ∀ cycle ∈ (extract naming reader file text cache).value.cycles,
      .require cycle.module cycle.line ∈ SourceItem.scan file text.toList := by
    refine visit_value (P := fun s => ∀ cycle ∈ s.cycles,
      .require cycle.module cycle.line ∈ SourceItem.scan file text.toList) (by simp) ?_ _ _ _
    intro item hitem s s' hadds hs cycle hcycle
    cases hadds with
    | declared => exact hs cycle hcycle
    | lookedFor isFile => exact hs cycle hcycle
    | circular found =>
      rcases List.mem_append.mp hcycle with hcycle | hcycle
      · exact hs cycle hcycle
      · rw [List.mem_singleton.mp hcycle]
        exact hitem
    | followed found required =>
      rw [FileSymbols.takeOver_cycles] at hcycle
      rcases List.mem_append.mp hcycle with hcycle | hcycle
      · exact hs cycle hcycle
      · split at hcycle
        · cases hcycle
        · rw [List.mem_singleton.mp hcycle]
          exact hitem
  exact hall cycle h

namespace Workspace

variable {ws : Workspace} {uri : Uri} {file : Path} {document : Document}

/-- A refresh gives the symbols of the present text and caches them. -/
theorem refresh_cached (hfile : uri.toPath? = some file) (hopen : ws.document? uri = some document)
    (disk : SourceReader) :
    ∃ refreshed cache, (ws.refresh disk uri).value = some refreshed ∧
      (ws.refresh disk uri).state.cache.get? file = some refreshed.symbols ∧
      refreshed.symbols = (Extraction.extract ws.settings.naming (ws.reader disk) file document.text
        cache).value := by
  unfold refresh
  rw [hfile, hopen]
  refine ⟨_, (ws.cache.invalidate file).2, rfl, ?_, rfl⟩
  show SymbolCache.get? (SymbolCache.insert _ file _) file = _
  rw [SymbolCache.get?_insert_self]
  rfl

end Workspace

/-! ## Where findings are shown -/

/-- A finding covers the row of the directive it is about: the row starts like a directive, names the
module, and is covered from its first column to its last. -/
structure Diagnostic.SitsOn (document : Document) (cycle : CircularRequire) (finding : Diagnostic) :
    Prop where
  directive : ∃ rest, document.lineText finding.range.start.line = Reading.requireMark ++ rest ∧
    String.ofList (Text.trim rest) = cycle.module
  start : finding.range.start.character = 0
  stop : finding.range.stop =
    { line := finding.range.start.line
      character := Text.width (document.lineText finding.range.start.line) }

namespace Query

variable {ws : Workspace} {uri : Uri} {document : Document}

/-- Right after a refresh the findings about a document are those about the reports it gave. -/
theorem diagnostics_refresh (hopen : ws.document? uri = some document) (disk : SourceReader) :
    (diagnostics (ws.refresh disk uri).state disk uri).value =
      (((ws.refresh disk uri).value.map fun refreshed => refreshed.symbols.cycles).getD []).map
        (diagnose ws.settings document) := by
  obtain ⟨cache, hstate⟩ := ws.refresh_state disk uri
  have hdocument : (ws.refresh disk uri).state.document? uri = some document := by
    rw [hstate]
    exact hopen
  have hsettings : (ws.refresh disk uri).state.settings = ws.settings := by
    rw [hstate]
  cases hfile : uri.toPath? with
  | none => simp [diagnostics, Workspace.symbols, Workspace.refresh, hfile]
  | some file =>
    obtain ⟨refreshed, -, hvalue, hget, -⟩ := Workspace.refresh_cached hfile hopen disk
    have hsymbols := Workspace.symbols_of_cached hfile hdocument hget disk
    simp only [diagnostics, hsymbols, hdocument, hsettings, hvalue, Option.map_some,
      Option.getD_some]

/-- **Findings sit on their directives.**  Right after a refresh of an open document the findings about
it are, one by one, those about the circular directives that the refresh found, and each of them
covers the row of its directive if every break up to there ends a line. -/
theorem diagnostics_sit (ws : Workspace) (disk : SourceReader) (uri : Uri) (document : Document)
    (hopen : ws.document? uri = some document) :
    List.Forall₂
      (fun cycle finding => Text.InStep document.chars finding.range.start.line →
        Diagnostic.SitsOn document cycle finding)
      (((ws.refresh disk uri).value.map fun refreshed => refreshed.symbols.cycles).getD [])
      (diagnostics (ws.refresh disk uri).state disk uri).value := by
  rw [diagnostics_refresh hopen, List.forall₂_map_right_iff, List.forall₂_same]
  intro cycle hcycle hstep
  refine ⟨?_, rfl, rfl⟩
  cases hfile : uri.toPath? with
  | none => simp [Workspace.refresh, hfile] at hcycle
  | some file =>
    obtain ⟨refreshed, cache, hvalue, -, hsymbols⟩ := Workspace.refresh_cached hfile hopen disk
    rw [hvalue, Option.map_some, Option.getD_some, hsymbols] at hcycle
    exact Document.lineText_of_require (Extraction.directive_of_cycle hcycle) hstep

/-- A file that requires itself below a line that ends in a carriage return and a line feed, with a
blank and a form feed behind the module: the finding covers these as well. -/
theorem diagnostics_sit_self :
    let uri : Uri := ⟨"file:///w/a.das"⟩
    let document : Document := { text := "def f()\r\nrequire a \x0c\ndef g()" }
    let ws : Workspace := { documents := [⟨uri, document⟩] }
    let disk := SourceReader.ofFiles []
    let cycles := ((ws.refresh disk uri).value.map fun refreshed => refreshed.symbols.cycles).getD []
    let findings := (diagnostics (ws.refresh disk uri).state disk uri).value
    ws.document? uri = some document ∧
      findings.map Diagnostic.range = [⟨⟨1, 0⟩, ⟨1, 11⟩⟩] ∧ Text.InStep document.chars 1 ∧
      List.Forall₂
        (fun cycle finding => Text.InStep document.chars finding.range.start.line →
          Diagnostic.SitsOn document cycle finding) cycles findings := by
  intro uri document ws disk cycles findings
  have hopen : ws.document? uri = some document := by decide +kernel
  exact ⟨hopen, by decide +kernel, by decide +kernel, diagnostics_sit ws disk uri document hopen⟩

/-- A form feed on a line of its own is two rows: the finding about the directive below lies on the
second of them, which is empty. -/
theorem diagnostics_stray :
    ¬ ∀ (ws : Workspace) (disk : SourceReader) (uri : Uri) (document : Document),
      ws.document? uri = some document →
        List.Forall₂ (Diagnostic.SitsOn document)
          (((ws.refresh disk uri).value.map fun refreshed => refreshed.symbols.cycles).getD [])
          (diagnostics (ws.refresh disk uri).state disk uri).value := by
  intro h
  let uri : Uri := ⟨"file:///nonexistent/ws/a.das"⟩
  let document : Document := { text := "\x0c\nrequire a" }
  let ws : Workspace := { documents := [⟨uri, document⟩] }
  have hsits := h ws (.ofFiles []) uri document (by decide +kernel)
  obtain ⟨rest, hrow, -⟩ := (hsits.get (i := 0) (by decide +kernel) (by decide +kernel)).directive
  have hstarts := List.isPrefixOf_iff_prefix.mpr ⟨rest, hrow.symm⟩
  revert hstarts
  decide +kernel

end Query

end ScriptIndex
