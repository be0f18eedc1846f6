import ScriptIndex.Proofs.LineBreaks
import ScriptIndex.Proofs.OpenDocuments
import ScriptIndex.Proofs.Traversal
import ScriptIndex.Query

/-!
# Line endings

A text is read in lines and shown in rows, and neither tells whether a line feed has a carriage return
before it.  So texts that differ in nothing else are the same source and the same document: all that is
computed from a text goes through its lines or its rows.

* `Text.withReturns` — a text with a carriage return before every line feed;
* `Text.lines_withReturns`, `Text.rowTexts_withReturns` — it has the same lines and rows;
* `Document.view` — what of a document can be told apart;
* `SourceReader.Alike`, `Extraction.visit_alike` — following requires reads lines only;
* `Workspace.Alike`, `Workspace.Alike.symbols`, `Workspace.Alike.answers` — two workspaces whose documents
  cannot be told apart give the same answers;
* `Document.line_endings` — all of it for one text.
-/

namespace ScriptIndex

/-! ## Texts -/

namespace Text

/-- A text with a carriage return before every line feed. -/
def withReturns (s : List Char) : List Char :=
  s.flatMap fun c => if c = '\n' then ['\r', '\n'] else [c]

theorem withReturns_append (s t : List Char) :
    withReturns (s ++ t) = withReturns s ++ withReturns t :=
  List.flatMap_append

theorem withReturns_of_no_lineFeed {line : List Char} (h : '\n' ∉ line) : withReturns line = line := by
  induction line with
  | nil => rfl
  | cons c rest ih =>
    rw [List.mem_cons, not_or] at h
    have hrest := ih h.2
    unfold withReturns at hrest ⊢
    rw [List.flatMap_cons, if_neg (Ne.symm h.1), hrest]
    rfl

/-- The returns go with the line feeds. -/
theorem withReturns_line {line : List Char} (h : '\n' ∉ line) (rest : List Char) :
    withReturns (line ++ '\n' :: rest) = (line ++ ['\r']) ++ '\n' :: withReturns rest := by
  rw [withReturns_append, withReturns_of_no_lineFeed h, List.append_assoc]
  rfl

theorem withoutReturn_concat (line : List Char) : withoutReturn (line ++ ['\r']) = line := by
  simp [withoutReturn]

theorem withoutReturn_of_not_mem {line : List Char} (h : '\r' ∉ line) : withoutReturn line = line :=
  if_neg fun hlast => h (List.mem_of_getLast? hlast)

/-- **The lines are the same.** -/
theorem lines_withReturns {s : List Char} (h : '\r' ∉ s) : lines (withReturns s) = lines s := by
  revert h
  refine lineFeed_induction (motive := fun s => '\r' ∉ s → lines (withReturns s) = lines s) ?_ ?_ s
  · intro line hfree _
    rw [withReturns_of_no_lineFeed hfree]
  · intro line rest hfree ih h
    rw [List.mem_append, List.mem_cons, not_or, not_or] at h
    have hfree' : '\n' ∉ line ++ ['\r'] := by simp [hfree]
    rw [withReturns_line hfree, lines_append_lineFeed hfree', lines_append_lineFeed hfree,
      withoutReturn_concat, withoutReturn_of_not_mem h.1, ih h.2.2]

/-- **The rows are the same**, but for their ends. -/
theorem rowTexts_withReturns {s : List Char} (h : '\r' ∉ s) :
    (rows (withReturns s)).map rowText = (rows s).map rowText := by
  revert h
  refine pieces_induction
    (motive := fun s => '\r' ∉ s → (rows (withReturns s)).map rowText = (rows s).map rowText)
    isBreak ?_ ?_ s
  · intro piece hpiece _
    rw [withReturns_of_no_lineFeed fun hmem => absurd (hpiece _ hmem) (by decide)]
  · intro piece c rest hpiece hc ih h
    rw [List.mem_append, List.mem_cons, not_or, not_or] at h
    obtain ⟨-, hreturn, hrest⟩ := h
    have hfree : '\n' ∉ piece := fun hmem => absurd (hpiece _ hmem) (by decide)
    have hfirst : rows (piece ++ c :: rest) = (piece ++ [c]) :: rows rest := by
      rw [rows_append hpiece, rows_cons_break hc fun _ hcr _ => hreturn hcr.symm]
      rfl
    rw [hfirst, List.map_cons, ← ih hrest]
    by_cases hfeed : c = '\n'
    · -- one break in both, and both ends are dropped
      subst hfeed
      have hrows : rows (withReturns (piece ++ '\n' :: rest)) =
          (piece ++ ['\r', '\n']) :: rows (withReturns rest) := by
        rw [withReturns_line hfree, List.append_assoc, rows_append hpiece]
        rfl
      have hends : rowText (piece ++ ['\r', '\n']) = rowText (piece ++ ['\n']) := by
        unfold rowText
        rw [dropEndWhile_append_of_forall (by simp), dropEndWhile_append_of_forall (by simp)]
      rw [hrows, List.map_cons, hends]
    · have hother : withReturns (piece ++ c :: rest) = piece ++ c :: withReturns rest := by
        have hrest : withReturns (c :: rest) = c :: withReturns rest := by
          unfold withReturns
          rw [List.flatMap_cons, if_neg hfeed]
          rfl
        rw [withReturns_append, withReturns_of_no_lineFeed hfree, hrest]
      rw [hother, rows_append hpiece, rows_cons_break hc fun _ hcr _ => hreturn hcr.symm]
      rfl

end Text

theorem SourceItem.scan_congr {s t : List Char} (h : Text.lines s = Text.lines t) (file : Path) :
    scan file s = scan file t := by
  unfold scan
  rw [h]

theorem Identifier.harvest_congr {s t : List Char} (h : Text.lines s = Text.lines t)
    (known : List String) : harvest s known = harvest t known := by
  unfold harvest
  rw [h]

/-! ## Documents -/

namespace Document

/-- What of a document can be told apart: its lines as a source, and the texts of its rows. -/
def view (document : Document) : List (List Char) × List (List Char) :=
  (Text.lines document.chars, document.lineTexts)

variable {d e : Document}

theorem lineText_eq (document : Document) (i : Nat) :
    document.lineText i = document.lineTexts.getD i [] := by
  unfold lineText lineTexts
  rw [List.getD_eq_getElem?_getD, List.getD_eq_getElem?_getD, List.getElem?_map]
  cases (Text.rows document.chars)[i]? <;> rfl

theorem lineText_congr (h : d.view = e.view) (i : Nat) : d.lineText i = e.lineText i := by
  have hrows : d.lineTexts = e.lineTexts := congrArg Prod.snd h
  rw [lineText_eq, lineText_eq, hrows]

theorem lineCount_congr (h : d.view = e.view) : d.lineCount = e.lineCount := by
  have hrows : d.lineTexts = e.lineTexts := congrArg Prod.snd h
  have hlength := congrArg List.length hrows
  rwa [lineTexts, lineTexts, List.length_map, List.length_map] at hlength

theorem view_withReturns {s : List Char} (h : '\r' ∉ s) (version version' : Option Int) :
    view ⟨String.ofList (Text.withReturns s), version⟩ = view ⟨String.ofList s, version'⟩ := by
  unfold view lineTexts chars
  simp only [String.toList_ofList]
  rw [Text.lines_withReturns h, Text.rowTexts_withReturns h]

end Document

/-! ## Following requires -/

/-- The same files are there, and those that can be read have the same lines. -/
structure SourceReader.Alike (reader reader' : SourceReader) : Prop where
  isFile : reader.isFile = reader'.isFile
  lines : ∀ p, (reader.text? p).map (fun text => Text.lines text.toList) =
    (reader'.text? p).map fun text => Text.lines text.toList
  limit : reader.limit = reader'.limit

namespace Extraction

variable {naming : Naming} {reader reader' : SourceReader} {chain : List Path} {file : Path}

/-- Two ways to follow a file that tell no texts with the same lines apart. -/
def FollowAlike (follow follow' : Follow) : Prop :=
  ∀ target text text' cache, Text.lines text.toList = Text.lines text'.toList →
    (follow target text cache).value = (follow' target text' cache).value ∧
      (follow target text cache).state = (follow' target text' cache).state

/-- A required file gives the same. -/
theorem required_alike {follow follow' : Follow} (hr : reader.Alike reader')
    (hfollow : FollowAlike follow follow') (target : Path) (cache : SymbolCache) :
    (required reader follow target cache).value = (required reader' follow' target cache).value ∧
      (required reader follow target cache).state = (required reader' follow' target cache).state := by
  have hlines := hr.lines target
  unfold required
  cases cache.get? target with
  | some symbols => exact ⟨rfl, rfl⟩
  | none =>
    unfold SourceReader.text? at hlines
    cases hread : reader.read target with
    | error fault =>
      cases hread' : reader'.read target with
      | error fault' => exact ⟨rfl, rfl⟩
      | ok text' =>
        rw [hread, hread'] at hlines
        cases hlines
    | ok text =>
      cases hread' : reader'.read target with
      | error fault' =>
        rw [hread, hread'] at hlines
        cases hlines
      | ok text' =>
        rw [hread, hread'] at hlines
        obtain ⟨hvalue, hstate⟩ := hfollow target text text' cache (Option.some.inj hlines)
        exact ⟨congrArg some hvalue, hstate⟩

/-- **One item** adds the same. -/
theorem absorb_alike {follow follow' : Follow} (hr : reader.Alike reader')
    (hfollow : FollowAlike follow follow') {draft draft' : Draft}
    (h : draft.symbols = draft'.symbols ∧ draft.cache = draft'.cache) (item : SourceItem) :
    (absorb naming reader follow chain file draft item).symbols =
        (absorb naming reader' follow' chain file draft' item).symbols ∧
      (absorb naming reader follow chain file draft item).cache =
        (absorb naming reader' follow' chain file draft' item).cache := by
  obtain ⟨hs, hc⟩ := h
  cases item with
  | function d => exact ⟨congrArg (·.declare d) hs, hc⟩
  | require module line =>
    simp only [absorb, followRequire, ← hs, ← hc, ← hr.isFile, Draft.report]
    cases (naming.resolve (fun path => draft.cache.contains path || reader.isFile path) file
        module).found with
    | none => exact ⟨rfl, rfl⟩
    | some target =>
      dsimp only
      cases target.isIn chain with
      | true => exact ⟨rfl, rfl⟩
      | false =>
        obtain ⟨hvalue, hstate⟩ := required_alike hr hfollow target draft.cache
        simp only [Bool.false_eq_true, if_false, ← hvalue, ← hstate]
        cases (required reader follow target draft.cache).value with
        | none => exact ⟨rfl, rfl⟩
        | some symbols => exact ⟨rfl, rfl⟩

theorem foldl_absorb_alike {follow follow' : Follow} (hr : reader.Alike reader')
    (hfollow : FollowAlike follow follow') (items : List SourceItem) {draft draft' : Draft}
    (h : draft.symbols = draft'.symbols ∧ draft.cache = draft'.cache) :
    (items.foldl (absorb naming reader follow chain file) draft).symbols =
        (items.foldl (absorb naming reader' follow' chain file) draft').symbols ∧
      (items.foldl (absorb naming reader follow chain file) draft).cache =
        (items.foldl (absorb naming reader' follow' chain file) draft').cache := by
  induction items generalizing draft draft' with
  | nil => exact h
  | cons item rest ih => exact ih (absorb_alike hr hfollow h item)

theorem gather_alike {follow follow' : Follow} (hr : reader.Alike reader')
    (hfollow : FollowAlike follow follow') {text text' : String}
    (hlines : Text.lines text.toList = Text.lines text'.toList) (cache : SymbolCache) :
    (gather naming reader follow chain file text cache).symbols =
        (gather naming reader' follow' chain file text' cache).symbols ∧
      (gather naming reader follow chain file text cache).cache =
        (gather naming reader' follow' chain file text' cache).cache := by
  unfold gather
  rw [SourceItem.scan_congr hlines]
  exact foldl_absorb_alike hr hfollow _ ⟨rfl, rfl⟩

/-- **One file with all it requires** gives the same, at any depth. -/
theorem visit_alike (hr : reader.Alike reader') (depth : Nat) (chain : List Path) :
    FollowAlike (visit naming reader depth chain) (visit naming reader' depth chain) := by
  induction depth generalizing chain with
  | zero => exact fun _ _ _ _ _ => ⟨rfl, rfl⟩
  | succ depth ih =>
    intro file text text' cache hlines
    obtain ⟨hsymbols, hcache⟩ := gather_alike hr (ih (file :: chain)) hlines cache
    refine ⟨hsymbols, ?_⟩
    show (gather ..).cache.insert file (gather ..).symbols = (gather ..).cache.insert file (gather ..).symbols
    rw [hsymbols, hcache]

theorem extract_alike (hr : reader.Alike reader') :
    FollowAlike (extract naming reader) (extract naming reader') := by
  unfold extract
  rw [hr.limit]
  exact visit_alike hr _ []

theorem symbolsFor_alike (hr : reader.Alike reader') (force : Bool) :
    FollowAlike (symbolsFor naming reader force) (symbolsFor naming reader' force) := by
  intro file text text' cache hlines
  unfold symbolsFor
  cases (if force then none else cache.get? file) with
  | some symbols => exact ⟨rfl, rfl⟩
  | none => exact extract_alike hr file text text' cache hlines

end Extraction

/-! ## Workspaces -/

/-- The number of rows does not depend on what is put under a key. -/
theorem Keyed.length_put {α κ : Type} [DecidableEq κ] (key : α → κ) (row row' : α)
    (h : key row = key row') (rows : List α) :
    (Keyed.put key row rows).length = (Keyed.put key row' rows).length := by
  induction rows with
  | nil => rfl
  | cons first rest ih =>
    rw [Keyed.put, Keyed.put, h]
    split
    · rfl
    · rw [List.length_cons, List.length_cons, ih]

namespace Workspace

/-- Two workspaces that differ only in what cannot be told of their documents. -/
structure Alike (ws other : Workspace) : Prop where
  settings : ws.settings = other.settings
  cache : ws.cache = other.cache
  count : ws.documents.length = other.documents.length
  documents : ∀ uri, (ws.document? uri).map Document.view = (other.document? uri).map Document.view

namespace Alike

variable {ws other : Workspace}

/-- The same addresses are open, and their documents cannot be told apart. -/
theorem cases (h : ws.Alike other) (uri : Uri) :
    (ws.document? uri = none ∧ other.document? uri = none) ∨
      ∃ d e, ws.document? uri = some d ∧ other.document? uri = some e ∧ d.view = e.view := by
  have hview := h.documents uri
  cases hd : ws.document? uri with
  | none =>
    rw [hd, Option.map_none] at hview
    exact Or.inl ⟨rfl, Option.map_eq_none_iff.mp hview.symm⟩
  | some d =>
    rw [hd, Option.map_some] at hview
    obtain ⟨e, he, hsame⟩ := Option.map_eq_some_iff.mp hview.symm
    exact Or.inr ⟨d, e, rfl, he, hsame.symm⟩

theorem isOpen (h : ws.Alike other) (uri : Uri) : ws.isOpen uri = other.isOpen uri := by
  have hview := congrArg Option.isSome (h.documents uri)
  rwa [Option.isSome_map, Option.isSome_map, ← isOpen_eq, ← isOpen_eq] at hview

theorem openUris (h : ws.Alike other) (paths : List Path) : ws.openUris paths = other.openUris paths := by
  unfold Workspace.openUris
  rw [funext h.isOpen]

/-- A document that is opened in both. -/
theorem openDocument (ws : Workspace) (uri : Uri) {d e : Document} (h : d.view = e.view) :
    (ws.openDocument uri d).Alike (ws.openDocument uri e) where
  settings := rfl
  cache := rfl
  count := Keyed.length_put OpenDocument.uri ⟨uri, d⟩ ⟨uri, e⟩ rfl ws.documents
  documents := by
    intro u
    rw [document?_openDocument, document?_openDocument]
    split
    · exact congrArg some h
    · rfl

theorem documentAt? (h : ws.Alike other) (p : Path) :
    (ws.documentAt? p).map Document.view = (other.documentAt? p).map Document.view := by
  unfold Workspace.documentAt?
  cases Uri.ofPath? p with
  | none => rfl
  | some uri => exact h.documents uri

/-- What is read in one can be read in the other, with the same lines. -/
theorem reader (h : ws.Alike other) (disk : SourceReader) :
    (ws.reader disk).Alike (other.reader disk) where
  isFile := by
    funext p
    have hsome := congrArg Option.isSome (h.documentAt? p)
    rw [Option.isSome_map, Option.isSome_map] at hsome
    rw [reader_isFile, reader_isFile, hsome]
  lines := by
    intro p
    have hlines := congrArg (Option.map Prod.fst) (h.documentAt? p)
    rw [Option.map_map, Option.map_map] at hlines
    rw [reader_text?, reader_text?, Option.map_or, Option.map_or, Option.map_map, Option.map_map]
    exact congrArg (fun found => Option.or found _) hlines
  limit := congrArg (· + disk.limit) h.count

/-- **The symbols of a document are the same**, and so is what is left behind. -/
theorem symbols (h : ws.Alike other) (disk : SourceReader) (uri : Uri) :
    (ws.symbols disk uri).value = (other.symbols disk uri).value ∧
      (ws.symbols disk uri).state.Alike (other.symbols disk uri).state := by
  unfold Workspace.symbols
  cases uri.toPath? with
  | none => exact ⟨rfl, h⟩
  | some file =>
    rcases h.cases uri with ⟨hd, he⟩ | ⟨d, e, hd, he, hview⟩
    · rw [hd, he]
      exact ⟨rfl, h⟩
    · rw [hd, he, ← h.settings, ← h.cache]
      obtain ⟨hvalue, hstate⟩ := Extraction.symbolsFor_alike (h.reader disk) false file d.text e.text
        ws.cache (congrArg Prod.fst hview)
      exact ⟨congrArg some hvalue, rfl, hstate, h.count, h.documents⟩

/-- Extracting a document again gives the same. -/
theorem refresh (h : ws.Alike other) (disk : SourceReader) (uri : Uri) :
    (ws.refresh disk uri).value = (other.refresh disk uri).value ∧
      (ws.refresh disk uri).state.Alike (other.refresh disk uri).state := by
  unfold Workspace.refresh
  cases uri.toPath? with
  | none => exact ⟨rfl, h⟩
  | some file =>
    rcases h.cases uri with ⟨hd, he⟩ | ⟨d, e, hd, he, hview⟩
    · rw [hd, he]
      exact ⟨rfl, h⟩
    · rw [hd, he, ← h.settings, ← h.cache]
      obtain ⟨hvalue, hstate⟩ := Extraction.extract_alike (h.reader disk) file d.text e.text
        (ws.cache.invalidate file).2 (congrArg Prod.fst hview)
      refine ⟨?_, rfl, hstate, h.count, h.documents⟩
      dsimp only [Extraction.refresh]
      rw [hvalue, h.openUris]

end Alike

/-- Everything an editor can ask is answered alike, about any document and at any position. -/
structure AnswersAlike (disk : SourceReader) (ws other : Workspace) : Prop where
  symbols : ∀ uri, (ws.symbols disk uri).value = (other.symbols disk uri).value
  completion : ∀ uri, (Query.completion ws disk uri).value = (Query.completion other disk uri).value
  hover : ∀ uri position,
    (Query.hover ws disk uri position).value = (Query.hover other disk uri position).value
  definition : ∀ uri position,
    (Query.definition ws disk uri position).value = (Query.definition other disk uri position).value
  signatureHelp : ∀ uri position, (Query.signatureHelp ws disk uri position).value =
    (Query.signatureHelp other disk uri position).value
  diagnostics : ∀ uri, (Query.diagnostics ws disk uri).value = (Query.diagnostics other disk uri).value

namespace Alike

variable {ws other : Workspace}

/-- A position is at the same character of the same row. -/
theorem cursor? (h : ws.Alike other) (uri : Uri) (position : Position) :
    Query.cursor? ws uri position = Query.cursor? other uri position := by
  unfold Query.cursor?
  rcases h.cases uri with ⟨hd, he⟩ | ⟨d, e, hd, he, hview⟩
  · rw [hd, he]
  · rw [hd, he, Option.map_some, Option.map_some, Document.lineText_congr hview]

theorem function (h : ws.Alike other) (disk : SourceReader) (uri : Uri) (name : String) :
    (Query.function ws disk uri name).value = (Query.function other disk uri name).value :=
  congrArg (·.bind fun symbols => symbols.find? name) (h.symbols disk uri).1

theorem functionAt (h : ws.Alike other) (disk : SourceReader) (uri : Uri) (position : Position) :
    (Query.functionAt ws disk uri position).value =
      (Query.functionAt other disk uri position).value := by
  have hword : Query.word? ws uri position = Query.word? other uri position := by
    unfold Query.word?
    rw [h.cursor?]
  unfold Query.functionAt
  rw [hword]
  cases Query.word? other uri position with
  | none => rfl
  | some name => exact h.function disk uri name

theorem completion (h : ws.Alike other) (disk : SourceReader) (uri : Uri) :
    (Query.completion ws disk uri).value = (Query.completion other disk uri).value := by
  unfold Query.completion
  dsimp only
  rw [(h.symbols disk uri).1]
  cases (other.symbols disk uri).value with
  | none => rfl
  | some symbols =>
    rcases h.cases uri with ⟨hd, he⟩ | ⟨d, e, hd, he, hview⟩
    · rw [hd, he]
    · have hlines : Text.lines d.chars = Text.lines e.chars := congrArg Prod.fst hview
      rw [hd, he]
      dsimp only [Query.completionItems]
      rw [h.settings, Identifier.harvest_congr hlines]

theorem signatureHelp (h : ws.Alike other) (disk : SourceReader) (uri : Uri) (position : Position) :
    (Query.signatureHelp ws disk uri position).value =
      (Query.signatureHelp other disk uri position).value := by
  unfold Query.signatureHelp
  rw [h.cursor?]
  split
  · rfl
  · next call _ => exact congrArg (Option.map _) (h.function disk uri call.callee)

theorem diagnostics (h : ws.Alike other) (disk : SourceReader) (uri : Uri) :
    (Query.diagnostics ws disk uri).value = (Query.diagnostics other disk uri).value := by
  unfold Query.diagnostics
  dsimp only
  rw [(h.symbols disk uri).1]
  cases (other.symbols disk uri).value with
  | none => rfl
  | some symbols =>
    rcases h.cases uri with ⟨hd, he⟩ | ⟨d, e, hd, he, hview⟩
    · rw [hd, he]
    · have hdiagnose : Query.diagnose ws.settings d = Query.diagnose other.settings e := by
        funext cycle
        unfold Query.diagnose
        rw [h.settings, Document.lineText_congr hview]
      rw [hd, he]
      exact congrArg symbols.cycles.map hdiagnose

/-- **Documents that cannot be told apart are answered for alike.** -/
theorem answers (h : ws.Alike other) (disk : SourceReader) : AnswersAlike disk ws other where
  symbols uri := (h.symbols disk uri).1
  completion uri := h.completion disk uri
  hover uri position := congrArg (Option.map _) (h.functionAt disk uri position)
  definition uri position := congrArg (·.bind Query.locate?) (h.functionAt disk uri position)
  signatureHelp uri position := h.signatureHelp disk uri position
  diagnostics uri := h.diagnostics disk uri

end Alike

end Workspace

/-- **Line endings do not matter.**  Put a carriage return before every line feed of a text that has no
other.  Its items, its words, the number of its rows and the text of each row stay what they were, and so
do all answers once it is open under some address, right away and after it was extracted. -/
theorem Document.line_endings (text : List Char) (h : '\r' ∉ text) :
    (∀ file, SourceItem.scan file (Text.withReturns text) = SourceItem.scan file text) ∧
      (∀ known, Identifier.harvest (Text.withReturns text) known = Identifier.harvest text known) ∧
      ∀ version, let returned : Document := ⟨String.ofList (Text.withReturns text), version⟩
        let plain : Document := ⟨String.ofList text, version⟩
        returned.lineCount = plain.lineCount ∧ (∀ i, returned.lineText i = plain.lineText i) ∧
          ∀ (ws : Workspace) (disk : SourceReader) (uri : Uri),
            let ws₁ := ws.openDocument uri returned
            let ws₂ := ws.openDocument uri plain
            ws₁.AnswersAlike disk ws₂ ∧
              (ws₁.refresh disk uri).value = (ws₂.refresh disk uri).value ∧
              (ws₁.refresh disk uri).state.AnswersAlike disk (ws₂.refresh disk uri).state := by
  have hlines := Text.lines_withReturns h
  refine ⟨fun file => SourceItem.scan_congr hlines file,
    fun known => Identifier.harvest_congr hlines known, fun version => ?_⟩
  have hview := view_withReturns h version version
  refine ⟨lineCount_congr hview, fun i => lineText_congr hview i, fun ws disk uri => ?_⟩
  have halike := Workspace.Alike.openDocument ws uri hview
  obtain ⟨hvalue, hstate⟩ := halike.refresh disk uri
  exact ⟨halike.answers disk, hvalue, hstate.answers disk⟩

/-- A module that requires itself, with an empty line and a last line that nothing ends: two carriage
returns come in, and what is found in it stays where it was. -/
theorem Document.line_endings_cycle :
    let text := "require a\n\ndef f(x)".toList
    let disk := SourceReader.ofFiles []
    let uri : Uri := ⟨"file:///w/a.das"⟩
    let returned := ({} : Workspace).openDocument uri ⟨String.ofList (Text.withReturns text), some 1⟩
    let plain := ({} : Workspace).openDocument uri ⟨String.ofList text, some 1⟩
    '\r' ∉ text ∧ (Text.withReturns text).length = text.length + 2 ∧
      (Query.diagnostics plain disk uri).value.map (·.range.stop) = [⟨0, 9⟩] ∧
      (Query.completion plain disk uri).value.map List.length = some 5 ∧
      returned.AnswersAlike disk plain := by
  intro text disk uri returned plain
  have hreturn : '\r' ∉ text := by decide
  obtain ⟨-, -, hdocument⟩ := Document.line_endings text hreturn
  exact ⟨hreturn, by decide, by decide +kernel, by decide +kernel,
    ((hdocument (some 1)).2.2 {} disk uri).1⟩

end ScriptIndex
