import ScriptIndex.Proofs.Moves
import ScriptIndex.Proofs.Words

/-!
# Completions

The completions for a document are the functions in reach, in order, and then the other words of the
document.  No label is offered twice: a function takes the place of an earlier one of its name, a
required one comes in only if its name is free, and a word is left out if it is a function or was
offered before.  This rests on all cached symbols, which may be taken over by any file that is
extracted later, so it is followed through everything that can be done with a workspace.

* `FileSymbols.Distinct`, `FileSymbols.Distinct.adds` — no two functions of a file share their name,
  and no item of a text changes that;
* `WorkspaceStep`, `Workspace.afterSteps` — what can be done, and the workspaces it leads to;
* `Workspace.after_reaches`, `Workspace.afterSteps_distinct` — each step in moves, and what all have;
* `Query.Offers`, `Query.completion_offers` — every label once, and no word missing.
-/

namespace ScriptIndex

/-! ## Functions have names of their own -/

/-- No two functions share their name. -/
def FileSymbols.Distinct (symbols : FileSymbols) : Prop :=
  (symbols.functions.map Declaration.name).Nodup

namespace FileSymbols.Distinct

variable {symbols : FileSymbols}

theorem declare (h : symbols.Distinct) (d : Declaration) : (symbols.declare d).Distinct :=
  Keyed.nodup_put h

/-- A required function comes in only if its name is free. -/
theorem foldl_adoptOne {functions : List Declaration} (h : (functions.map Declaration.name).Nodup)
    (required : List Declaration) :
    ((required.foldl adoptOne functions).map Declaration.name).Nodup := by
  induction required generalizing functions with
  | nil => exact h
  | cons d rest ih =>
    apply ih
    unfold adoptOne
    split
    · exact h
    · next hfree =>
      rw [List.map_append, List.map_singleton, List.nodup_append]
      refine ⟨h, List.nodup_singleton _, ?_⟩
      intro name hname other hother heq
      -- a required function keeps its name
      have hsame : other = d.name := List.mem_singleton.mp hother
      rw [heq, hsame] at hname
      exact hfree (decide_eq_true hname)

/-- What one item adds keeps the names apart. -/
theorem adds {naming : Naming} {file : Path} {item : SourceItem} {symbols' : FileSymbols}
    (hadds : Adds naming file item symbols symbols') (h : symbols.Distinct) : symbols'.Distinct := by
  cases hadds with
  | declared => exact h.declare _
  | lookedFor isFile => exact h
  | circular found => exact h
  | followed found required =>
    unfold Distinct
    rw [takeOver_functions]
    exact foldl_adoptOne h required.functions

end FileSymbols.Distinct

/-- Asking for the symbols of a file gives names of their own if all cached symbols have them. -/
theorem Extraction.symbolsFor_distinct {naming : Naming} {reader : SourceReader} {cache : SymbolCache}
    (h : ∀ e ∈ cache.entries, e.symbols.Distinct) (file : Path) (text : String) :
    (symbolsFor naming reader false file text cache).value.Distinct := by
  unfold symbolsFor
  rw [if_neg Bool.false_ne_true]
  cases hget : cache.get? file with
  | some symbols =>
    obtain ⟨e, he, -, rfl⟩ := SymbolCache.mem_of_get? hget
    exact h e he
  | none => exact visit_value List.nodup_nil (fun _ _ _ _ hadds hs => hs.adds hadds) _ _ _

/-! ## Everything that can be done with a workspace -/

/-- One step: a document is opened, changed, closed or refreshed, a file is said to have changed,
settings are put in use, or something is asked.  What reads the disk comes with the disk it reads. -/
inductive WorkspaceStep where
  | openDocument (uri : Uri) (document : Document)
  | change (uri : Uri) (changes : List Change) (version : Option Int)
  | close (uri : Uri)
  | refresh (disk : SourceReader) (uri : Uri)
  | fileChanged (file : Path)
  | configure (settings : Settings)
  | symbols (disk : SourceReader) (uri : Uri)
  | completion (disk : SourceReader) (uri : Uri)
  | hover (disk : SourceReader) (uri : Uri) (position : Position)
  | definition (disk : SourceReader) (uri : Uri) (position : Position)
  | signatureHelp (disk : SourceReader) (uri : Uri) (position : Position)
  | diagnostics (disk : SourceReader) (uri : Uri)

namespace Workspace

/-- The workspace after a step.  A document that is not open cannot be changed. -/
def after (ws : Workspace) : WorkspaceStep → Workspace
  | .openDocument uri document => ws.openDocument uri document
  | .change uri changes version =>
    match ws.document? uri with
    | some document => ws.openDocument uri { document.applyAll changes with version }
    | none => ws
  | .close uri => (ws.close uri).state
  | .refresh disk uri => (ws.refresh disk uri).state
  | .fileChanged file => (ws.fileChanged file).state
  | .configure settings => (ws.configure settings).state
  | .symbols disk uri => (ws.symbols disk uri).state
  | .completion disk uri => (Query.completion ws disk uri).state
  | .hover disk uri position => (Query.hover ws disk uri position).state
  | .definition disk uri position => (Query.definition ws disk uri position).state
  | .signatureHelp disk uri position => (Query.signatureHelp ws disk uri position).state
  | .diagnostics disk uri => (Query.diagnostics ws disk uri).state

/-- The workspace after some steps, starting with nothing open and nothing cached. -/
def afterSteps (settings : Settings) (steps : List WorkspaceStep) : Workspace :=
  steps.foldl after { settings }

/-- **One step** is a sequence of moves. -/
theorem after_reaches (ws : Workspace) (step : WorkspaceStep) : ws.Reaches (ws.after step) := by
  cases step with
  | openDocument uri document => exact ws.openDocument_reaches uri document
  | change uri changes version =>
    show ws.Reaches (match ws.document? uri with | some _ => _ | none => _)
    split
    · exact ws.openDocument_reaches uri _
    · exact .refl
  | close uri => exact ws.close_reaches uri
  | refresh disk uri => exact ws.refresh_reaches disk uri
  | fileChanged file => exact .single (.invalidated file)
  | configure settings => exact .single (.configured settings)
  | symbols disk uri => exact ws.symbols_reaches disk uri
  | completion disk uri => exact question_reaches (Or.inr (Query.completion_state ws disk uri))
  | hover disk uri position => exact question_reaches (Query.functionAt_state ws disk uri position)
  | definition disk uri position => exact question_reaches (Query.functionAt_state ws disk uri position)
  | signatureHelp disk uri position =>
    exact question_reaches (Query.signatureHelp_state ws disk uri position)
  | diagnostics disk uri => exact question_reaches (Or.inr (Query.diagnostics_state ws disk uri))

theorem afterSteps_reaches (settings : Settings) (steps : List WorkspaceStep) :
    Reaches { settings } (afterSteps settings steps) :=
  List.foldlRecOn steps after (motive := fun ws => Reaches { settings } ws) .refl
    fun ws hws step _ => hws.trans (ws.after_reaches step)

/-- No two functions of any cached file share their name. -/
theorem afterSteps_distinct (settings : Settings) (steps : List WorkspaceStep) :
    ∀ e ∈ (afterSteps settings steps).cache.entries, e.symbols.Distinct :=
  (afterSteps_reaches settings steps).entries (Q := fun _ symbols => symbols.Distinct)
    (fun _ => List.nodup_nil) fun _ _ _ _ _ hadds hs => hs.adds hadds

end Workspace

/-! ## What is offered -/

namespace Query

/-- A list of completions as it has to be: every label once, the functions first and in order, no
word of the text missing if words are to be offered, and none that is not in the text. -/
structure Offers (settings : Settings) (symbols : FileSymbols) (text : List Char)
    (items : List CompletionItem) : Prop where
  distinct : (items.map CompletionItem.label).Nodup
  functionsFirst : ∃ words : List String, items =
    symbols.functions.map (fun d => .function d.name d.signature d.markdown) ++ words.map .word
  complete : settings.identifierCompletions = true → ∀ word, Identifier.IsRun word text →
    (items.map CompletionItem.label).count (String.ofList word) = 1
  genuine : ∀ word, .word (String.ofList word) ∈ items → Identifier.IsRun word text

theorem map_label_completionItems (settings : Settings) (symbols : FileSymbols) (text : List Char) :
    (completionItems settings symbols text).map CompletionItem.label =
      symbols.functions.map Declaration.name ++ (if settings.identifierCompletions then
        Identifier.harvest text (symbols.functions.map Declaration.name) else []) := by
  unfold completionItems
  simp only [List.map_append, List.map_map]
  congr 1
  exact List.map_id _

/-- The completions for symbols with names of their own. -/
theorem completionItems_offers {symbols : FileSymbols} (h : symbols.Distinct) (settings : Settings)
    (text : List Char) : Offers settings symbols text (completionItems settings symbols text) := by
  have hlabels := map_label_completionItems settings symbols text
  have hdistinct : ((completionItems settings symbols text).map CompletionItem.label).Nodup := by
    rw [hlabels, List.nodup_append]
    refine ⟨h, ?_, ?_⟩
    · split
      · exact Identifier.nodup_harvest _ _
      · exact List.nodup_nil
    · intro name hname word hword heq
      split at hword
      · rw [← String.ofList_toList (s := word)] at hword
        exact (Identifier.mem_harvest.mp hword).2 (by simpa [← heq] using hname)
      · cases hword
  refine ⟨hdistinct, ⟨_, rfl⟩, ?_, ?_⟩
  · intro hon word hword
    rw [hdistinct.count, if_pos]
    rw [hlabels, if_pos hon, List.mem_append]
    by_cases hknown : String.ofList word ∈ symbols.functions.map Declaration.name
    · exact Or.inl hknown
    · exact Or.inr (Identifier.mem_harvest.mpr ⟨hword, hknown⟩)
  · intro word hword
    unfold completionItems at hword
    rcases List.mem_append.mp hword with hword | hword
    · obtain ⟨d, -, hd⟩ := List.mem_map.mp hword
      cases hd
    · obtain ⟨found, hfound, heq⟩ := List.mem_map.mp hword
      rw [CompletionItem.word.inj heq] at hfound
      split at hfound
      · exact (Identifier.mem_harvest.mp hfound).1
      · cases hfound

/-- **Every label once, and no word missing.**  Whatever was done with a workspace before, the
completions for an open file are its functions in order and then its other words, without a
duplicate; and if words are to be offered, each of them is the label of one item. -/
theorem completion_offers (settings : Settings) (steps : List WorkspaceStep) (disk : SourceReader)
    {uri : Uri} {file : Path} {document : Document} (hfile : uri.toPath? = some file)
    (hopen : (Workspace.afterSteps settings steps).document? uri = some document) :
    let ws := Workspace.afterSteps settings steps
    ∃ symbols items, (ws.symbols disk uri).value = some symbols ∧
      (completion ws disk uri).value = some items ∧ Offers ws.settings symbols document.chars items := by
  intro ws
  have hvalue : (ws.symbols disk uri).value = some (Extraction.symbolsFor ws.settings.naming
      (ws.reader disk) false file document.text ws.cache).value := by
    simp only [Workspace.symbols, hfile, ws, hopen]
  refine ⟨_, _, hvalue, ?_, completionItems_offers ?_ ws.settings document.chars⟩
  · simp only [completion, hvalue, ws, hopen]
  · exact Extraction.symbolsFor_distinct (Workspace.afterSteps_distinct settings steps) _ _

/-- A file that declares again what it requires, after it was changed and asked about: `f` is offered
once, in the place of its first declaration, and so is every word that stands in the text twice. -/
theorem completion_offers_redeclared :
    let uri : Uri := ⟨"file:///w/a.das"⟩
    let disk := SourceReader.ofFiles [⟨.ofString "/w/b.das", some "def f(x)\ndef g()\ndef f()"⟩]
    let document : Document := { text := "require b\r\ndef f()\nf_1 g f_1", version := some 2 }
    let steps := [WorkspaceStep.openDocument uri { text := "require b" }, .refresh disk uri,
      .change uri [⟨none, document.text⟩] (some 2), .refresh disk uri, .diagnostics disk uri]
    let ws := Workspace.afterSteps {} steps
    uri.toPath? = some (.ofString "/w/a.das") ∧ ws.document? uri = some document ∧
      ((completion ws disk uri).value.map fun items => items.map CompletionItem.label) =
        some ["f", "g", "require", "b", "def", "f_1"] ∧
      Identifier.IsRun "f_1".toList document.chars ∧
      ∃ symbols items, (ws.symbols disk uri).value = some symbols ∧
        (completion ws disk uri).value = some items ∧
        Offers ws.settings symbols document.chars items := by
  intro uri disk document steps ws
  have hfile : uri.toPath? = some (.ofString "/w/a.das") := by decide +kernel
  have hopen : ws.document? uri = some document := by decide +kernel
  have hrun : Identifier.IsRun "f_1".toList document.chars :=
    Identifier.mem_words_iff.mp (by decide +kernel)
  exact ⟨hfile, hopen, by decide +kernel, hrun, completion_offers {} steps disk hfile hopen⟩

end Query

end ScriptIndex
