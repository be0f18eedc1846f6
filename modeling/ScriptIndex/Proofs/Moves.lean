import Mathlib.Logic.Relation
import ScriptIndex.Proofs.Findings

/-!
# What can be done with a workspace

Opening, closing and refreshing documents, announcing files, configuring and asking all come down to
four moves.  What every move keeps holds of every workspace that can be reached, and what no item of a
text can break is kept by every move.

* `Workspace.Moves`, `Workspace.Reaches` — one move, and any number of them;
* `Workspace.Reaches.preserves` — what every move keeps, any number of them keeps;
* `Workspace.symbols_reaches`, `Workspace.refresh_reaches`, `Workspace.close_reaches` — what is done
  with a workspace, in moves;
* `Workspace.Moves.linked` — the watchers stay in step with the entries;
* `Workspace.Reaches.entries` — what every item keeps holds of every entry.
-/

namespace ScriptIndex

/-! ## Moves -/

/-- One move of a workspace: documents are opened and closed, symbols are dropped because of a file or
extracted from one, or settings are put in use. -/
inductive Workspace.Moves (ws : Workspace) : Workspace → Prop
  | documents (documents : List OpenDocument) : Moves ws { ws with documents }
  | invalidated (file : Path) : Moves ws { ws with cache := (ws.cache.invalidate file).2 }
  | extracted (reader : SourceReader) (file : Path) (text : String) :
      Moves ws { ws with
        cache := (Extraction.extract ws.settings.naming reader file text ws.cache).state }
  | configured (settings : Settings) : Moves ws (ws.configure settings).state

/-- A workspace that some moves lead to. -/
abbrev Workspace.Reaches : Workspace → Workspace → Prop :=
  Relation.ReflTransGen Workspace.Moves

namespace Workspace

variable {ws later : Workspace}

/-- What every move keeps, any number of them keeps. -/
theorem Reaches.preserves {P : Workspace → Prop} (h : ws.Reaches later)
    (hmoves : ∀ ws later : Workspace, ws.Moves later → P ws → P later) (hws : P ws) : P later := by
  induction h with
  | refl => exact hws
  | tail _ hmove ih => exact hmoves _ _ hmove ih

theorem openDocument_reaches (ws : Workspace) (uri : Uri) (document : Document) :
    ws.Reaches (ws.openDocument uri document) :=
  .single (.documents _)

theorem symbols_reaches (ws : Workspace) (disk : SourceReader) (uri : Uri) :
    ws.Reaches (ws.symbols disk uri).state := by
  unfold symbols
  split
  · next file document _ _ =>
    unfold Extraction.symbolsFor
    rw [if_neg Bool.false_ne_true]
    split
    · exact .refl
    · exact .single (.extracted _ file document.text)
  · exact .refl

theorem refresh_reaches (ws : Workspace) (disk : SourceReader) (uri : Uri) :
    ws.Reaches (ws.refresh disk uri).state := by
  unfold refresh
  split
  · next file document _ _ =>
    exact .head (.invalidated file) (.single (.extracted (ws.reader disk) file document.text))
  · exact .refl

theorem close_reaches (ws : Workspace) (uri : Uri) : ws.Reaches (ws.close uri).state := by
  unfold close
  dsimp only
  split
  · exact .single (.documents _)
  · next file _ => exact .head (.documents _) (.single (.invalidated file))

/-- A question leaves a workspace as it is, or asks for the symbols of a document. -/
theorem question_reaches {disk : SourceReader} {uri : Uri}
    (hstate : later = ws ∨ later = (ws.symbols disk uri).state) : ws.Reaches later := by
  rcases hstate with rfl | rfl
  · exact .refl
  · exact ws.symbols_reaches disk uri

/-! ## What moves keep -/

/-- Every move keeps the watchers in step with the entries. -/
theorem Moves.linked (hmove : ws.Moves later) (h : ws.cache.Linked) :
    later.cache.Linked := by
  cases hmove with
  | documents documents => exact h
  | invalidated file => exact (SymbolCache.invalidate_pruned h file).linked
  | extracted reader file text =>
    obtain ⟨cache, hcache, hstate⟩ := @Extraction.visit_preserves ws.settings.naming reader
      SymbolCache.Linked (fun _ => True) (fun _ _ _ _ _ => trivial) (fun _ hcache => hcache.countScan)
      (fun target symbols _ _ _ _ _ hlater => hlater.insert target symbols)
      reader.limit [] file text ws.cache h
    show (Extraction.visit _ _ _ _ _ _ _).state.Linked
    rw [hstate]
    exact hcache.insert file _
  | configured settings =>
    unfold configure
    split
    · exact .empty ws.cache.scans
    · exact h

/-- **What every item keeps, every move keeps**, of all cached symbols.  It may depend on the naming in
use: where the settings name files otherwise than before, nothing is left in the cache. -/
theorem Moves.entries {Q : Naming → FileSymbols → Prop} (hempty : ∀ naming, Q naming {})
    (hadds : ∀ naming file item s s', Adds naming file item s s' → Q naming s → Q naming s')
    (hmove : ws.Moves later) (h : ∀ e ∈ ws.cache.entries, Q ws.settings.naming e.symbols) :
    ∀ e ∈ later.cache.entries, Q later.settings.naming e.symbols := by
  cases hmove with
  | documents documents => exact h
  | invalidated file => exact fun e he => h e (SymbolCache.sweep_subset _ _ _ e he)
  | extracted reader file text =>
    exact Extraction.extract_entries (hempty _) (hadds _) h file text
  | configured settings =>
    unfold configure
    split
    · intro e he
      cases he
    · next hsame =>
      intro e he
      show Q settings.naming e.symbols
      rw [Settings.naming_eq hsame]
      exact h e he

theorem Reaches.entries {Q : Naming → FileSymbols → Prop} (hempty : ∀ naming, Q naming {})
    (hadds : ∀ naming file item s s', Adds naming file item s s' → Q naming s → Q naming s')
    {settings : Settings} (h : Reaches { settings } later) :
    ∀ e ∈ later.cache.entries, Q later.settings.naming e.symbols := by
  refine h.preserves (fun _ _ hmove => hmove.entries hempty hadds) ?_
  intro e he
  cases he

end Workspace

end ScriptIndex
