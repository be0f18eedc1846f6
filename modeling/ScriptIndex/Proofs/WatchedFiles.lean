import ScriptIndex.Proofs.ChangeOrder
import ScriptIndex.Proofs.Extensions
import ScriptIndex.Proofs.Moves
import ScriptIndex.Proofs.Publishing

/-!
# Changes to watched files

The server is told of changes on the disk by address and passes over what is no source file.  What the
cached symbols depend on are the paths their entries watch, and only candidates of modules are watched.
So no change that matters is passed over as long as candidates are source files.

* `Server.handle_reaches`, `Conversation.after_reaches` — what a message and a conversation do to a
  workspace, in moves;
* `Conversation.watchesCandidates` — only candidates are watched;
* `Server.noteAll_unwatched` — what is left once the changes of a message are noted;
* `Conversation.notices_watched` — candidates are source files, and changes to them are noted;
* `Conversation.misses_watched` — an extension with a dot in it.
-/

namespace ScriptIndex

/-! ## What a message can do -/

namespace Server

theorem publishAll_reaches (disk : SourceReader) (ws : Workspace) (uris : List Uri) :
    ws.Reaches (publishAll disk ws uris).state := by
  induction uris generalizing ws with
  | nil => exact .refl
  | cons uri rest ih =>
    have hfirst : ws.Reaches (publish disk ws uri).state := by
      show ws.Reaches (Query.diagnostics ws disk uri).state
      rw [Query.diagnostics_state]
      exact ws.symbols_reaches disk uri
    exact hfirst.trans (ih _)

theorem refreshAndPublish_reaches (disk : SourceReader) (ws : Workspace) (uri : Uri) :
    ws.Reaches (refreshAndPublish disk ws uri).state :=
  (ws.refresh_reaches disk uri).trans (publishAll_reaches disk _ _)

theorem configureFrom_reaches (ws : Workspace) (json : Json) :
    ws.Reaches (configureFrom ws json).state := by
  unfold configureFrom
  rcases Settings.ofJson json with fault | (_ | settings)
  · exact .refl
  · exact .refl
  · exact .single (.configured settings)

theorem start_reaches (ws : Workspace) (hello : Hello) : ws.Reaches (start ws hello).state := by
  unfold start
  dsimp only
  split
  · exact .refl
  · next json _ => exact configureFrom_reaches ws json

theorem change_reaches (disk : SourceReader) (ws : Workspace) (uri : Uri) (version : Int)
    (changes : List Change) : ws.Reaches (change disk ws uri version changes).state := by
  unfold change
  split
  · exact .refl
  · exact (ws.openDocument_reaches uri _).trans (refreshAndPublish_reaches disk _ uri)

theorem reconfigure_reaches (disk : SourceReader) (ws : Workspace) (json : Json) :
    ws.Reaches (reconfigure disk ws json).state := by
  unfold reconfigure
  dsimp only
  split
  · exact .refl
  · exact (configureFrom_reaches ws json).trans (publishAll_reaches disk _ _)

theorem noteChange_reaches (soFar : Outcome Workspace (List Uri)) (uri : Uri) :
    soFar.state.Reaches (noteChange soFar uri).state := by
  unfold noteChange
  split
  · exact .refl
  · next file _ => exact .single (.invalidated file)

theorem noteAll_reaches (ws : Workspace) (uris : List Uri) : ws.Reaches (noteAll ws uris).state :=
  noteAll_induction (P := fun soFar => ws.Reaches soFar.state) ws uris .refl
    fun soFar uri hsoFar => hsoFar.trans (noteChange_reaches soFar uri)

theorem filesChanged_reaches (disk : SourceReader) (ws : Workspace) (uris : List Uri) :
    ws.Reaches (filesChanged disk ws uris).state :=
  (noteAll_reaches ws uris).trans (publishAll_reaches disk _ _)

/-- **One message** is a sequence of moves. -/
theorem handle_reaches (disk : SourceReader) (ws : Workspace) (message : ClientMessage) :
    ws.Reaches (handle disk ws message).state := by
  cases message with
  | hello hello => exact start_reaches ws hello
  | ready => exact .refl
  | shutdown => exact .refl
  | didOpen uri version text =>
    exact (ws.openDocument_reaches uri _).trans (refreshAndPublish_reaches disk _ uri)
  | didChange uri version changes => exact change_reaches disk ws uri version changes
  | didSave uri => exact refreshAndPublish_reaches disk ws uri
  | didClose uri => exact ws.close_reaches uri
  | didChangeConfiguration settings => exact reconfigure_reaches disk ws settings
  | didChangeWatchedFiles uris => exact filesChanged_reaches disk ws uris
  | completion uri => exact Workspace.question_reaches (Or.inr (Query.completion_state ..))
  | hover uri position => exact Workspace.question_reaches (Query.functionAt_state ..)
  | definition uri position => exact Workspace.question_reaches (Query.functionAt_state ..)
  | signatureHelp uri position => exact Workspace.question_reaches (Query.signatureHelp_state ..)

end Server

/-- A conversation is a sequence of moves. -/
theorem Conversation.after_reaches (settings : Settings) (turns : List Turn) :
    Workspace.Reaches { settings } (after settings turns).workspace :=
  List.foldlRecOn turns Conversation.next
    (motive := fun c => Workspace.Reaches { settings } c.workspace) .refl
    fun c hc turn _ => hc.trans (Server.handle_reaches turn.disk c.workspace turn.message)

/-- Only candidates are watched throughout a conversation. -/
theorem Conversation.watchesCandidates (settings : Settings) (turns : List Turn) :
    let ws := (after settings turns).workspace
    ∀ e ∈ ws.cache.entries, e.symbols.WatchesCandidates ws.settings.naming :=
  (after_reaches settings turns).entries (Q := fun naming symbols => symbols.WatchesCandidates naming)
    (fun _ _ hw => by cases hw) fun _ _ _ _ _ hadds => hadds.watchesCandidates

/-! ## What is noted -/

/-- Dropping some files takes entries away and changes none. -/
theorem SymbolCache.mem_of_invalidateEach {cache : SymbolCache} {paths : List Path} {e : CacheEntry}
    (h : e ∈ (cache.invalidateEach paths).2.entries) : e ∈ cache.entries := by
  induction paths generalizing cache with
  | nil => exact h
  | cons p rest ih => exact sweep_subset _ _ _ e (ih h)

/-- Once some files are dropped, no entry is left that watches one of them. -/
theorem SymbolCache.invalidateEach_unwatched {cache : SymbolCache} (hlinked : cache.Linked)
    {paths : List Path} {file : Path} (hfile : file ∈ paths) {e : CacheEntry}
    (he : e ∈ (cache.invalidateEach paths).2.entries) : file.isIn e.symbols.watched = false := by
  induction paths generalizing cache with
  | nil => cases hfile
  | cons p rest ih =>
    have hpruned := invalidate_pruned hlinked p
    rcases List.mem_cons.mp hfile with rfl | hrest
    · rw [Bool.eq_false_iff]
      exact fun hwatched => hpruned.unwatched e (mem_of_invalidateEach he) file hwatched rfl
    · exact ih hpruned.linked hrest he

/-- **A change that is not passed over is noted**, whatever else the message tells of. -/
theorem Server.noteAll_unwatched {ws : Workspace} (hlinked : ws.cache.Linked) {uris : List Uri}
    {uri : Uri} (huri : uri ∈ uris) {file : Path} (hchanged : changedFile? ws uri = some file)
    {e : CacheEntry} (he : e ∈ (noteAll ws uris).state.cache.entries) :
    file.isIn e.symbols.watched = false := by
  unfold noteAll at he
  rw [(foldl_noteChange uris _).1] at he
  exact SymbolCache.invalidateEach_unwatched hlinked (List.mem_filterMap.mpr ⟨uri, huri, hchanged⟩) he

namespace Conversation

/-- **Changes to what is watched are noted.**  Candidates of a module that leads to a name are source
files if the extension can be read off them, and, unless it is empty, only then.  Now take a workspace
after any messages.  Whatever an entry of its cache watches is a candidate, and if its module leads to
a name and the extension can be read off it, a change to it is not passed over, unless it is open: once
a message that tells of the change is noted, no entry is left that watches it. -/
theorem notices_watched (start : Settings) (turns : List Turn) :
    (∀ (settings : Settings) (dir : Path) (module : String),
        (dir.join (.ofString module)).normalize.HasName →
        (settings.Readable →
          ∀ p ∈ settings.naming.candidates dir module, settings.isSourceFile p = true) ∧
        (settings.fileExtension ≠ "" →
          (∀ p ∈ settings.naming.candidates dir module, settings.isSourceFile p = true) →
          settings.Readable)) ∧
      let ws := (after start turns).workspace
      ∀ e ∈ ws.cache.entries, ∀ w ∈ e.symbols.watched,
        (∃ dir module, w ∈ ws.settings.naming.candidates dir module) ∧
        ∀ dir module, w ∈ ws.settings.naming.candidates dir module →
          (dir.join (.ofString module)).normalize.HasName → ws.settings.Readable →
          ∀ uris, ∀ uri ∈ uris, ∀ file, ws.isOpen uri = false → uri.toPath? = some file →
            file.components = w.components →
            Server.changedFile? ws uri = some file ∧
              ∀ e' ∈ (Server.noteAll ws uris).state.cache.entries,
                w.isIn e'.symbols.watched = false := by
  refine ⟨fun settings dir module hnamed =>
    ⟨fun hreadable p hp => hreadable.isSourceFile hnamed hp,
      fun hne hall => Settings.readable_of_candidates hne hall⟩, ?_⟩
  intro ws e he w hw
  refine ⟨watchesCandidates start turns e he w hw, ?_⟩
  intro dir module hcandidate hnamed hreadable uris uri huri file hclosed hfile hsame
  have hsource : ws.settings.isSourceFile file = true := by
    rw [Settings.isSourceFile_congr hsame]
    exact hreadable.isSourceFile hnamed hcandidate
  have hchanged : Server.changedFile? ws uri = some file := by
    unfold Server.changedFile?
    rw [hclosed, if_neg Bool.false_ne_true, hfile, Option.filter_some, if_pos hsource]
  have hlinked : ws.cache.Linked :=
    (after_reaches start turns).preserves (fun _ _ => Workspace.Moves.linked) (.empty 0)
  refine ⟨hchanged, fun e' he' => ?_⟩
  rw [← Path.isIn_congr hsame]
  exact Server.noteAll_unwatched hlinked huri hchanged he'

/-- Settings that are sent with a dot in front of the extension, and a module in another directory whose
name has a dot in it and a file that is not there yet. -/
theorem notices_watched_missing :
    let disk := SourceReader.ofFiles []
    let turns : List Turn := [
      ⟨disk, .didChangeConfiguration (.obj [("symbols", .obj [("fileExtension", .str ".gen")])])⟩,
      ⟨disk, .didOpen ⟨"file:///p/a.gen"⟩ 1 "require ../q/m.v1"⟩]
    let ws := (after {} turns).workspace
    let uri : Uri := ⟨"file:///q/m.v1.gen"⟩
    let w := Path.ofString "/q/m.v1.gen"
    ws.settings.Readable ∧ (∃ e ∈ ws.cache.entries, w ∈ e.symbols.watched) ∧
      Server.changedFile? ws uri = some w ∧
      ∀ e' ∈ (Server.noteAll ws [uri]).state.cache.entries, w.isIn e'.symbols.watched = false := by
  intro disk turns ws uri w
  have hreadable : ws.settings.Readable :=
    ⟨by decide +kernel, by decide +kernel, by decide +kernel⟩
  have hwatched : ∃ e ∈ ws.cache.entries, w ∈ e.symbols.watched := by decide +kernel
  have hnamed : ((Path.ofString "/p").join (.ofString "../q/m.v1")).normalize.HasName :=
    ⟨Text.encode "m.v1".toList, by decide +kernel⟩
  obtain ⟨e, he, hw⟩ := hwatched
  exact ⟨hreadable, ⟨e, he, hw⟩, ((notices_watched {} turns).2 e he w hw).2 (.ofString "/p") "../q/m.v1"
    (by decide +kernel) hnamed hreadable [uri] uri List.mem_cons_self w (by decide +kernel)
    (by decide +kernel) rfl⟩

/-- With a dot inside the extension, no candidate is a source file, and the change that brings the file
of a module is passed over. -/
theorem misses_watched :
    (¬ ∀ (json : Json) (settings : Settings), Settings.ofJson? json = some settings →
      ∀ (dir : Path) (module : String), (dir.join (.ofString module)).normalize.HasName →
        ∀ p ∈ settings.naming.candidates dir module, settings.isSourceFile p = true) ∧
      let disk := SourceReader.ofFiles []
      let turns : List Turn := [
        ⟨disk, .didChangeConfiguration (.obj [("symbols", .obj [("fileExtension", .str "gen.das")])])⟩,
        ⟨disk, .didOpen ⟨"file:///p/a.gen.das"⟩ 1 "require m"⟩]
      let ws := (after {} turns).workspace
      (∃ e ∈ ws.cache.entries, Path.ofString "/p/m.gen.das" ∈ e.symbols.watched) ∧
        ws.isOpen ⟨"file:///p/m.gen.das"⟩ = false ∧
        Server.changedFile? ws ⟨"file:///p/m.gen.das"⟩ = none := by
  refine ⟨fun h => ?_, by decide +kernel, by decide +kernel, by decide +kernel⟩
  have hsource := h (.obj [("symbols", .obj [("fileExtension", .str "gen.das")])])
    { fileExtension := "gen.das" } (by decide +kernel) (.ofString "/p") "m"
    ⟨Text.encode "m".toList, by decide +kernel⟩ (.ofString "/p/m.gen.das") (by decide +kernel)
  revert hsource
  decide +kernel

end Conversation

end ScriptIndex
