import ScriptIndex.Proofs.DiskChanges
import ScriptIndex.Proofs.OpenDocuments
import ScriptIndex.Query

/-!
# Sessions

An editor works on a workspace while files change on the disk.  A session is the state of both; a run
is a sequence of actions and of changes on the disk from an empty cache, each of them in the form the
index is to be told of it: a changed document is refreshed, and a changed file is announced unless it
is open.  A disk is whatever answers, so it may follow links and know a file under several paths.

* `Action`, `Session.step`, `Session.changeDisk` — what can happen and what becomes of the session;
* `Session.Run` — the sessions that can be reached by some changes of the disk and through sessions
  with some property;
* `Session.Confined` — a change that shows under the paths of one file alone;
* `Session.Kept.step`, `Session.Kept.changeDisk`, `Session.Run.kept` — what every action and every such
  change keep, and what every run has;
* `Session.Written`, `Session.Run.confined` — a file of a tree is written or removed, which concerns no
  other path as long as no ending leads elsewhere;
* `TreeSession.Plays`, `TreeSession.run_play` — runs on a tree that can be checked by playing them.
-/

namespace ScriptIndex

/-- What an editor can do, and what a workspace can be told. -/
inductive Action where
  /-- A document is opened and refreshed. -/
  | openDocument (uri : Uri) (document : Document)
  /-- An open document is changed and refreshed. -/
  | edit (uri : Uri) (changes : List Change) (version : Option Int)
  | close (uri : Uri)
  /-- A file is said to have changed. -/
  | announce (file : Path)
  | configure (settings : Settings)
  | symbols (uri : Uri)
  /-- A document is refreshed, changed or not. -/
  | refresh (uri : Uri)
  | completion (uri : Uri)
  | hover (uri : Uri) (position : Position)
  | definition (uri : Uri) (position : Position)
  | signatureHelp (uri : Uri) (position : Position)
  | diagnostics (uri : Uri)

/-- A workspace and what the disk answers. -/
structure Session where
  workspace : Workspace
  disk : SourceReader

namespace Session

/-- The naming in use. -/
def naming (s : Session) : Naming :=
  s.workspace.settings.naming

/-- What is read at present: open documents before the disk. -/
def reader (s : Session) : SourceReader :=
  s.workspace.reader s.disk

/-- Puts a document in place and refreshes it. -/
def place (s : Session) (uri : Uri) (document : Document) : Session :=
  { s with workspace := ((s.workspace.openDocument uri document).refresh s.disk uri).state }

/-- The session after an action. -/
def step (s : Session) : Action → Session
  | .openDocument uri document => s.place uri document
  | .edit uri changes version =>
    match s.workspace.document? uri with
    | some document => s.place uri { document.applyAll changes with version }
    | none => s
  | .close uri => { s with workspace := (s.workspace.close uri).state }
  | .announce file => { s with workspace := (s.workspace.fileChanged file).state }
  | .configure settings => { s with workspace := (s.workspace.configure settings).state }
  | .symbols uri => { s with workspace := (s.workspace.symbols s.disk uri).state }
  | .refresh uri => { s with workspace := (s.workspace.refresh s.disk uri).state }
  | .completion uri => { s with workspace := (Query.completion s.workspace s.disk uri).state }
  | .hover uri position =>
    { s with workspace := (Query.hover s.workspace s.disk uri position).state }
  | .definition uri position =>
    { s with workspace := (Query.definition s.workspace s.disk uri position).state }
  | .signatureHelp uri position =>
    { s with workspace := (Query.signatureHelp s.workspace s.disk uri position).state }
  | .diagnostics uri => { s with workspace := (Query.diagnostics s.workspace s.disk uri).state }

/-- The session after `file` changed on the disk, which is announced unless the file is open. -/
def changeDisk (s : Session) (file : Path) (disk : SourceReader) : Session where
  workspace :=
    if (s.workspace.documentAt? file).isSome then s.workspace
    else (s.workspace.fileChanged file).state
  disk := disk

/-- An action leaves the disk as it is. -/
theorem disk_step (s : Session) (action : Action) : (s.step action).disk = s.disk := by
  cases action with
  | edit uri changes version =>
    simp only [step]
    split <;> rfl
  | _ => rfl

/-- Documents are opened under the address of a path; any other action can happen at any time. -/
def Allows : Action → Prop
  | .openDocument uri _ => ∃ p, Uri.ofPath? p = some uri
  | _ => True

/-- The sessions that are reached from an empty workspace over any disk, if all sessions on the way
are `ok`; `changes` says what the disk can answer after a file has changed. -/
inductive Run (changes : Session → Path → SourceReader → Prop) (ok : Session → Prop) :
    Session → Prop where
  | start {settings : Settings} {disk : SourceReader} (isOk : ok ⟨{ settings }, disk⟩) :
      Run changes ok ⟨{ settings }, disk⟩
  | step {s : Session} {action : Action} (run : Run changes ok s) (allowed : Allows action)
      (isOk : ok (s.step action)) : Run changes ok (s.step action)
  | change {s : Session} {file : Path} {disk : SourceReader} (run : Run changes ok s)
      (changed : changes s file disk) (isOk : ok (s.changeDisk file disk)) :
      Run changes ok (s.changeDisk file disk)

/-- A change of a file that shows under its own paths alone: every other path that can be asked for is
answered as before. -/
def Confined (s : Session) (file : Path) (disk : SourceReader) : Prop :=
  s.disk.AgreeOff file.SameFile s.naming.Asks disk s.naming.Asks

end Session

/-! ## What questions do to a workspace -/

namespace Query

variable (ws : Workspace) (disk : SourceReader) (uri : Uri)

theorem completion_state : (completion ws disk uri).state = (ws.symbols disk uri).state := by
  unfold completion
  dsimp only
  split <;> rfl

theorem diagnostics_state : (diagnostics ws disk uri).state = (ws.symbols disk uri).state := by
  unfold diagnostics
  dsimp only
  split <;> rfl

theorem functionAt_state (position : Position) :
    (functionAt ws disk uri position).state = ws ∨
      (functionAt ws disk uri position).state = (ws.symbols disk uri).state := by
  unfold functionAt
  split
  · exact Or.inl rfl
  · exact Or.inr rfl

theorem signatureHelp_state (position : Position) :
    (signatureHelp ws disk uri position).state = ws ∨
      (signatureHelp ws disk uri position).state = (ws.symbols disk uri).state := by
  unfold signatureHelp
  split
  · exact Or.inl rfl
  · exact Or.inr rfl

end Query

/-! ## What is kept -/

namespace Session

/-- Every open document is a file, and the cache is sound. -/
structure Kept (loops : Path → Path → Prop) (s : Session) : Prop where
  files : ∀ uri, (s.workspace.document? uri).isSome = true → ∃ p, Uri.ofPath? p = some uri
  sound : Sound s.naming s.reader s.workspace.Asked loops s.workspace.cache

variable {s : Session} {loops : Path → Path → Prop}

theorem regular (hdisk : s.disk.Regular s.naming s.naming.Asks) :
    s.reader.Regular s.naming s.workspace.Asked :=
  Workspace.reader_regular hdisk

/-- A workspace of which only the cache was touched. -/
theorem Kept.of_cache {ws : Workspace} {disk : SourceReader} {cache : SymbolCache}
    (hfiles : ∀ uri, (ws.document? uri).isSome = true → ∃ p, Uri.ofPath? p = some uri)
    (hsound : Sound ws.settings.naming (ws.reader disk) ws.Asked loops cache) :
    Kept loops ⟨{ ws with cache }, disk⟩ :=
  ⟨hfiles, hsound⟩

namespace Kept

theorem place (h : Kept loops s) (hdisk : s.disk.Regular s.naming s.naming.Asks) {uri : Uri}
    {document : Document} (huri : ∃ p, Uri.ofPath? p = some uri)
    (hloops : LoopsAre (s.place uri document).naming (s.place uri document).reader (fun _ => True)
      loops) : Kept loops (s.place uri document) := by
  obtain ⟨p, hp⟩ := huri
  let placed := s.workspace.openDocument uri document
  have hdocument := s.workspace.document?_openDocument uri document
  have hagree : s.reader.AgreeOff (fun q => Uri.ofPath? q = some uri) s.workspace.Asked
      (placed.reader s.disk) placed.Asked :=
    @Workspace.agreeOff_documents s.workspace placed rfl uri
      (fun u hu => (hdocument u).trans (if_neg hu.symm)) s.disk
  obtain ⟨cache, hstate⟩ := placed.refresh_state s.disk uri
  have hplaced : s.place uri document = ⟨{ placed with cache }, s.disk⟩ := by
    rw [← hstate]
    rfl
  rw [hplaced] at hloops ⊢
  have hregular' : (placed.reader s.disk).Regular placed.settings.naming placed.Asked :=
    @Workspace.reader_regular placed s.disk hdisk
  have hopen : placed.document? uri = some document := (hdocument uri).trans (if_pos rfl)
  have hsound : Sound placed.settings.naming (placed.reader s.disk) placed.Asked loops
      (placed.refresh s.disk uri).state.cache :=
    Workspace.sound_refresh (regular hdisk) hregular' hloops hp hopen hagree h.sound
  rw [hstate] at hsound
  refine .of_cache (fun u hu => ?_) hsound
  by_cases heq : uri = u
  · exact ⟨p, heq ▸ hp⟩
  · rw [hdocument u, if_neg heq] at hu
    exact h.files u hu

theorem symbols (h : Kept loops s) (hdisk : s.disk.Regular s.naming s.naming.Asks)
    (hloops : LoopsAre s.naming s.reader (fun _ => True) loops) (uri : Uri) :
    Kept loops { s with workspace := (s.workspace.symbols s.disk uri).state } := by
  obtain ⟨cache, hstate⟩ := s.workspace.symbols_state s.disk uri
  have hsound := Workspace.sound_symbols (regular hdisk) hloops (h.files uri) h.sound
  rw [hstate] at hsound ⊢
  exact .of_cache h.files hsound

theorem refresh (h : Kept loops s) (hdisk : s.disk.Regular s.naming s.naming.Asks)
    (hloops : LoopsAre s.naming s.reader (fun _ => True) loops) (uri : Uri) :
    Kept loops { s with workspace := (s.workspace.refresh s.disk uri).state } := by
  cases hopen : s.workspace.document? uri with
  | none =>
    have hstate : (s.workspace.refresh s.disk uri).state = s.workspace := by
      unfold Workspace.refresh
      rw [hopen]
      cases uri.toPath? <;> rfl
    rw [hstate]
    exact h
  | some document =>
    obtain ⟨p, hp⟩ := h.files uri (by rw [hopen]; rfl)
    obtain ⟨cache, hstate⟩ := s.workspace.refresh_state s.disk uri
    have hsound := Workspace.sound_refresh (regular hdisk) (regular hdisk) hloops hp hopen .refl h.sound
    rw [hstate] at hsound ⊢
    exact .of_cache h.files hsound

theorem close (h : Kept loops s) (hdisk : s.disk.Regular s.naming s.naming.Asks) (uri : Uri) :
    Kept loops { s with workspace := (s.workspace.close uri).state } := by
  refine ⟨fun u hu => ?_, ?_⟩
  · rw [Workspace.document?_close] at hu
    split at hu
    · cases hu
    · exact h.files u hu
  · show Sound (s.workspace.close uri).state.settings.naming _ _ loops _
    rw [Workspace.settings_close]
    exact Workspace.sound_close (regular hdisk) h.sound

theorem configure (h : Kept loops s) (settings : Settings) :
    Kept loops { s with workspace := (s.workspace.configure settings).state } := by
  refine ⟨fun u hu => ?_, ?_⟩
  · rw [Workspace.document?_configure] at hu
    exact h.files u hu
  · show Sound (s.workspace.configure settings).state.settings.naming _ _ loops _
    rw [Workspace.settings_configure]
    exact Workspace.sound_configure settings h.sound

/-- A question leaves a workspace as it is, or asks for the symbols of a document. -/
theorem asked (h : Kept loops s) (hdisk : s.disk.Regular s.naming s.naming.Asks)
    (hloops : LoopsAre s.naming s.reader (fun _ => True) loops) {uri : Uri} {ws : Workspace}
    (hws : ws = s.workspace ∨ ws = (s.workspace.symbols s.disk uri).state) :
    Kept loops { s with workspace := ws } := by
  rcases hws with rfl | rfl
  · exact h
  · exact h.symbols hdisk hloops uri

/-- **What every action keeps.** -/
theorem step (h : Kept loops s) {action : Action} (hdisk : s.disk.Regular s.naming s.naming.Asks)
    (hloops : LoopsAre s.naming s.reader (fun _ => True) loops) (hallowed : Allows action)
    (hloops' : LoopsAre (s.step action).naming (s.step action).reader (fun _ => True) loops) :
    Kept loops (s.step action) := by
  cases action with
  | openDocument uri document => exact h.place hdisk hallowed hloops'
  | edit uri changes version =>
    unfold Session.step at hloops' ⊢
    cases hopen : s.workspace.document? uri with
    | none => simpa only [hopen] using h
    | some document =>
      simp only [hopen] at hloops' ⊢
      exact h.place hdisk (h.files uri (by rw [hopen]; rfl)) hloops'
  | close uri => exact h.close hdisk uri
  | announce file => exact ⟨h.files, h.sound.invalidate (regular hdisk) .refl⟩
  | configure settings => exact h.configure settings
  | symbols uri => exact h.symbols hdisk hloops uri
  | refresh uri => exact h.refresh hdisk hloops uri
  | completion uri => exact h.asked hdisk hloops (Or.inr (Query.completion_state ..))
  | hover uri position => exact h.asked hdisk hloops (Query.functionAt_state ..)
  | definition uri position => exact h.asked hdisk hloops (Query.functionAt_state ..)
  | signatureHelp uri position => exact h.asked hdisk hloops (Query.signatureHelp_state ..)
  | diagnostics uri => exact h.asked hdisk hloops (Or.inr (Query.diagnostics_state ..))

/-- A file that changed on the disk is announced, or it is open and the change does not show. -/
theorem changeDisk (h : Kept loops s) (hdisk : s.disk.Regular s.naming s.naming.Asks) {file : Path}
    {disk : SourceReader} (hchanged : s.Confined file disk) : Kept loops (s.changeDisk file disk) := by
  unfold Session.changeDisk
  split
  · next hopen =>
    have hsound := h.sound.unchanged (regular hdisk) (Workspace.agreeOff_disk_open hchanged hopen)
    exact ⟨h.files, hsound⟩
  · have hsound := h.sound.invalidate (regular hdisk) (Workspace.agreeOff_disk hchanged)
    exact ⟨h.files, hsound⟩

end Kept

/-! ## Runs -/

namespace Run

variable {changes changes' : Session → Path → SourceReader → Prop} {ok ok' : Session → Prop}

theorem isOk (h : Run changes ok s) : ok s := by
  cases h with
  | start isOk => exact isOk
  | step _ _ isOk => exact isOk
  | change _ _ isOk => exact isOk

theorem mono (hok : ∀ s, ok s → ok' s)
    (hchanges : ∀ s file disk, ok s → changes s file disk → changes' s file disk)
    (h : Run changes ok s) : Run changes' ok' s := by
  induction h with
  | start isOk => exact .start (hok _ isOk)
  | step _ allowed isOk ih => exact .step ih allowed (hok _ isOk)
  | change run changed isOk ih =>
    exact .change ih (hchanges _ _ _ run.isOk changed) (hok _ isOk)

/-- **What every run has**, over disks that are regular all the way and change one file at a time. -/
theorem kept (hok : ∀ s, ok s → s.disk.Regular s.naming s.naming.Asks ∧
      LoopsAre s.naming s.reader (fun _ => True) loops)
    (h : Run Confined ok s) : Kept loops s := by
  induction h with
  | start _ => exact ⟨fun _ hopen => absurd hopen Bool.false_ne_true, .empty 0⟩
  | step run allowed isOk ih =>
    obtain ⟨hdisk, hloops⟩ := hok _ run.isOk
    exact ih.step hdisk hloops allowed (hok _ isOk).2
  | change run changed isOk ih => exact ih.changeDisk (hok _ run.isOk).1 changed

end Run

/-! ## Trees of files -/

/-- The disk is a tree of files. -/
def OnTree (s : Session) : Prop :=
  ∃ tree : FileTree, tree.Rooted ∧ s.disk = tree.reader

/-- The disk is a tree, and a file of it is written or removed. -/
def Written (s : Session) (file : Path) (disk : SourceReader) : Prop :=
  ∃ (tree : FileTree) (contents? : Option ByteArray), tree.Rooted ∧ tree.CanEdit file contents? ∧
    s.disk = tree.reader ∧ disk = (tree.edit file contents?).reader

/-- **Under plain namings trees are regular and their files change one at a time.** -/
theorem Run.confined {P : Session → Prop}
    (h : Run Written (fun s => s.OnTree ∧ s.naming.Plain ∧ P s) s) :
    Run Confined (fun s => s.disk.Regular s.naming s.naming.Asks ∧ P s) s := by
  apply h.mono
  · rintro s ⟨⟨tree, hrooted, hdisk⟩, hplain, hs⟩
    rw [hdisk]
    exact ⟨FileTree.reader_regular hrooted hplain, hs⟩
  · rintro s file disk ⟨-, hplain, -⟩ ⟨tree, contents?, hrooted, hcan, hdisk, rfl⟩
    unfold Confined
    rw [hdisk]
    exact hrooted.agreeOff_edit hplain hcan

end Session

/-! ## Runs that can be checked -/

/-- What happens in a session on a tree: an action, or a file is written or removed. -/
inductive TreeAction where
  | act (action : Action)
  | edit (file : Path) (contents? : Option ByteArray)

/-- A workspace and the files on the disk. -/
structure TreeSession where
  workspace : Workspace
  tree : FileTree

namespace TreeSession

def session (s : TreeSession) : Session :=
  ⟨s.workspace, s.tree.reader⟩

theorem onTree {s : TreeSession} (hrooted : s.tree.Rooted) : s.session.OnTree :=
  ⟨s.tree, hrooted, rfl⟩

def step (s : TreeSession) : TreeAction → TreeSession
  | .act action => { s with workspace := (s.session.step action).workspace }
  | .edit file contents? =>
    let tree := s.tree.edit file contents?
    ⟨(s.session.changeDisk file tree.reader).workspace, tree⟩

def Allows (s : TreeSession) : TreeAction → Prop
  | .act action => Session.Allows action
  | .edit file contents? => s.tree.CanEdit file contents?

/-- The session after some actions. -/
def play (s : TreeSession) (actions : List TreeAction) : TreeSession :=
  actions.foldl step s

/-- Every action can happen in its turn and leads to a session that is `ok`. -/
def Plays (ok : TreeSession → Prop) (s : TreeSession) : List TreeAction → Prop
  | [] => True
  | action :: rest => s.Allows action ∧ ok (s.step action) ∧ Plays ok (s.step action) rest

theorem session_step_act (s : TreeSession) (action : Action) :
    (s.step (.act action)).session = s.session.step action := by
  show (⟨(s.session.step action).workspace, s.session.disk⟩ : Session) = _
  rw [← s.session.disk_step action]

/-- Playing goes on with a run. -/
theorem run_play_of {ok : Session → Prop} {ok' : TreeSession → Prop}
    (hok : ∀ s, s.tree.Rooted → ok' s → ok s.session) {s : TreeSession} {actions : List TreeAction}
    (hrooted : s.tree.Rooted) (h : Session.Run Session.Written ok s.session)
    (hplays : s.Plays ok' actions) : Session.Run Session.Written ok (s.play actions).session := by
  induction actions generalizing s with
  | nil => exact h
  | cons action rest ih =>
    obtain ⟨hallowed, hnext, hrest⟩ := hplays
    cases action with
    | act action =>
      have hnext' : ok (s.step (.act action)).session := hok _ hrooted hnext
      have hrun : Session.Run Session.Written ok (s.step (.act action)).session := by
        rw [session_step_act] at hnext' ⊢
        exact .step h hallowed hnext'
      exact ih hrooted hrun hrest
    | edit file contents? =>
      have hrooted' := (FileTree.edit_spec hrooted hallowed).1
      refine ih hrooted' (.change h ?_ (hok _ hrooted' hnext)) hrest
      exact ⟨s.tree, contents?, hrooted, hallowed, rfl, rfl⟩

/-- Playing on an empty disk is a run. -/
theorem run_play {ok : Session → Prop} {ok' : TreeSession → Prop}
    (hok : ∀ s, s.tree.Rooted → ok' s → ok s.session) {settings : Settings}
    {actions : List TreeAction} (hstart : ok' ⟨{ settings }, {}⟩)
    (hplays : Plays ok' ⟨{ settings }, {}⟩ actions) :
    Session.Run Session.Written ok (play ⟨{ settings }, {}⟩ actions).session :=
  run_play_of hok FileTree.rooted_empty (.start (hok _ FileTree.rooted_empty hstart)) hplays

instance allowsDecidable (s : TreeSession) (action : TreeAction) : Decidable (s.Allows action) :=
  match action with
  | .act (.openDocument _ _) => decidable_of_iff _ Uri.exists_ofPath?_iff.symm
  | .edit _ _ => inferInstanceAs (Decidable (s.tree.CanEdit _ _))
  | .act (.edit _ _ _) | .act (.close _) | .act (.announce _) | .act (.configure _)
  | .act (.symbols _) | .act (.refresh _) | .act (.completion _) | .act (.hover _ _)
  | .act (.definition _ _) | .act (.signatureHelp _ _) | .act (.diagnostics _) =>
    inferInstanceAs (Decidable True)

instance playsDecidable (ok : TreeSession → Prop) [DecidablePred ok] (s : TreeSession) :
    (actions : List TreeAction) → Decidable (s.Plays ok actions)
  | [] => inferInstanceAs (Decidable True)
  | action :: rest =>
    have := playsDecidable ok (s.step action) rest
    inferInstanceAs (Decidable (_ ∧ _ ∧ _))

end TreeSession

end ScriptIndex
