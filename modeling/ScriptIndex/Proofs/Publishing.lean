import ScriptIndex.Proofs.Findings
import ScriptIndex.Server

/-!
# Published findings stay current

The server sends the findings about a document unasked, and an editor shows what was sent last.  After
every message, that is what asking for the findings would give, for every open document but those that
a close has left behind: closing a document drops the symbols of those that depend on it and sends
nothing about them.

* `lastPublished?` — what an editor shows;
* `UpToDate` — all open documents but the stale ones show what is known about them;
* `UpToDate.publish`, `UpToDate.invalidate`, `UpToDate.close` — what one step makes and leaves stale;
* `Server.handle_leaves` — what one message leaves stale;
* `Conversation`, `Conversation.shows_current` — a server and all it has sent, and what is shown after
  any messages;
* `Conversation.shows_outdated` — a document that was left behind.
-/

namespace ScriptIndex

/-! ## What an editor shows -/

/-- The findings about a document that a message brings. -/
def ServerMessage.findings? (uri : Uri) : ServerMessage → Option (List Diagnostic)
  | .publish other findings _ => if other = uri then some findings else none
  | .watchFiles _ => none

/-- The findings about a document that were sent last. -/
def lastPublished? (uri : Uri) (log : List ServerMessage) : Option (List Diagnostic) :=
  log.reverse.findSome? (ServerMessage.findings? uri)

theorem lastPublished?_append (uri : Uri) (log sent : List ServerMessage) :
    lastPublished? uri (log ++ sent) = (lastPublished? uri sent).or (lastPublished? uri log) := by
  unfold lastPublished?
  rw [List.reverse_append, List.findSome?_append]

theorem lastPublished?_single (uri : Uri) (message : ServerMessage) :
    lastPublished? uri [message] = message.findings? uri := by
  simp [lastPublished?]

theorem lastPublished?_publish (disk : SourceReader) (ws : Workspace) (uri u : Uri) :
    lastPublished? u [(Server.publish disk ws uri).value] =
      if uri = u then some (Query.diagnostics ws disk uri).value else none :=
  lastPublished?_single u _

/-- Nothing is sent about a document that is not in the list. -/
theorem lastPublished?_publishAll {u : Uri} {uris : List Uri} (hu : u ∉ uris) (disk : SourceReader)
    (ws : Workspace) : lastPublished? u (Server.publishAll disk ws uris).value = none := by
  induction uris generalizing ws with
  | nil => rfl
  | cons uri rest ih =>
    rw [List.mem_cons, not_or] at hu
    show lastPublished? u ([(Server.publish disk ws uri).value] ++ _) = none
    rw [lastPublished?_append, ih hu.2, lastPublished?_publish, if_neg (Ne.symm hu.1)]
    rfl

/-- Every open document but the stale ones shows what is known about it. -/
structure UpToDate (ws : Workspace) (log : List ServerMessage) (stale : Uri → Prop) : Prop where
  linked : ws.cache.Linked
  canonical : ∀ uri, ws.isOpen uri = true → uri.Canonical
  shown : ∀ uri, ws.isOpen uri = true → ¬ stale uri →
    ∃ findings, lastPublished? uri log = some findings ∧ Query.known? ws uri = some findings

namespace UpToDate

variable {ws later : Workspace} {log sent : List ServerMessage} {stale stale' : Uri → Prop} {uri : Uri}

theorem mono (h : UpToDate ws log stale)
    (hstale : ∀ uri, ws.isOpen uri = true → stale uri → stale' uri) : UpToDate ws log stale' :=
  ⟨h.linked, h.canonical, fun uri hopen hfresh =>
    h.shown uri hopen fun hcontra => hfresh (hstale uri hopen hcontra)⟩

theorem grow (h : UpToDate ws log stale) (hgrows : ws.Grows later) : UpToDate later log stale where
  linked := hgrows.cache.linked
  canonical := by
    intro uri hopen
    rw [hgrows.isOpen] at hopen
    exact h.canonical uri hopen
  shown := by
    intro uri hopen hfresh
    rw [hgrows.isOpen] at hopen
    obtain ⟨findings, hshown, hknown⟩ := h.shown uri hopen hfresh
    exact ⟨findings, hshown, hgrows.known? hknown⟩

/-- Messages about no open document change nothing that is shown. -/
theorem send (h : UpToDate ws log stale)
    (hsent : ∀ uri, ws.isOpen uri = true → lastPublished? uri sent = none) :
    UpToDate ws (log ++ sent) stale where
  linked := h.linked
  canonical := h.canonical
  shown := by
    intro uri hopen hfresh
    rw [lastPublished?_append, hsent uri hopen]
    exact h.shown uri hopen hfresh

/-- **Sending the findings about a document** brings that one up to date. -/
theorem publish (h : UpToDate ws log stale) (disk : SourceReader) (uri : Uri) :
    UpToDate (Server.publish disk ws uri).state (log ++ [(Server.publish disk ws uri).value])
      fun u => stale u ∧ u ≠ uri := by
  have hgrows : ws.Grows (Server.publish disk ws uri).state := by
    show ws.Grows (Query.diagnostics ws disk uri).state
    rw [Query.diagnostics_state]
    exact Workspace.symbols_grows h.linked disk uri
  have hgrown := h.grow hgrows
  refine ⟨hgrown.linked, hgrown.canonical, fun u hopen hfresh => ?_⟩
  rw [lastPublished?_append, lastPublished?_publish]
  by_cases heq : uri = u
  · subst heq
    rw [if_pos rfl]
    exact ⟨_, rfl, Query.known_of_diagnostics h.linked disk⟩
  · rw [if_neg heq]
    exact hgrown.shown u hopen fun hstale => hfresh ⟨hstale, Ne.symm heq⟩

theorem publishAll (h : UpToDate ws log stale) (disk : SourceReader) (uris : List Uri) :
    UpToDate (Server.publishAll disk ws uris).state (log ++ (Server.publishAll disk ws uris).value)
      fun u => stale u ∧ u ∉ uris := by
  induction uris generalizing ws log stale with
  | nil =>
    show UpToDate ws (log ++ []) _
    rw [List.append_nil]
    exact h.mono fun u _ hstale => ⟨hstale, List.not_mem_nil⟩
  | cons uri rest ih =>
    have hrest := ih (h.publish disk uri)
    rw [List.append_assoc] at hrest
    refine hrest.mono fun u _ hstale => ⟨hstale.1.1, ?_⟩
    rw [List.mem_cons, not_or]
    exact ⟨hstale.1.2, hstale.2⟩

/-! ### What becomes stale -/

/-- Documents come and go, the rest stays. -/
theorem setDocuments (h : UpToDate ws log stale) (hsettings : later.settings = ws.settings)
    (hcache : later.cache = ws.cache) (hcanonical : ∀ u, later.isOpen u = true → u.Canonical)
    (hsame : ∀ u, later.isOpen u = true → ¬ stale' u →
      ¬ stale u ∧ later.document? u = ws.document? u) : UpToDate later log stale' where
  linked := hcache ▸ h.linked
  canonical := hcanonical
  shown := by
    intro u hopen hfresh
    obtain ⟨hfresh', hdocument⟩ := hsame u hopen hfresh
    rw [Workspace.isOpen_congr hdocument] at hopen
    obtain ⟨findings, hshown, hknown⟩ := h.shown u hopen hfresh'
    refine ⟨findings, hshown, Query.known?_of_kept hknown hsettings hdocument fun _ _ _ hget => ?_⟩
    rw [hcache]
    exact hget

theorem openDocument (h : UpToDate ws log stale) (hcanonical : uri.Canonical) (document : Document) :
    UpToDate (ws.openDocument uri document) log fun u => stale u ∨ u = uri := by
  have hdocument := ws.document?_openDocument uri document
  refine h.setDocuments rfl rfl (fun u hopen => ?_) fun u _ hfresh => ?_
  · by_cases heq : uri = u
    · exact heq ▸ hcanonical
    · rw [Workspace.isOpen_congr ((hdocument u).trans (if_neg heq))] at hopen
      exact h.canonical u hopen
  · rw [not_or] at hfresh
    exact ⟨hfresh.1, (hdocument u).trans (if_neg (Ne.symm hfresh.2))⟩

/-- **Dropping a file** makes stale the open documents among the dropped files. -/
theorem invalidate (h : UpToDate ws log stale) (file : Path) :
    UpToDate (ws.invalidate file).state log
      fun u => stale u ∨ u ∈ ws.openUris (ws.invalidate file).value where
  linked := (SymbolCache.invalidate_pruned h.linked file).linked
  canonical := h.canonical
  shown := by
    intro u hopen hfresh
    rw [not_or] at hfresh
    obtain ⟨findings, hshown, hknown⟩ := h.shown u hopen hfresh.1
    exact ⟨findings, hshown,
      Workspace.known?_invalidate h.linked hopen (h.canonical u hopen) hfresh.2 hknown⟩

/-- Refreshing a document makes it stale, and the open documents that it names as such. -/
theorem refresh (h : UpToDate ws log stale) (disk : SourceReader) (uri : Uri) :
    UpToDate (ws.refresh disk uri).state log fun u =>
      stale u ∨ u ∈ uri :: ((ws.refresh disk uri).value.map Workspace.Refreshed.stale).getD [] := by
  unfold Workspace.refresh
  split
  · next file document hfile hdocument =>
    have hopen := Workspace.isOpen_of_document? hdocument
    let left := (ws.invalidate file).state
    have hgrows : left.Grows { ws with
        cache := (Extraction.extract ws.settings.naming (ws.reader disk) file document.text
          left.cache).state } :=
      ⟨rfl, rfl, (Extraction.extract_grows (SymbolCache.invalidate_pruned h.linked file).linked
        (SymbolCache.get?_invalidate_self h.linked file) document.text).1⟩
    refine ((h.invalidate file).grow hgrows).mono fun u _ hu => hu.imp_right fun hu => ?_
    -- of the dropped files, the refreshed one is at `uri` and the others are named
    obtain ⟨hu, d, hd, huri⟩ := Workspace.mem_openUris.mp hu
    by_cases heq : d.components = file.components
    · have hsame : some u = some uri :=
        huri.symm.trans ((Uri.ofPath?_congr heq).trans (h.canonical uri hopen file hfile))
      rw [Option.some.inj hsame]
      exact List.mem_cons_self
    · refine List.mem_cons_of_mem _ (Workspace.mem_openUris.mpr ⟨hu, d, ?_, huri⟩)
      exact List.mem_filter.mpr ⟨hd, decide_eq_true heq⟩
  · exact h.mono fun u _ hu => Or.inl hu

/-- New settings make everything stale. -/
theorem configure (h : UpToDate ws log stale) (settings : Settings) :
    UpToDate (ws.configure settings).state log fun _ => True where
  linked := by
    unfold Workspace.configure
    split
    · exact .empty ws.cache.scans
    · exact h.linked
  canonical := by
    intro u hopen
    rw [Workspace.isOpen_congr (ws.document?_configure settings u)] at hopen
    exact h.canonical u hopen
  shown := fun _ _ hfresh => absurd trivial hfresh

/-- A change on disk makes stale what is noted. -/
theorem noteChange {soFar : Outcome Workspace (List Uri)}
    (h : UpToDate soFar.state log fun u => stale u ∨ u ∈ soFar.value) (uri : Uri) :
    UpToDate (Server.noteChange soFar uri).state log fun u =>
      stale u ∨ u ∈ (Server.noteChange soFar uri).value := by
  unfold Server.noteChange
  split
  · exact h
  · next file _ =>
    refine (h.invalidate file).mono fun u _ hu => ?_
    rcases hu with (hu | hu) | hu
    · exact Or.inl hu
    · exact Or.inr (List.mem_append_left _ hu)
    · by_cases hnoted : u ∈ soFar.value
      · exact Or.inr (List.mem_append_left _ hnoted)
      · refine Or.inr (List.mem_append_right _ (List.mem_filter.mpr ⟨hu, ?_⟩))
        simpa using hnoted

theorem noteAll (h : UpToDate ws log stale) (uris : List Uri) :
    UpToDate (Server.noteAll ws uris).state log fun u =>
      stale u ∨ u ∈ (Server.noteAll ws uris).value :=
  Server.noteAll_induction
    (P := fun soFar => UpToDate soFar.state log fun u => stale u ∨ u ∈ soFar.value) ws uris
    (h.mono fun _ _ hu => Or.inl hu) fun _ uri hsoFar => hsoFar.noteChange uri

end UpToDate

/-- The open documents that lose their symbols when another one is closed. -/
def Workspace.strandedBy (ws : Workspace) (uri : Uri) : List Uri :=
  match uri.toPath? with
  | none => []
  | some file => (ws.close uri).state.openUris (ws.cache.invalidate file).1

namespace UpToDate

variable {ws : Workspace} {log : List ServerMessage} {stale : Uri → Prop}

/-- **Closing a document** makes stale the documents that it strands. -/
theorem close (h : UpToDate ws log stale) (uri : Uri) :
    UpToDate (ws.close uri).state log fun u => stale u ∨ u ∈ ws.strandedBy uri := by
  let closed : Workspace :=
    { ws with documents := Keyed.drop OpenDocument.uri uri ws.documents }
  have hdocument : ∀ u, closed.document? u = if u = uri then none else ws.document? u := by
    intro u
    unfold Workspace.document?
    rw [Keyed.find?_drop]
    split <;> rfl
  have hne : ∀ u, closed.isOpen u = true → u ≠ uri := by
    intro u hopen heq
    rw [Workspace.isOpen_eq, hdocument, if_pos heq] at hopen
    cases hopen
  have hclosed : UpToDate closed log stale := by
    have hother : ∀ u, closed.isOpen u = true → closed.document? u = ws.document? u :=
      fun u hopen => (hdocument u).trans (if_neg (hne u hopen))
    refine h.setDocuments rfl rfl (fun u hopen => ?_) fun u hopen hfresh => ?_
    · exact h.canonical u (Workspace.isOpen_congr (hother u hopen) ▸ hopen)
    · exact ⟨hfresh, hother u hopen⟩
  unfold Workspace.strandedBy Workspace.close
  cases uri.toPath? with
  | none => exact hclosed.mono fun u _ hu => Or.inl hu
  | some file => exact hclosed.invalidate file

end UpToDate

/-! ## One message -/

namespace Server

variable {ws : Workspace} {log : List ServerMessage} {stale : Uri → Prop}

/-- What a handled message leaves stale: what was stale before it and is not in what it sends. -/
def Leaves (log : List ServerMessage) (stale : Uri → Prop) (outcome : Outcome Workspace Response) :
    Prop :=
  UpToDate outcome.state (log ++ outcome.value.sent) fun u =>
    stale u ∧ lastPublished? u outcome.value.sent = none

/-- A message that is answered with nothing about a document. -/
theorem leaves_quiet {outcome : Outcome Workspace Response} (h : UpToDate outcome.state log stale)
    (hsent : ∀ uri, lastPublished? uri outcome.value.sent = none) : Leaves log stale outcome :=
  (h.send fun uri _ => hsent uri).mono fun u _ hu => ⟨hu, hsent u⟩

theorem publishAfter_leaves {uris : List Uri} (h : UpToDate ws log fun u => stale u ∨ u ∈ uris)
    (disk : SourceReader) (events : List Event) :
    Leaves log stale (publishAfter disk ws events uris) := by
  refine (h.publishAll disk uris).mono fun u _ hu => ?_
  exact ⟨hu.1.resolve_right hu.2, lastPublished?_publishAll hu.2 disk ws⟩

theorem refreshAndPublish_leaves {uri : Uri} (h : UpToDate ws log fun u => stale u ∨ u = uri)
    (disk : SourceReader) : Leaves log stale (refreshAndPublish disk ws uri) := by
  refine publishAfter_leaves ((h.refresh disk uri).mono fun u _ hu => ?_) disk _
  rcases hu with (hu | hu) | hu
  · exact Or.inl hu
  · exact Or.inr (hu ▸ List.mem_cons_self)
  · exact Or.inr hu

theorem change_leaves (h : UpToDate ws log stale) (disk : SourceReader) (uri : Uri) (version : Int)
    (changes : List Change) : Leaves log stale (change disk ws uri version changes) := by
  unfold change
  split
  · exact leaves_quiet h fun _ => rfl
  · next document hdocument =>
    have hcanonical := h.canonical uri (Workspace.isOpen_of_document? hdocument)
    exact refreshAndPublish_leaves (h.openDocument hcanonical _) disk

theorem reconfigure_leaves (h : UpToDate ws log stale) (disk : SourceReader) (json : Json) :
    Leaves log stale (reconfigure disk ws json) := by
  unfold reconfigure configureFrom
  rcases Settings.ofJson json with fault | (_ | settings)
  · exact leaves_quiet h fun _ => rfl
  · exact leaves_quiet h fun _ => rfl
  · -- everything is stale, and every open document is in the list
    refine publishAfter_leaves ((h.configure settings).mono fun u hopen _ => Or.inr ?_) disk _
    rw [Workspace.isOpen_congr (ws.document?_configure settings u)] at hopen
    exact of_decide_eq_true hopen

theorem filesChanged_leaves (h : UpToDate ws log stale) (disk : SourceReader) (uris : List Uri) :
    Leaves log stale (filesChanged disk ws uris) :=
  publishAfter_leaves (h.noteAll uris) disk _

/-- A question leaves a workspace as it is, or asks for the symbols of a document. -/
theorem question_leaves (h : UpToDate ws log stale) {disk : SourceReader} {uri : Uri} {α : Type}
    (reply : α → Reply) {outcome : Outcome Workspace α}
    (hstate : outcome.state = ws ∨ outcome.state = (ws.symbols disk uri).state) :
    Leaves log stale (replying reply outcome) := by
  have hgrows : ws.Grows outcome.state := by
    rcases hstate with hstate | hstate
    · rw [hstate]
      exact .refl h.linked
    · rw [hstate]
      exact Workspace.symbols_grows h.linked disk uri
  exact leaves_quiet (h.grow hgrows) fun _ => rfl

theorem didClose_leaves (h : UpToDate ws log stale) (disk : SourceReader) (uri : Uri) :
    Leaves log (fun u => stale u ∨ u ∈ ws.strandedBy uri) (handle disk ws (.didClose uri)) := by
  have hsent : ∀ u, (ws.close uri).state.isOpen u = true →
      lastPublished? u [.publish uri [] none] = none := by
    intro u hopen
    rw [Workspace.isOpen_eq, Workspace.document?_close] at hopen
    rw [lastPublished?_single]
    refine if_neg fun heq => ?_
    rw [if_pos heq.symm] at hopen
    cases hopen
  exact ((h.close uri).send hsent).mono fun u hopen hu => ⟨hu, hsent u hopen⟩

end Server

/-- Documents are opened under canonical addresses, and the first request comes before all else. -/
def ClientMessage.Regular : ClientMessage → Prop
  | .hello _ => False
  | .didOpen uri _ _ => uri.Canonical
  | _ => True

instance : (message : ClientMessage) → Decidable message.Regular
  | .hello _ => inferInstanceAs (Decidable False)
  | .didOpen uri _ _ => inferInstanceAs (Decidable uri.Canonical)
  | .ready | .shutdown | .didChange _ _ _ | .didSave _ | .didClose _ | .didChangeConfiguration _
  | .didChangeWatchedFiles _ | .completion _ | .hover _ _ | .definition _ _ | .signatureHelp _ _ =>
    inferInstanceAs (Decidable True)

/-- The open documents that a message leaves behind. -/
def ClientMessage.strands (ws : Workspace) : ClientMessage → List Uri
  | .didClose uri => ws.strandedBy uri
  | _ => []

/-- **One message.**  Whatever the disk is like, only a close makes anything stale that is not in what
is sent. -/
theorem Server.handle_leaves {ws : Workspace} {log : List ServerMessage} {stale : Uri → Prop}
    (h : UpToDate ws log stale) (disk : SourceReader) {message : ClientMessage}
    (hregular : message.Regular) :
    Leaves log (fun u => stale u ∨ u ∈ message.strands ws) (handle disk ws message) := by
  have hwide : UpToDate ws log fun u => stale u ∨ u ∈ message.strands ws :=
    h.mono fun u _ hu => Or.inl hu
  cases message with
  | hello hello => exact hregular.elim
  | ready => exact leaves_quiet hwide fun uri => lastPublished?_single uri _
  | shutdown => exact leaves_quiet hwide fun _ => rfl
  | didOpen uri version text => exact refreshAndPublish_leaves (hwide.openDocument hregular _) disk
  | didChange uri version changes => exact change_leaves hwide disk uri version changes
  | didSave uri => exact refreshAndPublish_leaves (hwide.mono fun u _ hu => Or.inl hu) disk
  | didClose uri => exact didClose_leaves h disk uri
  | didChangeConfiguration settings => exact reconfigure_leaves hwide disk settings
  | didChangeWatchedFiles uris => exact filesChanged_leaves hwide disk uris
  | completion uri => exact question_leaves hwide _ (Or.inr (Query.completion_state ..))
  | hover uri position => exact question_leaves hwide _ (Query.functionAt_state ..)
  | definition uri position => exact question_leaves hwide _ (Query.functionAt_state ..)
  | signatureHelp uri position => exact question_leaves hwide _ (Query.signatureHelp_state ..)

/-! ## Conversations -/

/-- A message and the disk it finds. -/
structure Turn where
  disk : SourceReader
  message : ClientMessage

/-- A server in use. -/
structure Conversation where
  workspace : Workspace
  log : List ServerMessage := []
  /-- The documents that a close has left behind, and about which nothing was sent since. -/
  stranded : List Uri := []

namespace Conversation

/-- The conversation after one more message. -/
def next (c : Conversation) (turn : Turn) : Conversation :=
  let outcome := Server.handle turn.disk c.workspace turn.message
  { workspace := outcome.state
    log := c.log ++ outcome.value.sent
    stranded := (c.stranded ++ turn.message.strands c.workspace).filter fun uri =>
      (lastPublished? uri outcome.value.sent).isNone }

/-- The conversation after some messages, starting with nothing open. -/
def after (settings : Settings) (turns : List Turn) : Conversation :=
  turns.foldl next { workspace := { settings } }

/-- All open documents but the stranded ones show what is known about them. -/
def Kept (c : Conversation) : Prop :=
  UpToDate c.workspace c.log (· ∈ c.stranded)

theorem Kept.start (settings : Settings) : Kept { workspace := { settings } } :=
  ⟨.empty 0, fun _ hopen => absurd hopen Bool.false_ne_true,
    fun _ hopen => absurd hopen Bool.false_ne_true⟩

theorem Kept.next {c : Conversation} (h : c.Kept) {turn : Turn} (hregular : turn.message.Regular) :
    (c.next turn).Kept := by
  refine (Server.handle_leaves h turn.disk hregular).mono fun u _ hu => ?_
  refine List.mem_filter.mpr ⟨List.mem_append.mpr hu.1, ?_⟩
  rw [hu.2]
  rfl

theorem Kept.after {turns : List Turn} (hturns : ∀ turn ∈ turns, turn.message.Regular)
    (settings : Settings) : (after settings turns).Kept :=
  List.foldlRecOn turns Conversation.next (.start settings)
    fun _ h turn hturn => h.next (hturns turn hturn)

/-- **What is shown is current.**  After any messages, each of them over any disk, the findings that
were sent last about an open document are those that asking for them gives, unless closing another
document has dropped its symbols and nothing was sent about it since. -/
theorem shows_current (settings : Settings) (turns : List Turn)
    (hturns : ∀ turn ∈ turns, turn.message.Regular) (uri : Uri)
    (hopen : (after settings turns).workspace.isOpen uri = true)
    (hstranded : uri ∉ (after settings turns).stranded) (disk : SourceReader) :
    lastPublished? uri (after settings turns).log =
      some (Query.diagnostics (after settings turns).workspace disk uri).value := by
  obtain ⟨findings, hshown, hknown⟩ := (Kept.after hturns settings).shown uri hopen hstranded
  rw [hshown, Query.diagnostics_of_known hknown disk]

/-- Of two cycles one is broken by a change, the other made by a file that appears, then errors are
wanted; a document that concerns none of this is opened and closed in between. -/
theorem shows_current_announced :
    let a : Uri := ⟨"file:///w/a.das"⟩
    let b : Uri := ⟨"file:///w/b.das"⟩
    let other : Uri := ⟨"file:///w/other.das"⟩
    let empty := SourceReader.ofFiles []
    let disk := SourceReader.ofFiles [⟨.ofString "/w/c.das", some "require a"⟩]
    let turns : List Turn := [⟨empty, .didOpen a 1 "require b\nrequire c"⟩,
      ⟨empty, .didOpen b 1 "require a"⟩, ⟨empty, .didOpen other 1 ""⟩,
      ⟨empty, .didChange b 2 [{ range := none, text := "" }]⟩, ⟨empty, .didClose other⟩,
      ⟨disk, .didChangeWatchedFiles [⟨"file:///w/c.das"⟩]⟩,
      ⟨disk, .didChangeConfiguration
        (.obj [("diagnostics", .obj [("circularRequireSeverity", .str "error")])])⟩]
    (∀ turn ∈ turns, turn.message.Regular) ∧ (after {} turns).workspace.isOpen a = true ∧
      a ∉ (after {} turns).stranded ∧
      (lastPublished? a (after {} turns).log).map (List.map fun d => (d.range.start.line, d.severity)) =
        some [(1, .error)] ∧
      lastPublished? a (after {} turns).log =
        some (Query.diagnostics (after {} turns).workspace disk a).value := by
  intro a b other empty disk turns
  have hturns : ∀ turn ∈ turns, turn.message.Regular := by decide +kernel
  have hopen : (after {} turns).workspace.isOpen a = true := by decide +kernel
  have hstranded : a ∉ (after {} turns).stranded := by decide +kernel
  exact ⟨hturns, hopen, hstranded, by decide +kernel,
    shows_current {} turns hturns a hopen hstranded disk⟩

/-- A document that a close has left behind shows a cycle that is no more: of two that require each
other, the second is closed and is no file on the disk. -/
theorem shows_outdated :
    ¬ ∀ (settings : Settings) (turns : List Turn), (∀ turn ∈ turns, turn.message.Regular) →
      ∀ uri, (after settings turns).workspace.isOpen uri = true → ∀ disk : SourceReader,
        lastPublished? uri (after settings turns).log =
          some (Query.diagnostics (after settings turns).workspace disk uri).value := by
  intro h
  let a : Uri := ⟨"file:///w/a.das"⟩
  let b : Uri := ⟨"file:///w/b.das"⟩
  let disk := SourceReader.ofFiles []
  have hsame := h {} [⟨disk, .didOpen a 1 "require b"⟩, ⟨disk, .didOpen b 1 "require a"⟩,
    ⟨disk, .didClose b⟩] (by decide +kernel) a (by decide +kernel) disk
  revert hsame
  decide +kernel

end Conversation

end ScriptIndex
