import Mathlib.Data.List.Perm.Subperm
import ScriptIndex.Proofs.Closure
import ScriptIndex.Proofs.Findings
import ScriptIndex.Server

/-!
# Changes in any order

Several files that change are dropped one after the other, and each sweep deletes watchers that the
next one would have followed.  The order does not matter: what a file affects leads only to what that
file affects as well, so a path through a deleted entry never leads to one that is left.

* `SymbolCache.invalidateEach` — files dropped one after the other;
* `SymbolCache.Tidy.affects_invalidate_iff` — what is affected once a file has been dropped;
* `SymbolCache.Tidy.isIn_invalidateEach_iff` — all that is dropped, without mention of an order;
* `Server.foldl_noteChange` — a message about changed files drops them one after the other;
* `SymbolCache.invalidateEach_order` — cache, dropped files and documents sent about are the same in
  any order.
-/

namespace ScriptIndex

open Relation

namespace SymbolCache

variable {cache : SymbolCache}

/-- Drops some files one after the other, and tells all files that lost their symbols. -/
def invalidateEach (cache : SymbolCache) : List Path → List Path × SymbolCache
  | [] => ([], cache)
  | p :: rest =>
    let first := cache.invalidate p
    let others := first.2.invalidateEach rest
    (first.1 ++ others.1, others.2)

/-! ## After one file -/

/-- What is left when a file is dropped is the cache without the dropped files. -/
theorem Tidy.invalidate_eq_without (h : cache.Tidy) (p : Path) :
    (cache.invalidate p).2 = cache.without (cache.invalidate p).1 :=
  h.sweep_eq_without _ _

/-- An entry is left exactly if the dropped file does not affect it. -/
theorem Tidy.mem_invalidate_iff (h : cache.Tidy) {p : Path} {e : CacheEntry} :
    e ∈ (cache.invalidate p).2.entries ↔ e ∈ cache.entries ∧ ¬ cache.Affects p e.file := by
  rw [h.invalidate_eq_without]
  show e ∈ cache.entries.filter _ ↔ _
  rw [List.mem_filter, Bool.not_eq_true', ← Bool.not_eq_true, isIn_invalidate_iff h.linked]
  constructor
  · rintro ⟨he, hnot⟩
    exact ⟨he, fun haffects => hnot ⟨contains_of_mem he rfl, haffects⟩⟩
  · rintro ⟨he, hnot⟩
    exact ⟨he, fun hboth => hnot hboth.2⟩

/-- A path to what a dropped file does not affect never met the dropped entries. -/
theorem Tidy.reaches_invalidate (h : cache.Tidy) {p : Path} {k l : List Component}
    (hreach : ReflTransGen cache.Feeds k l) (hfree : ¬ ReflTransGen cache.Feeds p.components l) :
    ReflTransGen (cache.invalidate p).2.Feeds k l := by
  induction hreach with
  | refl => exact .refl
  | @tail b c hkb hbc ih =>
    have hb : ¬ ReflTransGen cache.Feeds p.components b := fun hpb => hfree (hpb.tail hbc)
    obtain ⟨e, he, hkey, hwatch⟩ := hbc
    have hleft : e ∈ (cache.invalidate p).2.entries :=
      h.mem_invalidate_iff.mpr ⟨he, fun haffects => hfree (hkey ▸ haffects)⟩
    exact (ih hb).tail ⟨e, hleft, hkey, hwatch⟩

/-- **After a file was dropped** another one affects, of what is left, what it affected before. -/
theorem Tidy.affects_invalidate_iff (h : cache.Tidy) {p p' q : Path} :
    ((cache.invalidate p).2.contains q = true ∧ (cache.invalidate p).2.Affects p' q) ↔
      (cache.contains q = true ∧ ¬ cache.Affects p q) ∧ cache.Affects p' q := by
  constructor
  · rintro ⟨hcontains, hreach⟩
    obtain ⟨e, he, hkey⟩ := mem_of_contains hcontains
    obtain ⟨he, hfree⟩ := h.mem_invalidate_iff.mp he
    refine ⟨⟨contains_of_mem he hkey, ?_⟩, ?_⟩
    · rw [Affects, ← hkey]
      exact hfree
    · refine ReflTransGen.mono (fun _ _ => Feeds.mono fun e he => ?_) _ _ hreach
      exact (h.mem_invalidate_iff.mp he).1
  · rintro ⟨⟨hcontains, hfree⟩, hreach⟩
    obtain ⟨e, he, hkey⟩ := mem_of_contains hcontains
    refine ⟨contains_of_mem (h.mem_invalidate_iff.mpr ⟨he, ?_⟩) hkey, ?_⟩
    · rw [Affects, hkey]
      exact hfree
    · exact h.reaches_invalidate hreach hfree

/-- A file that was dropped affects nothing any more. -/
theorem Tidy.invalidate_again (h : cache.Tidy) (p : Path) :
    (cache.invalidate p).2.invalidate p = ([], (cache.invalidate p).2) := by
  have htidy := h.invalidate p
  have hnone : ((cache.invalidate p).2.invalidate p).1 = [] := by
    rw [List.eq_nil_iff_forall_not_mem]
    intro d hd
    have hboth := (isIn_invalidate_iff htidy.linked).mp (Path.isIn_of_mem hd)
    have hcontra := h.affects_invalidate_iff.mp hboth
    exact hcontra.1.2 hcontra.2
  refine Prod.ext hnone ?_
  rw [htidy.invalidate_eq_without, hnone]
  exact htidy.without_nil

/-! ## After all files -/

theorem Tidy.invalidateEach_eq_without (h : cache.Tidy) (paths : List Path) :
    (cache.invalidateEach paths).2 = cache.without (cache.invalidateEach paths).1 := by
  induction paths generalizing cache with
  | nil => exact h.without_nil.symm
  | cons p rest ih =>
    show ((cache.invalidate p).2.invalidateEach rest).2 = _
    rw [ih (h.invalidate p), h.invalidate_eq_without, without_without, ← h.invalidate_eq_without]
    rfl

/-- **All that is dropped** are the entries that one of the files affects. -/
theorem Tidy.isIn_invalidateEach_iff (h : cache.Tidy) {paths : List Path} {q : Path} :
    q.isIn (cache.invalidateEach paths).1 = true ↔
      cache.contains q = true ∧ ∃ p ∈ paths, cache.Affects p q := by
  induction paths generalizing cache with
  | nil => simp [invalidateEach, Path.isIn]
  | cons p rest ih =>
    have happend : q.isIn (cache.invalidateEach (p :: rest)).1 = true ↔
        q.isIn (cache.invalidate p).1 = true ∨
          q.isIn ((cache.invalidate p).2.invalidateEach rest).1 = true := by
      simp [invalidateEach, Path.isIn]
    have hrest : q.isIn ((cache.invalidate p).2.invalidateEach rest).1 = true ↔
        ∃ p' ∈ rest, (cache.contains q = true ∧ ¬ cache.Affects p q) ∧ cache.Affects p' q := by
      rw [ih (h.invalidate p), ← exists_and_left]
      refine exists_congr fun p' => ?_
      rw [and_left_comm, h.affects_invalidate_iff]
    rw [happend, hrest, isIn_invalidate_iff h.linked]
    constructor
    · rintro (⟨hcontains, haffects⟩ | ⟨p', hp', ⟨hcontains, -⟩, haffects⟩)
      · exact ⟨hcontains, p, List.mem_cons_self, haffects⟩
      · exact ⟨hcontains, p', List.mem_cons_of_mem _ hp', haffects⟩
    · rintro ⟨hcontains, p', hp', haffects⟩
      by_cases hp : cache.Affects p q
      · exact Or.inl ⟨hcontains, hp⟩
      · rcases List.mem_cons.mp hp' with rfl | hp'
        · exact absurd haffects hp
        · exact Or.inr ⟨p', hp', ⟨hcontains, hp⟩, haffects⟩

theorem Tidy.nodup_invalidateEach (h : cache.Tidy) (paths : List Path) :
    ((cache.invalidateEach paths).1.map Path.components).Nodup := by
  induction paths generalizing cache with
  | nil => exact List.nodup_nil
  | cons p rest ih =>
    show (((cache.invalidate p).1 ++ ((cache.invalidate p).2.invalidateEach rest).1).map
      Path.components).Nodup
    rw [List.map_append, List.nodup_append]
    refine ⟨(sweep_named _ _ _).2, ih (h.invalidate p), ?_⟩
    rintro k hk k' hk' rfl
    obtain ⟨d, hd, rfl⟩ := List.mem_map.mp hk
    obtain ⟨d', hd', hsame⟩ := List.mem_map.mp hk'
    -- what is dropped later still has an entry, which the first file does not affect
    have hlater := ((h.invalidate p).isIn_invalidateEach_iff).mp (Path.isIn_of_mem hd')
    obtain ⟨p', -, haffects⟩ := hlater.2
    have hfree := (h.affects_invalidate_iff.mp ⟨hlater.1, haffects⟩).1.2
    rw [Affects, hsame] at hfree
    exact hfree ((isIn_invalidate_iff h.linked).mp (Path.isIn_of_mem hd)).2

variable {paths paths' : List Path}

theorem Tidy.isIn_invalidateEach_perm (h : cache.Tidy) (hperm : paths.Perm paths') (q : Path) :
    q.isIn (cache.invalidateEach paths).1 = q.isIn (cache.invalidateEach paths').1 := by
  rw [Bool.eq_iff_iff, h.isIn_invalidateEach_iff, h.isIn_invalidateEach_iff]
  simp only [hperm.mem_iff]

theorem Tidy.invalidateEach_perm (h : cache.Tidy) (hperm : paths.Perm paths') :
    (cache.invalidateEach paths).2 = (cache.invalidateEach paths').2 ∧
      ((cache.invalidateEach paths).1.map Path.components).Perm
        ((cache.invalidateEach paths').1.map Path.components) := by
  have hsame := h.isIn_invalidateEach_perm hperm
  refine ⟨?_, ?_⟩
  · rw [h.invalidateEach_eq_without, h.invalidateEach_eq_without, without_congr hsame]
  · rw [List.perm_ext_iff_of_nodup (h.nodup_invalidateEach paths) (h.nodup_invalidateEach paths')]
    have hmem : ∀ files files' : List Path, (∀ q : Path, q.isIn files = q.isIn files') →
        ∀ k ∈ files.map Path.components, k ∈ files'.map Path.components := by
      intro files files' hfiles k hk
      obtain ⟨d, hd, rfl⟩ := List.mem_map.mp hk
      exact of_decide_eq_true ((hfiles d).symm.trans (Path.isIn_of_mem hd))
    exact fun k => ⟨hmem _ _ hsame k, hmem _ _ (fun q => (hsame q).symm) k⟩

end SymbolCache

/-! ## Messages about changed files -/

namespace Workspace

variable {ws : Workspace} {paths paths' : List Path}

/-- Which documents are open among some files depends on what the paths name. -/
theorem mem_openUris_congr (h : ∀ q : Path, q.isIn paths = q.isIn paths') {uri : Uri}
    (huri : uri ∈ ws.openUris paths) : uri ∈ ws.openUris paths' := by
  obtain ⟨hopen, p, hp, hofPath⟩ := mem_openUris.mp huri
  obtain ⟨q, hq, hqp⟩ := Path.isIn_iff.mp ((h p).symm.trans (Path.isIn_of_mem hp))
  exact mem_openUris.mpr ⟨hopen, q, hq, (Uri.ofPath?_congr hqp).trans hofPath⟩

/-- Different files have different addresses. -/
theorem nodup_openUris (h : (paths.map Path.components).Nodup) : (ws.openUris paths).Nodup := by
  refine List.Nodup.filter _ (List.pairwise_filterMap.mpr ?_)
  refine (List.pairwise_map.mp h).imp ?_
  rintro p q hne uri hp uri' hq rfl
  exact hne (Uri.components_of_ofPath? hp hq)

end Workspace

/-- The document that a message brings findings about. -/
def ServerMessage.about? : ServerMessage → Option Uri
  | .publish uri _ _ => some uri
  | .watchFiles _ => none

namespace Server

theorem about?_publishAll (disk : SourceReader) (ws : Workspace) (uris : List Uri) :
    (publishAll disk ws uris).value.filterMap ServerMessage.about? = uris := by
  induction uris generalizing ws with
  | nil => rfl
  | cons uri rest ih =>
    show uri :: (publishAll disk (publish disk ws uri).state rest).value.filterMap
      ServerMessage.about? = uri :: rest
    rw [ih]

/-- **Changes are noted** by dropping the changed files one after the other; neither documents nor
settings are touched, so that which files count as changed is known from the start. -/
theorem foldl_noteChange (uris : List Uri) (soFar : Outcome Workspace (List Uri)) :
    let dropped := soFar.state.cache.invalidateEach (uris.filterMap (changedFile? soFar.state))
    let noted := uris.foldl noteChange soFar
    noted.state = { soFar.state with cache := dropped.2 } ∧
      ∀ u, u ∈ noted.value ↔ u ∈ soFar.value ∨ u ∈ soFar.state.openUris dropped.1 := by
  induction uris generalizing soFar with
  | nil => exact ⟨rfl, fun u => by simp [SymbolCache.invalidateEach, Workspace.openUris]⟩
  | cons uri rest ih =>
    rw [List.foldl_cons]
    cases hfile : changedFile? soFar.state uri with
    | none =>
      rw [List.filterMap_cons_none hfile, show noteChange soFar uri = soFar by
        simp only [noteChange, hfile]]
      exact ih soFar
    | some file =>
      obtain ⟨hstate, hvalue⟩ := ih (noteChange soFar uri)
      have hnext : (noteChange soFar uri).state =
          { soFar.state with cache := (soFar.state.cache.invalidate file).2 } := by
        simp only [noteChange, hfile]
        rfl
      have hnoted : ∀ u, u ∈ (noteChange soFar uri).value ↔ u ∈ soFar.value ∨
          u ∈ soFar.state.openUris (soFar.state.cache.invalidate file).1 := by
        intro u
        simp only [noteChange, hfile, List.mem_append, List.mem_filter]
        show u ∈ soFar.value ∨ u ∈ soFar.state.openUris (soFar.state.cache.invalidate file).1 ∧ _ ↔ _
        by_cases hu : u ∈ soFar.value <;> simp [hu]
      rw [List.filterMap_cons_some hfile]
      rw [hnext] at hstate hvalue
      refine ⟨hstate, fun u => ?_⟩
      rw [hvalue, hnoted, or_assoc]
      refine or_congr_right ?_
      show _ ↔ u ∈ soFar.state.openUris (_ ++ _)
      simp only [Workspace.openUris, List.filterMap_append, List.filter_append, List.mem_append]
      rfl

/-- No document is noted twice. -/
theorem nodup_noteAll (ws : Workspace) (uris : List Uri) : (noteAll ws uris).value.Nodup := by
  refine noteAll_induction (P := fun soFar => soFar.value.Nodup) ws uris List.nodup_nil ?_
  intro soFar uri hsoFar
  unfold noteChange
  split
  · exact hsoFar
  · next file _ =>
    rw [List.nodup_append]
    refine ⟨hsoFar, (Workspace.nodup_openUris (SymbolCache.sweep_named _ _ _).2).filter _, ?_⟩
    rintro u hu u' hu' rfl
    simpa [hu] using (List.mem_filter.mp hu').2

/-- The documents about which something is sent after changes on disk are the open ones among the
dropped files, each once. -/
theorem about?_filesChanged (disk : SourceReader) (ws : Workspace) (uris : List Uri) :
    let about := (filesChanged disk ws uris).value.sent.filterMap ServerMessage.about?
    about.Nodup ∧ ∀ u, u ∈ about ↔
      u ∈ ws.openUris (ws.cache.invalidateEach (uris.filterMap (changedFile? ws))).1 := by
  intro about
  have habout : about = (noteAll ws uris).value := about?_publishAll disk _ _
  rw [habout]
  refine ⟨nodup_noteAll ws uris, fun u => ?_⟩
  unfold noteAll
  rw [(foldl_noteChange uris _).2]
  simp

end Server

namespace SymbolCache

/-- **The order of changes does not matter.**  Whatever operations led to a cache, dropping some files
one after the other leaves the same cache in any order and drops the same files; dropping a file once
more drops nothing; and a message about changed files makes the server send findings about the same
documents, whatever documents are open and in whatever order the message names the files. -/
theorem invalidateEach_order (steps : List CacheStep) (paths paths' : List Path)
    (hpaths : paths.Perm paths') :
    let cache := afterSteps steps
    (cache.invalidateEach paths).2 = (cache.invalidateEach paths').2 ∧
    ((cache.invalidateEach paths).1.map Path.components).Perm
      ((cache.invalidateEach paths').1.map Path.components) ∧
    (∀ p, (cache.invalidate p).2.invalidate p = ([], (cache.invalidate p).2)) ∧
    ∀ (settings : Settings) (documents : List OpenDocument) (disk : SourceReader)
      (uris uris' : List Uri), uris.Perm uris' →
      let handled := Server.handle disk { settings, documents, cache }
      ((handled (.didChangeWatchedFiles uris)).value.sent.filterMap ServerMessage.about?).Perm
        ((handled (.didChangeWatchedFiles uris')).value.sent.filterMap ServerMessage.about?) := by
  intro cache
  have htidy : cache.Tidy := Tidy.afterSteps steps
  obtain ⟨hleft, hdropped⟩ := htidy.invalidateEach_perm hpaths
  refine ⟨hleft, hdropped, htidy.invalidate_again, ?_⟩
  intro settings documents disk uris uris' huris handled
  let ws : Workspace := { settings, documents, cache }
  have hsame := htidy.isIn_invalidateEach_perm (huris.filterMap (Server.changedFile? ws))
  obtain ⟨hnodup, hmem⟩ := Server.about?_filesChanged disk ws uris
  obtain ⟨hnodup', hmem'⟩ := Server.about?_filesChanged disk ws uris'
  refine (List.perm_ext_iff_of_nodup hnodup hnodup').mpr fun u => ?_
  rw [hmem, hmem']
  exact ⟨Workspace.mem_openUris_congr hsame, Workspace.mem_openUris_congr fun q => (hsame q).symm⟩

/-- Two files that watch each other and one that watches a file without an entry: with both changes
all three go, in whichever order the changes are named, and findings are sent about the open ones. -/
theorem invalidateEach_order_mutual :
    let a := Path.ofString "/w/a.das"
    let b := Path.ofString "/w/b.das"
    let c := Path.ofString "/w/c.das"
    let gone := Path.ofString "/w/gone.das"
    let steps : List CacheStep := [.insert a { watched := [b] }, .insert b { watched := [a] },
      .insert c { watched := [gone] }]
    let cache := afterSteps steps
    let documents : List OpenDocument := [⟨⟨"file:///w/c.das"⟩, { text := "require gone" }⟩,
      ⟨⟨"file:///w/a.das"⟩, { text := "require b" }⟩]
    let about := fun uris => (Server.handle (.ofFiles []) { documents, cache }
      (.didChangeWatchedFiles uris)).value.sent.filterMap ServerMessage.about?
    let changed : List Uri := [⟨"file:///w/b.das"⟩, ⟨"file:///w/gone.das"⟩]
    ([b, gone].Perm [gone, b] ∧ changed.Perm changed.reverse) ∧
      ((cache.invalidateEach [b, gone]).1 = [b, a, c] ∧
        (cache.invalidateEach [gone, b]).1 = [c, b, a] ∧
        about changed = [⟨"file:///w/a.das"⟩, ⟨"file:///w/c.das"⟩]) ∧
      (cache.invalidateEach [b, gone]).2 = (cache.invalidateEach [gone, b]).2 ∧
      (about changed).Perm (about changed.reverse) := by
  intro a b c gone steps cache documents about changed
  have hpaths : [b, gone].Perm [gone, b] := List.Perm.swap gone b []
  have hchanged : changed.Perm changed.reverse := (List.reverse_perm changed).symm
  obtain ⟨hleft, -, -, hsent⟩ := invalidateEach_order steps _ _ hpaths
  exact ⟨⟨hpaths, hchanged⟩, by decide +kernel, hleft,
    hsent {} documents (.ofFiles []) _ _ hchanged⟩

end SymbolCache

end ScriptIndex
