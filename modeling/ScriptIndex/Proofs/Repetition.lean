import ScriptIndex.Proofs.Footprint

/-!
# Extracting a file again

Extracting a file a second time takes other ways than the first time: what was followed is cached now,
and the file itself is.  Nothing comes out differently.  What counts as present is the same, since only
files that are there were cached; an entry that was used is still the same; and a file that could not
be read was not cached.

* `Gathers.present_eq`, `look_congr` — a traversal changes nothing about what is found;
* `Gathers.get?_kept`, `Gathers.get?_unread` — entries stay, and what cannot be read has none;
* `Gathers.replay` — so over the cache it left, a traversal goes the same way again and adds nothing;
* `SymbolCache.entries_insert_again`, `SymbolCache.isIn_dependentsOf_insert_again` — putting in the same
  symbols again changes neither table;
* `Extraction.extract_again` — extracting twice is extracting once, but for the count of scans.
-/

namespace ScriptIndex

open Extraction (look)

/-! ## What a traversal leaves as it is -/

namespace Gathers

variable {naming : Naming} {reader : SourceReader} {asked : Path → Prop} {chain : List Path}
  {file : Path} {items : List SourceItem} {s s' : FileSymbols} {c c' : SymbolCache} {p : Path}

/-- A file is present if it is cached or there.  Only files that are there are cached, so this does not
change. -/
theorem present_eq (hr : reader.Regular naming asked)
    (h : Gathers naming reader chain file items s c s' c') (hp : asked p) :
    (c'.contains p || reader.isFile p) = (c.contains p || reader.isFile p) := by
  refine h.preserves (P := fun d =>
    (d.contains p || reader.isFile p) = (c.contains p || reader.isFile p)) (fun _ hd => hd) ?_ rfl
  intro file module target text r d d₁ found uncached _ _ hd₁
  by_cases hkey : p.components = target.components
  · have hthere := Naming.isThere_of_found found
    rw [SymbolCache.contains_eq, uncached, Option.isSome_none, Bool.false_or] at hthere
    have hfile := hr.isFile_congr p target hp (hr.asks target (Naming.asks_of_found found)) hkey
    rw [hfile, hthere, Bool.or_true, Bool.or_true]
  · rw [SymbolCache.contains_eq, SymbolCache.get?_insert, if_neg hkey, ← SymbolCache.contains_eq]
    exact hd₁

/-- What is cached stays as it is. -/
theorem get?_kept (h : Gathers naming reader chain file items s c s' c') {r : FileSymbols}
    (hp : c.get? p = some r) : c'.get? p = some r := by
  refine h.preserves (P := fun d => d.get? p = some r) (fun _ hd => hd) ?_ hp
  intro _ _ target _ _ d d₁ _ uncached _ hd hd₁
  rw [SymbolCache.get?_insert, if_neg (SymbolCache.ne_of_get? hd uncached)]
  exact hd₁

/-- What cannot be read is not cached. -/
theorem get?_unread (hr : reader.Regular naming asked)
    (h : Gathers naming reader chain file items s c s' c') (hasked : asked p)
    (hunread : reader.text? p = none) (hp : c.get? p = none) : c'.get? p = none := by
  refine h.preserves (P := fun d => d.get? p = none) (fun _ hd => hd) ?_ hp
  intro _ _ target text _ d d₁ found _ read _ hd₁
  have hne : p.components ≠ target.components := by
    intro hkey
    have htext := hr.text_congr p target hasked (hr.asks target (Naming.asks_of_found found)) hkey
    rw [hunread, read] at htext
    cases htext
  rw [SymbolCache.get?_insert, if_neg hne]
  exact hd₁

end Gathers

/-- Caches under which the same files are present lead every search the same way. -/
theorem look_congr {naming : Naming} {reader : SourceReader} {asked : Path → Prop}
    (hr : reader.Regular naming asked) {c d : SymbolCache}
    (h : ∀ q, asked q → (d.contains q || reader.isFile q) = (c.contains q || reader.isFile q))
    (file : Path) (module : String) : look naming reader d file module = look naming reader c file module :=
  Naming.resolve_congr fun q hq => h q (hr.asks q (Naming.asks_of_probed hq))

/-! ## The same way again -/

/-- **A traversal over the cache it left.**  Let `final` be a cache under which the same files are present
as before a traversal, and which has the entries that the traversal left, those of files on the way
aside.  Over `final` the same items are gathered to the same symbols, and nothing is added: whatever
was followed is cached. -/
theorem Gathers.replay {naming : Naming} {reader : SourceReader} {asked : Path → Prop}
    (hr : reader.Regular naming asked) {chain : List Path} {file : Path} {items : List SourceItem}
    {s s' : FileSymbols} {c c' final : SymbolCache} (h : Gathers naming reader chain file items s c s' c')
    (hpresent : ∀ q, asked q →
      (final.contains q || reader.isFile q) = (c.contains q || reader.isFile q))
    (hfinal : ∀ q : Path, q.isIn (file :: chain) = false → final.get? q = c'.get? q) :
    Gathers naming reader chain file items s final s' final := by
  induction h with
  | done => exact .done
  | declared _ ih => exact .declared (ih hpresent hfinal)
  | missing found _ ih =>
    have hrest := ih hpresent hfinal
    rw [← look_congr hr hpresent] at found hrest
    exact .missing found hrest
  | circular found onWay _ ih =>
    have hrest := ih hpresent hfinal
    rw [← look_congr hr hpresent] at found hrest
    exact .circular found onWay hrest
  | @unreadable _ _ _ _ _ _ _ _ _ target found offWay uncached unread rest ih =>
    have hrest := ih hpresent hfinal
    have hnone : final.get? target = none := by
      rw [hfinal target offWay]
      exact rest.get?_unread hr (hr.asks target (Naming.asks_of_found found)) unread uncached
    rw [← look_congr hr hpresent] at found hrest
    exact .unreadable found offWay hnone unread hrest
  | @cached _ _ _ _ _ _ _ _ _ target _ found offWay hit rest ih =>
    have hrest := ih hpresent hfinal
    have hsome := (hfinal target offWay).trans (rest.get?_kept hit)
    rw [← look_congr hr hpresent] at found hrest
    exact .cached found offWay hsome hrest
  | @followed chain file _ s _ c c₁ _ module line target _ r found offWay uncached read below rest _ ih =>
    have hstep : Gathers naming reader chain file [.require module line] s c _ (c₁.insert target r) :=
      .followed found offWay uncached read below .done
    have hrest := ih (fun q hq => (hpresent q hq).trans (hstep.present_eq hr hq).symm) hfinal
    -- the target was followed then and has its entry now
    have hentry := SymbolCache.get?_insert_self c₁ target r
    have hsome := (hfinal target offWay).trans (rest.get?_kept hentry)
    rw [← look_congr hr hpresent] at found hrest
    exact .cached found offWay hsome hrest

/-! ## The same symbols again -/

namespace SymbolCache

theorem insert_countScan (cache : SymbolCache) (file : Path) (s : FileSymbols) :
    cache.countScan.insert file s = (cache.insert file s).countScan := by
  have herase : cache.countScan.erase file = (cache.erase file).countScan := by
    have hsame : cache.countScan.get? file = cache.get? file := rfl
    unfold erase
    rw [hsame]
    cases cache.get? file <;> rfl
  unfold insert
  rw [herase]
  rfl

/-- The entry stands at the end already. -/
theorem entries_insert_again (cache : SymbolCache) (file : Path) (s : FileSymbols) :
    ((cache.insert file s).insert file s).entries = (cache.insert file s).entries := by
  have hothers : Keyed.drop CacheEntry.key file.components (cache.erase file).entries =
      (cache.erase file).entries := by
    refine List.filter_eq_self.mpr fun e he => decide_eq_true ?_
    exact (mem_erase.mp he).2
  have herase : ((cache.insert file s).erase file).entries = (cache.erase file).entries := by
    rw [erase_of_cached (get?_insert_self cache file s)]
    show Keyed.drop CacheEntry.key file.components ((cache.erase file).entries ++ [⟨file, s⟩]) = _
    unfold Keyed.drop at hothers ⊢
    rw [List.filter_append, hothers]
    simp [CacheEntry.key]
  show ((cache.insert file s).erase file).entries ++ [⟨file, s⟩] =
    (cache.erase file).entries ++ [⟨file, s⟩]
  rw [herase]

/-- The file is taken from the watchers of what it watches and put back. -/
theorem isIn_dependentsOf_insert_again {cache : SymbolCache}
    (h : (cache.dependents.map Watchers.key).Nodup) (file : Path) (s : FileSymbols) (w d : Path) :
    d.isIn (((cache.insert file s).insert file s).dependentsOf w) =
      d.isIn ((cache.insert file s).dependentsOf w) := by
  have hagain : ((cache.insert file s).insert file s).dependents =
      s.watched.foldl (link file) (unlink file s.watched (cache.insert file s).dependents) := by
    show s.watched.foldl (link file) ((cache.insert file s).erase file).dependents = _
    rw [erase_of_cached (get?_insert_self cache file s)]
  have hself : w.isIn s.watched = true → d.components = file.components →
      d.isIn ((cache.insert file s).dependentsOf w) = true :=
    fun hw hd => (isIn_watchersIn_foldl_link file w d s.watched _).mpr (Or.inr ⟨hw, hd⟩)
  rw [Bool.eq_iff_iff, dependentsOf_eq, hagain, isIn_watchersIn_foldl_link,
    isIn_watchersIn_unlink file w d s.watched (nodup_insert file s h), ← dependentsOf_eq]
  constructor
  · rintro (⟨hd, -⟩ | ⟨hw, hd⟩)
    · exact hd
    · exact hself hw hd
  · intro hin
    by_cases hd : d.components = file.components
    · cases hw : w.isIn s.watched with
      | true => exact Or.inr ⟨rfl, hd⟩
      | false => exact Or.inl ⟨hin, fun h => by cases h⟩
    · exact Or.inl ⟨hin, fun _ => hd⟩

end SymbolCache

/-! ## Extractions -/

namespace Extraction

variable {naming : Naming} {reader : SourceReader} {asked : Path → Prop}

/-- **Extracting again changes nothing.**  Take a reader for which paths are names of files and finitely
many files can be read, any naming and text, any cache that has one row for each watched path, and a
file that is there or has an entry.  Extracting the file a second time gives the same symbols and
leaves the same entries and the same watchers, and one more scan is counted. -/
theorem extract_again (hr : reader.Regular naming asked) {file : Path} (hasked : asked file)
    {cache : SymbolCache} (hrows : (cache.dependents.map Watchers.key).Nodup)
    (hthere : reader.isFile file = true ∨ cache.contains file = true) (text : String) :
    let once := extract naming reader file text cache
    let twice := extract naming reader file text once.state
    twice.value = once.value ∧ twice.state.entries = once.state.entries ∧
      (∀ w d : Path, d.isIn (twice.state.dependentsOf w) = d.isIn (once.state.dependentsOf w)) ∧
      twice.state.scans = once.state.scans + 1 := by
  intro once twice
  obtain ⟨c, hfirst, hstate⟩ := extract_gathers hr file text cache
  obtain ⟨c', hsecond, hstate'⟩ := extract_gathers hr file text once.state
  have hpresent : ∀ q, asked q →
      (once.state.contains q || reader.isFile q) = (cache.contains q || reader.isFile q) := by
    intro q hq
    rw [hstate, SymbolCache.contains_eq, SymbolCache.get?_insert]
    by_cases hkey : q.components = file.components
    · rw [if_pos hkey, SymbolCache.contains_eq, SymbolCache.get?_congr cache hkey,
        ← SymbolCache.contains_eq, hr.isFile_congr q file hq hasked hkey]
      rcases hthere with hfile | hcached
      · simp [hfile]
      · simp [hcached]
    · rw [if_neg hkey, ← SymbolCache.contains_eq]
      exact (hfirst.present_eq hr hq :)
  have hfinal : ∀ q : Path, q.isIn [file] = false → once.state.get? q = c.get? q := by
    intro q hq
    rw [hstate, SymbolCache.get?_insert, if_neg (Path.ne_of_not_isIn_cons hq)]
  have hreplay : Gathers naming reader [] file (SourceItem.scan file text.toList) {}
      once.state.countScan once.value once.state.countScan := hfirst.replay hr hpresent hfinal
  obtain ⟨hvalue, hcache⟩ := hsecond.unique hreplay
  have htwice : twice.state = ((c.insert file once.value).insert file once.value).countScan := by
    show (extract naming reader file text once.state).state = _
    rw [hstate', hvalue, hcache, SymbolCache.insert_countScan, hstate]
  have hnodup : (c.dependents.map Watchers.key).Nodup :=
    hfirst.preserves (P := fun d => (d.dependents.map Watchers.key).Nodup) (fun _ h => h)
      (fun _ _ target _ r _ _ _ _ _ _ h => SymbolCache.nodup_insert target r h) hrows
  have honce : once.state = c.insert file once.value := hstate
  rw [htwice, honce]
  refine ⟨hvalue, SymbolCache.entries_insert_again c file once.value, fun w d => ?_, ?_⟩
  · exact SymbolCache.isIn_dependentsOf_insert_again hnodup file once.value w d
  · show ((c.insert file once.value).insert file once.value).scans + 1 = _
    rw [SymbolCache.scans_insert]

/-- A file that is cached only, requires one that requires it back, one that cannot be read and one that
is cached with other symbols than it has: it is cached anew, and a second time. -/
theorem extract_again_cyclic :
    let main := Path.ofString "/p/main.das"
    let old := Path.ofString "/p/old.das"
    let reader := SourceReader.ofFiles [⟨.ofString "/p/b.das", some "require main\ndef fb()"⟩,
      ⟨.ofString "/p/c.das", none⟩, ⟨old, some "def fresh()"⟩]
    let cache := (SymbolCache.insert {} main { watched := [main] }).insert old { watched := [main] }
    let text := "require b\nrequire c\nrequire old\nrequire main\ndef fm()"
    let once := extract .standard reader main text cache
    let twice := extract .standard reader main text once.state
    (reader.isFile main = false ∧ (cache.dependents.map Watchers.key).Nodup ∧
        cache.contains main = true ∧ once.value.cycles.length = 2 ∧ once.state.scans = 2) ∧
      twice.value = once.value ∧ twice.state.entries = once.state.entries ∧
      (∀ w d : Path, d.isIn (twice.state.dependentsOf w) = d.isIn (once.state.dependentsOf w)) ∧
      twice.state.scans = once.state.scans + 1 := by
  intro main old reader cache text once twice
  have hrows : (cache.dependents.map Watchers.key).Nodup := by decide +kernel
  have hcached : cache.contains main = true := by decide +kernel
  refine ⟨⟨by decide +kernel, hrows, hcached, by decide +kernel, by decide +kernel⟩, ?_⟩
  exact extract_again (SourceReader.ofFiles_regular _ _) trivial hrows (Or.inr hcached) text

end Extraction

end ScriptIndex
