import ScriptIndex.Proofs.Traversal

/-!
# What an extraction reports

The log of an extraction tells when each file is begun and when it is done, and a file that is
required is begun and done in between.  `Reports` says so as a relation between a cache, a later one
and the log of what was done on the way; laws about the log are inductions over it.  It holds at any
depth and for any reader.

* `Event.isQuiet` — an event between the beginning and the end of an extraction;
* `Reports` — quiet events, one stretch of a log after another, and the extraction of a file;
* `Extraction.absorb_reports`, `Extraction.visit_reports` — an item and a whole visit report so.
-/

namespace ScriptIndex

/-! ## Events -/

namespace Event

/-- Whether an event neither begins nor ends the extraction of a file. -/
def isQuiet : Event → Bool
  | extracting .. => false
  | extracted .. => false
  | _ => true

end Event

theorem SourceItem.isQuiet_event (item : SourceItem) : item.event.isQuiet = true := by
  cases item <;> rfl

theorem Resolution.isQuiet_event (resolution : Resolution) (file : Path) (module : String) :
    (resolution.event file module).isQuiet = true := by
  unfold Resolution.event
  split <;> rfl

theorem ReadFault.isQuiet_of_mem {fault : ReadFault} {file : Path} {event : Event}
    (h : event ∈ fault.events file) : event.isQuiet = true := by
  obtain ⟨reason, -, rfl⟩ := List.mem_map.mp h
  rfl

/-- Taking over symbols is told by one quiet event. -/
theorem Draft.events_takeOver (draft : Draft) (directive : CircularRequire) (required : FileSymbols) :
    ∃ event, event.isQuiet = true ∧
      (draft.takeOver directive required).events = draft.events ++ [event] :=
  ⟨_, rfl, rfl⟩

/-! ## The rules -/

/-- `Reports reader way c c' log`: below the files of `way`, what was done from the cache `c` to the
cache `c'` is told by `log`. -/
inductive Reports (reader : SourceReader) :
    List Path → SymbolCache → SymbolCache → List Event → Prop
  | quiet {way : List Path} {c : SymbolCache} {log : List Event}
      (h : ∀ event ∈ log, event.isQuiet = true) : Reports reader way c c log
  | append {way : List Path} {c c₁ c₂ : SymbolCache} {log later : List Event}
      (first : Reports reader way c c₁ log) (second : Reports reader way c₁ c₂ later) :
      Reports reader way c c₂ (log ++ later)
  | extraction {way : List Path} {c c₁ : SymbolCache} {log : List Event} {target : Path}
      {text : String} {s : FileSymbols} {bytes functions requires : Nat}
      (offWay : target.isIn way = false) (uncached : c.get? target = none)
      (read : reader.text? target = some text)
      (below : Reports reader (target :: way) c.countScan c₁ log) :
      Reports reader way c (c₁.insert target s)
        (.extracting target bytes :: (log ++ [.extracted target functions requires]))

/-! ## Extractions report so -/

namespace Extraction

variable {naming : Naming} {reader : SourceReader} {follow : Follow} {way : List Path} {file : Path}

section

variable (hfollow : ∀ target text cache, target.isIn way = false → cache.get? target = none →
  reader.text? target = some text →
    Reports reader way cache (follow target text cache).state (follow target text cache).events)

include hfollow

/-- Getting the symbols of a required file reports what following it reports, or quiet events. -/
theorem required_reports {target : Path} (hoff : target.isIn way = false) (cache : SymbolCache) :
    Reports reader way cache (required reader follow target cache).state
      (required reader follow target cache).events := by
  unfold required
  cases hget : cache.get? target with
  | some symbols => exact .quiet (fun _ h => absurd h List.not_mem_nil)
  | none =>
    cases hread : reader.read target with
    | ok text => exact hfollow target text cache hoff hget (SourceReader.text?_eq_some.mpr hread)
    | error fault =>
      apply Reports.quiet
      intro event h
      rcases List.mem_append.mp h with h | h
      · exact ReadFault.isQuiet_of_mem h
      · rw [List.mem_singleton.mp h]
        rfl

/-- Taking in an item adds to the log what getting the required file reports, between quiet events. -/
theorem absorb_reports (draft : Draft) (item : SourceItem) : ∃ log,
    Reports reader way draft.cache (absorb naming reader follow way file draft item).cache log ∧
      (absorb naming reader follow way file draft item).events = draft.events ++ log := by
  cases item with
  | function d => exact ⟨[], .quiet (by simp), (List.append_nil _).symm⟩
  | require module line =>
    simp only [absorb, followRequire]
    generalize hsearch : naming.resolve _ file module = search
    have hquiet := search.isQuiet_event file module
    cases hfound : search.found with
    | none => exact ⟨[search.event file module], .quiet (by simpa using hquiet), rfl⟩
    | some target =>
      by_cases hway : target.isIn way = true
      · refine ⟨[search.event file module, .circular target file line], ?_, ?_⟩
        · simp only [hway, if_true]
          exact .quiet (by simpa [Event.isQuiet] using hquiet)
        · simp [hway, Draft.report, Draft.closeCycle]
      · have hrequired := required_reports hfollow (Bool.not_eq_true _ ▸ hway) draft.cache
        have hfirst : Reports reader way draft.cache draft.cache [search.event file module] :=
          .quiet (by simpa using hquiet)
        simp only [Draft.report, hway, if_false, Bool.false_eq_true]
        cases hvalue : (required reader follow target draft.cache).value with
        | none => exact ⟨_, hfirst.append hrequired, by simp⟩
        | some symbols =>
          let before : Draft :=
            { symbols := draft.symbols.watch search.probed
              cache := (required reader follow target draft.cache).state
              events := draft.events ++ [search.event file module] ++
                (required reader follow target draft.cache).events }
          obtain ⟨event, hevent, hevents⟩ := before.events_takeOver ⟨line, module, target⟩ symbols
          have hlast : Reports reader way before.cache before.cache [event] :=
            .quiet (List.forall_mem_singleton.mpr hevent)
          refine ⟨_, hfirst.append (hrequired.append hlast), hevents.trans ?_⟩
          simp [before]

/-- All items of a file, one after the other. -/
theorem foldl_absorb_reports (items : List SourceItem) (draft : Draft) : ∃ log,
    Reports reader way draft.cache
        (items.foldl (absorb naming reader follow way file) draft).cache log ∧
      (items.foldl (absorb naming reader follow way file) draft).events = draft.events ++ log := by
  induction items generalizing draft with
  | nil => exact ⟨[], .quiet (by simp), (List.append_nil _).symm⟩
  | cons item rest ih =>
    obtain ⟨log, hfirst, hevents⟩ := @absorb_reports naming reader follow way file hfollow draft item
    obtain ⟨later, hrest, hlater⟩ := ih (absorb naming reader follow way file draft item)
    refine ⟨log ++ later, hfirst.append hrest, ?_⟩
    rw [List.foldl_cons, hlater, hevents, List.append_assoc]

/-- A file below others: its scan is counted first, and the items found are reported before any of
them is taken in. -/
theorem gather_reports (text : String) (cache : SymbolCache) : ∃ log,
    Reports reader way cache.countScan (gather naming reader follow way file text cache).cache log ∧
      (gather naming reader follow way file text cache).events =
        .extracting file text.utf8ByteSize :: log := by
  let items := SourceItem.scan file text.toList
  obtain ⟨log, hlog, hevents⟩ := @foldl_absorb_reports naming reader follow way file hfollow items
    { cache := cache.countScan
      events := .extracting file text.utf8ByteSize :: items.map SourceItem.event }
  have hitems : ∀ event ∈ items.map SourceItem.event, event.isQuiet = true :=
    List.forall_mem_map.mpr fun item _ => item.isQuiet_event
  exact ⟨items.map SourceItem.event ++ log, (Reports.quiet hitems).append hlog, hevents⟩

end

/-- **The log of a visit.**  It begins and ends with its own file, and in between reports what was done
for the directives; this is so at every depth. -/
theorem visit_reports (depth : Nat) (chain : List Path) (file : Path) (text : String)
    (cache : SymbolCache) : ∃ c₁ log functions requires,
      Reports reader (file :: chain) cache.countScan c₁ log ∧
      (visit naming reader (depth + 1) chain file text cache).state =
        c₁.insert file (visit naming reader (depth + 1) chain file text cache).value ∧
      (visit naming reader (depth + 1) chain file text cache).events =
        .extracting file text.utf8ByteSize :: (log ++ [.extracted file functions requires]) := by
  induction depth generalizing chain file text cache with
  | zero =>
    obtain ⟨log, hlog, hevents⟩ := @gather_reports naming reader (visit naming reader 0 (file :: chain))
      (file :: chain) file (fun _ _ _ _ _ _ => .quiet (by simp [visit])) text cache
    exact ⟨_, log, _, _, hlog, rfl, congrArg (· ++ _) hevents⟩
  | succ depth ih =>
    have hfollow : ∀ target text cache, target.isIn (file :: chain) = false →
        cache.get? target = none → reader.text? target = some text →
        Reports reader (file :: chain) cache
          (visit naming reader (depth + 1) (file :: chain) target text cache).state
          (visit naming reader (depth + 1) (file :: chain) target text cache).events := by
      intro target text cache hoff hget htext
      obtain ⟨c₁, log, functions, requires, hlog, hstate, hevents⟩ := ih (file :: chain) target text cache
      rw [hstate, hevents]
      exact .extraction hoff hget htext hlog
    obtain ⟨log, hlog, hevents⟩ := @gather_reports naming reader _ _ file hfollow text cache
    exact ⟨_, log, _, _, hlog, rfl, congrArg (· ++ _) hevents⟩

end Extraction

end ScriptIndex
