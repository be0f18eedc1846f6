import Mathlib.Data.Set.Card
import ScriptIndex.Proofs.ExtractionLog
import ScriptIndex.Proofs.RequireGraph

/-!
# Extractions end

Following requires has no argument that gets smaller: a module may lead anywhere, also back to the file
that asks for it.  It ends because no file is on the way twice and all but the outermost were read, so
that the way is never longer than one more than the number of files that can be read.  A depth of that
number is therefore as good as none.

* `SourceReader.readable`, `SourceReader.bounded_of_finite` — the files that can be read, and that a way
  through them is bounded by their number;
* `Extraction.visit_of_depth` — two depths that suffice give the same outcome, log included;
* `Extraction.underway`, `Reports.balanced` — the files that are begun and not done, at any point of a
  log, are a way;
* `Extraction.extract_terminates` — so an extraction ends, and no bound that suffices shows in it.
-/

namespace ScriptIndex

/-! ## How many files can be read -/

namespace SourceReader

variable {reader : SourceReader}

/-- The files that can be read, each as what all paths to it have in common. -/
def readable (reader : SourceReader) : Set (List Component) :=
  {k | ∃ p : Path, p.components = k ∧ (reader.text? p).isSome = true}

/-- Different files that can be read are no more than there are. -/
theorem bounded_of_finite (h : reader.readable.Finite) :
    reader.Bounded (fun _ => True) reader.readable.ncard := by
  intro paths hread hnodup
  have hsub : ↑(paths.map Path.components).toFinset ⊆ reader.readable := by
    intro k hk
    rw [List.coe_toFinset] at hk
    obtain ⟨p, hp, rfl⟩ := List.mem_map.mp hk
    exact ⟨p, rfl, (hread p hp).2⟩
  calc paths.length
      = (paths.map Path.components).toFinset.card := by
        rw [List.toFinset_card_of_nodup hnodup, List.length_map]
    _ = Set.ncard ↑(paths.map Path.components).toFinset := (Set.ncard_coe_finset _).symm
    _ ≤ reader.readable.ncard := Set.ncard_le_ncard hsub h

/-- Of files held in memory those can be read whose first entry has a text. -/
theorem readable_ofFiles (files : List MemoryFile) : (ofFiles files).readable =
    ↑((files.map MemoryFile.key).filter fun k =>
      ((Keyed.find? MemoryFile.key k files).bind MemoryFile.text).isSome).toFinset := by
  have htext : ∀ p, (ofFiles files).text? p =
      (Keyed.find? MemoryFile.key p.components files).bind MemoryFile.text := by
    intro p
    cases hfind : Keyed.find? MemoryFile.key p.components files with
    | none => simp [text?, ofFiles, hfind, Except.toOption]
    | some file =>
      obtain ⟨path, text⟩ := file
      cases text <;> simp [text?, ofFiles, hfind, Except.toOption]
  ext k
  simp only [readable, htext, Set.mem_ofPred_eq, List.coe_toFinset, List.mem_filter]
  constructor
  · rintro ⟨p, rfl, hsome⟩
    obtain ⟨text, hbind⟩ := Option.isSome_iff_exists.mp hsome
    obtain ⟨file, hfind, -⟩ := Option.bind_eq_some_iff.mp hbind
    exact ⟨List.mem_map.mpr ⟨file, List.mem_of_find?_eq_some hfind, Keyed.key_of_find? _ hfind⟩, hsome⟩
  · rintro ⟨hmem, hsome⟩
    obtain ⟨file, -, rfl⟩ := List.mem_map.mp hmem
    exact ⟨file.path, rfl, hsome⟩

end SourceReader

/-! ## Depth does not matter -/

namespace Extraction

variable {naming : Naming} {reader : SourceReader} {asked : Path → Prop}

section

variable {follow follow' : Follow} {way : List Path}
  (h : ∀ target text cache, target.isIn way = false → reader.text? target = some text →
    follow target text cache = follow' target text cache)

include h

theorem required_congr {target : Path} (hoff : target.isIn way = false) (cache : SymbolCache) :
    required reader follow target cache = required reader follow' target cache := by
  unfold required
  cases cache.get? target with
  | some symbols => rfl
  | none =>
    cases hread : reader.read target with
    | error fault => rfl
    | ok text => simp only [h target text cache hoff (SourceReader.text?_eq_some.mpr hread)]

/-- Items ask only for files that are off the way and can be read. -/
theorem absorb_congr (file : Path) (draft : Draft) (item : SourceItem) :
    absorb naming reader follow way file draft item =
      absorb naming reader follow' way file draft item := by
  cases item with
  | function d => rfl
  | require module line =>
    simp only [absorb, followRequire]
    generalize naming.resolve _ file module = search
    cases search.found with
    | none => rfl
    | some target =>
      by_cases hway : target.isIn way = true
      · simp only [hway, if_true]
      · simp only [hway, if_false, Draft.report, Bool.false_eq_true,
          required_congr h (Bool.not_eq_true _ ▸ hway)]

theorem gather_congr (file : Path) (text : String) (cache : SymbolCache) :
    gather naming reader follow way file text cache =
      gather naming reader follow' way file text cache := by
  have habsorb : absorb naming reader follow way file = absorb naming reader follow' way file := by
    funext draft item
    exact absorb_congr h file draft item
  unfold gather
  rw [habsorb]

end

/-- **Depths that suffice.**  Both leave room for every file that can still be found, so the visits ask
the same at every directive. -/
theorem visit_of_depth {limit : Nat} (hb : reader.Bounded (fun _ => True) limit) {depth depth' : Nat}
    {chain : List Path} {file : Path} (hway : Way reader (fun _ => True) (file :: chain))
    (hdepth : limit < depth + chain.length) (hdepth' : limit < depth' + chain.length) (text : String)
    (cache : SymbolCache) :
    visit naming reader depth chain file text cache =
      visit naming reader depth' chain file text cache := by
  have hpos : ∀ {depth : Nat} {chain : List Path} {file : Path},
      Way reader (fun _ => True) (file :: chain) → limit < depth + chain.length → 0 < depth := by
    intro depth chain file hway hdepth
    have hlength := hway.length_le hb
    rw [List.length_cons] at hlength
    omega
  induction depth generalizing depth' chain file text cache with
  | zero => exact absurd (hpos hway hdepth) (Nat.lt_irrefl 0)
  | succ depth ih =>
    obtain ⟨depth', rfl⟩ := Nat.exists_eq_succ_of_ne_zero (Nat.ne_of_gt (hpos hway hdepth'))
    have hfollow : ∀ target text cache, target.isIn (file :: chain) = false →
        reader.text? target = some text →
        visit naming reader depth (file :: chain) target text cache =
          visit naming reader depth' (file :: chain) target text cache := by
      intro target text cache hoff htext
      apply ih (hway.follow trivial htext hoff)
      · rw [List.length_cons]
        omega
      · rw [List.length_cons]
        omega
    show (gather naming reader _ (file :: chain) file text cache).finish file =
      (gather naming reader _ (file :: chain) file text cache).finish file
    rw [gather_congr hfollow]

/-- The limit of a reader bounds extractions and has no part in a visit. -/
theorem visit_with_limit (limit depth : Nat) (chain : List Path) :
    visit naming { reader with limit := limit } depth chain = visit naming reader depth chain := by
  induction depth generalizing chain with
  | zero => rfl
  | succ depth ih =>
    funext file text cache
    show (gather naming _ (visit naming _ depth (file :: chain)) _ file text cache).finish file =
      (gather naming reader (visit naming reader depth (file :: chain)) _ file text cache).finish file
    rw [ih]
    rfl

end Extraction

/-! ## The files underway -/

/-- The files that are begun and not done, the innermost first, after one more event. -/
def Event.nest (way : List Path) : Event → List Path
  | .extracting file _ => file :: way
  | .extracted .. => way.tail
  | _ => way

/-- The files that are begun and not done at the end of a log. -/
def Extraction.underway (log : List Event) : List Path :=
  log.foldl Event.nest []

theorem Event.nest_of_isQuiet {event : Event} (h : event.isQuiet = true) (way : List Path) :
    event.nest way = way := by
  cases event with
  | extracting file bytes => cases h
  | extracted file functions requires => cases h
  | _ => rfl

theorem foldl_nest_of_isQuiet {log : List Event} (h : ∀ event ∈ log, event.isQuiet = true)
    (way : List Path) : log.foldl Event.nest way = way := by
  induction log with
  | nil => rfl
  | cons event rest ih =>
    rw [List.forall_mem_cons] at h
    rw [List.foldl_cons, Event.nest_of_isQuiet h.1, ih h.2]

/-- Starting below the files of `way`, the files underway satisfy `P` at every point of the log, and
after it they are those of `way` again. -/
structure Balanced (P : List Path → Prop) (way : List Path) (log : List Event) : Prop where
  throughout : ∀ part, part <+: log → P (part.foldl Event.nest way)
  back : log.foldl Event.nest way = way

namespace Balanced

variable {P : List Path → Prop} {way : List Path} {log later : List Event}

theorem quiet (hway : P way) (h : ∀ event ∈ log, event.isQuiet = true) : Balanced P way log where
  throughout := by
    intro part hpart
    rw [foldl_nest_of_isQuiet fun event he => h event (hpart.subset he)]
    exact hway
  back := foldl_nest_of_isQuiet h way

theorem append (h : Balanced P way log) (h' : Balanced P way later) :
    Balanced P way (log ++ later) where
  throughout := by
    intro part hpart
    rcases List.prefix_or_prefix_of_prefix hpart (List.prefix_append log later) with hshort | ⟨rest, rfl⟩
    · exact h.throughout part hshort
    · rw [List.prefix_append_right_inj] at hpart
      rw [List.foldl_append, h.back]
      exact h'.throughout rest hpart
  back := by rw [List.foldl_append, h.back, h'.back]

/-- One more file is underway from its beginning to its end. -/
theorem extraction (hway : P way) {file : Path} (h : Balanced P (file :: way) log)
    (bytes functions requires : Nat) :
    Balanced P way (.extracting file bytes :: (log ++ [.extracted file functions requires])) := by
  have hback : (log ++ [Event.extracted file functions requires]).foldl Event.nest (file :: way) =
      way := by
    rw [List.foldl_append, h.back]
    rfl
  refine ⟨fun part hpart => ?_, hback⟩
  rcases List.prefix_cons_iff.mp hpart with rfl | ⟨inner, rfl, hinner⟩
  · exact hway
  · rw [List.foldl_cons]
    rcases List.prefix_concat_iff.mp hinner with rfl | hinner
    · exact hback.symm ▸ hway
    · exact h.throughout inner hinner

end Balanced

/-- **The files underway are a way.**  A file that is begun was found off the way and read. -/
theorem Reports.balanced {reader : SourceReader} {way : List Path} {c c' : SymbolCache}
    {log : List Event} (h : Reports reader way c c' log)
    (hway : Extraction.Way reader (fun _ => True) way) :
    Balanced (Extraction.Way reader fun _ => True) way log := by
  induction h with
  | quiet h => exact .quiet hway h
  | append _ _ ih ih' => exact (ih hway).append (ih' hway)
  | extraction offWay _ read _ ih => exact .extraction hway (ih (hway.follow trivial read offWay)) ..

namespace Extraction

variable {naming : Naming} {reader : SourceReader}

/-- At every point of the log of a visit the files underway are a way. -/
theorem visit_balanced (depth : Nat) (file : Path) (text : String) (cache : SymbolCache) :
    Balanced (Way reader fun _ => True) [] (visit naming reader (depth + 1) [] file text cache).events := by
  obtain ⟨c, log, functions, requires, hlog, -, hevents⟩ :=
    @visit_reports naming reader depth [] file text cache
  rw [hevents]
  exact .extraction ⟨List.nodup_nil, by simp⟩ (hlog.balanced (.root file)) ..

/-- **Extractions end.**  For every reader that can read finitely many files, every naming, file, text
and cache: with a depth of one more than the number of readable files the extraction is a finished
traversal, which no depth cuts off; at every point of its log the files underway are different and
no more than that, and at its end none is; and every greater depth, and every limit of the reader that
is not too small, gives the same outcome. -/
theorem extract_terminates (naming : Naming) (reader : SourceReader) (hfinite : reader.readable.Finite)
    (file : Path) (text : String) (cache : SymbolCache) :
    let bound := reader.readable.ncard + 1
    let outcome := visit naming reader bound [] file text cache
    (∃ c, Gathers naming reader [] file (SourceItem.scan file text.toList) {} cache.countScan
        outcome.value c ∧ outcome.state = c.insert file outcome.value) ∧
      (∀ part, part <+: outcome.events →
        ((underway part).map Path.components).Nodup ∧ (underway part).length ≤ bound) ∧
      underway outcome.events = [] ∧
      (∀ depth, bound ≤ depth → visit naming reader depth [] file text cache = outcome) ∧
      ∀ limit, reader.readable.ncard ≤ limit →
        extract naming { reader with limit := limit } file text cache = outcome := by
  intro bound outcome
  have hb := SourceReader.bounded_of_finite hfinite
  have hroot : Way reader (fun _ => True) [file] := .root file
  have hdepth : ∀ depth, bound ≤ depth → visit naming reader depth [] file text cache = outcome :=
    fun depth hle => visit_of_depth hb hroot hle (Nat.lt_succ_self _) text cache
  have hlog : Balanced (Way reader fun _ => True) [] outcome.events :=
    visit_balanced _ file text cache
  refine ⟨?_, fun part hpart => ?_, hlog.back, hdepth, fun limit hlimit => ?_⟩
  · exact visit_gathers (fun _ _ => trivial) hb hroot (Nat.lt_succ_self _) text cache
  · have hway := hlog.throughout part hpart
    exact ⟨hway.distinct, hway.length_le hb⟩
  · unfold extract
    rw [visit_with_limit]
    exact hdepth _ (Nat.succ_le_succ hlimit)

/-- Two files that require each other, the file that is asked for and a third one that cannot be read:
the way has the full length of three once. -/
theorem extract_terminates_mutual :
    let main := Path.ofString "/p/main.das"
    let a := Path.ofString "/p/a.das"
    let b := Path.ofString "/p/b.das"
    let reader := SourceReader.ofFiles [⟨main, none⟩, ⟨a, some "require b\ndef fa()"⟩,
      ⟨b, some "require main\nrequire ../p/a\nrequire c"⟩, ⟨.ofString "/p/c.das", none⟩]
    let text := "require a\nrequire b"
    let outcome := visit .standard reader 3 [] main text {}
    reader.readable.Finite ∧ reader.readable.ncard = 2 ∧
      underway (outcome.events.take 9) = [b, a, main] ∧
      (∃ c, Gathers .standard reader [] main (SourceItem.scan main text.toList) {}
          (SymbolCache.countScan {}) outcome.value c ∧ outcome.state = c.insert main outcome.value) ∧
      (∀ part, part <+: outcome.events →
        ((underway part).map Path.components).Nodup ∧ (underway part).length ≤ 3) ∧
      underway outcome.events = [] ∧
      (∀ depth, 3 ≤ depth → visit .standard reader depth [] main text {} = outcome) ∧
      ∀ limit, 2 ≤ limit → extract .standard { reader with limit := limit } main text {} = outcome := by
  intro main a b reader text outcome
  have hfinite : reader.readable.Finite := by
    show (SourceReader.ofFiles _).readable.Finite
    rw [SourceReader.readable_ofFiles]
    exact Finset.finite_toSet _
  have hcard : reader.readable.ncard = 2 := by
    show (SourceReader.ofFiles _).readable.ncard = 2
    rw [SourceReader.readable_ofFiles, Set.ncard_coe_finset]
    decide +kernel
  have hterminates := extract_terminates .standard reader hfinite main text {}
  rw [hcard] at hterminates
  exact ⟨hfinite, hcard, by decide +kernel, hterminates⟩

end Extraction

end ScriptIndex
