import Mathlib.Data.List.Chain
import Mathlib.Data.List.Perm.Subperm
import Mathlib.Logic.Relation
import ScriptIndex.Proofs.Respelling

/-!
# The graph of requires

The files of a workspace and the directives between them as a graph.  Its vertices are files, that is
paths taken for what they name, and there is an edge for every directive that leads to a readable
file.

* `Requires`, `ReachesCycle` — the graph, and the files from which a cycle can be reached;
* `Trail` — the files on the way of a traversal are a path of the graph, walked backwards;
* `SourceReader.ofFiles_regular` — files held in memory are a regular reader under every naming;
* `Call` — one use of the extractor and its cache, and `Call.runAll_invariant` — what extracting and
  dropping keep holds after every sequence of calls.
-/

namespace ScriptIndex

open Relation

/-! ## Edges -/

section

variable (naming : Naming) (reader : SourceReader)

/-- The directive for `module` in the file `p` leads to the readable file `t`. -/
def LeadsTo (p : Path) (module : String) (t : Path) : Prop :=
  (naming.resolve reader.isFile p module).found = some t ∧ (reader.text? t).isSome = true

/-- A file has a directive that leads to another one. -/
def Requires (k l : List Component) : Prop :=
  ∃ (p : Path) (text module : String) (line : Nat) (t : Path), p.components = k ∧
    reader.text? p = some text ∧ .require module line ∈ SourceItem.scan p text.toList ∧
    LeadsTo naming reader p module t ∧ t.components = l

/-- A file on a cycle can be reached, the file itself among them. -/
def ReachesCycle (k : List Component) : Prop :=
  ∃ l, ReflTransGen (Requires naming reader) k l ∧ TransGen (Requires naming reader) l l

/-- No file requires itself, directly or through others. -/
def Acyclic : Prop :=
  ∀ k, ¬ TransGen (Requires naming reader) k k

end

variable {naming : Naming} {reader : SourceReader} {asked : Path → Prop}

/-- A file reaches a cycle exactly if one of the files it requires does. -/
theorem reachesCycle_iff_step {k : List Component} :
    ReachesCycle naming reader k ↔
      ∃ l, Requires naming reader k l ∧ ReachesCycle naming reader l := by
  constructor
  · rintro ⟨m, hkm, hcycle⟩
    rcases ReflTransGen.cases_head hkm with rfl | ⟨l, hkl, hlm⟩
    · -- the file lies on the cycle itself, and so does the next one
      obtain ⟨l, hkl, hlk⟩ := TransGen.head'_iff.mp hcycle
      exact ⟨l, hkl, k, hlk, hcycle⟩
    · exact ⟨l, hkl, m, hlm, hcycle⟩
  · rintro ⟨l, hkl, m, hlm, hcycle⟩
    exact ⟨m, ReflTransGen.head hkl hlm, hcycle⟩

/-- A directive of a file that leads to a readable file is an edge. -/
theorem requires_of_found {p t : Path} {text module : String} {line : Nat}
    (ht : reader.text? p = some text) (hmem : .require module line ∈ SourceItem.scan p text.toList)
    (hfound : (naming.resolve reader.isFile p module).found = some t)
    (hread : (reader.text? t).isSome = true) :
    Requires naming reader p.components t.components :=
  ⟨p, text, module, line, t, rfl, ht, hmem, ⟨hfound, hread⟩, rfl⟩

/-- The edges of a file can be read off any way to write its path. -/
theorem requires_iff (hr : reader.Regular naming fun _ => True) {p : Path} {text : String}
    (ht : reader.text? p = some text) {l : List Component} :
    Requires naming reader p.components l ↔
      ∃ module line t, .require module line ∈ SourceItem.scan p text.toList ∧
        LeadsTo naming reader p module t ∧ t.components = l := by
  constructor
  · rintro ⟨q, text', module, line, t, hq, ht', hmem, ⟨hfound, hread⟩, hl⟩
    have htext := hr.text_congr q p trivial trivial hq
    rw [ht, ht', Option.some.injEq] at htext
    subst htext
    refine ⟨module, line, t, SourceItem.require_mem_scan p hmem, ⟨?_, hread⟩, hl⟩
    rw [← Naming.resolve_file_congr hq]
    exact hfound
  · rintro ⟨module, line, t, hmem, hleads, hl⟩
    exact ⟨p, text, module, line, t, rfl, ht, hmem, hleads, hl⟩

/-! ## Trails -/

/-- The files on the way, the innermost first: each is required by the next, and all can be read. -/
structure Trail (naming : Naming) (reader : SourceReader) (asked : Path → Prop)
    (way : List Path) : Prop where
  edges : way.IsChain fun p q => Requires naming reader q.components p.components
  readable : ∀ p ∈ way, asked p ∧ (reader.text? p).isSome = true

namespace Trail

theorem root {file : Path} (ha : asked file) (ht : (reader.text? file).isSome = true) :
    Trail naming reader asked [file] where
  edges := List.isChain_singleton file
  readable := by
    intro p hp
    rw [List.mem_singleton.mp hp]
    exact ⟨ha, ht⟩

theorem follow {file target : Path} {chain : List Path}
    (h : Trail naming reader asked (file :: chain)) (ha : asked target)
    (ht : (reader.text? target).isSome = true)
    (hedge : Requires naming reader file.components target.components) :
    Trail naming reader asked (target :: file :: chain) where
  edges := List.isChain_cons_cons.mpr ⟨hedge, h.edges⟩
  readable := by
    intro p hp
    rcases List.mem_cons.mp hp with rfl | hp
    · exact ⟨ha, ht⟩
    · exact h.readable p hp

theorem readable_of_isIn (hr : reader.Regular naming asked) {way : List Path} {w : Path}
    (h : Trail naming reader asked way) (ha : asked w) (hw : w.isIn way = true) :
    (reader.text? w).isSome = true := by
  obtain ⟨q, hq, hqw⟩ := Path.isIn_iff.mp hw
  obtain ⟨haq, hread⟩ := h.readable q hq
  rw [← hr.text_congr q w haq ha hqw]
  exact hread

/-- Every file on the way reaches the innermost one. -/
theorem reaches {file w : Path} {chain : List Path} (h : Trail naming reader asked (file :: chain))
    (hw : w.isIn (file :: chain) = true) :
    ReflTransGen (Requires naming reader) w.components file.components := by
  obtain ⟨q, hq, hqw⟩ := Path.isIn_iff.mp hw
  rw [← hqw]
  have hedges := h.edges
  clear h hw hqw
  induction chain generalizing file with
  | nil => rw [List.mem_singleton.mp hq]
  | cons next rest ih =>
    obtain ⟨hedge, hrest⟩ := List.isChain_cons_cons.mp hedges
    rcases List.mem_cons.mp hq with rfl | hq
    · exact ReflTransGen.refl
    · exact (ih hq hrest).tail hedge

end Trail

/-! ## Files held in memory -/

namespace SourceReader

theorem ofFiles_read_congr (files : List MemoryFile) {p q : Path}
    (h : p.components = q.components) : (ofFiles files).read p = (ofFiles files).read q := by
  simp only [ofFiles]
  rw [h]

theorem isFile_of_ofFiles_text {files : List MemoryFile} {p : Path}
    (h : ((ofFiles files).text? p).isSome = true) : (ofFiles files).isFile p = true := by
  cases hfind : Keyed.find? MemoryFile.key p.components files with
  | none => simp [text?, ofFiles, hfind, Except.toOption] at h
  | some file =>
    show Keyed.has MemoryFile.key p.components files = true
    rw [← Keyed.isSome_find?, hfind]
    rfl

/-- Files held in memory are found by what a path names, so every path may be asked for. -/
theorem ofFiles_regular (files : List MemoryFile) (naming : Naming) :
    (ofFiles files).Regular naming fun _ => True where
  asks := fun _ _ => trivial
  isFile_congr := by
    intro p q _ _ h
    simp only [ofFiles]
    rw [h]
  text_congr := by
    intro p q _ _ h
    unfold text?
    rw [ofFiles_read_congr files h]
  bounded := by
    intro paths hpaths hnodup
    have hsub : paths.map Path.components ⊆ files.map MemoryFile.key := by
      intro k hk
      obtain ⟨p, hp, rfl⟩ := List.mem_map.mp hk
      obtain ⟨file, hfile, hkey⟩ :=
        (Keyed.has_iff MemoryFile.key p.components files).mp
          (isFile_of_ofFiles_text (hpaths p hp).2)
      exact List.mem_map.mpr ⟨file, hfile, hkey⟩
    have hle := (hnodup.subperm hsub).length_le
    rw [List.length_map, List.length_map] at hle
    exact hle

end SourceReader

/-! ## Sequences of calls -/

/-- One use of the extractor and its cache. -/
inductive Call where
  /-- Extracts a file from a text. -/
  | extract (file : Path) (text : String)
  /-- Asks for the symbols of a file, from the cache unless `force` is set. -/
  | symbolsFor (force : Bool) (file : Path) (text : String)
  /-- Extracts a file again after a change. -/
  | refresh (file : Path) (text : String)
  /-- Drops a file. -/
  | invalidate (file : Path)

namespace Call

/-- The cache after a call. -/
def run (naming : Naming) (reader : SourceReader) (cache : SymbolCache) : Call → SymbolCache
  | extract file text => (Extraction.extract naming reader file text cache).state
  | symbolsFor force file text =>
    (Extraction.symbolsFor naming reader force file text cache).state
  | refresh file text => (Extraction.refresh naming reader file text cache).state
  | invalidate file => (cache.invalidate file).2

/-- A call gives a file that can be read with the text it has. -/
def Honest (reader : SourceReader) : Call → Prop
  | extract file text | symbolsFor _ file text | refresh file text => reader.read file = .ok text
  | invalidate _ => True

/-- The cache after some calls, starting from an empty one. -/
def runAll (naming : Naming) (reader : SourceReader) (calls : List Call) : SymbolCache :=
  calls.foldl (run naming reader) {}

/-- What extracting a file and dropping a file keep is kept by every call. -/
theorem run_invariant {P : SymbolCache → Prop}
    (hextract : ∀ file text cache, reader.text? file = some text → P cache →
      P (Extraction.extract naming reader file text cache).state)
    (hdrop : ∀ file cache, P cache → P (SymbolCache.invalidate cache file).2)
    {call : Call} (hcall : call.Honest reader) {cache : SymbolCache} (h : P cache) :
    P (call.run naming reader cache) := by
  cases call with
  | extract file text =>
    exact hextract file text cache (SourceReader.text?_eq_some.mpr hcall) h
  | symbolsFor force file text =>
    show P (Extraction.symbolsFor naming reader force file text cache).state
    unfold Extraction.symbolsFor
    split
    · exact h
    · exact hextract file text cache (SourceReader.text?_eq_some.mpr hcall) h
  | refresh file text =>
    exact hextract file text _ (SourceReader.text?_eq_some.mpr hcall) (hdrop file cache h)
  | invalidate file => exact hdrop file cache h

theorem runAll_invariant {P : SymbolCache → Prop} (hempty : P {})
    (hextract : ∀ file text cache, reader.text? file = some text → P cache →
      P (Extraction.extract naming reader file text cache).state)
    (hdrop : ∀ file cache, P cache → P (SymbolCache.invalidate cache file).2)
    {calls : List Call} (hcalls : ∀ call ∈ calls, call.Honest reader) :
    P (runAll naming reader calls) := by
  unfold runAll
  generalize ({} : SymbolCache) = cache at hempty
  induction calls generalizing cache with
  | nil => exact hempty
  | cons call rest ih =>
    rw [List.foldl_cons]
    have hstep := run_invariant hextract hdrop (hcalls call List.mem_cons_self) hempty
    exact ih (fun other hother => hcalls other (List.mem_cons_of_mem _ hother)) _ hstep

end Call

end ScriptIndex
