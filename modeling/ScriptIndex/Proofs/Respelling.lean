import ScriptIndex.Proofs.Carrying
import ScriptIndex.Proofs.Traversal

/-!
# Paths are what they name

A path is kept as it was written, while two paths with the same components are one and the same file
everywhere in the index.  Symbols are therefore compared with their paths taken for what they name.

* `FileSymbols.Same` — equal symbols, however their paths are written;
* `FileSymbols.Same.declare`, `FileSymbols.Same.watch`, `FileSymbols.Same.takeOver` — every step of an
  extraction respects it;
* `SourceItem.scan_movedTo` — where a text lies changes nothing but the file of its declarations;
* `SourceItem.scan_same` — so reading a text respects it too.
-/

namespace ScriptIndex

/-! ## Declarations and reports -/

/-- A declaration with its file taken for what it names. -/
def Declaration.facts (d : Declaration) :
    String × List Parameter × Bool × List Component × Nat × String :=
  (d.name, d.parameters, d.exported, d.file.components, d.line, d.doc)

/-- A report with its target taken for what it names. -/
def CircularRequire.facts (r : CircularRequire) : Nat × String × List Component :=
  (r.line, r.module, r.target.components)

/-- Symbols that are equal once their paths are taken for what they name. -/
structure FileSymbols.Same (a b : FileSymbols) : Prop where
  functions : a.functions.map Declaration.facts = b.functions.map Declaration.facts
  cycles : a.cycles.map CircularRequire.facts = b.cycles.map CircularRequire.facts
  requires : a.requires.map Path.components = b.requires.map Path.components
  watched : a.watched.map Path.components = b.watched.map Path.components

/-! ## The steps of an extraction -/

theorem Keyed.map_put {α β κ : Type} [DecidableEq κ] {key : α → κ} {key' : β → κ} {f : α → β}
    (hf : ∀ row, key' (f row) = key row) (row : α) (rows : List α) :
    (put key row rows).map f = put key' (f row) (rows.map f) := by
  induction rows with
  | nil => rfl
  | cons first rest ih =>
    rw [put, List.map_cons, put, hf, hf]
    split
    · rw [List.map_cons]
    · rw [List.map_cons, ih]

/-- Adopting a function, on facts alone. -/
def adoptFacts (rows : List (String × List Parameter × Bool × List Component × Nat × String))
    (new : String × List Parameter × Bool × List Component × Nat × String) :
    List (String × List Parameter × Bool × List Component × Nat × String) :=
  if new.1 ∈ rows.map Prod.fst then rows
  else rows ++ [(new.1, new.2.1, false, new.2.2.2)]

theorem map_facts_adoptOne (functions : List Declaration) (d : Declaration) :
    (FileSymbols.adoptOne functions d).map Declaration.facts =
      adoptFacts (functions.map Declaration.facts) d.facts := by
  have hnames : (functions.map Declaration.facts).map Prod.fst = functions.map Declaration.name := by
    rw [List.map_map]
    rfl
  unfold FileSymbols.adoptOne adoptFacts Keyed.has
  rw [hnames, show d.facts.1 = d.name from rfl]
  by_cases h : d.name ∈ functions.map Declaration.name
  · rw [if_pos (decide_eq_true h), if_pos h]
  · rw [if_neg (by simpa using h), if_neg h, List.map_append]
    rfl

theorem map_facts_adopt (required functions : List Declaration) :
    (required.foldl FileSymbols.adoptOne functions).map Declaration.facts =
      (required.map Declaration.facts).foldl adoptFacts (functions.map Declaration.facts) := by
  induction required generalizing functions with
  | nil => rfl
  | cons d rest ih => rw [List.foldl_cons, ih, map_facts_adoptOne, List.map_cons, List.foldl_cons]

theorem map_components_foldl_addTo {probed paths paths' : List Path}
    (h : paths.map Path.components = paths'.map Path.components) :
    (probed.foldl (fun ps p => p.addTo ps) paths).map Path.components =
      (probed.foldl (fun ps p => p.addTo ps) paths').map Path.components := by
  induction probed generalizing paths paths' with
  | nil => exact h
  | cons p rest ih =>
    apply ih
    rw [Path.map_components_addTo, Path.map_components_addTo, h]

namespace FileSymbols.Same

variable {a b : FileSymbols}

theorem refl (a : FileSymbols) : a.Same a := ⟨rfl, rfl, rfl, rfl⟩

theorem declare (h : a.Same b) {d d' : Declaration} (hd : d.facts = d'.facts) :
    (a.declare d).Same (b.declare d') where
  functions := by
    have hput := @Keyed.map_put _ _ _ _ Declaration.name Prod.fst Declaration.facts fun _ => rfl
    show (Keyed.put _ d a.functions).map _ = (Keyed.put _ d' b.functions).map _
    rw [hput, hput, hd, h.functions]
  cycles := h.cycles
  requires := h.requires
  watched := h.watched

theorem watch (h : a.Same b) (probed : List Path) : (a.watch probed).Same (b.watch probed) where
  functions := h.functions
  cycles := h.cycles
  requires := h.requires
  watched := map_components_foldl_addTo h.watched

theorem reportCycle (h : a.Same b) (r : CircularRequire) :
    (a.reportCycle r).Same (b.reportCycle r) where
  functions := h.functions
  cycles := by
    show (a.cycles ++ [r]).map _ = (b.cycles ++ [r]).map _
    rw [List.map_append, List.map_append, h.cycles]
  requires := h.requires
  watched := h.watched

theorem cycles_isEmpty (h : a.Same b) : a.cycles.isEmpty = b.cycles.isEmpty := by
  have hlen := congrArg List.length h.cycles
  rw [List.length_map, List.length_map] at hlen
  rw [Bool.eq_iff_iff, List.isEmpty_iff_length_eq_zero, List.isEmpty_iff_length_eq_zero, hlen]

theorem takeOver (h : a.Same b) (directive : CircularRequire) {r r' : FileSymbols} (hr : r.Same r') :
    (a.takeOver directive r).Same (b.takeOver directive r') where
  functions := by
    rw [takeOver_functions, takeOver_functions, map_facts_adopt, map_facts_adopt, h.functions,
      hr.functions]
  cycles := by
    rw [takeOver_cycles, takeOver_cycles, List.map_append, List.map_append, h.cycles,
      hr.cycles_isEmpty]
  requires := by
    rw [takeOver_requires, takeOver_requires, Path.map_components_addTo, Path.map_components_addTo,
      h.requires]
  watched := by
    rw [takeOver_watched, takeOver_watched]
    exact h.watched

end FileSymbols.Same

/-! ## Reading a text -/

/-- An item as it would be read from another file. -/
def SourceItem.movedTo (p : Path) : SourceItem → SourceItem
  | .function d => .function { d with file := p }
  | .require module line => .require module line

/-- **Where a text lies changes nothing but the file of its declarations.** -/
theorem SourceItem.scan_movedTo (p q : Path) (text : List Char) :
    SourceItem.scan p text = (SourceItem.scan q text).map (SourceItem.movedTo p) :=
  Reading.items_map (n := 0) (fun _ _ _ => rfl) (fun _ _ => rfl) _ 0 _

/-- The directives of a text are the same wherever it lies. -/
theorem SourceItem.require_mem_scan {p : Path} (q : Path) {text : List Char} {module : String}
    {line : Nat} (hp : .require module line ∈ SourceItem.scan p text) :
    .require module line ∈ SourceItem.scan q text := by
  rw [SourceItem.scan_movedTo q p]
  exact List.mem_map.mpr ⟨_, hp, rfl⟩

/-- A declaration read from a file says so. -/
theorem SourceItem.file_of_mem_scan {p : Path} {text : List Char} {d : Declaration}
    (h : .function d ∈ SourceItem.scan p text) : d.file = p := by
  rw [SourceItem.scan_movedTo p p] at h
  obtain ⟨item, -, hitem⟩ := List.mem_map.mp h
  cases item with
  | function _ =>
    injection hitem with hd
    rw [← hd]
  | require _ _ => cases hitem

/-- Items that are equal once the file of a declaration is taken for what it names. -/
inductive SourceItem.Same : SourceItem → SourceItem → Prop
  | function {d d' : Declaration} (h : d.facts = d'.facts) : Same (.function d) (.function d')
  | require {module : String} {line : Nat} : Same (.require module line) (.require module line)

theorem SourceItem.scan_same {p q : Path} (h : p.components = q.components) (text : List Char) :
    List.Forall₂ SourceItem.Same (SourceItem.scan p text) (SourceItem.scan q text) := by
  rw [SourceItem.scan_movedTo p q, List.forall₂_map_left_iff]
  refine List.forall₂_same.mpr fun item hitem => ?_
  cases item with
  | require _ _ => exact .require
  | function d =>
    refine .function ?_
    rw [← SourceItem.file_of_mem_scan hitem] at h
    simp only [Declaration.facts, h]

end ScriptIndex
