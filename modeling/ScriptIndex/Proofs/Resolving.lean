import ScriptIndex.FileSymbols
import ScriptIndex.Naming

/-!
# What a search for a module depends on

The search for the file of a module asks for one path after the other.  Which file it finds, and
which paths it asks for, depends on the answers for exactly those paths, and on the requiring file
only through what its path names.

* `Path.isIn_iff`, `Path.isIn_addTo` — lists of paths as sets of files;
* `Naming.Asks` — the paths a naming can ask for at all;
* `Naming.firstOf_eq`, `Naming.search_eq_firstOf` — a search is a walk along one sequence of paths;
* `Naming.resolve_congr` — equal answers on the paths asked for give equal searches;
* `Naming.found_mem_probed`, `Naming.isThere_of_found`, `Naming.asks_of_probed` — the file found was
  asked for and is there, and only candidates are asked for.
-/

namespace ScriptIndex

/-! ## Lists of paths -/

namespace Path

/-- Two paths name the same file. -/
def SameFile (p q : Path) : Prop :=
  q.components = p.components

theorem isIn_iff {p : Path} {paths : List Path} :
    p.isIn paths = true ↔ ∃ q ∈ paths, q.components = p.components := by
  simp [isIn]

theorem isIn_congr {p q : Path} (h : p.components = q.components) (paths : List Path) :
    p.isIn paths = q.isIn paths := by
  simp [isIn, h]

theorem isIn_of_mem {p : Path} {paths : List Path} (h : p ∈ paths) : p.isIn paths = true :=
  isIn_iff.mpr ⟨p, h, rfl⟩

theorem ne_of_not_isIn_cons {p q : Path} {paths : List Path} (h : p.isIn (q :: paths) = false) :
    p.components ≠ q.components := by
  intro heq
  rw [isIn_congr heq, isIn_of_mem List.mem_cons_self] at h
  cases h

/-- Adding a path adds what it names and nothing else. -/
theorem isIn_addTo {p q : Path} {paths : List Path} :
    q.isIn (p.addTo paths) = true ↔ q.components = p.components ∨ q.isIn paths = true := by
  unfold addTo
  by_cases hp : p.isIn paths = true
  · rw [if_pos hp]
    constructor
    · exact Or.inr
    · rintro (h | h)
      · rwa [isIn_congr h]
      · exact h
  · rw [if_neg hp, isIn_iff, isIn_iff]
    constructor
    · rintro ⟨r, hr, hq⟩
      rcases List.mem_append.mp hr with hr | hr
      · exact Or.inr ⟨r, hr, hq⟩
      · rw [List.mem_singleton.mp hr] at hq
        exact Or.inl hq.symm
    · rintro (h | ⟨r, hr, hq⟩)
      · exact ⟨p, by simp, h.symm⟩
      · exact ⟨r, List.mem_append_left _ hr, hq⟩

/-- What a list names after a path is added, as a function of what was named before. -/
theorem map_components_addTo (p : Path) (paths : List Path) :
    (p.addTo paths).map components =
      if p.components ∈ paths.map components then paths.map components
      else paths.map components ++ [p.components] := by
  unfold addTo isIn
  by_cases h : p.components ∈ paths.map components
  · rw [if_pos (decide_eq_true h), if_pos h]
  · rw [if_neg (by simpa using h), if_neg h, List.map_append]
    rfl

end Path

/-- A search that was noted is watched, and what was watched before still is. -/
theorem FileSymbols.isIn_watch {symbols : FileSymbols} {probed : List Path} {q : Path} :
    q.isIn (symbols.watch probed).watched = true ↔
      q.isIn probed = true ∨ q.isIn symbols.watched = true := by
  show q.isIn (probed.foldl (fun paths p => p.addTo paths) symbols.watched) = true ↔ _
  generalize symbols.watched = paths
  induction probed generalizing paths with
  | nil => simp [Path.isIn]
  | cons p rest ih =>
    rw [List.foldl_cons, ih, Path.isIn_addTo]
    have hp : q.isIn (p :: rest) = true ↔ q.components = p.components ∨ q.isIn rest = true := by
      simp [Path.isIn]
    rw [hp, or_left_comm, or_assoc]

/-! ## Searches -/

namespace Naming

/-- The paths that can be asked for at all: the candidates of some module in some directory. -/
def Asks (naming : Naming) (q : Path) : Prop :=
  ∃ dir module, q ∈ naming.candidates dir module

section

variable {isThere isThere' : Path → Bool}

/-! ### Along a sequence of paths -/

/-- A walk finds the first path that is there, and asks for it after all that come before it. -/
theorem firstOf_eq (isThere : Path → Bool) (paths : List Path) :
    firstOf isThere paths =
      { found := paths.find? isThere
        probed := paths.takeWhile (fun q => !isThere q) ++ (paths.find? isThere).toList } := by
  induction paths with
  | nil => rfl
  | cons p rest ih =>
    by_cases hp : isThere p = true
    · simp [firstOf, hp]
    · simp [firstOf, hp, ih]

theorem firstOf_congr {paths : List Path}
    (h : ∀ q ∈ (firstOf isThere paths).probed, isThere q = isThere' q) :
    firstOf isThere paths = firstOf isThere' paths := by
  induction paths with
  | nil => rfl
  | cons p rest ih =>
    by_cases hp : isThere p = true
    · have hp' : isThere' p = true := by
        rw [← h p (by simp [firstOf, hp])]
        exact hp
      simp [firstOf, hp, hp']
    · have hp' : ¬ isThere' p = true := by
        rw [← h p (by simp [firstOf, hp])]
        exact hp
      have hrest := ih fun q hq => h q (by simp [firstOf, hp, hq])
      simp [firstOf, hp, hp', hrest]

theorem firstOf_found {paths : List Path} {q : Path} (h : (firstOf isThere paths).found = some q) :
    q ∈ (firstOf isThere paths).probed ∧ isThere q = true := by
  have hfound : paths.find? isThere = some q := by
    rw [firstOf_eq] at h
    exact h
  rw [firstOf_eq]
  refine ⟨List.mem_append_right _ ?_, List.find?_some hfound⟩
  rw [hfound]
  exact List.mem_singleton_self q

theorem mem_of_mem_firstOf {paths : List Path} {q : Path} (h : q ∈ (firstOf isThere paths).probed) :
    q ∈ paths := by
  rw [firstOf_eq] at h
  rcases List.mem_append.mp h with h | h
  · exact (List.takeWhile_sublist _).subset h
  · exact List.mem_of_find?_eq_some (Option.mem_toList.mp h)

/-! ### Through the directories -/

/-- A walk along two sequences goes on in the second if nothing is found in the first. -/
theorem firstOf_append (isThere : Path → Bool) (near far : List Path) :
    firstOf isThere (near ++ far) =
      match (firstOf isThere near).found with
      | some _ => firstOf isThere near
      | none =>
        { found := (firstOf isThere far).found
          probed := (firstOf isThere near).probed ++ (firstOf isThere far).probed } := by
  induction near with
  | nil => rfl
  | cons p rest ih =>
    by_cases hp : isThere p = true
    · simp [firstOf, hp]
    · simp only [List.cons_append, firstOf, hp, ih]
      cases hfound : (firstOf isThere rest).found <;> simp [hfound]

/-- A search through directories is a walk along all their candidates. -/
theorem search_eq_firstOf (naming : Naming) (isThere : Path → Bool) (module : String)
    (dirs : List Path) : naming.search isThere module dirs =
      firstOf isThere (dirs.flatMap fun dir => naming.candidates dir module) := by
  induction dirs with
  | nil => rfl
  | cons dir outer ih =>
    rw [List.flatMap_cons, firstOf_append, ← ih]
    rfl

/-! ### From a file -/

variable {naming : Naming} {file : Path} {module : String}

/-- The search from a file is a walk along the candidates in all directories around it. -/
theorem resolve_eq_firstOf (naming : Naming) (isThere : Path → Bool) (file : Path) (module : String) :
    naming.resolve isThere file module =
      firstOf isThere (file.directories.flatMap fun dir => naming.candidates dir module) :=
  search_eq_firstOf naming isThere module file.directories

/-- **A search depends on its answers only.**  Two ways to answer that agree on the paths asked for
lead to the same search. -/
theorem resolve_congr (h : ∀ q ∈ (naming.resolve isThere file module).probed,
    isThere q = isThere' q) :
    naming.resolve isThere file module = naming.resolve isThere' file module := by
  rw [resolve_eq_firstOf] at h
  rw [resolve_eq_firstOf, resolve_eq_firstOf]
  exact firstOf_congr h

/-- A search depends on the requiring file only through what its path names. -/
theorem resolve_file_congr {file' : Path} (h : file.components = file'.components) :
    naming.resolve isThere file module = naming.resolve isThere file' module := by
  unfold resolve Path.directories
  rw [h]

theorem found_mem_probed {q : Path} (h : (naming.resolve isThere file module).found = some q) :
    q ∈ (naming.resolve isThere file module).probed := by
  rw [resolve_eq_firstOf] at h ⊢
  exact (firstOf_found h).1

theorem isThere_of_found {q : Path} (h : (naming.resolve isThere file module).found = some q) :
    isThere q = true := by
  rw [resolve_eq_firstOf] at h
  exact (firstOf_found h).2

theorem asks_of_probed {q : Path} (h : q ∈ (naming.resolve isThere file module).probed) :
    naming.Asks q := by
  rw [resolve_eq_firstOf] at h
  obtain ⟨dir, -, hq⟩ := List.mem_flatMap.mp (mem_of_mem_firstOf h)
  exact ⟨dir, module, hq⟩

theorem asks_of_found {q : Path} (h : (naming.resolve isThere file module).found = some q) :
    naming.Asks q :=
  asks_of_probed (found_mem_probed h)

end

end Naming

end ScriptIndex
