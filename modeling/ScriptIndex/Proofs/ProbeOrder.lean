import Mathlib.Data.List.TakeWhile
import ScriptIndex.Proofs.NormalForms

/-!
# The order in which a module is searched for

The file of a module is searched for in the directory of the requiring file and then in every directory
around it, in each of them under two spellings.  The paths that may be asked for stand in one sequence,
and a search is a walk along it up to the first path that is there.

* `Path.Outward` — the directories around a file, one step after the other;
* `Path.outward_directories` — the way out is finite, and the list of directories is that way;
* `Naming.isThere_iff_found` — the answers can be read off what the search tells;
* `Naming.resolve_first_match` — what is found, what is asked for, and what it depends on.
-/

namespace ScriptIndex

/-! ## The way out -/

namespace Path

/-- The directories that are met on the way out: the one a path lies in, the one that this lies in, and
so on to the one that lies in none. -/
inductive Outward : Path → List Path → Prop
  | last {p : Path} (h : p.parent? = none) : Outward p []
  | next {p dir : Path} {dirs : List Path} (h : p.parent? = some dir) (outer : Outward dir dirs) :
    Outward p (dir :: dirs)

theorem Outward.unique {p : Path} {dirs dirs' : List Path} (h : p.Outward dirs)
    (h' : p.Outward dirs') : dirs = dirs' := by
  induction h generalizing dirs' with
  | last hp =>
    cases h' with
    | last => rfl
    | next hp' => simp [hp] at hp'
  | next hp _ ih =>
    cases h' with
    | last hp' => simp [hp] at hp'
    | next hp' outer' =>
      obtain rfl := Option.some.inj (hp.symm.trans hp')
      rw [ih outer']

/-- One step out: there is none, or it leaves the last component behind. -/
theorem directories_cases (p : Path) :
    (p.parent? = none ∧ p.directories = []) ∨
      ∃ init last, p.components = init ++ [last] ∧ p.parent? = some (ofComponents init) ∧
        p.directories = ofComponents init :: around init.reverse := by
  unfold parent? directories
  rcases List.eq_nil_or_concat' p.components with hp | ⟨init, last, hp⟩
  · rw [hp]
    exact Or.inl ⟨rfl, rfl⟩
  · rw [hp, List.getLast?_concat, List.reverse_concat, List.dropLast_concat]
    cases last with
    | root => exact Or.inl ⟨rfl, rfl⟩
    | _ => exact Or.inr ⟨init, _, rfl, rfl, by simp [around]⟩

/-- **The way out is the list of directories.**  It ends, since every step leaves a component behind. -/
theorem outward_directories (p : Path) : p.Outward p.directories := by
  rcases p.directories_cases with ⟨hparent, hdirs⟩ | ⟨init, last, hp, hparent, hdirs⟩
  · rw [hdirs]
    exact .last hparent
  · have hlawful : Lawful (init ++ [last]) := hp ▸ p.lawful_components
    have hinit : (ofComponents init).components = init := components_ofComponents hlawful.of_concat
    have hshorter : (ofComponents init).components.length < p.components.length := by
      rw [hinit, hp, List.length_append]
      exact Nat.lt_succ_self _
    have houter := outward_directories (ofComponents init)
    rw [directories, hinit] at houter
    rw [hdirs]
    exact .next hparent houter
termination_by p.components.length

end Path

/-! ## What a search finds and asks for -/

namespace Naming

variable {naming : Naming} {isThere : Path → Bool} {module : String} {file : Path}

/-- A path that was asked for is there if and only if it is the one that was found. -/
theorem isThere_iff_found {q : Path} (h : q ∈ (naming.resolve isThere file module).probed) :
    isThere q = true ↔ (naming.resolve isThere file module).found = some q := by
  constructor
  · intro hq
    rw [resolve_eq_firstOf, firstOf_eq] at h ⊢
    rcases List.mem_append.mp h with h | h
    · have hnot := List.mem_takeWhile_imp h
      rw [hq] at hnot
      cases hnot
    · exact Option.mem_toList.mp h
  · exact isThere_of_found

/-- **The first match in the order of the search.**  There is exactly one way out of the requiring file,
and it ends.  The search finds the first path that is there among the candidates in the directories on
that way, and it asks for the candidates up to that one, each in its turn, and for no other: the answers
to these are all that its result depends on. -/
theorem resolve_first_match (naming : Naming) (isThere : Path → Bool) (file : Path) (module : String) :
    ∃ dirs, (∀ way, file.Outward way ↔ way = dirs) ∧
      let probes := dirs.flatMap fun dir => naming.candidates dir module
      let resolution := naming.resolve isThere file module
      resolution.found = probes.find? isThere ∧
        resolution.probed = probes.takeWhile (fun q => !isThere q) ++ resolution.found.toList ∧
        ∀ isThere', naming.resolve isThere' file module = resolution ↔
          ∀ q ∈ resolution.probed, isThere' q = isThere q := by
  have hwalk : naming.resolve isThere file module = _ :=
    (resolve_eq_firstOf naming isThere file module).trans (firstOf_eq isThere _)
  refine ⟨file.directories, ?_, congrArg Resolution.found hwalk, ?_, ?_⟩
  · intro way
    constructor
    · intro hway
      exact hway.unique file.outward_directories
    · rintro rfl
      exact file.outward_directories
  · rw [hwalk]
  · intro isThere'
    constructor
    · intro hsame q hq
      have hq' : q ∈ (naming.resolve isThere' file module).probed := hsame ▸ hq
      rw [Bool.eq_iff_iff, isThere_iff_found hq, isThere_iff_found hq', hsame]
    · intro hagree
      exact (resolve_congr fun q hq => (hagree q hq).symm).symm

/-- A module that is an absolute path has the same candidates everywhere, and they are asked for again in
every directory. -/
example :
    let plain := Path.ofString "/m.das"
    let spec := Path.ofString "/m.spec.das"
    standard.resolve (fun _ => false) (.ofString "/a/b.das") "/m" =
      { found := none, probed := [plain, spec, plain, spec] } := by
  decide +kernel

end Naming

end ScriptIndex
