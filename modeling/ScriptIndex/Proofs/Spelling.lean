import Mathlib.Data.List.Basic
import ScriptIndex.Path
import ScriptIndex.Text.Cut

/-!
# How paths are written

An absolute path goes from the root through its segments.  Segments that are empty or a dot do not
count, so several paths have the same components; a path whose segments all count is the only one of
its kind.

* `Path.below` — the path through some segments, and `Path.components_below`, what it names;
* `Component.Inner`, `Path.Lawful`, `Path.lawful_components` — the components that a path can have;
* `Path.components_slash`, `Path.root_not_mem_components` — a path is absolute if it starts with a
  slash.
-/

namespace ScriptIndex

/-! ## Segments -/

namespace Component

theorem bytes_of_ofSegment? {segment : List UInt8} {c : Component}
    (h : ofSegment? segment = some c) : c.bytes = segment := by
  unfold ofSegment? at h
  split at h
  · cases h
  · split at h
    · next hup =>
      cases h
      exact hup.symm
    · cases h
      rfl

/-- A component that a segment stands for is written as that segment. -/
theorem ofSegment?_bytes {segment : List UInt8} {c : Component} (h : ofSegment? segment = some c) :
    ofSegment? c.bytes = some c := by
  rw [bytes_of_ofSegment? h]
  exact h

theorem ofSegment?_ne_root (segment : List UInt8) : ofSegment? segment ≠ some .root := by
  unfold ofSegment?
  split
  · simp
  · split <;> simp

/-- A component that some segment stands for, wherever in a path it is: two dots or a name. -/
def Inner (c : Component) : Prop :=
  ofSegment? c.bytes = some c ∧ slash ∉ c.bytes

theorem inner_of_mem_splitOn {bytes segment : List UInt8} {c : Component}
    (hmem : segment ∈ bytes.splitOn slash) (h : ofSegment? segment = some c) : c.Inner := by
  refine ⟨ofSegment?_bytes h, ?_⟩
  rw [bytes_of_ofSegment? h]
  exact (Text.of_mem_splitOn hmem).1

theorem Inner.ne_root {c : Component} (h : c.Inner) : c ≠ .root := by
  rintro rfl
  exact ofSegment?_ne_root _ h.1

end Component

namespace Path

/-- The path that goes from the root through some segments. -/
def below (segments : List (List UInt8)) : Path :=
  ⟨segments.flatMap (slash :: ·)⟩

theorem intercalate_nil_cons (segments : List (List UInt8)) :
    [slash].intercalate ([] :: segments) = segments.flatMap (slash :: ·) := by
  induction segments with
  | nil => rfl
  | cons segment rest ih =>
    cases rest with
    | nil => simp [List.intercalate]
    | cons next rest =>
      simp [List.intercalate] at ih ⊢
      exact ih

theorem splitOn_below {segments : List (List UInt8)} (h : ∀ s ∈ segments, slash ∉ s) :
    (below segments).bytes.splitOn slash = [] :: segments := by
  unfold below
  rw [← intercalate_nil_cons, List.splitOn_intercalate]
  · intro s hs
    rcases List.mem_cons.mp hs with rfl | hs
    · exact List.not_mem_nil
    · exact h s hs
  · exact List.cons_ne_nil _ _

theorem components_below {segments : List (List UInt8)} (h : ∀ s ∈ segments, slash ∉ s)
    (hne : segments ≠ []) :
    (below segments).components = .root :: segments.filterMap Component.ofSegment? := by
  unfold components parse
  rw [splitOn_below h]
  cases segments with
  | nil => exact absurd rfl hne
  | cons segment rest => rfl

/-- The root is the empty segment in front and nothing else. -/
theorem start_root (first : List UInt8) (more : Bool) :
    start first more = [.root] ∨ .root ∉ start first more := by
  unfold start
  split
  · cases more with
    | true => exact Or.inl rfl
    | false => exact Or.inr List.not_mem_nil
  · split
    · exact Or.inr (by simp)
    · refine Or.inr fun h => ?_
      exact Component.ofSegment?_ne_root first (Option.mem_toList.mp h)

/-- The components that a path can have: the root or a dot may come first, and all others come from
segments. -/
def Lawful (parts : List Component) : Prop :=
  ∃ head tail, parts = head ++ tail ∧ (head = [] ∨ head = [.root] ∨ head = [.here]) ∧
    ∀ c ∈ tail, c.Inner

theorem lawful_components (p : Path) : Lawful p.components := by
  unfold components parse
  cases hsplit : p.bytes.splitOn slash with
  | nil => exact ⟨[], [], rfl, Or.inl rfl, by simp⟩
  | cons first rest =>
    have hrest : ∀ c ∈ rest.filterMap Component.ofSegment?, c.Inner := by
      intro c hc
      obtain ⟨segment, hsegment, hof⟩ := List.mem_filterMap.mp hc
      exact Component.inner_of_mem_splitOn (hsplit ▸ List.mem_cons_of_mem _ hsegment) hof
    show Lawful (start first (!rest.isEmpty) ++ rest.filterMap Component.ofSegment?)
    unfold start
    split
    · split
      · exact ⟨_, _, rfl, Or.inr (Or.inl rfl), hrest⟩
      · exact ⟨_, _, rfl, Or.inl rfl, hrest⟩
    · split
      · exact ⟨_, _, rfl, Or.inr (Or.inr rfl), hrest⟩
      · refine ⟨[], _, rfl, Or.inl rfl, ?_⟩
        intro c hc
        rcases List.mem_append.mp hc with hc | hc
        · exact Component.inner_of_mem_splitOn (hsplit ▸ List.mem_cons_self) (Option.mem_toList.mp hc)
        · exact hrest c hc

/-- All components of an absolute path but the first come from segments. -/
theorem inner_of_root {p : Path} {parts : List Component} (h : p.components = .root :: parts) :
    ∀ part ∈ parts, part.Inner := by
  obtain ⟨head, tail, hsplit, hhead, htail⟩ := p.lawful_components
  rw [h] at hsplit
  rcases hhead with rfl | rfl | rfl
  · have hmem : .root ∈ tail := by
      rw [← List.nil_append tail, ← hsplit]
      exact List.mem_cons_self
    exact absurd rfl (htail _ hmem).ne_root
  · rw [List.tail_eq_of_cons_eq hsplit]
    exact htail
  · cases hsplit

/-- Components that come from segments are written by them. -/
theorem filterMap_bytes {parts : List Component}
    (h : ∀ part ∈ parts, Component.ofSegment? part.bytes = some part) :
    (parts.map Component.bytes).filterMap Component.ofSegment? = parts := by
  induction parts with
  | nil => rfl
  | cons part rest ih =>
    rw [List.map_cons, List.filterMap_cons_some (h part List.mem_cons_self),
      ih fun other hother => h other (List.mem_cons_of_mem _ hother)]

end Path

/-! ## Absolute and relative paths -/

theorem splitOn_slash_cons (rest : List UInt8) :
    (slash :: rest).splitOn slash = [] :: rest.splitOn slash := by
  unfold List.splitOn
  rw [List.splitOnP_cons_eq_if_modifyHead, if_pos (beq_self_eq_true _)]

theorem Path.components_slash (rest : List UInt8) : (Path.mk (slash :: rest)).components =
    .root :: (rest.splitOn slash).filterMap Component.ofSegment? := by
  unfold components parse
  rw [splitOn_slash_cons]
  cases hsplit : rest.splitOn slash with
  | nil => exact absurd hsplit (List.splitOnP_ne_nil _ _)
  | cons first more => rfl

theorem Path.root_not_mem_components {p : Path} {first : UInt8} {rest : List UInt8}
    (hp : p.bytes = first :: rest) (hfirst : first ≠ slash) : .root ∉ p.components := by
  have hsplit : ∃ segment more, p.bytes.splitOn slash = (first :: segment) :: more := by
    rw [hp]
    unfold List.splitOn
    rw [List.splitOnP_cons_eq_if_modifyHead, if_neg (by simpa using hfirst)]
    cases h : List.splitOnP (· == slash) rest with
    | nil => exact absurd h (List.splitOnP_ne_nil _ _)
    | cons segment more => exact ⟨segment, more, rfl⟩
  obtain ⟨segment, more, hsplit⟩ := hsplit
  unfold components parse
  rw [hsplit]
  intro hmem
  rcases List.mem_append.mp hmem with hmem | hmem
  · rcases start_root (first :: segment) (!more.isEmpty) with hstart | hstart
    · unfold start at hstart
      rw [if_neg (List.cons_ne_nil _ _)] at hstart
      split at hstart
      · cases hstart
      · have hroot : Component.root ∈ (Component.ofSegment? (first :: segment)).toList := by
          rw [hstart]
          exact List.mem_cons_self
        exact Component.ofSegment?_ne_root _ (Option.mem_toList.mp hroot)
    · exact hstart hmem
  · obtain ⟨s, -, hof⟩ := List.mem_filterMap.mp hmem
    exact Component.ofSegment?_ne_root s hof

end ScriptIndex
