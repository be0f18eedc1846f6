import Mathlib.Data.List.Induction
import Mathlib.Data.List.Perm.Subperm
import ScriptIndex.FileTree
import ScriptIndex.Proofs.Candidates
import ScriptIndex.Proofs.Traversal

/-!
# Files on a disk

A tree of files follows a path step by step, while the index takes a path for its components.  For the
paths a plain naming asks for the two agree: such a path leads to the place its names say or nowhere.

* `FileTree.Rooted` — everything lies in a directory;
* `FileTree.follow_below_iff` — where a path through names leads;
* `FileTree.Rooted.isFile_below_iff`, `FileTree.Rooted.text?_below_iff` — and what is read there;
* `FileTree.reader_regular` — so a tree is a regular reader under a plain naming.
-/

namespace ScriptIndex

namespace FileTree

variable {tree : FileTree}

/-! ## Places -/

/-- The contents of the file at a place. -/
def contents? (tree : FileTree) (place : Place) : Option ByteArray :=
  match tree.node? place with
  | some (.file contents) => some contents
  | _ => none

/-- Everything in a tree lies in a directory. -/
def Rooted (tree : FileTree) : Prop :=
  ∀ place name, (tree.node? (place ++ [name])).isSome = true → tree.isDirectory place = true

theorem rooted_empty : ({} : FileTree).Rooted := by
  intro place name hsome
  unfold node? at hsome
  rw [if_neg (by simp)] at hsome
  cases hsome

theorem isDirectory_iff {place : Place} :
    tree.isDirectory place = true ↔ tree.node? place = some .directory := by
  unfold isDirectory
  cases tree.node? place with
  | none => simp
  | some node => cases node <;> simp

theorem contents?_iff {place : Place} {contents : ByteArray} :
    tree.contents? place = some contents ↔ tree.node? place = some (.file contents) := by
  unfold contents?
  cases tree.node? place with
  | none => simp
  | some node => cases node <;> simp

theorem node?_root : tree.node? [] = some .directory :=
  if_pos rfl

theorem contents?_root : tree.contents? [] = none := by
  unfold contents?
  rw [node?_root]

/-- Where no file stands, there is a directory or nothing. -/
theorem isDirectory_of_contents? {place : Place} (h : tree.contents? place = none)
    (hs : (tree.node? place).isSome = true) : tree.isDirectory place = true := by
  obtain ⟨node, hnode⟩ := Option.isSome_iff_exists.mp hs
  cases node with
  | directory => exact isDirectory_iff.mpr hnode
  | file contents =>
    rw [contents?_iff.mpr hnode] at h
    cases h

/-- In a rooted tree everything above a place in use is a directory. -/
theorem Rooted.isDirectory_of_append (h : tree.Rooted) {place more : Place} (hmore : more ≠ [])
    (hs : (tree.node? (place ++ more)).isSome = true) : tree.isDirectory place = true := by
  induction more using List.reverseRecOn with
  | nil => exact absurd rfl hmore
  | append_singleton init last ih =>
    rw [← List.append_assoc] at hs
    have hdir := h (place ++ init) last hs
    cases init with
    | nil => rwa [List.append_nil] at hdir
    | cons first rest =>
      apply ih (List.cons_ne_nil _ _)
      rw [isDirectory_iff.mp hdir]
      rfl

/-! ## Where a path leads -/

/-- Names that lead from a place to one in use are followed to it. -/
theorem Rooted.walk_names (h : tree.Rooted) {names : List (List UInt8)} {place : Place}
    (hnames : ∀ n ∈ names, Path.IsName n ∧ n.length ≤ maxName)
    (hs : (tree.node? (place ++ names)).isSome = true) :
    tree.walk place names = .ok (place ++ names) := by
  induction names generalizing place with
  | nil => rw [List.append_nil, walk]
  | cons n rest ih =>
    obtain ⟨hname, hlength⟩ := hnames n List.mem_cons_self
    obtain ⟨hempty, hdot, hup, -⟩ := Path.isName_iff.mp hname
    have hdir := h.isDirectory_of_append (List.cons_ne_nil _ _) hs
    rw [List.append_cons] at hs
    have hnext : (tree.node? (place ++ [n])).isSome = true := by
      cases rest with
      | nil => rwa [List.append_nil] at hs
      | cons m rest =>
        rw [isDirectory_iff.mp (h.isDirectory_of_append (List.cons_ne_nil _ _) hs)]
        rfl
    have hrest := ih (fun m hm => hnames m (List.mem_cons_of_mem _ hm)) hs
    rw [walk, hdir, List.append_cons]
    simp [hempty, hdot, hup, Nat.not_lt.mpr hlength, hnext, hrest]

/-- Segments that come down to names lead to the place these say, if anywhere. -/
theorem walk_ok {segments names : List (List UInt8)} {place place' : Place}
    (hsegments : segments.filterMap Component.ofSegment? = names.map .name)
    (h : tree.walk place segments = .ok place') :
    place' = place ++ names ∧ (∀ n ∈ names, n.length ≤ maxName) ∧
      (names ≠ [] → (tree.node? place').isSome = true) := by
  induction segments generalizing place names with
  | nil =>
    cases names with
    | nil =>
      rw [walk] at h
      cases h
      simp
    | cons n rest => cases hsegments
  | cons segment rest ih =>
    rw [walk] at h
    split at h
    · cases h
    · split at h
      · next hskip =>
        have hnone : Component.ofSegment? segment = none := by
          unfold Component.ofSegment?
          rw [if_pos hskip]
        rw [List.filterMap_cons_none hnone] at hsegments
        exact ih hsegments h
      · next hskip =>
        split at h
        · next hup =>
          have hsome : Component.ofSegment? segment = some .up := by
            unfold Component.ofSegment?
            rw [if_neg hskip, if_pos hup]
          rw [List.filterMap_cons_some hsome] at hsegments
          cases names with
          | nil => cases hsegments
          | cons n names => cases hsegments
        · next hup =>
          have hsome : Component.ofSegment? segment = some (.name segment) := by
            unfold Component.ofSegment?
            rw [if_neg hskip, if_neg hup]
          rw [List.filterMap_cons_some hsome] at hsegments
          split at h
          · cases h
          · next hlength =>
            dsimp only at h
            split at h
            · next hnext =>
              cases names with
              | nil => cases hsegments
              | cons n names =>
                rw [List.map_cons, List.cons.injEq, Component.name.injEq] at hsegments
                obtain ⟨rfl, hsegments⟩ := hsegments
                obtain ⟨hplace, hlengths, hsome'⟩ := ih hsegments h
                refine ⟨by rw [hplace, List.append_assoc]; rfl, ?_, fun _ => ?_⟩
                · intro m hm
                  rcases List.mem_cons.mp hm with rfl | hm
                  · exact Nat.not_lt.mp hlength
                  · exact hlengths m hm
                · cases names with
                  | nil =>
                    rw [hplace, List.append_nil]
                    exact hnext
                  | cons m names => exact hsome' (List.cons_ne_nil _ _)
            · cases h

/-- The names of a path that a tree can hold: it is not too long, nor is one of them. -/
def Short (names : List (List UInt8)) : Prop :=
  (Path.below names).bytes.contains 0 = false ∧ (Path.below names).bytes.length ≤ maxPath ∧
    ∀ n ∈ names, n.length ≤ maxName

instance (names : List (List UInt8)) : Decidable (Short names) :=
  inferInstanceAs (Decidable (_ ∧ _))

/-- An absolute path is followed from the root along its segments. -/
theorem follow_slash_iff {rest : List UInt8} {place : Place} :
    tree.follow ⟨slash :: rest⟩ = .ok place ↔
      (slash :: rest).contains 0 = false ∧ (slash :: rest).length ≤ maxPath ∧
        tree.walk [] (rest.splitOn slash) = .ok place := by
  unfold follow
  cases hnul : (slash :: rest).contains 0 with
  | true => simp
  | false =>
    rw [if_neg Bool.false_ne_true]
    by_cases hlength : (slash :: rest).length > maxPath
    · rw [if_pos hlength]
      constructor
      · intro h
        cases h
      · rintro ⟨-, hle, -⟩
        exact absurd hlength (Nat.not_lt.mpr hle)
    · rw [if_neg hlength]
      exact ⟨fun h => ⟨rfl, Nat.not_lt.mp hlength, h⟩, fun h => h.2.2⟩

theorem splitOn_below_tail {names : List (List UInt8)} (hnames : ∀ n ∈ names, Path.IsName n)
    {rest : List UInt8} (h : (Path.below names).bytes = slash :: rest) :
    rest.splitOn slash = names := by
  have hsplit := Path.splitOn_below fun n hn => (hnames n hn).2
  rw [h, splitOn_slash_cons] at hsplit
  exact List.tail_eq_of_cons_eq hsplit

/-- **Where a path through names leads**: to the place the names say, if something stands there. -/
theorem Rooted.follow_below_iff (h : tree.Rooted) {names : List (List UInt8)}
    (hnames : ∀ n ∈ names, Path.IsName n) (hne : names ≠ []) {place : Place} :
    tree.follow (.below names) = .ok place ↔
      place = names ∧ Short names ∧ (tree.node? names).isSome = true := by
  have hbelow := Path.below_eq hne
  have hsplit := splitOn_below_tail hnames hbelow
  rw [show Path.below names = ⟨slash :: [slash].intercalate names⟩ from congrArg _ hbelow,
    follow_slash_iff, hsplit]
  constructor
  · rintro ⟨hnul, hlength, hwalk⟩
    obtain ⟨rfl, hlengths, hsome⟩ := walk_ok (Path.filterMap_names hnames) hwalk
    exact ⟨rfl, ⟨hbelow ▸ hnul, hbelow ▸ hlength, hlengths⟩, hsome hne⟩
  · rintro ⟨rfl, ⟨hnul, hlength, hlengths⟩, hsome⟩
    refine ⟨hbelow ▸ hnul, hbelow ▸ hlength, ?_⟩
    exact h.walk_names (fun n hn => ⟨hnames n hn, hlengths n hn⟩) hsome

theorem isFile_iff {p : Path} : tree.isFile p = true ↔
    ∃ place, tree.follow p = .ok place ∧ (tree.contents? place).isSome = true := by
  unfold isFile contents?
  cases tree.follow p with
  | error fault => simp
  | ok place =>
    cases hnode : tree.node? place with
    | none => simp [hnode]
    | some node => cases node <;> simp [hnode]

theorem text?_iff {p : Path} {text : String} : tree.reader.text? p = some text ↔
    ∃ place contents, tree.follow p = .ok place ∧ tree.contents? place = some contents ∧
      String.fromUTF8? contents = some text := by
  unfold SourceReader.text? contents?
  show (tree.read p).toOption = some text ↔ _
  unfold read
  cases tree.follow p with
  | error fault => simp [Except.toOption]
  | ok place =>
    cases hnode : tree.node? place with
    | none => simp [hnode, Except.toOption]
    | some node =>
      cases node with
      | directory => simp [hnode, Except.toOption]
      | file contents =>
        cases hutf : String.fromUTF8? contents with
        | none => simp [hnode, hutf, Except.toOption]
        | some text' => simp [hnode, hutf, Except.toOption]

theorem isSome_node?_of_contents? {place : Place} {contents : ByteArray}
    (h : tree.contents? place = some contents) : (tree.node? place).isSome = true := by
  rw [contents?_iff.mp h]
  rfl

theorem Rooted.isFile_below_iff (h : tree.Rooted) {names : List (List UInt8)}
    (hnames : ∀ n ∈ names, Path.IsName n) (hne : names ≠ []) :
    tree.isFile (.below names) = true ↔
      Short names ∧ (tree.contents? names).isSome = true := by
  rw [isFile_iff]
  constructor
  · rintro ⟨place, hfollow, hcontents⟩
    obtain ⟨rfl, hshort, -⟩ := (h.follow_below_iff hnames hne).mp hfollow
    exact ⟨hshort, hcontents⟩
  · rintro ⟨hshort, hcontents⟩
    obtain ⟨contents, hcontents'⟩ := Option.isSome_iff_exists.mp hcontents
    exact ⟨names, (h.follow_below_iff hnames hne).mpr
      ⟨rfl, hshort, isSome_node?_of_contents? hcontents'⟩, hcontents⟩

theorem Rooted.text?_below_iff (h : tree.Rooted) {names : List (List UInt8)}
    (hnames : ∀ n ∈ names, Path.IsName n) (hne : names ≠ []) {text : String} :
    tree.reader.text? (.below names) = some text ↔ Short names ∧
      ∃ contents, tree.contents? names = some contents ∧
        String.fromUTF8? contents = some text := by
  rw [text?_iff]
  constructor
  · rintro ⟨place, contents, hfollow, hcontents, htext⟩
    obtain ⟨rfl, hshort, -⟩ := (h.follow_below_iff hnames hne).mp hfollow
    exact ⟨hshort, contents, hcontents, htext⟩
  · rintro ⟨hshort, contents, hcontents, htext⟩
    exact ⟨names, contents, (h.follow_below_iff hnames hne).mpr
      ⟨rfl, hshort, isSome_node?_of_contents? hcontents⟩, hcontents, htext⟩

/-! ## The paths asked for -/

/-- A path that leads to no file in any tree, and is not written like one that does. -/
def Nowhere (q : Path) : Prop :=
  (∀ (tree : FileTree) (place : Place), tree.follow q = .ok place → place = []) ∧
    ∀ names : List (List UInt8), names ≠ [] → q.components ≠ .root :: names.map .name

theorem isFile_of_nowhere {q : Path} (h : Nowhere q) : tree.isFile q = false := by
  rw [← Bool.not_eq_true, isFile_iff]
  rintro ⟨place, hfollow, hcontents⟩
  rw [h.1 tree place hfollow, contents?_root] at hcontents
  cases hcontents

theorem text?_of_nowhere {q : Path} (h : Nowhere q) : tree.reader.text? q = none := by
  rw [Option.eq_none_iff_forall_not_mem]
  intro text htext
  obtain ⟨place, contents, hfollow, hcontents, -⟩ := text?_iff.mp htext
  rw [h.1 tree place hfollow, contents?_root] at hcontents
  cases hcontents

/-- A relative path starts in a directory that holds nothing, and never gets out of it. -/
theorem walk_empty {segments : List (List UInt8)} {place : Place}
    (h : ({} : FileTree).walk [] segments = .ok place) : place = [] := by
  induction segments with
  | nil =>
    rw [walk] at h
    cases h
    rfl
  | cons segment rest ih =>
    rw [walk] at h
    split at h
    · cases h
    · split at h
      · exact ih h
      · split at h
        · exact ih h
        · split at h
          · cases h
          · cases h

theorem nowhere_of_relative {q : Path} {first : UInt8} {rest : List UInt8}
    (hq : q.bytes = first :: rest) (hfirst : first ≠ slash) : Nowhere q := by
  constructor
  · intro tree place h
    unfold follow at h
    rw [hq] at h
    split at h
    · cases h
    · split at h
      · cases h
      · dsimp only at h
        rw [if_neg hfirst] at h
        exact walk_empty h
  · intro names _ hcomponents
    have hroot := Path.root_not_mem_components hq hfirst
    rw [hcomponents] at hroot
    exact hroot List.mem_cons_self

theorem nowhere_of_dots {segment : List UInt8} (hsegment : segment = [dot] ∨ segment = [dot, dot]) :
    Nowhere (.below [segment]) := by
  constructor
  · intro tree place h
    rcases hsegment with rfl | rfl
    · obtain ⟨-, -, hwalk⟩ := follow_slash_iff.mp h
      cases hwalk
      rfl
    · obtain ⟨-, -, hwalk⟩ := follow_slash_iff.mp h
      cases hwalk
      rfl
  · intro names hne hcomponents
    cases names with
    | nil => exact hne rfl
    | cons n names =>
      rcases hsegment with rfl | rfl
      · cases hcomponents
      · cases hcomponents

/-- Under a plain naming only paths through names and paths that lead nowhere are asked for. -/
theorem asked_cases {naming : Naming} (hplain : naming.Plain) {q : Path} (h : naming.Asks q) :
    (∃ names : List (List UInt8), names ≠ [] ∧ (∀ n ∈ names, Path.IsName n) ∧ q = .below names) ∨
      Nowhere q := by
  rcases Naming.asks_cases hplain h with hnames | (rfl | rfl) | ⟨first, rest, hq, hfirst⟩
  · exact Or.inl hnames
  · exact Or.inr (nowhere_of_dots (Or.inl rfl))
  · exact Or.inr (nowhere_of_dots (Or.inr rfl))
  · exact Or.inr (nowhere_of_relative hq hfirst)

/-- Paths that are asked for and name the same file are the same path, or lead nowhere. -/
theorem eq_or_nowhere {naming : Naming} (hplain : naming.Plain) {p q : Path} (hp : naming.Asks p)
    (hq : naming.Asks q) (h : p.components = q.components) : p = q ∨ Nowhere p ∧ Nowhere q := by
  rcases asked_cases hplain hp with ⟨names, hne, hnames, rfl⟩ | hnowhere
  · rw [Path.components_below_names hnames hne] at h
    rcases asked_cases hplain hq with ⟨names', hne', hnames', rfl⟩ | hnowhere'
    · rw [Path.components_below_names hnames' hne'] at h
      have hinj : Function.Injective Component.name := fun _ _ heq => Component.name.inj heq
      rw [List.map_injective_iff.mpr hinj (List.tail_eq_of_cons_eq h)]
      exact Or.inl rfl
    · exact absurd h.symm (hnowhere'.2 names hne)
  · rcases asked_cases hplain hq with ⟨names', hne', hnames', rfl⟩ | hnowhere'
    · rw [Path.components_below_names hnames' hne'] at h
      exact absurd h (hnowhere.2 names' hne')
    · exact Or.inr ⟨hnowhere, hnowhere'⟩

/-- **A tree is a regular reader under a plain naming.** -/
theorem reader_regular (htree : tree.Rooted) {naming : Naming} (hplain : naming.Plain) :
    tree.reader.Regular naming naming.Asks where
  asks := fun _ h => h
  isFile_congr := by
    intro p q hp hq h
    rcases eq_or_nowhere hplain hp hq h with rfl | ⟨hp, hq⟩
    · rfl
    · show tree.isFile p = tree.isFile q
      rw [isFile_of_nowhere hp, isFile_of_nowhere hq]
  text_congr := by
    intro p q hp hq h
    rcases eq_or_nowhere hplain hp hq h with rfl | ⟨hp, hq⟩
    · rfl
    · rw [text?_of_nowhere hp, text?_of_nowhere hq]
  bounded := by
    intro paths hpaths hnodup
    -- different readable paths lead to different entries
    have hsub : paths.map Path.components ⊆
        tree.entries.map fun entry => .root :: entry.place.map .name := by
      intro k hk
      obtain ⟨p, hp, rfl⟩ := List.mem_map.mp hk
      obtain ⟨hasks, hread⟩ := hpaths p hp
      obtain ⟨text, htext⟩ := Option.isSome_iff_exists.mp hread
      rcases asked_cases hplain hasks with ⟨names, hne, hnames, rfl⟩ | hnowhere
      · obtain ⟨-, contents, hcontents, -⟩ := (htree.text?_below_iff hnames hne).mp htext
        have hsome := isSome_node?_of_contents? hcontents
        unfold node? at hsome
        rw [if_neg hne, Option.isSome_map, Keyed.isSome_find?, Keyed.has_iff] at hsome
        obtain ⟨entry, hentry, hplace⟩ := hsome
        refine List.mem_map.mpr ⟨entry, hentry, ?_⟩
        rw [hplace, Path.components_below_names hnames hne]
      · rw [text?_of_nowhere hnowhere] at htext
        cases htext
    have hle := (hnodup.subperm hsub).length_le
    rw [List.length_map, List.length_map] at hle
    show paths.length ≤ 2 * (tree.entries.length + 1)
    omega

end FileTree

end ScriptIndex
