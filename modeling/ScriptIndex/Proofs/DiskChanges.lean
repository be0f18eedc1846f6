import Mathlib.Data.List.Infix
import ScriptIndex.Proofs.Disk
import ScriptIndex.Proofs.Upkeep

/-!
# Changes on a disk

Writing a file makes the directories around it and removing one leaves them, so more changes in a tree
than the file.  In what is read nothing else does: the answers for all other files stay as they were.

* `FileTree.Rooted.agreeOff` — a change of the contents at one place concerns one file;
* `FileTree.Rooted.makeWay` — making directories changes no contents;
* `FileTree.write_spec`, `FileTree.remove_spec` — what is left of a tree after a change;
* `FileTree.edit`, `FileTree.Rooted.agreeOff_edit` — both changes in one, and what they concern.
-/

namespace ScriptIndex

/-- The names that a path goes through. -/
def Path.names (p : Path) : List (List UInt8) :=
  p.components.filterMap fun
    | .name bytes => some bytes
    | _ => none

/-- A path that starts at the root and goes through names only. -/
def Path.IsNormal (p : Path) : Prop :=
  p.components = .root :: p.names.map .name

instance (p : Path) : Decidable p.IsNormal :=
  inferInstanceAs (Decidable (_ = _))

namespace FileTree

variable {tree : FileTree}

/-! ## One file -/

/-- What a path through names is answered depends on the file at its place alone. -/
theorem Rooted.answers_below {tree' : FileTree} (h : tree.Rooted) (h' : tree'.Rooted)
    {names : List (List UInt8)} (hnames : ∀ n ∈ names, Path.IsName n) (hne : names ≠ [])
    (hsame : tree'.contents? names = tree.contents? names) :
    tree'.isFile (.below names) = tree.isFile (.below names) ∧
      tree'.reader.text? (.below names) = tree.reader.text? (.below names) := by
  constructor
  · rw [Bool.eq_iff_iff, h'.isFile_below_iff hnames hne, h.isFile_below_iff hnames hne, hsame]
  · apply Option.ext
    intro text
    rw [h'.text?_below_iff hnames hne, h.text?_below_iff hnames hne, hsame]

/-- A change of the contents at one place concerns the file of that place alone. -/
theorem Rooted.agreeOff {tree' : FileTree} (h : tree.Rooted) (h' : tree'.Rooted) {naming : Naming}
    (hplain : naming.Plain) {p : Path} {names : List (List UInt8)}
    (hp : p.components = .root :: names.map .name)
    (hsame : ∀ place, place ≠ names → tree'.contents? place = tree.contents? place) :
    tree.reader.AgreeOff p.SameFile naming.Asks tree'.reader naming.Asks := by
  intro q hq hstale
  refine ⟨hq, ?_⟩
  rcases asked_cases hplain hq with ⟨names', hne, hnames, rfl⟩ | hnowhere
  · refine h.answers_below h' hnames hne (hsame names' ?_)
    rintro rfl
    apply hstale
    unfold Path.SameFile
    rw [Path.components_below_names hnames hne, hp]
  · show tree'.isFile q = tree.isFile q ∧ _
    rw [isFile_of_nowhere hnowhere, isFile_of_nowhere hnowhere, text?_of_nowhere hnowhere,
      text?_of_nowhere hnowhere]
    exact ⟨rfl, rfl⟩

/-! ## Putting something at a place -/

theorem node?_put {place : Place} (hne : place ≠ []) (node : Node) (q : Place) :
    (tree.put place node).node? q = if q = place then some node else tree.node? q := by
  unfold node? put
  by_cases hq : q = []
  · rw [if_pos hq, if_pos hq, if_neg (by rw [hq]; exact fun heq => hne heq.symm)]
  · rw [if_neg hq, if_neg hq, Keyed.find?_put]
    by_cases hplace : q = place
    · rw [if_pos hplace.symm, if_pos hplace]
      rfl
    · rw [if_neg (fun heq => hplace heq.symm), if_neg hplace]

theorem contents?_put_directory {place : Place} (hne : place ≠ []) (hnone : tree.node? place = none)
    (q : Place) : (tree.put place .directory).contents? q = tree.contents? q := by
  unfold contents?
  rw [node?_put hne]
  by_cases hq : q = place
  · rw [if_pos hq, hq, hnone]
  · rw [if_neg hq]

/-- A tree stays rooted when something is put into a directory, not in the place of another one. -/
theorem Rooted.put (h : tree.Rooted) {place : Place} {name : List UInt8} {node : Node}
    (hdir : tree.isDirectory place = true)
    (hplace : tree.isDirectory (place ++ [name]) = true → node = .directory) :
    (tree.put (place ++ [name]) node).Rooted := by
  have hnode := fun q => @node?_put tree (place ++ [name]) (by simp) node q
  intro q m hsome
  rw [isDirectory_iff, hnode]
  rw [hnode] at hsome
  split at hsome
  · next heq =>
    -- the new thing itself lies in `place`
    obtain ⟨rfl, -⟩ := List.append_inj' heq rfl
    rw [if_neg (by simp)]
    exact isDirectory_iff.mp hdir
  · have hq := h q m hsome
    split
    · next heq =>
      rw [heq] at hq
      rw [hplace hq]
    · exact isDirectory_iff.mp hq

/-- One step of the way: a directory is there or is made. -/
theorem Rooted.makeStep (h : tree.Rooted) {place : Place} {name : List UInt8}
    (hdir : tree.isDirectory place = true) (hfree : tree.contents? (place ++ [name]) = none)
    {tree' : FileTree} (htree' : tree' = if (tree.node? (place ++ [name])).isSome then tree
      else tree.put (place ++ [name]) .directory) :
    tree'.Rooted ∧ tree'.isDirectory (place ++ [name]) = true ∧
      (∀ q, tree'.contents? q = tree.contents? q) ∧
      ∀ q, q ≠ place ++ [name] → tree'.node? q = tree.node? q := by
  have hne : place ++ [name] ≠ [] := by simp
  split at htree'
  · next hsome =>
    subst htree'
    exact ⟨h, isDirectory_of_contents? hfree hsome, fun _ => rfl, fun _ _ => rfl⟩
  · next hnone =>
    subst htree'
    have hnode : tree.node? (place ++ [name]) = none := by simpa using hnone
    refine ⟨h.put hdir fun _ => rfl, ?_, contents?_put_directory hne hnode, ?_⟩
    · rw [isDirectory_iff, node?_put hne, if_pos rfl]
    · intro q hq
      rw [node?_put hne, if_neg hq]

/-- Making the way along some names adds directories and nothing else. -/
theorem Rooted.makeWay {init : List (List UInt8)} {place : Place} (h : tree.Rooted)
    (hdir : tree.isDirectory place = true)
    (hfree : ∀ pre, pre <+: init → tree.contents? (place ++ pre) = none) :
    (tree.makeWay place (init.map .name)).2 = place ++ init ∧
      (tree.makeWay place (init.map .name)).1.Rooted ∧
      (tree.makeWay place (init.map .name)).1.isDirectory (place ++ init) = true ∧
      (∀ q, (tree.makeWay place (init.map .name)).1.contents? q = tree.contents? q) ∧
      ∀ q, ¬ q <+: place ++ init →
        (tree.makeWay place (init.map .name)).1.node? q = tree.node? q := by
  induction init generalizing tree place with
  | nil => simp [FileTree.makeWay, h, hdir]
  | cons name rest ih =>
    rw [List.map_cons, FileTree.makeWay]
    generalize htree' : (if (tree.node? (place ++ [name])).isSome = true then tree
      else tree.put (place ++ [name]) .directory) = tree'
    obtain ⟨hrooted, hnext, hcontents, hnode⟩ := h.makeStep hdir (hfree [name] (by simp)) htree'.symm
    have hfree' : ∀ pre, pre <+: rest → tree'.contents? (place ++ [name] ++ pre) = none := by
      intro pre hpre
      rw [hcontents, ← List.append_cons]
      exact hfree (name :: pre) (List.cons_prefix_cons.mpr ⟨rfl, hpre⟩)
    obtain ⟨hplace, hrooted', hdir', hcontents', hnode'⟩ := ih hrooted hnext hfree'
    rw [← List.append_cons] at hplace hdir' hnode'
    refine ⟨hplace, hrooted', hdir', fun q => (hcontents' q).trans (hcontents q), ?_⟩
    intro q hq
    rw [hnode' q hq]
    apply hnode
    rintro rfl
    exact hq ⟨rest, (List.append_cons place name rest).symm⟩

/-! ## Writing and removing -/

/-- A place where a file can be written: no file stands above it, and no directory stands there. -/
structure CanHold (tree : FileTree) (names : List (List UInt8)) : Prop where
  above : ∀ pre, pre <+: names → pre ≠ names → tree.contents? pre = none
  free : tree.isDirectory names = false

theorem canHold_iff {names : List (List UInt8)} : tree.CanHold names ↔
    (∀ pre ∈ names.inits, pre ≠ names → (tree.contents? pre).isNone = true) ∧
      tree.isDirectory names = false := by
  constructor
  · intro h
    refine ⟨fun pre hpre hne => ?_, h.free⟩
    rw [h.above pre ((List.mem_inits pre names).mp hpre) hne]
    rfl
  · rintro ⟨habove, hfree⟩
    refine ⟨fun pre hpre hne => ?_, hfree⟩
    exact Option.isNone_iff_eq_none.mp (habove pre ((List.mem_inits pre names).mpr hpre) hne)

instance (names : List (List UInt8)) : Decidable (tree.CanHold names) :=
  decidable_of_iff _ canHold_iff.symm

theorem write_spec (h : tree.Rooted) {p : Path} {names : List (List UInt8)}
    (hp : p.components = .root :: names.map .name) (hhold : tree.CanHold names)
    (contents : ByteArray) : (tree.write p contents).Rooted ∧
      ∀ place, place ≠ names → (tree.write p contents).contents? place = tree.contents? place := by
  rcases List.eq_nil_or_concat names with rfl | ⟨init, last, rfl⟩
  · have hfree := hhold.free
    rw [isDirectory_iff.mpr node?_root] at hfree
    cases hfree
  · rw [List.concat_eq_append] at hp hhold ⊢
    rw [List.map_append, ← List.cons_append] at hp
    have hlast : p.components.getLast? = some (.name last) := by
      rw [hp]
      exact List.getLast?_concat
    have hinit : p.components.dropLast = .root :: init.map .name := by
      rw [hp]
      exact List.dropLast_concat
    have hlonger : ¬ init ++ [last] <+: init := by
      intro hpre
      have hle := hpre.length_le
      rw [List.length_append, List.length_singleton] at hle
      omega
    have hfree : ∀ pre, pre <+: init → tree.contents? ([] ++ pre) = none := by
      intro pre hpre
      refine hhold.above pre (hpre.trans (List.prefix_append _ _)) ?_
      rintro rfl
      exact hlonger hpre
    obtain ⟨hplace, hrooted, hdir, hcontents, hnode⟩ :=
      @Rooted.makeWay tree init [] h (isDirectory_iff.mpr node?_root) hfree
    have hwrite : tree.write p contents =
        (tree.makeWay [] (init.map .name)).1.put (init ++ [last]) (.file contents) := by
      unfold write
      rw [hlast]
      simp only
      rw [hinit, FileTree.makeWay, hplace]
      rfl
    rw [List.nil_append] at hdir hnode
    rw [hwrite]
    constructor
    · refine hrooted.put hdir fun hcontra => ?_
      rw [isDirectory_iff, hnode _ hlonger, ← isDirectory_iff, hhold.free] at hcontra
      cases hcontra
    · intro place hne
      rw [← hcontents place]
      unfold contents?
      rw [node?_put (by simp), if_neg hne]

/-- A path through names that leads anywhere leads to the place they say. -/
theorem follow_place {p : Path} {names : List (List UInt8)}
    (hp : p.components = .root :: names.map .name) {place : Place}
    (h : tree.follow p = .ok place) : place = names := by
  obtain ⟨bytes⟩ := p
  cases bytes with
  | nil => cases hp
  | cons first rest =>
    by_cases hfirst : first = slash
    · subst hfirst
      rw [Path.components_slash] at hp
      obtain ⟨-, -, hwalk⟩ := follow_slash_iff.mp h
      exact (walk_ok (List.tail_eq_of_cons_eq hp) hwalk).1
    · have hroot := @Path.root_not_mem_components ⟨first :: rest⟩ first rest rfl hfirst
      rw [hp] at hroot
      exact absurd List.mem_cons_self hroot

theorem remove_spec (h : tree.Rooted) {p : Path} {names : List (List UInt8)}
    (hp : p.components = .root :: names.map .name) (hfile : tree.isFile p = true) :
    (tree.remove p).Rooted ∧
      ∀ place, place ≠ names → (tree.remove p).contents? place = tree.contents? place := by
  obtain ⟨place, hfollow, hcontents⟩ := isFile_iff.mp hfile
  obtain rfl := follow_place hp hfollow
  obtain ⟨contents, hcontents⟩ := Option.isSome_iff_exists.mp hcontents
  have hremove : tree.remove p = { entries := Keyed.drop TreeEntry.place place tree.entries } := by
    unfold remove
    rw [hfollow]
  have hne : place ≠ [] := by
    rintro rfl
    rw [contents?_root] at hcontents
    cases hcontents
  have hnode : ∀ q, (tree.remove p).node? q = if q = place then none else tree.node? q := by
    intro q
    rw [hremove]
    unfold node?
    by_cases hq : q = []
    · rw [if_pos hq, if_neg (by rw [hq]; exact fun heq => hne heq.symm), if_pos hq]
    · rw [if_neg hq, Keyed.find?_drop]
      by_cases hplace : q = place
      · rw [if_pos hplace, if_pos hplace]
        rfl
      · rw [if_neg hplace, if_neg hplace, if_neg hq]
  constructor
  · intro q m hsome
    rw [hnode] at hsome
    split at hsome
    · cases hsome
    · have hdir := isDirectory_iff.mp (h q m hsome)
      rw [isDirectory_iff, hnode]
      split
      · next heq =>
        rw [heq, contents?_iff.mp hcontents] at hdir
        cases hdir
      · exact hdir
  · intro q hq
    unfold contents?
    rw [hnode, if_neg hq]

/-! ## Edits -/

/-- A file is written, or removed if there are no contents. -/
def edit (tree : FileTree) (file : Path) : Option ByteArray → FileTree
  | some contents => tree.write file contents
  | none => tree.remove file

/-- A file is given by a normalised absolute path.  It can be written where no directory stands and no
file stands above, and removed where it is. -/
def CanEdit (tree : FileTree) (file : Path) (contents? : Option ByteArray) : Prop :=
  file.IsNormal ∧ if contents?.isSome then tree.CanHold file.names else tree.isFile file = true

instance (file : Path) (contents? : Option ByteArray) : Decidable (tree.CanEdit file contents?) :=
  inferInstanceAs (Decidable (_ ∧ _))

theorem edit_spec (h : tree.Rooted) {file : Path} {contents? : Option ByteArray}
    (hcan : tree.CanEdit file contents?) : (tree.edit file contents?).Rooted ∧
      ∀ place, place ≠ file.names →
        (tree.edit file contents?).contents? place = tree.contents? place := by
  obtain ⟨hnormal, hcan⟩ := hcan
  cases contents? with
  | some contents => exact write_spec h hnormal hcan contents
  | none => exact remove_spec h hnormal hcan

/-- **An edit concerns one file**, as far as a plain naming asks. -/
theorem Rooted.agreeOff_edit (h : tree.Rooted) {naming : Naming} (hplain : naming.Plain) {file : Path}
    {contents? : Option ByteArray} (hcan : tree.CanEdit file contents?) :
    tree.reader.AgreeOff file.SameFile naming.Asks (tree.edit file contents?).reader naming.Asks := by
  obtain ⟨hrooted, hsame⟩ := edit_spec h hcan
  exact h.agreeOff hrooted hplain hcan.1 hsame

end FileTree

end ScriptIndex
