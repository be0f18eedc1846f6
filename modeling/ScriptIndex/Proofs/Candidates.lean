import ScriptIndex.Naming
import ScriptIndex.Proofs.Resolving
import ScriptIndex.Proofs.Spelling

/-!
# The paths a naming asks for

A search asks for the normal form of a directory and a module, with an ending.  If the ending stays in
the last segment, or goes on with segments that are names, the path is written in the one way in which
all segments are names.

* `Path.IsName` — a segment that is a name;
* `Path.resolveDots_components` — a normal form has names only, below the root or not;
* `Naming.Plain`, `Naming.asks_cases` — what the paths asked for look like under a plain naming.
-/

namespace ScriptIndex

/-! ## Names -/

namespace Path

/-- A segment that stands for itself: it is not empty, not made of dots, and holds no slash. -/
def IsName (segment : List UInt8) : Prop :=
  Component.ofSegment? segment = some (.name segment) ∧ slash ∉ segment

theorem isName_iff {segment : List UInt8} : IsName segment ↔
    segment ≠ [] ∧ segment ≠ [dot] ∧ segment ≠ [dot, dot] ∧ slash ∉ segment := by
  unfold IsName Component.ofSegment?
  by_cases hempty : segment = []
  · simp [hempty]
  · by_cases hdot : segment = [dot]
    · simp [hdot]
    · by_cases hup : segment = [dot, dot]
      · simp [hup, dot]
      · simp [hempty, hdot, hup]

instance (segment : List UInt8) : Decidable (IsName segment) :=
  inferInstanceAs (Decidable (_ ∧ _))

/-- A name stays one when something without a slash is put behind it that starts with a dot. -/
theorem IsName.append {segment ending : List UInt8} (h : IsName segment)
    (he : slash ∉ dot :: ending) : IsName (segment ++ dot :: ending) := by
  obtain ⟨hempty, hdot, -, hslash⟩ := isName_iff.mp h
  refine isName_iff.mpr ⟨by simp, ?_, ?_, ?_⟩
  · intro heq
    cases segment with
    | nil => exact hempty rfl
    | cons b rest => simp at heq
  · intro heq
    cases segment with
    | nil => exact hempty rfl
    | cons b rest =>
      cases rest with
      | nil =>
        simp only [List.cons_append, List.nil_append, List.cons.injEq] at heq
        exact hdot (by rw [heq.1])
      | cons c rest => simp at heq
  · intro hmem
    exact (List.mem_append.mp hmem).elim hslash he

theorem filterMap_names {names : List (List UInt8)} (h : ∀ n ∈ names, IsName n) :
    names.filterMap Component.ofSegment? = names.map .name := by
  induction names with
  | nil => rfl
  | cons n rest ih =>
    rw [List.filterMap_cons_some (h n List.mem_cons_self).1, List.map_cons,
      ih fun m hm => h m (List.mem_cons_of_mem _ hm)]

theorem components_below_names {names : List (List UInt8)} (h : ∀ n ∈ names, IsName n)
    (hne : names ≠ []) : (below names).components = .root :: names.map .name := by
  rw [components_below (fun n hn => (h n hn).2) hne, filterMap_names h]

/-! ## Normal forms -/

/-- The components of a path: the root or not, then others, among them proper names only. -/
theorem components_split (p : Path) : ∃ head tail, p.components = head ++ tail ∧
    (head = [] ∨ head = [.root]) ∧ .root ∉ tail ∧ ∀ b, .name b ∈ tail → IsName b := by
  obtain ⟨head, tail, hsplit, hhead, htail⟩ := p.lawful_components
  have hroot : .root ∉ tail := fun hmem => (htail _ hmem).ne_root rfl
  have hname : ∀ b, .name b ∈ tail → IsName b := fun b hmem => htail _ hmem
  rcases hhead with rfl | rfl | rfl
  · exact ⟨[], tail, hsplit, Or.inl rfl, hroot, hname⟩
  · exact ⟨[.root], tail, hsplit, Or.inr rfl, hroot, hname⟩
  · exact ⟨[], .here :: tail, hsplit, Or.inl rfl, by simpa using hroot, fun b => by simpa using hname b⟩

/-- Reversed components that are names, with or without the root below them. -/
def Settled (stack : List Component) : Prop :=
  ∃ names : List (List UInt8), (∀ n ∈ names, IsName n) ∧
    (stack = names.map .name ∨ stack = names.map .name ++ [.root])

theorem Settled.enter {stack : List Component} (h : Settled stack) {part : Component}
    (hroot : part ≠ .root) (hname : ∀ b, part = .name b → IsName b) :
    Settled (Path.enter stack part) := by
  obtain ⟨names, hnames, hstack⟩ := h
  cases part with
  | root => exact absurd rfl hroot
  | here => exact ⟨names, hnames, hstack⟩
  | up =>
    cases names with
    | nil =>
      refine ⟨[], hnames, ?_⟩
      rcases hstack with rfl | rfl
      · exact Or.inl rfl
      · exact Or.inr rfl
    | cons n outer =>
      refine ⟨outer, fun m hm => hnames m (List.mem_cons_of_mem _ hm), ?_⟩
      rcases hstack with rfl | rfl
      · exact Or.inl rfl
      · exact Or.inr rfl
  | name b =>
    refine ⟨b :: names, ?_, ?_⟩
    · intro n hn
      rcases List.mem_cons.mp hn with rfl | hn
      · exact hname n rfl
      · exact hnames n hn
    · rcases hstack with rfl | rfl
      · exact Or.inl rfl
      · exact Or.inr rfl

theorem Settled.foldl {parts : List Component} (hroot : .root ∉ parts)
    (hname : ∀ b, .name b ∈ parts → IsName b) {stack : List Component} (h : Settled stack) :
    Settled (parts.foldl Path.enter stack) := by
  induction parts generalizing stack with
  | nil => exact h
  | cons part rest ih =>
    apply ih (fun hmem => hroot (List.mem_cons_of_mem _ hmem))
      (fun b hb => hname b (List.mem_cons_of_mem _ hb))
    refine h.enter ?_ ?_
    · rintro rfl
      exact hroot List.mem_cons_self
    · rintro b rfl
      exact hname b List.mem_cons_self

/-- **A normal form is made of names**, below the root or not. -/
theorem resolveDots_components (p : Path) : ∃ names : List (List UInt8), (∀ n ∈ names, IsName n) ∧
    (resolveDots p.components = names.map .name ∨
      resolveDots p.components = .root :: names.map .name) := by
  obtain ⟨head, tail, hsplit, hhead, hroot, hname⟩ := components_split p
  have hstart : Settled (head.foldl enter []) := by
    rcases hhead with rfl | rfl
    · exact ⟨[], by simp, Or.inl rfl⟩
    · exact ⟨[], by simp, Or.inr rfl⟩
  obtain ⟨names, hnames, hstack⟩ := Settled.foldl hroot hname hstart
  refine ⟨names.reverse, fun n hn => hnames n (List.mem_reverse.mp hn), ?_⟩
  unfold resolveDots
  rw [hsplit, List.foldl_append, List.map_reverse]
  rcases hstack with hstack | hstack
  · rw [hstack]
    exact Or.inl rfl
  · rw [hstack, List.reverse_append]
    exact Or.inr rfl

/-- The bytes of a normal form. -/
theorem bytes_normalize (p : Path) : ∃ names : List (List UInt8), (∀ n ∈ names, IsName n) ∧
    (p.normalize.bytes = [slash].intercalate names ∨
      p.normalize.bytes = slash :: [slash].intercalate names) := by
  obtain ⟨names, hnames, hresolve⟩ := resolveDots_components p
  have hbytes : (names.map Component.name).map Component.bytes = names := by
    rw [List.map_map]
    exact List.map_id names
  refine ⟨names, hnames, ?_⟩
  unfold normalize
  rcases hresolve with hresolve | hresolve
  · left
    rw [hresolve]
    cases names with
    | nil => rfl
    | cons n rest =>
      show [slash].intercalate (((n :: rest).map Component.name).map Component.bytes) = _
      rw [hbytes]
  · right
    rw [hresolve]
    show slash :: [slash].intercalate ((names.map Component.name).map Component.bytes) = _
    rw [hbytes]

/-- Two joined texts meet in one segment. -/
theorem intercalate_append (init : List (List UInt8)) (last first : List UInt8)
    (more : List (List UInt8)) :
    [slash].intercalate (init ++ [last]) ++ [slash].intercalate (first :: more) =
      [slash].intercalate (init ++ (last ++ first) :: more) := by
  induction init with
  | nil => cases more <;> simp [List.intercalate]
  | cons next rest ih =>
    cases rest with
    | nil => cases more <;> simp [List.intercalate]
    | cons next' rest =>
      simp only [List.intercalate, List.cons_append, List.intersperse_cons_cons, List.flatten_cons,
        List.append_assoc] at ih ⊢
      rw [ih]

theorem below_eq {names : List (List UInt8)} (h : names ≠ []) :
    (below names).bytes = slash :: [slash].intercalate names := by
  cases names with
  | nil => exact absurd rfl h
  | cons first rest =>
    unfold below
    rw [← intercalate_nil_cons]
    simp [List.intercalate]

/-- Names that are not below the root, with an ending, start with a byte of a name or with a dot. -/
theorem relative_ending {names : List (List UInt8)} (h : ∀ n ∈ names, IsName n) (rest : List UInt8) :
    ∃ b bytes, [slash].intercalate names ++ dot :: rest = b :: bytes ∧ b ≠ slash := by
  cases names with
  | nil => exact ⟨dot, rest, rfl, by decide⟩
  | cons n more =>
    obtain ⟨hne, -, -, hslash⟩ := isName_iff.mp (h n List.mem_cons_self)
    cases n with
    | nil => exact absurd rfl hne
    | cons b n =>
      have hb : b ≠ slash := fun heq => hslash (heq ▸ List.mem_cons_self)
      cases more with
      | nil => exact ⟨b, _, rfl, hb⟩
      | cons m more => exact ⟨b, _, rfl, hb⟩

/-- A text that starts with a dot has a first segment that does. -/
theorem splitOn_dot (rest : List UInt8) :
    ∃ first more, (dot :: rest).splitOn slash = (dot :: first) :: more := by
  have hsplit : (dot :: rest).splitOn slash = (rest.splitOn slash).modifyHead (dot :: ·) := by
    rw [List.splitOn_cons_eq_if_modifyHead, if_neg (by decide)]
  cases hrest : rest.splitOn slash with
  | nil => exact absurd hrest (List.splitOn_ne_nil _ _)
  | cons first more =>
    rw [hrest, List.modifyHead_cons] at hsplit
    exact ⟨first, more, hsplit⟩

end Path

/-! ## Candidates -/

namespace Naming

/-- What the two spellings of a module's file put behind it. -/
def endings (naming : Naming) : List (List UInt8) :=
  let extension := dot :: Text.encode naming.extension.toList
  [extension, dot :: Text.encode naming.specSuffix.toList ++ extension]

/-- A naming whose endings lead nowhere else: where one goes on behind a slash, all its segments are
names. -/
def Plain (naming : Naming) : Prop :=
  ∀ ending ∈ naming.endings, slash ∈ ending → ∀ segment ∈ ending.splitOn slash, Path.IsName segment

instance (naming : Naming) : Decidable naming.Plain :=
  inferInstanceAs (Decidable (∀ _ ∈ _, _))

theorem dot_of_mem_endings {naming : Naming} {ending : List UInt8} (h : ending ∈ naming.endings) :
    ∃ rest, ending = dot :: rest := by
  simp only [endings, List.mem_cons, List.not_mem_nil, or_false] at h
  rcases h with rfl | rfl
  · exact ⟨_, rfl⟩
  · exact ⟨_, rfl⟩

/-- A candidate is a normal form with an ending. -/
theorem candidate_eq {naming : Naming} {dir : Path} {module : String} {q : Path}
    (h : q ∈ naming.candidates dir module) :
    ∃ p : Path, ∃ ending ∈ naming.endings, q = ⟨p.normalize.bytes ++ ending⟩ := by
  refine ⟨dir.join (.ofString module), ?_⟩
  simp only [candidates, List.mem_cons, List.not_mem_nil, or_false] at h
  rcases h with rfl | rfl
  · exact ⟨_, List.mem_cons_self, rfl⟩
  · refine ⟨_, List.mem_cons_of_mem _ List.mem_cons_self, ?_⟩
    show Path.mk ((_ ++ dot :: _) ++ dot :: _) = _
    rw [List.append_assoc]

/-- The segments of an ending: one that starts with a dot, and then names. -/
theorem Plain.segments {naming : Naming} (hplain : naming.Plain) {ending : List UInt8}
    (h : ending ∈ naming.endings) : ∃ first more, ending.splitOn slash = (dot :: first) :: more ∧
      slash ∉ dot :: first ∧ (∀ n ∈ more, Path.IsName n) ∧
      (more ≠ [] → Path.IsName (dot :: first)) := by
  obtain ⟨rest, rfl⟩ := dot_of_mem_endings h
  obtain ⟨first, more, hsplit⟩ := Path.splitOn_dot rest
  have hnames : more ≠ [] → ∀ n ∈ (dot :: first) :: more, Path.IsName n := by
    intro hmore
    have hslash : slash ∈ dot :: rest := by
      by_contra hnone
      rw [List.splitOn_eq_singleton hnone] at hsplit
      exact hmore (List.tail_eq_of_cons_eq hsplit).symm
    exact hsplit ▸ hplain _ h hslash
  refine ⟨first, more, hsplit, ?_, ?_, fun hmore => hnames hmore _ List.mem_cons_self⟩
  · exact (Text.of_mem_splitOn (hsplit ▸ List.mem_cons_self)).1
  · intro n hn
    exact hnames (List.ne_nil_of_mem hn) n (List.mem_cons_of_mem _ hn)

/-- **What a plain naming asks for**: a path through names, the root itself, or a relative path. -/
theorem asks_cases {naming : Naming} (hplain : naming.Plain) {q : Path} (h : naming.Asks q) :
    (∃ names : List (List UInt8), names ≠ [] ∧ (∀ n ∈ names, Path.IsName n) ∧ q = .below names) ∨
      (q = .below [[dot]] ∨ q = .below [[dot, dot]]) ∨
      ∃ first rest, q.bytes = first :: rest ∧ first ≠ slash := by
  obtain ⟨dir, module, hmem⟩ := h
  obtain ⟨p, ending, hending, rfl⟩ := candidate_eq hmem
  obtain ⟨names, hnames, hbytes | hbytes⟩ := p.bytes_normalize
  · -- a relative path starts with a name or with the dot before the ending
    obtain ⟨rest, rfl⟩ := dot_of_mem_endings hending
    rw [hbytes]
    exact Or.inr (Or.inr (Path.relative_ending hnames rest))
  · obtain ⟨first, more, hsplit, hslash, hmore, hfirst⟩ := hplain.segments hending
    have hjoined : ending = [slash].intercalate ((dot :: first) :: more) := by
      rw [← hsplit, List.intercalate_splitOn]
    rw [hbytes, hjoined]
    rcases List.eq_nil_or_concat names with rfl | ⟨init, last, rfl⟩
    · -- below the root there is the ending alone
      have hbelow : Path.mk (slash :: [slash].intercalate [] ++
          [slash].intercalate ((dot :: first) :: more)) = .below ((dot :: first) :: more) :=
        congrArg Path.mk (Path.below_eq (List.cons_ne_nil _ _)).symm
      rw [hbelow]
      by_cases hname : Path.IsName (dot :: first)
      · exact Or.inl ⟨_, List.cons_ne_nil _ _, List.forall_mem_cons.mpr ⟨hname, hmore⟩, rfl⟩
      · have hnone : more = [] := by
          by_contra hne
          exact hname (hfirst hne)
        subst hnone
        refine Or.inr (Or.inl ?_)
        by_cases hdot : dot :: first = [dot]
        · rw [hdot]
          exact Or.inl rfl
        · by_cases hup : dot :: first = [dot, dot]
          · rw [hup]
            exact Or.inr rfl
          · exact absurd (Path.isName_iff.mpr ⟨List.cons_ne_nil _ _, hdot, hup, hslash⟩) hname
    · refine Or.inl ⟨init ++ (last ++ dot :: first) :: more, by simp, ?_, ?_⟩
      · intro n hn
        rcases List.mem_append.mp hn with hn | hn
        · exact hnames n (by simp [hn])
        · rcases List.mem_cons.mp hn with rfl | hn
          · exact (hnames last (by simp)).append hslash
          · exact hmore n hn
      · rw [List.concat_eq_append, List.cons_append, Path.intercalate_append,
          ← Path.below_eq (by simp)]

end Naming

end ScriptIndex
