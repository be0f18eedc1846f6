import ScriptIndex.Proofs.Findings
import ScriptIndex.Proofs.Words

/-!
# Own and required functions in one table

The functions of a file are gathered in source order: a declaration of its own takes the place of what
bears its name, wherever that came from, and a required file adds the names that are still free.  What
comes out can be said without following the order step by step: every name stands where it appears
first, an own name with its last declaration, any other with the first function required under it.

* `Intake`, `Extraction.intakes` — what the items of a file take in: own declarations and the files
  whose functions are taken over;
* `Merged` — the law that the table obeys;
* `Merged.declare`, `Merged.adopt` — one more declaration, and one more required file;
* `Extraction.foldl_absorb_merged` — all items of a file;
* `Extraction.extract_merges` — the functions of every extracted file obey the law.
-/

namespace ScriptIndex

/-! ## What a file takes in -/

/-- The functions that are cached for a file. -/
def SymbolCache.functionsOf (cache : SymbolCache) (p : Path) : List Declaration :=
  ((cache.get? p).map FileSymbols.functions).getD []

/-- One thing that a file takes in. -/
inductive Intake where
  /-- A declaration of its own. -/
  | own (declaration : Declaration)
  /-- The functions of a required file. -/
  | required (target : Path)
deriving DecidableEq, Repr

namespace Intake

/-- The functions that are taken in, where `sets` gives those of the required files. -/
def functions (sets : Path → List Declaration) : Intake → List Declaration
  | own d => [d]
  | required target => sets target

/-- The own declaration of a name. -/
def own? (name : String) : Intake → Option Declaration
  | own d => if d.name = name then some d else none
  | required _ => none

/-- The first function of a name in a required file. -/
def required? (sets : Path → List Declaration) (name : String) : Intake → Option Declaration
  | own _ => none
  | required target => Keyed.find? Declaration.name name (sets target)

end Intake

namespace Extraction

/-- The file whose functions a directive takes over: the one that the module stands for, unless it is
on the way or can be found neither in the cache nor by reading. -/
def followed? (naming : Naming) (reader : SourceReader) (way : List Path) (cache : SymbolCache)
    (file : Path) (module : String) : Option Path :=
  (look naming reader cache file module).found.filter fun target =>
    !target.isIn way && (cache.contains target || (reader.text? target).isSome)

/-- What some items of `file` take in, each with the cache as it is when its turn comes. -/
def intakes (naming : Naming) (reader : SourceReader) (follow : Follow) (way : List Path)
    (file : Path) : SymbolCache → List SourceItem → List Intake
  | _, [] => []
  | cache, .function d :: rest => .own d :: intakes naming reader follow way file cache rest
  | cache, .require module _ :: rest =>
    match followed? naming reader way cache file module with
    | none => intakes naming reader follow way file cache rest
    | some target =>
      .required target ::
        intakes naming reader follow way file (required reader follow target cache).state rest

end Extraction

/-! ## The law -/

/-- The last own declaration of a name. -/
def lastOwn? (intakes : List Intake) (name : String) : Option Declaration :=
  intakes.reverse.findSome? (Intake.own? name)

/-- The first function of a name in the first required file that has one. -/
def firstRequired? (sets : Path → List Declaration) (intakes : List Intake) (name : String) :
    Option Declaration :=
  intakes.findSome? (Intake.required? sets name)

/-- The names stand in the order in which they appear first in all that is taken in.  The function of
a name is its last own declaration; if there is none, it is the first required one, without the
export mark. -/
structure Merged (sets : Path → List Declaration) (intakes : List Intake)
    (functions : List Declaration) : Prop where
  order : functions.map Declaration.name =
    ((intakes.flatMap (Intake.functions sets)).map Declaration.name).eraseDups
  record : ∀ name, Keyed.find? Declaration.name name functions =
    (lastOwn? intakes name).or ((firstRequired? sets intakes name).map Declaration.asRequired)

/-! ### Taking functions over -/

namespace FileSymbols

variable {functions : List Declaration}

theorem map_name_adoptOne (d : Declaration) : (adoptOne functions d).map Declaration.name =
    if d.name ∈ functions.map Declaration.name then functions.map Declaration.name
    else functions.map Declaration.name ++ [d.name] := by
  by_cases h : d.name ∈ functions.map Declaration.name
  · simp only [adoptOne, Keyed.has, h, decide_true, if_true]
  · simp only [adoptOne, Keyed.has, h, decide_false, Bool.false_eq_true, if_false, List.map_append]
    rfl

/-- Names that are taken over come after those that are there. -/
theorem map_name_foldl_adoptOne {names : List String}
    (h : functions.map Declaration.name = names.eraseDups) (required : List Declaration) :
    (required.foldl adoptOne functions).map Declaration.name =
      (names ++ required.map Declaration.name).eraseDups := by
  induction required generalizing functions names with
  | nil => simpa using h
  | cons d rest ih =>
    have hone : (adoptOne functions d).map Declaration.name = (names ++ [d.name]).eraseDups := by
      rw [map_name_adoptOne, Identifier.eraseDups_concat, h]
      simp only [List.mem_eraseDups]
    rw [List.foldl_cons, ih hone, List.map_cons, List.append_assoc, List.singleton_append]

theorem find?_adoptOne (d : Declaration) (name : String) :
    Keyed.find? Declaration.name name (adoptOne functions d) =
      (Keyed.find? Declaration.name name functions).or
        (if d.name = name then some d.asRequired else none) := by
  unfold adoptOne
  split
  · next htaken =>
    -- a taken name is found already
    by_cases hname : d.name = name
    · rw [← Keyed.isSome_find?, hname] at htaken
      obtain ⟨f, hf⟩ := Option.isSome_iff_exists.mp htaken
      simp [hf]
    · simp [hname]
  · show List.find? _ (_ ++ [d.asRequired]) = _
    rw [List.find?_append]
    by_cases hname : d.name = name <;> simp [Keyed.find?, Declaration.asRequired, hname]

/-- A function that is there stays; a free name is found as it was required first. -/
theorem find?_foldl_adoptOne (required : List Declaration) (name : String) :
    Keyed.find? Declaration.name name (required.foldl adoptOne functions) =
      (Keyed.find? Declaration.name name functions).or
        ((Keyed.find? Declaration.name name required).map Declaration.asRequired) := by
  induction required generalizing functions with
  | nil => simp [Keyed.find?]
  | cons d rest ih =>
    rw [List.foldl_cons, ih, find?_adoptOne, Option.or_assoc]
    by_cases hname : d.name = name <;> simp [Keyed.find?, hname]

end FileSymbols

namespace Merged

variable {sets : Path → List Declaration} {taken : List Intake} {functions : List Declaration}

theorem nil : Merged sets [] [] :=
  ⟨rfl, fun _ => rfl⟩

theorem distinct (h : Merged sets taken functions) : (functions.map Declaration.name).Nodup := by
  rw [h.order]
  exact Identifier.nodup_eraseDups _

/-- **One more own declaration** takes the place of what bears its name. -/
theorem declare (h : Merged sets taken functions) (d : Declaration) :
    Merged sets (taken ++ [.own d]) (Keyed.put Declaration.name d functions) where
  order := by
    rw [Keyed.map_key_put, List.flatMap_append, List.map_append]
    show _ = (_ ++ [d.name]).eraseDups
    rw [Identifier.eraseDups_concat, h.order]
    simp only [List.mem_eraseDups]
  record := by
    intro name
    have hrequired : firstRequired? sets (taken ++ [.own d]) name = firstRequired? sets taken name := by
      simp [firstRequired?, List.findSome?_append, Intake.required?]
    have hown : lastOwn? (taken ++ [.own d]) name =
        if d.name = name then some d else lastOwn? taken name := by
      by_cases hname : d.name = name <;> simp [lastOwn?, Intake.own?, hname]
    rw [Keyed.find?_put, hrequired, hown, h.record]
    by_cases hname : d.name = name <;> simp [hname]

/-- **One more required file** adds the names that are free. -/
theorem adopt (h : Merged sets taken functions) (target : Path) :
    Merged sets (taken ++ [.required target])
      ((sets target).foldl FileSymbols.adoptOne functions) where
  order := by
    rw [FileSymbols.map_name_foldl_adoptOne h.order, List.flatMap_append, List.map_append,
      List.flatMap_singleton]
    rfl
  record := by
    intro name
    have hown : lastOwn? (taken ++ [.required target]) name = lastOwn? taken name := by
      rw [lastOwn?, List.reverse_append]
      rfl
    have hrequired : firstRequired? sets (taken ++ [.required target]) name =
        (firstRequired? sets taken name).or (Keyed.find? Declaration.name name (sets target)) := by
      simp [firstRequired?, List.findSome?_append, Intake.required?]
    rw [FileSymbols.find?_foldl_adoptOne, h.record, hown, hrequired, Option.or_assoc, Option.map_or]

end Merged

/-! ## All items of a file -/

namespace Extraction

variable {naming : Naming} {reader : SourceReader} {way : List Path} {file : Path} {draft : Draft}
  {module : String}

/-- A directive that is not followed adds no function and caches nothing. -/
theorem absorb_of_unfollowed (h : followed? naming reader way draft.cache file module = none)
    (follow : Follow) (line : Nat) :
    let next := absorb naming reader follow way file draft (.require module line)
    next.symbols.functions = draft.symbols.functions ∧ next.cache = draft.cache := by
  cases hfound : (look naming reader draft.cache file module).found with
  | none =>
    obtain ⟨hs, hc⟩ := absorb_missing hfound
    exact ⟨(congrArg FileSymbols.functions hs).trans rfl, hc⟩
  | some target =>
    cases hway : target.isIn way with
    | true =>
      obtain ⟨hs, hc⟩ := absorb_circular hfound hway
      exact ⟨(congrArg FileSymbols.functions hs).trans rfl, hc⟩
    | false =>
      have hunread : draft.cache.get? target = none ∧ reader.text? target = none := by
        simpa [followed?, hfound, Option.filter, hway, SymbolCache.contains_eq] using h
      obtain ⟨hs, hc⟩ := absorb_unreadable hfound hway hunread.1 hunread.2
      exact ⟨(congrArg FileSymbols.functions hs).trans rfl, hc⟩

/-- A directive that is followed takes over the functions of its target. -/
theorem absorb_of_followed {target : Path}
    (h : followed? naming reader way draft.cache file module = some target) (follow : Follow)
    (line : Nat) :
    let next := absorb naming reader follow way file draft (.require module line)
    target.isIn way = false ∧ next.cache = (required reader follow target draft.cache).state ∧
      ∃ r, (required reader follow target draft.cache).value = some r ∧
        next.symbols.functions = r.functions.foldl FileSymbols.adoptOne draft.symbols.functions := by
  obtain ⟨hfound, hthere⟩ := Option.filter_eq_some_iff.mp h
  simp only [Bool.and_eq_true, Bool.not_eq_true'] at hthere
  obtain ⟨hway, hthere⟩ := hthere
  refine ⟨hway, ?_⟩
  cases hget : draft.cache.get? target with
  | some r =>
    obtain ⟨hs, hc⟩ := absorb_cached hfound hway hget
    simp only [required, hget]
    refine ⟨hc, r, rfl, ?_⟩
    rw [hs, FileSymbols.takeOver_functions]
    rfl
  | none =>
    rw [SymbolCache.contains_eq, hget, Option.isSome_none, Bool.false_or] at hthere
    obtain ⟨text, htext⟩ := Option.isSome_iff_exists.mp hthere
    obtain ⟨hs, hc⟩ := absorb_followed hfound hway hget htext
    simp only [required, hget, SourceReader.text?_eq_some.mp htext]
    refine ⟨hc, _, rfl, ?_⟩
    rw [hs, FileSymbols.takeOver_functions]
    rfl

/-! ### Entries stay

What is cached stays as it is while items are taken in.  At depth zero nothing is cached at all, so
that there even what is missing stays so. -/

section

variable {depth : Nat} {p : Path} {entry : Option FileSymbols}

theorem visit_get? (hentry : entry.isSome = true ∨ depth = 0) (chain : List Path) {target : Path}
    (text : String) {cache : SymbolCache} (htarget : cache.get? target = none)
    (hp : cache.get? p = entry) :
    (visit naming reader depth chain target text cache).state.get? p = entry := by
  cases depth with
  | zero => exact hp
  | succ depth =>
    obtain ⟨s, rfl⟩ := Option.isSome_iff_exists.mp (hentry.resolve_right (Nat.succ_ne_zero depth))
    have hinsert : ∀ (file : Path) (symbols : FileSymbols) (cache later : SymbolCache),
        cache.get? file = none → cache.get? p = some s → later.get? p = some s →
          (later.insert file symbols).get? p = some s := by
      intro file symbols cache later hfile hcache hlater
      rw [SymbolCache.get?_insert, if_neg (SymbolCache.ne_of_get? hcache hfile)]
      exact hlater
    obtain ⟨later, hlater, hstate⟩ := @visit_preserves naming reader
      (fun cache => cache.get? p = some s) (fun _ => True) (fun _ _ _ _ _ => trivial)
      (fun _ hcache => hcache)
      (fun file symbols cache later _ hfile hcache hlater =>
        hinsert file symbols cache later hfile hcache hlater) depth chain target text cache hp
    rw [hstate]
    exact hinsert target _ cache later htarget hp hlater

theorem foldl_absorb_get? (hentry : entry.isSome = true ∨ depth = 0) (items : List SourceItem)
    {draft : Draft} (hp : draft.cache.get? p = entry) :
    (items.foldl (absorb naming reader (visit naming reader depth way) way file) draft).cache.get? p =
      entry :=
  foldl_absorb_preserves (P := fun cache => cache.get? p = entry)
    (fun _ text _ htarget hcache => visit_get? hentry way text htarget hcache) items hp

/-- What is taken over from a file is what is cached for it afterwards. -/
theorem required_functionsOf {target : Path} {cache : SymbolCache} {r : FileSymbols}
    (h : (required reader (visit naming reader depth way) target cache).value = some r) :
    let later := (required reader (visit naming reader depth way) target cache).state
    later.functionsOf target = r.functions ∧ ((later.get? target).isSome = true ∨ depth = 0) := by
  cases hget : cache.get? target with
  | some s =>
    simp only [required, hget, Option.some.injEq] at h ⊢
    subst h
    simp [SymbolCache.functionsOf, hget]
  | none =>
    cases hread : reader.read target with
    | error fault => simp [required, hget, hread] at h
    | ok text =>
      simp only [required, hget, hread, Option.some.injEq] at h ⊢
      subst h
      cases depth with
      | zero => simp [visit, SymbolCache.functionsOf, hget]
      | succ depth =>
        have hcached : (visit naming reader (depth + 1) way target text cache).state.get? target =
            some (visit naming reader (depth + 1) way target text cache).value := by
          show SymbolCache.get? (SymbolCache.insert _ target _) target = _
          rw [SymbolCache.get?_insert_self]
          rfl
        simp [SymbolCache.functionsOf, hcached]

end

/-- **All items of a file.**  What is in the table after some items obeys the law after the others, if
the required sets are read off the cache as it is at the end. -/
theorem foldl_absorb_merged {depth : Nat} {sets : Path → List Declaration} {items : List SourceItem}
    {draft : Draft} {taken : List Intake}
    (hsets : ∀ p : Path, p.isIn way = false → sets p = (items.foldl
      (absorb naming reader (visit naming reader depth way) way file) draft).cache.functionsOf p)
    (h : Merged sets taken draft.symbols.functions) :
    Merged sets
      (taken ++ intakes naming reader (visit naming reader depth way) way file draft.cache items)
      (items.foldl (absorb naming reader (visit naming reader depth way) way file)
        draft).symbols.functions := by
  induction items generalizing draft taken with
  | nil => simpa [intakes] using h
  | cons item rest ih =>
    rw [List.foldl_cons] at hsets ⊢
    cases item with
    | function d =>
      have hrest := ih hsets (h.declare d)
      rw [List.append_assoc] at hrest
      exact hrest
    | require module line =>
      cases hfollowed : followed? naming reader way draft.cache file module with
      | none =>
        obtain ⟨hfunctions, hcache⟩ :=
          absorb_of_unfollowed hfollowed (visit naming reader depth way) line
        rw [← hfunctions] at h
        have hrest := ih hsets h
        rw [hcache] at hrest
        simpa only [intakes, hfollowed] using hrest
      | some target =>
        obtain ⟨hway, hcache, r, hvalue, hfunctions⟩ :=
          absorb_of_followed hfollowed (visit naming reader depth way) line
        obtain ⟨htaken, hkept⟩ := required_functionsOf hvalue
        -- the entry of the target is the same at the end
        have hset : sets target = r.functions := by
          rw [← hcache] at htaken hkept
          rw [hsets target hway, ← htaken]
          simp only [SymbolCache.functionsOf, foldl_absorb_get? hkept rest rfl]
        have hnext := h.adopt target
        rw [hset, ← hfunctions] at hnext
        have hrest := ih hsets hnext
        rw [hcache, List.append_assoc, List.singleton_append] at hrest
        simpa only [intakes, hfollowed] using hrest

/-- A file that is taken over is not on the way and has an entry at the end. -/
theorem cached_of_mem_intakes {depth : Nat} {items : List SourceItem} {draft : Draft} {target : Path}
    (h : .required target ∈
      intakes naming reader (visit naming reader depth way) way file draft.cache items) :
    target.isIn way = false ∧ (((items.foldl (absorb naming reader (visit naming reader depth way) way
      file) draft).cache.get? target).isSome = true ∨ depth = 0) := by
  induction items generalizing draft with
  | nil => cases h
  | cons item rest ih =>
    rw [List.foldl_cons]
    cases item with
    | function d =>
      rcases List.mem_cons.mp h with h | h
      · cases h
      · exact ih h
    | require module line =>
      cases hfollowed : followed? naming reader way draft.cache file module with
      | none =>
        simp only [intakes, hfollowed] at h
        rw [← (absorb_of_unfollowed hfollowed (visit naming reader depth way) line).2] at h
        exact ih h
      | some other =>
        obtain ⟨hway, hcache, r, hvalue, -⟩ :=
          absorb_of_followed hfollowed (visit naming reader depth way) line
        simp only [intakes, hfollowed] at h
        rcases List.mem_cons.mp h with h | h
        · obtain rfl : target = other := Intake.required.inj h
          obtain ⟨-, hkept⟩ := required_functionsOf hvalue
          rw [← hcache] at hkept
          refine ⟨hway, hkept.imp_left fun hsome => ?_⟩
          rw [foldl_absorb_get? (Or.inl hsome) rest rfl]
          exact hsome
        · rw [← hcache] at h
          exact ih h

/-- **The functions of a file.**  For every cache, reader, naming, path and text, extracting the file
gives functions with names of their own which obey the law of merging, the set of each required file
being its entry in the cache afterwards; and each file that is taken over has an entry there, unless
the reader says that nothing can be read at all. -/
theorem extract_merges (naming : Naming) (reader : SourceReader) (file : Path) (text : String)
    (cache : SymbolCache) :
    let outcome := extract naming reader file text cache
    let taken := intakes naming reader (visit naming reader reader.limit [file]) [file] file
      cache.countScan (SourceItem.scan file text.toList)
    (outcome.value.functions.map Declaration.name).Nodup ∧
      Merged outcome.state.functionsOf taken outcome.value.functions ∧
      ∀ target, .required target ∈ taken →
        outcome.state.contains target = true ∨ reader.limit = 0 := by
  intro outcome taken
  let start : Draft :=
    { cache := cache.countScan
      events := .extracting file text.utf8ByteSize ::
        (SourceItem.scan file text.toList).map SourceItem.event }
  let gathered := (SourceItem.scan file text.toList).foldl
    (absorb naming reader (visit naming reader reader.limit [file]) [file] file) start
  have hother : ∀ p : Path, p.isIn [file] = false → outcome.state.get? p = gathered.cache.get? p := by
    intro p hp
    show (gathered.cache.insert file gathered.symbols).get? p = _
    rw [SymbolCache.get?_insert, if_neg (Path.ne_of_not_isIn_cons hp)]
  have hmerged : Merged outcome.state.functionsOf taken outcome.value.functions := by
    have hsets : ∀ p : Path, p.isIn [file] = false →
        outcome.state.functionsOf p = gathered.cache.functionsOf p := by
      intro p hp
      simp only [SymbolCache.functionsOf, hother p hp]
    exact @foldl_absorb_merged naming reader [file] file reader.limit _ _ start [] hsets .nil
  refine ⟨hmerged.distinct, hmerged, fun target htarget => ?_⟩
  obtain ⟨hway, hcached⟩ :=
    @cached_of_mem_intakes naming reader [file] file reader.limit _ start target htarget
  rwa [SymbolCache.contains_eq, hother target hway]

/-- Own declarations around two required files: `f` is required first and declared twice, `h` is
required twice; both stand where the first file brings them in. -/
example :
    let a := Path.ofString "/w/a.das"
    let files : List MemoryFile := [⟨.ofString "/w/b.das", some "[export]\ndef f()\n[export]\ndef h()"⟩,
      ⟨.ofString "/w/c.das", some "def h()\ndef k()"⟩]
    let text := "require b\ndef f(x)\ndef g()\nrequire c\ndef f(y)"
    ((extract .standard (.ofFiles files) a text {}).value.functions.map fun d =>
        (d.name, d.file.text, d.line, d.exported)) =
      [("f", "/w/a.das", 4, false), ("h", "/w/b.das", 3, false), ("g", "/w/a.das", 2, false),
        ("k", "/w/c.das", 1, false)] := by
  decide +kernel

end Extraction

end ScriptIndex
