import ScriptIndex.Proofs.Candidates

/-!
# Normal forms of paths

The normal form of a path is found from its components alone, on a stack: a name is put on it, and `..`
takes a name back.  Since components can be written down and read again, the normal form of a normal
form is itself, and it makes no difference whether a path is followed from a directory or from the
normal form of that directory.

* `Path.components_ofComponents` — the components of a path are read back as they were written;
* `Path.components_normalize`, `Path.normalize_normalize` — normal forms and their components;
* `Path.resolveDots_join` — following a relative path goes on with the stack of the directory;
* `Path.normalize_eq_of_ending` — an ending keeps different normal forms apart;
* `Path.normalize_laws` — the laws together, and what they mean for the candidates of a module.
-/

namespace ScriptIndex

/-! ## Writing components -/

namespace Component

/-- At the start of a path two dots and names are read like everywhere else. -/
theorem Inner.start {c : Component} (h : c.Inner) (more : Bool) : Path.start c.bytes more = [c] := by
  have hne : ∀ segment, ofSegment? segment = none → c.bytes ≠ segment := by
    rintro segment hnone rfl
    rw [h.1] at hnone
    cases hnone
  unfold Path.start
  rw [if_neg (hne [] rfl), if_neg (hne [dot] rfl), h.1]
  rfl

end Component

namespace Path

theorem IsName.inner {segment : List UInt8} (h : IsName segment) : (Component.name segment).Inner :=
  h

/-- What remains without the last component is the components of a path again. -/
theorem Lawful.of_concat {parts : List Component} {last : Component}
    (h : Lawful (parts ++ [last])) : Lawful parts := by
  obtain ⟨head, tail, heq, hhead, htail⟩ := h
  rcases List.eq_nil_or_concat' tail with rfl | ⟨tail, c, rfl⟩
  · have hlength : head.length ≤ 1 := by
      rcases hhead with rfl | rfl | rfl <;> simp
    have hparts : parts = [] := by
      rw [← List.append_nil head, ← heq] at hlength
      simpa using hlength
    exact ⟨[], [], hparts, Or.inl rfl, by simp⟩
  · rw [← List.append_assoc] at heq
    refine ⟨head, tail, (List.append_inj' heq rfl).1, hhead, ?_⟩
    intro d hd
    exact htail d (List.mem_append_left _ hd)

theorem splitOn_intercalate_bytes {parts : List Component} (h : ∀ c ∈ parts, slash ∉ c.bytes)
    (hne : parts ≠ []) :
    ([slash].intercalate (parts.map Component.bytes)).splitOn slash = parts.map Component.bytes := by
  rw [List.splitOn_intercalate]
  · intro segment hsegment
    obtain ⟨c, hc, rfl⟩ := List.mem_map.mp hsegment
    exact h c hc
  · simpa using hne

/-- **Components are read back as they were written.** -/
theorem components_ofComponents {parts : List Component} (h : Lawful parts) :
    (ofComponents parts).components = parts := by
  obtain ⟨head, tail, rfl, hhead, htail⟩ := h
  have hslash : ∀ c ∈ tail, slash ∉ c.bytes := fun c hc => (htail c hc).2
  have hread : (tail.map Component.bytes).filterMap Component.ofSegment? = tail :=
    filterMap_bytes fun c hc => (htail c hc).1
  rcases hhead with rfl | rfl | rfl
  · cases tail with
    | nil => rfl
    | cons c rest =>
      have hc := htail c List.mem_cons_self
      have hwritten : ofComponents (c :: rest) =
          ⟨[slash].intercalate ((c :: rest).map Component.bytes)⟩ := by
        unfold ofComponents
        split
        · next heq =>
          injection heq with hroot
          exact absurd hroot hc.ne_root
        · rfl
      rw [List.nil_append, hwritten, components, parse,
        splitOn_intercalate_bytes hslash (List.cons_ne_nil _ _)]
      have hrest : (rest.map Component.bytes).filterMap Component.ofSegment? = rest :=
        filterMap_bytes fun d hd => (htail d (List.mem_cons_of_mem _ hd)).1
      show start c.bytes _ ++ (rest.map Component.bytes).filterMap Component.ofSegment? = c :: rest
      rw [hc.start, hrest]
      rfl
  · show (Path.mk (slash :: [slash].intercalate (tail.map Component.bytes))).components = .root :: tail
    rw [components_slash]
    by_cases hne : tail = []
    · rw [hne]
      rfl
    · rw [splitOn_intercalate_bytes hslash hne, hread]
  · have hdot : ∀ c ∈ Component.here :: tail, slash ∉ c.bytes := by
      intro c hc
      rcases List.mem_cons.mp hc with rfl | hc
      · decide
      · exact hslash c hc
    show parse ([slash].intercalate ((Component.here :: tail).map Component.bytes)) = .here :: tail
    rw [parse, splitOn_intercalate_bytes hdot (List.cons_ne_nil _ _)]
    show .here :: (tail.map Component.bytes).filterMap Component.ofSegment? = .here :: tail
    rw [hread]

/-! ## Resolving dots -/

/-- The root at the bottom of the stack is never taken away. -/
theorem foldl_enter_root (parts stack : List Component) :
    parts.foldl enter (stack ++ [.root]) = parts.foldl enter stack ++ [.root] := by
  induction parts generalizing stack with
  | nil => rfl
  | cons part rest ih =>
    have hstep : enter (stack ++ [.root]) part = enter stack part ++ [.root] := by
      cases part with
      | up =>
        cases stack with
        | nil => rfl
        | cons top outer => cases top <;> rfl
      | _ => rfl
    rw [List.foldl_cons, List.foldl_cons, hstep, ih]

/-- What is on the stack was there before or came in. -/
theorem mem_of_mem_foldl_enter {parts stack : List Component} {c : Component}
    (h : c ∈ parts.foldl enter stack) : c ∈ stack ∨ c ∈ parts := by
  induction parts generalizing stack with
  | nil => exact Or.inl h
  | cons part rest ih =>
    rcases ih h with h | h
    · have hstep : c ∈ stack ∨ c = part := by
        cases part with
        | here => exact Or.inl h
        | up =>
          cases stack with
          | nil => exact Or.inl h
          | cons top outer =>
            cases top with
            | name _ => exact Or.inl (List.mem_cons_of_mem _ h)
            | _ => exact Or.inl h
        | _ => exact (List.mem_cons.mp h).symm
      rcases hstep with hstack | rfl
      · exact Or.inl hstack
      · exact Or.inr List.mem_cons_self
    · exact Or.inr (List.mem_cons_of_mem _ h)

theorem resolveDots_root (parts : List Component) :
    resolveDots (.root :: parts) = .root :: resolveDots parts := by
  unfold resolveDots
  rw [List.foldl_cons]
  show (parts.foldl enter ([] ++ [.root])).reverse = _
  rw [foldl_enter_root, List.reverse_append]
  rfl

/-- Names are left as they are. -/
theorem resolveDots_names (names : List (List UInt8)) :
    resolveDots (names.map .name) = names.map .name := by
  have hpush : ∀ stack, (names.map Component.name).foldl enter stack =
      (names.map Component.name).reverse ++ stack := by
    induction names with
    | nil => intro stack; rfl
    | cons n rest ih =>
      intro stack
      rw [List.map_cons, List.foldl_cons, ih, List.reverse_cons, List.append_assoc]
      rfl
  unfold resolveDots
  rw [hpush, List.append_nil, List.reverse_reverse]

theorem resolveDots_resolveDots (p : Path) :
    resolveDots (resolveDots p.components) = resolveDots p.components := by
  obtain ⟨names, -, hresolve | hresolve⟩ := resolveDots_components p
  · rw [hresolve, resolveDots_names]
  · rw [hresolve, resolveDots_root, resolveDots_names]

/-! ## Normal forms -/

/-- **The components of a normal form** are those of the path without dots. -/
theorem components_normalize (p : Path) : p.normalize.components = resolveDots p.components := by
  refine components_ofComponents ?_
  obtain ⟨names, hnames, hresolve⟩ := resolveDots_components p
  have hinner : ∀ c ∈ names.map Component.name, c.Inner := by
    intro c hc
    obtain ⟨n, hn, rfl⟩ := List.mem_map.mp hc
    exact (hnames n hn).inner
  rcases hresolve with hresolve | hresolve
  · exact ⟨[], _, hresolve, Or.inl rfl, hinner⟩
  · exact ⟨[.root], _, hresolve, Or.inr (Or.inl rfl), hinner⟩

/-- A normal form is its own normal form. -/
theorem normalize_normalize (p : Path) : p.normalize.normalize = p.normalize := by
  show ofComponents (resolveDots p.normalize.components) = ofComponents (resolveDots p.components)
  rw [components_normalize, resolveDots_resolveDots]

theorem dots_not_mem_normalize (p : Path) :
    .here ∉ p.normalize.components ∧ .up ∉ p.normalize.components := by
  rw [components_normalize]
  obtain ⟨names, -, hresolve | hresolve⟩ := resolveDots_components p
  · rw [hresolve]
    simp
  · rw [hresolve]
    simp

/-- The root is the first component wherever it is one. -/
theorem eq_root_cons {p : Path} (h : .root ∈ p.components) : ∃ tail, p.components = .root :: tail := by
  obtain ⟨head, tail, hsplit, rfl | rfl, hroot, -⟩ := components_split p
  · rw [hsplit] at h
    exact absurd h hroot
  · exact ⟨tail, hsplit⟩

theorem isAbsolute_iff {p : Path} : p.isAbsolute = true ↔ .root ∈ p.components := by
  unfold isAbsolute
  rw [decide_eq_true_iff]
  constructor
  · exact List.mem_of_mem_head?
  · intro hmem
    obtain ⟨tail, htail⟩ := eq_root_cons hmem
    rw [htail]
    rfl

/-- The normal form starts at the root if and only if the path does. -/
theorem isAbsolute_normalize (p : Path) : p.normalize.isAbsolute = p.isAbsolute := by
  rw [Bool.eq_iff_iff, isAbsolute_iff, isAbsolute_iff, components_normalize]
  constructor
  · intro hmem
    exact (mem_of_mem_foldl_enter (List.mem_reverse.mp hmem)).resolve_left List.not_mem_nil
  · intro hmem
    obtain ⟨tail, htail⟩ := eq_root_cons hmem
    rw [htail, resolveDots_root]
    exact List.mem_cons_self

/-! ## Following a path from a directory -/

theorem parse_of_splitOn {bytes first : List UInt8} {rest : List (List UInt8)}
    (h : bytes.splitOn slash = first :: rest) :
    parse bytes = start first (!rest.isEmpty) ++ rest.filterMap Component.ofSegment? := by
  unfold parse
  rw [h]

theorem splitOn_append_slash (front rest : List UInt8) :
    (front ++ slash :: rest).splitOn slash = front.splitOn slash ++ rest.splitOn slash :=
  List.splitOnP_append_cons _ _ (beq_self_eq_true slash)

/-- Behind a slash every segment is read as one in the middle of a path. -/
theorem parse_append_slash (front rest : List UInt8) :
    parse (front ++ slash :: rest) =
      parse (front ++ [slash]) ++ (rest.splitOn slash).filterMap Component.ofSegment? := by
  cases hfront : front.splitOn slash with
  | nil => exact absurd hfront (List.splitOn_ne_nil _ _)
  | cons first more =>
    have hsplit : ∀ back, (front ++ slash :: back).splitOn slash =
        first :: (more ++ back.splitOn slash) := by
      intro back
      rw [splitOn_append_slash, hfront, List.cons_append]
    have hmore : ∀ back : List UInt8, (!(more ++ back.splitOn slash).isEmpty) = true := by
      intro back
      simp [List.splitOn_ne_nil]
    rw [parse_of_splitOn (hsplit rest), parse_of_splitOn (hsplit []), hmore, hmore,
      List.filterMap_append, List.filterMap_append]
    simp [Component.ofSegment?]

/-- A slash at the end of a path says nothing. -/
theorem parse_slash {bytes : List UInt8} (h : bytes ≠ []) : parse (bytes ++ [slash]) = parse bytes := by
  cases hsplit : bytes.splitOn slash with
  | nil => exact absurd hsplit (List.splitOn_ne_nil _ _)
  | cons first more =>
    have hlonger : (bytes ++ [slash]).splitOn slash = first :: (more ++ [[]]) := by
      rw [splitOn_append_slash, hsplit]
      rfl
    have hstart : start first true = start first (!more.isEmpty) := by
      cases more with
      | cons _ _ => rfl
      | nil =>
        -- a path of one segment, which is not the empty one
        have hfirst : first ≠ [] := by
          rintro rfl
          have hjoined : [slash].intercalate (bytes.splitOn slash) = bytes :=
            List.intercalate_splitOn slash
          rw [hsplit] at hjoined
          exact h hjoined.symm
        unfold start
        rw [if_neg hfirst, if_neg hfirst]
    have hmore : (!(more ++ [[]]).isEmpty) = true := by simp
    rw [parse_of_splitOn hlonger, parse_of_splitOn hsplit, hmore, hstart, List.filterMap_append]
    simp [Component.ofSegment?]

/-- The components of a relative path that is followed from a directory. -/
theorem components_join {p q : Path} (hp : p.bytes ≠ []) (hq : q.isAbsolute = false) :
    (p.join q).components =
      p.components ++ (q.bytes.splitOn slash).filterMap Component.ofSegment? := by
  unfold join
  rw [if_neg (by simp [hp, hq])]
  split
  · next hlast =>
    obtain ⟨front, hfront⟩ := List.getLast?_eq_some_iff.mp hlast
    show parse (p.bytes ++ q.bytes) = parse p.bytes ++ _
    rw [hfront, List.append_assoc, List.singleton_append, parse_append_slash]
  · show parse (p.bytes ++ slash :: q.bytes) = parse p.bytes ++ _
    rw [parse_append_slash, parse_slash hp]

/-- On the stack a relative path does what its segments do: the dot that may start it does nothing. -/
theorem foldl_enter_relative {q : Path} (hq : q.isAbsolute = false) (stack : List Component) :
    q.components.foldl enter stack =
      ((q.bytes.splitOn slash).filterMap Component.ofSegment?).foldl enter stack := by
  unfold isAbsolute components parse at hq
  unfold components parse
  cases hsplit : q.bytes.splitOn slash with
  | nil => rfl
  | cons first rest =>
    rw [hsplit] at hq
    dsimp only at hq ⊢
    unfold start at hq ⊢
    split at hq
    · next hempty =>
      split at hq
      · simp at hq
      · next hmore =>
        rw [if_pos hempty, if_neg hmore, hempty]
        rfl
    · next hempty =>
      rw [if_neg hempty]
      split
      · next hdot =>
        rw [hdot]
        rfl
      · cases hof : Component.ofSegment? first with
        | none => simp [hof]
        | some c => simp [hof]

/-- **Following a relative path goes on with the stack of the directory.** -/
theorem resolveDots_join (p : Path) {q : Path} (hq : q.isAbsolute = false) :
    resolveDots (p.join q).components =
      (q.components.foldl enter (p.components.foldl enter [])).reverse := by
  by_cases hp : p.bytes = []
  · have hjoin : p.join q = q := by
      unfold join
      rw [if_pos (by simp [hp])]
    have hnone : p.components = [] := by
      unfold components
      rw [hp]
      rfl
    rw [hjoin, hnone]
    rfl
  · unfold resolveDots
    rw [components_join hp hq, List.foldl_append, foldl_enter_relative hq]

/-- It makes no difference whether a path is followed from a directory or from its normal form. -/
theorem normalize_join (p q : Path) : (p.join q).normalize = (p.normalize.join q).normalize := by
  cases hq : q.isAbsolute with
  | true =>
    unfold join
    rw [hq]
    rfl
  | false =>
    have hresolve : resolveDots p.normalize.components = resolveDots p.components := by
      rw [components_normalize, resolveDots_resolveDots]
    have hstack : p.normalize.components.foldl enter [] = p.components.foldl enter [] :=
      List.reverse_inj.mp hresolve
    unfold normalize
    rw [resolveDots_join p hq]
    show _ = ofComponents (resolveDots (p.normalize.join q).components)
    rw [resolveDots_join p.normalize hq, hstack]

/-! ## Endings -/

/-- The components of some names, the last of which has an ending; `alone` is what the ending stands
for where there is no name. -/
def ended (alone : List Component) (ending : List UInt8) (names : List (List UInt8)) :
    List Component :=
  match names.getLast? with
  | none => alone
  | some last => (names.dropLast ++ [last ++ ending]).map .name

theorem ended_concat (alone : List Component) (ending : List UInt8) (init : List (List UInt8))
    (last : List UInt8) :
    ended alone ending (init ++ [last]) = (init ++ [last ++ ending]).map .name := by
  simp [ended]

/-- An ending keeps names apart, if alone it does not stand for a name that has it. -/
theorem ended_inj {alone : List Component} {ending : List UInt8} {names names' : List (List UInt8)}
    (halone : ∀ n, .name (n ++ ending) ∈ alone → n = []) (hne : [] ∉ names) (hne' : [] ∉ names')
    (h : ended alone ending names = ended alone ending names') : names = names' := by
  have hlonger : ∀ init last, [] ∉ init ++ [last] → alone ≠ ended alone ending (init ++ [last]) := by
    intro init last hlast heq
    have hmem : .name (last ++ ending) ∈ alone := by
      rw [heq, ended_concat]
      simp
    exact hlast (by simp [halone last hmem])
  rcases List.eq_nil_or_concat' names with rfl | ⟨init, last, rfl⟩
  · rcases List.eq_nil_or_concat' names' with rfl | ⟨init', last', rfl⟩
    · rfl
    · exact absurd h (hlonger init' last' hne')
  · rcases List.eq_nil_or_concat' names' with rfl | ⟨init', last', rfl⟩
    · exact absurd h.symm (hlonger init last hne)
    · rw [ended_concat, ended_concat] at h
      have hnames := List.map_injective_iff.mpr (fun _ _ => Component.name.inj) h
      obtain ⟨hinit, hlast⟩ := List.append_inj' hnames rfl
      rw [hinit, List.append_cancel_right (List.singleton_inj.mp hlast)]

theorem eq_nil_of_mem_ofSegment? {ending n : List UInt8}
    (h : .name (n ++ ending) ∈ (Component.ofSegment? ending).toList) : n = [] :=
  List.append_left_eq_self.mp (Component.bytes_of_ofSegment? (Option.mem_toList.mp h))

theorem eq_nil_of_mem_start {ending n : List UInt8} {more : Bool}
    (h : .name (n ++ ending) ∈ start ending more) : n = [] := by
  unfold start at h
  split at h
  · split at h <;> simp at h
  · split at h
    · simp at h
    · exact eq_nil_of_mem_ofSegment? h

section

variable {names : List (List UInt8)} {ending first : List UInt8} {more : List (List UInt8)}

/-- The segments of joined names with an ending. -/
theorem splitOn_ending (hsplit : ending.splitOn slash = first :: more) {init : List (List UInt8)}
    {last : List UInt8} (h : ∀ n ∈ init ++ [last], slash ∉ n) :
    ([slash].intercalate (init ++ [last]) ++ ending).splitOn slash =
      init ++ (last ++ first) :: more := by
  have hending : ∀ n ∈ first :: more, slash ∉ n := fun n hn => (Text.of_mem_splitOn (hsplit ▸ hn)).1
  have hjoined : ending = [slash].intercalate (first :: more) := by
    rw [← hsplit, List.intercalate_splitOn]
  rw [hjoined, intercalate_append, List.splitOn_intercalate]
  · intro n hn
    rcases List.mem_append.mp hn with hn | hn
    · exact h n (List.mem_append_left _ hn)
    · rcases List.mem_cons.mp hn with rfl | hn
      · intro hmem
        rcases List.mem_append.mp hmem with hmem | hmem
        · exact h last (by simp) hmem
        · exact hending first List.mem_cons_self hmem
      · exact hending n (List.mem_cons_of_mem _ hn)
  · simp

theorem filterMap_ended {init : List (List UInt8)} {last : List UInt8}
    (h : ∀ n ∈ init ++ [last], IsName n) (hfirst : slash ∉ dot :: first) (alone : List Component) :
    (init ++ (last ++ dot :: first) :: more).filterMap Component.ofSegment? =
      ended alone (dot :: first) (init ++ [last]) ++ more.filterMap Component.ofSegment? := by
  have hnames : ∀ n ∈ init ++ [last ++ dot :: first], IsName n := by
    intro n hn
    rcases List.mem_append.mp hn with hn | hn
    · exact h n (List.mem_append_left _ hn)
    · rw [List.mem_singleton.mp hn]
      exact (h last (by simp)).append hfirst
  rw [List.append_cons, List.filterMap_append, filterMap_names hnames, ended_concat]

/-- The components of names below the root with an ending. -/
theorem components_root_ending (h : ∀ n ∈ names, IsName n)
    (hsplit : ending.splitOn slash = (dot :: first) :: more) :
    (Path.mk (slash :: [slash].intercalate names ++ ending)).components =
      .root :: (ended (Component.ofSegment? (dot :: first)).toList (dot :: first) names ++
        more.filterMap Component.ofSegment?) := by
  have hfirst : slash ∉ dot :: first := (Text.of_mem_splitOn (hsplit ▸ List.mem_cons_self)).1
  rw [List.cons_append, components_slash]
  rcases List.eq_nil_or_concat' names with rfl | ⟨init, last, rfl⟩
  · show Component.root :: (ending.splitOn slash).filterMap _ = _
    rw [hsplit, List.filterMap_cons]
    cases Component.ofSegment? (dot :: first) <;> rfl
  · rw [splitOn_ending hsplit fun n hn => (h n hn).2, filterMap_ended h hfirst]

/-- The components of relative names with an ending. -/
theorem components_ending (h : ∀ n ∈ names, IsName n)
    (hsplit : ending.splitOn slash = (dot :: first) :: more) :
    (Path.mk ([slash].intercalate names ++ ending)).components =
      ended (start (dot :: first) (!more.isEmpty)) (dot :: first) names ++
        more.filterMap Component.ofSegment? := by
  have hfirst : slash ∉ dot :: first := (Text.of_mem_splitOn (hsplit ▸ List.mem_cons_self)).1
  rcases List.eq_nil_or_concat' names with rfl | ⟨init, last, rfl⟩
  · exact parse_of_splitOn hsplit
  · rw [← filterMap_ended h hfirst]
    have hsegments := splitOn_ending hsplit fun n hn => (h n hn).2
    -- the first segment is a name, and that is read like everywhere else
    have hname : ∀ n rest, IsName n → init ++ (last ++ dot :: first) :: more = n :: rest →
        parse ([slash].intercalate (init ++ [last]) ++ ending) =
          (init ++ (last ++ dot :: first) :: more).filterMap Component.ofSegment? := by
      intro n rest hn heq
      have hstart : start n (!rest.isEmpty) = [.name n] := hn.inner.start _
      rw [parse_of_splitOn (hsegments.trans heq), heq, List.filterMap_cons_some hn.1, hstart]
      rfl
    cases init with
    | nil => exact hname _ _ ((h last (by simp)).append hfirst) rfl
    | cons n rest => exact hname _ _ (h n (by simp)) rfl

end

/-- **An ending keeps different normal forms apart**, also where it goes on behind a slash. -/
theorem normalize_eq_of_ending {p q : Path} {rest : List UInt8}
    (h : (Path.mk (p.normalize.bytes ++ dot :: rest)).components =
      (Path.mk (q.normalize.bytes ++ dot :: rest)).components) : p.normalize = q.normalize := by
  obtain ⟨first, more, hsplit⟩ := splitOn_dot rest
  obtain ⟨names, hnames, hp⟩ := p.bytes_normalize
  obtain ⟨names', hnames', hq⟩ := q.bytes_normalize
  have hne : ∀ {segments : List (List UInt8)}, (∀ n ∈ segments, IsName n) → [] ∉ segments :=
    fun hall hmem => (isName_iff.mp (hall [] hmem)).1 rfl
  have hroot : ∀ {segments : List (List UInt8)} {bytes : List UInt8}, (∀ n ∈ segments, IsName n) →
      (Path.mk ([slash].intercalate segments ++ dot :: rest)).components ≠
        (Path.mk (slash :: bytes)).components := by
    intro segments bytes hall heq
    obtain ⟨b, bytes', hbytes, hb⟩ := relative_ending hall rest
    have hnone := root_not_mem_components hbytes hb
    rw [heq, components_slash] at hnone
    exact hnone List.mem_cons_self
  have hbytes : p.normalize.bytes = q.normalize.bytes := by
    rcases hp with hp | hp
    · rcases hq with hq | hq
      · rw [hp, hq, components_ending hnames hsplit, components_ending hnames' hsplit] at h
        have hended := List.append_cancel_right h
        rw [hp, hq, ended_inj (fun n => eq_nil_of_mem_start) (hne hnames) (hne hnames') hended]
      · rw [hp, hq] at h
        exact absurd h (hroot hnames)
    · rcases hq with hq | hq
      · rw [hp, hq] at h
        exact absurd h.symm (hroot hnames')
      · rw [hp, hq, components_root_ending hnames hsplit, components_root_ending hnames' hsplit] at h
        have hended := List.append_cancel_right (List.tail_eq_of_cons_eq h)
        rw [hp, hq, ended_inj (fun n => eq_nil_of_mem_ofSegment?) (hne hnames) (hne hnames') hended]
  exact congrArg Path.mk hbytes

end Path

/-! ## Candidates -/

namespace Naming

/-- What a module may stand for in a directory depends on the normal form of the directory only. -/
theorem candidates_normalize (naming : Naming) (dir : Path) (module : String) :
    naming.candidates dir module = naming.candidates dir.normalize module := by
  unfold candidates
  rw [Path.normalize_join]

variable {naming : Naming} {p q : Path}

theorem components_plain_iff :
    (naming.plain p.normalize).components = (naming.plain q.normalize).components ↔
      p.normalize = q.normalize := by
  constructor
  · exact Path.normalize_eq_of_ending
  · intro h
    rw [h]

theorem components_spec_iff :
    (naming.spec p.normalize).components = (naming.spec q.normalize).components ↔
      p.normalize = q.normalize := by
  have hspec : ∀ base : Path, naming.spec base = ⟨base.bytes ++
      dot :: (Text.encode naming.specSuffix.toList ++ dot :: Text.encode naming.extension.toList)⟩ := by
    intro base
    show Path.mk ((base.bytes ++ dot :: _) ++ dot :: _) = _
    rw [List.append_assoc, List.cons_append]
  constructor
  · rw [hspec, hspec]
    exact Path.normalize_eq_of_ending
  · intro h
    rw [h]

end Naming

/-- **The laws of normal forms.**  The normal form of a path has no dots in it, it is absolute if and
only if the path is, it is its own normal form, and a path that is followed from it leads to the same
normal form as from the path itself.

So the candidates of a module depend on the normal form of the directory only.  And where files are told
apart by the components of their paths, as cycles are found and the cache is searched, two modules have
the same candidates if and only if the normal forms they lead to are the same. -/
theorem Path.normalize_laws (p m q : Path) (naming : Naming) (module other : String) :
    (.here ∉ p.normalize.components ∧ .up ∉ p.normalize.components) ∧
      p.normalize.isAbsolute = p.isAbsolute ∧
      p.normalize.normalize = p.normalize ∧
      (p.join m).normalize = (p.normalize.join m).normalize ∧
      naming.candidates p module = naming.candidates p.normalize module ∧
      List.Forall₂
        (fun candidate candidate' => candidate.components = candidate'.components ↔
          (p.join (.ofString module)).normalize = (q.join (.ofString other)).normalize)
        (naming.candidates p module) (naming.candidates q other) := by
  refine ⟨p.dots_not_mem_normalize, p.isAbsolute_normalize, p.normalize_normalize, p.normalize_join m,
    naming.candidates_normalize p module, ?_⟩
  exact .cons Naming.components_plain_iff (.cons Naming.components_spec_iff .nil)

/-- A `..` with nothing to take back is dropped, below the root and in a relative path. -/
example :
    (Path.ofString "/../a//./b/../c/").normalize = .ofString "/a/c" ∧
      (Path.ofString "a/../../b/.").normalize = .ofString "b" := by
  decide +kernel

end ScriptIndex
