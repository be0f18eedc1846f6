import ScriptIndex.Header

/-!
# Which spans hold a header

The search for a header passes over keywords inside words and keywords before a blank name, and it
gives up at the first keyword without parentheses.  Neither loses a header: the parentheses of a later
one would be there for the earlier keyword as well.  So what is found can be said without the search.

* `Header.Split` — a span cut into the parts of a header, with a keyword of its own;
* `Header.Split.cons_iff` — the first character of a span either starts the keyword or stands before;
* `Header.split_of_findAfter?` — what is found are the parts with the earliest keyword;
* `Header.not_split_of_findAfter?` — where nothing is found there are no parts;
* `Header.find?_grammar` — both, for every span of code.
-/

namespace ScriptIndex

/-! ## Cutting at a character -/

namespace Text

variable {c : Char} {s before after : List Char}

/-- A text is cut at the first occurrence of a character. -/
theorem cut?_char (h : c ∉ before) : cut? [c] (before ++ c :: after) = some (before, after) := by
  induction before with
  | nil => simp [cut?]
  | cons d rest ih =>
    rw [List.mem_cons, not_or] at h
    have hother : ¬ [c].isPrefixOf (d :: (rest ++ c :: after)) = true := by simp [h.1]
    rw [List.cons_append, cut?, if_neg hother, ih h.2]
    rfl

/-- A text is not cut only if the character does not occur. -/
theorem not_mem_of_cut? (h : cut? [c] s = none) : c ∉ s := by
  intro hmem
  obtain ⟨front, rest, rfl, hfront⟩ := List.eq_append_cons_of_mem hmem
  rw [cut?_char hfront] at h
  cases h

theorem cut?_char_eq_some (h : cut? [c] s = some (before, after)) :
    s = before ++ c :: after ∧ c ∉ before := by
  have hmem : c ∈ s := by
    rw [eq_of_cut? h]
    simp
  obtain ⟨front, rest, rfl, hfront⟩ := List.eq_append_cons_of_mem hmem
  rw [cut?_char hfront, Option.some.injEq, Prod.mk.injEq] at h
  obtain ⟨rfl, rfl⟩ := h
  exact ⟨rfl, hfront⟩

/-- What stands behind some occurrence of a character stands behind the first one too. -/
theorem suffix_of_first {front rest : List Char} (hbefore : c ∉ before)
    (h : before ++ c :: after = front ++ c :: rest) : rest <:+ after := by
  rcases List.append_eq_append_iff.mp h with ⟨middle, rfl, hright⟩ | ⟨middle, rfl, hright⟩
  · cases middle with
    | nil =>
      rw [List.nil_append, List.cons.injEq] at hright
      exact hright.2 ▸ List.suffix_refl _
    | cons d middle =>
      rw [List.cons_append, List.cons.injEq] at hright
      exact ⟨middle ++ [c], by rw [hright.2]; simp⟩
  · cases middle with
    | nil =>
      rw [List.nil_append, List.cons.injEq] at hright
      exact hright.2 ▸ List.suffix_refl _
    | cons d middle =>
      rw [List.cons_append, List.cons.injEq] at hright
      simp [hright.1] at hbefore

end Text

/-! ## The parts of a header -/

namespace Header

/-- A span that is preceded by `previous`, cut into what stands before a keyword, a name, arguments
between parentheses, and the rest.  The keyword does not continue a word, the name ends at the first
opening parenthesis and is not blank, and the arguments end at the first closing one. -/
structure Split (previous : Option Char) (code before name arguments after : List Char) : Prop where
  parts : code = before ++ keyword ++ name ++ ['('] ++ arguments ++ [')'] ++ after
  apart : ∀ c ∈ before.getLast?.or previous, Identifier.isChar c = false
  unopened : '(' ∉ name
  visible : ∃ c ∈ name, Text.isBlank c = false
  unclosed : ')' ∉ arguments

variable {previous : Option Char} {code before name arguments after : List Char} {c : Char}
  {rest : List Char}

/-- Before the first character there is nothing, or it is the first thing that stands before. -/
theorem Split.cons_iff :
    Split previous (c :: rest) before name arguments after ↔
      (before = [] ∧ Split previous (c :: rest) [] name arguments after) ∨
        ∃ inner, before = c :: inner ∧ Split (some c) rest inner name arguments after := by
  have hlast : ∀ inner : List Char, (c :: inner).getLast?.or previous = inner.getLast?.or (some c) := by
    intro inner
    cases hinner : inner.getLast? with
    | none => simp [List.getLast?_eq_none_iff.mp hinner]
    | some d => simp [List.getLast?_cons, hinner]
  constructor
  · intro h
    cases before with
    | nil => exact Or.inl ⟨rfl, h⟩
    | cons d inner =>
      have hparts := h.parts
      simp only [List.cons_append, List.cons.injEq] at hparts
      obtain ⟨rfl, hrest⟩ := hparts
      have hapart := h.apart
      rw [hlast] at hapart
      exact Or.inr ⟨inner, rfl, hrest, hapart, h.unopened, h.visible, h.unclosed⟩
  · rintro (⟨rfl, h⟩ | ⟨inner, rfl, h⟩)
    · exact h
    · refine ⟨?_, ?_, h.unopened, h.visible, h.unclosed⟩
      · rw [h.parts]
        simp only [List.cons_append]
      · rw [hlast]
        exact h.apart

/-- The first opening parenthesis behind the first four characters is that of the parts or an earlier
one. -/
theorem Split.behind (h : Split previous code before name arguments after) :
    ∃ front, code.drop keyword.length = front ++ '(' :: (arguments ++ ')' :: after) := by
  refine ⟨(before ++ keyword).drop keyword.length ++ name, ?_⟩
  have hcode : code = (before ++ keyword) ++ (name ++ '(' :: (arguments ++ ')' :: after)) := by
    rw [h.parts]
    simp
  rw [hcode, List.drop_append_of_le_length (by simp), List.append_assoc]

/-- A keyword with nothing before it has the name up to the first opening parenthesis. -/
theorem Split.cut_name (h : Split previous code [] name arguments after) :
    Text.cut? ['('] (code.drop keyword.length) = some (name, arguments ++ ')' :: after) := by
  have hcode : code.drop keyword.length = name ++ '(' :: (arguments ++ ')' :: after) := by
    rw [h.parts]
    simp
  rw [hcode]
  exact Text.cut?_char h.unopened

/-- A keyword with nothing before it stands where the search looks for one. -/
theorem Split.starts (h : Split previous code [] name arguments after) :
    (keyword.isPrefixOf code && !previous.any Identifier.isChar) = true := by
  have hkeyword : keyword.isPrefixOf code = true := by
    rw [List.isPrefixOf_iff_prefix, h.parts]
    simp
  have hapart := h.apart
  cases previous with
  | none => simp [hkeyword]
  | some c => simp [hkeyword, hapart c (by simp)]

/-- Where a keyword stands and both cuts behind it can be made, the pieces are the parts. -/
theorem Split.of_cuts {tail : List Char}
    (hstarts : (keyword.isPrefixOf code && !previous.any Identifier.isChar) = true)
    (hopen : Text.cut? ['('] (code.drop keyword.length) = some (name, tail))
    (hblank : Text.isBlankText name = false) (hclose : Text.cut? [')'] tail = some (arguments, after)) :
    Split previous code [] name arguments after := by
  rw [Bool.and_eq_true] at hstarts
  obtain ⟨htail, hunopened⟩ := Text.cut?_char_eq_some hopen
  obtain ⟨rfl, hunclosed⟩ := Text.cut?_char_eq_some hclose
  refine ⟨?_, ?_, hunopened, ?_, hunclosed⟩
  · rw [Text.eq_append_drop hstarts.1, htail]
    simp
  · cases previous with
    | none => simp
    | some d => simpa using hstarts.2
  · simpa [Text.isBlankText] using hblank

/-- The parts are given by what stands before them: the name and the arguments end at the first
parenthesis. -/
theorem Split.unique {before' name' arguments' after' : List Char}
    (h : Split previous code before name arguments after)
    (h' : Split previous code before' name' arguments' after')
    (hlength : before.length = before'.length) : name = name' ∧ arguments = arguments' := by
  have hparts := h.parts.symm.trans h'.parts
  simp only [List.append_assoc] at hparts
  obtain ⟨-, hparts⟩ := List.append_inj hparts hlength
  have hopen := congrArg (Text.cut? ['(']) (List.append_cancel_left hparts)
  simp only [List.cons_append, List.nil_append] at hopen
  rw [Text.cut?_char h.unopened, Text.cut?_char h'.unopened, Option.some.injEq,
    Prod.mk.injEq] at hopen
  obtain ⟨hname, htail⟩ := hopen
  have hclose := congrArg (Text.cut? [')']) htail
  rw [Text.cut?_char h.unclosed, Text.cut?_char h'.unclosed, Option.some.injEq,
    Prod.mk.injEq] at hclose
  exact ⟨hname, hclose.1⟩

/-! ## One step of the search -/

/-- **What the search does at a character.**  It passes on where no header starts, it gives up where
neither this character nor a later one starts one, or it finds the header that starts here. -/
theorem findAfter?_cons_cases (previous : Option Char) (c : Char) (rest : List Char) :
    (findAfter? previous (c :: rest) = findAfter? (some c) rest ∧
        ∀ name arguments after, ¬ Split previous (c :: rest) [] name arguments after) ∨
      (findAfter? previous (c :: rest) = none ∧
        ∀ before name arguments after, ¬ Split previous (c :: rest) before name arguments after) ∨
      ∃ name arguments after, Split previous (c :: rest) [] name arguments after ∧
        findAfter? previous (c :: rest) = some ⟨Text.trim name, arguments⟩ := by
  by_cases hstarts : (keyword.isPrefixOf (c :: rest) && !previous.any Identifier.isChar) = true
  · cases hopen : Text.cut? ['('] ((c :: rest).drop keyword.length) with
    | none =>
      refine Or.inr (Or.inl ⟨by rw [findAfter?, if_pos hstarts, hopen], ?_⟩)
      intro before name arguments after h
      obtain ⟨front, hfront⟩ := h.behind
      exact Text.not_mem_of_cut? hopen (by simp [hfront])
    | some found =>
      obtain ⟨name, tail⟩ := found
      obtain ⟨htail, hunopened⟩ := Text.cut?_char_eq_some hopen
      cases hblank : Text.isBlankText name with
      | true =>
        refine Or.inl ⟨by rw [findAfter?, if_pos hstarts, hopen]; simp [hblank], ?_⟩
        intro name' arguments after h
        have hname := h.cut_name
        rw [hopen, Option.some.injEq, Prod.mk.injEq] at hname
        obtain ⟨d, hd, hvisible⟩ := h.visible
        rw [← hname.1] at hd
        rw [List.all_eq_true.mp hblank d hd] at hvisible
        cases hvisible
      | false =>
        cases hclose : Text.cut? [')'] tail with
        | none =>
          refine Or.inr (Or.inl ⟨by rw [findAfter?, if_pos hstarts, hopen]; simp [hblank, hclose], ?_⟩)
          -- a later header would have its closing parenthesis behind this opening one
          intro before name' arguments after h
          obtain ⟨front, hfront⟩ := h.behind
          have hsuffix := Text.suffix_of_first hunopened (htail.symm.trans hfront)
          exact Text.not_mem_of_cut? hclose (hsuffix.subset (by simp))
        | some found =>
          obtain ⟨arguments, after⟩ := found
          refine Or.inr (Or.inr ⟨name, arguments, after, .of_cuts hstarts hopen hblank hclose, ?_⟩)
          rw [findAfter?, if_pos hstarts, hopen]
          simp [hblank, hclose]
  · refine Or.inl ⟨by rw [findAfter?, if_neg hstarts], ?_⟩
    exact fun name arguments after h => hstarts h.starts

/-! ## The whole search -/

theorem not_split_nil : ¬ Split previous [] before name arguments after := by
  intro h
  have hlength := congrArg List.length h.parts
  simp [keyword] at hlength

/-- **Nothing is missed.** -/
theorem not_split_of_findAfter? (h : findAfter? previous code = none) :
    ¬ Split previous code before name arguments after := by
  induction code generalizing previous before with
  | nil => exact not_split_nil
  | cons c rest ih =>
    rcases findAfter?_cons_cases previous c rest with ⟨hpass, hhere⟩ | ⟨-, hnone⟩ | ⟨_, _, _, -, hfound⟩
    · intro hsplit
      rcases Split.cons_iff.mp hsplit with ⟨-, hsplit⟩ | ⟨inner, -, hsplit⟩
      · exact hhere _ _ _ hsplit
      · exact ih (hpass ▸ h) hsplit
    · exact hnone _ _ _ _
    · rw [hfound] at h
      cases h

/-- **What is found are parts of the span**, and those with the least before them. -/
theorem split_of_findAfter? {header : Header} (h : findAfter? previous code = some header) :
    ∃ before name arguments after, Split previous code before name arguments after ∧
      (∀ before' name' arguments' after', Split previous code before' name' arguments' after' →
        before.length ≤ before'.length) ∧ header = ⟨Text.trim name, arguments⟩ := by
  induction code generalizing previous with
  | nil => cases h
  | cons c rest ih =>
    rcases findAfter?_cons_cases previous c rest with
      ⟨hpass, hhere⟩ | ⟨hnone, -⟩ | ⟨name, arguments, after, hsplit, hfound⟩
    · obtain ⟨inner, name, arguments, after, hsplit, hleast, rfl⟩ := ih (hpass ▸ h)
      refine ⟨c :: inner, name, arguments, after, Split.cons_iff.mpr (Or.inr ⟨inner, rfl, hsplit⟩), ?_, rfl⟩
      intro before' name' arguments' after' hother
      rcases Split.cons_iff.mp hother with ⟨-, hfirst⟩ | ⟨inner', rfl, hinner⟩
      · exact absurd hfirst (hhere _ _ _)
      · exact Nat.succ_le_succ (hleast _ _ _ _ hinner)
    · rw [hnone] at h
      cases h
    · rw [hfound, Option.some.injEq] at h
      exact ⟨[], name, arguments, after, hsplit, fun _ _ _ _ _ => Nat.zero_le _, h.symm⟩

/-- **The grammar of headers.**  For every span of code, a header is found if and only if the span can
be cut into the parts of one, and the header found is that of the cut with the least before it: the
trimmed name and the arguments as they stand. -/
theorem find?_grammar (code : List Char) :
    ((find? code).isSome = true ↔
        ∃ before name arguments after, Split none code before name arguments after) ∧
      ∀ header, find? code = some header ↔
        ∃ before name arguments after, Split none code before name arguments after ∧
          (∀ before' name' arguments' after', Split none code before' name' arguments' after' →
            before.length ≤ before'.length) ∧ header = ⟨Text.trim name, arguments⟩ := by
  have hexists : ∀ before name arguments after, Split none code before name arguments after →
      ∃ header, find? code = some header := by
    intro before name arguments after hsplit
    refine Option.ne_none_iff_exists'.mp fun hnone => ?_
    exact not_split_of_findAfter? hnone hsplit
  refine ⟨⟨fun hsome => ?_, ?_⟩, fun header => ⟨split_of_findAfter?, ?_⟩⟩
  · obtain ⟨header, hfound⟩ := Option.isSome_iff_exists.mp hsome
    obtain ⟨before, name, arguments, after, hsplit, -, -⟩ := split_of_findAfter? hfound
    exact ⟨before, name, arguments, after, hsplit⟩
  · rintro ⟨before, name, arguments, after, hsplit⟩
    exact Option.isSome_iff_exists.mpr (hexists _ _ _ _ hsplit)
  · rintro ⟨before, name, arguments, after, hsplit, hleast, rfl⟩
    obtain ⟨header, hfound⟩ := hexists _ _ _ _ hsplit
    obtain ⟨before', name', arguments', after', hsplit', hleast', rfl⟩ := split_of_findAfter? hfound
    have hlength := Nat.le_antisymm (hleast _ _ _ _ hsplit') (hleast' _ _ _ _ hsplit)
    obtain ⟨rfl, rfl⟩ := hsplit.unique hsplit' hlength
    exact hfound

/-- A keyword inside a word and one with a blank name are passed over. -/
example : find? "undef x(1) def (2) def f (a: int) : int".toList =
    some ⟨"f".toList, "a: int".toList⟩ := by
  decide +kernel

end Header

end ScriptIndex
