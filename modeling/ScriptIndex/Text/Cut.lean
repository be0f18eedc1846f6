/-!
# Trimming and cutting a text

Blank lines, trimming and the words of a type are all decided by one character class, the Unicode
property White_Space; headers, comment markers and parameter types are found by cutting a text at a
mark:

* `Text.isBlank` — white space, by its ranges;
* `Text.trim` — a text without the blanks at its two ends;
* `Text.dropEndWhile` — what `List.dropWhile` does, at the end of a list; `trim` rests on it;
* `Text.cut?` — the two sides of the first occurrence of a mark;
* `Text.cutLast?` — the two sides of its last occurrence;
* `Text.eq_of_cut?`, `Text.eq_of_cutLast?` — in both cases nothing is lost: the text is the mark
  between the two sides;
* `Text.of_mem_splitOn` — a piece between two marks holds none.
-/

namespace ScriptIndex.Text

/-! ### Blanks -/

/-- The ranges of code points, both ends included, that have the property White_Space. -/
def blankRanges : List (Nat × Nat) :=
  [(0x09, 0x0D), (0x20, 0x20), (0x85, 0x85), (0xA0, 0xA0), (0x1680, 0x1680), (0x2000, 0x200A),
    (0x2028, 0x2029), (0x202F, 0x202F), (0x205F, 0x205F), (0x3000, 0x3000)]

/-- A blank is a character with the property White_Space. -/
def isBlank (c : Char) : Bool :=
  blankRanges.any fun range => range.1 ≤ c.toNat && c.toNat ≤ range.2

/-- What is left of a list once the longest run of `p` at its end is dropped. -/
def dropEndWhile {α : Type} (p : α → Bool) (s : List α) : List α :=
  (s.reverse.dropWhile p).reverse

/-- A text without the characters of `p` at its two ends. -/
def stripEnds {α : Type} (p : α → Bool) (s : List α) : List α :=
  dropEndWhile p (s.dropWhile p)

def trim (s : List Char) : List Char :=
  stripEnds isBlank s

/-- A text is blank when nothing is left of it after trimming. -/
def isBlankText (s : List Char) : Bool :=
  s.all isBlank

/-! ### Marks -/

/-- What stands before and after the first occurrence of `mark`. -/
def cut? (mark : List Char) : List Char → Option (List Char × List Char)
  | [] => if mark.isEmpty then some ([], []) else none
  | c :: rest =>
    if mark.isPrefixOf (c :: rest) then
      some ([], (c :: rest).drop mark.length)
    else
      (cut? mark rest).map fun (before, after) => (c :: before, after)

/-- What stands before and after the last occurrence of `mark`. -/
def cutLast? (mark : List Char) : List Char → Option (List Char × List Char)
  | [] => if mark.isEmpty then some ([], []) else none
  | c :: rest =>
    match cutLast? mark rest with
    | some (before, after) => some (c :: before, after)
    | none =>
      if mark.isPrefixOf (c :: rest) then some ([], (c :: rest).drop mark.length) else none

/-- The rest of a text that starts with `mark`. -/
def afterPrefix? (mark s : List Char) : Option (List Char) :=
  if mark.isPrefixOf s then some (s.drop mark.length) else none

/-! ### Nothing is lost -/

theorem eq_append_drop {mark s : List Char} (h : mark.isPrefixOf s = true) :
    s = mark ++ s.drop mark.length :=
  (List.prefix_iff_eq_append.mp (List.isPrefixOf_iff_prefix.mp h)).symm

/-- A text that is cut is the mark between the two sides. -/
theorem eq_of_cut? {mark s before after : List Char} (h : cut? mark s = some (before, after)) :
    s = before ++ mark ++ after := by
  induction s generalizing before with
  | nil =>
    simp only [cut?] at h
    split at h
    · next empty =>
      obtain ⟨rfl, rfl⟩ := by simpa using h
      simpa using empty
    · cases h
  | cons c rest ih =>
    simp only [cut?] at h
    split at h
    · next found =>
      simp only [Option.some.injEq, Prod.mk.injEq] at h
      obtain ⟨rfl, rfl⟩ := h
      exact eq_append_drop found
    · obtain ⟨⟨inner, tail⟩, cut, same⟩ := Option.map_eq_some_iff.mp h
      simp only [Prod.mk.injEq] at same
      obtain ⟨rfl, rfl⟩ := same
      rw [ih cut]
      simp

/-- A text that is cut at the last mark is the mark between the two sides. -/
theorem eq_of_cutLast? {mark s before after : List Char}
    (h : cutLast? mark s = some (before, after)) : s = before ++ mark ++ after := by
  induction s generalizing before with
  | nil =>
    simp only [cutLast?] at h
    split at h
    · next empty =>
      obtain ⟨rfl, rfl⟩ := by simpa using h
      simpa using empty
    · cases h
  | cons c rest ih =>
    simp only [cutLast?] at h
    split at h
    · next inner tail cut =>
      simp only [Option.some.injEq, Prod.mk.injEq] at h
      obtain ⟨rfl, rfl⟩ := h
      rw [ih cut]
      simp
    · split at h
      · next found =>
        simp only [Option.some.injEq, Prod.mk.injEq] at h
        obtain ⟨rfl, rfl⟩ := h
        exact eq_append_drop found
      · cases h

/-- A piece of a list that is split at a mark is a part of the list without the mark. -/
theorem of_mem_splitOn {α : Type} [BEq α] [LawfulBEq α] {mark : α} {s piece : List α}
    (h : piece ∈ s.splitOn mark) : mark ∉ piece ∧ piece ⊆ s := by
  by_cases hmark : mark ∈ s
  · obtain ⟨front, rest, rfl, hfront⟩ := List.eq_append_cons_of_mem hmark
    rw [List.splitOn_append_cons_self_of_not_mem hfront] at h
    rcases List.mem_cons.mp h with rfl | h
    · exact ⟨hfront, List.subset_append_left _ _⟩
    · have hrest := of_mem_splitOn h
      refine ⟨hrest.1, fun c hc => ?_⟩
      exact List.mem_append_right _ (List.mem_cons_of_mem _ (hrest.2 hc))
  · rw [List.splitOn_eq_singleton hmark, List.mem_singleton] at h
    rw [h]
    exact ⟨hmark, List.Subset.refl s⟩
termination_by s.length

end ScriptIndex.Text
