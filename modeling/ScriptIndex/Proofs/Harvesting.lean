import Mathlib.Data.List.DropRight
import ScriptIndex.Proofs.Words

/-!
# Harvested words and the word at a cursor

The words of a text are found in two ways: all of them by cutting the lines of the text at separators, and
one of them by looking left and right from a cursor.  Both delimit the same runs of identifier characters.

* `Identifier.RunAt`, `Identifier.Covers` — a run at a place, and one that covers an offset;
* `Identifier.exists_cut`, `Identifier.covers_iff` — the word at a cursor is the run that covers it;
* `Identifier.isRun_iff_wordAt` — the runs of a line are the words at its offsets;
* `Identifier.FirstAt`, `Identifier.harvest_pairwise` — words are harvested in the order of their first
  places;
* `Identifier.harvest_agrees` — the two ways together.
-/

namespace ScriptIndex.Identifier

/-- A run of identifier characters that cannot be made longer starts at a place of a text. -/
def RunAt (text word : List Char) (start : Nat) : Prop :=
  ∃ before after, Cut text before word after ∧ before.length = start

/-- Such a run covers the character at an offset. -/
def Covers (text word : List Char) (start offset : Nat) : Prop :=
  RunAt text word start ∧ start ≤ offset ∧ offset < start + word.length

/-! ## The word at a cursor -/

section

variable {text before word after : List Char} {offset : Nat}

/-- Where a run covers an offset, the word there is the run, and what of it stands before the offset is
the word that ends there. -/
theorem Cut.wordAt (h : Cut text before word after) (hstart : before.length ≤ offset)
    (hend : offset < before.length + word.length) :
    wordAt text offset = word ∧ before.length + (wordBefore (text.take offset)).length = offset := by
  obtain ⟨k, rfl⟩ := Nat.exists_eq_add_of_le hstart
  have hk : k < word.length := by omega
  obtain ⟨inner, c, rest, hword, hinner⟩ : ∃ inner c rest, word = inner ++ c :: rest ∧
      inner.length = k := by
    refine ⟨word.take k, word[k], word.drop (k + 1), ?_, ?_⟩
    · rw [← List.drop_eq_getElem_cons hk, List.take_append_drop]
    · rw [List.length_take]
      omega
  have hchars := h.chars
  rw [hword] at hchars
  have htext : text = (before ++ inner) ++ (c :: rest ++ after) := by
    rw [h.parts, hword]
    simp
  have hlength : (before ++ inner).length = before.length + k := by
    rw [List.length_append, hinner]
  have hbefore : wordBefore (text.take (before.length + k)) = inner := by
    rw [htext, List.take_left' hlength]
    exact wordBefore_append (fun d hd => hchars d (List.mem_append_left _ hd)) h.left
  have hdrop : text.drop (before.length + k) = c :: (rest ++ after) := by
    rw [htext, List.drop_left' hlength]
    rfl
  have hnone : after.takeWhile isChar = [] := by
    cases hafter : after with
    | nil => rfl
    | cons d more =>
      have hd : isChar d = false := h.right d (by simp [hafter])
      simp [hd]
  have htake : (c :: (rest ++ after)).takeWhile isChar = c :: rest := by
    rw [← List.cons_append,
      List.takeWhile_append_of_pos fun d hd => hchars d (List.mem_append_right _ hd), hnone,
      List.append_nil]
  constructor
  · unfold Identifier.wordAt
    rw [hdrop]
    dsimp only
    rw [if_pos (hchars c (by simp)), hbefore, htake, ← hword]
  · rw [hbefore, hinner]

/-- Every identifier character is covered by the word at it. -/
theorem exists_cut {c : Char} (hget : text[offset]? = some c) (hc : isChar c = true) :
    ∃ before after, Cut text before (wordAt text offset) after ∧ before.length ≤ offset ∧
      offset < before.length + (wordAt text offset).length := by
  obtain ⟨hoffset, rfl⟩ := List.getElem?_eq_some_iff.mp hget
  have hdrop : text.drop offset = text[offset] :: text.drop (offset + 1) :=
    List.drop_eq_getElem_cons hoffset
  have hword : wordAt text offset = (text.take offset).rtakeWhile isChar ++
      text[offset] :: (text.drop (offset + 1)).takeWhile isChar := by
    unfold wordAt
    rw [hdrop]
    dsimp only
    rw [if_pos hc, List.takeWhile_cons_of_pos hc]
    rfl
  have hfront : (text.take offset).rdropWhile isChar ++ (text.take offset).rtakeWhile isChar =
      text.take offset := List.rdropWhile_append_rtakeWhile
  have hlength := congrArg List.length hfront
  rw [List.length_append, List.length_take, Nat.min_eq_left hoffset.le] at hlength
  rw [hword]
  refine ⟨(text.take offset).rdropWhile isChar, (text.drop (offset + 1)).dropWhile isChar,
    ⟨?_, by simp, ?_, ?_, ?_⟩, by omega, ?_⟩
  · rw [List.append_assoc, List.cons_append, List.takeWhile_append_dropWhile, ← hdrop,
      ← List.append_assoc, hfront, List.take_append_drop]
  · intro d hd
    rcases List.mem_append.mp hd with hd | hd
    · exact List.mem_rtakeWhile_imp hd
    · rcases List.mem_cons.mp hd with rfl | hd
      · exact hc
      · exact List.mem_takeWhile_imp hd
  · intro d hd
    obtain ⟨hne, hlast⟩ := List.mem_getLast?_eq_getLast hd
    rw [hlast]
    simpa using List.rdropWhile_last_not isChar (text.take offset) hne
  · intro d hd
    have hnot := List.head?_dropWhile_not isChar (text.drop (offset + 1))
    rw [Option.mem_def.mp hd] at hnot
    simpa using hnot
  · rw [List.length_append, List.length_cons]
    omega

/-- There is a word at a cursor if and only if an identifier character is. -/
theorem wordAt_ne_nil_iff :
    wordAt text offset ≠ [] ↔ ∃ c, text[offset]? = some c ∧ isChar c = true := by
  constructor
  · intro hne
    unfold wordAt at hne
    cases hdrop : text.drop offset with
    | nil => simp [hdrop] at hne
    | cons c rest =>
      refine ⟨c, ?_, ?_⟩
      · rw [← List.head?_drop, hdrop]
        rfl
      · by_contra hc
        simp [hdrop, hc] at hne
  · rintro ⟨c, hget, hc⟩
    obtain ⟨before, after, hcut, -⟩ := exists_cut hget hc
    exact hcut.nonempty

/-- The word at an offset that a run covers is the run. -/
theorem Covers.wordAt_eq {start : Nat} (h : Covers text word start offset) :
    wordAt text offset = word ∧ start + (wordBefore (text.take offset)).length = offset := by
  obtain ⟨⟨before, after, hcut, rfl⟩, hstart, hend⟩ := h
  exact hcut.wordAt hstart hend

/-- **The word at a cursor is the run that covers it**, and there is only one. -/
theorem covers_iff (h : wordAt text offset ≠ []) :
    ∃ start, ∀ word start', Covers text word start' offset ↔
      word = wordAt text offset ∧ start' = start := by
  obtain ⟨c, hget, hc⟩ := wordAt_ne_nil_iff.mp h
  obtain ⟨before, after, hcut, hstart, hend⟩ := exists_cut hget hc
  have hcovers : Covers text (wordAt text offset) before.length offset :=
    ⟨⟨before, after, hcut, rfl⟩, hstart, hend⟩
  refine ⟨before.length, fun word start' => ⟨fun hother => ?_, ?_⟩⟩
  · have hplace := hcovers.wordAt_eq.2
    have hplace' := hother.wordAt_eq.2
    exact ⟨hother.wordAt_eq.1.symm, by omega⟩
  · rintro ⟨rfl, rfl⟩
    exact hcovers

/-- The runs of a line are the words at its offsets. -/
theorem isRun_iff_wordAt : IsRun word text ↔ word ≠ [] ∧ ∃ offset, wordAt text offset = word := by
  rw [isRun_iff_cut]
  constructor
  · rintro ⟨before, after, hcut⟩
    have hlength := List.length_pos_iff.mpr hcut.nonempty
    exact ⟨hcut.nonempty, before.length, (hcut.wordAt (Nat.le_refl _) (by omega)).1⟩
  · rintro ⟨hne, offset, rfl⟩
    obtain ⟨start, hcovers⟩ := covers_iff hne
    obtain ⟨⟨before, after, hcut, -⟩, -⟩ := (hcovers _ _).mpr ⟨rfl, rfl⟩
    exact ⟨before, after, hcut⟩

end

/-! ## The order of words -/

/-- The first place of a run in a text. -/
def FirstAt (text word : List Char) (start : Nat) : Prop :=
  RunAt text word start ∧ ∀ other, RunAt text word other → start ≤ other

section

variable {text before rest x word y : List Char}

/-- A run that starts before a separator ends before it. -/
theorem Cut.restrict (h : Cut (before ++ rest) x word y)
    (hlast : ∀ c ∈ before.getLast?, isChar c = false) (hlt : x.length < before.length) :
    ∃ z, Cut before x word z := by
  rcases List.append_eq_append_iff.mp h.parts with ⟨between, hx, -⟩ | ⟨between, hbefore, hword⟩
  · rw [hx, List.length_append] at hlt
    omega
  · rcases List.append_eq_append_iff.mp hword with ⟨z, hz, hy⟩ | ⟨inner, hinner, -⟩
    · refine ⟨z, by rw [hbefore, hz], h.nonempty, h.chars, h.left, ?_⟩
      intro c hc
      exact h.right c (by rw [hy, List.head?_append, Option.mem_def.mp hc]; rfl)
    · -- the separator would be one of the characters of the word
      have hne : between ≠ [] := by
        rintro rfl
        simp [hbefore] at hlt
      obtain ⟨front, c, rfl⟩ := (List.eq_nil_or_concat' between).resolve_left hne
      have hchar : isChar c = true := h.chars c (by simp [hinner])
      have hnot : isChar c = false := hlast c (by simp [hbefore, ← List.append_assoc])
      rw [hchar] at hnot
      cases hnot

/-- A run before a separator stays one whatever follows. -/
theorem Cut.extend (h : Cut before x word y) (hlast : ∀ c ∈ before.getLast?, isChar c = false)
    (rest : List Char) : Cut (before ++ rest) x word (y ++ rest) := by
  have hy : y ≠ [] := by
    rintro rfl
    obtain ⟨front, c, rfl⟩ := (List.eq_nil_or_concat' word).resolve_left h.nonempty
    have hchar : isChar c = true := h.chars c (by simp)
    have hnot : isChar c = false := hlast c (by simp [h.parts, ← List.append_assoc])
    rw [hchar] at hnot
    cases hnot
  refine ⟨by rw [h.parts]; simp, h.nonempty, h.chars, h.left, ?_⟩
  intro c hc
  rw [List.head?_append_of_ne_nil _ hy] at hc
  exact h.right c hc

/-- The first of several equal words is found at their first place. -/
theorem firstAt_of_words {front back : List (List Char)} (h : words text = front ++ word :: back)
    (hfresh : word ∉ front) :
    ∃ before after, Cut text before word after ∧ words before = front ∧
      FirstAt text word before.length := by
  obtain ⟨before, after, hcut, hbefore⟩ := cut_of_words h
  refine ⟨before, after, hcut, hbefore, ⟨before, after, hcut, rfl⟩, ?_⟩
  rintro other ⟨x, y, hother, rfl⟩
  by_contra hlt
  -- an earlier one would be among the words before it
  rw [hcut.parts] at hother
  obtain ⟨z, hearlier⟩ := hother.restrict hcut.left (by omega)
  rw [← hbefore] at hfresh
  exact hfresh (mem_words_iff.mpr (isRun_iff_cut.mpr ⟨x, z, hearlier⟩))

/-- A word that is listed before another one appears has its first place before that one. -/
theorem firstAt_lt {u v : List Char} {front back : List (List Char)}
    (h : words text = front ++ v :: back) (hfresh : v ∉ front) (hu : u ∈ front) :
    ∃ i j, FirstAt text u i ∧ FirstAt text v j ∧ i < j := by
  obtain ⟨before, after, hcut, hbefore, hfirst⟩ := firstAt_of_words h hfresh
  -- some place of the one word lies before the first place of the other
  obtain ⟨x, y, hearlier⟩ := isRun_iff_cut.mp (mem_words_iff.mp (hbefore ▸ hu))
  have hplace : RunAt text u x.length := by
    rw [hcut.parts]
    exact ⟨x, _, hearlier.extend hcut.left _, rfl⟩
  have hlt : x.length < before.length := by
    have hlength := congrArg List.length hearlier.parts
    have hpos := List.length_pos_iff.mpr hearlier.nonempty
    rw [List.length_append, List.length_append] at hlength
    omega
  have hmem : u ∈ words text := by
    rw [h]
    exact List.mem_append_left _ hu
  obtain ⟨front', back', hwords, hfresh'⟩ := List.eq_append_cons_of_mem hmem
  obtain ⟨before', -, -, -, hfirst'⟩ := firstAt_of_words hwords hfresh'
  exact ⟨_, _, hfirst', hfirst, Nat.lt_of_le_of_lt (hfirst'.2 _ hplace) hlt⟩

end

theorem split_of_filter {α : Type} {p : α → Bool} {l front back : List α} {a : α}
    (h : l.filter p = front ++ a :: back) :
    ∃ front' back', l = front' ++ a :: back' ∧ front'.filter p = front ∧ p a = true := by
  obtain ⟨left, right, rfl, hleft, hright⟩ := List.filter_eq_append_iff.mp h
  obtain ⟨skipped, back', rfl, hskipped, ha, -⟩ := List.filter_eq_cons_iff.mp hright
  refine ⟨left ++ skipped, back', by simp, ?_, ha⟩
  rw [List.filter_append, hleft, List.filter_eq_nil_iff.mpr hskipped, List.append_nil]

/-- **Words are harvested in the order of their first places.** -/
theorem harvest_pairwise (text : List Char) (known : List String) :
    (harvest text known).Pairwise fun u v =>
      ∃ i j, FirstAt text u.toList i ∧ FirstAt text v.toList j ∧ i < j := by
  apply pairwise_eraseDups
  intro front v back hfound hfresh u hu
  rw [flatMap_words_lines] at hfound
  obtain ⟨front', back', hall, rfl, hv⟩ := split_of_filter hfound
  obtain ⟨listed, behind, hwords, rfl, hbehind⟩ := List.map_eq_append_iff.mp hall
  obtain ⟨word, later, rfl, rfl, -⟩ := List.map_eq_cons_iff.mp hbehind
  obtain ⟨u', hu', rfl⟩ := List.mem_map.mp (List.mem_filter.mp hu).1
  rw [String.toList_ofList, String.toList_ofList]
  refine firstAt_lt hwords ?_ hu'
  intro hlisted
  exact hfresh (List.mem_filter.mpr ⟨List.mem_map_of_mem hlisted, hv⟩)

/-! ## Both ways together -/

/-- A word is harvested if it is not known and is the word at some offset of some line. -/
theorem mem_harvest_iff_wordAt {text : List Char} {known : List String} {word : String} :
    word ∈ harvest text known ↔ word ∉ known ∧ word ≠ "" ∧
      ∃ line ∈ Text.lines text, ∃ offset, wordAt line offset = word.toList := by
  obtain ⟨chars, rfl⟩ : ∃ chars, word = String.ofList chars := ⟨word.toList, by simp⟩
  have hlines : IsRun chars text ↔ ∃ line ∈ Text.lines text, IsRun chars line := by
    rw [← mem_words_iff, ← flatMap_words_lines, List.mem_flatMap]
    simp only [mem_words_iff]
  have hempty : String.ofList chars ≠ "" ↔ chars ≠ [] := by simp
  rw [mem_harvest, hlines, hempty, String.toList_ofList]
  simp only [isRun_iff_wordAt]
  constructor
  · rintro ⟨⟨line, hline, hne, hoffset⟩, hknown⟩
    exact ⟨hknown, hne, line, hline, hoffset⟩
  · rintro ⟨hknown, hne, line, hline, hoffset⟩
    exact ⟨⟨line, hline, hne, hoffset⟩, hknown⟩

/-- **Harvested words and the word at a cursor.**  No word is harvested twice, a word is harvested if and
only if it is not known and is the word at some offset of some line, and words come in the order of
their first places in the text.

There is a word at an offset if and only if there is an identifier character.  It is then the only run of
identifier characters that covers the offset and cannot be made longer, and it is the same at all offsets
that the run covers. -/
theorem harvest_agrees (text : List Char) (known : List String) :
    (harvest text known).Nodup ∧
      (∀ word : String, word ∈ harvest text known ↔ word ∉ known ∧ word ≠ "" ∧
        ∃ line ∈ Text.lines text, ∃ offset, wordAt line offset = word.toList) ∧
      ((harvest text known).Pairwise fun u v =>
        ∃ i j, FirstAt text u.toList i ∧ FirstAt text v.toList j ∧ i < j) ∧
      ∀ (row : List Char) (offset : Nat),
        (wordAt row offset ≠ [] ↔ ∃ c, row[offset]? = some c ∧ isChar c = true) ∧
          (wordAt row offset ≠ [] → ∃ start, ∀ word start', Covers row word start' offset ↔
            word = wordAt row offset ∧ start' = start) ∧
          ∀ word start, Covers row word start offset → wordAt row offset = word := by
  refine ⟨nodup_harvest text known, fun word => mem_harvest_iff_wordAt, harvest_pairwise text known, ?_⟩
  intro row offset
  exact ⟨wordAt_ne_nil_iff, covers_iff, fun word start hcovers => hcovers.wordAt_eq.1⟩

/-- A line with characters outside of words and a stray carriage return: words come in the order in which
they first appear, and the one at the cursor goes up to the carriage return. -/
theorem harvest_agrees_stray :
    let text := "é=b2 a\rb2\r\na_ b2".toList
    let row := "é=b2 a\rb2".toList
    (harvest text ["a"] = ["b2", "a_"] ∧ wordAt row 8 = "b2".toList ∧ wordAt row 8 ≠ []) ∧
      (harvest text ["a"]).Nodup ∧
      ∃ start, ∀ word start', Covers row word start' 8 ↔ word = wordAt row 8 ∧ start' = start := by
  intro text row
  have hagrees := harvest_agrees text ["a"]
  have hword : wordAt row 8 ≠ [] := by decide
  exact ⟨⟨by decide +kernel, by decide +kernel, hword⟩, hagrees.1, (hagrees.2.2.2 row 8).2.1 hword⟩

end ScriptIndex.Identifier
