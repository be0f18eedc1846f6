import ScriptIndex.Proofs.Signatures

/-!
# Words between blanks, and marks in a text

The words of a text are what its blanks leave between them.  Blanks at the ends, and any number of
blanks between two parts, change none of them.

* `Text.tokens` — the words of a text;
* `Text.tokens_append_cons`, `Text.tokens_between`, `Text.tokens_trim` — blanks are in no word;
* `Text.tokens_word_append` — a text that starts with a word;
* `Text.infix_append_cons` — a mark does not reach over a character that is not in it;
* `Text.not_infix_of_cut?`, `Text.exists_cutLast?` — there is no mark before the first one, and where
  there is a mark there is a last one.
-/

namespace ScriptIndex.Text

/-- The words of a text, as its blanks divide them. -/
def tokens (s : List Char) : List (List Char) :=
  (s.splitOnP isBlank).filter fun word => !word.isEmpty

@[simp] theorem tokens_nil : tokens [] = [] := rfl

/-! ## Blanks -/

/-- A blank ends all words before it. -/
theorem tokens_append_cons {c : Char} (hc : isBlank c = true) (front rest : List Char) :
    tokens (front ++ c :: rest) = tokens front ++ tokens rest := by
  unfold tokens
  rw [List.splitOnP_append_cons _ _ hc, List.filter_append]

/-- Blanks in front of a text are in no word. -/
theorem tokens_blank_append {blanks : List Char} (h : ∀ c ∈ blanks, isBlank c = true)
    (s : List Char) : tokens (blanks ++ s) = tokens s := by
  induction blanks with
  | nil => rfl
  | cons c rest ih =>
    rw [List.forall_mem_cons] at h
    have hfirst : tokens (c :: (rest ++ s)) = tokens (rest ++ s) := tokens_append_cons h.1 [] _
    rw [List.cons_append, hfirst, ih h.2]

/-- Two parts with blanks between them have the words of both. -/
theorem tokens_between {blanks : List Char} (hne : blanks ≠ [])
    (h : ∀ c ∈ blanks, isBlank c = true) (front rest : List Char) :
    tokens (front ++ (blanks ++ rest)) = tokens front ++ tokens rest := by
  cases blanks with
  | nil => exact absurd rfl hne
  | cons c blanks =>
    rw [List.forall_mem_cons] at h
    rw [List.cons_append, tokens_append_cons h.1, tokens_blank_append h.2]

/-- Blanks behind a text are in no word. -/
theorem tokens_append_blank {blanks : List Char} (h : ∀ c ∈ blanks, isBlank c = true)
    (s : List Char) : tokens (s ++ blanks) = tokens s := by
  cases blanks with
  | nil => rw [List.append_nil]
  | cons c blanks =>
    have hbetween := tokens_between (List.cons_ne_nil c blanks) h s []
    rwa [List.append_nil, tokens_nil, List.append_nil] at hbetween

/-- A text is what is left after trimming, between blanks. -/
theorem exists_trim_append (s : List Char) : ∃ front back, s = front ++ (trim s ++ back) ∧
    (∀ c ∈ front, isBlank c = true) ∧ ∀ c ∈ back, isBlank c = true := by
  obtain ⟨back, hback, hblank⟩ := exists_dropEndWhile_append isBlank (s.dropWhile isBlank)
  refine ⟨s.takeWhile isBlank, back, ?_, fun c hc => List.mem_takeWhile_imp hc, hblank⟩
  show s = s.takeWhile isBlank ++ (dropEndWhile isBlank (s.dropWhile isBlank) ++ back)
  rw [← hback, List.takeWhile_append_dropWhile]

/-- Trimming leaves the words. -/
@[simp] theorem tokens_trim (s : List Char) : tokens (trim s) = tokens s := by
  obtain ⟨front, back, hs, hfront, hback⟩ := exists_trim_append s
  conv_rhs => rw [hs]
  rw [tokens_blank_append hfront, tokens_append_blank hback]

/-- A text that is trimmed ends in something that can be seen. -/
theorem visible_of_trim {s : List Char} (htrim : trim s = s) (hne : s ≠ []) :
    ∃ c ∈ s.getLast?, isBlank c = false := by
  rw [← htrim] at hne ⊢
  have hlast := List.rdropWhile_last_not isBlank (s.dropWhile isBlank) hne
  exact ⟨_, List.getLast?_eq_getLast_of_ne_nil hne, Bool.eq_false_iff.mpr hlast⟩

/-! ## Words -/

/-- A text without blanks is one word. -/
theorem tokens_of_visible {word : List Char} (hne : word ≠ [])
    (h : ∀ c ∈ word, isBlank c = false) : tokens word = [word] := by
  unfold tokens
  rw [List.splitOnP_eq_singleton (by simpa using h)]
  simp [hne]

/-- A text that starts with a word has that word, up to the next blank, and the words behind it. -/
theorem tokens_word_append {word : List Char} (hne : word ≠ [])
    (h : ∀ c ∈ word, isBlank c = false) (rest : List Char) :
    tokens (word ++ rest) = (word ++ rest.takeWhile fun c => !isBlank c) ::
      tokens (rest.dropWhile fun c => !isBlank c) := by
  have hvisible : ∀ c ∈ word ++ rest.takeWhile (fun c => !isBlank c), isBlank c = false := by
    intro c hc
    rcases List.mem_append.mp hc with hc | hc
    · exact h c hc
    · simpa using List.mem_takeWhile_imp hc
  conv_lhs => rw [← List.takeWhile_append_dropWhile (p := fun c => !isBlank c) (l := rest)]
  rw [← List.append_assoc]
  cases hdrop : rest.dropWhile fun c => !isBlank c with
  | nil =>
    rw [List.append_nil, tokens_of_visible (by simp [hne]) hvisible]
    rfl
  | cons c more =>
    have hc : isBlank c = true := by
      have hhead := List.head?_dropWhile_not (fun c => !isBlank c) rest
      rw [hdrop] at hhead
      simpa using hhead
    have hmore : tokens (c :: more) = tokens more := tokens_append_cons hc [] more
    rw [tokens_append_cons hc, tokens_of_visible (by simp [hne]) hvisible, hmore]
    rfl

/-! ## Marks -/

/-- A mark does not reach over a character that is not in it. -/
theorem infix_append_cons {mark front rest : List Char} {c : Char} (hc : c ∉ mark)
    (h : mark <:+: front ++ c :: rest) : mark <:+: front ∨ mark <:+: rest := by
  obtain ⟨before, after, hparts⟩ := h
  rcases List.append_eq_append_iff.mp hparts with ⟨middle, hfront, -⟩ | ⟨middle, hmark, hrest⟩
  · exact Or.inl ⟨before, middle, hfront.symm⟩
  · cases middle with
    | nil =>
      rw [List.append_nil] at hmark
      exact Or.inl ⟨before, [], by rw [List.append_nil, hmark]⟩
    | cons d middle =>
      obtain ⟨rfl, rfl⟩ := List.cons.inj hrest
      rcases List.append_eq_append_iff.mp hmark with ⟨inner, -, hin⟩ | ⟨inner, -, hin⟩
      · exact absurd (hin ▸ List.mem_append_right _ List.mem_cons_self) hc
      · cases inner with
        | nil =>
          rw [List.nil_append] at hin
          exact absurd (hin ▸ List.mem_cons_self) hc
        | cons e inner =>
          obtain ⟨-, rfl⟩ := List.cons.inj hin
          exact Or.inr ⟨inner, after, rfl⟩

/-- A mark does not reach over characters that are not in it. -/
theorem infix_between {mark front middle rest : List Char} (hne : middle ≠ [])
    (hmiddle : ∀ c ∈ middle, c ∉ mark) (h : mark <:+: front ++ (middle ++ rest)) :
    mark <:+: front ∨ mark <:+: rest := by
  induction middle generalizing front with
  | nil => exact absurd rfl hne
  | cons c middle ih =>
    rw [List.forall_mem_cons] at hmiddle
    rcases infix_append_cons hmiddle.1 h with hin | hin
    · exact Or.inl hin
    · cases middle with
      | nil => exact Or.inr hin
      | cons d middle =>
        have hstart : mark <:+: [] ++ (d :: middle ++ rest) := hin
        rcases ih (List.cons_ne_nil _ _) hmiddle.2 hstart with hin | hin
        · exact Or.inl (hin.trans List.nil_infix)
        · exact Or.inr hin

/-- A blank is not among characters that can be seen. -/
theorem visible_not_mem {s : List Char} (hs : (s.all fun c => !isBlank c) = true) {c : Char}
    (hc : isBlank c = true) : c ∉ s := by
  intro hmem
  have hvisible := List.all_eq_true.mp hs c hmem
  rw [hc] at hvisible
  cases hvisible

/-- Before the first mark there is none. -/
theorem not_infix_of_cut? {mark s before after : List Char} (hne : mark ≠ [])
    (h : cut? mark s = some (before, after)) : ¬ mark <:+: before := by
  induction s generalizing before with
  | nil =>
    rw [cut?, if_neg (by simpa using hne)] at h
    cases h
  | cons c rest ih =>
    have hparts := eq_of_cut? h
    rw [cut?] at h
    split at h
    · cases h
      simpa using hne
    · next hnone =>
      obtain ⟨⟨inner, tail⟩, hcut, hsame⟩ := Option.map_eq_some_iff.mp h
      simp only [Prod.mk.injEq] at hsame
      obtain ⟨rfl, rfl⟩ := hsame
      intro hin
      rcases List.infix_cons_iff.mp hin with hstart | hlater
      · refine hnone (List.isPrefixOf_iff_prefix.mpr ?_)
        rw [hparts, List.append_assoc]
        exact hstart.trans (List.prefix_append _ _)
      · exact ih hcut hlater

/-- Where no cut is made there is no mark. -/
theorem not_infix_of_cut?_none {mark s : List Char} (h : cut? mark s = none) : ¬ mark <:+: s := by
  induction s with
  | nil =>
    rw [cut?] at h
    split at h
    · cases h
    · next hne => simpa using hne
  | cons c rest ih =>
    rw [cut?] at h
    split at h
    · cases h
    · next hnone =>
      intro hin
      rcases List.infix_cons_iff.mp hin with hstart | hlater
      · exact hnone (List.isPrefixOf_iff_prefix.mpr hstart)
      · exact ih (Option.map_eq_none_iff.mp h) hlater

/-- A text that holds a mark has a last one. -/
theorem exists_cutLast? {mark s : List Char} (h : mark <:+: s) :
    ∃ sides, cutLast? mark s = some sides := by
  induction s with
  | nil => exact ⟨([], []), by rw [cutLast?, if_pos (by simpa using h)]⟩
  | cons c rest ih =>
    rw [cutLast?]
    cases hrest : cutLast? mark rest with
    | some sides => exact ⟨_, rfl⟩
    | none =>
      rcases List.infix_cons_iff.mp h with hstart | hlater
      · exact ⟨_, if_pos (List.isPrefixOf_iff_prefix.mpr hstart)⟩
      · obtain ⟨sides, hsides⟩ := ih hlater
        rw [hrest] at hsides
        cases hsides

end ScriptIndex.Text
