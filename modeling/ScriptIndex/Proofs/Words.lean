import Mathlib.Data.List.Nodup
import ScriptIndex.Identifier
import ScriptIndex.Proofs.LineBreaks

/-!
# The words of a text

Words are cut out line by line.  Since no line end is part of a word, they are the runs of identifier
characters of the whole text that cannot be made longer on either side.

* `Identifier.IsRun` — such a run;
* `Identifier.flatMap_words_lines` — the words of all lines are the words of the text;
* `Identifier.mem_words_iff` — and these are the runs;
* `Identifier.mem_harvest`, `Identifier.nodup_harvest` — what is harvested, each word once.
-/

namespace ScriptIndex.Identifier

/-- A stretch of a text that consists of identifier characters, with no identifier character right
before or right after it. -/
def IsRun (word text : List Char) : Prop :=
  word ≠ [] ∧ (∀ c ∈ word, isChar c = true) ∧
    ∃ before after, text = before ++ (word ++ after) ∧
      (∀ c ∈ before.getLast?, isChar c = false) ∧ ∀ c ∈ after.head?, isChar c = false

/-- A text cut in three around such a run. -/
structure Cut (text before word after : List Char) : Prop where
  parts : text = before ++ (word ++ after)
  nonempty : word ≠ []
  chars : ∀ c ∈ word, isChar c = true
  left : ∀ c ∈ before.getLast?, isChar c = false
  right : ∀ c ∈ after.head?, isChar c = false

theorem isRun_iff_cut {word text : List Char} :
    IsRun word text ↔ ∃ before after, Cut text before word after := by
  constructor
  · rintro ⟨hne, hchars, before, after, hparts, hleft, hright⟩
    exact ⟨before, after, hparts, hne, hchars, hleft, hright⟩
  · rintro ⟨before, after, hparts, hne, hchars, hleft, hright⟩
    exact ⟨hne, hchars, before, after, hparts, hleft, hright⟩

/-! ## Cutting at what is no identifier character -/

@[simp] theorem words_nil : words [] = [] := rfl

/-- A separator ends all words before it. -/
theorem words_append_cons {c : Char} (hc : isChar c = false) (front rest : List Char) :
    words (front ++ c :: rest) = words front ++ words rest := by
  unfold words
  rw [List.splitOnP_append_cons _ _ (by simp [hc]), List.filter_append]

/-- Identifier characters alone make one word. -/
theorem words_of_chars {word : List Char} (hne : word ≠ []) (h : ∀ c ∈ word, isChar c = true) :
    words word = [word] := by
  unfold words
  rw [List.splitOnP_eq_singleton (by simpa using h)]
  simp [hne]

theorem split_words_of_chars {piece word : List Char} {front back : List (List Char)}
    (h : ∀ c ∈ piece, isChar c = true) (hwords : words piece = front ++ word :: back) :
    front = [] ∧ word = piece ∧ piece ≠ [] := by
  have hne : piece ≠ [] := by
    rintro rfl
    simp at hwords
  rw [words_of_chars hne h] at hwords
  obtain ⟨rfl, hword⟩ | ⟨-, hword⟩ := List.append_eq_singleton_iff.mp hwords.symm
  · exact ⟨rfl, (List.cons.inj hword).1, hne⟩
  · cases hword

/-- A separator in front of a text is in no word. -/
theorem words_append_of_getLast {front : List Char} (h : ∀ c ∈ front.getLast?, isChar c = false)
    (rest : List Char) : words (front ++ rest) = words front ++ words rest := by
  rcases List.eq_nil_or_concat' front with rfl | ⟨front, c, rfl⟩
  · rfl
  · have hc : isChar c = false := h c (by simp)
    rw [List.append_assoc, List.singleton_append, words_append_cons hc, words_append_cons hc,
      words_nil, List.append_nil]

/-- A separator behind a text is in no word. -/
theorem words_append_of_head {rest : List Char} (h : ∀ c ∈ rest.head?, isChar c = false)
    (front : List Char) : words (front ++ rest) = words front ++ words rest := by
  cases rest with
  | nil => simp
  | cons c rest =>
    have hc : isChar c = false := h c (by simp)
    rw [words_append_cons hc, ← List.nil_append (c :: rest), words_append_cons hc]
    rfl

/-- **The words of all lines are the words of the text.** -/
theorem flatMap_words_lines (text : List Char) : (Text.lines text).flatMap words = words text := by
  refine Text.lineFeed_induction
    (motive := fun text => (Text.lines text).flatMap words = words text) ?_ ?_ text
  · intro line hfree
    rw [Text.lines_of_no_lineFeed hfree]
    split
    · next hempty => rw [hempty]; rfl
    · rw [List.flatMap_singleton]
  · intro line rest hfree ih
    -- the carriage return that goes with the line feed is no identifier character either
    have hreturn : words (Text.withoutReturn line) = words line := by
      rcases Text.eq_withoutReturn line with hsame | hcut
      · rw [← hsame]
      · conv_rhs => rw [hcut]
        rw [words_append_cons (by decide), words_nil, List.append_nil]
    rw [Text.lines_append_lineFeed hfree, List.flatMap_cons, ih, hreturn,
      words_append_cons (by decide)]

/-! ## Words are runs -/

/-- A word at the end of a text that cannot be made longer is the one that is read there. -/
theorem wordBefore_append {front word : List Char} (hword : ∀ c ∈ word, isChar c = true)
    (hfront : ∀ c ∈ front.getLast?, isChar c = false) :
    wordBefore (front ++ word) = word := by
  have hnone : front.reverse.takeWhile isChar = [] := by
    rcases List.eq_nil_or_concat' front with rfl | ⟨front, c, rfl⟩
    · rfl
    · have hc : isChar c = false := hfront c (by simp)
      simp [hc]
  unfold wordBefore
  rw [List.reverse_append, List.takeWhile_append_of_pos (by simpa using hword), hnone, List.append_nil,
    List.reverse_reverse]

/-- A run stays one behind a separator. -/
theorem Cut.append {rest before word after : List Char} (h : Cut rest before word after)
    (front : List Char) {c : Char} (hc : isChar c = false) :
    Cut (front ++ c :: rest) (front ++ c :: before) word after := by
  refine ⟨by rw [h.parts]; simp, h.nonempty, h.chars, ?_, h.right⟩
  intro d hd
  rcases List.eq_nil_or_concat' before with rfl | ⟨before, e, rfl⟩
  · obtain rfl : c = d := by simpa using hd
    exact hc
  · rw [← List.cons_append, ← List.append_assoc, List.getLast?_concat] at hd
    exact h.left d (by simpa using hd)

/-- **A text can be cut at each of its words**, with the earlier words in the part before it. -/
theorem cut_of_words {text word : List Char} {front back : List (List Char)}
    (h : words text = front ++ word :: back) :
    ∃ before after, Cut text before word after ∧ words before = front := by
  refine Text.pieces_induction
    (motive := fun text => ∀ front, words text = front ++ word :: back →
      ∃ before after, Cut text before word after ∧ words before = front)
    (fun c => !isChar c) ?_ ?_ text front h
  · intro piece hpiece front hwords
    have hchars : ∀ c ∈ piece, isChar c = true := by simpa using hpiece
    obtain ⟨rfl, rfl, hne⟩ := split_words_of_chars hchars hwords
    exact ⟨[], [], ⟨by simp, hne, hchars, by simp, by simp⟩, rfl⟩
  · intro piece c rest hpiece hc ih front hwords
    have hc : isChar c = false := by simpa using hc
    have hchars : ∀ c ∈ piece, isChar c = true := by simpa using hpiece
    -- the word stands behind the separator
    have hbehind : ∀ later, words rest = later ++ word :: back → front = words piece ++ later →
        ∃ before after, Cut (piece ++ c :: rest) before word after ∧ words before = front := by
      intro later hlater hfront
      obtain ⟨before, after, hcut, hbefore⟩ := ih later hlater
      refine ⟨_, _, hcut.append piece hc, ?_⟩
      rw [words_append_cons hc, hbefore, hfront]
    rw [words_append_cons hc] at hwords
    rcases List.append_eq_append_iff.mp hwords with ⟨later, hfront, hlater⟩ | ⟨own, hown, hlater⟩
    · exact hbehind later hlater hfront
    · cases own with
      | nil => exact hbehind [] hlater.symm (by rw [hown, List.append_nil, List.append_nil])
      | cons first own =>
        obtain ⟨rfl, -⟩ := List.cons.inj hlater
        obtain ⟨rfl, rfl, hne⟩ := split_words_of_chars hchars hown
        exact ⟨[], c :: rest, ⟨by simp, hne, hchars, by simp, by simpa using hc⟩, rfl⟩

/-- **The words of a text are its runs of identifier characters.** -/
theorem mem_words_iff {word text : List Char} : word ∈ words text ↔ IsRun word text := by
  rw [isRun_iff_cut]
  constructor
  · intro hword
    obtain ⟨front, back, hwords⟩ := List.append_of_mem hword
    obtain ⟨before, after, hcut, -⟩ := cut_of_words hwords
    exact ⟨before, after, hcut⟩
  · rintro ⟨before, after, hcut⟩
    rw [hcut.parts, words_append_of_getLast hcut.left, words_append_of_head hcut.right,
      words_of_chars hcut.nonempty hcut.chars]
    simp

/-! ## What is harvested -/

/-- A name at the end counts if it is new. -/
theorem eraseDups_concat (names : List String) (name : String) :
    (names ++ [name]).eraseDups =
      if name ∈ names then names.eraseDups else names.eraseDups ++ [name] := by
  rw [List.eraseDups_append]
  by_cases h : name ∈ names <;> simp [List.removeAll, List.eraseDups_cons, h]

/-- Among distinct words, one comes before another if it is listed before that one first appears. -/
theorem pairwise_eraseDups {found : List String} {R : String → String → Prop}
    (h : ∀ front v back, found = front ++ v :: back → v ∉ front → ∀ u ∈ front, R u v) :
    found.eraseDups.Pairwise R := by
  induction found using List.reverseRecOn with
  | nil => exact List.Pairwise.nil
  | append_singleton found v ih =>
    have hfound : found.eraseDups.Pairwise R := by
      apply ih
      intro front w back heq
      exact h front w (back ++ [v]) (by rw [heq]; simp)
    rw [eraseDups_concat]
    split
    · exact hfound
    · next hfresh =>
      rw [List.pairwise_append]
      refine ⟨hfound, List.pairwise_singleton _ _, ?_⟩
      intro u hu w hw
      rw [List.mem_singleton.mp hw]
      exact h found v [] rfl hfresh u (List.mem_eraseDups.mp hu)

theorem nodup_eraseDups (found : List String) : found.eraseDups.Nodup := by
  apply pairwise_eraseDups
  rintro front v back - hfresh u hu rfl
  exact hfresh hu

/-- A word is harvested if it is a run of the text and not known. -/
theorem mem_harvest {word text : List Char} {known : List String} :
    String.ofList word ∈ harvest text known ↔ IsRun word text ∧ String.ofList word ∉ known := by
  unfold harvest
  rw [List.mem_eraseDups, List.mem_filter, flatMap_words_lines, ← mem_words_iff]
  simp [String.ofList_inj]

theorem nodup_harvest (text : List Char) (known : List String) : (harvest text known).Nodup :=
  nodup_eraseDups _

end ScriptIndex.Identifier
