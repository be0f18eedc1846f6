import ScriptIndex.Proofs.Tokens

/-!
# The paragraph of a comment

The lines of a comment are put together one after the other, and what stands between two of them
depends on what was put there before.  In the end nothing of that is left to see: the paragraph is the
contents of the lines that have any, each behind a separator that depends on that line alone, with the
first tag of each between underscores.

* `DocComment.TagAt`, `DocComment.IsFirstTag` — what a tag is, and which one is the first;
* `DocComment.firstTag_of_findTag?`, `DocComment.no_tag_of_findTag?` — what the search finds;
* `DocComment.mark`, `DocComment.marked_mark` — a content with its first tag emphasised;
* `DocComment.trim_content`, `DocComment.no_closer_content` — what is left of a line;
* `DocComment.push_eq`, `DocComment.foldl_push` — one more line, and all lines;
* `DocComment.render_paragraph` — the paragraph, its words, and that no closer is in it.
-/

namespace ScriptIndex.DocComment

/-! ## Tags -/

/-- A content cut around a tag, where `atStart` tells whether one may stand at its start: an at sign
after a blank, or at the start, and all of the word behind it. -/
structure TagAt (atStart : Bool) (inner : List Char) (cut : Tagged) : Prop where
  parts : inner = cut.before ++ (cut.tag ++ cut.after)
  stands : (cut.before.getLast?.map Text.isBlank).getD atStart = true
  named : ∃ c word, cut.tag = '@' :: c :: word ∧ isTagStart c = true ∧
    ∀ d ∈ word, Identifier.isChar d = true
  greedy : ∀ c ∈ cut.after.head?, Identifier.isChar c = false

/-- A content cut around its first tag. -/
structure IsFirstTag (inner : List Char) (cut : Tagged) : Prop extends TagAt true inner cut where
  first : ∀ other, TagAt true inner other → cut.before.length ≤ other.before.length

variable {atStart : Bool} {c : Char} {rest inner : List Char} {cut : Tagged}

/-- A word starts with a character of words. -/
theorem isChar_of_isTagStart (h : isTagStart c = true) : Identifier.isChar c = true := by
  unfold isTagStart at h
  unfold Identifier.isChar Char.isAlphanum
  rcases Bool.or_eq_true_iff.mp h with h | h
  · rw [h]
    rfl
  · rw [h, Bool.or_true]

/-- A tag that is not at the start of a content is one of the content without its first character. -/
theorem tagAt_cons_iff {before tag after : List Char} :
    TagAt atStart (c :: rest) ⟨c :: before, tag, after⟩ ↔
      TagAt (Text.isBlank c) rest ⟨before, tag, after⟩ := by
  have hstands : (((c :: before).getLast?).map Text.isBlank).getD atStart =
      (before.getLast?.map Text.isBlank).getD (Text.isBlank c) := by
    rw [List.getLast?_cons]
    cases before.getLast? <;> rfl
  constructor
  · rintro ⟨hparts, hblank, hnamed, hgreedy⟩
    exact ⟨(List.cons.inj hparts).2, hstands ▸ hblank, hnamed, hgreedy⟩
  · rintro ⟨hparts, hblank, hnamed, hgreedy⟩
    exact ⟨congrArg (c :: ·) hparts, hstands.trans hblank, hnamed, hgreedy⟩

/-- Where a tag may stand at the start, the at sign and the letter behind it make one. -/
theorem tagAt_start (h : (atStart && c = '@' && rest.head?.any isTagStart) = true) :
    TagAt atStart (c :: rest)
      ⟨[], '@' :: rest.takeWhile Identifier.isChar, rest.dropWhile Identifier.isChar⟩ := by
  simp only [Bool.and_eq_true, decide_eq_true_eq] at h
  obtain ⟨⟨hstart, rfl⟩, hletter⟩ := h
  obtain ⟨d, hd, hletter⟩ := (Option.any_eq_true _ _).mp hletter
  obtain ⟨more, rfl⟩ := List.head?_eq_some_iff.mp hd
  refine ⟨?_, hstart, ?_, ?_⟩
  · show '@' :: (d :: more) = '@' :: (_ ++ _)
    rw [List.takeWhile_append_dropWhile]
  · refine ⟨d, more.takeWhile Identifier.isChar, ?_, hletter, fun e he => List.mem_takeWhile_imp he⟩
    rw [List.takeWhile_cons_of_pos (isChar_of_isTagStart hletter)]
  · intro e he
    have hhead := List.head?_dropWhile_not Identifier.isChar (d :: more)
    rw [Option.mem_def.mp he] at hhead
    simpa using hhead

/-- A tag at the start is an at sign with a letter behind it. -/
theorem start_of_tagAt {tag after : List Char} (h : TagAt atStart (c :: rest) ⟨[], tag, after⟩) :
    (atStart && c = '@' && rest.head?.any isTagStart) = true := by
  obtain ⟨hparts, hstart, ⟨d, word, rfl, hletter, -⟩, -⟩ := h
  obtain ⟨rfl, rfl⟩ := List.cons.inj hparts
  have hstart : atStart = true := hstart
  simp [hstart, hletter]

/-- **Every tag is seen**: where the search finds none, there is none. -/
theorem no_tag_of_findTagFrom? (h : findTagFrom? atStart inner = none) (cut : Tagged) :
    ¬ TagAt atStart inner cut := by
  induction inner generalizing atStart cut with
  | nil =>
    rintro ⟨hparts, -, ⟨d, word, htag, -⟩, -⟩
    rw [htag] at hparts
    simp at hparts
  | cons c rest ih =>
    rw [findTagFrom?] at h
    split at h
    · cases h
    · next hstart =>
      obtain ⟨before, tag, after⟩ := cut
      cases before with
      | nil => exact fun htag => hstart (start_of_tagAt htag)
      | cons d before =>
        intro htag
        obtain ⟨rfl, -⟩ := List.cons.inj htag.parts
        exact ih (Option.map_eq_none_iff.mp h) _ (tagAt_cons_iff.mp htag)

/-- **What is found is a tag**, and none stands further to the front. -/
theorem firstTag_of_findTagFrom? (h : findTagFrom? atStart inner = some cut) :
    TagAt atStart inner cut ∧
      ∀ other, TagAt atStart inner other → cut.before.length ≤ other.before.length := by
  induction inner generalizing atStart cut with
  | nil => cases h
  | cons c rest ih =>
    rw [findTagFrom?] at h
    split at h
    · next hstart =>
      obtain rfl := Option.some.inj h
      exact ⟨tagAt_start hstart, fun other _ => Nat.zero_le _⟩
    · next hstart =>
      obtain ⟨found, hfound, rfl⟩ := Option.map_eq_some_iff.mp h
      obtain ⟨htag, hfirst⟩ := ih hfound
      refine ⟨tagAt_cons_iff.mpr htag, fun other hother => ?_⟩
      obtain ⟨before, tag, after⟩ := other
      cases before with
      | nil => exact absurd (start_of_tagAt hother) hstart
      | cons d before =>
        obtain ⟨rfl, -⟩ := List.cons.inj hother.parts
        exact Nat.succ_le_succ (hfirst _ (tagAt_cons_iff.mp hother))

theorem firstTag_of_findTag? (h : findTag? inner = some cut) : IsFirstTag inner cut where
  toTagAt := (firstTag_of_findTagFrom? h).1
  first := (firstTag_of_findTagFrom? h).2

theorem no_tag_of_findTag? (h : findTag? inner = none) (cut : Tagged) :
    ¬ TagAt true inner cut :=
  no_tag_of_findTagFrom? h cut

/-- A content that carries a tag. -/
def HasTag (inner : List Char) : Prop :=
  ∃ cut, TagAt true inner cut

theorem hasTag_iff : HasTag inner ↔ (findTag? inner).isSome = true := by
  cases h : findTag? inner with
  | none => simpa [HasTag] using no_tag_of_findTag? h
  | some cut => exact iff_of_true ⟨cut, (firstTag_of_findTag? h).toTagAt⟩ rfl

instance (inner : List Char) : Decidable (HasTag inner) :=
  decidable_of_iff' _ hasTag_iff

/-! ## Marked contents -/

/-- A content with its tag between underscores. -/
def Tagged.emphasised (cut : Tagged) : List Char :=
  cut.before ++ '_' :: (cut.tag ++ '_' :: cut.after)

/-- A content with its first tag between underscores, and as it is if it has none. -/
def mark (inner : List Char) : List Char :=
  ((findTag? inner).map Tagged.emphasised).getD inner

/-- How a content is shown: with its first tag between underscores, or as it is. -/
def Marked (inner shown : List Char) : Prop :=
  (∃ cut, IsFirstTag inner cut ∧ shown = cut.emphasised) ∨ ¬ HasTag inner ∧ shown = inner

theorem marked_mark (inner : List Char) : Marked inner (mark inner) := by
  unfold mark
  cases h : findTag? inner with
  | none => exact Or.inr ⟨fun ⟨cut, htag⟩ => no_tag_of_findTag? h cut htag, rfl⟩
  | some cut => exact Or.inl ⟨cut, firstTag_of_findTag? h, rfl⟩

/-- A marked content ends in something that can be seen, as a trimmed content does. -/
theorem visible_mark (htrim : Text.trim inner = inner) (hne : inner ≠ []) :
    ∃ c ∈ (mark inner).getLast?, Text.isBlank c = false := by
  have hlast := Text.visible_of_trim htrim hne
  rcases marked_mark inner with ⟨cut, hcut, hmark⟩ | ⟨-, hmark⟩
  · rw [hmark, Tagged.emphasised]
    rw [hcut.parts] at hlast
    -- behind the tag the content is as it was, and an underscore if it ended there
    rcases List.eq_nil_or_concat' cut.after with hafter | ⟨front, d, hafter⟩
    · refine ⟨'_', ?_, by decide⟩
      rw [hafter, ← List.cons_append, ← List.append_assoc, List.getLast?_concat]
      rfl
    · rw [hafter] at hlast ⊢
      rw [← List.append_assoc, ← List.append_assoc, List.getLast?_concat] at hlast
      rw [← List.cons_append, ← List.cons_append, ← List.append_assoc, ← List.append_assoc,
        List.getLast?_concat]
      exact hlast
  · rw [hmark]
    exact hlast

/-- Underscores around a tag make no closer. -/
theorem no_closer_mark (h : ¬ closer <:+: inner) : ¬ closer <:+: mark inner := by
  rcases marked_mark inner with ⟨cut, hcut, hmark⟩ | ⟨-, hmark⟩
  · rw [hmark, Tagged.emphasised]
    rw [hcut.parts] at h
    intro hin
    rcases Text.infix_append_cons (by decide) hin with hin | hin
    · exact h (hin.trans (List.prefix_append _ _).isInfix)
    · rcases Text.infix_append_cons (by decide) hin with hin | hin
      · exact h (hin.trans (List.infix_append' _ _ _))
      · exact h (hin.trans ((List.suffix_append _ _).trans (List.suffix_append _ _)).isInfix)
  · rw [hmark]
    exact h

/-! ## What is left of a line -/

/-- The content of a line is trimmed. -/
theorem trim_content (line : List Char) : Text.trim (content line) = content line := by
  unfold content
  dsimp only
  split <;> exact Text.trim_trim _

theorem infix_trim (s : List Char) : Text.trim s <:+: s := by
  obtain ⟨front, back, hs, -, -⟩ := Text.exists_trim_append s
  exact ⟨front, back, by rw [List.append_assoc, ← hs]⟩

theorem no_closer_beforeCloser (s : List Char) : ¬ closer <:+: beforeCloser s := by
  unfold beforeCloser
  split
  · next hcut => exact Text.not_infix_of_cut?_none hcut
  · next hcut => exact Text.not_infix_of_cut? (by decide) hcut

/-- No closer is left in the content of a line. -/
theorem no_closer_content (line : List Char) : ¬ closer <:+: content line := by
  have hinner := infix_trim (beforeCloser (afterOpener line))
  have hcontent : content line <:+: Text.trim (beforeCloser (afterOpener line)) := by
    unfold content
    dsimp only
    split
    · next rest hstar =>
      rw [hstar]
      exact (infix_trim rest).trans (List.suffix_cons _ _).isInfix
    · exact List.infix_rfl
  exact fun hin => no_closer_beforeCloser _ (hin.trans (hcontent.trans hinner))

/-- The contents of those lines that have any. -/
def contents (lines : List (List Char)) : List (List Char) :=
  (lines.map content).filter fun c => !c.isEmpty

theorem of_mem_contents {lines : List (List Char)} (h : inner ∈ contents lines) :
    inner ≠ [] ∧ Text.trim inner = inner ∧ ¬ closer <:+: inner := by
  obtain ⟨hmem, hne⟩ := List.mem_filter.mp h
  obtain ⟨line, -, rfl⟩ := List.mem_map.mp hmem
  exact ⟨by simpa using hne, trim_content line, no_closer_content line⟩

/-! ## One line after another -/

/-- What stands before a content that is not the first: a hard break if it carries a tag, else one
space. -/
def separator (inner : List Char) : List Char :=
  if HasTag inner then hardBreak else [' ']

theorem blank_separator (inner : List Char) : ∀ c ∈ separator inner, Text.isBlank c = true := by
  unfold separator
  split
  · exact List.all_eq_true.mp (by decide)
  · exact List.all_eq_true.mp (by decide)

theorem separator_ne_nil (inner : List Char) : separator inner ≠ [] := by
  unfold separator
  split <;> simp [hardBreak]

/-- Contents put behind what is there already. -/
def appended (contents : List (List Char)) : List Char :=
  contents.flatMap fun c => separator c ++ mark c

/-- Contents with their separators between them. -/
def joined : List (List Char) → List Char
  | [] => []
  | first :: rest => mark first ++ appended rest

/-- A paragraph as it is built up: nothing yet, or something that ends in what can be seen. -/
def Settled (text : List Char) : Prop :=
  text = [] ∨ ∃ c ∈ text.getLast?, Text.isBlank c = false

/-- **One line.**  A line without content adds nothing.  Any other puts its marked content behind a
separator, which is left out of a paragraph that starts with a content without a tag. -/
theorem push_eq {text : List Char} (h : Settled text) (line : List Char) :
    push text line =
      if content line = [] then text
      else if text = [] ∧ ¬ HasTag (content line) then content line
      else text ++ (separator (content line) ++ mark (content line)) := by
  unfold push
  split
  · next hcontent => rw [if_pos hcontent]
  · next hcontent =>
    rw [if_neg hcontent]
    unfold separator mark
    cases hfind : findTag? (content line) with
    | some cut =>
      have htag : HasTag (content line) := hasTag_iff.mpr (by rw [hfind]; rfl)
      simp [htag, Tagged.emphasised]
    | none =>
      have htag : ¬ HasTag (content line) := by simp [hasTag_iff, hfind]
      by_cases hempty : text = []
      · simp [hempty, htag]
      · -- what can be seen is no line feed
        obtain ⟨c, hc, hvisible⟩ := h.resolve_left hempty
        have hbreak : text.getLast? ≠ some '\n' := by
          rw [Option.mem_def.mp hc]
          rintro ⟨rfl⟩
          exact absurd hvisible (by decide)
        simp [hempty, hbreak, htag]

theorem Settled.append {text : List Char} (h : ∃ c ∈ inner.getLast?, Text.isBlank c = false) :
    Settled (text ++ inner) := by
  obtain ⟨c, hc, hvisible⟩ := h
  refine Or.inr ⟨c, ?_, hvisible⟩
  rw [List.getLast?_append, Option.mem_def.mp hc]
  rfl

/-- **All lines, behind a paragraph.** -/
theorem foldl_push {text : List Char} (hne : text ≠ []) (h : Settled text)
    (lines : List (List Char)) : lines.foldl push text = text ++ appended (contents lines) := by
  induction lines generalizing text with
  | nil => exact (List.append_nil text).symm
  | cons line rest ih =>
    rw [List.foldl_cons, push_eq h]
    unfold contents
    rw [List.map_cons]
    by_cases hcontent : content line = []
    · rw [if_pos hcontent, ih hne h, List.filter_cons_of_neg (by simp [hcontent])]
      rfl
    · have hlast := visible_mark (trim_content line) hcontent
      rw [if_neg hcontent, if_neg (fun hfirst => hne hfirst.1), ← List.append_assoc,
        ih (by simp [hne]) (.append hlast), List.filter_cons_of_pos (by simp [hcontent])]
      simp only [appended, contents, List.flatMap_cons, List.append_assoc]

/-- **All lines.**  Blanks may stand before the first content, and nothing else is there. -/
theorem foldl_push_nil (lines : List (List Char)) :
    ∃ blanks, (∀ c ∈ blanks, Text.isBlank c = true) ∧
      lines.foldl push [] = blanks ++ joined (contents lines) := by
  induction lines with
  | nil => exact ⟨[], by simp, rfl⟩
  | cons line rest ih =>
    rw [List.foldl_cons, push_eq (Or.inl rfl)]
    by_cases hcontent : content line = []
    · obtain ⟨blanks, hblanks, hrest⟩ := ih
      refine ⟨blanks, hblanks, ?_⟩
      rw [if_pos hcontent, hrest]
      unfold contents
      rw [List.map_cons, List.filter_cons_of_neg (by simp [hcontent])]
    · have hlast := visible_mark (trim_content line) hcontent
      have hne : mark (content line) ≠ [] := by
        rintro hnil
        rw [hnil] at hlast
        simp at hlast
      have hcontents : contents (line :: rest) = content line :: contents rest := by
        unfold contents
        rw [List.map_cons, List.filter_cons_of_pos (by simp [hcontent])]
      rw [if_neg hcontent, hcontents]
      by_cases htag : HasTag (content line)
      · refine ⟨separator (content line), blank_separator _, ?_⟩
        rw [if_neg (fun hfirst => hfirst.2 htag), List.nil_append,
          foldl_push (by simp [hne]) (.append hlast), List.append_assoc]
        rfl
      · have hmark : mark (content line) = content line := by
          rcases marked_mark (content line) with ⟨cut, hcut, -⟩ | ⟨-, hmark⟩
          · exact absurd ⟨cut, hcut.toTagAt⟩ htag
          · exact hmark
        refine ⟨[], by simp, ?_⟩
        rw [if_pos ⟨rfl, htag⟩, foldl_push hcontent (Or.inr (hmark ▸ hlast)), List.nil_append, joined,
          hmark]

/-! ## The paragraph -/

theorem toList_render (lines : List (List Char)) :
    (render lines).toList = Text.trim (joined (contents lines)) := by
  obtain ⟨blanks, hblanks, hfold⟩ := foldl_push_nil lines
  unfold render finish
  rw [String.toList_ofList, hfold, Text.trim_blank_append hblanks]

theorem tokens_append_appended (text : List Char) (contents : List (List Char)) :
    Text.tokens (text ++ appended contents) =
      Text.tokens text ++ contents.flatMap fun c => Text.tokens (mark c) := by
  induction contents generalizing text with
  | nil => simp [appended]
  | cons c rest ih =>
    have hrest := ih (text ++ (separator c ++ mark c))
    rw [Text.tokens_between (separator_ne_nil c) (blank_separator c)] at hrest
    simpa [appended] using hrest

theorem tokens_joined (contents : List (List Char)) :
    Text.tokens (joined contents) = contents.flatMap fun c => Text.tokens (mark c) := by
  cases contents with
  | nil => rfl
  | cons first rest => exact tokens_append_appended (mark first) rest

theorem tokens_render (lines : List (List Char)) :
    Text.tokens (render lines).toList =
      (contents lines).flatMap fun c => Text.tokens (mark c) := by
  rw [toList_render, Text.tokens_trim, tokens_joined]

/-- A closer does not reach over a separator. -/
theorem no_closer_appended {text : List Char} {contents : List (List Char)}
    (htext : ¬ closer <:+: text) (h : ∀ c ∈ contents, ¬ closer <:+: c) :
    ¬ closer <:+: text ++ appended contents := by
  induction contents generalizing text with
  | nil => simpa [appended] using htext
  | cons c rest ih =>
    rw [List.forall_mem_cons] at h
    have hmark := no_closer_mark h.1
    have hnext : ¬ closer <:+: text ++ (separator c ++ mark c) := by
      intro hin
      have hfree : ∀ d ∈ separator c, d ∉ closer := fun d hd =>
        Text.visible_not_mem (by decide) (blank_separator c d hd)
      exact (Text.infix_between (separator_ne_nil c) hfree hin).elim htext hmark
    have hrest := ih hnext h.2
    simpa [appended] using hrest

theorem no_closer_joined {contents : List (List Char)} (h : ∀ c ∈ contents, ¬ closer <:+: c) :
    ¬ closer <:+: joined contents := by
  cases contents with
  | nil => decide
  | cons first rest =>
    rw [List.forall_mem_cons] at h
    exact no_closer_appended (no_closer_mark h.1) h.2

/-- **The paragraph of a comment.**  Whatever the lines are, the paragraph is that of the contents that
are not empty, each with its first tag between underscores, the second and all later ones behind a hard
break if they carry a tag and behind exactly one space otherwise, trimmed.  So its words are those of the
marked contents, in order, and no closer is in it. -/
theorem render_paragraph (lines : List (List Char)) :
    (∀ c ∈ contents lines, Marked c (mark c)) ∧
      (render lines).toList = Text.trim (joined (contents lines)) ∧
      Text.tokens (render lines).toList =
        ((contents lines).map fun c => Text.tokens (mark c)).flatten ∧
      ¬ closer <:+: (render lines).toList := by
  refine ⟨fun c _ => marked_mark c, toList_render lines, ?_, ?_⟩
  · rw [tokens_render, List.flatMap_def]
  · rw [toList_render]
    intro hin
    exact no_closer_joined (fun c hc => (of_mem_contents hc).2.2) (hin.trans (infix_trim _))

/-- Empty, tagged and plain lines, one with an address that is no tag, behind an opener with a tag. -/
example :
    render ["/** @deprecated".toList, " *".toList, "write to a@b.com".toList,
      " * see @ref_1, @other */".toList] =
      "_@deprecated_ write to a@b.com  \nsee _@ref_1_, @other" := by
  decide +kernel

end ScriptIndex.DocComment
