import ScriptIndex.Proofs.Comments
import ScriptIndex.Proofs.Rendering

/-!
# What a comment keeps of its lines

A comment over several lines becomes the documentation of the function below it.  Inside it another
opener is text like any other, and yet everything up to it on its line is taken for code and left out.
So the words of a line are kept as long as nothing but blanks and stars stands before its first opener,
and they need not be otherwise.

* `DocComment.IsFront`, `DocComment.Keeps` — the marks a line may start with, and its words behind them;
* `DocComment.line_of_content`, `DocComment.keeps_of_mem` — what a paragraph keeps of a line;
* `Reading.Block`, `Reading.Block.after`, `Reading.Block.closes` — what is carried through a comment, and
  behind it;
* `Reading.Follows`, `Reading.after_below` — how far the documentation reaches;
* `SourceItem.comment_keeps_words` — the words of a comment are in the documentation;
* `SourceItem.comment_loses_words` — words before a second opener are not.
-/

namespace ScriptIndex

/-! ## The words of a line -/

namespace DocComment

/-- Blanks and stars. -/
def IsDecoration (s : List Char) : Prop :=
  ∀ c ∈ s, Text.isBlank c = true ∨ c = '*'

instance (s : List Char) : Decidable (IsDecoration s) :=
  decidable_of_iff ((s.all fun c => Text.isBlank c || c = '*') = true) (by simp [IsDecoration])

/-- The marks a line of a comment may start with: blanks and stars, with one opener among them or
not. -/
def IsFront (front : List Char) : Prop :=
  ∃ before mark after, front = before ++ (mark ++ after) ∧ (mark = [] ∨ mark = opener) ∧
    IsDecoration before ∧ IsDecoration after

/-- Nothing but blanks and stars stands before the first opener of a line. -/
def OpensFirst (line : List Char) : Prop :=
  ∀ sides ∈ Text.cut? opener line, IsDecoration sides.1

instance (line : List Char) : Decidable (OpensFirst line) :=
  inferInstanceAs (Decidable (∀ sides ∈ Text.cut? opener line, _))

/-- All words of a line are words of a documentation, but for marks at the start of the line; a tag may
stand between underscores. -/
def Keeps (doc line : List Char) : Prop :=
  ∃ front rest, line = front ++ rest ∧ IsFront front ∧
    ∀ word ∈ Text.tokens rest, word ∈ Text.tokens doc ∨ mark word ∈ Text.tokens doc

theorem IsDecoration.of_blank {s : List Char} (h : ∀ c ∈ s, Text.isBlank c = true) :
    IsDecoration s :=
  fun c hc => Or.inl (h c hc)

theorem IsDecoration.append {s t : List Char} (hs : IsDecoration s) (ht : IsDecoration t) :
    IsDecoration (s ++ t) := by
  intro c hc
  exact (List.mem_append.mp hc).elim (hs c) (ht c)

theorem isDecoration_star : IsDecoration ['*'] :=
  fun _ hc => Or.inr (List.mem_singleton.mp hc)

theorem IsFront.append {front more : List Char} (h : IsFront front) (hmore : IsDecoration more) :
    IsFront (front ++ more) := by
  obtain ⟨before, mark, after, rfl, hmark, hbefore, hafter⟩ := h
  exact ⟨before, mark, after ++ more, by simp only [List.append_assoc], hmark, hbefore,
    hafter.append hmore⟩

/-- The marks at the start of a line hold nothing else. -/
theorem IsFront.chars {front : List Char} (h : IsFront front) :
    ∀ c ∈ front, Text.isBlank c = true ∨ c = '*' ∨ c = '/' := by
  obtain ⟨before, mark, after, rfl, hmark, hbefore, hafter⟩ := h
  intro c hc
  rw [List.mem_append, List.mem_append] at hc
  rcases hc with hc | hc | hc
  · exact (hbefore c hc).imp_right Or.inl
  · rcases hmark with rfl | rfl
    · cases hc
    · simp only [opener, List.mem_cons, List.not_mem_nil, or_false] at hc
      exact Or.inr hc.symm
  · exact (hafter c hc).imp_right Or.inl

/-- **A line that starts without marks is kept with all its words.** -/
theorem Keeps.words {doc blanks more : List Char} {c : Char} (h : Keeps doc (blanks ++ c :: more))
    (hblanks : ∀ d ∈ blanks, Text.isBlank d = true)
    (hc : ¬ (Text.isBlank c = true ∨ c = '*' ∨ c = '/')) :
    ∀ word ∈ Text.tokens (c :: more), word ∈ Text.tokens doc ∨ mark word ∈ Text.tokens doc := by
  obtain ⟨front, rest, hline, hfront, hwords⟩ := h
  have hrest : Text.tokens rest = Text.tokens (c :: more) := by
    rcases List.append_eq_append_iff.mp hline with ⟨middle, hmarks, hparts⟩ | ⟨middle, hpart, hparts⟩
    · cases middle with
      | nil => rw [hparts, List.nil_append]
      | cons d middle =>
        obtain ⟨rfl, -⟩ := List.cons.inj hparts
        exact absurd (hfront.chars c (by simp [hmarks])) hc
    · rw [hparts]
      exact Text.tokens_blank_append (fun d hd => hblanks d (by simp [hpart, hd])) _
  rw [← hrest]
  exact hwords

/-! ### Behind the marks -/

variable {line : List Char}

/-- Of a line that opens nothing behind other text, the opener and what stands before it are marks. -/
theorem line_of_afterOpener (hopens : OpensFirst line) (hcloser : ¬ closer <:+: line) :
    ∃ front, line = front ++ afterOpener line ∧ IsFront front := by
  unfold afterOpener
  split
  · exact ⟨[], rfl, [], [], [], rfl, Or.inl rfl, by simp [IsDecoration], by simp [IsDecoration]⟩
  · next before rest hcut =>
    have hline := Text.eq_of_cut? hcut
    have hfront : IsFront (before ++ opener) :=
      ⟨before, opener, [], by simp, Or.inr rfl, hopens _ hcut, by simp [IsDecoration]⟩
    split
    · next hclose =>
      refine absurd ?_ hcloser
      rw [hline]
      exact (List.isPrefixOf_iff_prefix.mp hclose).isInfix.trans (List.suffix_append _ _).isInfix
    · unfold dropStar
      split
      · next more =>
        refine ⟨before ++ opener ++ ['*'], ?_, hfront.append isDecoration_star⟩
        rw [hline]
        simp
      · exact ⟨before ++ opener, hline, hfront⟩

/-- **What is left of a line.**  The content of such a line is the line, less marks in front and blanks
behind. -/
theorem line_of_content (hopens : OpensFirst line) (hcloser : ¬ closer <:+: line) :
    ∃ front blanks, line = front ++ (content line ++ blanks) ∧ IsFront front ∧
      ∀ c ∈ blanks, Text.isBlank c = true := by
  obtain ⟨front, hline, hfront⟩ := line_of_afterOpener hopens hcloser
  have hinner : beforeCloser (afterOpener line) = afterOpener line := by
    have hnone : Text.cut? closer (afterOpener line) = none := by
      refine Text.cut?_eq_none fun hin => hcloser ?_
      rw [hline]
      exact hin.trans (List.suffix_append _ _).isInfix
    rw [beforeCloser, hnone]
  obtain ⟨blanks, tail, hafter, hblanks, htail⟩ := Text.exists_trim_append (afterOpener line)
  have hfront' := hfront.append (.of_blank hblanks)
  unfold content
  rw [hinner]
  dsimp only
  split
  · next rest hstar =>
    -- behind the star there may be more blanks
    obtain ⟨blanks', tail', hrest, hblanks', htail'⟩ := Text.exists_trim_append rest
    refine ⟨front ++ blanks ++ ['*'] ++ blanks', tail' ++ tail, ?_,
      (hfront'.append isDecoration_star).append (.of_blank hblanks'), ?_⟩
    · conv_lhs => rw [hline, hafter, hstar, hrest]
      simp
    · intro c hc
      exact (List.mem_append.mp hc).elim (htail' c) (htail c)
  · refine ⟨front ++ blanks, tail, ?_, hfront', htail⟩
    conv_lhs => rw [hline, hafter]
    simp

/-! ### Words with a tag -/

/-- No character of a word is blank. -/
theorem not_blank_of_isChar {c : Char} (h : Identifier.isChar c = true) : Text.isBlank c = false := by
  have hrange : 48 ≤ c.toNat ∧ c.toNat ≤ 122 := by
    have hkinds : (((c.isUpper || c.isLower) || c.isDigit) || decide (c = '_')) = true := h
    have hboth : ∀ least greatest : Char,
        (decide (c.val ≥ least.val) && decide (c.val ≤ greatest.val)) = true →
          least.toNat ≤ c.toNat ∧ c.toNat ≤ greatest.toNat := by
      intro least greatest hbounds
      rw [Bool.and_eq_true, decide_eq_true_iff, decide_eq_true_iff] at hbounds
      exact ⟨UInt32.le_iff_toNat_le.mp hbounds.1, UInt32.le_iff_toNat_le.mp hbounds.2⟩
    simp only [Bool.or_eq_true, decide_eq_true_eq] at hkinds
    rcases hkinds with ((hupper | hlower) | hdigit) | rfl
    · obtain ⟨hleast, hgreatest⟩ := hboth 'A' 'Z' ((Bool.decide_and _ _).symm.trans hupper)
      exact ⟨Nat.le_trans (by decide) hleast, Nat.le_trans hgreatest (by decide)⟩
    · obtain ⟨hleast, hgreatest⟩ := hboth 'a' 'z' hlower
      exact ⟨Nat.le_trans (by decide) hleast, hgreatest⟩
    · obtain ⟨hleast, hgreatest⟩ := hboth '0' '9' hdigit
      exact ⟨hleast, Nat.le_trans hgreatest (by decide)⟩
    · decide
  simp only [Text.isBlank, Text.blankRanges, List.any_cons, List.any_nil, Bool.or_false,
    Bool.or_eq_false_iff, Bool.and_eq_false_iff, decide_eq_false_iff_not]
  omega

/-- A tag can be seen. -/
theorem TagAt.visible {atStart : Bool} {inner : List Char} {cut : Tagged}
    (h : TagAt atStart inner cut) : ∀ c ∈ cut.tag, Text.isBlank c = false := by
  obtain ⟨d, word, htag, hletter, hword⟩ := h.named
  rw [htag]
  simp only [List.forall_mem_cons]
  exact ⟨by decide, not_blank_of_isChar (isChar_of_isTagStart hletter),
    fun c hc => not_blank_of_isChar (hword c hc)⟩

/-- A word that starts with a tag is shown with the tag between underscores. -/
theorem mark_word {atStart : Bool} {inner : List Char} {cut : Tagged} (h : TagAt atStart inner cut)
    {tail : List Char} (htail : tail <+: cut.after) :
    mark (cut.tag ++ tail) = '_' :: (cut.tag ++ '_' :: tail) := by
  obtain ⟨d, word, htag, hletter, hword⟩ := h.named
  have hstop : tail.takeWhile Identifier.isChar = [] := by
    cases tail with
    | nil => rfl
    | cons e more =>
      obtain ⟨rest, hafter⟩ := htail
      have he : Identifier.isChar e = false := h.greedy e (by rw [← hafter]; rfl)
      rw [List.takeWhile_cons_of_neg (by simp [he])]
  have hchars : ∀ c ∈ d :: word, Identifier.isChar c = true := by
    rw [List.forall_mem_cons]
    exact ⟨isChar_of_isTagStart hletter, hword⟩
  have htake : (d :: word ++ tail).takeWhile Identifier.isChar = d :: word := by
    rw [List.takeWhile_append_of_pos hchars, hstop, List.append_nil]
  have hdrop : (d :: word ++ tail).dropWhile Identifier.isChar = tail := by
    have hall := List.takeWhile_append_dropWhile (p := Identifier.isChar) (l := d :: word ++ tail)
    rw [htake] at hall
    exact List.append_cancel_left hall
  have hfind : findTag? (cut.tag ++ tail) = some ⟨[], cut.tag, tail⟩ := by
    rw [htag]
    show findTagFrom? true ('@' :: (d :: word ++ tail)) = _
    rw [findTagFrom?, if_pos (by simp [hletter]), htake, hdrop]
  rw [mark, hfind]
  rfl

theorem tokens_append_of_stands {before : List Char}
    (h : (before.getLast?.map Text.isBlank).getD true = true) (rest : List Char) :
    Text.tokens (before ++ rest) = Text.tokens before ++ Text.tokens rest := by
  rcases List.eq_nil_or_concat' before with rfl | ⟨front, c, rfl⟩
  · rfl
  · have hc : Text.isBlank c = true := by simpa using h
    rw [List.append_assoc, List.singleton_append, Text.tokens_append_cons hc,
      Text.tokens_append_cons hc, Text.tokens_nil, List.append_nil]

/-- **Marking a content keeps its words**, up to the underscores. -/
theorem tokens_mark {inner word : List Char} (h : word ∈ Text.tokens inner) :
    word ∈ Text.tokens (mark inner) ∨ mark word ∈ Text.tokens (mark inner) := by
  rcases marked_mark inner with ⟨cut, hcut, hmark⟩ | ⟨-, hmark⟩
  · have htag := hcut.visible
    have hne : cut.tag ≠ [] := by
      obtain ⟨d, more, htag, -⟩ := hcut.named
      rw [htag]
      exact List.cons_ne_nil _ _
    have hbold : ∀ c ∈ '_' :: (cut.tag ++ ['_']), Text.isBlank c = false := by
      simp only [List.forall_mem_cons, List.forall_mem_append]
      exact ⟨by decide, htag, by decide, by simp⟩
    rw [hcut.parts, tokens_append_of_stands hcut.stands, Text.tokens_word_append hne htag] at h
    have hshown : cut.emphasised = cut.before ++ ('_' :: (cut.tag ++ ['_']) ++ cut.after) := by
      simp [Tagged.emphasised]
    rw [hmark, hshown, tokens_append_of_stands hcut.stands,
      Text.tokens_word_append (List.cons_ne_nil _ _) hbold]
    rcases List.mem_append.mp h with h | h
    · exact Or.inl (List.mem_append_left _ h)
    · rcases List.mem_cons.mp h with rfl | h
      · refine Or.inr (List.mem_append_right _ (List.mem_cons.mpr (Or.inl ?_)))
        rw [mark_word hcut.toTagAt (List.takeWhile_prefix _)]
        simp
      · exact Or.inl (List.mem_append_right _ (List.mem_cons_of_mem _ h))
  · rw [hmark]
    exact Or.inl h

/-- **A paragraph keeps the words of its lines**, of those that open nothing behind other text and
close nothing. -/
theorem keeps_of_mem {lines : List (List Char)} (hline : line ∈ lines) (hopens : OpensFirst line)
    (hcloser : ¬ closer <:+: line) : Keeps (render lines).toList line := by
  obtain ⟨front, blanks, hparts, hfront, hblanks⟩ := line_of_content hopens hcloser
  refine ⟨front, content line ++ blanks, hparts, hfront, fun word hword => ?_⟩
  rw [Text.tokens_append_blank hblanks] at hword
  have hmem : content line ∈ contents lines := by
    refine List.mem_filter.mpr ⟨List.mem_map_of_mem hline, ?_⟩
    cases hcontent : content line with
    | nil =>
      rw [hcontent] at hword
      cases hword
    | cons => rfl
  have hin : ∀ shown ∈ Text.tokens (mark (content line)), shown ∈ Text.tokens (render lines).toList := by
    intro shown hshown
    rw [tokens_render]
    exact List.mem_flatMap.mpr ⟨_, hmem, hshown⟩
  exact (tokens_mark hword).imp (hin _) (hin _)

/-- What stands on a line before its first opener. -/
def beforeOpener (line : List Char) : List Char :=
  ((Text.cut? opener line).map Prod.fst).getD line

end DocComment

/-! ## Through a comment and behind it -/

namespace Reading

open DocComment (opener closer push)

variable {reading : Reading} {file : Path} {number : Nat} {line : List Char}

theorem after_append (reading : Reading) (file : Path) (number : Nat) (above below : List (List Char)) :
    reading.after file number (above ++ below) =
      (reading.after file number above).after file (number + above.length) below := by
  induction above generalizing reading number with
  | nil => rfl
  | cons text rest ih =>
    rw [List.cons_append, after, after, ih, List.length_cons,
      show number + (rest.length + 1) = number + 1 + rest.length by omega]

/-- What a line adds is an item of all lines. -/
theorem mem_items {above : List (List Char)} {item : SourceItem}
    (h : ((reading.after file number above).line file (number + above.length) line).2 = some item)
    (below : List (List Char)) : item ∈ reading.items file number (above ++ line :: below) := by
  rw [items_append, items_cons, h]
  simp

/-- A line that is neither blank nor a directive. -/
def Tracked (line : List Char) : Prop :=
  Text.isBlankText line = false ∧ ¬ requireMark <+: line

instance (line : List Char) : Decidable (Tracked line) :=
  inferInstanceAs (Decidable (_ ∧ _))

/-- Such a line is followed through its comments, and declares the header in its code. -/
theorem line_tracked (h : Tracked line) (reading : Reading) (file : Path) (number : Nat) :
    reading.line file number line =
      ({ (reading.comment line).1 with exportMarked := exportMark.isPrefixOf line },
        (header? (reading.comment line).2).map fun header =>
          .function ((reading.comment line).1.declare file number header)) := by
  unfold Reading.line
  rw [if_neg (by simp [h.1]), Text.afterPrefix?,
    if_neg (fun hrequire => h.2 (List.isPrefixOf_iff_prefix.mp hrequire))]

/-! ### The lines of a comment -/

/-- **The first line** opens the comment. -/
theorem openComment_first (hopen : reading.openComment = none) (h : Tracked line)
    (hopener : opener <:+: line) (hcloser : ¬ closer <:+: line) :
    (reading.line file number line).1.openComment = some (push [] line) := by
  rw [line_tracked h]
  show (reading.comment line).1.openComment = _
  unfold comment
  rw [hopen]
  cases hcut : Text.cut? opener line with
  | none => exact absurd hopener (Text.not_infix_of_cut?_none hcut)
  | some sides =>
    show (reading.inComment sides.1 [] line).1.openComment = _
    rw [inComment, Text.cutLast?_eq_none hcloser]

/-- **A line in between** leaves it open. -/
theorem openComment_inner {text : List Char} (hopen : reading.openComment = some text)
    (h : Tracked line) (hcloser : ¬ closer <:+: line) :
    (reading.line file number line).1.openComment = some (push text line) := by
  rw [line_tracked h]
  show (reading.comment line).1.openComment = _
  unfold comment
  rw [hopen]
  dsimp only
  rw [inComment, Text.cutLast?_eq_none hcloser]

/-- **The last line** closes it, and what stands behind the last closer is code. -/
theorem comment_last {text before after : List Char} (hopen : reading.openComment = some text)
    (hcut : Text.cutLast? closer line = some (before, after)) :
    (reading.comment line).1.openComment = none ∧
      (reading.comment line).1.lastComment = some (DocComment.finish (push text line)) ∧
      (reading.comment line).2 = { after } := by
  unfold comment
  rw [hopen]
  dsimp only
  rw [inComment, hcut]
  exact ⟨rfl, rfl, rfl⟩

theorem after_inner {text : List Char} {lines : List (List Char)}
    (hopen : reading.openComment = some text)
    (h : ∀ line ∈ lines, Tracked line ∧ ¬ closer <:+: line) :
    (reading.after file number lines).openComment = some (lines.foldl push text) := by
  induction lines generalizing reading number text with
  | nil => exact hopen
  | cons line rest ih =>
    rw [List.forall_mem_cons] at h
    exact ih (openComment_inner hopen h.1.1 h.1.2) h.2

/-- A block comment over several lines: it is opened on the first and closed on the last, and none of
them is blank or a directive. -/
@[mk_iff]
structure Block (first : List Char) (middle : List (List Char)) (last : List Char) : Prop where
  opened : opener <:+: first
  unclosed : ∀ line ∈ first :: middle, ¬ closer <:+: line
  closed : closer <:+: last
  tracked : ∀ line ∈ first :: (middle ++ [last]), Tracked line

instance (first : List Char) (middle : List (List Char)) (last : List Char) :
    Decidable (Block first middle last) :=
  decidable_of_iff' _ (block_iff first middle last)

variable {first last : List Char} {middle : List (List Char)}

/-- **Up to the last line** of a comment its text is gathered. -/
theorem Block.after (h : Block first middle last) (hopen : reading.openComment = none) (file : Path)
    (number : Nat) : (reading.after file number (first :: middle)).openComment =
      some ((first :: middle).foldl push []) := by
  have htracked := List.forall_mem_cons.mp h.tracked
  have hunclosed := List.forall_mem_cons.mp h.unclosed
  have hfirst : (reading.line file number first).1.openComment = some (push [] first) :=
    openComment_first hopen htracked.1 h.opened hunclosed.1
  rw [Reading.after, List.foldl_cons]
  refine after_inner hfirst fun line hline => ?_
  exact ⟨htracked.2 line (List.mem_append_left _ hline), hunclosed.2 line hline⟩

/-- **Behind a comment** it is closed, and its paragraph is at hand. -/
theorem Block.closes (h : Block first middle last) (hopen : reading.openComment = none) (file : Path)
    (number : Nat) :
    ((reading.after file number (first :: middle)).comment last).1.openComment = none ∧
      ((reading.after file number (first :: middle)).comment last).1.lastComment =
        some (DocComment.render (first :: (middle ++ [last]))) := by
  obtain ⟨⟨before, after⟩, hcut⟩ := Text.exists_cutLast? h.closed
  obtain ⟨hclosed, hlast, -⟩ := comment_last (h.after hopen file number) hcut
  refine ⟨hclosed, hlast.trans ?_⟩
  unfold DocComment.render
  rw [← List.cons_append, List.foldl_append]
  rfl

/-! ### Below a comment -/

/-- Outside comments, a line on which no comment ends leaves the last comment, and what stands before
its opener is code. -/
theorem comment_unclosed (hopen : reading.openComment = none)
    (h : opener <:+: line → ¬ closer <:+: line) :
    (reading.comment line).1.lastComment = reading.lastComment ∧
      (reading.comment line).2 = { before := DocComment.beforeOpener line } := by
  unfold comment DocComment.beforeOpener
  rw [hopen]
  cases hcut : Text.cut? opener line with
  | none => exact ⟨rfl, rfl⟩
  | some sides =>
    have hopener : opener <:+: line := ⟨_, _, (Text.eq_of_cut? hcut).symm⟩
    dsimp only
    rw [inComment, Text.cutLast?_eq_none (h hopener)]
    exact ⟨rfl, rfl⟩

/-- A visible line without an opener leaves comments alone. -/
theorem line_below (hopen : reading.openComment = none) (hblank : Text.isBlankText line = false)
    (hopener : ¬ opener <:+: line) (file : Path) (number : Nat) :
    (reading.line file number line).1.openComment = none ∧
      (reading.line file number line).1.lastComment = reading.lastComment := by
  unfold Reading.line
  rw [if_neg (by simp [hblank])]
  split
  · exact ⟨hopen, rfl⟩
  · have hcode : reading.comment line = (reading, { before := line }) := by
      unfold comment
      rw [hopen, Text.cut?_eq_none hopener]
    rw [hcode]
    exact ⟨hopen, rfl⟩

theorem after_below {lines : List (List Char)} (hopen : reading.openComment = none)
    (h : ∀ line ∈ lines, Text.isBlankText line = false ∧ ¬ opener <:+: line) (file : Path)
    (number : Nat) :
    (reading.after file number lines).openComment = none ∧
      (reading.after file number lines).lastComment = reading.lastComment := by
  induction lines generalizing reading number with
  | nil => exact ⟨hopen, rfl⟩
  | cons line rest ih =>
    rw [List.forall_mem_cons] at h
    obtain ⟨hclosed, hsame⟩ := line_below hopen h.1.1 h.1.2 file number
    obtain ⟨hrest, hlast⟩ := ih hclosed h.2 (number + 1)
    exact ⟨hrest, hlast.trans hsame⟩

/-- A header that follows a comment directly: behind the closer on the last line, or further down with
no blank line and no other comment before it.  The lines are those below the comment down to the header,
and no other comment ends on its line. -/
inductive Follows (last : List Char) : List (List Char) → Header → Prop
  | behind {before after : List Char} {header : Header} :
      last = before ++ closer ++ after → ¬ closer <:+: after → Header.find? after = some header →
      Follows last [] header
  | below {between : List (List Char)} {line : List Char} {header : Header} :
      (∀ other ∈ between, Text.isBlankText other = false ∧ ¬ opener <:+: other) → Tracked line →
      (opener <:+: line → ¬ closer <:+: line) →
      Header.find? (DocComment.beforeOpener line) = some header →
      Follows last (between ++ [line]) header

end Reading

namespace SourceItem

open Reading (Block Follows)

variable {file : Path} {header : Header} {first last : List Char} {middle lines : List (List Char)}

/-- **The paragraph of a comment documents the header that follows it.** -/
theorem documented_by_comment {reading : Reading} (hopen : reading.openComment = none)
    (hblock : Block first middle last) (hfollows : Follows last lines header) (number : Nat)
    (below : List (List Char)) :
    ∃ d, .function d ∈ reading.items file number (first :: middle ++ last :: (lines ++ below)) ∧
      d.line = number + (middle.length + 1) + lines.length ∧ d.name = String.ofList header.name ∧
      d.parameters = header.parameters ∧
      d.doc = DocComment.render (first :: (middle ++ [last])) := by
  obtain ⟨hclosed, hlast⟩ := hblock.closes hopen file number
  have htracked : Reading.Tracked last := hblock.tracked last (by simp)
  -- what is carried to the last line, and from there on
  let inside := reading.after file number (first :: middle)
  let ended := (inside.line file (number + (first :: middle).length) last).1
  have hended : ended.openComment = none ∧ ended.lastComment = (inside.comment last).1.lastComment := by
    have hstep : ended = { (inside.comment last).1 with
        exportMarked := Reading.exportMark.isPrefixOf last } :=
      congrArg Prod.fst (Reading.line_tracked htracked inside file _)
    rw [hstep]
    exact ⟨hclosed, rfl⟩
  cases hfollows with
  | behind hparts hafter hheader =>
    have hcut := hparts ▸ Text.cutLast?_closer hafter
    obtain ⟨-, -, hcode⟩ := Reading.comment_last (hblock.after hopen file number) hcut
    refine ⟨(inside.comment last).1.declare file (number + (first :: middle).length) header,
      Reading.mem_items ?_ _, rfl, rfl, rfl, ?_⟩
    · rw [Reading.line_tracked htracked, hcode, Reading.header?, Header.find?_nil, hheader]
      rfl
    · show ((inside.comment last).1.lastComment).getD "" = _
      rw [hlast]
      rfl
  | @below between line _ hbetween hline hunclosed hheader =>
    let carried := ended.after file (number + (first :: middle).length + 1) between
    obtain ⟨hcarried, hkept⟩ :=
      Reading.after_below hended.1 hbetween file (number + (first :: middle).length + 1)
    obtain ⟨hsame, hcode⟩ := Reading.comment_unclosed hcarried hunclosed
    have hall : first :: middle ++ last :: (between ++ [line] ++ below) =
        (first :: middle ++ last :: between) ++ line :: below := by simp
    have hafter : reading.after file number (first :: middle ++ last :: between) = carried := by
      rw [Reading.after_append]
      rfl
    rw [hall]
    refine ⟨(carried.comment line).1.declare file
        (number + (first :: middle ++ last :: between).length) header,
      Reading.mem_items ?_ _, ?_, rfl, rfl, ?_⟩
    · rw [hafter, Reading.line_tracked hline, hcode, Reading.header?, hheader]
      rfl
    · simp only [Reading.declare, List.length_append, List.length_cons, List.length_nil]
      omega
    · show ((carried.comment line).1.lastComment).getD "" = _
      rw [hsame, hkept, hended.2, hlast]
      rfl

/-- **The words of a comment are in the documentation.**  Take a comment over several lines, anywhere
in a text, and a header that follows it directly.  The header is reported, and all words of every line
between the first and the last one of the comment are in its documentation, also if the line holds another
opener, as long as nothing but blanks and stars stands before that. -/
theorem comment_keeps_words (file : Path) (text : List Char) (above below : List (List Char))
    (htext : Text.lines text = above ++ (first :: middle ++ last :: (lines ++ below)))
    (hopen : (({} : Reading).after file 0 above).openComment = none)
    (hblock : Block first middle last) (hfollows : Follows last lines header) :
    ∃ d, .function d ∈ scan file text ∧
      d.line = above.length + (middle.length + 1) + lines.length ∧
      d.name = String.ofList header.name ∧ d.parameters = header.parameters ∧
      ∀ line ∈ middle, DocComment.OpensFirst line → DocComment.Keeps d.doc.toList line := by
  obtain ⟨d, hd, hline, hname, hparameters, hdoc⟩ :=
    documented_by_comment hopen hblock hfollows (0 + above.length) below
  refine ⟨d, ?_, by omega, hname, hparameters, fun line hmem hopens => ?_⟩
  · unfold scan
    rw [htext, Reading.items_append]
    exact List.mem_append_right _ hd
  · rw [hdoc]
    refine DocComment.keeps_of_mem ?_ hopens (hblock.unclosed line (List.mem_cons_of_mem _ hmem))
    exact List.mem_cons_of_mem _ (List.mem_append_left _ hmem)

/-- A second opener behind a star, a tag on its line, and a mark between the comment and the header. -/
theorem comment_keeps_words_again :
    let file := Path.ofString "/a.das"
    let text := "require m\n/* outer\n * /* inner @param a\n more\n*/\n[export]\ndef f(a) /* note".toList
    let inner := " * /* inner @param a".toList
    Text.lines text = ["require m".toList] ++ ("/* outer".toList :: [inner, " more".toList] ++
        "*/".toList :: (["[export]".toList] ++ ["def f(a) /* note".toList] ++ [])) ∧
      DocComment.opener <:+: inner ∧ DocComment.OpensFirst inner ∧
      ∃ d, .function d ∈ scan file text ∧ d.line = 6 ∧ d.name = "f" ∧
        DocComment.Keeps d.doc.toList inner := by
  intro file text inner
  have htext : Text.lines text = ["require m".toList] ++ ("/* outer".toList :: [inner, " more".toList] ++
      "*/".toList :: (["[export]".toList] ++ ["def f(a) /* note".toList] ++ [])) := by decide +kernel
  have hopens : DocComment.OpensFirst inner := by decide +kernel
  have hfollows : Follows "*/".toList (["[export]".toList] ++ ["def f(a) /* note".toList])
      ⟨['f'], ['a']⟩ :=
    .below (List.forall_mem_singleton.mpr (by decide +kernel)) (by decide +kernel) (by decide +kernel)
      (by decide +kernel)
  obtain ⟨d, hd, hline, hname, -, hkeeps⟩ := comment_keeps_words file text ["require m".toList] []
    htext (by decide +kernel) (by decide +kernel) hfollows
  exact ⟨htext, by decide +kernel, hopens, d, hd, hline, hname, hkeeps inner List.mem_cons_self hopens⟩

/-- A word before a second opener is lost. -/
theorem comment_loses_words :
    ¬ ∀ (file : Path) (text : List Char) (above below middle lines : List (List Char))
      (first last : List Char) (header : Header),
      Text.lines text = above ++ (first :: middle ++ last :: (lines ++ below)) →
      (({} : Reading).after file 0 above).openComment = none → Block first middle last →
      Follows last lines header →
      ∃ d, .function d ∈ scan file text ∧
        d.line = above.length + (middle.length + 1) + lines.length ∧
        ∀ line ∈ middle, DocComment.Keeps d.doc.toList line := by
  intro h
  let file := Path.ofString "/p/main.das"
  let line := " lost /* inner".toList
  let text := "/* outer\n lost /* inner\n*/\ndef f()".toList
  have hfollows : Follows "*/".toList ([] ++ ["def f()".toList]) ⟨['f'], []⟩ :=
    .below (by simp) (by decide +kernel) (by decide +kernel) (by decide +kernel)
  obtain ⟨d, hd, -, hkeeps⟩ := h file text [] [] [line] _ "/* outer".toList "*/".toList _
    (by decide +kernel) rfl (by decide +kernel) hfollows
  let f : Declaration :=
    { name := "f", parameters := [], exported := false, file, line := 3, doc := "outer inner" }
  have hscan : scan file text = [.function f] := by decide +kernel
  rw [hscan, List.mem_singleton] at hd
  obtain rfl := SourceItem.function.inj hd
  have hline : line = [' '] ++ 'l' :: "ost /* inner".toList := by decide +kernel
  have hkept := hkeeps line List.mem_cons_self
  rw [hline] at hkept
  have hlost := hkept.words (List.forall_mem_singleton.mpr (by decide)) (by decide) "lost".toList
    (by decide +kernel)
  exact absurd hlost (by decide +kernel)

end SourceItem

end ScriptIndex
