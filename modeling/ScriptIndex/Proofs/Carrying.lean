import ScriptIndex.Proofs.LineBreaks
import ScriptIndex.SourceItem

/-!
# What is carried from line to line

A source file is read in one pass, and a line is read with what the lines above it left behind.  Two
laws say how far that reaches.  The export mark reaches over blank lines and over nothing else, so
whether a function is exported is decided by the last visible line above its header.  And a blank line
lets nothing through but an open comment and a mark: two blocks with a blank line between them are read
as if each stood alone.

* `Reading.after` — what is carried after some lines;
* `Reading.items_append`, `Reading.line_of_mem_items` — the items of some lines, and the line of an item;
* `Reading.function_of_line` — what a line that declares a function looks like;
* `Reading.line_map`, `Reading.items_map` — lines that are moved have the same items, moved along;
* `Reading.exportMarked_line`, `Reading.exportMarked_after` — how far a mark reaches;
* `SourceItem.exported_iff_marked` — exported is what stands under a mark;
* `Reading.items_lowered`, `SourceItem.scan_blocks` — blocks are read on their own.
-/

namespace ScriptIndex

namespace Text

/-! ## Texts that end with their last line -/

/-- Behind a text that ends with its last line, the lines of another one start anew. -/
theorem lines_append {front : List Char} (h : front = [] ∨ front.getLast? = some '\n')
    (rest : List Char) : lines (front ++ rest) = lines front ++ lines rest := by
  revert h
  refine lineFeed_induction (motive := fun front => front = [] ∨ front.getLast? = some '\n' →
    lines (front ++ rest) = lines front ++ lines rest) ?_ ?_ front
  · intro line hfree h
    rcases h with rfl | hlast
    · rfl
    · exact absurd (List.mem_of_getLast? hlast) hfree
  · intro line more hfree ih h
    have hmore : more = [] ∨ more.getLast? = some '\n' := by
      rcases h with h | h
      · simp at h
      · rcases List.eq_nil_or_concat' more with rfl | ⟨inner, d, rfl⟩
        · exact Or.inl rfl
        · refine Or.inr ?_
          rw [← List.cons_append, ← List.append_assoc, List.getLast?_concat] at h
          rw [List.getLast?_concat, h]
    rw [List.append_assoc, List.cons_append, lines_append_lineFeed hfree, lines_append_lineFeed hfree,
      ih hmore, List.cons_append]

/-- The last of some lines that is not blank. -/
def lastVisible? (lines : List (List Char)) : Option (List Char) :=
  (lines.filter fun line => !isBlankText line).getLast?

theorem lastVisible?_cons (line : List Char) (rest : List (List Char)) :
    lastVisible? (line :: rest) =
      (lastVisible? rest).or (if isBlankText line then none else some line) := by
  unfold lastVisible?
  cases hblank : isBlankText line with
  | true => simp [hblank]
  | false =>
    rw [List.filter_cons_of_pos (by simp [hblank]), List.getLast?_cons]
    cases (rest.filter fun line => !isBlankText line).getLast? <;> rfl

end Text

namespace Reading

/-! ## One line after another -/

/-- What is carried after some lines, the first of which has the number `number`. -/
def after (reading : Reading) (file : Path) (number : Nat) : List (List Char) → Reading
  | [] => reading
  | text :: rest => (reading.line file number text).1.after file (number + 1) rest

variable {reading : Reading} {file : Path} {number : Nat} {text : List Char}

theorem items_cons (reading : Reading) (file : Path) (number : Nat) (text : List Char)
    (rest : List (List Char)) :
    reading.items file number (text :: rest) = (reading.line file number text).2.toList ++
      (reading.line file number text).1.items file (number + 1) rest :=
  rfl

/-- The items of some lines are followed by those of the lines below, read with what is carried. -/
theorem items_append (reading : Reading) (file : Path) (number : Nat)
    (above below : List (List Char)) :
    reading.items file number (above ++ below) =
      reading.items file number above ++
        (reading.after file number above).items file (number + above.length) below := by
  induction above generalizing reading number with
  | nil => rfl
  | cons text rest ih =>
    rw [List.cons_append, items_cons, items_cons, after, ih, List.append_assoc, List.length_cons,
      show number + (rest.length + 1) = number + 1 + rest.length by omega]

/-- Every item is what a line adds, read with what the lines above it left behind. -/
theorem line_of_mem_items {lines : List (List Char)} {item : SourceItem}
    (h : item ∈ reading.items file number lines) :
    ∃ i text, lines[i]? = some text ∧
      ((reading.after file number (lines.take i)).line file (number + i) text).2 = some item := by
  induction lines generalizing reading number with
  | nil => simp [items] at h
  | cons first rest ih =>
    rw [items_cons, List.mem_append] at h
    rcases h with h | h
    · exact ⟨0, first, rfl, Option.mem_toList.mp h⟩
    · obtain ⟨i, text, htext, hitem⟩ := ih h
      refine ⟨i + 1, text, htext, ?_⟩
      rw [List.take_succ_cons, after, show number + (i + 1) = number + 1 + i by omega]
      exact hitem

/-- A line that declares a function holds its header outside comments. -/
theorem function_of_line {d : Declaration}
    (h : (reading.line file number text).2 = some (.function d)) :
    ∃ header, header? (reading.comment text).2 = some header ∧
      d = (reading.comment text).1.declare file number header := by
  unfold line at h
  split at h
  · cases h
  · split at h
    · dsimp only at h
      split at h <;> cases h
    · obtain ⟨header, hheader, hd⟩ := Option.map_eq_some_iff.mp h
      exact ⟨header, hheader, (SourceItem.function.inj hd).symm⟩

/-- **Where a line stands changes nothing but its item**, as long as items are moved along. -/
theorem line_map {p q : Path} {number number' : Nat} {move : SourceItem → SourceItem}
    (hfunction : ∀ (reading : Reading) header,
      move (.function (reading.declare q number header)) =
        .function (reading.declare p number' header))
    (hrequire : ∀ module, move (.require module number) = .require module number')
    (reading : Reading) (text : List Char) :
    reading.line p number' text =
      ((reading.line q number text).1, (reading.line q number text).2.map move) := by
  unfold line
  split
  · rfl
  · split
    · dsimp only
      split
      · rfl
      · rw [Option.map_some, hrequire]
    · dsimp only
      cases header? (reading.comment text).2 with
      | none => rfl
      | some header => rw [Option.map_some, Option.map_some, Option.map_some, hfunction]

theorem items_map {p q : Path} {n : Nat} {move : SourceItem → SourceItem}
    (hfunction : ∀ (reading : Reading) number header,
      move (.function (reading.declare q number header)) =
        .function (reading.declare p (number + n) header))
    (hrequire : ∀ module number, move (.require module number) = .require module (number + n))
    (reading : Reading) (number : Nat) (lines : List (List Char)) :
    reading.items p (number + n) lines = (reading.items q number lines).map move := by
  induction lines generalizing reading number with
  | nil => rfl
  | cons text rest ih =>
    have hline := line_map (fun reading => hfunction reading number) (fun m => hrequire m number)
      reading text
    rw [items_cons, items_cons, hline, List.map_append, Option.toList_map, ← ih,
      show number + n + 1 = number + 1 + n by omega]

/-! ## How far a mark reaches -/

@[simp] theorem exportMarked_inComment (reading : Reading) (before inner text : List Char) :
    (reading.inComment before inner text).1.exportMarked = reading.exportMarked := by
  unfold inComment
  cases Text.cutLast? DocComment.closer text <;> rfl

/-- Following a comment leaves the mark alone. -/
@[simp] theorem exportMarked_comment (reading : Reading) (text : List Char) :
    (reading.comment text).1.exportMarked = reading.exportMarked := by
  unfold comment
  split
  · exact exportMarked_inComment _ _ _ _
  · split
    · rfl
    · exact exportMarked_inComment _ _ _ _

/-- A directive is no mark. -/
theorem not_exportMark_of_requireMark (h : requireMark.isPrefixOf text = true) :
    exportMark.isPrefixOf text = false := by
  rw [Text.eq_append_drop h]
  rfl

/-- **What one line does to the mark.**  A blank line leaves it, and every other line sets it anew. -/
theorem exportMarked_line (reading : Reading) (file : Path) (number : Nat) (text : List Char) :
    (reading.line file number text).1.exportMarked =
      if Text.isBlankText text then reading.exportMarked else exportMark.isPrefixOf text := by
  unfold line
  by_cases hblank : Text.isBlankText text = true
  · rw [if_pos hblank, if_pos hblank]
  · rw [if_neg hblank, if_neg hblank, Text.afterPrefix?]
    by_cases hrequire : requireMark.isPrefixOf text = true
    · rw [if_pos hrequire, not_exportMark_of_requireMark hrequire]
    · rw [if_neg hrequire]

/-- **What some lines do to the mark.**  The last visible one of them decides. -/
theorem exportMarked_after (reading : Reading) (file : Path) (number : Nat)
    (lines : List (List Char)) :
    (reading.after file number lines).exportMarked =
      ((Text.lastVisible? lines).map exportMark.isPrefixOf).getD reading.exportMarked := by
  induction lines generalizing reading number with
  | nil => rfl
  | cons text rest ih =>
    rw [after, ih, exportMarked_line, Text.lastVisible?_cons]
    cases Text.lastVisible? rest with
    | some line => rfl
    | none => cases Text.isBlankText text <;> rfl

end Reading

namespace SourceItem

/-- **Exported is what stands under a mark.**  A function is declared on a line of the text, and it is
exported if and only if there is a visible line above that one and the last of these starts like an
export mark. -/
theorem exported_iff_marked (file : Path) (text : List Char) (d : Declaration)
    (h : .function d ∈ scan file text) :
    d.line < (Text.lines text).length ∧
      (d.exported = true ↔
        ∃ line ∈ Text.lastVisible? ((Text.lines text).take d.line), Reading.exportMark <+: line) := by
  obtain ⟨i, line, hline, hitem⟩ := Reading.line_of_mem_items h
  rw [Nat.zero_add] at hitem
  obtain ⟨header, -, rfl⟩ := Reading.function_of_line hitem
  obtain ⟨hi, -⟩ := List.getElem?_eq_some_iff.mp hline
  refine ⟨hi, ?_⟩
  show (Reading.comment _ line).1.exportMarked = true ↔
    ∃ line ∈ Text.lastVisible? ((Text.lines text).take i), Reading.exportMark <+: line
  rw [Reading.exportMarked_comment, Reading.exportMarked_after]
  cases Text.lastVisible? ((Text.lines text).take i) <;> simp

/-- A mark inside a comment counts, over a blank line, and a mark above a directive does not. -/
theorem exported_iff_marked_commented :
    let file := Path.ofString "/a.das"
    let text := "/* a\n[export]\n \t\nb */ def f()\n[export]\nrequire m\ndef g(x)".toList
    let f : Declaration :=
      { name := "f", parameters := [], exported := true, file, line := 3, doc := "a [export] b" }
    let g : Declaration :=
      { name := "g", parameters := [⟨"x", none⟩], exported := false, file, line := 6,
        doc := "a [export] b" }
    .function f ∈ scan file text ∧ .function g ∈ scan file text ∧
      (∃ line ∈ Text.lastVisible? ((Text.lines text).take 3), Reading.exportMark <+: line) ∧
      ¬ ∃ line ∈ Text.lastVisible? ((Text.lines text).take 6), Reading.exportMark <+: line := by
  intro file text f g
  have hf : .function f ∈ scan file text := by decide +kernel
  have hg : .function g ∈ scan file text := by decide +kernel
  refine ⟨hf, hg, (exported_iff_marked file text f hf).2.mp rfl, fun hmark => ?_⟩
  exact Bool.false_ne_true ((exported_iff_marked file text g hg).2.mpr hmark)

/-! ## Blocks -/

/-- An item `n` lines further down. -/
def lowered (n : Nat) : SourceItem → SourceItem
  | .function d => .function { d with line := d.line + n }
  | .require module line => .require module (line + n)

end SourceItem

namespace Reading

theorem items_lowered (reading : Reading) (file : Path) (number n : Nat)
    (lines : List (List Char)) :
    reading.items file (number + n) lines =
      (reading.items file number lines).map (SourceItem.lowered n) :=
  items_map (fun _ _ _ => rfl) (fun _ _ => rfl) reading number lines

/-- **What a blank line lets through.**  Without an open comment and a mark, nothing. -/
theorem line_blank {reading : Reading} (hopen : reading.openComment = none)
    (hmark : reading.exportMarked = false) (file : Path) (number : Nat) :
    reading.line file number [] = ({}, none) := by
  obtain ⟨exportMarked, openComment, lastComment⟩ := reading
  subst hopen hmark
  rfl

end Reading

/-- **Blocks are read on their own.**  Take a text that ends with its last line, leaves no comment open
and has no mark as its last visible line.  Behind it and a blank line, the items of another text are
those it has alone, so many lines further down. -/
theorem SourceItem.scan_blocks (file : Path) (above below : List Char)
    (hend : above = [] ∨ above.getLast? = some '\n')
    (hopen : (({} : Reading).after file 0 (Text.lines above)).openComment = none)
    (hmark : ∀ line ∈ Text.lastVisible? (Text.lines above), ¬ Reading.exportMark <+: line) :
    scan file (above ++ ['\n'] ++ below) =
      scan file above ++ (scan file below).map (lowered ((Text.lines above).length + 1)) := by
  have hlines : Text.lines (above ++ ['\n'] ++ below) =
      Text.lines above ++ [] :: Text.lines below := by
    rw [List.append_assoc, Text.lines_append hend]
    rfl
  have hunmarked : (({} : Reading).after file 0 (Text.lines above)).exportMarked = false := by
    rw [Reading.exportMarked_after]
    cases hlast : Text.lastVisible? (Text.lines above) with
    | none => rfl
    | some line => exact Bool.eq_false_iff.mpr (mt List.isPrefixOf_iff_prefix.mp (hmark line hlast))
  unfold scan
  rw [hlines, Reading.items_append, Reading.items_cons, Reading.line_blank hopen hunmarked, Nat.add_assoc,
    Reading.items_lowered]
  rfl

/-- A comment that waits for a header, behind a directive: the function below the blank line is not
documented by it. -/
theorem SourceItem.scan_blocks_waiting :
    let file := Path.ofString "/a.das"
    let above := "[export]\ndef f()\nrequire m\n/* of\r\ng */\n".toList
    let below := "def g()\n\nrequire n".toList
    let g : Declaration :=
      { name := "g", parameters := [], exported := false, file, line := 6, doc := "" }
    (above = [] ∨ above.getLast? = some '\n') ∧
      (({} : Reading).after file 0 (Text.lines above)).openComment = none ∧
      (({} : Reading).after file 0 (Text.lines above)).lastComment = some "of g" ∧
      (∀ line ∈ Text.lastVisible? (Text.lines above), ¬ Reading.exportMark <+: line) ∧
      scan file (above ++ ['\n'] ++ below) = scan file above ++ [.function g, .require "n" 8] := by
  intro file above below g
  have hend : above = [] ∨ above.getLast? = some '\n' := by decide +kernel
  have hopen : (({} : Reading).after file 0 (Text.lines above)).openComment = none := by decide +kernel
  have hmark : ∀ line ∈ Text.lastVisible? (Text.lines above), ¬ Reading.exportMark <+: line := by
    decide +kernel
  have hbelow : (scan file below).map (lowered ((Text.lines above).length + 1)) =
      [.function g, .require "n" 8] := by decide +kernel
  refine ⟨hend, hopen, by decide +kernel, hmark, ?_⟩
  rw [scan_blocks file above below hend hopen hmark, hbelow]

end ScriptIndex
