import Mathlib.Data.List.DropRight
import ScriptIndex.Text.Lines

/-!
# Lines and rows of one text

A source text is read in lines and a document in rows.  Lines end at line feeds alone, rows at every
break, so that a row number means the same line only as long as no line holds a break of its own.

* `Text.pieces_induction`, `Text.lineFeed_induction` — induction along the separators of a text;
* `Text.lines_append_lineFeed`, `Text.rows_append` — the lines and the rows of a text from the front;
* `Text.InStep` — up to a line, every break ends a line;
* `Text.rowText_of_inStep` — then the row of that number is the line, up to blanks at the end.
-/

namespace ScriptIndex.Text

/-- Induction along the separators of a text: a text without one, and a text after its first one. -/
theorem pieces_induction {motive : List Char → Prop} (isSeparator : Char → Bool)
    (last : ∀ piece, (∀ c ∈ piece, isSeparator c = false) → motive piece)
    (more : ∀ piece separator rest, (∀ c ∈ piece, isSeparator c = false) →
      isSeparator separator = true → motive rest → motive (piece ++ separator :: rest))
    (s : List Char) : motive s := by
  -- what was read since the last separator stands in front of the rest
  have hfront : ∀ piece, (∀ c ∈ piece, isSeparator c = false) → motive (piece ++ s) := by
    induction s with
    | nil =>
      intro piece hpiece
      rw [List.append_nil]
      exact last piece hpiece
    | cons c rest ih =>
      intro piece hpiece
      cases hc : isSeparator c with
      | true => exact more piece c rest hpiece hc (ih [] (by simp))
      | false =>
        rw [show piece ++ c :: rest = (piece ++ [c]) ++ rest by simp]
        apply ih
        intro d hd
        rcases List.mem_append.mp hd with hd | hd
        · exact hpiece d hd
        · rw [List.mem_singleton.mp hd]
          exact hc
  exact hfront [] (by simp)

/-- Induction along the line feeds of a text. -/
theorem lineFeed_induction {motive : List Char → Prop} (last : ∀ line, '\n' ∉ line → motive line)
    (more : ∀ line rest, '\n' ∉ line → motive rest → motive (line ++ '\n' :: rest))
    (s : List Char) : motive s := by
  refine pieces_induction (fun c => c == '\n') ?_ ?_ s
  · intro line hline
    exact last line fun hmem => by simpa using hline _ hmem
  · intro line c rest hline hc hrest
    obtain rfl : c = '\n' := by simpa using hc
    exact more line rest (fun hmem => by simpa using hline _ hmem) hrest

/-! ## Ends of texts -/

section

variable {α : Type} {p : α → Bool} {s t : List α}

/-- What is dropped from the end of a list has the property. -/
theorem exists_dropEndWhile_append (p : α → Bool) (s : List α) :
    ∃ tail, s = dropEndWhile p s ++ tail ∧ ∀ c ∈ tail, p c = true := by
  refine ⟨s.rtakeWhile p, List.rdropWhile_append_rtakeWhile.symm, ?_⟩
  intro c hc
  exact List.mem_rtakeWhile_imp hc

theorem dropEndWhile_append_of_forall (h : ∀ c ∈ t, p c = true) :
    dropEndWhile p (s ++ t) = dropEndWhile p s := by
  unfold dropEndWhile
  have ht : t.reverse.dropWhile p = [] := by
    simpa [List.dropWhile_eq_nil_iff] using h
  rw [List.reverse_append, List.dropWhile_append, ht]
  simp

theorem dropEndWhile_append_of_exists (h : ∃ c ∈ t, p c = false) :
    dropEndWhile p (s ++ t) = s ++ dropEndWhile p t := by
  unfold dropEndWhile
  have ht : (t.reverse.dropWhile p).isEmpty = false := by
    simpa [List.dropWhile_eq_nil_iff] using h
  rw [List.reverse_append, List.dropWhile_append, ht]
  simp

/-- Where one class lies in another, dropping both from an end is dropping the larger. -/
theorem dropEndWhile_append_dropEndWhile {q : α → Bool} (hpq : ∀ c, p c = true → q c = true) :
    dropEndWhile p (dropEndWhile q s ++ t) = dropEndWhile q s ++ dropEndWhile p t := by
  by_cases ht : ∃ c ∈ t, p c = false
  · exact dropEndWhile_append_of_exists ht
  · have hall : ∀ c ∈ t, p c = true := by simpa using ht
    have hnil : dropEndWhile p t = [] := List.rdropWhile_eq_nil_iff.mpr hall
    rw [dropEndWhile_append_of_forall hall, hnil, List.append_nil]
    refine List.rdropWhile_eq_self_iff.mpr ?_
    intro hne hlast
    exact List.rdropWhile_last_not q s hne (hpq _ hlast)

end

/-- Blanks at the end are trimmed away. -/
theorem trim_append_of_blank {s blanks : List Char} (h : ∀ c ∈ blanks, isBlank c = true) :
    trim (s ++ blanks) = trim s := by
  unfold trim stripEnds
  rw [List.dropWhile_append]
  split
  · next hempty =>
    rw [List.isEmpty_iff.mp hempty, List.dropWhile_eq_nil_iff.mpr h]
  · exact dropEndWhile_append_of_forall h

theorem trim_dropEndWhile (s : List Char) : trim (dropEndWhile isBlank s) = trim s := by
  obtain ⟨tail, hs, htail⟩ := exists_dropEndWhile_append isBlank s
  conv_rhs => rw [hs]
  rw [trim_append_of_blank htail]

/-- A text that is not trimmed away holds something that is not blank. -/
theorem exists_of_trim_ne_nil {s : List Char} (h : trim s ≠ []) : ∃ c ∈ s, isBlank c = false := by
  by_contra hall
  have hblank : ∀ c ∈ s, isBlank c = true := by simpa using hall
  apply h
  unfold trim stripEnds
  rw [List.dropWhile_eq_nil_iff.mpr hblank]
  rfl

/-! ## Lines from the front -/

/-- A line without the carriage return that its line feed takes along. -/
def withoutReturn (line : List Char) : List Char :=
  if line.getLast? = some '\r' then line.dropLast else line

/-- A line is what is left of it, with a carriage return behind it or not. -/
theorem eq_withoutReturn (line : List Char) :
    line = withoutReturn line ∨ line = withoutReturn line ++ ['\r'] := by
  unfold withoutReturn
  split
  · next hlast =>
    obtain ⟨front, rfl⟩ := List.getLast?_eq_some_iff.mp hlast
    exact Or.inr (by simp)
  · exact Or.inl rfl

theorem withoutReturn_cons_cons (c d : Char) (line : List Char) :
    withoutReturn (c :: d :: line) = c :: withoutReturn (d :: line) := by
  unfold withoutReturn
  rw [List.getLast?_cons_cons]
  split <;> rfl

theorem lines_cons {c : Char} {rest : List Char} (hc : c ≠ '\n')
    (hcrlf : ∀ more, c = '\r' → rest = '\n' :: more → False) :
    lines (c :: rest) = consHead c (lines rest) := by
  rw [lines]
  · exact fun h => hc h
  · exact hcrlf

/-- The first line of a text ends at its first line feed. -/
theorem lines_append_lineFeed {line : List Char} (h : '\n' ∉ line) (rest : List Char) :
    lines (line ++ '\n' :: rest) = withoutReturn line :: lines rest := by
  induction line with
  | nil => rfl
  | cons c line ih =>
    rw [List.mem_cons, not_or] at h
    cases line with
    | nil =>
      by_cases hc : c = '\r'
      · subst hc
        rfl
      · have hkept : withoutReturn [c] = [c] := by simp [withoutReturn, hc]
        rw [hkept]
        exact lines_cons (Ne.symm h.1) fun _ hcr _ => hc hcr
    | cons d line =>
      have hd : d ≠ '\n' := by
        intro hd
        exact h.2 (hd ▸ List.mem_cons_self)
      have hcrlf : ∀ more, c = '\r' → d :: line ++ '\n' :: rest = '\n' :: more → False := by
        intro more _ hmore
        exact hd (List.cons.inj hmore).1
      rw [List.cons_append, lines_cons (Ne.symm h.1) hcrlf, ih h.2, withoutReturn_cons_cons]
      rfl

/-- A text without a line feed is one line, or none if it is empty. -/
theorem lines_of_no_lineFeed {line : List Char} (h : '\n' ∉ line) :
    lines line = if line = [] then [] else [line] := by
  induction line with
  | nil => rfl
  | cons c line ih =>
    rw [List.mem_cons, not_or] at h
    have hcrlf : ∀ more, c = '\r' → line = '\n' :: more → False := by
      intro more _ hmore
      exact h.2 (hmore ▸ List.mem_cons_self)
    rw [lines_cons (Ne.symm h.1) hcrlf, ih h.2]
    cases line <;> rfl

/-! ## Rows from the front -/

theorem rows_cons_break {c : Char} {rest : List Char} (hc : isBreak c = true)
    (hcrlf : ∀ more, c = '\r' → rest = '\n' :: more → False) :
    rows (c :: rest) = [c] :: rows rest := by
  rw [rows]
  · rw [if_pos hc]
  · exact hcrlf

/-- A character that is no break belongs to the first row. -/
theorem rows_cons_char {c : Char} (hc : isBreak c = false) (rest : List Char) :
    rows (c :: rest) = (rows rest).modifyHead (c :: ·) := by
  have hcrlf : ∀ more, c = '\r' → rest = '\n' :: more → False := by
    intro more hcr _
    rw [hcr] at hc
    exact absurd hc (by decide)
  rw [rows]
  · rw [if_neg (by simp [hc])]
    obtain ⟨row, more, hrows⟩ := List.exists_cons_of_ne_nil (rows_ne_nil rest)
    rw [hrows]
    rfl
  · exact hcrlf

/-- Characters that are no breaks belong to the first row. -/
theorem rows_append {front : List Char} (h : ∀ c ∈ front, isBreak c = false) (rest : List Char) :
    rows (front ++ rest) = (rows rest).modifyHead (front ++ ·) := by
  induction front with
  | nil =>
    rw [List.nil_append]
    cases rows rest <;> rfl
  | cons c front ih =>
    rw [List.forall_mem_cons] at h
    rw [List.cons_append, rows_cons_char h.1, ih h.2]
    cases rows rest <;> rfl

/-- A line without breaks of its own is the first row, with the line feed and what that takes along. -/
theorem rows_append_lineFeed {line : List Char} (h : ∀ c ∈ withoutReturn line, isBreak c = false)
    (rest : List Char) : rows (line ++ '\n' :: rest) = (line ++ ['\n']) :: rows rest := by
  rcases eq_withoutReturn line with hline | hline
  · rw [← hline] at h
    rw [rows_append h]
    rfl
  · rw [hline, List.append_assoc, rows_append h, List.append_assoc]
    rfl

/-- Blanks up to the end of a text, or of a line, fill the row they start. -/
theorem head_rows_of_blank {blanks rest : List Char} (h : ∀ c ∈ blanks, isBlank c = true)
    (hrest : rest = [] ∨ ∃ more, rest = '\n' :: more) :
    ∃ row more, rows (blanks ++ rest) = row :: more ∧ ∀ c ∈ row, isBlank c = true := by
  induction blanks with
  | nil =>
    rcases hrest with rfl | ⟨more, rfl⟩
    · exact ⟨[], [], rfl, by simp⟩
    · exact ⟨['\n'], rows more, rfl, List.forall_mem_singleton.mpr (by decide)⟩
  | cons c blanks ih =>
    rw [List.forall_mem_cons] at h
    obtain ⟨row, more, hrows, hrow⟩ := ih h.2
    by_cases hbreak : isBreak c = true
    · by_cases hcrlf : ∃ tail, c = '\r' ∧ blanks ++ rest = '\n' :: tail
      · obtain ⟨tail, rfl, htail⟩ := hcrlf
        have hblank : ∀ d ∈ ['\r', '\n'], isBlank d = true :=
          List.forall_mem_cons.mpr ⟨h.1, List.forall_mem_singleton.mpr (by decide)⟩
        refine ⟨['\r', '\n'], rows tail, ?_, hblank⟩
        rw [List.cons_append, htail]
        rfl
      · refine ⟨[c], rows (blanks ++ rest), ?_, by simpa using h.1⟩
        exact rows_cons_break hbreak fun tail hc htail => hcrlf ⟨tail, hc, htail⟩
    · refine ⟨c :: row, more, ?_, ?_⟩
      · rw [List.cons_append, rows_cons_char (by simpa using hbreak), hrows]
        rfl
      · exact List.forall_mem_cons.mpr ⟨h.1, hrow⟩

/-! ## Where they agree -/

/-- Up to what stands on line `n`, every break of a text ends a line: the lines before it hold none,
and line `n` holds none but among the blanks at its end. -/
def InStep (s : List Char) (n : Nat) : Prop :=
  (∀ line ∈ (lines s).take n, ∀ c ∈ line, isBreak c = false) ∧
    ∀ c ∈ dropEndWhile isBlank ((lines s).getD n []), isBreak c = false

instance (s : List Char) (n : Nat) : Decidable (InStep s n) :=
  decidable_of_iff ((((lines s).take n).all fun line => line.all fun c => !isBreak c) &&
    (dropEndWhile isBlank ((lines s).getD n [])).all fun c => !isBreak c) (by simp [InStep])

/-- The first row of a text is its first line, but for blanks. -/
theorem first_row {line rest : List Char}
    (h : ∀ c ∈ dropEndWhile isBlank line, isBreak c = false)
    (hrest : rest = [] ∨ ∃ more, rest = '\n' :: more) :
    ∃ blanks, (∀ c ∈ blanks, isBlank c = true) ∧
      (rows (line ++ rest)).getD 0 [] = dropEndWhile isBlank line ++ blanks := by
  obtain ⟨tail, hline, htail⟩ := exists_dropEndWhile_append isBlank line
  obtain ⟨row, more, hrows, hrow⟩ := head_rows_of_blank htail hrest
  refine ⟨row, hrow, ?_⟩
  conv_lhs => rw [hline]
  rw [List.append_assoc, rows_append h, hrows]
  rfl

/-- As long as every break ends a line, the row of a number is the line of that number, but for
blanks. -/
theorem row_of_inStep {s : List Char} {n : Nat} (hn : n < (lines s).length) (h : InStep s n) :
    ∃ blanks, (∀ c ∈ blanks, isBlank c = true) ∧
      (rows s).getD n [] = dropEndWhile isBlank ((lines s).getD n []) ++ blanks := by
  revert n
  refine lineFeed_induction (motive := fun s => ∀ {n : Nat}, n < (lines s).length → InStep s n →
    ∃ blanks, (∀ c ∈ blanks, isBlank c = true) ∧
      (rows s).getD n [] = dropEndWhile isBlank ((lines s).getD n []) ++ blanks) ?_ ?_ s
  · -- without a line feed there is one line at most
    intro line hfree n hn h
    have hlines := lines_of_no_lineFeed hfree
    by_cases hempty : line = []
    · subst hempty
      simp [lines] at hn
    · rw [if_neg hempty] at hlines
      obtain ⟨-, hlast⟩ := h
      rw [hlines] at hn hlast ⊢
      obtain rfl : n = 0 := by simpa using hn
      obtain ⟨blanks, hblanks, hrow⟩ := first_row hlast (Or.inl rfl)
      rw [List.append_nil] at hrow
      exact ⟨blanks, hblanks, hrow⟩
  · intro line rest hfree ih n hn h
    have hlines := lines_append_lineFeed hfree rest
    obtain ⟨hbefore, hlast⟩ := h
    rw [hlines] at hn hbefore hlast ⊢
    cases n with
    | zero =>
      rcases eq_withoutReturn line with heq | heq
      · obtain ⟨blanks, hblanks, hrow⟩ := first_row hlast (Or.inr ⟨rest, rfl⟩)
        rw [← heq] at hrow
        exact ⟨blanks, hblanks, by rw [← heq]; exact hrow⟩
      · have hblank : ∀ d ∈ ['\r'], isBlank d = true := List.forall_mem_singleton.mpr (by decide)
        have hsame : dropEndWhile isBlank line = dropEndWhile isBlank (withoutReturn line) := by
          conv_lhs => rw [heq]
          exact dropEndWhile_append_of_forall hblank
        rw [List.getD_cons_zero, ← hsame] at hlast ⊢
        exact first_row hlast (Or.inr ⟨rest, rfl⟩)
    | succ n =>
      rw [List.take_succ_cons, List.forall_mem_cons] at hbefore
      rw [rows_append_lineFeed hbefore.1]
      exact ih (Nat.lt_of_succ_lt_succ hn) ⟨hbefore.2, hlast⟩

/-- **As long as every break ends a line, rows are lines**, but for blanks at the end. -/
theorem rowText_of_inStep {s : List Char} {n : Nat} (hn : n < (lines s).length) (h : InStep s n) :
    ∃ blanks, (∀ c ∈ blanks, isBlank c = true) ∧
      rowText ((rows s).getD n []) = dropEndWhile isBlank ((lines s).getD n []) ++ blanks := by
  obtain ⟨blanks, hblanks, hrow⟩ := row_of_inStep hn h
  obtain ⟨tail, htail, -⟩ := exists_dropEndWhile_append (fun c => c = '\n' || c = '\r') blanks
  refine ⟨rowText blanks, ?_, ?_⟩
  · intro c hc
    apply hblanks
    rw [htail]
    exact List.mem_append_left _ hc
  · rw [hrow]
    unfold rowText
    apply dropEndWhile_append_dropEndWhile
    intro c hc
    rcases Bool.or_eq_true_iff.mp hc with hc | hc
    · rw [of_decide_eq_true hc]
      decide
    · rw [of_decide_eq_true hc]
      decide

end ScriptIndex.Text
