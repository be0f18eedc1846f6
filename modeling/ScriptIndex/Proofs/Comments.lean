import Mathlib.Data.List.Infix
import ScriptIndex.SourceItem

/-!
# Headers and the comments around them

A source file is read line by line, and of a line only its first opener and its last closer are looked
at.  The rule behind that is one of characters: a comment reaches from an opener to the next closer, a
line may hold any number of them, and a header counts wherever it stands in the code between.  Here the
rule is written down as a lexer of its own, and reading by lines is compared with it.  Both agree as
long as the last closer of a line is the one that ends its last comment, and no header is squeezed
between two comments of one line.

* `Code.lex`, `Code.on` — the stretches of code of a line, by the rule of characters;
* `Code.lex_false_of_cut?`, `Code.lex_true_of_cut?` — the lexer goes from mark to mark;
* `Code.OrderlyLine`, `Code.Orderly` — lines on which reading by lines is safe;
* `Reading.inComment_orderly`, `Reading.line_orderly` — such a line is read by the rule;
* `Reading.signatures_items`, `SourceItem.functions_by_code` — and so are all lines down to the first
  one that is not.
-/

namespace ScriptIndex

namespace Text

/-! ## Cutting at a mark and holding it -/

/-- There is no last cut where the mark does not occur. -/
theorem cutLast?_eq_none {mark s : List Char} (h : ¬ mark <:+: s) : cutLast? mark s = none := by
  cases hcut : cutLast? mark s with
  | none => rfl
  | some sides => exact absurd ⟨_, _, (eq_of_cutLast? hcut).symm⟩ h

/-- The closer in front of a text without one is its last: it cannot start inside another one. -/
theorem cutLast?_closer {before after : List Char} (h : ¬ DocComment.closer <:+: after) :
    cutLast? DocComment.closer (before ++ DocComment.closer ++ after) = some (before, after) := by
  induction before with
  | nil =>
    have hslash : ¬ DocComment.closer <+: '/' :: after := by simp [DocComment.closer]
    have hrest : cutLast? DocComment.closer ('/' :: after) = none :=
      cutLast?_eq_none fun hin => (List.infix_cons_iff.mp hin).elim hslash h
    show cutLast? DocComment.closer ('*' :: '/' :: after) = _
    rw [cutLast?, hrest]
    simp [DocComment.closer]
  | cons c rest ih =>
    rw [List.cons_append, List.cons_append, cutLast?, ih]

end Text

/-! ## Code by the rule of characters -/

/-- What a piece of text is to a reader of comments. -/
structure Lexed where
  /-- The stretches outside comments, in order. -/
  code : List (List Char)
  /-- A comment is still open at the end. -/
  inside : Bool
deriving DecidableEq, Repr

namespace Lexed

/-- One more character in front of the first stretch. -/
def push (c : Char) (lexed : Lexed) : Lexed :=
  { lexed with code := lexed.code.modifyHead (c :: ·) }

/-- One more stretch in front, with a comment behind it. -/
def after (stretch : List Char) (lexed : Lexed) : Lexed :=
  { lexed with code := stretch :: lexed.code }

end Lexed

namespace Code

/-- Follows the comments through a text character by character, starting inside a comment or not.
Comments do not nest. -/
def lex : Bool → List Char → Lexed
  | false, [] => { code := [[]], inside := false }
  | false, '/' :: '*' :: rest => (lex true rest).after []
  | false, c :: rest => (lex false rest).push c
  | true, [] => { code := [], inside := true }
  | true, '*' :: '/' :: rest => lex false rest
  | true, _ :: rest => lex true rest

/-- Blank lines and require directives are no part of the text that comments run through. -/
def isLexed (line : List Char) : Bool :=
  !Text.isBlankText line && !Reading.requireMark.isPrefixOf line

/-- The code of a line that starts inside a comment or not. -/
def lexLine (inside : Bool) (line : List Char) : Lexed :=
  if isLexed line then lex inside line else { code := [], inside }

/-- The code of line `n` of some lines. -/
def ofLine : Bool → List (List Char) → Nat → List (List Char)
  | _, [], _ => []
  | inside, line :: _, 0 => (lexLine inside line).code
  | inside, line :: rest, n + 1 => ofLine (lexLine inside line).inside rest n

/-- The stretches of code on line `n` of a text. -/
def on (text : List Char) (n : Nat) : List (List Char) :=
  ofLine false (Text.lines text) n

/-! ### From mark to mark -/

theorem lex_false_cons {c : Char} {rest : List Char} (h : ¬ DocComment.opener <+: c :: rest) :
    lex false (c :: rest) = (lex false rest).push c := by
  rw [lex]
  rintro more rfl rfl
  exact h ⟨more, rfl⟩

theorem lex_true_cons {c : Char} {rest : List Char} (h : ¬ DocComment.closer <+: c :: rest) :
    lex true (c :: rest) = lex true rest := by
  rw [lex]
  rintro more rfl rfl
  exact h ⟨more, rfl⟩

/-- Without an opener all is code. -/
theorem lex_false_of_cut?_none {s : List Char} (h : Text.cut? DocComment.opener s = none) :
    lex false s = { code := [s], inside := false } := by
  induction s with
  | nil => rfl
  | cons c rest ih =>
    rw [Text.cut?] at h
    split at h
    · cases h
    · next hopener =>
      rw [lex_false_cons (mt List.isPrefixOf_iff_prefix.mpr hopener),
        ih (Option.map_eq_none_iff.mp h)]
      rfl

/-- Up to the first opener all is code, and behind it a comment is open. -/
theorem lex_false_of_cut? {s before after : List Char}
    (h : Text.cut? DocComment.opener s = some (before, after)) :
    lex false s = (lex true after).after before := by
  induction s generalizing before with
  | nil => cases h
  | cons c rest ih =>
    rw [Text.cut?] at h
    split at h
    · next hopener =>
      have heq := Text.eq_append_drop hopener
      obtain ⟨rfl, hafter⟩ := Prod.mk.inj (Option.some.inj h)
      rw [hafter] at heq
      rw [heq]
      rfl
    · next hopener =>
      obtain ⟨⟨inner, tail⟩, hcut, hsame⟩ := Option.map_eq_some_iff.mp h
      obtain ⟨rfl, rfl⟩ := Prod.mk.inj hsame
      rw [lex_false_cons (mt List.isPrefixOf_iff_prefix.mpr hopener), ih hcut]
      rfl

/-- Without a closer nothing is code. -/
theorem lex_true_of_cut?_none {s : List Char} (h : Text.cut? DocComment.closer s = none) :
    lex true s = { code := [], inside := true } := by
  induction s with
  | nil => rfl
  | cons c rest ih =>
    rw [Text.cut?] at h
    split at h
    · cases h
    · next hcloser =>
      rw [lex_true_cons (mt List.isPrefixOf_iff_prefix.mpr hcloser),
        ih (Option.map_eq_none_iff.mp h)]

/-- Behind the first closer the comment is over. -/
theorem lex_true_of_cut? {s before after : List Char}
    (h : Text.cut? DocComment.closer s = some (before, after)) : lex true s = lex false after := by
  induction s generalizing before with
  | nil => cases h
  | cons c rest ih =>
    rw [Text.cut?] at h
    split at h
    · next hcloser =>
      have heq := Text.eq_append_drop hcloser
      obtain ⟨-, hafter⟩ := Prod.mk.inj (Option.some.inj h)
      rw [hafter] at heq
      rw [heq]
      rfl
    · next hcloser =>
      obtain ⟨⟨inner, tail⟩, hcut, hsame⟩ := Option.map_eq_some_iff.mp h
      obtain ⟨-, rfl⟩ := Prod.mk.inj hsame
      rw [lex_true_cons (mt List.isPrefixOf_iff_prefix.mpr hcloser), ih hcut]

/-- A text that starts inside a comment and ends outside has its last stretch right behind a closer. -/
theorem last_of_lex_true {s : List Char} (h : (lex true s).inside = false) :
    ∃ before stretches last, s = before ++ DocComment.closer ++ last ∧
      (lex true s).code = stretches ++ [last] := by
  cases hclose : Text.cut? DocComment.closer s with
  | none =>
    rw [lex_true_of_cut?_none hclose] at h
    cases h
  | some sides =>
    obtain ⟨comment, code⟩ := sides
    have hs := Text.eq_of_cut? hclose
    rw [lex_true_of_cut? hclose] at h ⊢
    cases hopen : Text.cut? DocComment.opener code with
    | none =>
      rw [lex_false_of_cut?_none hopen]
      exact ⟨comment, [], code, hs, rfl⟩
    | some sides =>
      -- the next comment of the text is shorter by the one just passed
      obtain ⟨stretch, rest⟩ := sides
      have hcode := Text.eq_of_cut? hopen
      rw [lex_false_of_cut? hopen] at h ⊢
      have hshort : rest.length < s.length := by
        rw [hs, hcode]
        simp only [List.length_append, DocComment.opener, List.length_cons]
        omega
      obtain ⟨before, stretches, last, hrest, hstretches⟩ := last_of_lex_true h
      refine ⟨comment ++ DocComment.closer ++ stretch ++ DocComment.opener ++ before,
        stretch :: stretches, last, ?_, ?_⟩
      · rw [hs, hcode, hrest]
        simp only [List.append_assoc]
      · show stretch :: (lex true rest).code = _
        rw [hstretches, List.cons_append]
termination_by s.length

/-! ## Lines on which reading by lines is safe -/

/-- The stretches that stand behind a comment: all of them if the line starts inside one. -/
def behind (inside : Bool) (code : List (List Char)) : List (List Char) :=
  if inside then code else code.tail

/-- A line that can be read by its first opener and its last closer. -/
@[mk_iff]
structure OrderlyLine (inside : Bool) (line : List Char) : Prop where
  /-- If a comment is open at the end, there is no closer on the line. -/
  none_if_open : (lex inside line).inside = true → ¬ DocComment.closer <:+: line
  /-- There is no stray closer behind the last comment. -/
  none_behind : ¬ DocComment.closer <:+: (behind inside (lex inside line).code).getLastD []
  /-- There is no header between two comments. -/
  none_between : (behind inside (lex inside line).code).dropLast.findSome? Header.find? = none

instance (inside : Bool) (line : List Char) : Decidable (OrderlyLine inside line) :=
  decidable_of_iff' _ (orderlyLine_iff inside line)

/-- All of some lines can be read so, as far as comments run through them. -/
def Orderly : Bool → List (List Char) → Prop
  | _, [] => True
  | inside, line :: rest =>
    (isLexed line = true → OrderlyLine inside line) ∧ Orderly (lexLine inside line).inside rest

instance decidableOrderly : ∀ (inside : Bool) (lines : List (List Char)),
    Decidable (Orderly inside lines)
  | _, [] => .isTrue trivial
  | inside, line :: rest =>
    have := decidableOrderly (lexLine inside line).inside rest
    inferInstanceAs (Decidable ((isLexed line = true → OrderlyLine inside line) ∧ _))

end Code

@[simp] theorem Header.find?_nil : Header.find? [] = none := rfl

/-- What a header says of the function it declares. -/
def Header.signature (header : Header) : String × List Parameter :=
  (String.ofList header.name, header.parameters)

/-- The signature of an item, if it is a function on line `n`. -/
def SourceItem.signatureOn? (n : Nat) : SourceItem → Option (String × List Parameter)
  | .function d => if d.line = n then some (d.name, d.parameters) else none
  | .require _ _ => none

namespace Reading

open Code

/-- Inside a comment, the rest of a line is read by the rule if its last closer ends its last
comment. -/
theorem inComment_orderly (reading : Reading) (before text front : List Char) {rest : List Char}
    (hopen : (lex true rest).inside = true → ¬ DocComment.closer <:+: front ++ rest)
    (hbehind : ¬ DocComment.closer <:+: (lex true rest).code.getLastD [])
    (hbetween : (lex true rest).code.dropLast.findSome? Header.find? = none) :
    (reading.inComment before text (front ++ rest)).1.openComment.isSome = (lex true rest).inside ∧
      header? (reading.inComment before text (front ++ rest)).2 =
        (before :: (lex true rest).code).findSome? Header.find? := by
  cases hinside : (lex true rest).inside with
  | true =>
    have hnone : Text.cut? DocComment.closer rest = none := by
      cases hcut : Text.cut? DocComment.closer rest with
      | none => rfl
      | some sides =>
        refine absurd ⟨front ++ sides.1, sides.2, ?_⟩ (hopen hinside)
        rw [Text.eq_of_cut? hcut]
        simp only [List.append_assoc]
    rw [inComment, Text.cutLast?_eq_none (hopen hinside), lex_true_of_cut?_none hnone]
    refine ⟨rfl, ?_⟩
    simp [header?]
  | false =>
    obtain ⟨comment, stretches, last, hrest, hcode⟩ := last_of_lex_true hinside
    rw [hcode, List.getLastD_concat] at hbehind
    rw [hcode, List.dropLast_concat] at hbetween
    have hline : front ++ rest = front ++ comment ++ DocComment.closer ++ last := by
      rw [hrest]
      simp only [List.append_assoc]
    rw [hline, inComment, Text.cutLast?_closer hbehind]
    refine ⟨rfl, ?_⟩
    rw [hcode, List.findSome?_cons, List.findSome?_append, hbetween]
    cases hbefore : Header.find? before <;> simp [header?, hbefore]

/-- **What one line does to comments.** -/
theorem comment_orderly {reading : Reading} {line : List Char}
    (h : OrderlyLine reading.openComment.isSome line) :
    (reading.comment line).1.openComment.isSome = (lex reading.openComment.isSome line).inside ∧
      header? (reading.comment line).2 =
        (lex reading.openComment.isSome line).code.findSome? Header.find? := by
  cases hcomment : reading.openComment with
  | some text =>
    rw [hcomment] at h
    have hrest := reading.inComment_orderly [] text [] h.none_if_open h.none_behind h.none_between
    rw [List.findSome?_cons, Header.find?_nil] at hrest
    rw [comment, hcomment]
    exact hrest
  | none =>
    rw [hcomment] at h
    rw [comment, hcomment]
    cases hcut : Text.cut? DocComment.opener line with
    | none =>
      rw [Option.isSome_none, lex_false_of_cut?_none hcut]
      refine ⟨by rw [hcomment]; rfl, ?_⟩
      simp [header?]
    | some sides =>
      obtain ⟨before, rest⟩ := sides
      obtain ⟨hopen, hbehind, hbetween⟩ := h
      rw [Option.isSome_none, lex_false_of_cut? hcut] at hopen hbehind hbetween
      rw [Option.isSome_none, lex_false_of_cut? hcut]
      rw [Text.eq_of_cut? hcut] at hopen ⊢
      exact reading.inComment_orderly before [] _ hopen hbehind hbetween

/-- **What one line does.**  An orderly line leaves a comment open if the rule says so, and declares the
first header of its code. -/
theorem line_orderly {reading : Reading} (file : Path) (number : Nat) {text : List Char}
    (h : isLexed text = true → OrderlyLine reading.openComment.isSome text) :
    (reading.line file number text).1.openComment.isSome =
        (lexLine reading.openComment.isSome text).inside ∧
      (reading.line file number text).2.bind (SourceItem.signatureOn? number) =
        ((lexLine reading.openComment.isSome text).code.findSome? Header.find?).map
          Header.signature := by
  unfold line lexLine
  by_cases hblank : Text.isBlankText text = true
  · simp [hblank, isLexed]
  · by_cases hrequire : requireMark.isPrefixOf text = true
    · rw [if_neg hblank, Text.afterPrefix?, if_pos hrequire]
      have hnot : isLexed text = false := by simp [isLexed, hrequire]
      refine ⟨by simp [hnot], ?_⟩
      dsimp only
      split <;> simp [hnot, SourceItem.signatureOn?]
    · have hlexed : isLexed text = true := by simp [isLexed, hblank, hrequire]
      obtain ⟨hinside, hheader⟩ := comment_orderly (h hlexed)
      rw [if_neg hblank, Text.afterPrefix?, if_neg hrequire, if_pos hlexed, ← hheader]
      refine ⟨hinside, ?_⟩
      cases hfound : header? (reading.comment text).2 <;>
        simp [hfound, SourceItem.signatureOn?, declare, Header.signature]

/-- A line only declares functions of its own number. -/
theorem signatureOn?_line {reading : Reading} {file : Path} {number n : Nat} {text : List Char}
    (h : number ≠ n) : (reading.line file number text).2.bind (SourceItem.signatureOn? n) = none := by
  unfold line
  split
  · rfl
  · split
    · dsimp only
      split <;> rfl
    · cases header? (reading.comment text).2 <;> simp [SourceItem.signatureOn?, declare, h]

theorem filterMap_toList {α β : Type} (f : α → Option β) (o : Option α) :
    o.toList.filterMap f = (o.bind f).toList := by
  cases o with
  | none => rfl
  | some a => cases h : f a <;> simp [h]

/-- The lines from `number` on declare no function above. -/
theorem signatures_items_of_lt {reading : Reading} {file : Path} {number n : Nat}
    {lines : List (List Char)} (h : n < number) :
    (reading.items file number lines).filterMap (SourceItem.signatureOn? n) = [] := by
  induction lines generalizing reading number with
  | nil => rfl
  | cons first more ih =>
    rw [items, List.filterMap_append, ih (by omega), filterMap_toList, signatureOn?_line (by omega)]
    rfl

/-- **What all lines down to a line do.**  If they are orderly, the last of them declares the first
header of its code and nothing else. -/
theorem signatures_items (reading : Reading) (file : Path) (number : Nat) {n : Nat}
    {lines : List (List Char)}
    (h : Orderly reading.openComment.isSome (lines.take (n + 1))) :
    (reading.items file number lines).filterMap (SourceItem.signatureOn? (number + n)) =
      (((ofLine reading.openComment.isSome lines n).findSome? Header.find?).map
        Header.signature).toList := by
  induction lines generalizing reading number n with
  | nil => rfl
  | cons first more ih =>
    rw [List.take_succ_cons] at h
    obtain ⟨hfirst, hmore⟩ := h
    obtain ⟨hinside, hitem⟩ := line_orderly file number hfirst
    rw [items, List.filterMap_append, filterMap_toList]
    cases n with
    | zero =>
      rw [signatures_items_of_lt (by omega), List.append_nil, Nat.add_zero, hitem]
      rfl
    | succ n =>
      rw [← hinside] at hmore
      rw [signatureOn?_line (by omega), show number + (n + 1) = number + 1 + n by omega, ih _ _ hmore,
        hinside]
      rfl

end Reading

namespace SourceItem

/-- **Headers count where they are code.**  As long as the lines down to line `n` are orderly, a
function is reported on line `n` if and only if a stretch of code of that line holds a header, and what
is reported is the header of the first such stretch. -/
theorem functions_by_code (file : Path) (text : List Char) (n : Nat)
    (h : Code.Orderly false ((Text.lines text).take (n + 1))) :
    ((∃ d, .function d ∈ scan file text ∧ d.line = n) ↔
      ∃ stretch ∈ Code.on text n, (Header.find? stretch).isSome = true) ∧
    ∀ d, .function d ∈ scan file text → d.line = n →
      ∃ header, (Code.on text n).findSome? Header.find? = some header ∧
        d.name = String.ofList header.name ∧ d.parameters = header.parameters := by
  have hall : (scan file text).filterMap (signatureOn? n) =
      (((Code.on text n).findSome? Header.find?).map Header.signature).toList := by
    have hitems := ({} : Reading).signatures_items file 0 h
    rwa [Nat.zero_add] at hitems
  have hreported : ∀ d, .function d ∈ scan file text → d.line = n →
      ∃ header, (Code.on text n).findSome? Header.find? = some header ∧
        d.name = String.ofList header.name ∧ d.parameters = header.parameters := by
    intro d hd hline
    have hmem : (d.name, d.parameters) ∈ (scan file text).filterMap (signatureOn? n) :=
      List.mem_filterMap.mpr ⟨_, hd, if_pos hline⟩
    rw [hall, Option.mem_toList] at hmem
    obtain ⟨header, hheader, hsame⟩ := Option.map_eq_some_iff.mp hmem
    exact ⟨header, hheader, (congrArg Prod.fst hsame).symm, (congrArg Prod.snd hsame).symm⟩
  refine ⟨⟨?_, ?_⟩, hreported⟩
  · rintro ⟨d, hd, hline⟩
    obtain ⟨header, hheader, -⟩ := hreported d hd hline
    obtain ⟨stretch, hstretch, hfind⟩ := List.exists_of_findSome?_eq_some hheader
    exact ⟨stretch, hstretch, by rw [hfind]; rfl⟩
  · rintro ⟨stretch, hstretch, hfind⟩
    obtain ⟨header, hheader⟩ : ∃ header, (Code.on text n).findSome? Header.find? = some header :=
      Option.isSome_iff_exists.mp (List.findSome?_isSome_iff.mpr ⟨stretch, hstretch, hfind⟩)
    have hmem : header.signature ∈ (scan file text).filterMap (signatureOn? n) := by
      rw [hall, hheader]
      exact List.mem_singleton.mpr rfl
    obtain ⟨item, hitem, hsignature⟩ := List.mem_filterMap.mp hmem
    cases item with
    | require module line => cases hsignature
    | function d =>
      refine ⟨d, hitem, ?_⟩
      by_contra hline
      rw [signatureOn?, if_neg hline] at hsignature
      cases hsignature

/-- A comment over several lines with an opener in it, a directive inside a comment, two comments in
front of a header, and a closer that closes nothing. -/
theorem functions_by_code_mixed :
    let file := Path.ofString "/a.das"
    let text := ("def a() /* one\n/* def b()\nrequire m */\n*/ def c(x: int)\n" ++
      "/* two */ /* three */ def d()\n*/ def e()").toList
    Code.Orderly false ((Text.lines text).take 2) ∧ Code.Orderly false ((Text.lines text).take 5) ∧
      (¬ ∃ d, .function d ∈ scan file text ∧ d.line = 1) ∧
      ∃ d, .function d ∈ scan file text ∧ d.line = 4 ∧ d.name = "d" := by
  intro file text
  obtain ⟨htwo, hfive, hinside, hbehind⟩ :
      Code.Orderly false ((Text.lines text).take 2) ∧ Code.Orderly false ((Text.lines text).take 5) ∧
        Code.on text 1 = [] ∧ Code.on text 4 = ["".toList, " ".toList, " def d()".toList] := by
    decide +kernel
  clear_value text
  obtain ⟨hone, -⟩ := functions_by_code file text 1 htwo
  obtain ⟨hfour, hname⟩ := functions_by_code file text 4 hfive
  refine ⟨htwo, hfive, ?_, ?_⟩
  · rw [hone, hinside]
    simp
  · have hfirst : (Code.on text 4).findSome? Header.find? = some ⟨['d'], []⟩ := by
      rw [hbehind]
      decide +kernel
    obtain ⟨d, hd, hline⟩ := hfour.mpr (List.findSome?_isSome_iff.mp (by rw [hfirst]; rfl))
    obtain ⟨header, hheader, hsame, -⟩ := hname d hd hline
    obtain rfl : ⟨['d'], []⟩ = header := Option.some.inj (hfirst.symm.trans hheader)
    exact ⟨d, hd, hline, hsame⟩

/-- A closer in front of an opener is taken to close it, and the header in the comment is reported. -/
theorem functions_not_by_code :
    ¬ ∀ (file : Path) (text : List Char) (n : Nat),
      (∃ d, .function d ∈ scan file text ∧ d.line = n) ↔
        ∃ stretch ∈ Code.on text n, (Header.find? stretch).isSome = true := by
  intro hall
  have hreported : .function
      { name := "g", parameters := [], exported := false, file := .ofString "/a.das", line := 0,
        doc := "def g()" } ∈ scan (.ofString "/a.das") "*/ /* def g()".toList := by decide +kernel
  have hcode : Code.on "*/ /* def g()".toList 0 = ["*/ ".toList] := by decide +kernel
  obtain ⟨stretch, hstretch, hfind⟩ := (hall _ _ 0).mp ⟨_, hreported, rfl⟩
  rw [hcode] at hstretch
  rw [List.mem_singleton.mp hstretch] at hfind
  revert hfind
  decide +kernel

/-- A header between two comments of one line is passed over. -/
example :
    let text := "/* a */ def f() /* b */".toList
    scan (.ofString "/a.das") text = [] ∧ Code.on text 0 = ["".toList, " def f() ".toList, []] := by
  decide +kernel

end SourceItem

end ScriptIndex
