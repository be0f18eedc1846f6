import ScriptIndex.Proofs.Documentation
import ScriptIndex.Proofs.Signatures
import ScriptIndex.SampleWorkspace

/-!
# Generated files, line by line

The text of a generated file is made of a few kinds of lines.  What reading carries from line to line is
the same before every function as at the start of the file, so the functions are read one by one, each
with its comment, its mark and its body, and the number of a header follows from the lines above it.

* `Text.unlines`, `Text.lines_unlines` — a text from its lines, and back;
* `Reading.Reads` — what some lines add and what they leave behind, one line after another;
* `Reading.line_idle`, `Reading.line_words` — the lines that do not depend on what was read before;
* `SampleWorkspace.toList_text` — the lines of a generated file;
* `SampleWorkspace.reads_function` — one function of a generated file;
* `SampleWorkspace.scan_text`, `SampleWorkspace.line_headerLine` — all items, and where they stand.
-/

namespace ScriptIndex

namespace Text

/-! ## Texts from their lines -/

/-- The text with some lines, each of them ended. -/
def unlines (ls : List (List Char)) : List Char :=
  ls.flatMap (· ++ ['\n'])

theorem unlines_append (above below : List (List Char)) :
    unlines (above ++ below) = unlines above ++ unlines below :=
  List.flatMap_append

/-- A line without the characters that belong to the ends of lines. -/
def Unbroken (line : List Char) : Prop :=
  '\n' ∉ line ∧ '\r' ∉ line

/-- Such lines are read back as they were written. -/
theorem lines_unlines {ls : List (List Char)} (h : ∀ l ∈ ls, Unbroken l) :
    lines (unlines ls) = ls := by
  induction ls with
  | nil => rfl
  | cons l rest ih =>
    rw [List.forall_mem_cons] at h
    have hkept : withoutReturn l = l := if_neg fun hlast => h.1.2 (List.mem_of_getLast? hlast)
    rw [unlines, List.flatMap_cons, List.append_assoc, List.singleton_append,
      lines_append_lineFeed h.1.1, hkept]
    exact congrArg _ (ih h.2)

/-- A text that starts and ends with something visible has nothing to trim. -/
theorem trim_eq_self {s : List Char} (hhead : ∀ c ∈ s.head?, isBlank c = false)
    (hlast : ∀ c ∈ s.getLast?, isBlank c = false) : trim s = s := by
  have hfront : s.dropWhile isBlank = s := by
    rw [List.dropWhile_eq_self_iff]
    intro hl
    simp [hhead s[0] (by simp [List.head?_eq_getElem?])]
  unfold trim stripEnds
  rw [hfront]
  refine List.rdropWhile_eq_self_iff.mpr fun hne => ?_
  simp [hlast _ (List.getLast?_eq_getLast_of_ne_nil hne)]

/-- A mark with a character that a text does not have is nowhere in it. -/
theorem not_infix_of_not_mem {mark s : List Char} {c : Char} (hc : c ∈ mark) (h : c ∉ s) :
    ¬ mark <:+: s :=
  fun hin => h (hin.subset hc)

end Text

/-- Without the first letter of the keyword there is no header. -/
theorem Header.find?_eq_none {code : List Char} (h : 'd' ∉ code) : find? code = none := by
  cases hfound : find? code with
  | none => rfl
  | some header =>
    obtain ⟨before, name, arguments, after, hsplit, -⟩ := split_of_findAfter? hfound
    exact absurd (by rw [hsplit.parts]; simp [keyword]) h

namespace DocComment

/-- The words of a line of a comment that a star decorates. -/
theorem content_words {words : List Char} (htrim : Text.trim words = words) (hne : words ≠ [])
    (hslash : '/' ∉ words) : content (' ' :: '*' :: ' ' :: words) = words := by
  have hfree : '/' ∉ ' ' :: '*' :: ' ' :: words := by simp [hslash]
  have hopener : Text.cut? opener (' ' :: '*' :: ' ' :: words) = none :=
    Text.cut?_eq_none (Text.not_infix_of_not_mem (by decide) hfree)
  have hcloser : Text.cut? closer (' ' :: '*' :: ' ' :: words) = none :=
    Text.cut?_eq_none (Text.not_infix_of_not_mem (by decide) hfree)
  have hstar : Text.trim (' ' :: '*' :: ' ' :: words) = '*' :: ' ' :: words := by
    rw [← List.singleton_append, Text.trim_blank_append Text.space_blank]
    refine Text.trim_eq_self (by simp; decide) fun c hc => ?_
    obtain ⟨d, hd, hvisible⟩ := Text.visible_of_trim htrim hne
    rw [List.getLast?_cons_of_ne_nil (by simp), List.getLast?_cons_of_ne_nil hne, hd] at hc
    rwa [← Option.some.inj hc]
  unfold content afterOpener beforeCloser
  rw [hopener]
  dsimp only
  rw [hcloser]
  dsimp only
  rw [hstar]
  show Text.trim ([' '] ++ words) = words
  rw [Text.trim_blank_append Text.space_blank, htrim]

/-- Without an at sign there is no tag. -/
theorem findTagFrom?_eq_none {inner : List Char} (h : '@' ∉ inner) (atStart : Bool) :
    findTagFrom? atStart inner = none := by
  induction inner generalizing atStart with
  | nil => rfl
  | cons c rest ih =>
    rw [List.mem_cons, not_or] at h
    have hc : c ≠ '@' := Ne.symm h.1
    simp [findTagFrom?, hc, ih h.2]

end DocComment

/-! ## Reading some lines -/

namespace Reading

open DocComment (opener closer)

/-- `Reads file number reading lines items later`: the lines of `file` from number `number` on, read with
what `reading` carries, have the items `items` and leave `later` to be carried on. -/
structure Reads (file : Path) (number : Nat) (reading : Reading) (lines : List (List Char))
    (items : List SourceItem) (later : Reading) : Prop where
  items_eq : reading.items file number lines = items
  after_eq : reading.after file number lines = later

variable {file : Path} {number : Nat} {reading middle later : Reading} {line : List Char}
  {above below : List (List Char)} {items more : List SourceItem}

theorem Reads.nil : Reads file number reading [] [] reading :=
  ⟨rfl, rfl⟩

theorem Reads.single {item : Option SourceItem}
    (h : reading.line file number line = (later, item)) :
    Reads file number reading [line] item.toList later where
  items_eq := by rw [items_cons, h]; exact List.append_nil _
  after_eq := congrArg Prod.fst h

/-- **Two readings, one after the other.**  The second starts with the number and the state that the
first one leaves. -/
theorem Reads.append (h : Reads file number reading above items middle)
    (h' : Reads file (number + above.length) middle below more later) :
    Reads file number reading (above ++ below) (items ++ more) later where
  items_eq := by rw [items_append, h.items_eq, h.after_eq, h'.items_eq]
  after_eq := by rw [after_append, h.after_eq, h'.after_eq]

/-! ### Lines of code -/

theorem Tracked.append (h : Tracked line) (hlength : requireMark.length ≤ line.length)
    (rest : List Char) : Tracked (line ++ rest) := by
  refine ⟨?_, fun hstarts => h.2 ?_⟩
  · have hblank : line.all Text.isBlank = false := h.1
    rw [Text.isBlankText, List.all_append, hblank, Bool.false_and]
  · exact List.prefix_of_prefix_length_le hstarts (List.prefix_append line rest) hlength

/-- Outside of comments, a line without an opener is code. -/
theorem line_code (hopen : reading.openComment = none) (h : Tracked line)
    (hopener : ¬ opener <:+: line) (file : Path) (number : Nat) :
    reading.line file number line =
      ({ reading with exportMarked := exportMark.isPrefixOf line },
        (Header.find? line).map fun header => .function (reading.declare file number header)) := by
  have hcode : reading.comment line = (reading, { before := line }) := by
    unfold comment
    rw [hopen, Text.cut?_eq_none hopener]
  have hheader : header? { before := line } = Header.find? line := by
    cases hfound : Header.find? line <;> rw [header?, hfound] <;> rfl
  rw [line_tracked h, hcode, hheader]

/-- A line of code that says nothing: it is no mark, and it holds neither the letter that headers start
with nor the slash of comments. -/
def Idle (line : List Char) : Prop :=
  Tracked line ∧ ¬ exportMark <+: line ∧ 'd' ∉ line ∧ '/' ∉ line

instance (line : List Char) : Decidable (Idle line) :=
  inferInstanceAs (Decidable (_ ∧ _))

theorem Idle.append (h : Idle line) (hlength : requireMark.length ≤ line.length) (rest : List Char)
    (hrest : 'd' ∉ rest ∧ '/' ∉ rest) : Idle (line ++ rest) := by
  obtain ⟨htracked, hmark, hd, hslash⟩ := h
  have hshort : exportMark.length ≤ line.length :=
    Nat.le_trans (by decide : exportMark.length ≤ requireMark.length) hlength
  refine ⟨htracked.append hlength rest, fun hstarts => hmark ?_, ?_, ?_⟩
  · exact List.prefix_of_prefix_length_le hstarts (List.prefix_append line rest) hshort
  · simp [hd, hrest.1]
  · simp [hslash, hrest.2]

theorem line_idle (hopen : reading.openComment = none) (h : Idle line) (file : Path) (number : Nat) :
    reading.line file number line = ({ reading with exportMarked := false }, none) := by
  obtain ⟨htracked, hmark, hd, hslash⟩ := h
  have hopener : ¬ opener <:+: line := Text.not_infix_of_not_mem (by decide) hslash
  have hnone : exportMark.isPrefixOf line = false := by
    rw [← Bool.not_eq_true, List.isPrefixOf_iff_prefix]
    exact hmark
  rw [line_code hopen htracked hopener, hnone, Header.find?_eq_none hd]
  rfl

theorem reads_idle {lines : List (List Char)} (hopen : reading.openComment = none)
    (hmark : reading.exportMarked = false) (h : ∀ line ∈ lines, Idle line) :
    Reads file number reading lines [] reading := by
  have hsame : { reading with exportMarked := false } = reading := by
    rw [← hmark]
  induction lines generalizing number with
  | nil => exact .nil
  | cons line rest ih =>
    rw [List.forall_mem_cons] at h
    have hline := line_idle hopen h.1 file number
    rw [hsame] at hline
    exact (Reads.single hline).append (ih h.2)

/-- A directive, with nothing to trim behind it. -/
theorem line_directive {module : List Char} (htrim : Text.trim module = module) (hne : module ≠ [])
    (reading : Reading) (file : Path) (number : Nat) :
    reading.line file number (requireMark ++ module) =
      ({ reading with exportMarked := false }, some (.require (String.ofList module) number)) := by
  have hblank : Text.isBlankText (requireMark ++ module) = false := by
    have hmark : requireMark.all Text.isBlank = false := by decide
    rw [Text.isBlankText, List.all_append, hmark, Bool.false_and]
  have hrest : Text.afterPrefix? requireMark (requireMark ++ module) = some module := by
    have hstarts := List.isPrefixOf_iff_prefix.mpr (List.prefix_append requireMark module)
    rw [Text.afterPrefix?, if_pos hstarts, List.drop_left]
  unfold Reading.line
  rw [if_neg (by simp [hblank]), hrest]
  dsimp only
  rw [htrim, if_neg hne]

/-! ### Lines of a comment -/

/-- The first words of a comment, on a line with a star before them. -/
theorem line_words {words : List Char} (htrim : Text.trim words = words) (hne : words ≠ [])
    (hslash : '/' ∉ words) (hat : '@' ∉ words) (file : Path) (number : Nat) :
    ({ openComment := some [] } : Reading).line file number (' ' :: '*' :: ' ' :: words) =
      ({ openComment := some words }, none) := by
  have htracked : Tracked (' ' :: '*' :: ' ' :: words) :=
    ⟨rfl, fun hrequire => absurd (List.cons_prefix_cons.mp hrequire).1 (by decide)⟩
  have hfree : '/' ∉ ' ' :: '*' :: ' ' :: words := by simp [hslash]
  have hcloser : ¬ closer <:+: ' ' :: '*' :: ' ' :: words :=
    Text.not_infix_of_not_mem (by decide) hfree
  have hpush : DocComment.push [] (' ' :: '*' :: ' ' :: words) = words := by
    have htag : DocComment.findTag? words = none := DocComment.findTagFrom?_eq_none hat true
    unfold DocComment.push
    rw [DocComment.content_words htrim hne hslash]
    cases words with
    | nil => exact absurd rfl hne
    | cons c rest => simp [htag]
  rw [line_tracked htracked]
  unfold comment
  dsimp only
  rw [inComment, Text.cutLast?_eq_none hcloser, hpush]
  rfl

end Reading

/-! ## The lines of a generated file -/

namespace SampleWorkspace

/-- The parts of an interpolated text that are texts stand for themselves. -/
theorem toString_text (s : String) : toString s = s :=
  rfl

/-- A numeral is made of digits. -/
theorem not_mem_numeral {c : Char} (hc : c.isDigit = false) (n : Nat) : c ∉ Nat.toDigits 10 n := by
  intro hmem
  rw [Nat.isDigit_of_mem_toDigits (by decide) (by decide) hmem] at hc
  cases hc

theorem visible_of_mem_numeral {c : Char} {n : Nat} (hc : c ∈ Nat.toDigits 10 n) :
    Text.isBlank c = false := by
  have hdigit := Nat.isDigit_of_mem_toDigits (by decide) (by decide) hc
  apply DocComment.not_blank_of_isChar
  show (c.isAlpha || c.isDigit || decide (c = '_')) = true
  rw [hdigit]
  simp

/-- The header of a function. -/
def header (index k : Nat) : String :=
  s!"def func_{index}_{k}(x: int, y: float)"

/-- The directive of a file, with a blank line, if it requires its successor. -/
def directiveLines (sample : SampleWorkspace) (index : Nat) : List (List Char) :=
  if sample.chains index then [s!"require file_{index + 1}".toList, []] else []

/-- The comment of a function. -/
def commentLines (index k : Nat) : List (List Char) :=
  ["/**".toList, s!" * Function {k} of file {index}".toList, " * @param x first operand".toList,
    " */".toList]

/-- The mark of an exported function. -/
def markLines (k : Nat) : List (List Char) :=
  if k % 2 = 0 then ["[export]".toList] else []

/-- What follows the header of a function, up to the blank line behind it. -/
def bodyLines (k : Nat) : List (List Char) :=
  [s!"    let result = x + int(y) * {k + 1}".toList, "    return result".toList, []]

/-- One function, with its documentation and a blank line. -/
def functionLines (index k : Nat) : List (List Char) :=
  commentLines index k ++ (markLines k ++ ((header index k).toList :: bodyLines k))

/-- The lines that declare nothing. -/
def extraLines (sample : SampleWorkspace) (index : Nat) : List (List Char) :=
  (List.range sample.extra).map fun k => s!"var var_{index}_{k} = {k + 1}".toList

/-- All lines of a file. -/
def textLines (sample : SampleWorkspace) (index : Nat) : List (List Char) :=
  sample.directiveLines index ++
    ((List.range sample.functions).flatMap (functionLines index) ++ sample.extraLines index)

theorem toList_directive (sample : SampleWorkspace) (index : Nat) :
    (sample.directive index).toList = Text.unlines (sample.directiveLines index) := by
  unfold directive directiveLines
  split
  · simp [Text.unlines, toString_text]
  · rfl

theorem toList_function (index k : Nat) :
    (function index k).toList = Text.unlines (functionLines index k) := by
  unfold function functionLines markLines
  split <;> simp [Text.unlines, commentLines, header, bodyLines, toString_text]

theorem toList_extraLine (index k : Nat) :
    (extraLine index k).toList = s!"var var_{index}_{k} = {k + 1}".toList ++ ['\n'] := by
  simp [extraLine, toString_text]

/-- **The text of a generated file** is made of these lines. -/
theorem toList_text (sample : SampleWorkspace) (index : Nat) :
    (sample.text index).toList = Text.unlines (sample.textLines index) := by
  have hfunctions : (String.join ((List.range sample.functions).map (function index))).toList =
      Text.unlines ((List.range sample.functions).flatMap (functionLines index)) := by
    rw [String.toList_join, List.flatMap_map, Text.unlines, List.flatMap_assoc]
    simp only [toList_function, Text.unlines]
  have hextra : (String.join ((List.range sample.extra).map (extraLine index))).toList =
      Text.unlines (sample.extraLines index) := by
    rw [String.toList_join, List.flatMap_map, Text.unlines, extraLines, List.flatMap_map]
    simp only [toList_extraLine]
  unfold text textLines
  rw [String.toList_append, String.toList_append, toList_directive, hfunctions, hextra,
    Text.unlines_append, Text.unlines_append, List.append_assoc]

theorem unbroken_functionLines (index k : Nat) : ∀ l ∈ functionLines index k, Text.Unbroken l := by
  have hfeed : ∀ n, '\n' ∉ Nat.toDigits 10 n := not_mem_numeral (by decide)
  have hreturn : ∀ n, '\r' ∉ Nat.toDigits 10 n := not_mem_numeral (by decide)
  have hcomment : ∀ l ∈ commentLines index k, Text.Unbroken l := by
    simp [commentLines, Text.Unbroken, toString_text, hfeed, hreturn]
  have hmark : ∀ l ∈ markLines k, Text.Unbroken l := by
    unfold markLines
    split <;> simp [Text.Unbroken]
  have hheader : Text.Unbroken (header index k).toList := by
    simp [header, Text.Unbroken, toString_text, hfeed, hreturn]
  have hbody : ∀ l ∈ bodyLines k, Text.Unbroken l := by
    simp [bodyLines, Text.Unbroken, toString_text, hfeed, hreturn]
  rw [functionLines, List.forall_mem_append, List.forall_mem_append, List.forall_mem_cons]
  exact ⟨hcomment, hmark, hheader, hbody⟩

theorem unbroken_textLines (sample : SampleWorkspace) (index : Nat) :
    ∀ l ∈ sample.textLines index, Text.Unbroken l := by
  have hfeed : ∀ n, '\n' ∉ Nat.toDigits 10 n := not_mem_numeral (by decide)
  have hreturn : ∀ n, '\r' ∉ Nat.toDigits 10 n := not_mem_numeral (by decide)
  have hdirective : ∀ l ∈ sample.directiveLines index, Text.Unbroken l := by
    unfold directiveLines
    split <;> simp [Text.Unbroken, toString_text, hfeed, hreturn]
  have hextra : ∀ l ∈ sample.extraLines index, Text.Unbroken l := by
    simp [extraLines, Text.Unbroken, toString_text, hfeed, hreturn]
  rw [textLines, List.forall_mem_append, List.forall_mem_append]
  refine ⟨hdirective, fun l hl => ?_, hextra⟩
  obtain ⟨k, -, hl⟩ := List.mem_flatMap.mp hl
  exact unbroken_functionLines index k l hl

theorem lines_text (sample : SampleWorkspace) (index : Nat) :
    Text.lines (sample.text index).toList = sample.textLines index := by
  rw [toList_text, Text.lines_unlines (sample.unbroken_textLines index)]

/-! ## What is read of it -/

/-- The documentation of a function, as it is shown. -/
def documentation (index k : Nat) : String :=
  s!"Function {k} of file {index}  \n_@param_ x first operand"

/-- A function of a generated file, with all that its block says about it. -/
def declaration (file : Path) (index k line : Nat) (exported : Bool) : Declaration where
  name := s!"func_{index}_{k}"
  parameters := [⟨"x", some "int"⟩, ⟨"y", some "float"⟩]
  exported := exported
  file := file
  line := line
  doc := documentation index k

open Reading (Reads Idle Tracked)

variable (file : Path) (number : Nat)

/-- A text that ends in a numeral ends in something visible. -/
theorem visible_of_numeral_end {front : List Char} {n : Nat} {c : Char}
    (hc : c ∈ (front ++ Nat.toDigits 10 n).getLast?) : Text.isBlank c = false := by
  rw [List.getLast?_append_of_ne_nil _ Nat.toDigits_ne_nil] at hc
  exact visible_of_mem_numeral (List.mem_of_getLast? hc)

/-- **The comment** of a function leaves its documentation. -/
theorem reads_comment (index k : Nat) :
    Reads file number {} (commentLines index k) []
      { lastComment := some (documentation index k) } := by
  let words := "Function ".toList ++ Nat.toDigits 10 k ++ " of file ".toList ++ Nat.toDigits 10 index
  have hslash : ∀ n, '/' ∉ Nat.toDigits 10 n := not_mem_numeral (by decide)
  have hat : ∀ n, '@' ∉ Nat.toDigits 10 n := not_mem_numeral (by decide)
  have hline : s!" * Function {k} of file {index}".toList = ' ' :: '*' :: ' ' :: words := by
    simp [words, toString_text]
  have htrim : Text.trim words = words :=
    Text.trim_eq_self (by simp [words]; decide) fun c hc => visible_of_numeral_end hc
  have hwords : ({ openComment := some [] } : Reading).line file (number + 1)
      s!" * Function {k} of file {index}".toList = ({ openComment := some words }, none) := by
    rw [hline]
    exact Reading.line_words htrim (by simp [words]) (by simp [words, hslash]) (by simp [words, hat]) _ _
  let paragraph := words ++ DocComment.hardBreak ++ [] ++ ['_'] ++ "@param".toList ++ ['_'] ++
    " x first operand".toList
  have hdoc : DocComment.finish paragraph = documentation index k := by
    have hends : Text.trim paragraph = paragraph :=
      Text.trim_eq_self (by simp [paragraph, words]; decide) (by simp [paragraph]; decide)
    apply String.toList_injective
    rw [DocComment.finish, hends, String.toList_ofList]
    simp [paragraph, words, DocComment.hardBreak, documentation, toString_text]
  rw [← hdoc]
  have hopened : Reads file number {} ["/**".toList] [] { openComment := some [] } := .single rfl
  have hgathered : Reads file (number + 2) { openComment := some words }
      [" * @param x first operand".toList] [] { openComment := some paragraph } := .single rfl
  have hclosed : Reads file (number + 3) { openComment := some paragraph } [" */".toList] []
      { lastComment := some (DocComment.finish paragraph) } := .single rfl
  exact hopened.append ((Reads.single hwords).append (hgathered.append hclosed))

theorem signature_declaration (index k line : Nat) (exported : Bool) :
    (declaration file index k line exported).signature = s!"func_{index}_{k}(x: int, y: float)" := by
  have hlabels : Header.labels [⟨"x", some "int"⟩, ⟨"y", some "float"⟩] = "x: int, y: float".toList := by
    decide
  apply String.toList_injective
  rw [Declaration.toList_signature]
  simp [declaration, hlabels, toString_text]

/-- It is a function that a header can declare. -/
theorem plain_declaration (index k line : Nat) (exported : Bool) :
    (declaration file index k line exported).Plain := by
  have hname : (declaration file index k line exported).name.toList =
      "func_".toList ++ Nat.toDigits 10 index ++ ['_'] ++ Nat.toDigits 10 k := by
    simp [declaration, toString_text]
  have hopen : ∀ n, '(' ∉ Nat.toDigits 10 n := not_mem_numeral (by decide)
  have hfeed : ∀ n, '\n' ∉ Nat.toDigits 10 n := not_mem_numeral (by decide)
  have hx : Header.parameter? "x: int".toList = some ⟨"x", some "int"⟩ := by decide
  have hy : Header.parameter? " y: float".toList = some ⟨"y", some "float"⟩ := by decide
  refine ⟨⟨'f', by rw [hname]; simp, by decide⟩, ?_, ?_, ?_, ?_⟩
  · rw [hname]
    exact Text.trim_eq_self (by simp; decide) fun c hc => visible_of_numeral_end hc
  · rw [hname]
    simp [hopen]
  · rw [hname]
    simp [hfeed]
  · exact List.forall_mem_cons.mpr ⟨Header.plain_of_parameter? hx (by simp),
      List.forall_mem_singleton.mpr (Header.plain_of_parameter? hy (by simp))⟩

theorem header_eq (index k line : Nat) (exported : Bool) : (header index k).toList =
    Header.keyword ++ (declaration file index k line exported).signature.toList := by
  rw [signature_declaration]
  simp [header, Header.keyword, toString_text]

/-- **The header** is read as the function. -/
theorem reads_header (index k : Nat) (exported : Bool) :
    Reads file number { exportMarked := exported, lastComment := some (documentation index k) }
      [(header index k).toList] [.function (declaration file index k number exported)]
      { lastComment := some (documentation index k) } := by
  let d := declaration file index k number exported
  let reading : Reading := { exportMarked := exported, lastComment := some (documentation index k) }
  have hd : d.Plain := plain_declaration file index k number exported
  have hcode : (header index k).toList = Header.keyword ++ d.signature.toList :=
    header_eq file index k number exported
  have htracked : Tracked (header index k).toList := by
    have hfront : Tracked "def func_".toList := by decide
    have happend := hfront.append (by decide)
      (Nat.toDigits 10 index ++ '_' :: (Nat.toDigits 10 k ++ "(x: int, y: float)".toList))
    simpa [header, toString_text] using happend
  have hslash : ∀ n, '/' ∉ Nat.toDigits 10 n := not_mem_numeral (by decide)
  have hfree : '/' ∉ (header index k).toList := by simp [header, toString_text, hslash]
  have hopener : ¬ DocComment.opener <:+: (header index k).toList :=
    Text.not_infix_of_not_mem (by decide) hfree
  have hunmarked : Reading.exportMark.isPrefixOf (header index k).toList = false := by
    rw [hcode]
    rfl
  have hdeclared : reading.declare file number ⟨d.name.toList, Header.labels d.parameters⟩ = d := by
    have hlabels := Header.parameters_labels hd.parameters (List.forall_mem_nil _) d.name.toList
    unfold Reading.declare
    rw [← List.nil_append (Header.labels d.parameters), hlabels, String.ofList_toList]
    rfl
  have hline := Reading.line_code (rfl : reading.openComment = none) htracked hopener file number
  rw [hunmarked, hcode, Header.find?_signature hd, Option.map_some, hdeclared, ← hcode] at hline
  exact Reads.single hline

/-- **The body** declares nothing, and the blank line behind it lets nothing through. -/
theorem reads_body (k : Nat) (doc : String) :
    Reads file number { lastComment := some doc } (bodyLines k) [] {} := by
  have hd : ∀ n, 'd' ∉ Nat.toDigits 10 n := not_mem_numeral (by decide)
  have hslash : ∀ n, '/' ∉ Nat.toDigits 10 n := not_mem_numeral (by decide)
  have hidle : Idle s!"    let result = x + int(y) * {k + 1}".toList := by
    have hfront : Idle "    let result = x + int(y) * ".toList := by decide
    have happend := hfront.append (by decide) _ ⟨hd (k + 1), hslash (k + 1)⟩
    simpa [toString_text] using happend
  have hcode : Reads file number { lastComment := some doc }
      [s!"    let result = x + int(y) * {k + 1}".toList, "    return result".toList] []
      { lastComment := some doc } :=
    Reading.reads_idle rfl rfl (List.forall_mem_cons.mpr ⟨hidle, List.forall_mem_singleton.mpr (by decide)⟩)
  have hblank : Reads file (number + 2) { lastComment := some doc } [[]] [] {} := .single rfl
  exact hcode.append hblank

/-- How many lines of the block of a function stand above its header. -/
def aboveHeader (k : Nat) : Nat :=
  4 + if k % 2 = 0 then 1 else 0

theorem aboveHeader_eq (index k : Nat) :
    (commentLines index k).length + (markLines k).length = aboveHeader k := by
  unfold markLines aboveHeader
  split <;> rfl

/-- **One function**, read from the state that it leaves behind. -/
theorem reads_function (index k : Nat) :
    Reads file number {} (functionLines index k)
      [.function (declaration file index k (number + aboveHeader k) (k % 2 = 0))] {} := by
  have hmark : ∀ number, Reads file number { lastComment := some (documentation index k) } (markLines k)
      [] { exportMarked := k % 2 = 0, lastComment := some (documentation index k) } := by
    intro number
    unfold markLines
    split
    · next heven =>
      rw [decide_eq_true heven]
      exact .single rfl
    · next hodd =>
      rw [decide_eq_false hodd]
      exact .nil
  rw [← aboveHeader_eq index, ← Nat.add_assoc]
  exact (reads_comment file number index k).append
    ((hmark _).append ((reads_header file _ index k _).append (reads_body file _ k _)))

/-- How many lines the first functions of a file take. -/
theorem length_functionLines (index m : Nat) :
    ((List.range m).flatMap (functionLines index)).length = 8 * m + (m + 1) / 2 := by
  have hlength : ∀ k, (functionLines index k).length = 8 + if k % 2 = 0 then 1 else 0 := by
    intro k
    unfold functionLines markLines
    split <;> rfl
  induction m with
  | zero => rfl
  | succ m ih =>
    rw [List.range_succ, List.flatMap_append, List.length_append, ih, List.flatMap_singleton, hlength]
    split <;> omega

/-- The number of a header among the lines of the functions of its file. -/
def headerOffset (k : Nat) : Nat :=
  8 * k + k / 2 + 5

theorem headerOffset_eq (index k : Nat) :
    ((List.range k).flatMap (functionLines index)).length + aboveHeader k = headerOffset k := by
  rw [length_functionLines, aboveHeader, headerOffset]
  split <;> omega

theorem reads_functions (index m : Nat) :
    Reads file number {} ((List.range m).flatMap (functionLines index))
      ((List.range m).map fun k =>
        .function (declaration file index k (number + headerOffset k) (k % 2 = 0))) {} := by
  induction m with
  | zero => exact .nil
  | succ m ih =>
    have hnext := reads_function file
      (number + ((List.range m).flatMap (functionLines index)).length) index m
    rw [Nat.add_assoc, headerOffset_eq] at hnext
    rw [List.range_succ, List.flatMap_append, List.map_append, List.flatMap_singleton]
    exact ih.append hnext

/-- The module that stands for a generated file. -/
def module (index : Nat) : String :=
  s!"file_{index}"

theorem toList_module (index : Nat) :
    (module index).toList = "file_".toList ++ Nat.toDigits 10 index := by
  simp [module, toString_text]

/-- The directive of a file, if it requires its successor. -/
def directiveItems (sample : SampleWorkspace) (index : Nat) : List SourceItem :=
  if sample.chains index then [.require (module (index + 1)) 0] else []

theorem reads_directive (sample : SampleWorkspace) (index : Nat) :
    Reads file 0 {} (sample.directiveLines index) (sample.directiveItems index) {} := by
  unfold directiveLines directiveItems
  split
  · have htrim : Text.trim (module (index + 1)).toList = (module (index + 1)).toList := by
      rw [toList_module]
      exact Text.trim_eq_self (by simp; decide) fun c hc => visible_of_numeral_end hc
    have hline := Reading.line_directive htrim (by simp [toList_module]) {} file 0
    rw [String.ofList_toList] at hline
    have htext : s!"require file_{index + 1}".toList =
        Reading.requireMark ++ (module (index + 1)).toList := by
      have hmark : Reading.requireMark = "require ".toList := rfl
      rw [hmark, toList_module]
      simp [toString_text]
    rw [htext]
    have hblank : Reads file 1 {} [[]] [] {} := .single rfl
    exact (Reads.single hline).append hblank
  · exact .nil

theorem reads_extra (sample : SampleWorkspace) (index : Nat) :
    Reads file number {} (sample.extraLines index) [] {} := by
  have hd : ∀ n, 'd' ∉ Nat.toDigits 10 n := not_mem_numeral (by decide)
  have hslash : ∀ n, '/' ∉ Nat.toDigits 10 n := not_mem_numeral (by decide)
  have hfront : Idle "var var_".toList := by decide
  refine Reading.reads_idle rfl rfl fun line hline => ?_
  obtain ⟨k, -, rfl⟩ := List.mem_map.mp hline
  have happend := hfront.append (by decide)
    (Nat.toDigits 10 index ++ '_' :: (Nat.toDigits 10 k ++ " = ".toList ++ Nat.toDigits 10 (k + 1)))
    (by simp [hd, hslash])
  simpa [toString_text] using happend

theorem length_directiveLines (sample : SampleWorkspace) (index : Nat) :
    (sample.directiveLines index).length = if sample.chains index then 2 else 0 := by
  unfold directiveLines
  split <;> rfl

/-- The number of a header among all lines of its file. -/
def headerLine (sample : SampleWorkspace) (index k : Nat) : Nat :=
  (if sample.chains index then 2 else 0) + headerOffset k

/-- The functions that a file declares, with the numbers of their headers. -/
def ownFunctions (sample : SampleWorkspace) (file : Path) (index : Nat) : List Declaration :=
  (List.range sample.functions).map fun k =>
    declaration file index k (sample.headerLine index k) (k % 2 = 0)

/-- **The items of a generated file.** -/
theorem scan_text (sample : SampleWorkspace) (index : Nat) :
    SourceItem.scan file (sample.text index).toList =
      sample.directiveItems index ++ (sample.ownFunctions file index).map .function := by
  have hread := (reads_directive file sample index).append
    ((reads_functions file _ index sample.functions).append (reads_extra file _ sample index))
  rw [SourceItem.scan, lines_text, textLines, hread.items_eq, length_directiveLines, Nat.zero_add,
    List.append_nil, ownFunctions, List.map_map]
  rfl

/-- **Where the headers stand.** -/
theorem line_headerLine (sample : SampleWorkspace) (index : Nat) {k : Nat} (hk : k < sample.functions) :
    (Text.lines (sample.text index).toList)[sample.headerLine index k]? =
      some (header index k).toList := by
  obtain ⟨more, hmore⟩ := Nat.exists_eq_add_of_lt hk
  obtain ⟨later, hlater⟩ : ∃ later, List.range sample.functions = List.range k ++ k :: later := by
    rw [hmore, Nat.add_assoc, List.range_add, List.range_succ_eq_map, List.map_cons]
    exact ⟨_, rfl⟩
  let above := sample.directiveLines index ++ ((List.range k).flatMap (functionLines index) ++
    (commentLines index k ++ markLines k))
  have hlines : Text.lines (sample.text index).toList = above ++ (header index k).toList ::
      (bodyLines k ++ (later.flatMap (functionLines index) ++ sample.extraLines index)) := by
    rw [lines_text, textLines, hlater, List.flatMap_append, List.flatMap_cons]
    simp [above, functionLines]
  have habove : above.length = sample.headerLine index k := by
    simp only [above, List.length_append]
    rw [aboveHeader_eq, headerOffset_eq, length_directiveLines, headerLine]
  rw [hlines, ← habove]
  simp

end SampleWorkspace

end ScriptIndex
