import ScriptIndex.Proofs.Carrying
import ScriptIndex.Proofs.HeaderGrammar

/-!
# Signatures are headers

A signature is shown to a reader, not to the index.  It is a header all the same: behind the keyword it
is read as the very function it was made from, with the blanks of its types left out.  That rests on
what a header on one line can declare at all, whatever else stands on the line.

* `Text.trim_trim`, `Text.lineFeed_not_mem` — what trimming and cutting into lines leave;
* `Parameter.Plain`, `Declaration.Plain` — what a header can declare;
* `Header.of_parameter?`, `Header.plain_of_find?`, `SourceItem.plain_of_mem_scan` — nothing else is ever
  read;
* `Header.parameter?_label`, `Header.parameters_labels` — labels are read as their parameters;
* `Header.find?_signature`, `SourceItem.scan_signature` — and signatures as their functions.
-/

namespace ScriptIndex

namespace Text

/-! ## Trimmed texts -/

theorem trim_blank_append {blanks : List Char} (h : ∀ c ∈ blanks, isBlank c = true) (s : List Char) :
    trim (blanks ++ s) = trim s := by
  unfold trim stripEnds
  rw [List.dropWhile_append_of_pos h]

theorem not_mem_of_blank {blanks : List Char} (h : ∀ c ∈ blanks, isBlank c = true) {c : Char}
    (hc : isBlank c = false) : c ∉ blanks := by
  intro hmem
  rw [h c hmem] at hc
  cases hc

theorem space_blank : ∀ c ∈ [' '], isBlank c = true :=
  List.forall_mem_singleton.mpr (by decide)

/-- A text without blanks has nothing to trim. -/
theorem trim_of_visible {s : List Char} (h : ∀ c ∈ s, isBlank c = false) : trim s = s := by
  have hfront : s.dropWhile isBlank = s := by
    rw [List.dropWhile_eq_self_iff]
    intro hl
    simp [h _ (List.getElem_mem hl)]
  unfold trim stripEnds
  rw [hfront]
  refine List.rdropWhile_eq_self_iff.mpr ?_
  intro hne
  simp [h _ (List.getLast_mem hne)]

/-- What is trimmed stays as it is. -/
@[simp] theorem trim_trim (s : List Char) : trim (trim s) = trim s := by
  have hfront : (trim s).dropWhile isBlank = trim s := by
    rw [List.dropWhile_eq_self_iff]
    intro hl
    have hhead := List.head?_dropWhile_not isBlank s
    obtain ⟨tail, htail⟩ := List.rdropWhile_prefix isBlank (s.dropWhile isBlank)
    have hfirst : (s.dropWhile isBlank).head? = some ((trim s)[0]) := by
      rw [← htail, List.head?_append, List.head?_eq_getElem?]
      show ((trim s)[0]?).or _ = _
      rw [List.getElem?_eq_getElem hl, Option.some_or]
    rw [hfirst] at hhead
    simp [hhead]
  show dropEndWhile isBlank ((trim s).dropWhile isBlank) = trim s
  rw [hfront]
  exact List.rdropWhile_idempotent isBlank _

/-- Trimming takes away nothing that can be seen. -/
theorem mem_trim {s : List Char} {c : Char} (hc : c ∈ s) (hvisible : isBlank c = false) :
    c ∈ trim s := by
  have hfront : c ∈ s.dropWhile isBlank := by
    rw [← List.takeWhile_append_dropWhile (p := isBlank) (l := s), List.mem_append] at hc
    rcases hc with hc | hc
    · rw [List.mem_takeWhile_imp hc] at hvisible
      cases hvisible
    · exact hc
  obtain ⟨tail, hs, htail⟩ := exists_dropEndWhile_append isBlank (s.dropWhile isBlank)
  rw [hs, List.mem_append] at hfront
  rcases hfront with hin | hin
  · exact hin
  · rw [htail c hin] at hvisible
    cases hvisible

theorem trim_subset (s : List Char) : trim s ⊆ s := by
  intro c hc
  have hin : c ∈ s.dropWhile isBlank := (List.rdropWhile_prefix isBlank _).subset hc
  exact (List.dropWhile_suffix isBlank).subset hin

/-- There is no cut where the mark does not occur. -/
theorem cut?_eq_none {mark s : List Char} (h : ¬ mark <:+: s) : cut? mark s = none := by
  cases hcut : cut? mark s with
  | none => rfl
  | some sides => exact absurd ⟨_, _, (eq_of_cut? hcut).symm⟩ h

/-- No line holds a line feed. -/
theorem lineFeed_not_mem {text line : List Char} (h : line ∈ lines text) : '\n' ∉ line := by
  revert h
  refine lineFeed_induction (motive := fun text => line ∈ lines text → '\n' ∉ line) ?_ ?_ text
  · intro piece hfree h
    rw [lines_of_no_lineFeed hfree] at h
    split at h
    · cases h
    · rwa [List.mem_singleton.mp h]
  · intro piece rest hfree ih h
    rw [lines_append_lineFeed hfree] at h
    rcases List.mem_cons.mp h with rfl | h
    · intro hmem
      rcases eq_withoutReturn piece with hsame | hcut
      · exact hfree (hsame ▸ hmem)
      · rw [hcut] at hfree
        exact hfree (List.mem_append_left _ hmem)
    · exact ih h

theorem mem_intercalate {separator : List Char} {pieces : List (List Char)} {c : Char}
    (h : c ∈ separator.intercalate pieces) : c ∈ separator ∨ ∃ piece ∈ pieces, c ∈ piece := by
  induction pieces with
  | nil => simp at h
  | cons piece rest ih =>
    cases rest with
    | nil =>
      rw [List.intercalate_singleton] at h
      exact Or.inr ⟨piece, List.mem_singleton.mpr rfl, h⟩
    | cons next rest =>
      rw [List.intercalate_cons_cons, List.mem_append, List.mem_append] at h
      rcases h with (h | h) | h
      · exact Or.inr ⟨piece, List.mem_cons_self, h⟩
      · exact Or.inl h
      · rcases ih h with h | ⟨other, hother, h⟩
        · exact Or.inl h
        · exact Or.inr ⟨other, List.mem_cons_of_mem _ hother, h⟩

end Text

/-! ## What a header can declare -/

/-- A parameter as a header can declare it: there is a name, trimmed and without a colon, and nothing in
the label ends a parameter, the list of them, or a line. -/
structure Parameter.Plain (p : Parameter) : Prop where
  named : p.name.toList ≠ []
  trimmed : Text.trim p.name.toList = p.name.toList
  uncoloned : ':' ∉ p.name.toList
  apart : ∀ c ∈ [',', ')', '\n'], c ∉ p.label.toList

/-- A function as a header can declare it: there is a name that can be seen, trimmed, without an opening
parenthesis and on one line, and the parameters are as a header can declare them. -/
structure Declaration.Plain (d : Declaration) : Prop where
  visible : ∃ c ∈ d.name.toList, Text.isBlank c = false
  trimmed : Text.trim d.name.toList = d.name.toList
  unopened : '(' ∉ d.name.toList
  unbroken : '\n' ∉ d.name.toList
  parameters : ∀ p ∈ d.parameters, p.Plain

/-- A parameter with the blanks of its type left out. -/
def Parameter.compact (p : Parameter) : Parameter :=
  { p with type := p.type.map fun type =>
      String.ofList (type.toList.filter fun c => !Text.isBlank c) }

/-- The label leaves these blanks out anyway. -/
@[simp] theorem Parameter.label_compact (p : Parameter) : p.compact.label = p.label := by
  obtain ⟨name, _ | type⟩ := p
  · rfl
  · simp [compact, label]

theorem Parameter.toList_label_typed (name type : String) :
    (Parameter.mk name (some type)).label.toList =
      name.toList ++ ':' :: ' ' :: type.toList.filter fun c => !Text.isBlank c := by
  simp [label]

namespace Header

variable {name type piece : List Char} {p : Parameter}

theorem parameter?_untyped (h : ':' ∉ piece) :
    parameter? piece =
      if Text.trim piece = [] then none else some ⟨String.ofList (Text.trim piece), none⟩ := by
  have hcut : Text.cut? [':'] piece = none := by
    refine Text.cut?_eq_none fun hin => h ?_
    exact hin.subset (List.mem_singleton.mpr rfl)
  unfold parameter?
  rw [hcut]

theorem parameter?_typed (h : ':' ∉ name) :
    parameter? (name ++ ':' :: type) =
      if Text.trim name = [] then none
      else some ⟨String.ofList (Text.trim name), some (String.ofList (Text.trim type))⟩ := by
  unfold parameter?
  rw [Text.cut?_char h]

/-- **What a piece can declare.**  The name is a trimmed part of it without a colon, and the label has no
character that the piece has not, but for the blank behind the colon. -/
theorem of_parameter? (h : parameter? piece = some p) :
    ∃ name, ':' ∉ name ∧ Text.trim name ≠ [] ∧ p.name.toList = Text.trim name ∧
      p.label.toList ⊆ ' ' :: piece := by
  by_cases hcolon : ':' ∈ piece
  · obtain ⟨name, type, rfl, hname⟩ := List.eq_append_cons_of_mem hcolon
    rw [parameter?_typed hname] at h
    split at h
    · cases h
    · next hne =>
      obtain rfl := Option.some.inj h
      refine ⟨name, hname, hne, String.toList_ofList, ?_⟩
      have hleft := Text.trim_subset name
      have hright : (Text.trim type).filter (fun c => !Text.isBlank c) ⊆ type :=
        fun c hc => Text.trim_subset type (List.mem_of_mem_filter hc)
      rw [Parameter.toList_label_typed, String.toList_ofList, String.toList_ofList]
      grind
  · rw [parameter?_untyped hcolon] at h
    split at h
    · cases h
    · next hne =>
      obtain rfl := Option.some.inj h
      refine ⟨piece, hcolon, hne, String.toList_ofList, ?_⟩
      rw [Parameter.label, String.toList_ofList]
      exact List.subset_cons_of_subset _ (Text.trim_subset piece)

theorem plain_of_parameter? (h : parameter? piece = some p)
    (hpiece : ∀ c ∈ [',', ')', '\n'], c ∉ piece) : p.Plain := by
  obtain ⟨name, huncoloned, hne, hname, hlabel⟩ := of_parameter? h
  refine ⟨hname ▸ hne, by rw [hname, Text.trim_trim], ?_, ?_⟩
  · rw [hname]
    exact fun hmem => huncoloned (Text.trim_subset _ hmem)
  · intro c hc hmem
    rcases List.mem_cons.mp (hlabel hmem) with rfl | hin
    · revert hc
      decide
    · exact hpiece c hc hin

/-! ## Labels are read as their parameters -/

/-- **One label**, with blanks before it. -/
theorem parameter?_label (h : p.Plain) {blanks : List Char}
    (hblanks : ∀ c ∈ blanks, Text.isBlank c = true) :
    parameter? (blanks ++ p.label.toList) = some p.compact := by
  have hname : Text.trim (blanks ++ p.name.toList) = p.name.toList := by
    rw [Text.trim_blank_append hblanks, h.trimmed]
  have huncoloned : ':' ∉ blanks ++ p.name.toList := by
    rw [List.mem_append, not_or]
    exact ⟨Text.not_mem_of_blank hblanks (by decide), h.uncoloned⟩
  obtain ⟨name, _ | type⟩ := p
  · rw [Parameter.label, parameter?_untyped huncoloned, hname, if_neg h.named, String.ofList_toList]
    rfl
  · have hcompact : ∀ c ∈ type.toList.filter (fun c => !Text.isBlank c), Text.isBlank c = false := by
      intro c hc
      simpa using List.of_mem_filter hc
    have htype : Text.trim (' ' :: type.toList.filter fun c => !Text.isBlank c) =
        type.toList.filter fun c => !Text.isBlank c := by
      rw [← List.singleton_append, Text.trim_blank_append Text.space_blank, Text.trim_of_visible hcompact]
    rw [Parameter.toList_label_typed, ← List.append_assoc, parameter?_typed huncoloned, hname,
      if_neg h.named, htype, String.ofList_toList]
    rfl

/-- The labels of some parameters, with a comma and a blank between them. -/
def labels (list : List Parameter) : List Char :=
  [',', ' '].intercalate (list.map fun p => p.label.toList)

theorem labels_singleton (p : Parameter) : labels [p] = p.label.toList := by
  rw [labels, List.map_singleton, List.intercalate_singleton]

theorem labels_cons_cons (p q : Parameter) (rest : List Parameter) :
    labels (p :: q :: rest) = p.label.toList ++ ',' :: ([' '] ++ labels (q :: rest)) := by
  simp [labels, List.intercalate_cons_cons]

/-- **All labels**, with blanks before them.  Between two labels the comma divides, and the blank behind
it stands before the next one. -/
theorem parameters_labels {list : List Parameter} (h : ∀ p ∈ list, p.Plain) {blanks : List Char}
    (hblanks : ∀ c ∈ blanks, Text.isBlank c = true) (name : List Char) :
    parameters ⟨name, blanks ++ labels list⟩ = list.map Parameter.compact := by
  show ((blanks ++ labels list).splitOn ',').filterMap parameter? = _
  induction list generalizing blanks with
  | nil =>
    have hcolon : ':' ∉ blanks := Text.not_mem_of_blank hblanks (by decide)
    have hcomma : ',' ∉ blanks := Text.not_mem_of_blank hblanks (by decide)
    have htrim : Text.trim blanks = [] := by
      have hnil := Text.trim_blank_append hblanks []
      rwa [List.append_nil] at hnil
    have hnone : parameter? blanks = none := by
      rw [parameter?_untyped hcolon, if_pos htrim]
    have hlabels : labels [] = [] := rfl
    rw [hlabels, List.append_nil, List.splitOn_eq_singleton hcomma,
      List.filterMap_cons_none hnone]
    rfl
  | cons p rest ih =>
    have hp := h p List.mem_cons_self
    have hrest : ∀ q ∈ rest, q.Plain := fun q hq => h q (List.mem_cons_of_mem _ hq)
    have hlabel : ',' ∉ blanks ++ p.label.toList := by
      rw [List.mem_append, not_or]
      exact ⟨Text.not_mem_of_blank hblanks (by decide), hp.apart _ (by simp)⟩
    have hread := parameter?_label hp hblanks
    cases rest with
    | nil =>
      rw [labels_singleton, List.splitOn_eq_singleton hlabel, List.filterMap_cons_some hread]
      rfl
    | cons q rest =>
      rw [labels_cons_cons, ← List.append_assoc, List.splitOn_append_cons_self_of_not_mem hlabel,
        List.filterMap_cons_some hread, ih hrest Text.space_blank]
      rfl

/-- What no label holds is not among the labels, but for what stands between them. -/
theorem not_mem_labels {list : List Parameter} {c : Char} (h : ∀ p ∈ list, c ∉ p.label.toList)
    (hc : c ∉ [',', ' ']) : c ∉ labels list := by
  intro hmem
  rcases Text.mem_intercalate hmem with hin | ⟨label, hlabel, hin⟩
  · exact hc hin
  · obtain ⟨p, hp, rfl⟩ := List.mem_map.mp hlabel
    exact h p hp hin

end Header

/-! ## Signatures are read as their functions -/

theorem Declaration.toList_signature (d : Declaration) :
    d.signature.toList = d.name.toList ++ '(' :: (Header.labels d.parameters ++ [')']) := by
  simp [signature, Header.labels, Function.comp_def]

namespace Header

/-- A header with nothing before it is the one that is found. -/
theorem find?_of_split {code name arguments after : List Char}
    (h : Split none code [] name arguments after) :
    find? code = some ⟨Text.trim name, arguments⟩ := by
  unfold find?
  cases code with
  | nil => exact absurd h not_split_nil
  | cons c rest =>
    rcases findAfter?_cons_cases none c rest with ⟨-, hnone⟩ | ⟨-, hnone⟩ | ⟨_, _, _, hsplit, hfound⟩
    · exact absurd h (hnone _ _ _)
    · exact absurd h (hnone _ _ _ _)
    · obtain ⟨rfl, rfl⟩ := h.unique hsplit rfl
      exact hfound

/-- **The header of a signature.** -/
theorem find?_signature {d : Declaration} (h : d.Plain) :
    find? (keyword ++ d.signature.toList) = some ⟨d.name.toList, labels d.parameters⟩ := by
  have hunclosed : ')' ∉ labels d.parameters :=
    not_mem_labels (fun p hp => (h.parameters p hp).apart _ (by simp)) (by decide)
  have hsplit : Split none (keyword ++ d.signature.toList) [] d.name.toList (labels d.parameters) [] := by
    refine ⟨?_, by simp, h.unopened, h.visible, hunclosed⟩
    rw [Declaration.toList_signature]
    simp
  rw [find?_of_split hsplit, h.trimmed]

end Header

/-! ## Only such functions are read -/

namespace Reading

theorem inComment_subset (reading : Reading) {before text : List Char} (inner : List Char)
    (h : before ⊆ text) :
    (reading.inComment before inner text).2.before ⊆ text ∧
      (reading.inComment before inner text).2.after ⊆ text := by
  unfold inComment
  cases hcut : Text.cutLast? DocComment.closer text with
  | none => exact ⟨h, List.nil_subset _⟩
  | some sides =>
    refine ⟨h, fun c hc => ?_⟩
    rw [Text.eq_of_cutLast? hcut]
    exact List.mem_append_right _ hc

/-- The code of a line is part of it. -/
theorem comment_subset (reading : Reading) (text : List Char) :
    (reading.comment text).2.before ⊆ text ∧ (reading.comment text).2.after ⊆ text := by
  unfold comment
  split
  · exact inComment_subset _ _ (List.nil_subset _)
  · split
    · exact ⟨List.Subset.refl _, List.nil_subset _⟩
    · next before after hcut =>
      refine inComment_subset _ _ fun c hc => ?_
      rw [Text.eq_of_cut? hcut]
      exact List.mem_append_left _ (List.mem_append_left _ hc)

/-- The header of a line is that of a span of code. -/
theorem code_of_header? {reading : Reading} {text : List Char} {header : Header}
    (h : header? (reading.comment text).2 = some header) :
    ∃ code, code ⊆ text ∧ Header.find? code = some header := by
  obtain ⟨hbefore, hafter⟩ := reading.comment_subset text
  cases hfirst : Header.find? (reading.comment text).2.before with
  | some found =>
    rw [header?, hfirst] at h
    exact ⟨_, hbefore, hfirst.trans h⟩
  | none =>
    rw [header?, hfirst] at h
    exact ⟨_, hafter, h⟩

/-- Outside comments, a line without a comment declares its header. -/
theorem line_of_code {reading : Reading} {text : List Char} (hopen : reading.openComment = none)
    (hblank : Text.isBlankText text = false) (hrequire : requireMark.isPrefixOf text = false)
    (hopener : ¬ DocComment.opener <:+: text) (file : Path) (number : Nat) :
    (reading.line file number text).2 =
      (Header.find? text).map fun header => .function (reading.declare file number header) := by
  have hcode : reading.comment text = (reading, { before := text }) := by
    unfold comment
    rw [hopen, Text.cut?_eq_none hopener]
  have hheader : header? { before := text } = Header.find? text := by
    cases hfound : Header.find? text <;> rw [header?, hfound] <;> rfl
  unfold line
  rw [if_neg (by simp [hblank]), Text.afterPrefix?, if_neg (by simp [hrequire]), hcode]
  dsimp only
  rw [hheader]

end Reading

/-- **What a header on one line can declare.** -/
theorem Header.plain_of_find? {code : List Char} {header : Header} (h : find? code = some header)
    (hline : '\n' ∉ code) {d : Declaration} (hname : d.name = String.ofList header.name)
    (hparameters : d.parameters = header.parameters) : d.Plain := by
  obtain ⟨before, name, arguments, after, hsplit, -, rfl⟩ := split_of_findAfter? h
  have hpart : name ⊆ code ∧ arguments ⊆ code := by
    rw [hsplit.parts]
    constructor <;> intro c hc <;> simp [hc]
  have hlist : d.name.toList = Text.trim name := by rw [hname, String.toList_ofList]
  refine ⟨?_, ?_, ?_, ?_, ?_⟩
  · obtain ⟨c, hc, hvisible⟩ := hsplit.visible
    rw [hlist]
    exact ⟨c, Text.mem_trim hc hvisible, hvisible⟩
  · rw [hlist, Text.trim_trim]
  · rw [hlist]
    exact fun hmem => hsplit.unopened (Text.trim_subset _ hmem)
  · rw [hlist]
    exact fun hmem => hline (hpart.1 (Text.trim_subset _ hmem))
  · intro p hp
    rw [hparameters] at hp
    obtain ⟨piece, hpiece, hread⟩ := List.mem_filterMap.mp hp
    obtain ⟨hcomma, hsubset⟩ := Text.of_mem_splitOn hpiece
    refine plain_of_parameter? hread ?_
    simp only [List.forall_mem_cons, List.not_mem_nil, false_implies, implies_true, and_true]
    exact ⟨hcomma, fun hmem => hsplit.unclosed (hsubset hmem), fun hmem => hline (hpart.2 (hsubset hmem))⟩

namespace SourceItem

/-- **What a text can declare.** -/
theorem plain_of_mem_scan {file : Path} {text : List Char} {d : Declaration}
    (h : .function d ∈ scan file text) : d.Plain := by
  obtain ⟨i, line, hline, hitem⟩ := Reading.line_of_mem_items h
  obtain ⟨header, hheader, rfl⟩ := Reading.function_of_line hitem
  obtain ⟨code, hcode, hfound⟩ := Reading.code_of_header? hheader
  have hfree := Text.lineFeed_not_mem (List.mem_of_getElem? hline)
  exact Header.plain_of_find? hfound (fun hmem => hfree (hcode hmem)) rfl rfl

/-- A text of one line without a comment declares its header and nothing else. -/
theorem scan_of_code {text : List Char} (hline : '\n' ∉ text) (hblank : Text.isBlankText text = false)
    (hrequire : Reading.requireMark.isPrefixOf text = false)
    (hopener : ¬ DocComment.opener <:+: text) (file : Path) :
    scan file text = ((Header.find? text).map fun header =>
      .function (({} : Reading).declare file 0 header)).toList := by
  have hne : text ≠ [] := by
    rintro rfl
    cases hblank
  rw [scan, Text.lines_of_no_lineFeed hline, if_neg hne, Reading.items_cons,
    Reading.line_of_code rfl hblank hrequire hopener]
  exact List.append_nil _

/-- **Signatures are headers.**  Behind the keyword, the signature of a function of some text is read as
one function and nothing else: it has the same name and the same parameters, with the blanks of their
types left out, and so the same signature.  The one condition is that the signature opens no comment. -/
theorem scan_signature (file : Path) (text : List Char) (d : Declaration)
    (hd : .function d ∈ scan file text) (hopener : ¬ DocComment.opener <:+: d.signature.toList) :
    scan file ("def " ++ d.signature).toList =
        [.function
          { name := d.name, parameters := d.parameters.map Parameter.compact, exported := false,
            file := file, line := 0, doc := "" }] ∧
      ∀ e, .function e ∈ scan file ("def " ++ d.signature).toList → e.signature = d.signature := by
  have hplain := plain_of_mem_scan hd
  have hcode : ("def " ++ d.signature).toList = Header.keyword ++ d.signature.toList := by
    rw [String.toList_append]
    rfl
  have hfree : '\n' ∉ Header.keyword ++ d.signature.toList := by
    have hlabels : '\n' ∉ Header.labels d.parameters :=
      Header.not_mem_labels (fun p hp => (hplain.parameters p hp).apart _ (by simp)) (by decide)
    rw [Declaration.toList_signature]
    simp [Header.keyword, hplain.unbroken, hlabels]
  have hclosed : ¬ DocComment.opener <:+: Header.keyword ++ d.signature.toList := by
    simpa [Header.keyword, DocComment.opener, List.infix_cons_iff] using hopener
  have hparameters : Header.parameters ⟨d.name.toList, Header.labels d.parameters⟩ =
      d.parameters.map Parameter.compact :=
    Header.parameters_labels hplain.parameters (List.forall_mem_nil _) d.name.toList
  have hscan : scan file ("def " ++ d.signature).toList =
      [.function
        { name := d.name, parameters := d.parameters.map Parameter.compact, exported := false,
          file := file, line := 0, doc := "" }] := by
    rw [hcode, scan_of_code hfree rfl rfl hclosed, Header.find?_signature hplain, ← hparameters]
    simp [Reading.declare]
  refine ⟨hscan, fun e he => ?_⟩
  rw [hscan, List.mem_singleton, function.injEq] at he
  rw [he]
  simp [Declaration.signature, Function.comp_def]

/-- Blanks around the name and in a type, a piece without a name, a type that is missing behind its
colon, a parenthesis and a keyword that are part of names. -/
theorem scan_signature_odd :
    let file := Path.ofString "/a.das"
    let text := "x def  a def b ((c : array < int > : 1, , d:, e f) : int".toList
    let d : Declaration :=
      { name := "a def b",
        parameters := [⟨"(c", some "array < int > : 1"⟩, ⟨"d", some ""⟩, ⟨"e f", none⟩],
        exported := false, file, line := 0, doc := "" }
    .function d ∈ scan file text ∧ d.signature = "a def b((c: array<int>:1, d: , e f)" ∧
      ¬ DocComment.opener <:+: d.signature.toList ∧
      scan file "def a def b((c: array<int>:1, d: , e f)".toList =
        [.function { d with
          parameters := [⟨"(c", some "array<int>:1"⟩, ⟨"d", some ""⟩, ⟨"e f", none⟩] }] := by
  intro file text d
  have hd : .function d ∈ scan file text := by decide +kernel
  have hsignature : d.signature = "a def b((c: array<int>:1, d: , e f)" := by decide +kernel
  have hopener : ¬ DocComment.opener <:+: d.signature.toList := by decide +kernel
  refine ⟨hd, hsignature, hopener, ?_⟩
  have hscan := (scan_signature file text d hd hopener).1
  rw [hsignature] at hscan
  rw [show "def a def b((c: array<int>:1, d: , e f)" =
    "def " ++ "a def b((c: array<int>:1, d: , e f)" by decide +kernel, hscan]
  decide +kernel

end SourceItem

end ScriptIndex
