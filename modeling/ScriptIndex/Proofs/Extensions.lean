import ScriptIndex.Proofs.NormalForms
import ScriptIndex.Proofs.LineBreaks
import ScriptIndex.Settings

/-!
# The extension of a candidate

A search writes an extension behind a path, as text; whether a path is that of a source file is asked of
the part of its last name behind the last dot.  The two agree if and only if the extension could be read
back: there is no dot and no slash in it, and no slash right before its own dot.

* `Text.dot_mem_encode`, `Text.slash_mem_encode`, `Text.getLast?_of_encode` — dots and slashes of a text
  and of its bytes;
* `Path.EndsIn`, `Path.EndsIn.getLast?_components` — the last segment of a path, and the name it is;
* `Path.extension?_extend` — an extension without dots and slashes is read back;
* `Settings.Readable`, `Settings.Readable.isSourceFile`, `Settings.readable_of_candidates` — when
  candidates are taken for source files.
-/

namespace ScriptIndex

/-! ## Texts and bytes -/

namespace Text

/-- A character is written as one byte of its number, or in bytes that are no ASCII. -/
theorem utf8EncodeChar_cases (c : Char) :
    (c.toNat < 128 ∧ String.utf8EncodeChar c = [UInt8.ofNat c.toNat]) ∨
      ∀ b ∈ String.utf8EncodeChar c, 128 ≤ b.toNat := by
  have hnumber : c.val.toNat = c.toNat := rfl
  unfold String.utf8EncodeChar
  rw [hnumber]
  dsimp only
  split_ifs with hone htwo hthree
  · exact Or.inl ⟨Nat.lt_succ_of_le hone, rfl⟩
  all_goals
    right
    simp only [List.mem_cons, List.not_mem_nil, or_false, forall_eq_or_imp, forall_eq,
      UInt8.toNat_ofNat']
    omega

/-- The byte of an ASCII character is in the bytes of no other character. -/
theorem eq_of_mem_utf8EncodeChar {c d : Char} (hc : c.toNat < 128)
    (h : UInt8.ofNat c.toNat ∈ String.utf8EncodeChar d) : d = c := by
  have hbyte : (UInt8.ofNat c.toNat).toNat = c.toNat :=
    UInt8.toNat_ofNat_of_lt' (hc.trans (by decide))
  rcases utf8EncodeChar_cases d with ⟨hd, hone⟩ | hlarge
  · rw [hone, List.mem_singleton] at h
    have hsame := congrArg UInt8.toNat h
    rw [hbyte, UInt8.toNat_ofNat_of_lt' (hd.trans (by decide))] at hsame
    exact Char.toNat_inj.mp hsame.symm
  · have hle := hlarge _ h
    omega

theorem mem_of_mem_encode {c : Char} (hc : c.toNat < 128) {s : List Char}
    (h : UInt8.ofNat c.toNat ∈ encode s) : c ∈ s := by
  obtain ⟨d, hd, hbyte⟩ := List.mem_flatMap.mp h
  exact eq_of_mem_utf8EncodeChar hc hbyte ▸ hd

theorem dot_mem_encode {s : List Char} : dot ∈ encode s ↔ '.' ∈ s := by
  constructor
  · exact mem_of_mem_encode (c := '.') (by decide)
  · intro hmem
    exact List.mem_flatMap.mpr ⟨'.', hmem, by decide⟩

theorem slash_mem_encode {s : List Char} : slash ∈ encode s ↔ '/' ∈ s := by
  constructor
  · exact mem_of_mem_encode (c := '/') (by decide)
  · intro hmem
    exact List.mem_flatMap.mpr ⟨'/', hmem, by decide⟩

theorem getLast?_of_encode {c : Char} (hc : c.toNat < 128) {s : List Char}
    (h : (encode s).getLast? = some (UInt8.ofNat c.toNat)) : s.getLast? = some c := by
  rcases List.eq_nil_or_concat' s with rfl | ⟨front, d, rfl⟩
  · cases h
  · have hbytes : encode (front ++ [d]) = encode front ++ String.utf8EncodeChar d := by
      simp [encode]
    rw [hbytes, List.getLast?_append_of_ne_nil _ String.utf8EncodeChar_ne_nil] at h
    rw [List.getLast?_concat, eq_of_mem_utf8EncodeChar hc (List.mem_of_getLast? h)]

end Text

/-! ## The last segment of a path -/

namespace Path

/-- The segment is all of a written path, or what stands behind one of its slashes. -/
def EndsIn (bytes segment : List UInt8) : Prop :=
  bytes = segment ∨ ∃ front, bytes = front ++ slash :: segment

theorem EndsIn.append {bytes segment : List UInt8} (h : EndsIn bytes segment) (ending : List UInt8) :
    EndsIn (bytes ++ ending) (segment ++ ending) := by
  rcases h with rfl | ⟨front, rfl⟩
  · exact Or.inl rfl
  · exact Or.inr ⟨front, by rw [List.append_assoc, List.cons_append]⟩

/-- A written path ends in what stands behind its last slash. -/
theorem exists_endsIn (bytes : List UInt8) : ∃ segment, slash ∉ segment ∧ EndsIn bytes segment := by
  induction bytes with
  | nil => exact ⟨[], List.not_mem_nil, Or.inl rfl⟩
  | cons b rest ih =>
    obtain ⟨segment, hslash, rfl | ⟨front, rfl⟩⟩ := ih
    · by_cases hb : b = slash
      · exact ⟨rest, hslash, Or.inr ⟨[], by rw [hb, List.nil_append]⟩⟩
      · exact ⟨b :: rest, List.not_mem_cons_of_ne_of_not_mem (Ne.symm hb) hslash, Or.inl rfl⟩
    · exact ⟨segment, hslash, Or.inr ⟨b :: front, rfl⟩⟩

/-- A path that ends in a name has it as its last component. -/
theorem EndsIn.getLast?_components {p : Path} {segment : List UInt8} (h : EndsIn p.bytes segment)
    (hname : IsName segment) : p.components.getLast? = some (.name segment) := by
  unfold components
  have hone := List.splitOn_eq_singleton hname.2
  rcases h with h | ⟨front, h⟩
  · have hstart : start segment (!([] : List (List UInt8)).isEmpty) = [.name segment] :=
      hname.inner.start _
    rw [h, parse_of_splitOn hone, hstart]
    rfl
  · rw [h, parse_append_slash, hone, List.filterMap_cons_some hname.1]
    exact List.getLast?_concat

theorem endsIn_intercalate (init : List (List UInt8)) (last : List UInt8) :
    EndsIn ([slash].intercalate (init ++ [last])) last := by
  rcases List.eq_nil_or_concat' init with rfl | ⟨init, other, rfl⟩
  · exact Or.inl (by simp [List.intercalate])
  · refine Or.inr ⟨[slash].intercalate (init ++ [other]), ?_⟩
    have hlast : slash :: last = [slash].intercalate [[], last] := by simp [List.intercalate]
    rw [hlast, intercalate_append, List.append_nil, List.append_assoc]
    rfl

/-- Some component of a path is a name. -/
def HasName (p : Path) : Prop :=
  ∃ bytes, .name bytes ∈ p.components

/-- A normal form with a name ends in one. -/
theorem HasName.endsIn {p : Path} (h : p.normalize.HasName) :
    ∃ segment, IsName segment ∧ EndsIn p.normalize.bytes segment := by
  obtain ⟨bytes, hmem⟩ := h
  obtain ⟨names, hnames, hbytes⟩ := p.bytes_normalize
  rcases List.eq_nil_or_concat' names with rfl | ⟨init, last, rfl⟩
  · -- nothing but the root can be written without names
    unfold components at hmem
    rcases hbytes with hbytes | hbytes
    · rw [hbytes] at hmem
      cases hmem
    · have hroot : parse (slash :: [slash].intercalate []) = [.root] := by decide
      rw [hbytes, hroot] at hmem
      simp at hmem
  · refine ⟨last, hnames last (by simp), ?_⟩
    rcases hbytes with hbytes | hbytes
    · exact hbytes ▸ endsIn_intercalate init last
    · rw [hbytes]
      rcases endsIn_intercalate init last with hall | ⟨front, hall⟩
      · exact Or.inr ⟨[], by rw [hall, List.nil_append]⟩
      · exact Or.inr ⟨slash :: front, by rw [hall, List.cons_append]⟩

/-! ## Extensions -/

/-- A name that ends in a dot and a text without dots has that text as its extension, unless the dot
starts the name. -/
theorem extensionOf?_dot {ending : List UInt8} (hending : dot ∉ ending) (front : List UInt8) :
    extensionOf? (front ++ dot :: ending) = if front = [] then none else some ending := by
  have htail : ((front ++ dot :: ending).reverse.takeWhile (· ≠ dot)).reverse = ending := by
    have hall : ∀ b ∈ ending.reverse, decide (b ≠ dot) = true := by
      intro b hb
      exact decide_eq_true fun heq => hending (heq ▸ List.mem_reverse.mp hb)
    rw [List.reverse_append, List.reverse_cons, List.append_assoc, List.singleton_append,
      List.takeWhile_append_of_pos hall, List.takeWhile_cons_of_neg (by simp), List.append_nil,
      List.reverse_reverse]
  have hlength : ending.length + 1 < (front ++ dot :: ending).length ↔ front ≠ [] := by
    rw [List.length_append, List.length_cons, ← List.length_pos_iff]
    omega
  unfold extensionOf?
  simp only [htail, hlength, ne_eq, ite_not]

/-- There is no dot and no slash in an extension. -/
theorem not_mem_extension? {p : Path} {ending : List UInt8} (h : p.extension? = some ending) :
    dot ∉ ending ∧ slash ∉ ending := by
  unfold extension? at h
  split at h
  · next fileName hlast =>
    unfold extensionOf? at h
    dsimp only at h
    split at h
    · cases h
      constructor
      · intro hdot
        have hne := List.mem_takeWhile_imp (List.mem_reverse.mp hdot)
        simp at hne
      · intro hslash
        have hin : slash ∈ fileName :=
          List.mem_reverse.mp ((List.takeWhile_sublist _).subset (List.mem_reverse.mp hslash))
        obtain ⟨head, tail, hsplit, hhead, -, hnames⟩ := p.components_split
        have hmem := List.mem_of_getLast? hlast
        rw [hsplit, List.mem_append] at hmem
        rcases hmem with hmem | hmem
        · rcases hhead with rfl | rfl <;> simp at hmem
        · exact (hnames fileName hmem).2 hin
    · cases h
  · cases h

/-- **A text without dots and slashes is read back** as the extension of what it was written behind. -/
theorem extension?_extend {base : Path} {segment : List UInt8} (hends : EndsIn base.bytes segment)
    (hname : IsName segment) {ending : String} (hdot : '.' ∉ ending.toList)
    (hslash : '/' ∉ ending.toList) :
    (Naming.extend base ending).extension? = some (Text.encode ending.toList) := by
  have hslash' : slash ∉ dot :: Text.encode ending.toList :=
    List.not_mem_cons_of_ne_of_not_mem (by decide) (Text.slash_mem_encode.not.mpr hslash)
  have hends' : EndsIn (Naming.extend base ending).bytes _ := hends.append _
  unfold extension?
  rw [hends'.getLast?_components (hname.append hslash')]
  show extensionOf? (segment ++ dot :: _) = _
  rw [extensionOf?_dot (Text.dot_mem_encode.not.mpr hdot), if_neg (isName_iff.mp hname).1]

end Path

/-! ## Candidates -/

namespace Settings

variable {settings : Settings}

/-- The extension can be read off the candidates it is written behind: it holds no dot and no slash, and
the suffix does not leave it alone behind a slash. -/
structure Readable (settings : Settings) : Prop where
  dotless : '.' ∉ settings.fileExtension.toList
  slashless : '/' ∉ settings.fileExtension.toList
  suffix : settings.naming.specSuffix.toList.getLast? ≠ some '/'

theorem isSourceFile_iff {p : Path} :
    settings.isSourceFile p = true ↔ p.extension? = some (Text.encode settings.fileExtension.toList) :=
  decide_eq_true_iff

/-- Paths that name the same file are source files alike. -/
theorem isSourceFile_congr {p q : Path} (h : p.components = q.components) :
    settings.isSourceFile p = settings.isSourceFile q := by
  unfold isSourceFile Path.extension?
  rw [h]

/-- An extension without dots is written as it is given. -/
theorem naming_extension (h : '.' ∉ settings.fileExtension.toList) :
    settings.naming.extension = settings.fileExtension := by
  show String.ofList (settings.fileExtension.toList.dropWhile (· = '.')) = settings.fileExtension
  have hdrop : settings.fileExtension.toList.dropWhile (· = '.') = settings.fileExtension.toList := by
    rw [List.dropWhile_eq_self_iff]
    intro hpos hdot
    exact h (of_decide_eq_true hdot ▸ List.getElem_mem hpos)
  rw [hdrop, String.ofList_toList]

/-- The suffix does not end in a dot. -/
theorem getLast?_specSuffix (settings : Settings) :
    settings.naming.specSuffix.toList.getLast? ≠ some '.' := by
  show (String.ofList (Text.stripEnds (· = '.') settings.specSuffix.toList)).toList.getLast? ≠ some '.'
  rw [String.toList_ofList]
  intro hlast
  have hne : Text.stripEnds (· = '.') settings.specSuffix.toList ≠ [] := by
    intro hnil
    rw [hnil] at hlast
    cases hlast
  have hnot := List.rdropWhile_last_not (fun c : Char => decide (c = '.'))
    (settings.specSuffix.toList.dropWhile (· = '.')) hne
  rw [List.getLast?_eq_getLast_of_ne_nil hne] at hlast
  exact hnot (decide_eq_true (Option.some.inj hlast))

/-- A suffix that does not end in a slash leaves a name in front of the extension: its own last segment,
or the last name of the module with the suffix behind it. -/
theorem Readable.endsIn_suffix (h : settings.Readable) {base : Path} {segment : List UInt8}
    (hends : Path.EndsIn base.bytes segment) (hname : Path.IsName segment) :
    ∃ last, Path.IsName last ∧
      Path.EndsIn (Naming.extend base settings.naming.specSuffix).bytes last := by
  obtain ⟨last, hslash, hlast⟩ := Path.exists_endsIn (Text.encode settings.naming.specSuffix.toList)
  rcases hlast with hall | ⟨front, hfront⟩
  · refine ⟨_, hname.append ?_, hends.append _⟩
    rw [hall]
    exact List.not_mem_cons_of_ne_of_not_mem (by decide) hslash
  · have hslash' : (Text.encode settings.naming.specSuffix.toList).getLast? ≠ some slash :=
      fun hend => h.suffix (Text.getLast?_of_encode (c := '/') (by decide) hend)
    have hdot : (Text.encode settings.naming.specSuffix.toList).getLast? ≠ some dot :=
      fun hend => settings.getLast?_specSuffix (Text.getLast?_of_encode (c := '.') (by decide) hend)
    rw [hfront, List.getLast?_append_of_ne_nil _ (List.cons_ne_nil _ _)] at hslash' hdot
    refine ⟨last, Path.isName_iff.mpr ⟨?_, ?_, ?_, hslash⟩, Or.inr ⟨base.bytes ++ dot :: front, ?_⟩⟩
    · rintro rfl
      exact hslash' rfl
    · rintro rfl
      exact hdot rfl
    · rintro rfl
      exact hdot rfl
    · show base.bytes ++ dot :: Text.encode settings.naming.specSuffix.toList = _
      rw [hfront, List.append_assoc, List.cons_append]

/-- **A candidate is a source file**, if the extension can be read off it and its module leads to a
name. -/
theorem Readable.isSourceFile (h : settings.Readable) {dir : Path} {module : String}
    (hnamed : (dir.join (.ofString module)).normalize.HasName) {p : Path}
    (hp : p ∈ settings.naming.candidates dir module) : settings.isSourceFile p = true := by
  obtain ⟨segment, hname, hends⟩ := hnamed.endsIn
  have hread : ∀ {base : Path} {last : List UInt8}, Path.IsName last → Path.EndsIn base.bytes last →
      settings.isSourceFile (Naming.extend base settings.naming.extension) = true := by
    intro base last hlast hends
    rw [naming_extension h.dotless]
    exact isSourceFile_iff.mpr (Path.extension?_extend hends hlast h.dotless h.slashless)
  simp only [Naming.candidates, List.mem_cons, List.not_mem_nil, or_false] at hp
  rcases hp with rfl | rfl
  · exact hread hname hends
  · obtain ⟨last, hlast, hends⟩ := h.endsIn_suffix hends hname
    exact hread hlast hends

/-- No path is a source file unless the extension is free of dots and slashes. -/
theorem not_mem_of_isSourceFile {p : Path} (h : settings.isSourceFile p = true) :
    '.' ∉ settings.fileExtension.toList ∧ '/' ∉ settings.fileExtension.toList := by
  obtain ⟨hdot, hslash⟩ := Path.not_mem_extension? (isSourceFile_iff.mp h)
  exact ⟨Text.dot_mem_encode.not.mp hdot, Text.slash_mem_encode.not.mp hslash⟩

/-- Alone behind a slash, an extension that is not empty makes a name that starts with a dot and has no
extension. -/
theorem getLast?_suffix_of_isSourceFile (hne : settings.fileExtension ≠ "") {base : Path}
    (h : settings.isSourceFile (settings.naming.spec base) = true) :
    settings.naming.specSuffix.toList.getLast? ≠ some '/' := by
  obtain ⟨hdot, hslash⟩ := not_mem_of_isSourceFile h
  have hdot' := Text.dot_mem_encode.not.mpr hdot
  intro hlast
  obtain ⟨front, hfront⟩ := List.getLast?_eq_some_iff.mp hlast
  let alone := dot :: Text.encode settings.fileExtension.toList
  have hends : Path.EndsIn (settings.naming.spec base).bytes alone := by
    refine Or.inr ⟨base.bytes ++ dot :: Text.encode front, ?_⟩
    have hbytes : Text.encode (front ++ ['/']) = Text.encode front ++ [slash] := by
      unfold Text.encode
      rw [List.flatMap_append]
      rfl
    show (base.bytes ++ dot :: Text.encode settings.naming.specSuffix.toList) ++
      dot :: Text.encode settings.naming.extension.toList = _
    rw [naming_extension hdot, hfront, hbytes]
    simp [alone]
  have hname : Path.IsName alone := by
    have hsome : Text.encode settings.fileExtension.toList ≠ [] := by
      intro hnil
      have hempty : settings.fileExtension.toList = [] :=
        List.eq_nil_iff_forall_not_mem.mpr fun c hc =>
          String.utf8EncodeChar_ne_nil (List.flatMap_eq_nil_iff.mp hnil c hc)
      exact hne (String.toList_eq_nil_iff.mp hempty)
    refine Path.isName_iff.mpr ⟨List.cons_ne_nil _ _, ?_, ?_, ?_⟩
    · intro heq
      exact hsome (List.cons.inj heq).2
    · intro heq
      exact hdot' ((List.cons.inj heq).2 ▸ List.mem_cons_self)
    · exact List.not_mem_cons_of_ne_of_not_mem (by decide) (Text.slash_mem_encode.not.mpr hslash)
  have hextension := isSourceFile_iff.mp h
  unfold Path.extension? at hextension
  rw [hends.getLast?_components hname] at hextension
  have hnone : Path.extensionOf? alone = none := Path.extensionOf?_dot hdot' []
  exact absurd (hnone.symm.trans hextension) (by simp)

/-- If the candidates of a module are source files, the extension, unless it is empty, can be read off
all candidates. -/
theorem readable_of_candidates (hne : settings.fileExtension ≠ "") {dir : Path} {module : String}
    (h : ∀ p ∈ settings.naming.candidates dir module, settings.isSourceFile p = true) :
    settings.Readable := by
  simp only [Naming.candidates, List.forall_mem_cons] at h
  obtain ⟨hplain, hspec, -⟩ := h
  obtain ⟨hdot, hslash⟩ := not_mem_of_isSourceFile hplain
  exact ⟨hdot, hslash, getLast?_suffix_of_isSourceFile hne hspec⟩

end Settings

end ScriptIndex
