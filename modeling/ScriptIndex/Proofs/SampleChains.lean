import Mathlib.Data.List.Nodup
import ScriptIndex.Proofs.DiskChanges
import ScriptIndex.Proofs.Extensions
import ScriptIndex.Proofs.Footprint
import ScriptIndex.Proofs.NormalForms
import ScriptIndex.Proofs.RequireGraph
import ScriptIndex.Proofs.SampleTexts

/-!
# Extracting a generated workspace

The files of a generated workspace require each other in a chain, and no two of their functions have the
same name.  So extracting a file follows the chain to its end, reads every file on it once, and gives
all functions on the way, none in the place of another.

* `SampleWorkspace.name_injective`, `SampleWorkspace.segment_injective` — functions and files are told
  apart by their names, since numerals are;
* `SampleWorkspace.Lies.resolve` — beside one generated file a search finds any other;
* `SampleWorkspace.StoredIn` — where the files of a workspace can be read, with
  `SampleWorkspace.storedIn_memoryFiles` and `SampleWorkspace.storedIn_tree`: in memory and on a disk;
* `SampleWorkspace.gathers_next`, `SampleWorkspace.gathers_chain` — one more file, and the whole chain;
* `SampleWorkspace.extract_sample` — what is extracted from any file of any workspace.
-/

namespace ScriptIndex

/-- A text is known by its bytes. -/
theorem Text.encode_injective {s t : List Char} (h : encode s = encode t) : s = t := by
  have hbytes : (String.ofList s).toByteArray = (String.ofList t).toByteArray := by
    rw [String.toByteArray_ofList, String.toByteArray_ofList]
    exact congrArg List.toByteArray h
  exact String.ofList_injective (String.toByteArray_inj.mp hbytes)

namespace SampleWorkspace

/-! ## Names -/

theorem numeral_injective {m n : Nat} (h : Nat.toDigits 10 m = Nat.toDigits 10 n) : m = n :=
  calc
    m = Nat.ofDigitChars 10 (Nat.toDigits 10 m) 0 := Nat.ofDigitChars_ten_toDigits.symm
    _ = Nat.ofDigitChars 10 (Nat.toDigits 10 n) 0 := by rw [h]
    _ = n := Nat.ofDigitChars_ten_toDigits

/-- Functions of generated files have different names. -/
theorem name_injective {i j k l : Nat} (h : s!"func_{i}_{k}" = s!"func_{j}_{l}") : i = j ∧ k = l := by
  have hlist : ∀ i k : Nat, (s!"func_{i}_{k}").toList =
      "func_".toList ++ (Nat.toDigits 10 i ++ '_' :: Nat.toDigits 10 k) := by
    intro i k
    simp [toString_text]
  have hcut : ∀ i k : Nat, Text.cut? ['_'] (Nat.toDigits 10 i ++ '_' :: Nat.toDigits 10 k) =
      some (Nat.toDigits 10 i, Nat.toDigits 10 k) :=
    fun i k => Text.cut?_char (not_mem_numeral (by decide) i)
  have hdigits : Nat.toDigits 10 i ++ '_' :: Nat.toDigits 10 k =
      Nat.toDigits 10 j ++ '_' :: Nat.toDigits 10 l := by
    have hsame := congrArg String.toList h
    rw [hlist, hlist] at hsame
    exact List.append_cancel_left hsame
  have hparts := (hcut i k).symm.trans ((congrArg _ hdigits).trans (hcut j l))
  rw [Option.some.injEq, Prod.mk.injEq] at hparts
  exact ⟨numeral_injective hparts.1, numeral_injective hparts.2⟩

/-- The segment that names a generated file. -/
def segment (index : Nat) : List UInt8 :=
  Text.encode (fileName index).toList

theorem segment_eq (index : Nat) :
    segment index = Text.encode (module index).toList ++ dot :: Text.encode "das".toList := by
  have hname : (fileName index).toList = (module index).toList ++ '.' :: "das".toList := by
    simp [fileName, module, toString_text]
  unfold segment Text.encode
  rw [hname, List.flatMap_append]
  rfl

theorem segment_injective {i j : Nat} (h : segment i = segment j) : i = j := by
  rw [segment_eq, segment_eq] at h
  have hmodule := Text.encode_injective (List.append_cancel_right h)
  rw [toList_module, toList_module] at hmodule
  exact numeral_injective (List.append_cancel_left hmodule)

theorem isName_module (index : Nat) : Path.IsName (Text.encode (module index).toList) := by
  have hfront : Text.encode (module index).toList =
      Text.encode "file_".toList ++ Text.encode (Nat.toDigits 10 index) := by
    rw [toList_module]
    exact List.flatMap_append
  have hslash : slash ∉ Text.encode (module index).toList := by
    rw [Text.slash_mem_encode, toList_module]
    simp [not_mem_numeral]
  have hlength : 5 ≤ (Text.encode (module index).toList).length := by
    rw [hfront, List.length_append]
    exact Nat.le_add_right 5 _
  refine Path.isName_iff.mpr ⟨?_, ?_, ?_, hslash⟩ <;>
  · intro heq
    rw [heq] at hlength
    revert hlength
    decide

theorem isName_segment (index : Nat) : Path.IsName (segment index) := by
  rw [segment_eq]
  exact (isName_module index).append (by decide)

end SampleWorkspace

/-! ## Places -/

namespace Path

/-- A path of one name. -/
theorem components_name {b : List UInt8} (h : IsName b) : (Path.mk b).components = [.name b] := by
  unfold components
  rw [parse_of_splitOn (List.splitOn_eq_singleton h.2)]
  exact (List.append_nil _).trans (h.inner.start _)

/-- Following a name from a directory adds it at the end, however the directory is written. -/
theorem components_join_name (dir : Path) {b : List UInt8} (h : IsName b) :
    (dir.join ⟨b⟩).components = dir.components ++ [.name b] := by
  have hrelative : (Path.mk b).isAbsolute = false := by
    simp [isAbsolute, components_name h]
  by_cases hdir : dir.bytes = []
  · have hnone : dir.components = [] := by
      unfold components
      rw [hdir]
      rfl
    unfold join
    rw [if_pos (by simp [hdir]), hnone, components_name h]
    rfl
  · rw [components_join hdir hrelative, List.splitOn_eq_singleton h.2]
    simp [h.1]

theorem resolveDots_concat_name (parts : List Component) (b : List UInt8) :
    resolveDots (parts ++ [.name b]) = resolveDots parts ++ [.name b] := by
  unfold resolveDots
  rw [List.foldl_append]
  exact List.reverse_cons

theorem normalize_join_name (dir : Path) {b : List UInt8} (h : IsName b) :
    (dir.join ⟨b⟩).normalize = ofComponents (resolveDots dir.components ++ [.name b]) := by
  unfold normalize
  rw [components_join_name dir h, resolveDots_concat_name]

/-- An ending written behind a path goes to its last name. -/
theorem ofComponents_concat_append (parts : List Component) (b ending : List UInt8) :
    Path.mk ((ofComponents (parts ++ [.name b])).bytes ++ ending) =
      ofComponents (parts ++ [.name (b ++ ending)]) := by
  have hjoin : ∀ rest : List Component,
      [slash].intercalate ((rest ++ [Component.name b]).map Component.bytes) ++ ending =
        [slash].intercalate ((rest ++ [Component.name (b ++ ending)]).map Component.bytes) := by
    intro rest
    have happend := intercalate_append (rest.map Component.bytes) b ending []
    rw [List.map_append, List.map_append]
    simpa [Component.bytes] using happend
  cases parts with
  | nil => exact congrArg Path.mk (hjoin [])
  | cons first rest =>
    cases first with
    | root => exact congrArg (fun bytes => Path.mk (slash :: bytes)) (hjoin rest)
    | _ => exact congrArg Path.mk (hjoin (_ :: rest))

end Path

namespace SampleWorkspace

variable {sample : SampleWorkspace} {dir file : Path} {index : Nat}

/-- The path under which a search finds a generated file in a directory. -/
def place (dir : Path) (index : Nat) : Path :=
  (dir.join (.ofString (fileName index))).normalize

theorem place_eq (dir : Path) (index : Nat) :
    place dir index = .ofComponents (Path.resolveDots dir.components ++ [.name (segment index)]) :=
  Path.normalize_join_name dir (isName_segment index)

/-- A path that names a generated file in a directory, which may be written with dots. -/
def Lies (dir : Path) (index : Nat) (file : Path) : Prop :=
  ∃ parts, file.components = parts ++ [.name (segment index)] ∧
    Path.resolveDots parts = Path.resolveDots dir.components

theorem components_join_fileName (dir : Path) (index : Nat) :
    (dir.join (.ofString (fileName index))).components = dir.components ++ [.name (segment index)] :=
  Path.components_join_name dir (isName_segment index)

theorem lies_join (dir : Path) (index : Nat) : Lies dir index (dir.join (.ofString (fileName index))) :=
  ⟨dir.components, components_join_fileName dir index, rfl⟩

theorem lies_place (dir : Path) (index : Nat) : Lies dir index (place dir index) := by
  refine ⟨Path.resolveDots dir.components, ?_, dir.resolveDots_resolveDots⟩
  unfold place
  rw [Path.components_normalize, components_join_fileName, Path.resolveDots_concat_name]

/-- Different generated files have different paths. -/
theorem Lies.components_ne {i j : Nat} {p q : Path} (hp : Lies dir i p) (hq : Lies dir j q)
    (hne : i ≠ j) : p.components ≠ q.components := by
  obtain ⟨parts, hp, -⟩ := hp
  obtain ⟨parts', hq, -⟩ := hq
  rw [hp, hq]
  intro heq
  have hlast := congrArg List.getLast? heq
  rw [List.getLast?_concat, List.getLast?_concat, Option.some.injEq, Component.name.injEq] at hlast
  exact hne (segment_injective hlast)

theorem normalize_join_module (dir : Path) (index : Nat) :
    (dir.join (.ofString (module index))).normalize =
      .ofComponents (Path.resolveDots dir.components ++ [.name (Text.encode (module index).toList)]) :=
  Path.normalize_join_name dir (isName_module index)

/-- The plain spelling of a module is the path of its file. -/
theorem plain_module (dir : Path) (index : Nat) :
    Naming.standard.plain (dir.join (.ofString (module index))).normalize = place dir index := by
  rw [place_eq, segment_eq, ← Path.ofComponents_concat_append, normalize_join_module]
  rfl

/-- **A search finds a generated file beside another one.** -/
theorem Lies.resolve {isThere : Path → Bool} (h : Lies dir index file) {next : Nat}
    (hthere : isThere (place dir next) = true) :
    (Naming.standard.resolve isThere file (module next)).found = some (place dir next) := by
  obtain ⟨parts, hparts, hdots⟩ := h
  have hdirectories : file.directories = .ofComponents parts :: Path.around parts.reverse := by
    unfold Path.directories
    rw [hparts, List.reverse_concat]
    simp [Path.around]
  have hlawful : Path.Lawful (parts ++ [.name (segment index)]) := hparts ▸ file.lawful_components
  have hsame : ((Path.ofComponents parts).join (.ofString (module next))).normalize =
      (dir.join (.ofString (module next))).normalize := by
    rw [normalize_join_module, normalize_join_module,
      Path.components_ofComponents hlawful.of_concat, hdots]
  have hnear : Naming.firstOf isThere (Naming.standard.candidates (.ofComponents parts) (module next)) =
      { found := some (place dir next), probed := [place dir next] } := by
    unfold Naming.candidates
    dsimp only
    rw [hsame, plain_module, Naming.firstOf, if_pos hthere]
  unfold Naming.resolve
  rw [hdirectories, Naming.search, hnear]

/-! ## Workspaces in memory and on a disk -/

/-- A reader that has the files of a workspace in a directory, where a search looks for them.  What else
it has does not matter. -/
structure StoredIn (sample : SampleWorkspace) (reader : SourceReader) (dir : Path) : Prop where
  regular : ∃ asked, reader.Regular .standard asked
  isFile : ∀ index < sample.files, reader.isFile (place dir index) = true
  read : ∀ index < sample.files, reader.read (place dir index) = .ok (sample.text index)

/-- The files of a workspace, held in memory. -/
def memoryFiles (sample : SampleWorkspace) (dir : Path) : List MemoryFile :=
  (List.range sample.files).map fun j => ⟨place dir j, some (sample.text j)⟩

theorem find?_memoryFiles (dir : Path) (hi : index < sample.files) :
    Keyed.find? MemoryFile.key (place dir index).components (sample.memoryFiles dir) =
      some ⟨place dir index, some (sample.text index)⟩ := by
  have hkey : ∀ (p : Path) (text : Option String), MemoryFile.key ⟨p, text⟩ = p.components :=
    fun _ _ => rfl
  have hsome : (Keyed.find? MemoryFile.key (place dir index).components
      (sample.memoryFiles dir)).isSome = true := by
    rw [Keyed.isSome_find?, Keyed.has_iff]
    exact ⟨⟨place dir index, some (sample.text index)⟩,
      List.mem_map.mpr ⟨index, List.mem_range.mpr hi, rfl⟩, hkey _ _⟩
  obtain ⟨found, hfound⟩ := Option.isSome_iff_exists.mp hsome
  obtain ⟨j, -, rfl⟩ := List.mem_map.mp (List.mem_of_find?_eq_some hfound)
  have hsame := Keyed.key_of_find? _ hfound
  rw [hkey] at hsame
  have hj : j = index := by
    by_contra hne
    exact (lies_place dir j).components_ne (lies_place dir index) hne hsame
  rw [hfound, hj]

theorem storedIn_memoryFiles (sample : SampleWorkspace) (dir : Path) :
    sample.StoredIn (.ofFiles (sample.memoryFiles dir)) dir where
  regular := ⟨_, SourceReader.ofFiles_regular _ _⟩
  isFile j hj := by
    show Keyed.has _ _ _ = true
    rw [← Keyed.isSome_find?, find?_memoryFiles dir hj]
    rfl
  read j hj := by
    simp only [SourceReader.ofFiles, find?_memoryFiles dir hj]

section

variable {tree : FileTree} {names : List (List UInt8)}

theorem place_eq_below (hdir : Path.resolveDots dir.components = .root :: names.map .name) (index : Nat) :
    place dir index = .below (names ++ [segment index]) := by
  have hbytes : (names.map Component.name).map Component.bytes = names := by
    rw [List.map_map]
    exact List.map_id names
  rw [place_eq, hdir, Path.mk.injEq, Path.below_eq (by simp)]
  show slash :: [slash].intercalate
    ((names.map Component.name ++ [Component.name (segment index)]).map Component.bytes) = _
  rw [List.map_append, hbytes]
  rfl

theorem isName_of_place (hdir : Path.resolveDots dir.components = .root :: names.map .name) (index : Nat) :
    ∀ n ∈ names ++ [segment index], Path.IsName n := by
  obtain ⟨found, hfound, hresolve | hresolve⟩ := dir.resolveDots_components
  · rw [hdir] at hresolve
    cases found <;> cases hresolve
  · rw [hdir] at hresolve
    have hinj : Function.Injective Component.name := fun _ _ => Component.name.inj
    rw [List.map_injective_iff.mpr hinj (List.tail_eq_of_cons_eq hresolve)]
    intro n hn
    rcases List.mem_append.mp hn with hn | hn
    · exact hfound n hn
    · exact List.mem_singleton.mp hn ▸ isName_segment index

/-- **A workspace on a disk**, in a directory below the root. -/
theorem storedIn_tree (htree : tree.Rooted)
    (hdir : Path.resolveDots dir.components = .root :: names.map .name)
    (hheld : ∀ j < sample.files, FileTree.Short (names ++ [segment j]) ∧
      tree.contents? (names ++ [segment j]) = some (sample.text j).toUTF8) :
    sample.StoredIn tree.reader dir where
  regular := ⟨_, FileTree.reader_regular htree (by decide)⟩
  isFile j hj := by
    obtain ⟨hshort, hcontents⟩ := hheld j hj
    rw [place_eq_below hdir]
    refine (htree.isFile_below_iff (isName_of_place hdir j) (by simp)).mpr ⟨hshort, ?_⟩
    rw [hcontents]
    rfl
  read j hj := by
    obtain ⟨hshort, hcontents⟩ := hheld j hj
    rw [place_eq_below hdir, ← SourceReader.text?_eq_some,
      htree.text?_below_iff (isName_of_place hdir j) (by simp)]
    exact ⟨hshort, _, hcontents, dif_pos (sample.text j).isValidUTF8⟩

end

/-- Two files, the first of which requires the second. -/
def pair : SampleWorkspace := { files := 2, functions := 2, depth := 5, extra := 1 }

/-- A disk with both of them in the directory `/ws`. -/
def pairTree : FileTree where
  entries :=
    [⟨[Text.encode "ws".toList], .directory⟩,
      ⟨[Text.encode "ws".toList, segment 0], .file (pair.text 0).toUTF8⟩,
      ⟨[Text.encode "ws".toList, segment 1], .file (pair.text 1).toUTF8⟩]

theorem storedIn_pairTree : pair.StoredIn pairTree.reader (.ofString "/ws") := by
  let ws := Text.encode "ws".toList
  have hdirectory : (({} : FileTree).put [ws] .directory).Rooted :=
    @FileTree.Rooted.put _ FileTree.rooted_empty [] ws _ rfl fun _ => rfl
  have hfirst :=
    @FileTree.Rooted.put _ hdirectory [ws] (segment 0) (.file (pair.text 0).toUTF8) rfl nofun
  have hrooted : pairTree.Rooted :=
    @FileTree.Rooted.put _ hfirst [ws] (segment 1) (.file (pair.text 1).toUTF8) rfl nofun
  refine @storedIn_tree pair _ _ [ws] hrooted (by decide) fun j hj => ?_
  have hcases : j = 0 ∨ j = 1 := Nat.le_one_iff_eq_zero_or_eq_one.mp (Nat.le_of_lt_succ hj)
  rcases hcases with rfl | rfl
  · exact ⟨by decide, rfl⟩
  · exact ⟨by decide, rfl⟩

end SampleWorkspace

/-! ## Names that do not meet -/

/-- A new key is put at the end. -/
theorem Keyed.put_of_not_mem {α κ : Type} [DecidableEq κ] {key : α → κ} {row : α} {rows : List α}
    (h : key row ∉ rows.map key) : put key row rows = rows ++ [row] := by
  induction rows with
  | nil => rfl
  | cons first rest ih =>
    rw [List.map_cons, List.mem_cons, not_or] at h
    rw [put, if_neg (Ne.symm h.1), ih h.2]
    rfl

theorem FileSymbols.not_mem_names {functions rest : List Declaration} {d : Declaration}
    (h : ((functions ++ d :: rest).map Declaration.name).Nodup) :
    d.name ∉ functions.map Declaration.name := by
  rw [List.map_append, List.map_cons] at h
  exact fun hmem => List.disjoint_of_nodup_append h hmem List.mem_cons_self

/-- Functions with names of their own are all adopted. -/
theorem FileSymbols.foldl_adoptOne_of_nodup {required functions : List Declaration}
    (h : ((functions ++ required).map Declaration.name).Nodup) :
    required.foldl adoptOne functions = functions ++ required.map Declaration.asRequired := by
  induction required generalizing functions with
  | nil => exact (List.append_nil _).symm
  | cons d rest ih =>
    have hone : adoptOne functions d = functions ++ [d.asRequired] :=
      if_neg (by simpa [Keyed.has] using not_mem_names h)
    rw [List.foldl_cons, hone, ih (by simpa [Declaration.asRequired] using h)]
    simp

/-- Items that are functions with names of their own are taken in as they are. -/
theorem Gathers.functions {naming : Naming} {reader : SourceReader} {chain : List Path} {file : Path}
    {c : SymbolCache} {own : List Declaration} {s : FileSymbols}
    (h : ((s.functions ++ own).map Declaration.name).Nodup) :
    Gathers naming reader chain file (own.map .function) s c
      { s with functions := s.functions ++ own } c := by
  induction own generalizing s with
  | nil =>
    rw [List.append_nil]
    exact .done
  | cons d rest ih =>
    have hone : s.declare d = { s with functions := s.functions ++ [d] } := by
      unfold FileSymbols.declare
      rw [Keyed.put_of_not_mem (FileSymbols.not_mem_names h)]
    have hrest := ih (s := s.declare d) (by rw [hone]; simpa using h)
    rw [hone] at hrest
    refine .declared ?_
    rw [hone]
    simpa using hrest

namespace SampleWorkspace

/-! ## The chain of requires -/

variable {sample : SampleWorkspace} {reader : SourceReader} {dir file : Path} {index n : Nat}

/-- The file in which the requires of a file end. -/
def last (sample : SampleWorkspace) (index : Nat) : Nat :=
  max index (min sample.depth (sample.files - 1))

theorem chains_of_last (hi : index < sample.files) (h : sample.last index = index + (n + 1)) :
    sample.chains index = true ∧ index + 1 < sample.files ∧
      sample.last (index + 1) = index + 1 + n := by
  unfold last at h ⊢
  simp only [chains, Bool.and_eq_true, decide_eq_true_eq]
  omega

theorem not_chains_of_last (h : sample.last index = index) : sample.chains index = false := by
  unfold last at h
  simp only [chains, Bool.and_eq_false_iff, decide_eq_false_iff_not]
  omega

/-- The functions of the files from `index` to `index + n`, the last file first, as they are extracted
from `file`, which is the first of them: what a required file exports is not exported again. -/
def functionsFrom (sample : SampleWorkspace) (dir file : Path) (index n : Nat) : List Declaration :=
  (List.range' index (n + 1)).reverse.flatMap fun j => (List.range sample.functions).map fun k =>
    declaration (if j = index then file else place dir j) j k (sample.headerLine j k)
      (j = index && k % 2 = 0)

theorem functionsFrom_zero (sample : SampleWorkspace) (dir file : Path) (index : Nat) :
    sample.functionsFrom dir file index 0 = sample.ownFunctions file index := by
  simp [functionsFrom, ownFunctions]

theorem functionsFrom_succ (sample : SampleWorkspace) (dir file : Path) (index n : Nat) :
    sample.functionsFrom dir file index (n + 1) =
      (sample.functionsFrom dir (place dir (index + 1)) (index + 1) n).map Declaration.asRequired ++
        sample.ownFunctions file index := by
  have hlater : ∀ j ∈ (List.range' (index + 1) (n + 1)).reverse, j ≠ index := by
    intro j hj
    rw [List.mem_reverse, List.mem_range'_1] at hj
    omega
  unfold functionsFrom
  rw [List.range'_succ, List.reverse_cons, List.flatMap_append, List.map_flatMap]
  congr 1
  · refine List.flatMap_congr fun j hj => ?_
    rw [List.map_map]
    refine List.map_congr_left fun k _ => ?_
    have hplace : (if j = index + 1 then place dir (index + 1) else place dir j) = place dir j := by
      split
      · next heq => rw [heq]
      · rfl
    simp [declaration, Declaration.asRequired, hlater j hj, hplace]
  · simp [ownFunctions]

/-- No two of these functions have the same name. -/
theorem nodup_functionsFrom (sample : SampleWorkspace) (dir file : Path) (index n : Nat) :
    ((sample.functionsFrom dir file index n).map Declaration.name).Nodup := by
  have hnames : (sample.functionsFrom dir file index n).map Declaration.name =
      (List.range' index (n + 1)).reverse.flatMap fun j => (List.range sample.functions).map fun k =>
        s!"func_{j}_{k}" := by
    unfold functionsFrom
    rw [List.map_flatMap]
    simp only [List.map_map]
    rfl
  rw [hnames, List.nodup_flatMap]
  constructor
  · intro j _
    exact List.nodup_range.map fun k l h => (name_injective h).2
  · have hdistinct : (List.range' index (n + 1)).reverse.Pairwise (· ≠ ·) :=
      List.nodup_reverse.mpr (List.nodup_range' ..)
    refine hdistinct.imp fun {i j} hne name hi hj => ?_
    obtain ⟨k, -, rfl⟩ := List.mem_map.mp hi
    obtain ⟨l, -, hl⟩ := List.mem_map.mp hj
    exact hne (name_injective hl.symm).1

/-- A file later in the chain is not on the way. -/
theorem not_isIn_way {way : List Path} (h : ∀ p ∈ way, ∃ j < index, Lies dir j p) :
    (place dir index).isIn way = false := by
  rw [← Bool.not_eq_true, Path.isIn_iff]
  rintro ⟨p, hp, hsame⟩
  obtain ⟨j, hj, hlies⟩ := h p hp
  exact hlies.components_ne (lies_place dir index) (Nat.ne_of_lt hj) hsame

/-- A chain that is longer by one file: its directive leads to the next file, which gives its functions,
and then the own functions come in, with names that no file below has used. -/
theorem gathers_next (hstored : sample.StoredIn reader dir) {chain : List Path} {c c₁ : SymbolCache}
    {r : FileSymbols} (hchains : sample.chains index = true) (hnext : index + 1 < sample.files)
    (hfile : Lies dir index file) (hway : ∀ p ∈ file :: chain, ∃ j < index + 1, Lies dir j p)
    (hempty : c.entries = [])
    (hbelow : Gathers .standard reader (file :: chain) (place dir (index + 1))
      (SourceItem.scan (place dir (index + 1)) (sample.text (index + 1)).toList) {} c.countScan r c₁)
    (hcycles : r.cycles = [])
    (hfunctions : r.functions = sample.functionsFrom dir (place dir (index + 1)) (index + 1) n) :
    ∃ s, Gathers .standard reader chain file (SourceItem.scan file (sample.text index).toList) {} c
        s (c₁.insert (place dir (index + 1)) r) ∧
      s.cycles = [] ∧ s.functions = sample.functionsFrom dir file index (n + 1) := by
  let look := Extraction.look .standard reader c file (module (index + 1))
  have hfound : look.found = some (place dir (index + 1)) := by
    refine hfile.resolve ?_
    rw [hstored.isFile _ hnext, Bool.or_true]
  have huncached : c.get? (place dir (index + 1)) = none := by
    unfold SymbolCache.get?
    rw [hempty]
    rfl
  have hread := SourceReader.text?_eq_some.mpr (hstored.read _ hnext)
  let symbols := (({} : FileSymbols).watch look.probed).takeOver
    ⟨0, module (index + 1), place dir (index + 1)⟩ r
  have htaken : symbols.functions = r.functions.map Declaration.asRequired := by
    have hnames := sample.nodup_functionsFrom dir (place dir (index + 1)) (index + 1) n
    rw [← hfunctions] at hnames
    rw [FileSymbols.takeOver_functions]
    exact FileSymbols.foldl_adoptOne_of_nodup hnames
  have hall : symbols.functions ++ sample.ownFunctions file index =
      sample.functionsFrom dir file index (n + 1) := by
    rw [htaken, hfunctions, functionsFrom_succ]
  have hnames : ((symbols.functions ++ sample.ownFunctions file index).map Declaration.name).Nodup := by
    rw [hall]
    exact sample.nodup_functionsFrom dir file index (n + 1)
  have hdirective : sample.directiveItems index = [.require (module (index + 1)) 0] := if_pos hchains
  rw [scan_text, hdirective]
  refine ⟨_, .followed hfound (not_isIn_way hway) huncached hread hbelow (.functions hnames), ?_, hall⟩
  show symbols.cycles = []
  rw [FileSymbols.takeOver_cycles, hcycles]
  rfl

/-- **The traversal of a chain.**  On the way are files from before `index` only, and nothing is cached
until the end of the chain is reached. -/
theorem gathers_chain (hstored : sample.StoredIn reader dir) {chain : List Path} {c : SymbolCache}
    (hi : index < sample.files) (hlast : sample.last index = index + n) (hfile : Lies dir index file)
    (hchain : ∀ p ∈ chain, ∃ j < index, Lies dir j p) (hempty : c.entries = []) :
    ∃ s c', Gathers .standard reader chain file (SourceItem.scan file (sample.text index).toList) {} c
        s c' ∧
      s.cycles = [] ∧ s.functions = sample.functionsFrom dir file index n ∧
      c'.scans = c.scans + n := by
  -- on the number of files that follow, since the file itself changes from step to step
  induction n generalizing index file chain c with
  | zero =>
    have hnone : sample.directiveItems index = [] := if_neg (by simp [not_chains_of_last hlast])
    have hnames := sample.nodup_functionsFrom dir file index 0
    rw [functionsFrom_zero] at hnames ⊢
    rw [scan_text, hnone]
    exact ⟨_, _, .functions hnames, rfl, rfl, rfl⟩
  | succ n ih =>
    obtain ⟨hchains, hnext, hlast'⟩ := chains_of_last hi hlast
    have hway : ∀ p ∈ file :: chain, ∃ j < index + 1, Lies dir j p := by
      intro p hp
      rcases List.mem_cons.mp hp with rfl | hp
      · exact ⟨index, Nat.lt_succ_self _, hfile⟩
      · obtain ⟨j, hj, hlies⟩ := hchain p hp
        exact ⟨j, Nat.lt_succ_of_lt hj, hlies⟩
    obtain ⟨r, c₁, hbelow, hcycles, hfunctions, hscans⟩ :=
      ih (c := c.countScan) hnext hlast' (lies_place dir (index + 1)) hway hempty
    obtain ⟨s, hgathers, hs⟩ :=
      gathers_next hstored hchains hnext hfile hway hempty hbelow hcycles hfunctions
    refine ⟨s, _, hgathers, hs.1, hs.2, ?_⟩
    rw [SymbolCache.scans_insert, hscans]
    show c.scans + 1 + n = c.scans + (n + 1)
    omega

/-- Every function stands on the line of its header, in the file it is counted with. -/
theorem header_of_mem_functionsFrom {d : Declaration} (h : d ∈ sample.functionsFrom dir file index n) :
    ∃ j k : Nat, d.signature = s!"func_{j}_{k}(x: int, y: float)" ∧
      (Text.lines (sample.text j).toList)[d.line]? = some (Header.keyword ++ d.signature.toList) := by
  obtain ⟨j, -, hd⟩ := List.mem_flatMap.mp h
  obtain ⟨k, hk, rfl⟩ := List.mem_map.mp hd
  refine ⟨j, k, signature_declaration .., ?_⟩
  rw [← header_eq]
  exact sample.line_headerLine j (List.mem_range.mp hk)

/-- **A generated workspace is extracted to what it declares.**  From a file of it, beside which the others
stand, all files up to the end of its requires are read once, no cycle is found, and the functions are
theirs, the last file first.  Each stands where its header does. -/
theorem extract_sample (hstored : sample.StoredIn reader dir) (hi : index < sample.files) :
    let file := dir.join (.ofString (fileName index))
    let outcome := Extraction.extract .standard reader file (sample.text index) {}
    outcome.value.cycles = [] ∧
      outcome.state.scans = sample.last index - index + 1 ∧
      outcome.value.functions = sample.functionsFrom dir file index (sample.last index - index) ∧
      ∀ d ∈ outcome.value.functions, ∃ j k : Nat, d.signature = s!"func_{j}_{k}(x: int, y: float)" ∧
        (Text.lines (sample.text j).toList)[d.line]? =
          some (Header.keyword ++ d.signature.toList) := by
  intro file outcome
  obtain ⟨asked, hregular⟩ := hstored.regular
  obtain ⟨c₁, hvisit, hstate⟩ := Extraction.extract_gathers hregular file (sample.text index) {}
  have hlast : sample.last index = index + (sample.last index - index) :=
    (Nat.add_sub_of_le (Nat.le_max_left ..)).symm
  obtain ⟨s, c₂, hchain, hcycles, hfunctions, hscans⟩ :=
    gathers_chain (c := SymbolCache.countScan {}) hstored hi hlast (lies_join dir index)
      (List.forall_mem_nil _) rfl
  -- the chain was built as one traversal, and there is no other
  obtain ⟨hvalue, rfl⟩ := hvisit.unique hchain
  have hfunctions' : outcome.value.functions =
      sample.functionsFrom dir file index (sample.last index - index) := by
    rw [← hfunctions, ← hvalue]
  refine ⟨?_, ?_, hfunctions', ?_⟩
  · rw [← hcycles, ← hvalue]
  · show (Extraction.extract _ _ _ _ _).state.scans = _
    rw [hstate, SymbolCache.scans_insert, hscans]
    exact Nat.add_comm _ _
  · rw [hfunctions']
    exact fun d hd => header_of_mem_functionsFrom hd

/-- Two files on a disk of which the first requires the second, and the fourth of fifty files held in
memory under a path with dots in it. -/
theorem extract_sample_stored :
    let root := Path.ofString "/ws"
    let onDisk := Extraction.extract .standard pairTree.reader (root.join (.ofString (fileName 0)))
      (pair.text 0) {}
    let dotted := Path.ofString "src/../lib"
    let inMemory := Extraction.extract .standard (.ofFiles (medium.memoryFiles dotted))
      (dotted.join (.ofString (fileName 3))) (medium.text 3) {}
    (onDisk.value.cycles = [] ∧ onDisk.state.scans = 2 ∧
      onDisk.value.functions.map (fun d => (d.signature, d.file.text, d.line, d.exported)) =
        [("func_1_0(x: int, y: float)", "/ws/file_1.das", 5, false),
          ("func_1_1(x: int, y: float)", "/ws/file_1.das", 13, false),
          ("func_0_0(x: int, y: float)", "/ws/file_0.das", 7, true),
          ("func_0_1(x: int, y: float)", "/ws/file_0.das", 15, false)]) ∧
    (inMemory.value.cycles = [] ∧ inMemory.state.scans = 8 ∧
      inMemory.value.functions.length = 80) := by
  have hdisk := extract_sample storedIn_pairTree (show 0 < 2 by decide)
  have hmemory := extract_sample (medium.storedIn_memoryFiles (.ofString "src/../lib"))
    (show 3 < 50 by decide)
  dsimp only at hdisk hmemory ⊢
  refine ⟨⟨hdisk.1, ?_, ?_⟩, hmemory.1, ?_, ?_⟩
  · rw [hdisk.2.1]
    decide
  · rw [hdisk.2.2.1]
    decide
  · rw [hmemory.2.1]
    decide
  · rw [hmemory.2.2.1]
    decide

end SampleWorkspace

end ScriptIndex
