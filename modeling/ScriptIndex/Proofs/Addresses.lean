import Mathlib.Data.List.TakeWhile
import ScriptIndex.Proofs.Spelling
import ScriptIndex.Uri

/-!
# Addresses are names of files

The URI of an absolute path is read back as a path to the same file, though not always as it was
written: dots and repeated slashes are gone, and what looks like a drive is closed by a slash.

* `Uri.decodeBytes_encode` — bytes are read back as they were;
* `Uri.toPath?_of_ofPath?` — the URI of a path is the URI of a path with the same components;
* `Uri.components_of_ofPath?` — so different files have different URIs;
* `Uri.Denotes`, `Uri.Canonical` — the many addresses of a file, and the one that is written so.
-/

namespace ScriptIndex.Uri

/-! ## Bytes -/

theorem decodeBytes_cons {c : Char} (hc : c ≠ '%') (rest : List Char) :
    decodeBytes (c :: rest) = String.utf8EncodeChar c ++ decodeBytes rest := by
  rw [decodeBytes]
  intro a b tail hcontra
  exact absurd hcontra hc

theorem hexValue?_hexDigit : ∀ n < 16, Text.hexValue? (hexDigit n) = some n := by
  decide

/-- A byte that stands for itself is an ASCII character other than the percent sign. -/
theorem plain_byte : ∀ n < 256, isEncoded (UInt8.ofNat n) = false →
    Char.ofNat n ≠ '%' ∧ String.utf8EncodeChar (Char.ofNat n) = [UInt8.ofNat n] := by
  decide +kernel

theorem decodeBytes_encodeByte (b : UInt8) (rest : List Char) :
    decodeBytes (encodeByte b ++ rest) = b :: decodeBytes rest := by
  have hb : b.toNat < 256 := b.toNat_lt
  unfold encodeByte
  split
  · show decodeBytes ('%' :: hexDigit (b.toNat / 16) :: hexDigit (b.toNat % 16) :: rest) = _
    rw [decodeBytes, hexValue?_hexDigit _ (by omega), hexValue?_hexDigit _ (by omega)]
    show UInt8.ofNat (b.toNat / 16 * 16 + b.toNat % 16) :: _ = _
    rw [show b.toNat / 16 * 16 + b.toNat % 16 = b.toNat by omega, UInt8.ofNat_toNat]
  · next hplain =>
    have hfacts := plain_byte b.toNat hb (by rw [UInt8.ofNat_toNat]; simpa using hplain)
    rw [UInt8.ofNat_toNat] at hfacts
    show decodeBytes (Char.ofNat b.toNat :: rest) = _
    rw [decodeBytes_cons hfacts.1, hfacts.2]
    rfl

theorem decodeBytes_encode (bytes : List UInt8) (rest : List Char) :
    decodeBytes (encode bytes ++ rest) = bytes ++ decodeBytes rest := by
  induction bytes with
  | nil => rfl
  | cons b bytes ih =>
    show decodeBytes ((encodeByte b ++ encode bytes) ++ rest) = _
    rw [List.append_assoc, decodeBytes_encodeByte, ih]
    rfl

/-- The characters of a path in a URI, from the bytes of its segments. -/
def pathText (segments : List (List UInt8)) : List Char :=
  segments.flatMap fun segment => '/' :: encode segment

theorem decodeBytes_pathText (segments : List (List UInt8)) :
    decodeBytes (pathText segments) = (Path.below segments).bytes := by
  induction segments with
  | nil => rfl
  | cons segment rest ih =>
    show decodeBytes ('/' :: (encode segment ++ pathText rest)) = _
    rw [decodeBytes_cons (by decide), decodeBytes_encode, ih]
    rfl

/-! ## The path part -/

theorem encodeByte_chars {b : UInt8} {c : Char} (h : c ∈ encodeByte b) : c ≠ '?' ∧ c ≠ '#' := by
  have hall : (List.range 256).all (fun n =>
      (encodeByte (UInt8.ofNat n)).all fun c => c != '?' && c != '#') = true := by decide +kernel
  have hbyte := List.all_eq_true.mp hall b.toNat (List.mem_range.mpr b.toNat_lt)
  rw [UInt8.ofNat_toNat] at hbyte
  simpa using List.all_eq_true.mp hbyte c h

theorem pathText_chars {segments : List (List UInt8)} {c : Char} (h : c ∈ pathText segments) :
    c ≠ '?' ∧ c ≠ '#' := by
  obtain ⟨segment, -, hc⟩ := List.mem_flatMap.mp h
  rcases List.mem_cons.mp hc with rfl | hc
  · decide
  · obtain ⟨b, -, hb⟩ := List.mem_flatMap.mp hc
    exact encodeByte_chars hb

/-- After the scheme and no authority, the whole rest is the path. -/
theorem pathPart?_fileScheme {segments : List (List UInt8)} (h : segments ≠ []) :
    pathPart? (fileScheme ++ pathText segments) = some (pathText segments) := by
  have htake : (fileScheme ++ pathText segments).takeWhile (fun c => c ≠ '?' && c ≠ '#') =
      fileScheme ++ pathText segments := by
    apply List.takeWhile_eq_self_iff.mpr
    intro c hc
    rcases List.mem_append.mp hc with hc | hc
    · have hscheme : fileScheme.all (fun c => c ≠ '?' && c ≠ '#') = true := by decide +kernel
      exact List.all_eq_true.mp hscheme c hc
    · simpa using pathText_chars hc
  unfold pathPart?
  rw [htake]
  cases segments with
  | nil => exact absurd rfl h
  | cons segment rest => rfl

/-- A path that is closed like a drive names the same file. -/
theorem closeDrive_cases (path : List UInt8) :
    closeDrive path = path ∨ closeDrive path = path ++ [slash] := by
  unfold closeDrive
  split
  · split
    · exact Or.inr rfl
    · exact Or.inl rfl
  · exact Or.inl rfl

theorem components_closeDrive_below {segments : List (List UInt8)} (h : ∀ s ∈ segments, slash ∉ s)
    (hne : segments ≠ []) :
    (Path.mk (closeDrive (Path.below segments).bytes)).components =
      .root :: segments.filterMap Component.ofSegment? := by
  rcases closeDrive_cases (Path.below segments).bytes with hclose | hclose
  · rw [hclose]
    exact Path.components_below h hne
  · -- the slash at the end adds an empty segment
    have happend : (Path.below segments).bytes ++ [slash] = (Path.below (segments ++ [[]])).bytes := by
      unfold Path.below
      rw [List.flatMap_append]
      rfl
    rw [hclose, happend]
    show (Path.below (segments ++ [[]])).components = _
    rw [Path.components_below, List.filterMap_append]
    · exact congrArg _ (List.append_nil _)
    · intro s hs
      rcases List.mem_append.mp hs with hs | hs
      · exact h s hs
      · rw [List.mem_singleton.mp hs]
        exact List.not_mem_nil
    · simp

/-! ## Round trip -/

/-- The URI of an absolute path, by the segments it is written with. -/
theorem ofPath?_eq {p : Path} {uri : Uri} (h : ofPath? p = some uri) :
    ∃ segments : List (List UInt8), segments ≠ [] ∧ (∀ s ∈ segments, slash ∉ s) ∧
      uri.text.toList = fileScheme ++ pathText segments ∧
      p.components = .root :: segments.filterMap Component.ofSegment? := by
  unfold ofPath? at h
  split at h
  · next hroot =>
    cases h
    refine ⟨[[]], List.cons_ne_nil _ _, by simp, by decide, hroot⟩
  · next parts hne hroot =>
    cases h
    have hparts := Path.inner_of_root hroot
    refine ⟨parts.map Component.bytes, ?_, ?_, ?_, ?_⟩
    · intro hnil
      exact hne (List.map_eq_nil_iff.mp hnil)
    · intro s hs
      obtain ⟨part, hpart, rfl⟩ := List.mem_map.mp hs
      exact (hparts part hpart).2
    · rw [String.toList_ofList]
      unfold pathText
      rw [List.flatMap_map]
    · rw [hroot, Path.filterMap_bytes fun part hpart => (hparts part hpart).1]
  · cases h

/-- **An address leads back to the file.** -/
theorem toPath?_of_ofPath? {p : Path} {uri : Uri} (h : ofPath? p = some uri) :
    ∃ file, uri.toPath? = some file ∧ file.components = p.components := by
  obtain ⟨segments, hne, hslash, htext, hp⟩ := ofPath?_eq h
  refine ⟨⟨closeDrive (Path.below segments).bytes⟩, ?_, ?_⟩
  · unfold toPath?
    rw [htext, pathPart?_fileScheme hne, ← decodeBytes_pathText]
    cases segments with
    | nil => exact absurd rfl hne
    | cons segment rest => rfl
  · rw [hp]
    exact components_closeDrive_below hslash hne

/-- Only paths to the same file have the same address. -/
theorem components_of_ofPath? {p q : Path} {uri : Uri} (hp : ofPath? p = some uri)
    (hq : ofPath? q = some uri) : p.components = q.components := by
  obtain ⟨file, hfile, hcomponents⟩ := toPath?_of_ofPath? hp
  obtain ⟨file', hfile', hcomponents'⟩ := toPath?_of_ofPath? hq
  rw [hfile, Option.some.injEq] at hfile'
  rw [← hcomponents, hfile', hcomponents']

/-- An address depends on the file alone. -/
theorem ofPath?_congr {p q : Path} (h : p.components = q.components) : ofPath? p = ofPath? q := by
  unfold ofPath?
  rw [h]

/-- Whether an address is that of a path shows at the path it leads to. -/
theorem exists_ofPath?_iff {uri : Uri} :
    (∃ p, ofPath? p = some uri) ↔ ∃ file ∈ uri.toPath?, ofPath? file = some uri := by
  constructor
  · rintro ⟨p, hp⟩
    obtain ⟨file, hfile, hcomponents⟩ := toPath?_of_ofPath? hp
    exact ⟨file, hfile, (ofPath?_congr hcomponents).trans hp⟩
  · rintro ⟨file, -, hfile⟩
    exact ⟨file, hfile⟩

/-! ## Many addresses, one file -/

/-- An address leads to the file that a path names. -/
def Denotes (uri : Uri) (p : Path) : Prop :=
  ∃ file ∈ uri.toPath?, file.components = p.components

instance (uri : Uri) (p : Path) : Decidable (uri.Denotes p) :=
  inferInstanceAs (Decidable (∃ file ∈ uri.toPath?, _))

/-- An address that leads to a file is written the way the address of that file is. -/
def Canonical (uri : Uri) : Prop :=
  ∀ file ∈ uri.toPath?, ofPath? file = some uri

instance (uri : Uri) : Decidable uri.Canonical :=
  inferInstanceAs (Decidable (∀ file ∈ uri.toPath?, _))

/-- The address of a path leads to its file. -/
theorem denotes_of_ofPath? {p : Path} {uri : Uri} (h : ofPath? p = some uri) : uri.Denotes p := by
  obtain ⟨file, hfile, hcomponents⟩ := toPath?_of_ofPath? h
  exact ⟨file, hfile, hcomponents⟩

/-- Of the addresses that lead to a file, one is canonical, the address of its paths. -/
theorem ofPath?_of_denotes {p : Path} {uri : Uri} (h : uri.Denotes p) (hcanonical : uri.Canonical) :
    ofPath? p = some uri := by
  obtain ⟨file, hfile, hcomponents⟩ := h
  rw [← ofPath?_congr hcomponents]
  exact hcanonical file hfile

end ScriptIndex.Uri
