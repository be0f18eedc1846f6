import ScriptIndex.Proofs.Meaning

/-!
# The order of questions

Files that require each other share their functions only as far as the traversal got before it came
back, so what is cached of them depends on where it started.  Everywhere else the order of questions
does not matter.

* `Tame` — no cycle of two or more files can be reached;
* `Tame.of_rank`, `requires_edges` — how to see it of given files;
* `symbolsFor_same_after` — the symbols of a tame file are the same after every sequence of calls;
* `symbolsFor_functions_depend` — those of a file on a cycle are not.
-/

namespace ScriptIndex

open Relation

variable {naming : Naming} {reader : SourceReader}

/-- No two files that require each other, directly or through others, can be reached. -/
def Tame (naming : Naming) (reader : SourceReader) (k : List Component) : Prop :=
  ∀ a b, ReflTransGen (Requires naming reader) k a → ReflTransGen (Requires naming reader) a b →
    ReflTransGen (Requires naming reader) b a → a = b

namespace Tame

/-- On tame files a cycle closes only where a file requires itself. -/
theorem loopsAre : LoopsAre naming reader (Tame naming reader) Path.SameFile where
  step := by
    intro k l hk hedge a b hla hab hba
    exact hk a b (ReflTransGen.head hedge hla) hab hba
  back := by
    intro file target hfile hedge hback
    exact (hfile _ _ ReflTransGen.refl (ReflTransGen.single hedge) hback).symm

/-- A set of files that is closed under requires, and in which every directive leads down or to the
file itself, is tame. -/
theorem of_rank {S : List Component → Prop} {rank : List Component → Nat}
    (h : ∀ a b, S a → Requires naming reader a b → S b ∧ (a = b ∨ rank b < rank a))
    {k : List Component} (hk : S k) : Tame naming reader k := by
  have hreach : ∀ a b, S a → ReflTransGen (Requires naming reader) a b →
      S b ∧ (a = b ∨ rank b < rank a) := by
    intro a b ha hab
    induction hab with
    | refl => exact ⟨ha, Or.inl rfl⟩
    | @tail b c _ hbc ih =>
      obtain ⟨hc, hstep⟩ := h b c ih.1 hbc
      refine ⟨hc, ?_⟩
      rcases ih.2 with rfl | hlt
      · exact hstep
      · rcases hstep with rfl | hlt'
        · exact Or.inr hlt
        · exact Or.inr (Nat.lt_trans hlt' hlt)
  intro a b hka hab hba
  obtain ⟨ha, -⟩ := hreach k a hk hka
  obtain ⟨hb, hdown⟩ := hreach a b ha hab
  obtain ⟨-, hup⟩ := hreach b a hb hba
  rcases hdown with heq | hdown
  · exact heq
  · rcases hup with heq | hup
    · exact heq.symm
    · omega

end Tame

/-! ## The edges of files held in memory -/

/-- The directives of some files that lead anywhere, by what they lead from and to. -/
def edges (naming : Naming) (files : List MemoryFile) : List (List Component × List Component) :=
  files.flatMap fun file =>
    (SourceItem.scan file.path (file.text.getD "").toList).filterMap fun
      | .function _ => none
      | .require module _ =>
        (naming.resolve (SourceReader.ofFiles files).isFile file.path module).found.map fun t =>
          (file.path.components, t.components)

theorem SourceReader.mem_of_ofFiles_text {files : List MemoryFile} {p : Path} {text : String}
    (h : (ofFiles files).text? p = some text) :
    ∃ file ∈ files, file.path.components = p.components ∧ file.text = some text := by
  cases hfind : Keyed.find? MemoryFile.key p.components files with
  | none => simp [text?, ofFiles, hfind, Except.toOption] at h
  | some file =>
    refine ⟨file, List.mem_of_find?_eq_some hfind, Keyed.key_of_find? MemoryFile.key hfind, ?_⟩
    obtain ⟨path, text'⟩ := file
    cases text' with
    | none => simp [text?, ofFiles, hfind, Except.toOption] at h
    | some text' => simpa [text?, ofFiles, hfind, Except.toOption] using h

theorem requires_edges {files : List MemoryFile} {k l : List Component}
    (h : Requires naming (.ofFiles files) k l) : (k, l) ∈ edges naming files := by
  obtain ⟨p, text, module, line, t, rfl, ht, hmem, ⟨hfound, -⟩, rfl⟩ := h
  obtain ⟨file, hfile, hname, htext⟩ := SourceReader.mem_of_ofFiles_text ht
  refine List.mem_flatMap.mpr ⟨file, hfile, List.mem_filterMap.mpr ⟨.require module line, ?_, ?_⟩⟩
  · rw [htext]
    exact SourceItem.require_mem_scan _ hmem
  · rw [← Naming.resolve_file_congr hname] at hfound
    simp only [hfound, hname, Option.map_some]

/-! ## Every sequence of calls -/

/-- **The order of questions does not matter for a tame file.**  In a workspace of files held in
memory, under any naming, the symbols that a readable file has after any sequence of extractions,
look-ups, refreshes and invalidations are those it has on an empty cache, all four parts of them and
with paths taken for what they name. -/
theorem symbolsFor_same_after (naming : Naming) (files : List MemoryFile) (calls : List Call)
    (hcalls : ∀ call ∈ calls, call.Honest (.ofFiles files)) (p : Path) (text : String)
    (hread : (SourceReader.ofFiles files).read p = .ok text)
    (htame : Tame naming (.ofFiles files) p.components) :
    (Extraction.symbolsFor naming (.ofFiles files) false p text
        (Call.runAll naming (.ofFiles files) calls)).value.Same
      (Extraction.symbolsFor naming (.ofFiles files) false p text {}).value := by
  have hr := SourceReader.ofFiles_regular files naming
  have hisFile : ∀ {q : Path} {text : String}, (SourceReader.ofFiles files).text? q = some text →
      (SourceReader.ofFiles files).isFile q = true :=
    fun ht => SourceReader.isFile_of_ofFiles_text (by rw [ht]; rfl)
  have hexplained := Call.runAll_invariant
    (P := Explained naming (.ofFiles files) (fun _ => True) (Tame naming (.ofFiles files)) Path.SameFile)
    .empty (fun file text cache ht h => (h.extract hr Tame.loopsAre trivial (hisFile ht) ht).2)
    (fun file cache h => h.subset (SymbolCache.sweep_subset _ _ _)) hcalls
  have ht := SourceReader.text?_eq_some.mpr hread
  exact hexplained.symbolsFor_same hr Tame.loopsAre trivial (hisFile ht) ht htame

/-- A file that requires itself and one more, asked for after two files that require each other. -/
theorem symbolsFor_same_after_mutual :
    let a := Path.ofString "/p/a.das"
    let b := Path.ofString "/p/b.das"
    let d := Path.ofString "/p/d.das"
    let naming : Naming := { extension := "das", specSuffix := "spec" }
    let files : List MemoryFile := [⟨a, some "require b\nrequire a\ndef fa()"⟩,
      ⟨b, some "def fb()"⟩, ⟨d, some "require e\nrequire a"⟩,
      ⟨Path.ofString "/p/e.das", some "require d"⟩]
    let calls := [Call.symbolsFor false d "require e\nrequire a"]
    (∀ call ∈ calls, call.Honest (.ofFiles files)) ∧
      Tame naming (.ofFiles files) a.components ∧
      (Extraction.symbolsFor naming (.ofFiles files) false a "require b\nrequire a\ndef fa()"
          (Call.runAll naming (.ofFiles files) calls)).value.Same
        (Extraction.symbolsFor naming (.ofFiles files) false a "require b\nrequire a\ndef fa()"
          {}).value := by
  intro a b d naming files calls
  have hcalls : ∀ call ∈ calls, call.Honest (.ofFiles files) := by
    simp only [calls, List.forall_mem_cons]
    exact ⟨rfl, List.forall_mem_nil _⟩
  have htame : Tame naming (.ofFiles files) a.components := by
    let rank := fun k => if k = a.components then 1 else 0
    have hdown : ∀ e ∈ edges naming files, e.1 ∈ [a.components, b.components] →
        e.2 ∈ [a.components, b.components] ∧ (e.1 = e.2 ∨ rank e.2 < rank e.1) := by
      decide +kernel
    exact Tame.of_rank (fun k l hk hedge => hdown (k, l) (requires_edges hedge) hk)
      List.mem_cons_self
  exact ⟨hcalls, htame, symbolsFor_same_after naming files calls hcalls a _ rfl htame⟩

/-- For a file on a cycle the order does matter: of two files that require each other, the one that
was looked at from the other lacks the other's functions. -/
theorem symbolsFor_functions_depend :
    ¬ ∀ (naming : Naming) (files : List MemoryFile) (calls : List Call) (p : Path) (text : String),
      (∀ call ∈ calls, call.Honest (.ofFiles files)) →
      (SourceReader.ofFiles files).read p = .ok text →
      (Extraction.symbolsFor naming (.ofFiles files) false p text
          (Call.runAll naming (.ofFiles files) calls)).value.functions.map Declaration.facts =
        (Extraction.symbolsFor naming (.ofFiles files) false p text
          {}).value.functions.map Declaration.facts := by
  intro h
  let a := Path.ofString "/p/a.das"
  let b := Path.ofString "/p/b.das"
  let files : List MemoryFile :=
    [⟨a, some "require b\ndef fa()"⟩, ⟨b, some "require a\ndef fb()"⟩]
  have hsame := h { extension := "das", specSuffix := "spec" } files
    [.extract a "require b\ndef fa()"] b "require a\ndef fb()"
    (List.forall_mem_cons.mpr ⟨rfl, List.forall_mem_nil _⟩) rfl
  have hcount := congrArg List.length hsame
  revert hcount
  decide +kernel

end ScriptIndex
