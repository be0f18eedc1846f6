import ScriptIndex.Proofs.Additions
import ScriptIndex.Proofs.Meaning

/-!
# What keeps a cache sound

A cache is sound if every entry is put together from entries that are still there.  This holds of the
empty cache, it is kept by extracting a file that has no entry, and it is kept when a file changes and
what was computed from it is dropped.  Nothing in it says that the files make no cycle.

* `SourceReader.AgreeOff` — two readers that differ on some files at most;
* `Means.transfer` — what does not watch these files means the same as before;
* `Sound`, `Sound.extract`, `Sound.prune` — the invariant and its two steps;
* `Sound.attested` — every function of a sound cache stands in the text of its file.
-/

namespace ScriptIndex

/-- A step from one reader and its paths to another that changes no more than the `stale` files. -/
def SourceReader.AgreeOff (stale : Path → Prop) (reader : SourceReader) (asked : Path → Prop)
    (reader' : SourceReader) (asked' : Path → Prop) : Prop :=
  ∀ q, asked q → ¬ stale q →
    asked' q ∧ reader'.isFile q = reader.isFile q ∧ reader'.text? q = reader.text? q

variable {naming : Naming} {reader reader' : SourceReader} {asked asked' : Path → Prop}
  {held : CacheEntry → Prop} {loops : Path → Path → Prop} {stale : Path → Prop}
  {cache left : SymbolCache}

theorem SourceReader.AgreeOff.refl : reader.AgreeOff stale asked reader asked :=
  fun _ ha _ => ⟨ha, rfl, rfl⟩

theorem SourceReader.AgreeOff.mono {stale' : Path → Prop}
    (h : reader.AgreeOff stale asked reader' asked')
    (hstale : ∀ q, stale q → stale' q) : reader.AgreeOff stale' asked reader' asked' :=
  fun q ha hq => h q ha fun hcontra => hq (hstale q hcontra)

/-! ## Files change -/

/-- A search that asks for no stale file is the same as before. -/
theorem SourceReader.AgreeOff.resolve_eq (h : reader.AgreeOff stale asked reader' asked')
    (hr : reader.Regular naming asked) {file : Path} {module : String}
    (hfresh : ∀ q : Path, q.isIn (naming.resolve reader.isFile file module).probed = true →
      ¬ stale q) :
    naming.resolve reader.isFile file module = naming.resolve reader'.isFile file module := by
  apply Naming.resolve_congr
  intro q hq
  have ha := hr.asks q (Naming.asks_of_probed hq)
  exact (h q ha (hfresh q (Path.isIn_of_mem hq))).2.1.symm

namespace Means

variable {file : Path} {items : List SourceItem} {s s' : FileSymbols}

theorem adds (h : Means naming reader held loops file items s s') : AddsAll naming file items s s' := by
  induction h with
  | done => exact .nil
  | declared _ ih => exact .cons .declared ih
  | missing _ _ ih => exact .cons (.lookedFor _) ih
  | circular found _ _ ih => exact .cons (.circular found) ih
  | unreadable _ _ _ _ ih => exact .cons (.lookedFor _) ih
  | followed found _ _ _ _ _ _ _ ih => exact .cons (.followed found _) ih

/-- **What watches no stale file keeps its meaning.**  The entries it was put together from are
watched, so they are left, and none of them watches a stale file either. -/
theorem transfer (hr : reader.Regular naming asked)
    (hagree : reader.AgreeOff stale asked reader' asked') (hpruned : cache.Pruned stale left)
    (hg : Grounded reader asked cache)
    (h : Means naming reader (· ∈ cache.entries) loops file items s s')
    (hunwatched : ∀ q : Path, q.isIn s'.watched = true → ¬ stale q)
    (hclosed : ∀ o ∈ cache.entries, o.file.isIn s'.watched = true → o ∈ left.entries) :
    Means naming reader' (· ∈ left.entries) loops file items s s' := by
  induction h with
  | done => exact .done
  | declared _ ih => exact .declared (ih hunwatched hclosed)
  | missing found rest ih =>
    have hsearch := hagree.resolve_eq hr fun q hq => hunwatched q (rest.adds.isIn_of_probed rfl hq)
    rw [hsearch] at found ih
    exact .missing found (ih hunwatched hclosed)
  | circular found back rest ih =>
    have hsearch := hagree.resolve_eq hr fun q hq => hunwatched q (rest.adds.isIn_of_probed rfl hq)
    rw [hsearch] at found ih
    exact .circular found back (ih hunwatched hclosed)
  | @unreadable _ _ _ _ _ _ target found other unread rest ih =>
    have hsearch := hagree.resolve_eq hr fun q hq => hunwatched q (rest.adds.isIn_of_probed rfl hq)
    have hwatched := rest.adds.isIn_of_probed rfl (Path.isIn_of_mem (Naming.found_mem_probed found))
    have hsame := hagree target (hr.asks _ (Naming.asks_of_found found)) (hunwatched _ hwatched)
    rw [hsearch] at found ih
    exact .unreadable found other (hsame.2.2.trans unread) (ih hunwatched hclosed)
  | @followed _ _ _ s' _ _ target entry _ found other isHeld named read below rest ihBelow ih =>
    have hprobed : ∀ q : Path, q.isIn _ = true → q.isIn s'.watched = true :=
      fun q hq => rest.adds.isIn_of_probed FileSymbols.takeOver_watched hq
    have hsearch := hagree.resolve_eq hr fun q hq => hunwatched q (hprobed q hq)
    -- the entry that was taken over is watched, so it is left
    have hwatched : entry.file.isIn s'.watched = true := by
      rw [Path.isIn_congr named]
      exact hprobed target (Path.isIn_of_mem (Naming.found_mem_probed found))
    have hleft := hclosed entry isHeld hwatched
    have hsame := hagree entry.file (hg entry isHeld).1 (hpruned.fresh entry hleft)
    rw [hsearch] at found ih
    exact .followed found other hleft named (hsame.2.2.trans read)
      (ihBelow (hpruned.unwatched entry hleft) (hpruned.closed entry hleft))
      (ih hunwatched hclosed)

end Means

/-! ## Functions and the texts they were read from -/

/-- A function stands in the text of its file, but for the export mark. -/
def Attested (reader : SourceReader) (f : Declaration) : Prop :=
  ∃ text d, reader.text? f.file = some text ∧ .function d ∈ SourceItem.scan f.file text.toList ∧
    f = { d with exported := f.exported }

theorem Attested.asRequired {f : Declaration} (h : Attested reader f) :
    Attested reader f.asRequired := by
  obtain ⟨text, d, ht, hmem, hf⟩ := h
  refine ⟨text, d, ht, hmem, ?_⟩
  rw [hf]
  rfl

theorem Attested.of_mem_scan {file : Path} {text : String} {d : Declaration}
    (ht : reader.text? file = some text) (hd : .function d ∈ SourceItem.scan file text.toList) :
    Attested reader d := by
  have hfile := SourceItem.file_of_mem_scan hd
  exact ⟨text, d, hfile ▸ ht, hfile ▸ hd, rfl⟩

theorem FileSymbols.mem_adopt {required functions : List Declaration} {f : Declaration}
    (h : f ∈ required.foldl adoptOne functions) :
    f ∈ functions ∨ ∃ d ∈ required, f = d.asRequired := by
  induction required generalizing functions with
  | nil => exact Or.inl h
  | cons first rest ih =>
    rcases ih h with h | ⟨d, hd, rfl⟩
    · unfold adoptOne at h
      split at h
      · exact Or.inl h
      · rcases List.mem_append.mp h with h | h
        · exact Or.inl h
        · exact Or.inr ⟨first, List.mem_cons_self, List.mem_singleton.mp h⟩
    · exact Or.inr ⟨d, List.mem_cons_of_mem _ hd, rfl⟩

/-- **No function is invented**: what a file means holds functions that stand in the text of their
file, and those of other files without an export mark. -/
theorem Means.attested {file : Path} {items : List SourceItem} {s s' : FileSymbols} {text : String}
    (h : Means naming reader held loops file items s s') (ht : reader.text? file = some text)
    (hitems : ∀ item ∈ items, item ∈ SourceItem.scan file text.toList)
    (hs : ∀ f ∈ s.functions,
      Attested reader f ∧ (f.file.components ≠ file.components → f.exported = false)) :
    ∀ f ∈ s'.functions,
      Attested reader f ∧ (f.file.components ≠ file.components → f.exported = false) := by
  induction h generalizing text with
  | done => exact hs
  | declared _ ih =>
    refine ih ht (fun i hi => hitems i (List.mem_cons_of_mem _ hi)) ?_
    intro f hf
    rcases Keyed.mem_put hf with rfl | hf
    · have hscan := hitems _ List.mem_cons_self
      refine ⟨.of_mem_scan ht hscan, fun hne => ?_⟩
      rw [SourceItem.file_of_mem_scan hscan] at hne
      exact absurd rfl hne
    · exact hs f hf
  | missing _ _ ih => exact ih ht (fun i hi => hitems i (List.mem_cons_of_mem _ hi)) hs
  | circular _ _ _ ih => exact ih ht (fun i hi => hitems i (List.mem_cons_of_mem _ hi)) hs
  | unreadable _ _ _ _ ih => exact ih ht (fun i hi => hitems i (List.mem_cons_of_mem _ hi)) hs
  | followed _ _ _ _ read _ _ ihBelow ih =>
    refine ih ht (fun i hi => hitems i (List.mem_cons_of_mem _ hi)) ?_
    intro f hf
    rw [FileSymbols.takeOver_functions] at hf
    rcases FileSymbols.mem_adopt hf with hf | ⟨d, hd, rfl⟩
    · exact hs f hf
    · obtain ⟨hattested, -⟩ := ihBelow read (fun _ hi => hi) (by simp) d hd
      exact ⟨hattested.asRequired, fun _ => rfl⟩

/-! ## The invariant -/

/-- Every entry is that of a readable file and is put together from entries that are still there. -/
structure Sound (naming : Naming) (reader : SourceReader) (asked : Path → Prop)
    (loops : Path → Path → Prop) (cache : SymbolCache) : Prop where
  linked : cache.Linked
  grounded : Grounded reader asked cache
  meant : ∀ e ∈ cache.entries, Meant naming reader (· ∈ cache.entries) loops e

namespace Sound

theorem empty (scans : Nat) : Sound naming reader asked loops { scans := scans } where
  linked := .empty scans
  grounded := fun e he => by simp at he
  meant := fun e he => by simp at he

/-- Extracting a file that has no entry keeps every entry and adds sound ones. -/
theorem extract (hr : reader.Regular naming asked)
    (hloops : LoopsAre naming reader (fun _ => True) loops)
    (h : Sound naming reader asked loops cache) {file : Path} {text : String} (ha : asked file)
    (hf : reader.isFile file = true) (ht : reader.text? file = some text)
    (huncached : cache.get? file = none) :
    Sound naming reader asked loops (Extraction.extract naming reader file text cache).state := by
  have hread : (reader.text? file).isSome = true := by rw [ht]; rfl
  obtain ⟨c₁, hgathers, hstate⟩ := Extraction.extract_gathers hr file text cache
  have hg₁ : Grounded reader asked c₁ := Grounded.gathers hr hgathers h.grounded
  have huncached₁ : c₁.get? file = none :=
    hgathers.uncached_of_isIn (Path.isIn_of_mem List.mem_cons_self) huncached
  rw [hstate]
  generalize (Extraction.extract naming reader file text cache).value = symbols at hgathers
  have hkept : ∀ e ∈ c₁.entries, e ∈ (c₁.insert file symbols).entries :=
    SymbolCache.subset_insert huncached₁
  obtain ⟨hmeans, hc₁⟩ := hgathers.means hr hloops (.root ha hread) ht (fun _ hi => hi) h.grounded
    hkept (fun e he _ => (h.meant e he).mono (fun o ho => hkept o (hgathers.keeps o ho))
      fun _ _ hloop => hloop)
  refine ⟨(hgathers.linked h.linked.countScan).insert file symbols, hg₁.insert ha hf hread, ?_⟩
  intro e he
  rcases SymbolCache.mem_insert.mp he with ⟨he, -⟩ | rfl
  · exact hc₁ e he trivial
  · exact ⟨text, ht, hmeans trivial⟩

/-- **What is left after some files changed is sound for the readers' new answers.** -/
theorem prune (hr : reader.Regular naming asked)
    (hagree : reader.AgreeOff stale asked reader' asked') (hpruned : cache.Pruned stale left)
    (h : Sound naming reader asked loops cache) : Sound naming reader' asked' loops left := by
  refine ⟨hpruned.linked, ?_, ?_⟩
  · intro e he
    obtain ⟨ha, hf, ht⟩ := h.grounded e (hpruned.subset e he)
    obtain ⟨ha', hf', ht'⟩ := hagree e.file ha (hpruned.fresh e he)
    exact ⟨ha', hf'.trans hf, by rw [ht']; exact ht⟩
  · intro e he
    have ha := (h.grounded e (hpruned.subset e he)).1
    obtain ⟨text, ht, hmeans⟩ := h.meant e (hpruned.subset e he)
    refine ⟨text, (hagree e.file ha (hpruned.fresh e he)).2.2.trans ht, ?_⟩
    exact hmeans.transfer hr hagree hpruned h.grounded (hpruned.unwatched e he)
      (hpruned.closed e he)

/-- A change of one file is made good by dropping what was computed from it. -/
theorem invalidate (hr : reader.Regular naming asked) {file : Path}
    (hagree : reader.AgreeOff file.SameFile asked reader' asked')
    (h : Sound naming reader asked loops cache) :
    Sound naming reader' asked' loops (cache.invalidate file).2 :=
  h.prune hr hagree (SymbolCache.invalidate_pruned h.linked file)

/-- A change that no answer shows needs nothing. -/
theorem unchanged (hr : reader.Regular naming asked)
    (hagree : reader.AgreeOff (fun _ => False) asked reader' asked')
    (h : Sound naming reader asked loops cache) : Sound naming reader' asked' loops cache :=
  h.prune hr hagree (.refl h.linked)

/-- Asking for symbols uses the entry of a file, and extracts the file only if there is none. -/
theorem symbolsFor (hr : reader.Regular naming asked)
    (hloops : LoopsAre naming reader (fun _ => True) loops)
    (h : Sound naming reader asked loops cache) {file : Path} {text : String} (ha : asked file)
    (hf : reader.isFile file = true) (ht : reader.text? file = some text) :
    Sound naming reader asked loops
      (Extraction.symbolsFor naming reader false file text cache).state := by
  unfold Extraction.symbolsFor
  rw [if_neg Bool.false_ne_true]
  cases hget : cache.get? file with
  | some symbols => exact h
  | none => exact h.extract hr hloops ha hf ht hget

/-- Refreshing a file makes a change of it good. -/
theorem refresh (hr : reader.Regular naming asked) (hr' : reader'.Regular naming asked')
    (hloops : LoopsAre naming reader' (fun _ => True) loops) {file : Path} {text : String}
    (hagree : reader.AgreeOff file.SameFile asked reader' asked')
    (h : Sound naming reader asked loops cache) (ha : asked' file)
    (hf : reader'.isFile file = true) (ht : reader'.text? file = some text) :
    Sound naming reader' asked' loops
      (Extraction.refresh naming reader' file text cache).state := by
  have hpruned := SymbolCache.invalidate_pruned h.linked file
  have huncached : (cache.invalidate file).2.get? file = none := by
    rw [Option.eq_none_iff_forall_not_mem]
    intro symbols hget
    obtain ⟨e, he, hname, -⟩ := SymbolCache.mem_of_get? hget
    exact hpruned.fresh e he hname
  exact (h.invalidate hr hagree).extract hr' hloops ha hf ht huncached

/-- Every function of every entry stands in the text of its file. -/
theorem attested (h : Sound naming reader asked loops cache) {e : CacheEntry}
    (he : e ∈ cache.entries) : ∀ f ∈ e.symbols.functions,
      Attested reader f ∧ (f.file.components ≠ e.file.components → f.exported = false) := by
  obtain ⟨text, ht, hmeans⟩ := h.meant e he
  exact hmeans.attested ht (fun _ hi => hi) (by simp)

/-- A sound cache in which nothing was reported explains all its entries. -/
theorem explained (h : Sound naming reader asked (fun _ _ => False) cache) :
    Explained naming reader asked (fun _ => True) Path.SameFile cache where
  grounded := h.grounded
  meant := fun e he _ =>
    (h.meant e he).mono (fun o ho => (h.grounded o ho).1) fun _ _ hloop => hloop.elim

end Sound

end ScriptIndex
