import ScriptIndex.Extraction
import ScriptIndex.Proofs.Dependents

/-!
# The traversal without its bound

Extraction follows requires down to a given depth and reports events on the way.  Neither matters
for what is gathered: `Gathers` is the same traversal as a relation, one rule for each thing that can
happen at an item, and a file that is followed is traversed by the same rules.  Every law about what
ends up in the symbols or in the cache is an induction over it.

* `SourceReader.Regular` — paths are names of files, and finitely many of them can be read;
* `Extraction.Way` — the files on the way are different, and all but the outermost were read;
* `Gathers` — from the symbols and the cache before some items to those after them;
* `Extraction.visit_gathers` — with a depth above the number of readable files every visit is such a
  traversal, so the bound never cuts anything off;
* `Gathers.grounded`, `Gathers.linked`, `Gathers.keeps` — what a traversal does to the cache: what is
  added are readable files, the watchers stay in step, and no entry is changed.
-/

namespace ScriptIndex

/-! ## Readers -/

namespace SourceReader

/-- The text of a file, if it can be read. -/
def text? (reader : SourceReader) (p : Path) : Option String :=
  (reader.read p).toOption

theorem text?_eq_some {reader : SourceReader} {p : Path} {text : String} :
    reader.text? p = some text ↔ reader.read p = .ok text := by
  unfold text?
  cases reader.read p with
  | error fault => simp [Except.toOption]
  | ok text' => simp [Except.toOption]

/-- Of the paths in `asked`, no more than `limit` different files can be read. -/
def Bounded (reader : SourceReader) (asked : Path → Prop) (limit : Nat) : Prop :=
  ∀ paths : List Path, (∀ p ∈ paths, asked p ∧ (reader.text? p).isSome = true) →
    (paths.map Path.components).Nodup → paths.length ≤ limit

/-- A reader for which paths are names of files: of the paths in `asked`, among them all that
`naming` can ask for, those that name the same file are answered alike, and no more files can be read
than the reader says. -/
structure Regular (reader : SourceReader) (naming : Naming) (asked : Path → Prop) : Prop where
  asks : ∀ q, naming.Asks q → asked q
  isFile_congr : ∀ p q, asked p → asked q → p.components = q.components →
    reader.isFile p = reader.isFile q
  text_congr : ∀ p q, asked p → asked q → p.components = q.components →
    reader.text? p = reader.text? q
  bounded : reader.Bounded asked reader.limit

end SourceReader

namespace FileSymbols

/-- The symbols after a directive was followed to a file with the symbols `required`. -/
def takeOver (symbols : FileSymbols) (directive : CircularRequire) (required : FileSymbols) :
    FileSymbols :=
  ((if required.cycles.isEmpty then symbols else symbols.reportCycle directive).adopt
    required.functions).require directive.target

variable {symbols required : FileSymbols} {directive : CircularRequire}

@[simp] theorem takeOver_functions : (symbols.takeOver directive required).functions =
    required.functions.foldl adoptOne symbols.functions := by
  unfold takeOver
  split <;> rfl

@[simp] theorem takeOver_cycles : (symbols.takeOver directive required).cycles =
    symbols.cycles ++ if required.cycles.isEmpty then [] else [directive] := by
  unfold takeOver
  split
  · exact (List.append_nil _).symm
  · rfl

@[simp] theorem takeOver_requires : (symbols.takeOver directive required).requires =
    directive.target.addTo symbols.requires := by
  unfold takeOver
  split <;> rfl

@[simp] theorem takeOver_watched :
    (symbols.takeOver directive required).watched = symbols.watched := by
  unfold takeOver
  split <;> rfl

end FileSymbols

/-! ## The rules -/

/-- The search for a module while `cache` is in use: a file counts as present if it is cached. -/
def Extraction.look (naming : Naming) (reader : SourceReader) (cache : SymbolCache) (file : Path)
    (module : String) : Resolution :=
  naming.resolve (fun path => cache.contains path || reader.isFile path) file module

open Extraction (look)

/-- `Gathers naming reader chain file items s c s' c'`: below the files of `chain`, taking in the
items of `file` leads from the symbols `s` and the cache `c` to `s'` and `c'`. -/
inductive Gathers (naming : Naming) (reader : SourceReader) :
    List Path → Path → List SourceItem → FileSymbols → SymbolCache → FileSymbols → SymbolCache → Prop
  | done {chain : List Path} {file : Path} {s : FileSymbols} {c : SymbolCache} :
      Gathers naming reader chain file [] s c s c
  | declared {chain : List Path} {file : Path} {items : List SourceItem} {s s' : FileSymbols}
      {c c' : SymbolCache} {d : Declaration}
      (rest : Gathers naming reader chain file items (s.declare d) c s' c') :
      Gathers naming reader chain file (.function d :: items) s c s' c'
  | missing {chain : List Path} {file : Path} {items : List SourceItem} {s s' : FileSymbols}
      {c c' : SymbolCache} {module : String} {line : Nat}
      (found : (look naming reader c file module).found = none)
      (rest : Gathers naming reader chain file items
        (s.watch (look naming reader c file module).probed) c s' c') :
      Gathers naming reader chain file (.require module line :: items) s c s' c'
  | circular {chain : List Path} {file : Path} {items : List SourceItem} {s s' : FileSymbols}
      {c c' : SymbolCache} {module : String} {line : Nat} {target : Path}
      (found : (look naming reader c file module).found = some target)
      (onWay : target.isIn (file :: chain) = true)
      (rest : Gathers naming reader chain file items
        ((s.watch (look naming reader c file module).probed).reportCycle ⟨line, module, target⟩)
        c s' c') :
      Gathers naming reader chain file (.require module line :: items) s c s' c'
  | unreadable {chain : List Path} {file : Path} {items : List SourceItem} {s s' : FileSymbols}
      {c c' : SymbolCache} {module : String} {line : Nat} {target : Path}
      (found : (look naming reader c file module).found = some target)
      (offWay : target.isIn (file :: chain) = false)
      (uncached : c.get? target = none)
      (unread : reader.text? target = none)
      (rest : Gathers naming reader chain file items
        (s.watch (look naming reader c file module).probed) c s' c') :
      Gathers naming reader chain file (.require module line :: items) s c s' c'
  | cached {chain : List Path} {file : Path} {items : List SourceItem} {s s' : FileSymbols}
      {c c' : SymbolCache} {module : String} {line : Nat} {target : Path} {r : FileSymbols}
      (found : (look naming reader c file module).found = some target)
      (offWay : target.isIn (file :: chain) = false)
      (hit : c.get? target = some r)
      (rest : Gathers naming reader chain file items
        ((s.watch (look naming reader c file module).probed).takeOver ⟨line, module, target⟩ r)
        c s' c') :
      Gathers naming reader chain file (.require module line :: items) s c s' c'
  | followed {chain : List Path} {file : Path} {items : List SourceItem} {s s' : FileSymbols}
      {c c₁ c' : SymbolCache} {module : String} {line : Nat} {target : Path} {text : String}
      {r : FileSymbols}
      (found : (look naming reader c file module).found = some target)
      (offWay : target.isIn (file :: chain) = false)
      (uncached : c.get? target = none)
      (read : reader.text? target = some text)
      (below : Gathers naming reader (file :: chain) target
        (SourceItem.scan target text.toList) {} c.countScan r c₁)
      (rest : Gathers naming reader chain file items
        ((s.watch (look naming reader c file module).probed).takeOver ⟨line, module, target⟩ r)
        (c₁.insert target r) s' c') :
      Gathers naming reader chain file (.require module line :: items) s c s' c'

/-! ## Visits are traversals -/

namespace Extraction

variable {naming : Naming} {reader : SourceReader} {asked : Path → Prop}

/-- The files on the way, the innermost first: they are different, and all but the outermost were
found and read. -/
structure Way (reader : SourceReader) (asked : Path → Prop) (way : List Path) : Prop where
  distinct : (way.map Path.components).Nodup
  readable : ∀ p ∈ way.dropLast, asked p ∧ (reader.text? p).isSome = true

theorem Way.root (file : Path) : Way reader asked [file] where
  distinct := by simp
  readable := by simp

theorem Way.follow {target : Path} {way : List Path} {text : String} (h : Way reader asked way)
    (ha : asked target) (ht : reader.text? target = some text) (hoff : target.isIn way = false) :
    Way reader asked (target :: way) where
  distinct := by
    rw [List.map_cons, List.nodup_cons]
    refine ⟨?_, h.distinct⟩
    simpa [Path.isIn] using hoff
  readable := by
    intro p hp
    cases way with
    | nil => cases hp
    | cons file chain =>
      rw [List.dropLast_cons_of_ne_nil (List.cons_ne_nil _ _)] at hp
      rcases List.mem_cons.mp hp with rfl | hp
      · exact ⟨ha, by rw [ht]; rfl⟩
      · exact h.readable p hp

/-- A way has one file more than can be read at most. -/
theorem Way.length_le {limit : Nat} (hb : reader.Bounded asked limit) {way : List Path}
    (h : Way reader asked way) : way.length ≤ limit + 1 := by
  have hsub : (way.dropLast.map Path.components).Nodup :=
    h.distinct.sublist ((List.dropLast_sublist way).map _)
  have hle := hb way.dropLast h.readable hsub
  rw [List.length_dropLast] at hle
  omega

/-! ### One directive

The four outcomes of a directive, each by the symbols and the cache it leaves. -/

section

variable {follow : Follow} {chain : List Path} {file : Path} {draft : Draft} {module : String}
  {line : Nat} {target : Path}

theorem absorb_missing (h : (look naming reader draft.cache file module).found = none) :
    let next := absorb naming reader follow chain file draft (.require module line)
    next.symbols = draft.symbols.watch (look naming reader draft.cache file module).probed ∧
      next.cache = draft.cache := by
  unfold look at h ⊢
  simp only [absorb, followRequire, h, Draft.report, and_self]

theorem absorb_circular (h : (look naming reader draft.cache file module).found = some target)
    (hon : target.isIn chain = true) :
    let next := absorb naming reader follow chain file draft (.require module line)
    next.symbols =
        (draft.symbols.watch (look naming reader draft.cache file module).probed).reportCycle
          ⟨line, module, target⟩ ∧
      next.cache = draft.cache := by
  unfold look at h ⊢
  simp only [absorb, followRequire, h, hon, if_true, Draft.report, Draft.closeCycle, and_self]

theorem absorb_unreadable (h : (look naming reader draft.cache file module).found = some target)
    (hoff : target.isIn chain = false) (hget : draft.cache.get? target = none)
    (ht : reader.text? target = none) :
    let next := absorb naming reader follow chain file draft (.require module line)
    next.symbols = draft.symbols.watch (look naming reader draft.cache file module).probed ∧
      next.cache = draft.cache := by
  unfold look at h ⊢
  cases hread : reader.read target with
  | ok text =>
    rw [SourceReader.text?_eq_some.mpr hread] at ht
    simp at ht
  | error fault =>
    simp [absorb, followRequire, h, hoff, Draft.report, required, hget, hread]

theorem absorb_cached {r : FileSymbols}
    (h : (look naming reader draft.cache file module).found = some target)
    (hoff : target.isIn chain = false) (hget : draft.cache.get? target = some r) :
    let next := absorb naming reader follow chain file draft (.require module line)
    next.symbols =
        (draft.symbols.watch (look naming reader draft.cache file module).probed).takeOver
          ⟨line, module, target⟩ r ∧
      next.cache = draft.cache := by
  unfold look at h ⊢
  simp [absorb, followRequire, h, hoff, Draft.report, Draft.takeOver, required, hget,
    FileSymbols.takeOver]

theorem absorb_followed {text : String}
    (h : (look naming reader draft.cache file module).found = some target)
    (hoff : target.isIn chain = false) (hget : draft.cache.get? target = none)
    (ht : reader.text? target = some text) :
    let next := absorb naming reader follow chain file draft (.require module line)
    next.symbols =
        (draft.symbols.watch (look naming reader draft.cache file module).probed).takeOver
          ⟨line, module, target⟩ (follow target text draft.cache).value ∧
      next.cache = (follow target text draft.cache).state := by
  unfold look at h ⊢
  have hread := SourceReader.text?_eq_some.mp ht
  simp [absorb, followRequire, h, hoff, Draft.report, Draft.takeOver, required, hget, hread,
    FileSymbols.takeOver]

end

/-- Folding over items is a traversal, provided following a single file is one. -/
theorem gathers_of_follow {follow : Follow} {chain : List Path} {file : Path}
    (hfollow : ∀ target text cache, naming.Asks target → reader.text? target = some text →
      target.isIn (file :: chain) = false → ∃ c₁,
        Gathers naming reader (file :: chain) target (SourceItem.scan target text.toList) {}
          cache.countScan (follow target text cache).value c₁ ∧
        (follow target text cache).state = c₁.insert target (follow target text cache).value)
    (items : List SourceItem) (draft : Draft) :
    Gathers naming reader chain file items draft.symbols draft.cache
      (items.foldl (absorb naming reader follow (file :: chain) file) draft).symbols
      (items.foldl (absorb naming reader follow (file :: chain) file) draft).cache := by
  induction items generalizing draft with
  | nil => exact .done
  | cons item items ih =>
    have hrest := ih (absorb naming reader follow (file :: chain) file draft item)
    rw [List.foldl_cons]
    cases item with
    | function d => exact .declared hrest
    | require module line =>
      cases hfound : (look naming reader draft.cache file module).found with
      | none =>
        obtain ⟨hs, hc⟩ := absorb_missing hfound
        rw [hs, hc] at hrest
        exact .missing hfound hrest
      | some target =>
        cases hway : target.isIn (file :: chain) with
        | true =>
          obtain ⟨hs, hc⟩ := absorb_circular hfound hway
          rw [hs, hc] at hrest
          exact .circular hfound hway hrest
        | false =>
          cases hget : draft.cache.get? target with
          | some r =>
            obtain ⟨hs, hc⟩ := absorb_cached hfound hway hget
            rw [hs, hc] at hrest
            exact .cached hfound hway hget hrest
          | none =>
            cases htext : reader.text? target with
            | none =>
              obtain ⟨hs, hc⟩ := absorb_unreadable hfound hway hget htext
              rw [hs, hc] at hrest
              exact .unreadable hfound hway hget htext hrest
            | some text =>
              obtain ⟨c₁, hbelow, hstate⟩ :=
                hfollow target text draft.cache (Naming.asks_of_found hfound) htext hway
              obtain ⟨hs, hc⟩ := absorb_followed hfound hway hget htext
              rw [hs, hc, hstate] at hrest
              exact .followed hfound hway hget htext hbelow hrest

/-- **A visit is a traversal.**  If the depth that is left exceeds the number of files that can still be
found, it is never used up, and the visit gathers the items of its file and caches what it gathered. -/
theorem visit_gathers (hasks : ∀ q, naming.Asks q → asked q) {limit : Nat}
    (hb : reader.Bounded asked limit) {depth : Nat} {chain : List Path} {file : Path}
    (hway : Way reader asked (file :: chain)) (hdepth : limit < depth + chain.length) (text : String)
    (cache : SymbolCache) : ∃ c₁,
      Gathers naming reader chain file (SourceItem.scan file text.toList) {} cache.countScan
        (visit naming reader depth chain file text cache).value c₁ ∧
      (visit naming reader depth chain file text cache).state =
        c₁.insert file (visit naming reader depth chain file text cache).value := by
  induction depth generalizing chain file text cache with
  | zero =>
    have hlength := hway.length_le hb
    rw [List.length_cons] at hlength
    omega
  | succ depth ih =>
    have hfollow : ∀ target targetText c, naming.Asks target →
        reader.text? target = some targetText → target.isIn (file :: chain) = false → _ :=
      fun target targetText c hask htext hoff =>
        ih (hway.follow (hasks target hask) htext hoff) (by rw [List.length_cons]; omega) targetText c
    let start : Draft :=
      { cache := cache.countScan
        events := .extracting file text.utf8ByteSize ::
          (SourceItem.scan file text.toList).map SourceItem.event }
    exact ⟨_, gathers_of_follow hfollow (SourceItem.scan file text.toList) start, rfl⟩

/-- Extracting a file is a traversal below nothing. -/
theorem extract_gathers (hr : reader.Regular naming asked) (file : Path) (text : String)
    (cache : SymbolCache) : ∃ c₁,
      Gathers naming reader [] file (SourceItem.scan file text.toList) {} cache.countScan
        (extract naming reader file text cache).value c₁ ∧
      (extract naming reader file text cache).state =
        c₁.insert file (extract naming reader file text cache).value :=
  visit_gathers hr.asks hr.bounded (.root file) (by simp) text cache

end Extraction

/-! ## What a traversal does to the cache -/

namespace Gathers

variable {naming : Naming} {reader : SourceReader} {asked : Path → Prop} {chain : List Path}
  {file : Path} {items : List SourceItem} {s s' : FileSymbols} {c c' : SymbolCache}

/-- Whatever counting a scan keeps, and caching a file that was found, read and traversed, is kept by
every traversal. -/
theorem preserves {P : SymbolCache → Prop} (hscan : ∀ c, P c → P c.countScan)
    (hinsert : ∀ (file : Path) (module : String) (target : Path) (text : String) (r : FileSymbols)
      (c c₁ : SymbolCache), (look naming reader c file module).found = some target →
      c.get? target = none → reader.text? target = some text → P c → P c₁ → P (c₁.insert target r))
    (h : Gathers naming reader chain file items s c s' c') (hc : P c) : P c' := by
  induction h with
  | done => exact hc
  | declared _ ih => exact ih hc
  | missing _ _ ih => exact ih hc
  | circular _ _ _ ih => exact ih hc
  | unreadable _ _ _ _ _ ih => exact ih hc
  | cached _ _ _ _ ih => exact ih hc
  | followed found _ uncached read _ _ ihBelow ih =>
    exact ih (hinsert _ _ _ _ _ _ _ found uncached read hc (ihBelow (hscan _ hc)))

theorem linked (h : Gathers naming reader chain file items s c s' c') (hc : c.Linked) : c'.Linked :=
  h.preserves (fun _ hc => hc.countScan) (fun _ _ target _ r _ _ _ _ _ _ hc₁ => hc₁.insert target r) hc

/-- No entry is changed: files are cached only where there was no entry. -/
theorem keeps (h : Gathers naming reader chain file items s c s' c') :
    ∀ e ∈ c.entries, e ∈ c'.entries := by
  refine h.preserves (P := fun c₁ => ∀ e ∈ c.entries, e ∈ c₁.entries) (fun _ hc => hc) ?_ ?_
  · intro _ _ target _ r c₀ c₁ _ uncached _ hc₀ hc₁ e he
    rw [SymbolCache.mem_insert]
    refine Or.inl ⟨hc₁ e he, ?_⟩
    intro hkey
    have hcontains := SymbolCache.contains_of_mem (hc₀ e he) hkey
    rw [SymbolCache.contains_eq, uncached] at hcontains
    simp at hcontains
  · exact fun e he => he

/-- A file on the way is not cached before its own traversal is over. -/
theorem uncached_of_isIn (h : Gathers naming reader chain file items s c s' c') {w : Path}
    (hw : w.isIn (file :: chain) = true) (hc : c.get? w = none) : c'.get? w = none := by
  induction h with
  | done => exact hc
  | declared _ ih => exact ih hw hc
  | missing _ _ ih => exact ih hw hc
  | circular _ _ _ ih => exact ih hw hc
  | unreadable _ _ _ _ _ ih => exact ih hw hc
  | cached _ _ _ _ ih => exact ih hw hc
  | @followed _ _ _ _ _ _ _ _ _ _ target _ _ _ offWay _ _ _ _ ihBelow ih =>
    apply ih hw
    rw [SymbolCache.get?_insert]
    have hne : ¬ w.components = target.components := by
      intro heq
      rw [Path.isIn_congr heq, offWay] at hw
      simp at hw
    rw [if_neg hne]
    refine ihBelow ?_ hc
    obtain ⟨q, hq, hqw⟩ := Path.isIn_iff.mp hw
    exact Path.isIn_iff.mpr ⟨q, List.mem_cons_of_mem _ hq, hqw⟩

end Gathers

/-! ### Entries of readable files -/

/-- Every entry is that of a file that is there and can be read. -/
def Grounded (reader : SourceReader) (asked : Path → Prop) (cache : SymbolCache) : Prop :=
  ∀ e ∈ cache.entries,
    asked e.file ∧ reader.isFile e.file = true ∧ (reader.text? e.file).isSome = true

namespace Grounded

variable {naming : Naming} {reader : SourceReader} {asked : Path → Prop} {cache : SymbolCache}

theorem insert (h : Grounded reader asked cache) {file : Path} {s : FileSymbols} (ha : asked file)
    (hf : reader.isFile file = true) (ht : (reader.text? file).isSome = true) :
    Grounded reader asked (cache.insert file s) := by
  intro e he
  rcases SymbolCache.mem_insert.mp he with ⟨he, -⟩ | rfl
  · exact h e he
  · exact ⟨ha, hf, ht⟩

/-- A cached file is there, so that looking into the cache changes no search. -/
theorem look_eq (hr : reader.Regular naming asked) (h : Grounded reader asked cache) (file : Path)
    (module : String) : look naming reader cache file module =
      naming.resolve reader.isFile file module := by
  apply Naming.resolve_congr
  intro q hq
  have haq := hr.asks q (Naming.asks_of_probed hq)
  cases hc : cache.contains q with
  | false => rfl
  | true =>
    obtain ⟨e, he, hkey⟩ := SymbolCache.mem_of_contains hc
    obtain ⟨hae, hfe, -⟩ := h e he
    rw [hr.isFile_congr q e.file haq hae hkey.symm, hfe]
    rfl

/-- A file that was found and read without being cached is there. -/
theorem follow (hr : reader.Regular naming asked) (h : Grounded reader asked cache)
    {c : SymbolCache} {file target : Path} {module text : String}
    (found : (look naming reader c file module).found = some target)
    (uncached : c.get? target = none) (read : reader.text? target = some text) (s : FileSymbols) :
    Grounded reader asked (cache.insert target s) := by
  have hthere := Naming.isThere_of_found found
  rw [SymbolCache.contains_eq, uncached] at hthere
  exact h.insert (hr.asks target (Naming.asks_of_found found)) hthere (by rw [read]; rfl)

theorem gathers (hr : reader.Regular naming asked) {chain : List Path} {file : Path}
    {items : List SourceItem} {s s' : FileSymbols} {c c' : SymbolCache}
    (h : Gathers naming reader chain file items s c s' c') (hc : Grounded reader asked c) :
    Grounded reader asked c' := by
  refine h.preserves (fun _ hc => hc) ?_ hc
  intro file module target text r c c₁ found uncached read _ hc₁
  exact hc₁.follow hr found uncached read r

end Grounded

end ScriptIndex
