import ScriptIndex.Proofs.Traversal

/-!
# What an extraction can add

Whatever is read and whatever is cached, an item can add few things to the symbols of its file: a
function takes its place, and a directive is searched for and then left, reported as circular, or
followed.  What none of these can break holds of all symbols, and of all entries that are made.

* `Adds`, `AddsAll` — what one item can add, and what some items can add one after the other;
* `Extraction.absorb_step` — what taking in one item does to the symbols and to the cache;
* `Extraction.visit_value`, `Extraction.extract_entries` — what every item keeps holds of the symbols
  that are extracted, and of all entries if it held of those there were;
* `Extraction.visit_preserves` — what every new entry keeps holds of the cache;
* `Gathers.adds`, `Gathers.entries_added` — a traversal adds things up, for its file and for every entry;
* `AddsAll.isIn_watched`, `AddsAll.watchesCandidates` — what is watched stays watched, and is a candidate.
-/

namespace ScriptIndex

/-! ## One item -/

/-- What one item of `file` can add to its symbols.  A search may take any files for present. -/
inductive Adds (naming : Naming) (file : Path) : SourceItem → FileSymbols → FileSymbols → Prop
  | declared {d : Declaration} {s : FileSymbols} : Adds naming file (.function d) s (s.declare d)
  | lookedFor {module : String} {line : Nat} {s : FileSymbols} (isFile : Path → Bool) :
      Adds naming file (.require module line) s (s.watch (naming.resolve isFile file module).probed)
  | circular {module : String} {line : Nat} {s : FileSymbols} {isFile : Path → Bool} {target : Path}
      (found : (naming.resolve isFile file module).found = some target) :
      Adds naming file (.require module line) s
        ((s.watch (naming.resolve isFile file module).probed).reportCycle ⟨line, module, target⟩)
  | followed {module : String} {line : Nat} {s : FileSymbols} {isFile : Path → Bool} {target : Path}
      (found : (naming.resolve isFile file module).found = some target) (required : FileSymbols) :
      Adds naming file (.require module line) s
        ((s.watch (naming.resolve isFile file module).probed).takeOver ⟨line, module, target⟩ required)

/-- What the items of `file` can add to its symbols one after the other. -/
inductive AddsAll (naming : Naming) (file : Path) :
    List SourceItem → FileSymbols → FileSymbols → Prop
  | nil {s : FileSymbols} : AddsAll naming file [] s s
  | cons {item : SourceItem} {items : List SourceItem} {s t s' : FileSymbols}
      (first : Adds naming file item s t) (rest : AddsAll naming file items t s') :
      AddsAll naming file (item :: items) s s'

/-- Only candidates of modules are watched. -/
def FileSymbols.WatchesCandidates (naming : Naming) (symbols : FileSymbols) : Prop :=
  ∀ w ∈ symbols.watched, naming.Asks w

/-- A watched path was watched before or is among those a search asked for. -/
theorem FileSymbols.mem_watch {symbols : FileSymbols} {probed : List Path} {w : Path}
    (h : w ∈ (symbols.watch probed).watched) : w ∈ probed ∨ w ∈ symbols.watched := by
  revert h
  show w ∈ probed.foldl (fun paths p => p.addTo paths) symbols.watched → _
  generalize symbols.watched = paths
  intro h
  induction probed generalizing paths with
  | nil => exact Or.inr h
  | cons p rest ih =>
    rcases ih _ h with hrest | hadded
    · exact Or.inl (List.mem_cons_of_mem _ hrest)
    · have hadded : w ∈ p.addTo paths := hadded
      unfold Path.addTo at hadded
      split at hadded
      · exact Or.inr hadded
      · rcases List.mem_append.mp hadded with hpaths | hp
        · exact Or.inr hpaths
        · exact Or.inl (List.mem_singleton.mp hp ▸ List.mem_cons_self)

namespace Adds

variable {naming : Naming} {file : Path} {item : SourceItem} {s s' : FileSymbols}

/-- An item adds to the watched paths what a search asked for, or nothing. -/
theorem watched (h : Adds naming file item s s') :
    s'.watched = s.watched ∨ ∃ isFile module,
      s'.watched = (s.watch (naming.resolve isFile file module).probed).watched := by
  cases h with
  | declared => exact Or.inl rfl
  | lookedFor isFile => exact Or.inr ⟨isFile, _, rfl⟩
  | circular _ => exact Or.inr ⟨_, _, rfl⟩
  | followed _ required => exact Or.inr ⟨_, _, FileSymbols.takeOver_watched⟩

theorem isIn_watched (h : Adds naming file item s s') {q : Path} (hq : q.isIn s.watched = true) :
    q.isIn s'.watched = true := by
  rcases h.watched with hsame | ⟨isFile, module, hwatched⟩
  · rw [hsame]
    exact hq
  · rw [hwatched]
    exact FileSymbols.isIn_watch.mpr (Or.inr hq)

theorem watchesCandidates (h : Adds naming file item s s') (hs : s.WatchesCandidates naming) :
    s'.WatchesCandidates naming := by
  intro w hw
  rcases h.watched with hsame | ⟨isFile, module, hwatched⟩
  · rw [hsame] at hw
    exact hs w hw
  · rw [hwatched] at hw
    rcases FileSymbols.mem_watch hw with hprobed | hbefore
    · exact Naming.asks_of_probed hprobed
    · exact hs w hbefore

end Adds

namespace AddsAll

variable {naming : Naming} {file : Path} {items : List SourceItem} {s t s' : FileSymbols}

/-- What every item keeps, all of them keep. -/
theorem preserves {P : FileSymbols → Prop}
    (hadds : ∀ item s s', Adds naming file item s s' → P s → P s')
    (h : AddsAll naming file items s s') (hs : P s) : P s' := by
  induction h with
  | nil => exact hs
  | cons first _ ih => exact ih (hadds _ _ _ first hs)

/-- What was watched is watched to the end. -/
theorem isIn_watched (h : AddsAll naming file items s s') {q : Path} (hq : q.isIn s.watched = true) :
    q.isIn s'.watched = true :=
  h.preserves (P := fun s => q.isIn s.watched = true) (fun _ _ _ hadds => hadds.isIn_watched) hq

/-- What a search asked for is watched to the end. -/
theorem isIn_of_probed {probed : List Path} (h : AddsAll naming file items t s')
    (ht : t.watched = (s.watch probed).watched) {q : Path} (hq : q.isIn probed = true) :
    q.isIn s'.watched = true := by
  apply h.isIn_watched
  rw [ht]
  exact FileSymbols.isIn_watch.mpr (Or.inl hq)

theorem watchesCandidates (h : AddsAll naming file items {} s') : s'.WatchesCandidates naming :=
  h.preserves (fun _ _ _ hadds => hadds.watchesCandidates) fun w hw => by cases hw

end AddsAll

/-! ## Extractions over any reader -/

namespace Extraction

variable {naming : Naming} {reader : SourceReader}

/-- **One step of an extraction**: an item adds to the symbols what it can add, and the cache stays as it
is or is what following a file without an entry leaves. -/
theorem absorb_step {follow : Follow} {chain : List Path} {file : Path} (draft : Draft)
    (item : SourceItem) :
    let next := absorb naming reader follow chain file draft item
    Adds naming file item draft.symbols next.symbols ∧
      (next.cache = draft.cache ∨ ∃ target text, draft.cache.get? target = none ∧
        next.cache = (follow target text draft.cache).state) := by
  intro next
  cases item with
  | function d => exact ⟨.declared, Or.inl rfl⟩
  | require module line =>
    cases hfound : (look naming reader draft.cache file module).found with
    | none =>
      obtain ⟨hsymbols, hcache⟩ := absorb_missing hfound
      exact ⟨hsymbols ▸ .lookedFor _, Or.inl hcache⟩
    | some target =>
      cases hway : target.isIn chain with
      | true =>
        obtain ⟨hsymbols, hcache⟩ := absorb_circular hfound hway
        exact ⟨hsymbols ▸ .circular hfound, Or.inl hcache⟩
      | false =>
        cases hget : draft.cache.get? target with
        | some r =>
          obtain ⟨hsymbols, hcache⟩ := absorb_cached hfound hway hget
          exact ⟨hsymbols ▸ .followed hfound r, Or.inl hcache⟩
        | none =>
          cases htext : reader.text? target with
          | none =>
            obtain ⟨hsymbols, hcache⟩ := absorb_unreadable hfound hway hget htext
            exact ⟨hsymbols ▸ .lookedFor _, Or.inl hcache⟩
          | some text =>
            obtain ⟨hsymbols, hcache⟩ := absorb_followed hfound hway hget htext
            exact ⟨hsymbols ▸ .followed hfound _, Or.inr ⟨target, text, hget, hcache⟩⟩

/-- What every item of a text keeps holds of the symbols that a visit of the text gives. -/
theorem visit_value {P : FileSymbols → Prop} (hempty : P {}) {file : Path} {text : String}
    (hadds : ∀ item ∈ SourceItem.scan file text.toList, ∀ s s', Adds naming file item s s' → P s → P s')
    (depth : Nat) (chain : List Path) (cache : SymbolCache) :
    P (visit naming reader depth chain file text cache).value := by
  cases depth with
  | zero => exact hempty
  | succ depth =>
    show P (gather naming reader _ _ file text cache).symbols
    unfold gather
    exact List.foldlRecOn (motive := fun draft : Draft => P draft.symbols) _ _ hempty
      fun draft hdraft item hitem => hadds item hitem _ _ (absorb_step draft item).1 hdraft

variable {P : SymbolCache → Prop}

/-- Taking in items keeps what following a file without an entry keeps. -/
theorem foldl_absorb_preserves {follow : Follow} {chain : List Path} {file : Path}
    (hfollow : ∀ target text cache, cache.get? target = none → P cache →
      P (follow target text cache).state)
    (items : List SourceItem) {draft : Draft} (h : P draft.cache) :
    P (items.foldl (absorb naming reader follow chain file) draft).cache := by
  refine List.foldlRecOn (motive := fun draft : Draft => P draft.cache) _ _ h ?_
  intro draft hdraft item _
  rcases (absorb_step draft item).2 with hsame | ⟨target, text, hget, hstate⟩
  · rw [hsame]
    exact hdraft
  · rw [hstate]
    exact hfollow target text draft.cache hget hdraft

/-- A visit caches its file in a cache that has what counting scans and caching uncached files keep;
what is cached may be relied on to have what all symbols have that a visit gives. -/
theorem visit_preserves {Q : FileSymbols → Prop}
    (hvalue : ∀ depth chain file text cache, Q (visit naming reader depth chain file text cache).value)
    (hscan : ∀ cache, P cache → P cache.countScan)
    (hinsert : ∀ file symbols cache later, Q symbols → cache.get? file = none → P cache → P later →
      P (later.insert file symbols))
    (depth : Nat) (chain : List Path) (file : Path) (text : String) (cache : SymbolCache)
    (h : P cache) : ∃ later, P later ∧
      (visit naming reader (depth + 1) chain file text cache).state =
        later.insert file (visit naming reader (depth + 1) chain file text cache).value := by
  induction depth generalizing chain file text cache with
  | zero => exact ⟨_, foldl_absorb_preserves (fun _ _ _ _ hcache => hcache) _ (hscan cache h), rfl⟩
  | succ depth ih =>
    refine ⟨_, foldl_absorb_preserves (fun target text cache hget hcache => ?_) _ (hscan cache h), rfl⟩
    obtain ⟨later, hlater, hstate⟩ := ih (file :: chain) target text cache hcache
    rw [hstate]
    exact hinsert target _ cache later (hvalue ..) hget hcache hlater

/-- What every item keeps holds of all entries after an extraction if it held of those before. -/
theorem extract_entries {Q : FileSymbols → Prop} (hempty : Q {})
    (hadds : ∀ file item s s', Adds naming file item s s' → Q s → Q s') {cache : SymbolCache}
    (h : ∀ e ∈ cache.entries, Q e.symbols) (file : Path) (text : String) :
    ∀ e ∈ (extract naming reader file text cache).state.entries, Q e.symbols := by
  have hvalue : ∀ depth chain file text cache,
      Q (visit naming reader depth chain file text cache).value :=
    fun depth chain file _ cache => visit_value hempty (fun item _ => hadds file item) depth chain cache
  have hinsert : ∀ (file : Path) {symbols : FileSymbols} {later : SymbolCache}, Q symbols →
      (∀ e ∈ later.entries, Q e.symbols) → ∀ e ∈ (later.insert file symbols).entries, Q e.symbols := by
    intro file symbols later hsymbols hlater e he
    rcases SymbolCache.mem_insert.mp he with ⟨he, -⟩ | rfl
    · exact hlater e he
    · exact hsymbols
  obtain ⟨later, hlater, hstate⟩ := @visit_preserves naming reader
    (fun cache => ∀ e ∈ cache.entries, Q e.symbols) Q hvalue (fun _ hcache => hcache)
    (fun target _ _ _ hsymbols _ _ hlater => hinsert target hsymbols hlater)
    reader.limit [] file text cache h
  unfold extract
  rw [hstate]
  exact hinsert file (hvalue ..) hlater

end Extraction

/-! ## Traversals -/

namespace Gathers

variable {naming : Naming} {reader : SourceReader} {chain : List Path} {file : Path}
  {items : List SourceItem} {s s' : FileSymbols} {c c' : SymbolCache}

theorem adds (h : Gathers naming reader chain file items s c s' c') :
    AddsAll naming file items s s' := by
  induction h with
  | done => exact .nil
  | declared _ ih => exact .cons .declared ih
  | missing _ _ ih => exact .cons (.lookedFor _) ih
  | circular found _ _ ih => exact .cons (.circular found) ih
  | unreadable _ _ _ _ _ ih => exact .cons (.lookedFor _) ih
  | cached found _ _ _ ih => exact .cons (.followed found _) ih
  | followed found _ _ _ _ _ _ ih => exact .cons (.followed found _) ih

/-- Every entry was there before or is added up from nothing. -/
theorem entries_added (h : Gathers naming reader chain file items s c s' c') :
    ∀ e ∈ c'.entries, e ∈ c.entries ∨ ∃ items, AddsAll naming e.file items {} e.symbols := by
  induction h with
  | done => exact fun e he => Or.inl he
  | declared _ ih => exact ih
  | missing _ _ ih => exact ih
  | circular _ _ _ ih => exact ih
  | unreadable _ _ _ _ _ ih => exact ih
  | cached _ _ _ _ ih => exact ih
  | followed _ _ _ _ below _ ihBelow ih =>
    intro e he
    rcases ih e he with he | hadded
    · rcases SymbolCache.mem_insert.mp he with ⟨he, -⟩ | rfl
      · exact ihBelow e he
      · exact Or.inr ⟨_, below.adds⟩
    · exact Or.inr hadded

end Gathers

end ScriptIndex
