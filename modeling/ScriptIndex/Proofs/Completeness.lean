import ScriptIndex.Proofs.RequireGraph

/-!
# Nothing in reach is left out

A traversal does not follow a directive back to a file on the way, and what it caches of the files on
a cycle lacks the functions of those further up.  The file it started from still has everything: each
file that is traversed hands its names to the file that led there, and each file in reach is either
traversed or on the way.

* `InReach` — a name is declared in a file that can be reached;
* `Gathers.within` — a traversal gathers names in reach only, and caches files in reach only;
* `Met`, `Whole` — what an item asks for is there, and what all items of a cached file ask for;
* `Gathers.covers` — a traversal meets all items, its own and those of the files it caches;
* `extract_complete` — so an extraction that starts from nothing finds exactly what is in reach.
-/

namespace ScriptIndex

open Relation

/-! ## Names -/

namespace FileSymbols

/-- The names of the functions of a file, its own and the required ones. -/
def names (symbols : FileSymbols) : List String :=
  symbols.functions.map Declaration.name

variable {s r : FileSymbols} {name : String}

theorem mem_names_declare {d : Declaration} :
    name ∈ (s.declare d).names ↔ name = d.name ∨ name ∈ s.names := by
  show name ∈ (Keyed.put Declaration.name d s.functions).map Declaration.name ↔ _
  rw [Keyed.map_key_put]
  show _ ↔ name = d.name ∨ name ∈ s.functions.map Declaration.name
  split
  · next htaken =>
    refine ⟨Or.inr, ?_⟩
    rintro (rfl | h)
    · exact htaken
    · exact h
  · simp [or_comm]

theorem mem_names_adoptOne {functions : List Declaration} {d : Declaration} :
    name ∈ (adoptOne functions d).map Declaration.name ↔
      name ∈ functions.map Declaration.name ∨ name = d.name := by
  by_cases htaken : d.name ∈ functions.map Declaration.name
  · have hsame : adoptOne functions d = functions := if_pos (decide_eq_true htaken)
    rw [hsame]
    refine ⟨Or.inl, ?_⟩
    rintro (h | rfl)
    · exact h
    · exact htaken
  · have hadded : adoptOne functions d = functions ++ [d.asRequired] := by
      simp [adoptOne, Keyed.has, htaken]
    rw [hadded]
    simp [Declaration.asRequired]

/-- Taking over symbols adds their names, whatever was taken before. -/
theorem mem_names_takeOver {directive : CircularRequire} :
    name ∈ (s.takeOver directive r).names ↔ name ∈ s.names ∨ name ∈ r.names := by
  show name ∈ (s.takeOver directive r).functions.map Declaration.name ↔
    name ∈ s.functions.map Declaration.name ∨ name ∈ r.functions.map Declaration.name
  rw [takeOver_functions]
  generalize s.functions = functions
  induction r.functions generalizing functions with
  | nil => simp
  | cons d rest ih =>
    rw [List.foldl_cons, ih, mem_names_adoptOne, List.map_cons, List.mem_cons, or_assoc]

end FileSymbols

/-- The file `k` holds the header of a function of the given name. -/
def Declares (reader : SourceReader) (k : List Component) (name : String) : Prop :=
  ∃ (q : Path) (text : String) (d : Declaration), q.components = k ∧ reader.text? q = some text ∧
    .function d ∈ SourceItem.scan q text.toList ∧ d.name = name

/-- A name is declared in the file `k` or in one that can be reached from it. -/
def InReach (naming : Naming) (reader : SourceReader) (k : List Component) (name : String) : Prop :=
  ∃ l, ReflTransGen (Requires naming reader) k l ∧ Declares reader l name

variable {naming : Naming} {reader : SourceReader}

/-- What a file declares can be read off any way to write its path. -/
theorem declares_iff (hr : reader.Regular naming fun _ => True) {p : Path} {text name : String}
    (ht : reader.text? p = some text) :
    Declares reader p.components name ↔
      ∃ d, .function d ∈ SourceItem.scan p text.toList ∧ d.name = name := by
  constructor
  · rintro ⟨q, text', d, hq, ht', hmem, hname⟩
    have htext := hr.text_congr q p trivial trivial hq
    rw [ht, ht', Option.some.injEq] at htext
    subst htext
    refine ⟨{ d with file := p }, ?_, hname⟩
    rw [SourceItem.scan_movedTo p q]
    exact List.mem_map.mpr ⟨_, hmem, rfl⟩
  · rintro ⟨d, hmem, hname⟩
    exact ⟨p, text, d, rfl, ht, hmem, hname⟩

theorem InReach.step {k l : List Component} {name : String} (hedge : Requires naming reader k l)
    (h : InReach naming reader l name) : InReach naming reader k name := by
  obtain ⟨m, hreach, hdeclares⟩ := h
  exact ⟨m, ReflTransGen.head hedge hreach, hdeclares⟩

/-! ## Nothing else is found -/

/-- **A traversal stays in reach.**  The names it adds and the files it caches are in reach of its
file, and the names of each cached file in reach of that one. -/
theorem Gathers.within (hr : reader.Regular naming fun _ => True) {chain : List Path} {file : Path}
    {items : List SourceItem} {s s' : FileSymbols} {c c' : SymbolCache} {text : String}
    (h : Gathers naming reader chain file items s c s' c') (ht : reader.text? file = some text)
    (hitems : ∀ item ∈ items, item ∈ SourceItem.scan file text.toList)
    (hg : Grounded reader (fun _ => True) c)
    (hc : ∀ e ∈ c.entries, ∀ n ∈ e.symbols.names, InReach naming reader e.file.components n) :
    (∀ n ∈ s'.names, n ∈ s.names ∨ InReach naming reader file.components n) ∧
      ∀ e ∈ c'.entries, e ∈ c.entries ∨
        (ReflTransGen (Requires naming reader) file.components e.file.components ∧
          ∀ n ∈ e.symbols.names, InReach naming reader e.file.components n) := by
  induction h generalizing text with
  | done => exact ⟨fun n hn => Or.inl hn, fun e he => Or.inl he⟩
  | @declared _ file _ _ _ _ _ d _ ih =>
    obtain ⟨hnames, hentries⟩ := ih ht (fun i hi => hitems i (List.mem_cons_of_mem _ hi)) hg hc
    refine ⟨fun n hn => ?_, hentries⟩
    rcases hnames n hn with hn | hn
    · rcases FileSymbols.mem_names_declare.mp hn with rfl | hn
      · exact Or.inr ⟨file.components, ReflTransGen.refl,
          file, text, d, rfl, ht, hitems _ List.mem_cons_self, rfl⟩
      · exact Or.inl hn
    · exact Or.inr hn
  | missing _ _ ih => exact ih ht (fun i hi => hitems i (List.mem_cons_of_mem _ hi)) hg hc
  | circular _ _ _ ih => exact ih ht (fun i hi => hitems i (List.mem_cons_of_mem _ hi)) hg hc
  | unreadable _ _ _ _ _ ih =>
    exact ih ht (fun i hi => hitems i (List.mem_cons_of_mem _ hi)) hg hc
  | cached found _ hit _ ih =>
    obtain ⟨hnames, hentries⟩ := ih ht (fun i hi => hitems i (List.mem_cons_of_mem _ hi)) hg hc
    refine ⟨fun n hn => ?_, hentries⟩
    obtain ⟨e, he, hkey, rfl⟩ := SymbolCache.mem_of_get? hit
    have hread := (hg e he).2.2
    rw [hr.text_congr _ _ trivial trivial hkey] at hread
    rw [hg.look_eq hr] at found
    have hedge := requires_of_found ht (hitems _ List.mem_cons_self) found hread
    rcases hnames n hn with hn | hn
    · refine (FileSymbols.mem_names_takeOver.mp hn).imp_right fun hn => ?_
      exact (hkey ▸ hc e he n hn).step hedge
    · exact Or.inr hn
  | @followed _ file _ _ _ c c₁ _ _ _ target _ r found _ uncached read below _ ihBelow ih =>
    have hg₁ := (Grounded.gathers hr below hg).follow hr found uncached read r
    rw [hg.look_eq hr] at found
    have hread : (reader.text? target).isSome = true := by rw [read]; rfl
    have hedge := requires_of_found ht (hitems _ List.mem_cons_self) found hread
    obtain ⟨hbelow, hnew⟩ := ihBelow read (fun _ hi => hi) hg hc
    have hpassed : ∀ n ∈ r.names, InReach naming reader target.components n := by
      intro n hn
      exact (hbelow n hn).resolve_left List.not_mem_nil
    -- what the target led to, and the target itself, are in reach of this file
    have hadded : ∀ e ∈ (c₁.insert target r).entries, e ∈ c.entries ∨
        (ReflTransGen (Requires naming reader) file.components e.file.components ∧
          ∀ n ∈ e.symbols.names, InReach naming reader e.file.components n) := by
      intro e he
      rcases SymbolCache.mem_insert.mp he with ⟨he, -⟩ | rfl
      · exact (hnew e he).imp_right fun h => ⟨ReflTransGen.head hedge h.1, h.2⟩
      · exact Or.inr ⟨ReflTransGen.single hedge, hpassed⟩
    obtain ⟨hnames, hentries⟩ :=
      ih ht (fun i hi => hitems i (List.mem_cons_of_mem _ hi)) hg₁ fun e he =>
        (hadded e he).elim (hc e) And.right
    refine ⟨fun n hn => ?_, fun e he => (hentries e he).elim (hadded e) Or.inr⟩
    rcases hnames n hn with hn | hn
    · exact (FileSymbols.mem_names_takeOver.mp hn).imp_right fun hn => (hpassed n hn).step hedge
    · exact Or.inr hn

/-! ## Nothing is missed -/

section

variable (naming reader)

/-- What an item of the file `p` asks for is there: a declared name among `names`, and the target of
a directive on the way or in the cache. -/
def Met (way : List Path) (c : SymbolCache) (names : List String) (p : Path) : SourceItem → Prop
  | .function d => d.name ∈ names
  | .require module _ => ∀ t, LeadsTo naming reader p module t →
      t.isIn way = true ∨ c.contains t = true

/-- The names of an entry are among `names`, and all that the items of its file ask for is there. -/
def Whole (way : List Path) (c : SymbolCache) (names : List String) (e : CacheEntry) : Prop :=
  (∀ n ∈ e.symbols.names, n ∈ names) ∧
    ∀ text, reader.text? e.file = some text → ∀ item ∈ SourceItem.scan e.file text.toList,
      Met naming reader way c e.symbols.names e.file item

end

/-- An item stays met when names and entries are added, and when a file on the way is cached. -/
theorem Met.mono {way way' : List Path} {c c' : SymbolCache} {names names' : List String} {p : Path}
    {item : SourceItem} (h : Met naming reader way c names p item)
    (hnames : ∀ n ∈ names, n ∈ names') (hc : ∀ e ∈ c.entries, e ∈ c'.entries)
    (hway : ∀ t : Path, t.isIn way = true → t.isIn way' = true ∨ c'.contains t = true) :
    Met naming reader way' c' names' p item := by
  cases item with
  | function d => exact hnames _ h
  | require module line =>
    intro t hleads
    rcases h t hleads with ht | ht
    · exact hway t ht
    · obtain ⟨e, he, hkey⟩ := SymbolCache.mem_of_contains ht
      exact Or.inr (SymbolCache.contains_of_mem (hc e he) hkey)

theorem Whole.mono {way way' : List Path} {c c' : SymbolCache} {names names' : List String}
    {e : CacheEntry} (h : Whole naming reader way c names e) (hnames : ∀ n ∈ names, n ∈ names')
    (hc : ∀ e ∈ c.entries, e ∈ c'.entries)
    (hway : ∀ t : Path, t.isIn way = true → t.isIn way' = true ∨ c'.contains t = true) :
    Whole naming reader way' c' names' e := by
  refine ⟨fun n hn => hnames n (h.1 n hn), ?_⟩
  intro text ht item hitem
  exact (h.2 text ht item hitem).mono (fun _ hn => hn) hc hway

/-- **A traversal meets every item**, those of its own file and those of the files it caches, and it
gathers the names of all files it caches. -/
theorem Gathers.covers (hr : reader.Regular naming fun _ => True) {chain : List Path} {file : Path}
    {items : List SourceItem} {s s' : FileSymbols} {c c' : SymbolCache}
    (h : Gathers naming reader chain file items s c s' c')
    (hg : Grounded reader (fun _ => True) c) :
    (∀ n ∈ s.names, n ∈ s'.names) ∧
      (∀ item ∈ items, Met naming reader (file :: chain) c' s'.names file item) ∧
      ∀ e ∈ c'.entries, e ∈ c.entries ∨ Whole naming reader (file :: chain) c' s'.names e := by
  induction h with
  | done => exact ⟨fun _ hn => hn, fun _ hi => absurd hi List.not_mem_nil, fun e he => Or.inl he⟩
  | declared _ ih =>
    obtain ⟨hnames, hmet, hcovered⟩ := ih hg
    refine ⟨fun n hn => hnames n (FileSymbols.mem_names_declare.mpr (Or.inr hn)), ?_, hcovered⟩
    exact List.forall_mem_cons.mpr
      ⟨hnames _ (FileSymbols.mem_names_declare.mpr (Or.inl rfl)), hmet⟩
  | missing found _ ih =>
    rw [hg.look_eq hr] at found
    obtain ⟨hnames, hmet, hcovered⟩ := ih hg
    refine ⟨hnames, List.forall_mem_cons.mpr ⟨fun t hleads => ?_, hmet⟩, hcovered⟩
    cases found.symm.trans hleads.1
  | circular found onWay _ ih =>
    rw [hg.look_eq hr] at found
    obtain ⟨hnames, hmet, hcovered⟩ := ih hg
    refine ⟨hnames, List.forall_mem_cons.mpr ⟨fun t hleads => ?_, hmet⟩, hcovered⟩
    cases found.symm.trans hleads.1
    exact Or.inl onWay
  | unreadable found _ _ unread _ ih =>
    rw [hg.look_eq hr] at found
    obtain ⟨hnames, hmet, hcovered⟩ := ih hg
    refine ⟨hnames, List.forall_mem_cons.mpr ⟨fun t hleads => ?_, hmet⟩, hcovered⟩
    cases found.symm.trans hleads.1
    exact absurd hleads.2 (by rw [unread]; exact Bool.false_ne_true)
  | cached found _ hit rest ih =>
    rw [hg.look_eq hr] at found
    obtain ⟨hnames, hmet, hcovered⟩ := ih hg
    refine ⟨fun n hn => hnames n (FileSymbols.mem_names_takeOver.mpr (Or.inl hn)),
      List.forall_mem_cons.mpr ⟨fun t hleads => ?_, hmet⟩, hcovered⟩
    cases found.symm.trans hleads.1
    obtain ⟨e, he, hkey, -⟩ := SymbolCache.mem_of_get? hit
    exact Or.inr (SymbolCache.contains_of_mem (rest.keeps e he) hkey)
  | @followed chain file _ _ s' c c₁ c' _ _ target _ r found _ uncached read below rest ihBelow ih =>
    have hg₁ := (Grounded.gathers hr below hg).follow hr found uncached read r
    rw [hg.look_eq hr] at found
    obtain ⟨-, hmetBelow, hcoveredBelow⟩ := ihBelow hg
    obtain ⟨hnames, hmet, hcovered⟩ := ih hg₁
    -- the target is cached by now, so that it need not be on the way any more
    have htarget : (⟨target, r⟩ : CacheEntry) ∈ (c₁.insert target r).entries :=
      SymbolCache.mem_insert.mpr (Or.inr rfl)
    have huncached : c₁.get? target = none :=
      below.uncached_of_isIn (Path.isIn_of_mem List.mem_cons_self) uncached
    have hkept : ∀ e ∈ c₁.entries, e ∈ c'.entries :=
      fun e he => rest.keeps e (SymbolCache.subset_insert huncached e he)
    have hway : ∀ t : Path, t.isIn (target :: file :: chain) = true →
        t.isIn (file :: chain) = true ∨ c'.contains t = true := by
      intro t ht
      obtain ⟨q, hq, hqt⟩ := Path.isIn_iff.mp ht
      rcases List.mem_cons.mp hq with rfl | hq
      · exact Or.inr (SymbolCache.contains_of_mem (rest.keeps _ htarget) hqt)
      · exact Or.inl (Path.isIn_iff.mpr ⟨q, hq, hqt⟩)
    have hgathered : ∀ n ∈ r.names, n ∈ s'.names :=
      fun n hn => hnames n (FileSymbols.mem_names_takeOver.mpr (Or.inr hn))
    refine ⟨fun n hn => hnames n (FileSymbols.mem_names_takeOver.mpr (Or.inl hn)),
      List.forall_mem_cons.mpr ⟨fun t hleads => ?_, hmet⟩, fun e he => ?_⟩
    · cases found.symm.trans hleads.1
      exact Or.inr (SymbolCache.contains_of_mem (rest.keeps _ htarget) rfl)
    · rcases hcovered e he with he | hnew
      · rcases SymbolCache.mem_insert.mp he with ⟨he, -⟩ | rfl
        · exact (hcoveredBelow e he).imp_right fun h => h.mono hgathered hkept hway
        · refine Or.inr ⟨hgathered, fun text ht item hitem => ?_⟩
          rw [read, Option.some.injEq] at ht
          exact (hmetBelow item (ht ▸ hitem)).mono (fun _ hn => hn) hkept hway
      · exact Or.inr hnew

/-! ## From an empty cache -/

section

variable {p : Path} {text : String} {s : FileSymbols} {c₀ c : SymbolCache}

/-- **What a traversal from an empty cache covers.**  Its file and the files it caches are closed
under directives, so they are all that is in reach. -/
theorem Gathers.cached_iff_reaches (hr : reader.Regular naming fun _ => True)
    (h : Gathers naming reader [] p (SourceItem.scan p text.toList) {} c₀ s c)
    (ht : reader.text? p = some text) (hempty : c₀.entries = []) {k : List Component} :
    (k = p.components ∨ ∃ e ∈ c.entries, e.file.components = k) ↔
      ReflTransGen (Requires naming reader) p.components k := by
  have hnone : ∀ e : CacheEntry, e ∉ c₀.entries := by simp [hempty]
  have hg : Grounded reader (fun _ => True) c₀ := fun e he => absurd he (hnone e)
  constructor
  · obtain ⟨-, hentries⟩ := h.within hr ht (fun _ hi => hi) hg fun e he => absurd he (hnone e)
    rintro (rfl | ⟨e, he, rfl⟩)
    · exact ReflTransGen.refl
    · exact ((hentries e he).resolve_left (hnone e)).1
  · intro hreach
    obtain ⟨-, hmet, hwhole⟩ := h.covers hr hg
    have hmem : ∀ t : Path, t.isIn [p] = true ∨ c.contains t = true →
        t.components = p.components ∨ ∃ e ∈ c.entries, e.file.components = t.components := by
      intro t ht
      rcases ht with ht | ht
      · obtain ⟨q, hq, hqt⟩ := Path.isIn_iff.mp ht
        exact Or.inl (hqt.symm.trans (congrArg _ (List.mem_singleton.mp hq)))
      · exact Or.inr (SymbolCache.mem_of_contains ht)
    induction hreach with
    | refl => exact Or.inl rfl
    | tail _ hedge ih =>
      rcases ih with rfl | ⟨e, he, rfl⟩
      · obtain ⟨module, line, t, hitem, hleads, rfl⟩ := (requires_iff hr ht).mp hedge
        exact hmem t (hmet _ hitem t hleads)
      · obtain ⟨text', ht'⟩ := Option.isSome_iff_exists.mp (Grounded.gathers hr h hg e he).2.2
        obtain ⟨module, line, t, hitem, hleads, rfl⟩ := (requires_iff hr ht').mp hedge
        exact hmem t (((hwhole e he).resolve_left (hnone e)).2 text' ht' _ hitem t hleads)

/-- The names that a traversal from an empty cache gathers are those in reach: each is declared in
its own file or in one that was cached, and those have handed all their names up. -/
theorem Gathers.mem_names_iff (hr : reader.Regular naming fun _ => True)
    (h : Gathers naming reader [] p (SourceItem.scan p text.toList) {} c₀ s c)
    (ht : reader.text? p = some text) (hempty : c₀.entries = []) {name : String} :
    name ∈ s.names ↔ InReach naming reader p.components name := by
  have hnone : ∀ e : CacheEntry, e ∉ c₀.entries := by simp [hempty]
  have hg : Grounded reader (fun _ => True) c₀ := fun e he => absurd he (hnone e)
  constructor
  · obtain ⟨hnames, -⟩ := h.within hr ht (fun _ hi => hi) hg fun e he => absurd he (hnone e)
    exact fun hname => (hnames name hname).resolve_left List.not_mem_nil
  · rintro ⟨k, hreach, hdeclares⟩
    obtain ⟨-, hmet, hwhole⟩ := h.covers hr hg
    rcases (h.cached_iff_reaches hr ht hempty).mpr hreach with rfl | ⟨e, he, rfl⟩
    · obtain ⟨d, hd, rfl⟩ := (declares_iff hr ht).mp hdeclares
      exact hmet _ hd
    · obtain ⟨text', ht'⟩ := Option.isSome_iff_exists.mp (Grounded.gathers hr h hg e he).2.2
      obtain ⟨d, hd, rfl⟩ := (declares_iff hr ht').mp hdeclares
      obtain ⟨hgathered, hown⟩ := (hwhole e he).resolve_left (hnone e)
      exact hgathered _ (hown text' ht' _ hd)

end

/-- **Extraction is complete, cycles or not.**  In a workspace of files held in memory, under any
naming, extracting a readable file with an empty cache gives functions of exactly the names that are
declared in the file and in the readable files in reach of it, and caches exactly these files. -/
theorem extract_complete (naming : Naming) (files : List MemoryFile) (p : Path) (text : String)
    (hread : (SourceReader.ofFiles files).read p = .ok text) :
    (∀ name, name ∈ (Extraction.extract naming (.ofFiles files) p text {}).value.names ↔
        InReach naming (.ofFiles files) p.components name) ∧
      ∀ q : Path, (Extraction.extract naming (.ofFiles files) p text {}).state.contains q = true ↔
        ReflTransGen (Requires naming (.ofFiles files)) p.components q.components := by
  have hr := SourceReader.ofFiles_regular files naming
  have ht := SourceReader.text?_eq_some.mpr hread
  obtain ⟨c, hgathers, hstate⟩ := Extraction.extract_gathers hr p text {}
  refine ⟨fun name => hgathers.mem_names_iff hr ht rfl, fun q => ?_⟩
  rw [← hgathers.cached_iff_reaches hr ht rfl, hstate, SymbolCache.contains_eq,
    SymbolCache.get?_insert]
  by_cases hq : q.components = p.components
  · simp [hq]
  · rw [if_neg hq, ← SymbolCache.contains_eq]
    constructor
    · exact fun h => Or.inr (SymbolCache.mem_of_contains h)
    · intro h
      obtain ⟨e, he, hkey⟩ := h.resolve_left hq
      exact SymbolCache.contains_of_mem he hkey

/-- Two files that require each other below the one that is asked for, with a function of the same
name in both, and one more file that only the inner of the two leads to. -/
theorem extract_complete_mutual :
    let main := Path.ofString "/p/main.das"
    let naming : Naming := { extension := "das", specSuffix := "spec" }
    let files : List MemoryFile := [⟨main, some "require a\ndef run()"⟩,
      ⟨Path.ofString "/p/a.das", some "require b\ndef f()"⟩,
      ⟨Path.ofString "/p/b.das", some "require a\ndef f()\ndef g()\nrequire c"⟩,
      ⟨Path.ofString "/p/c.das", some "require main\ndef h()"⟩,
      ⟨Path.ofString "/p/d.das", some "require main\ndef k()"⟩]
    (SourceReader.ofFiles files).read main = .ok "require a\ndef run()" ∧
      (Extraction.extract naming (.ofFiles files) main "require a\ndef run()" {}).value.names =
        ["f", "g", "h", "run"] ∧
      (∀ name, name ∈ (Extraction.extract naming (.ofFiles files) main "require a\ndef run()"
          {}).value.names ↔ InReach naming (.ofFiles files) main.components name) ∧
      ∀ q : Path, (Extraction.extract naming (.ofFiles files) main "require a\ndef run()"
          {}).state.contains q = true ↔
        ReflTransGen (Requires naming (.ofFiles files)) main.components q.components := by
  intro main naming files
  exact ⟨rfl, by decide +kernel, extract_complete naming files main _ rfl⟩

end ScriptIndex
