import ScriptIndex.Proofs.RequireGraph

/-!
# What the symbols of a file stand for

The symbols of a file are put together from its own declarations and from the symbols of the files it
requires.  `Means` says how, with nothing about the order in which files were looked at: a directive
takes over the symbols of some entry of its target, which are put together in the same way.  Two
parameters say how much is known: which entries may be used (`held`), and which directives may be
reported instead of followed (`loops`).

* `Means`, `Meant` — symbols put together from those of other entries;
* `Means.same` — if a directive is reported only where a file requires itself, there is one meaning;
* `Gathers.means` — a traversal over entries that have a meaning gathers symbols that have one;
* `Extraction.symbolsFor_same` — so the cache never shows in an answer.
-/

namespace ScriptIndex

open Relation
open Extraction (look)

/-- `Means naming reader held loops file items s s'`: the items of `file` lead from the symbols `s`
to `s'`, where required files contribute entries in `held`, and the directives that are reported and
not followed are in `loops`. -/
inductive Means (naming : Naming) (reader : SourceReader) (held : CacheEntry → Prop)
    (loops : Path → Path → Prop) : Path → List SourceItem → FileSymbols → FileSymbols → Prop
  | done {file : Path} {s : FileSymbols} : Means naming reader held loops file [] s s
  | declared {file : Path} {items : List SourceItem} {s s' : FileSymbols} {d : Declaration}
      (rest : Means naming reader held loops file items (s.declare d) s') :
      Means naming reader held loops file (.function d :: items) s s'
  | missing {file : Path} {items : List SourceItem} {s s' : FileSymbols} {module : String}
      {line : Nat}
      (found : (naming.resolve reader.isFile file module).found = none)
      (rest : Means naming reader held loops file items
        (s.watch (naming.resolve reader.isFile file module).probed) s') :
      Means naming reader held loops file (.require module line :: items) s s'
  | circular {file : Path} {items : List SourceItem} {s s' : FileSymbols} {module : String}
      {line : Nat} {target : Path}
      (found : (naming.resolve reader.isFile file module).found = some target)
      (back : loops file target)
      (rest : Means naming reader held loops file items
        ((s.watch (naming.resolve reader.isFile file module).probed).reportCycle
          ⟨line, module, target⟩) s') :
      Means naming reader held loops file (.require module line :: items) s s'
  | unreadable {file : Path} {items : List SourceItem} {s s' : FileSymbols} {module : String}
      {line : Nat} {target : Path}
      (found : (naming.resolve reader.isFile file module).found = some target)
      (other : target.components ≠ file.components)
      (unread : reader.text? target = none)
      (rest : Means naming reader held loops file items
        (s.watch (naming.resolve reader.isFile file module).probed) s') :
      Means naming reader held loops file (.require module line :: items) s s'
  | followed {file : Path} {items : List SourceItem} {s s' : FileSymbols} {module : String}
      {line : Nat} {target : Path} {entry : CacheEntry} {text : String}
      (found : (naming.resolve reader.isFile file module).found = some target)
      (other : target.components ≠ file.components)
      (isHeld : held entry)
      (named : entry.file.components = target.components)
      (read : reader.text? entry.file = some text)
      (below : Means naming reader held loops entry.file
        (SourceItem.scan entry.file text.toList) {} entry.symbols)
      (rest : Means naming reader held loops file items
        ((s.watch (naming.resolve reader.isFile file module).probed).takeOver
          ⟨line, module, target⟩ entry.symbols) s') :
      Means naming reader held loops file (.require module line :: items) s s'

/-- The symbols of an entry are those of its file. -/
def Meant (naming : Naming) (reader : SourceReader) (held : CacheEntry → Prop)
    (loops : Path → Path → Prop) (e : CacheEntry) : Prop :=
  ∃ text, reader.text? e.file = some text ∧
    Means naming reader held loops e.file (SourceItem.scan e.file text.toList) {} e.symbols

variable {naming : Naming} {reader : SourceReader} {asked : Path → Prop}
  {held held' : CacheEntry → Prop} {loops loops' : Path → Path → Prop}
  {good : List Component → Prop}

namespace Means

variable {file : Path} {items : List SourceItem} {s s' : FileSymbols} {module : String} {line : Nat}
  {target : Path}

theorem mono (hheld : ∀ e, held e → held' e) (hloops : ∀ p q, loops p q → loops' p q)
    (h : Means naming reader held loops file items s s') :
    Means naming reader held' loops' file items s s' := by
  induction h with
  | done => exact .done
  | declared _ ih => exact .declared ih
  | missing found _ ih => exact .missing found ih
  | circular found back _ ih => exact .circular found (hloops _ _ back) ih
  | unreadable found other unread _ ih => exact .unreadable found other unread ih
  | followed found other isHeld named read _ _ ihBelow ih =>
    exact .followed found other (hheld _ isHeld) named read ihBelow ih

/-! ## What a directive stands for

Which rule applies to a directive is a matter of its target. -/

section

variable (hr : reader.Regular naming asked)
  (h : Means naming reader (fun e => asked e.file) Path.SameFile file
    (.require module line :: items) s s')

include h

theorem of_missing (hfound : (naming.resolve reader.isFile file module).found = none) :
    Means naming reader (fun e => asked e.file) Path.SameFile file items
      (s.watch (naming.resolve reader.isFile file module).probed) s' := by
  cases h with
  | missing _ rest => exact rest
  | circular found _ _ => rw [hfound] at found; cases found
  | unreadable found _ _ _ => rw [hfound] at found; cases found
  | followed found _ _ _ _ _ _ => rw [hfound] at found; cases found

theorem of_self (hfound : (naming.resolve reader.isFile file module).found = some target)
    (hself : target.components = file.components) :
    Means naming reader (fun e => asked e.file) Path.SameFile file items
      ((s.watch (naming.resolve reader.isFile file module).probed).reportCycle
        ⟨line, module, target⟩) s' := by
  cases h with
  | missing found _ => rw [hfound] at found; cases found
  | circular found _ rest =>
    rw [hfound] at found
    cases found
    exact rest
  | unreadable found other _ _ =>
    rw [hfound] at found
    cases found
    exact absurd hself other
  | followed found other _ _ _ _ _ =>
    rw [hfound] at found
    cases found
    exact absurd hself other

include hr

theorem of_unreadable (hfound : (naming.resolve reader.isFile file module).found = some target)
    (hother : target.components ≠ file.components) (hunread : reader.text? target = none) :
    Means naming reader (fun e => asked e.file) Path.SameFile file items
      (s.watch (naming.resolve reader.isFile file module).probed) s' := by
  cases h with
  | missing found _ => rw [hfound] at found; cases found
  | circular found back _ =>
    rw [hfound] at found
    cases found
    exact absurd back hother
  | unreadable _ _ _ rest => exact rest
  | followed found _ isHeld named read _ _ =>
    rw [hfound] at found
    cases found
    rw [hr.text_congr _ _ isHeld (hr.asks _ (Naming.asks_of_found hfound)) named, hunread] at read
    cases read

theorem of_readable (hfound : (naming.resolve reader.isFile file module).found = some target)
    (hother : target.components ≠ file.components) {text : String}
    (hread : reader.text? target = some text) :
    ∃ e : CacheEntry, e.file.components = target.components ∧
      Means naming reader (fun e => asked e.file) Path.SameFile e.file
        (SourceItem.scan e.file text.toList) {} e.symbols ∧
      Means naming reader (fun e => asked e.file) Path.SameFile file items
        ((s.watch (naming.resolve reader.isFile file module).probed).takeOver
          ⟨line, module, target⟩ e.symbols) s' := by
  cases h with
  | missing found _ => rw [hfound] at found; cases found
  | circular found back _ =>
    rw [hfound] at found
    cases found
    exact absurd back hother
  | unreadable found _ unread _ =>
    rw [hfound] at found
    cases found
    rw [hread] at unread
    cases unread
  | followed found _ isHeld named read below rest =>
    rw [hfound] at found
    cases found
    rw [hr.text_congr _ _ isHeld (hr.asks _ (Naming.asks_of_found hfound)) named, hread] at read
    cases read
    exact ⟨_, named, below, rest⟩

end

/-! ## There is one meaning -/

/-- **Where only self-requires are reported, a file has one meaning**, whatever entries it was put
together from and however its path is written. -/
theorem same (hr : reader.Regular naming asked)
    (h : Means naming reader (fun e => asked e.file) Path.SameFile file items s s')
    {file' : Path} {items' : List SourceItem} {t t' : FileSymbols}
    (h' : Means naming reader (fun e => asked e.file) Path.SameFile file' items' t t')
    (hfile : file.components = file'.components) (hitems : List.Forall₂ SourceItem.Same items items')
    (hs : s.Same t) : s'.Same t' := by
  -- the second derivation is taken apart by what the first says of the next item
  induction h generalizing file' items' t t' with
  | done =>
    cases hitems
    cases h'
    exact hs
  | declared _ ih =>
    cases hitems with
    | cons hitem hitems =>
      cases hitem with
      | function hfacts =>
        cases h' with
        | declared rest' => exact ih rest' hfile hitems (hs.declare hfacts)
  | missing found _ ih =>
    cases hitems with
    | cons hitem hitems =>
      cases hitem
      rw [Naming.resolve_file_congr hfile] at found ih
      exact ih (h'.of_missing found) hfile hitems (hs.watch _)
  | circular found back _ ih =>
    cases hitems with
    | cons hitem hitems =>
      cases hitem
      rw [Naming.resolve_file_congr hfile] at found ih
      exact ih (h'.of_self found (back.trans hfile)) hfile hitems ((hs.watch _).reportCycle _)
  | unreadable found other unread _ ih =>
    cases hitems with
    | cons hitem hitems =>
      cases hitem
      rw [Naming.resolve_file_congr hfile] at found ih
      exact ih (h'.of_unreadable hr found (hfile ▸ other) unread) hfile hitems (hs.watch _)
  | followed found other isHeld named read _ _ ihBelow ih =>
    cases hitems with
    | cons hitem hitems =>
      cases hitem
      rw [Naming.resolve_file_congr hfile] at found ih
      rw [hr.text_congr _ _ isHeld (hr.asks _ (Naming.asks_of_found found)) named] at read
      obtain ⟨e, hname, hbelow, hrest⟩ := h'.of_readable hr found (hfile ▸ other) read
      have hsame := ihBelow hbelow (named.trans hname.symm)
        (SourceItem.scan_same (named.trans hname.symm) _) (FileSymbols.Same.refl _)
      exact ih hrest hfile hitems ((hs.watch _).takeOver _ hsame)

end Means

theorem Meant.mono (hheld : ∀ e, held e → held' e) (hloops : ∀ p q, loops p q → loops' p q)
    {e : CacheEntry} (h : Meant naming reader held loops e) :
    Meant naming reader held' loops' e := by
  obtain ⟨text, ht, hmeans⟩ := h
  exact ⟨text, ht, hmeans.mono hheld hloops⟩

/-! ## Traversals -/

/-- What is known of the files in `good`: they lead to files in `good`, and a directive of theirs by
which a cycle closes is in `loops`. -/
structure LoopsAre (naming : Naming) (reader : SourceReader) (good : List Component → Prop)
    (loops : Path → Path → Prop) : Prop where
  step : ∀ {k l}, good k → Requires naming reader k l → good l
  back : ∀ {file target : Path}, good file.components →
    Requires naming reader file.components target.components →
    ReflTransGen (Requires naming reader) target.components file.components → loops file target

/-- **A traversal gathers what a file means.**  It may use entries of the cache, because they have a
meaning, and it caches only symbols that have one. -/
theorem Gathers.means (hr : reader.Regular naming asked)
    (hloops : LoopsAre naming reader good loops) {chain : List Path} {file : Path}
    {items : List SourceItem} {s s' : FileSymbols} {c c' : SymbolCache} {text : String}
    (h : Gathers naming reader chain file items s c s' c')
    (htrail : Trail naming reader asked (file :: chain)) (ht : reader.text? file = some text)
    (hitems : ∀ item ∈ items, item ∈ SourceItem.scan file text.toList)
    (hg : Grounded reader asked c) (hheld : ∀ e ∈ c'.entries, held e)
    (hc : ∀ e ∈ c.entries, good e.file.components → Meant naming reader held loops e) :
    (good file.components → Means naming reader held loops file items s s') ∧
      ∀ e ∈ c'.entries, good e.file.components → Meant naming reader held loops e := by
  induction h generalizing text with
  | done => exact ⟨fun _ => .done, hc⟩
  | declared _ ih =>
    obtain ⟨hrest, hc'⟩ :=
      ih htrail ht (fun i hi => hitems i (List.mem_cons_of_mem _ hi)) hg hheld hc
    exact ⟨fun hgood => .declared (hrest hgood), hc'⟩
  | missing found _ ih =>
    rw [hg.look_eq hr] at found ih
    obtain ⟨hrest, hc'⟩ :=
      ih htrail ht (fun i hi => hitems i (List.mem_cons_of_mem _ hi)) hg hheld hc
    exact ⟨fun hgood => .missing found (hrest hgood), hc'⟩
  | circular found onWay _ ih =>
    rw [hg.look_eq hr] at found ih
    obtain ⟨hrest, hc'⟩ :=
      ih htrail ht (fun i hi => hitems i (List.mem_cons_of_mem _ hi)) hg hheld hc
    have hread := htrail.readable_of_isIn hr (hr.asks _ (Naming.asks_of_found found)) onWay
    have hedge := requires_of_found ht (hitems _ List.mem_cons_self) found hread
    exact ⟨fun hgood => .circular found (hloops.back hgood hedge (htrail.reaches onWay))
      (hrest hgood), hc'⟩
  | unreadable found offWay _ unread _ ih =>
    rw [hg.look_eq hr] at found ih
    obtain ⟨hrest, hc'⟩ :=
      ih htrail ht (fun i hi => hitems i (List.mem_cons_of_mem _ hi)) hg hheld hc
    exact ⟨fun hgood => .unreadable found (Path.ne_of_not_isIn_cons offWay) unread (hrest hgood), hc'⟩
  | cached found offWay hit rest ih =>
    rw [hg.look_eq hr] at found ih
    obtain ⟨hrest, hc'⟩ :=
      ih htrail ht (fun i hi => hitems i (List.mem_cons_of_mem _ hi)) hg hheld hc
    obtain ⟨e, he, hname, rfl⟩ := SymbolCache.mem_of_get? hit
    refine ⟨fun hgood => ?_, hc'⟩
    obtain ⟨hae, -, hreade⟩ := hg e he
    rw [hr.text_congr _ _ hae (hr.asks _ (Naming.asks_of_found found)) hname] at hreade
    have hedge := requires_of_found ht (hitems _ List.mem_cons_self) found hreade
    obtain ⟨targetText, hread, hmeans⟩ := hc e he (hname ▸ hloops.step hgood hedge)
    exact .followed found (Path.ne_of_not_isIn_cons offWay) (hheld e (rest.keeps e he)) hname hread
      hmeans (hrest hgood)
  | @followed _ _ _ _ _ _ c₁ _ _ _ target targetText r found offWay uncached read below rest
      ihBelow ih =>
    have hg₁ := (Grounded.gathers hr below hg).follow hr found uncached read r
    have ha := hr.asks _ (Naming.asks_of_found found)
    rw [hg.look_eq hr] at found ih
    have hread : (reader.text? target).isSome = true := by rw [read]; rfl
    have hedge := requires_of_found ht (hitems _ List.mem_cons_self) found hread
    -- everything cached below is still there at the end, and so is the target's own entry
    have huncached₁ : c₁.get? target = none :=
      below.uncached_of_isIn (Path.isIn_of_mem List.mem_cons_self) uncached
    have hheld₁ : ∀ e ∈ c₁.entries, held e :=
      fun e he => hheld e (rest.keeps e (SymbolCache.subset_insert huncached₁ e he))
    have hheldTarget : held ⟨target, r⟩ :=
      hheld _ (rest.keeps _ (SymbolCache.mem_insert.mpr (Or.inr rfl)))
    obtain ⟨hbelow, hc₁⟩ :=
      ihBelow (htrail.follow ha hread hedge) read (fun _ hi => hi) hg hheld₁ hc
    have hc₂ : ∀ e ∈ (c₁.insert target r).entries, good e.file.components →
        Meant naming reader held loops e := by
      intro e he hgood
      rcases SymbolCache.mem_insert.mp he with ⟨he, -⟩ | rfl
      · exact hc₁ e he hgood
      · exact ⟨targetText, read, hbelow hgood⟩
    obtain ⟨hrest, hc'⟩ :=
      ih htrail ht (fun i hi => hitems i (List.mem_cons_of_mem _ hi)) hg₁ hheld hc₂
    exact ⟨fun hgood => .followed found (Path.ne_of_not_isIn_cons offWay) hheldTarget rfl read
      (hbelow (hloops.step hgood hedge)) (hrest hgood), hc'⟩

/-! ## Answers do not depend on the cache -/

/-- A cache of readable files in which the good ones have a meaning. -/
structure Explained (naming : Naming) (reader : SourceReader) (asked : Path → Prop)
    (good : List Component → Prop) (loops : Path → Path → Prop) (cache : SymbolCache) : Prop where
  grounded : Grounded reader asked cache
  meant : ∀ e ∈ cache.entries, good e.file.components →
    Meant naming reader (fun e => asked e.file) loops e

namespace Explained

variable {cache : SymbolCache} {file : Path} {text : String}

theorem empty : Explained naming reader asked good loops {} where
  grounded := fun e he => by simp at he
  meant := fun e he => by simp at he

theorem subset {cache' : SymbolCache} (h : Explained naming reader asked good loops cache)
    (hsub : ∀ e ∈ cache'.entries, e ∈ cache.entries) :
    Explained naming reader asked good loops cache' where
  grounded := fun e he => h.grounded e (hsub e he)
  meant := fun e he => h.meant e (hsub e he)

/-- Extracting a file gives its meaning and leaves an explained cache. -/
theorem extract (hr : reader.Regular naming asked) (hloops : LoopsAre naming reader good loops)
    (h : Explained naming reader asked good loops cache) (ha : asked file)
    (hf : reader.isFile file = true) (ht : reader.text? file = some text) :
    (good file.components → Means naming reader (fun e => asked e.file) loops file
        (SourceItem.scan file text.toList) {} (Extraction.extract naming reader file text cache).value) ∧
      Explained naming reader asked good loops
        (Extraction.extract naming reader file text cache).state := by
  have hread : (reader.text? file).isSome = true := by rw [ht]; rfl
  obtain ⟨c₁, hgathers, hstate⟩ := Extraction.extract_gathers hr file text cache
  have hg₁ : Grounded reader asked c₁ := Grounded.gathers hr hgathers h.grounded
  obtain ⟨hmeans, hc₁⟩ := hgathers.means hr hloops (.root ha hread) ht (fun _ hi => hi) h.grounded
    (fun e he => (hg₁ e he).1) h.meant
  rw [hstate]
  refine ⟨hmeans, hg₁.insert ha hf hread, ?_⟩
  intro e he hgood
  rcases SymbolCache.mem_insert.mp he with ⟨he, -⟩ | rfl
  · exact hc₁ e he hgood
  · exact ⟨text, ht, hmeans hgood⟩

/-- **The cache does not show.**  The symbols of a good file are the same whatever has been cached. -/
theorem symbolsFor_same (hr : reader.Regular naming asked)
    (hloops : LoopsAre naming reader good Path.SameFile)
    (h : Explained naming reader asked good Path.SameFile cache) (ha : asked file)
    (hf : reader.isFile file = true) (ht : reader.text? file = some text)
    (hgood : good file.components) :
    (Extraction.symbolsFor naming reader false file text cache).value.Same
      (Extraction.extract naming reader file text {}).value := by
  have hfresh := (empty.extract hr hloops ha hf ht).1 hgood
  unfold Extraction.symbolsFor
  rw [if_neg Bool.false_ne_true]
  cases hget : cache.get? file with
  | none =>
    exact ((h.extract hr hloops ha hf ht).1 hgood).same hr hfresh rfl (SourceItem.scan_same rfl _)
      (.refl _)
  | some symbols =>
    obtain ⟨e, he, hname, rfl⟩ := SymbolCache.mem_of_get? hget
    obtain ⟨text', ht', hmeans⟩ := h.meant e he (hname ▸ hgood)
    rw [hr.text_congr _ _ (h.grounded e he).1 ha hname, ht, Option.some.injEq] at ht'
    subst ht'
    exact hmeans.same hr hfresh hname (SourceItem.scan_same hname _) (.refl _)

end Explained

end ScriptIndex
