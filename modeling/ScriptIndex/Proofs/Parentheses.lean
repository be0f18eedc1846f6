import Mathlib.Data.List.DropRight
import Mathlib.Data.List.Induction
import ScriptIndex.Identifier
import ScriptIndex.Proofs.Words

/-!
# Which call a cursor stands in

The call around a cursor is searched for backwards, with a count of the closed parentheses that are
still to be matched.  What it finds can be said forwards: read from the left, every opening parenthesis
is put on a stack, and every closing one takes the top away, if there is one.  The call is the one whose
parenthesis is on top at the cursor, and its commas are those read while that was on top.

* `CallSite.unclosed` — the stack after a text;
* `CallSite.commasOf` — the commas read while a parenthesis is on top;
* `CallSite.opening?_reverse` — the backward search finds what is on the stack, at any depth;
* `CallSite.Split`, `CallSite.around?_matching` — the call around a cursor, said forwards.
-/

namespace ScriptIndex

namespace CallSite

/-! ## Reading forwards -/

/-- The stack after one more character, which has the index `i`. -/
def stackAfter (stack : List Nat) (c : Char) (i : Nat) : List Nat :=
  if c = '(' then i :: stack else if c = ')' then stack.tail else stack

/-- The indices of the parentheses that are open after a text, the last one on top. -/
def unclosed (text : List Char) : List Nat :=
  text.zipIdx.foldl (fun stack entry => stackAfter stack entry.1 entry.2) []

/-- The number of commas of a text that are read while the parenthesis at `i` is on top. -/
def commasOf (text : List Char) (i : Nat) : Nat :=
  (List.range text.length).countP fun j =>
    text[j]? = some ',' && (unclosed (text.take j)).head? = some i

variable {s : List Char} {c : Char} {i : Nat}

theorem unclosed_concat (s : List Char) (c : Char) :
    unclosed (s ++ [c]) = stackAfter (unclosed s) c s.length := by
  unfold unclosed
  rw [List.zipIdx_append, List.foldl_append, Nat.zero_add]
  rfl

theorem commasOf_concat (s : List Char) (c : Char) (i : Nat) :
    commasOf (s ++ [c]) i =
      commasOf s i + if c = ',' ∧ (unclosed s).head? = some i then 1 else 0 := by
  have hbefore : (List.range s.length).countP (fun j =>
      (s ++ [c])[j]? = some ',' && (unclosed ((s ++ [c]).take j)).head? = some i) = commasOf s i := by
    refine List.countP_congr fun j hj => ?_
    have hj : j < s.length := List.mem_range.mp hj
    rw [List.getElem?_append_left hj, List.take_append_of_le_length hj.le]
  rw [commasOf, List.length_append, List.length_singleton, List.range_succ, List.countP_append, hbefore]
  simp [List.countP_singleton]

/-- What is on the stack are the indices of opening parentheses. -/
theorem getElem?_of_mem_unclosed (h : i ∈ unclosed s) : s[i]? = some '(' := by
  induction s using List.reverseRecOn with
  | nil => cases h
  | append_singleton s c ih =>
    have hold : i ∈ unclosed s → (s ++ [c])[i]? = some '(' := by
      intro hmem
      have hi := ih hmem
      rw [List.getElem?_append_left (List.getElem?_eq_some_iff.mp hi).1, hi]
    rw [unclosed_concat] at h
    unfold stackAfter at h
    split at h
    · next hopen =>
      rcases List.mem_cons.mp h with rfl | h
      · rw [List.getElem?_concat_length, hopen]
      · exact hold h
    · split at h
      · exact hold (List.mem_of_mem_tail h)
      · exact hold h

theorem lt_of_mem_unclosed (h : i ∈ unclosed s) : i < s.length :=
  (List.getElem?_eq_some_iff.mp (getElem?_of_mem_unclosed h)).1

/-- Towards the top the indices grow. -/
theorem unclosed_decreasing (s : List Char) : (unclosed s).Pairwise (· > ·) := by
  induction s using List.reverseRecOn with
  | nil => exact List.Pairwise.nil
  | append_singleton s c ih =>
    rw [unclosed_concat, stackAfter]
    split
    · exact List.pairwise_cons.mpr ⟨fun j hj => lt_of_mem_unclosed hj, ih⟩
    · split
      · exact ih.tail
      · exact ih

/-- A parenthesis has no commas before it is read. -/
theorem commasOf_eq_zero (h : s.length ≤ i) : commasOf s i = 0 := by
  refine List.countP_eq_zero.mpr fun j hj => ?_
  have hj : j < s.length := List.mem_range.mp hj
  intro htop
  simp only [Bool.and_eq_true, decide_eq_true_eq] at htop
  have hlt := lt_of_mem_unclosed (List.mem_of_mem_head? htop.2)
  rw [List.length_take] at hlt
  omega

/-! ## Reading backwards -/

theorem opening?_close (rest : List Char) (depth commas : Nat) :
    opening? (')' :: rest) depth commas = opening? rest (depth + 1) commas :=
  rfl

theorem opening?_open_zero (rest : List Char) (commas : Nat) :
    opening? ('(' :: rest) 0 commas = some (rest, commas) :=
  rfl

theorem opening?_open_succ (rest : List Char) (depth commas : Nat) :
    opening? ('(' :: rest) (depth + 1) commas = opening? rest depth commas :=
  rfl

theorem opening?_comma (rest : List Char) (depth commas : Nat) :
    opening? (',' :: rest) depth commas =
      opening? rest depth (commas + if depth = 0 then 1 else 0) := by
  cases depth <;> rfl

theorem opening?_other (hclose : c ≠ ')') (hopen : c ≠ '(') (hcomma : c ≠ ',') (rest : List Char)
    (depth commas : Nat) : opening? (c :: rest) depth commas = opening? rest depth commas := by
  simp [opening?, hclose, hopen, hcomma]

/-- What is found before the last character is found in the text before it, with the commas that this
character adds. -/
theorem map_found_concat {depth added : Nat} (commas : Nat)
    (h : ∀ i, (unclosed s)[depth]? = some i → commasOf (s ++ [c]) i = added + commasOf s i) :
    (unclosed s)[depth]?.map (fun i =>
        (((s ++ [c]).take i).reverse, commas + commasOf (s ++ [c]) i)) =
      (unclosed s)[depth]?.map fun i => ((s.take i).reverse, commas + added + commasOf s i) := by
  refine Option.map_congr fun i hi => ?_
  have hlt := lt_of_mem_unclosed (List.mem_of_getElem? hi)
  rw [List.take_append_of_le_length hlt.le, h i hi, Nat.add_assoc]

theorem commasOf_concat_of_ne (hc : c ≠ ',') (i : Nat) :
    commasOf (s ++ [c]) i = 0 + commasOf s i := by
  rw [commasOf_concat, if_neg fun h => hc h.1, Nat.zero_add, Nat.add_zero]

/-- The top of the stack counts a comma, and nothing below it does. -/
theorem commasOf_concat_comma {depth : Nat} (hi : (unclosed s)[depth]? = some i) :
    commasOf (s ++ [',']) i = (if depth = 0 then 1 else 0) + commasOf s i := by
  have htop : (unclosed s).head? = some i ↔ depth = 0 := by
    rw [List.head?_eq_getElem?]
    constructor
    · intro hzero
      by_contra hdepth
      obtain ⟨hlt, hget⟩ := List.getElem?_eq_some_iff.mp hi
      obtain ⟨hlt', hget'⟩ := List.getElem?_eq_some_iff.mp hzero
      have hless := List.pairwise_iff_getElem.mp (unclosed_decreasing s) 0 depth hlt' hlt (by omega)
      omega
    · rintro rfl
      exact hi
  rw [commasOf_concat, Nat.add_comm]
  simp only [htop, true_and]

/-- **The backward search finds what is on the stack.**  Read backwards from the end of a text, with
`depth` closed parentheses still to be matched, it finds the one that lies `depth` below the top, and it
counts the commas for which that one was on top. -/
theorem opening?_reverse (s : List Char) (depth commas : Nat) :
    opening? s.reverse depth commas =
      (unclosed s)[depth]?.map fun i => ((s.take i).reverse, commas + commasOf s i) := by
  induction s using List.reverseRecOn generalizing depth commas with
  | nil => rfl
  | append_singleton s c ih =>
    rw [List.reverse_append, List.reverse_singleton, List.singleton_append, unclosed_concat, stackAfter]
    by_cases hclose : c = ')'
    · subst hclose
      rw [opening?_close, ih, if_neg (by decide), if_pos rfl, List.getElem?_tail,
        map_found_concat commas fun i _ => commasOf_concat_of_ne (by decide) i]
      rfl
    by_cases hopen : c = '('
    · subst hopen
      rw [if_pos rfl]
      cases depth with
      | zero =>
        rw [opening?_open_zero, List.getElem?_cons_zero, Option.map_some, List.take_left,
          commasOf_concat_of_ne (by decide), commasOf_eq_zero (Nat.le_refl _)]
        rfl
      | succ depth =>
        rw [opening?_open_succ, ih, List.getElem?_cons_succ,
          map_found_concat commas fun i _ => commasOf_concat_of_ne (by decide) i]
        rfl
    rw [if_neg hopen, if_neg hclose]
    by_cases hcomma : c = ','
    · subst hcomma
      rw [opening?_comma, ih, map_found_concat commas fun i hi => commasOf_concat_comma hi]
    · rw [opening?_other hclose hopen hcomma, ih,
        map_found_concat commas fun i _ => commasOf_concat_of_ne hcomma i]
      rfl

/-! ## The call around a cursor -/

/-- A line cut at the parenthesis that is on top at an offset, and before that at the start of the word
that ends there.  The word may be empty, but it cannot be made longer. -/
structure Split (text : List Char) (offset : Nat) (front word after : List Char) : Prop where
  parts : text = front ++ word ++ '(' :: after
  top : (unclosed (text.take offset)).head? = some (front ++ word).length
  chars : ∀ c ∈ word, Identifier.isChar c = true
  maximal : ∀ c ∈ front.getLast?, Identifier.isChar c = false

variable {text front word after : List Char} {offset : Nat}

/-- At every offset with something on the stack the line can be cut. -/
theorem exists_split (htop : (unclosed (text.take offset)).head? = some i) :
    ∃ front word after, Split text offset front word after ∧ (front ++ word).length = i := by
  have hopen : text[i]? = some '(' := by
    have htaken := getElem?_of_mem_unclosed (List.mem_of_mem_head? htop)
    have hlt := lt_of_mem_unclosed (List.mem_of_mem_head? htop)
    rwa [List.getElem?_take_of_lt (by rw [List.length_take] at hlt; omega)] at htaken
  obtain ⟨hi, hget⟩ := List.getElem?_eq_some_iff.mp hopen
  have hword : (text.take i).rdropWhile Identifier.isChar ++ (text.take i).rtakeWhile Identifier.isChar =
      text.take i := List.rdropWhile_append_rtakeWhile
  have hlength : (text.take i).length = i := by
    rw [List.length_take, Nat.min_eq_left hi.le]
  refine ⟨(text.take i).rdropWhile Identifier.isChar, (text.take i).rtakeWhile Identifier.isChar,
    text.drop (i + 1), ⟨?_, ?_, fun c hc => List.mem_rtakeWhile_imp hc, ?_⟩, ?_⟩
  · rw [hword, ← hget, ← List.drop_eq_getElem_cons hi, List.take_append_drop]
  · rw [hword, hlength, htop]
  · intro c hc
    obtain ⟨hne, hlast⟩ := List.mem_getLast?_eq_getLast hc
    rw [hlast]
    simpa using List.rdropWhile_last_not Identifier.isChar (text.take i) hne
  · rw [hword, hlength]

/-- The call is read off the cut. -/
theorem around?_of_split (h : Split text offset front word after) :
    around? text offset = if word = [] then none else
      some ⟨String.ofList word, commasOf (text.take offset) (front ++ word).length⟩ := by
  have hlt := lt_of_mem_unclosed (List.mem_of_mem_head? h.top)
  have hbefore : (text.take offset).take (front ++ word).length = front ++ word := by
    rw [List.take_take, Nat.min_eq_left (by rw [List.length_take] at hlt; omega), h.parts, List.take_left]
  have hword := Identifier.wordBefore_append h.chars h.maximal
  unfold Identifier.wordBefore at hword
  have htop := h.top
  rw [List.head?_eq_getElem?] at htop
  unfold around?
  rw [opening?_reverse, htop, Option.map_some, hbefore, Nat.zero_add]
  dsimp only
  rw [hword]
  cases word <;> rfl

/-- Where nothing is on the stack there is no call. -/
theorem around?_of_balanced (h : (unclosed (text.take offset)).head? = none) :
    around? text offset = none := by
  rw [List.head?_eq_getElem?] at h
  unfold around?
  rw [opening?_reverse, h]
  rfl

/-- The word of a cut is there if and only if a character of a word stands right before the
parenthesis. -/
theorem Split.word_ne_nil_iff (h : Split text offset front word after) :
    word ≠ [] ↔ ∃ i c, (front ++ word).length = i + 1 ∧ text[i]? = some c ∧
      Identifier.isChar c = true := by
  constructor
  · intro hne
    obtain ⟨inner, c, rfl⟩ := (List.eq_nil_or_concat' word).resolve_left hne
    refine ⟨(front ++ inner).length, c, by simp [Nat.add_assoc], ?_, h.chars c (by simp)⟩
    have htext : text = (front ++ inner) ++ c :: '(' :: after := by
      rw [h.parts]
      simp
    rw [htext, List.getElem?_append_right (Nat.le_refl _), Nat.sub_self, List.getElem?_cons_zero]
  · rintro ⟨i, c, hlength, hc, hchar⟩ rfl
    -- without a word the character would be the last one before it
    rw [List.append_nil] at hlength
    obtain ⟨inner, d, rfl⟩ := (List.eq_nil_or_concat' front).resolve_left (by
      rintro rfl
      cases hlength)
    obtain rfl : inner.length = i := by simpa using hlength
    have hd : d = c := by
      rw [h.parts] at hc
      simpa using hc
    have hnot := h.maximal d (by simp)
    rw [hd, hchar] at hnot
    cases hnot

/-- **The call around a cursor, said forwards.**  There is one if and only if a parenthesis is on top of
the stack at the cursor and the character right before it is one of a word.  It is then the call of the
longest word that ends there, and its arguments are counted by the commas that were read while that
parenthesis was on top. -/
theorem around?_matching (text : List Char) (offset : Nat) :
    ((around? text offset).isSome = true ↔
        ∃ i c, (unclosed (text.take offset)).head? = some (i + 1) ∧ text[i]? = some c ∧
          Identifier.isChar c = true) ∧
      ∀ call, around? text offset = some call ↔
        ∃ front word after, Split text offset front word after ∧ word ≠ [] ∧
          call = ⟨String.ofList word, commasOf (text.take offset) (front ++ word).length⟩ := by
  cases htop : (unclosed (text.take offset)).head? with
  | none =>
    rw [around?_of_balanced htop]
    refine ⟨by simp, fun call => ⟨fun h => (Option.some_ne_none _ h.symm).elim, ?_⟩⟩
    rintro ⟨front, word, after, hsplit, -⟩
    have hsome := hsplit.top
    rw [htop] at hsome
    cases hsome
  | some i =>
    obtain ⟨front, word, after, hsplit, rfl⟩ := exists_split htop
    constructor
    · simp only [Option.some.injEq]
      rw [← hsplit.word_ne_nil_iff, around?_of_split hsplit]
      by_cases hword : word = [] <;> simp [hword]
    · intro call
      constructor
      · intro h
        rw [around?_of_split hsplit] at h
        split at h
        · cases h
        · next hne => exact ⟨front, word, after, hsplit, hne, (Option.some.inj h).symm⟩
      · rintro ⟨front', word', after', hsplit', hne, rfl⟩
        rw [around?_of_split hsplit', if_neg hne]

/-- A closing parenthesis that matches nothing, and the comma of a call inside. -/
example :
    let text := "x) f(a, g(b, c), h)".toList
    unclosed (text.take 17) = [4] ∧ commasOf (text.take 17) 4 = 2 ∧ around? text 17 = some ⟨"f", 2⟩ := by
  decide +kernel

end CallSite

end ScriptIndex
