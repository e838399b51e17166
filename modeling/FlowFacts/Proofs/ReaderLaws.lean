import FlowFacts.Source.Grammar
import Mathlib.Data.List.Chain
import Mathlib.Data.List.TakeWhile

/-!
# Laws of readers

What the combinators do with a text whose front is known, and what must have been in front of a
text that they have read. Readers of program texts pass over layout before each token, so most of
them look at a text only from the first character after the layout on.

Main results:

* `Reader.many_eq`, `Reader.many_steps`: a repetition reads one item after the other.
* `Source.SkipsLayout`: readers to which leading layout makes no difference.
* `Source.sepBy1_comma`, `Source.Steps.of_lines`: lists with commas and with empty lines.
-/

namespace FlowFacts

namespace Reader

variable {α β : Type} {p : Reader α} {q : Reader β} {s r : List Char}

/-! ## Sequences and choices -/

@[simp]
theorem pure_apply (a : α) (s : List Char) : (pure a : Reader α) s = some (a, s) := rfl

theorem bind_apply (p : Reader α) (f : α → Reader β) (s : List Char) :
    (p >>= f) s = (p s).bind fun x => f x.1 x.2 := rfl

theorem bind_of_some {f : α → Reader β} {a : α} (h : p s = some (a, r)) : (p >>= f) s = f a r := by
  rw [bind_apply, h]
  rfl

theorem bind_of_none {f : α → Reader β} (h : p s = none) : (p >>= f) s = none := by
  rw [bind_apply, h]
  rfl

theorem map_apply (g : α → β) (p : Reader α) (s : List Char) :
    (g <$> p) s = (p s).map fun x => (g x.1, x.2) := by
  cases h : p s <;> simp [Functor.map, StateT.map, h]

theorem seqRight_apply (p : Reader α) (q : Reader β) (s : List Char) :
    (p *> q) s = (p s).bind fun x => q x.2 := by
  cases h : p s <;> simp [SeqRight.seqRight, StateT.bind, h]

theorem seqLeft_apply (p : Reader α) (q : Reader β) (s : List Char) :
    (p <* q) s = (p s).bind fun x => (q x.2).map fun y => (x.1, y.2) := by
  show ((p s).bind fun x => (q x.2).bind fun y => some (x.1, y.2)) = _
  simp only [Option.map_eq_bind]
  rfl

theorem orElse_apply (p q : Reader α) (s : List Char) : (p <|> q) s = (p s).or (q s) := by
  cases h : p s <;> simp [HOrElse.hOrElse, OrElse.orElse, Alternative.orElse, StateT.orElse, h]

/-! ## Repetitions -/

/-- One item after the other is read from a text. -/
inductive Steps (p : Reader α) : List α → List Char → List Char → Prop
  | nil (s : List Char) : Steps p [] s s
  | cons {a : α} {items : List α} {s t r : List Char} :
      p s = some (a, t) → Steps p items t r → Steps p (a :: items) s r

theorem Steps.append {items items' : List α} {t : List Char} (h : Steps p items s t)
    (h' : Steps p items' t r) : Steps p (items ++ items') s r := by
  induction h with
  | nil s => exact h'
  | cons ha _ ih => exact .cons ha (ih h')

theorem manyUpTo_eq {items : List α} (h : Steps p items s r) (hend : p r = none) {bound : Nat}
    (hbound : items.length ≤ bound) : manyUpTo p bound s = some (items, r) := by
  induction h generalizing bound with
  | nil s =>
    cases bound with
    | zero => rfl
    | succ bound => simp [manyUpTo, hend]
  | cons ha _ ih =>
    cases bound with
    | zero => simp at hbound
    | succ bound => simp [manyUpTo, ha, ih hend (Nat.le_of_succ_le_succ hbound)]

/-- A repetition reads items until there is none in front. The length of the text is only a bound
    on their number. -/
theorem many_eq {items : List α} (h : Steps p items s r) (hend : p r = none)
    (hlength : items.length ≤ s.length) : many p s = some (items, r) :=
  manyUpTo_eq h hend hlength

theorem manyUpTo_steps {items : List α} {bound : Nat} (h : manyUpTo p bound s = some (items, r)) :
    Steps p items s r := by
  induction bound generalizing s items with
  | zero =>
    cases h
    exact .nil _
  | succ bound ih =>
    rw [manyUpTo] at h
    split at h
    · cases h
      exact .nil _
    · rename_i a t ha
      obtain ⟨x, hx, heq⟩ := Option.map_eq_some_iff.1 h
      cases heq
      exact .cons ha (ih hx)

theorem many_steps {items : List α} (h : many p s = some (items, r)) : Steps p items s r :=
  manyUpTo_steps h

/-- A repetition does not fail. -/
theorem exists_many (p : Reader α) (s : List Char) : ∃ items r, many p s = some (items, r) := by
  unfold many
  generalize s.length = bound
  induction bound generalizing s with
  | zero => exact ⟨_, _, rfl⟩
  | succ bound ih =>
    rw [manyUpTo]
    cases h : p s with
    | none => exact ⟨_, _, rfl⟩
    | some x =>
      obtain ⟨items, r, hitems⟩ := ih x.2
      exact ⟨x.1 :: items, r, by simp [hitems]⟩

theorem sepBy1_eq {a : α} {items : List α} {t : List Char} (ha : p s = some (a, t))
    (h : Steps (q *> p) items t r) (hend : (q *> p) r = none) (hlength : items.length ≤ t.length) :
    sepBy1 p q s = some (a :: items, r) := by
  unfold sepBy1
  rw [bind_of_some ha, bind_of_some (many_eq h hend hlength)]
  rfl

/-- Every item was read somewhere. -/
theorem Steps.exists_read {items : List α} (h : Steps p items s r) :
    ∀ a ∈ items, ∃ s' r', p s' = some (a, r') := by
  induction h with
  | nil s => simp
  | cons ha _ ih =>
    intro b hb
    rcases List.mem_cons.1 hb with rfl | hb
    · exact ⟨_, _, ha⟩
    · exact ih b hb

/-- Neighbouring items were read one behind the other. -/
theorem Steps.isChain {items : List α} (h : Steps p items s r) :
    items.IsChain fun a b => ∃ s t r, p s = some (a, t) ∧ p t = some (b, r) := by
  induction h with
  | nil s => exact .nil
  | cons ha hrest ih =>
    cases hrest with
    | nil => exact .singleton _
    | cons hb _ => exact .cons_cons ⟨_, _, _, ha, hb⟩ ih

/-- The last item was read where the whole reading ends. -/
theorem Steps.last {items : List α} {a : α} (h : Steps p items s r) (ha : a ∈ items.getLast?) :
    ∃ s', p s' = some (a, r) := by
  induction h with
  | nil s => simp at ha
  | @cons b items s t r hb hrest ih =>
    cases hrest with
    | nil =>
      simp only [List.getLast?_singleton, Option.mem_some_iff] at ha
      exact ⟨s, ha ▸ hb⟩
    | cons _ _ => exact ih (by simpa using ha)

/-- Items whose texts stand one after the other are read in turn, if each can be read in front of
    whatever may follow it. -/
theorem Steps.of_texts {text : α → List Char} {P : List Char → Prop} {items : List α}
    (hread : ∀ a ∈ items, ∀ r, P r → p (text a ++ r) = some (a, r))
    (htext : ∀ a ∈ items, ∀ r, P (text a ++ r)) (hr : P r) :
    Steps p items (items.flatMap text ++ r) r := by
  induction items with
  | nil => exact .nil r
  | cons a items ih =>
    rw [List.forall_mem_cons] at hread htext
    have hrest : P (items.flatMap text ++ r) := by
      cases items with
      | nil => exact hr
      | cons b items =>
        rw [List.flatMap_cons, List.append_assoc]
        exact htext.2 b List.mem_cons_self _
    rw [List.flatMap_cons, List.append_assoc]
    exact .cons (hread.1 _ hrest) (ih hread.2 htext.2)

theorem length_le_length_flatMap {text : α → List Char} {items : List α}
    (hne : ∀ a ∈ items, text a ≠ []) : items.length ≤ (items.flatMap text).length := by
  induction items with
  | nil => simp
  | cons a items ih =>
    rw [List.forall_mem_cons] at hne
    have hpos : 0 < (text a).length := List.length_pos_iff.2 hne.1
    have := ih hne.2
    simp only [List.flatMap_cons, List.length_append, List.length_cons]
    omega

theorem toList_intercalate_cons (text : α → String) (a : α) (items : List α) (sep : String) :
    (sep.intercalate ((a :: items).map text)).toList =
      (text a).toList ++ items.flatMap fun b => sep.toList ++ (text b).toList := by
  induction items generalizing a with
  | nil => simp
  | cons b items ih =>
    rw [List.map_cons, List.map_cons, String.intercalate_cons_cons, ← List.map_cons,
      String.toList_append, ih]
    simp

theorem length_le_length_intercalate_of_mem (text : α → String) {items : List α} {a : α}
    (ha : a ∈ items) (sep : String) :
    (text a).toList.length ≤ (sep.intercalate (items.map text)).toList.length := by
  induction items with
  | nil => cases ha
  | cons b items ih =>
    cases items with
    | nil =>
      rw [List.mem_singleton.1 ha]
      simp
    | cons c items =>
      rw [List.map_cons, List.map_cons, String.intercalate_cons_cons, ← List.map_cons]
      simp only [String.toList_append, List.length_append]
      rcases List.mem_cons.1 ha with rfl | ha
      · omega
      · have := ih ha
        omega

theorem length_le_length_intercalate {text : α → String} {items : List α}
    (hne : ∀ a ∈ items, (text a).toList ≠ []) (sep : String) :
    items.length ≤ (sep.intercalate (items.map text)).toList.length := by
  induction items with
  | nil => simp
  | cons a items ih =>
    rw [List.forall_mem_cons] at hne
    have hpos : 0 < (text a).toList.length := List.length_pos_iff.2 hne.1
    have hle := ih hne.2
    cases items with
    | nil =>
      simp only [List.map_cons, List.map_nil, String.intercalate_singleton, List.length_cons,
        List.length_nil]
      omega
    | cons b items =>
      simp only [List.map_cons, String.intercalate_cons_cons, String.toList_append,
        List.length_append, List.length_cons] at hle ⊢
      omega

/-! ## Words and spans -/

theorem dropWord_append (w s : List Char) : dropWord w (w ++ s) = some s := by
  induction w with
  | nil => rfl
  | cons c w ih => simp [dropWord, ih]

theorem eq_append_of_dropWord {w : List Char} (h : dropWord w s = some r) : s = w ++ r := by
  induction w generalizing s with
  | nil =>
    cases h
    rfl
  | cons c w ih =>
    cases s with
    | nil => cases h
    | cons d s =>
      rw [dropWord] at h
      split_ifs at h with hcd
      rw [hcd, ih h]
      rfl

/-- Where a run of characters with a property cannot go on. -/
def Stops (p : Char → Bool) (s : List Char) : Prop := ∀ c ∈ s.head?, p c = false

theorem stops_nil (p : Char → Bool) : Stops p [] := by simp [Stops]

@[simp]
theorem stops_cons {p : Char → Bool} {c : Char} : Stops p (c :: s) ↔ p c = false := by
  simp [Stops]

theorem stops_dropWhile (p : Char → Bool) (s : List Char) : Stops p (s.dropWhile p) := by
  induction s with
  | nil => exact stops_nil p
  | cons c s ih =>
    rw [List.dropWhile_cons]
    split_ifs with hc
    · exact ih
    · simpa using hc

theorem takeWhile_append {p : Char → Bool} {w : List Char} (hw : ∀ c ∈ w, p c = true)
    (hs : Stops p s) : (w ++ s).takeWhile p = w := by
  rw [List.takeWhile_append_of_pos hw]
  cases s with
  | nil => simp
  | cons c s => simp [stops_cons.1 hs]

theorem dropWhile_append {p : Char → Bool} {w : List Char} (hw : ∀ c ∈ w, p c = true)
    (hs : Stops p s) : (w ++ s).dropWhile p = s := by
  rw [List.dropWhile_append_of_pos hw]
  cases s with
  | nil => simp
  | cons c s => simp [stops_cons.1 hs]

theorem span1_append {p : Char → Bool} {w : List Char} (hne : w ≠ []) (hw : ∀ c ∈ w, p c = true)
    (hs : Stops p s) : span1 p (w ++ s) = some (w, s) := by
  unfold span1
  rw [takeWhile_append hw hs, dropWhile_append hw hs]
  cases w with
  | nil => exact absurd rfl hne
  | cons c w => rfl

theorem span1_of_stops {p : Char → Bool} (hs : Stops p s) : span1 p s = none := by
  cases s with
  | nil => rfl
  | cons c s => simp [span1, stops_cons.1 hs]

theorem span1_eq_some {p : Char → Bool} {w : List Char} (h : span1 p s = some (w, r)) :
    w ≠ [] ∧ (∀ c ∈ w, p c = true) ∧ s = w ++ r ∧ Stops p r := by
  unfold span1 at h
  split at h
  · cases h
  · rename_i hne
    simp only [Option.some.injEq, Prod.mk.injEq] at h
    obtain ⟨rfl, rfl⟩ := h
    refine ⟨?_, fun c hc => ?_, List.takeWhile_append_dropWhile.symm, stops_dropWhile p s⟩
    · intro hnil
      exact hne hnil
    · exact List.mem_takeWhile_imp hc

end Reader

namespace Source

variable {α β : Type} {p : Reader α} {c : Char} {s r : List Char}

/-! ## Layout -/

theorem skipLayout_blank (hc : isBlank c = true) :
    skipLayout false (c :: s) = skipLayout false s := by
  simp [skipLayout, hc]

theorem skipLayout_cons (hc : isBlank c = false) (hcomment : c ≠ ';') :
    skipLayout false (c :: s) = c :: s := by
  simp [skipLayout, hc, hcomment]

theorem skipLayout_skipLayout (inside : Bool) (s : List Char) :
    skipLayout false (skipLayout inside s) = skipLayout inside s := by
  fun_induction skipLayout inside s with
  | case1 => rfl
  | case2 c rest ih => exact ih
  | case3 c rest hc ih => exact ih
  | case4 rest hc ih => exact ih
  | case5 c rest hc hcomment => exact skipLayout_cons (by simpa using hc) hcomment

/-- Leading layout makes no difference to a reader. -/
def SkipsLayout (p : Reader α) : Prop := ∀ s, p (skipLayout false s) = p s

namespace SkipsLayout

theorem token (p : Reader α) : SkipsLayout (token p) := fun s => by
  simp [Source.token, skipLayout_skipLayout]

theorem bind (hp : SkipsLayout p) (f : α → Reader β) : SkipsLayout (p >>= f) := fun s => by
  rw [Reader.bind_apply, Reader.bind_apply, hp s]

theorem seqRight (hp : SkipsLayout p) (q : Reader β) : SkipsLayout (p *> q) := fun s => by
  rw [Reader.seqRight_apply, Reader.seqRight_apply, hp s]

theorem seqLeft (hp : SkipsLayout p) (q : Reader β) : SkipsLayout (p <* q) := fun s => by
  rw [Reader.seqLeft_apply, Reader.seqLeft_apply, hp s]

theorem sepBy1 (hp : SkipsLayout p) (sep : Reader β) : SkipsLayout (Reader.sepBy1 p sep) :=
  hp.bind _

/-- Looking ahead takes nothing, so what comes next has to skip the layout as well. -/
theorem notAhead_bind (hp : SkipsLayout p) {f : Unit → Reader β} (hf : SkipsLayout (f ())) :
    SkipsLayout (Reader.notAhead p >>= f) := fun s => by
  rw [Reader.bind_apply, Reader.bind_apply]
  unfold Reader.notAhead
  rw [hp s]
  cases p s with
  | some x => rfl
  | none => exact hf s

theorem option_bind (hp : SkipsLayout p) {f : Option α → Reader β} (hf : SkipsLayout (f none)) :
    SkipsLayout (Reader.option p >>= f) := fun s => by
  rw [Reader.bind_apply, Reader.bind_apply]
  unfold Reader.option
  rw [hp s]
  cases p s with
  | some x => rfl
  | none => exact hf s

/-- A blank in front makes no difference. -/
theorem blank (hp : SkipsLayout p) (hc : isBlank c = true) (s : List Char) : p (c :: s) = p s := by
  rw [← hp (c :: s), skipLayout_blank hc, hp s]

theorem blanks (hp : SkipsLayout p) {w : List Char} (hw : ∀ c ∈ w, isBlank c = true)
    (s : List Char) : p (w ++ s) = p s := by
  induction w with
  | nil => rfl
  | cons c w ih =>
    rw [List.forall_mem_cons] at hw
    rw [List.cons_append, hp.blank hw.1, ih hw.2]

end SkipsLayout

/-- The first character after the layout. -/
def next? (s : List Char) : Option Char := (skipLayout false s).head?

theorem isBlank_newline : ∀ c ∈ ['\n'], isBlank c = true := List.forall_mem_singleton.2 rfl

theorem next?_blank (hc : isBlank c = true) : next? (c :: s) = next? s := by
  rw [next?, skipLayout_blank hc, next?]

theorem next?_blanks {w : List Char} (hw : ∀ c ∈ w, isBlank c = true) (s : List Char) :
    next? (w ++ s) = next? s := by
  induction w with
  | nil => rfl
  | cons c w ih =>
    rw [List.forall_mem_cons] at hw
    rw [List.cons_append, next?_blank hw.1, ih hw.2]

theorem next?_cons (hc : isBlank c = false) (hcomment : c ≠ ';') : next? (c :: s) = some c := by
  rw [next?, skipLayout_cons hc hcomment]
  rfl

/-! ## Tokens -/

theorem skipsLayout_symbol (c : Char) : SkipsLayout (symbol c) := .token _

theorem skipsLayout_keyword (w : String) : SkipsLayout (keyword w) := .token _

theorem symbol_cons (hc : isBlank c = false) (hcomment : c ≠ ';') :
    symbol c (c :: s) = some ((), s) := by
  simp [symbol, Source.token, skipLayout_cons hc hcomment, Reader.char]

theorem symbol_of_next? (h : next? s ≠ some c) : symbol c s = none := by
  unfold next? at h
  unfold symbol Source.token Reader.char
  cases hs : skipLayout false s with
  | nil => rfl
  | cons d t =>
    rw [hs] at h
    simp at h
    simp [h]

/-- What a list item needs behind it: its last name ends, and no result name was read. -/
structure Follows (s : List Char) : Prop where
  stops : Reader.Stops isIdentChar s
  next : next? s ≠ some '='

theorem follows_comma (s : List Char) : Follows (',' :: s) :=
  ⟨by simp; decide, by rw [next?_cons (by decide) (by decide)]; decide⟩

/-- Items with commas between them are read back, if each can be read in front of what follows
    it. -/
theorem sepBy1_comma {text : α → String} {items : List α} (hne : items ≠ [])
    (hp : SkipsLayout p)
    (hread : ∀ a ∈ items, ∀ r, Follows r → p ((text a).toList ++ r) = some (a, r))
    (hr : Follows r) (hcomma : next? r ≠ some ',') :
    Reader.sepBy1 p (symbol ',') ((", ".intercalate (items.map text)).toList ++ r) =
      some (items, r) := by
  obtain ⟨first, items, rfl⟩ := List.exists_cons_of_ne_nil hne
  rw [List.forall_mem_cons] at hread
  have htext : (", ".intercalate ((first :: items).map text)).toList =
      (text first).toList ++ items.flatMap fun a => ',' :: ' ' :: (text a).toList :=
    Reader.toList_intercalate_cons text first items ", "
  have hsteps : Reader.Steps (symbol ',' *> p) items
      ((items.flatMap fun a => ',' :: ' ' :: (text a).toList) ++ r) r := by
    refine .of_texts (P := Follows) (fun a ha t ht => ?_) (fun a _ t => follows_comma _) hr
    rw [Reader.seqRight_apply, List.cons_append, symbol_cons (by decide) (by decide)]
    show p (' ' :: ((text a).toList ++ t)) = some (a, t)
    rw [hp.blank (by decide)]
    exact hread.2 a ha t ht
  have hfollows : Follows ((items.flatMap fun a => ',' :: ' ' :: (text a).toList) ++ r) := by
    cases items with
    | nil => exact hr
    | cons second items => exact follows_comma _
  have hend : (symbol ',' *> p) r = none := by
    rw [Reader.seqRight_apply, symbol_of_next? hcomma]
    rfl
  have hlength : items.length ≤ (items.flatMap fun a => ',' :: ' ' :: (text a).toList).length :=
    Reader.length_le_length_flatMap (by simp)
  rw [htext, List.append_assoc]
  exact Reader.sepBy1_eq (hread.1 _ hfollows) hsteps hend (by rw [List.length_append]; omega)

/-- Items with empty lines between them are read back. The text of an item ends with its line, of
    which reading may leave blanks and the end; what follows may depend on the item. -/
theorem Steps.of_lines {text : α → String} {P : α → List Char → Prop} {items : List α}
    (hp : SkipsLayout p) (hne : items ≠ [])
    (hread : ∀ a ∈ items, ∀ r, P a r → ∃ w, (∀ c ∈ w, isBlank c = true) ∧
      p ((text a).toList ++ r) = some (a, w ++ r))
    (hchain : items.IsChain fun a b => ∀ r, P a ('\n' :: ((text b).toList ++ r)))
    (hlast : ∀ a ∈ items.getLast?, P a r) :
    ∃ w, (∀ c ∈ w, isBlank c = true) ∧
      Reader.Steps p items (("\n".intercalate (items.map text)).toList ++ r) (w ++ r) := by
  induction items with
  | nil => exact absurd rfl hne
  | cons a items ih =>
    rw [List.forall_mem_cons] at hread
    cases items with
    | nil =>
      obtain ⟨w, hw, ha⟩ := hread.1 r (hlast a (by simp))
      exact ⟨w, hw, by simpa using Reader.Steps.cons ha (.nil _)⟩
    | cons b items =>
      rw [List.isChain_cons_cons] at hchain
      obtain ⟨w', hw', hrest⟩ := ih (by simp) hread.2 hchain.2 (by simpa using hlast)
      have htext : ∃ t, (("\n".intercalate ((b :: items).map text)).toList ++ r) =
          (text b).toList ++ t := by
        cases items <;> simp
      obtain ⟨t, ht⟩ := htext
      obtain ⟨w, hw, ha⟩ := hread.1 _ (hchain.1 t)
      rw [← ht] at ha
      have hsplit : ("\n".intercalate ((a :: b :: items).map text)).toList ++ r =
          (text a).toList ++ '\n' :: (("\n".intercalate ((b :: items).map text)).toList ++ r) := by
        simp
      rw [hsplit]
      refine ⟨w', hw', .cons ha ?_⟩
      cases hrest with
      | cons hb hrest =>
        refine .cons ?_ hrest
        rw [hp.blanks hw, hp.blank (by decide), hb]

end Source

end FlowFacts
