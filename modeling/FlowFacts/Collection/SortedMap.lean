import FlowFacts.Collection.StrictOrder

/-!
# Finite maps as sorted entry lists

A `SortedMap κ α` lists its entries by strictly ascending key, so that maps with the same
lookups are equal (`ext_get?`). All operations that add entries are instances of `mergeWith`.

Main results: `get?_mergeWith`, `get?_insert`, `get?_erase` say what each operation does to the
lookups.
-/

namespace FlowFacts

/-- A finite map, listed by strictly ascending key. -/
structure SortedMap (κ α : Type) [StrictOrder κ] where
  entries : List (κ × α)
  sorted : entries.Pairwise fun a b => a.1 < b.1

namespace SortedMap

variable {κ α : Type}

section Lookup

variable [DecidableEq κ]

/-- The value at a key of an entry list. -/
def lookupEntry (k : κ) (es : List (κ × α)) : Option α := (es.find? fun e => e.1 = k).map Prod.snd

@[simp] theorem lookupEntry_nil (k : κ) : lookupEntry k ([] : List (κ × α)) = none := rfl

theorem lookupEntry_cons (k : κ) (e : κ × α) (es : List (κ × α)) :
    lookupEntry k (e :: es) = if e.1 = k then some e.2 else lookupEntry k es := by
  by_cases h : e.1 = k <;> simp [lookupEntry, h]

end Lookup

variable [StrictOrder κ]

@[ext] theorem ext {m n : SortedMap κ α} (h : m.entries = n.entries) : m = n := by
  cases m; cases n; cases h; rfl

instance [DecidableEq κ] [DecidableEq α] : DecidableEq (SortedMap κ α) := fun m n =>
  decidable_of_iff (m.entries = n.entries) ⟨ext, congrArg entries⟩

def empty : SortedMap κ α := ⟨[], List.Pairwise.nil⟩

instance : Inhabited (SortedMap κ α) := ⟨empty⟩

def keys (m : SortedMap κ α) : List κ := m.entries.map Prod.fst

def size (m : SortedMap κ α) : Nat := m.entries.length

def isEmpty (m : SortedMap κ α) : Bool := m.entries.isEmpty

def singleton (k : κ) (a : α) : SortedMap κ α := ⟨[(k, a)], List.pairwise_singleton _ _⟩

/-! ## Merging -/

/-- Puts entry `e` into an ascending list, where `rest` merges what lies above its key. -/
def mergeHead (f : α → α → α) (e : κ × α) (rest : List (κ × α) → List (κ × α)) :
    List (κ × α) → List (κ × α)
  | [] => e :: rest []
  | e' :: es =>
    if e.1 < e'.1 then e :: rest (e' :: es)
    else if e'.1 < e.1 then e' :: mergeHead f e rest es
    else (e.1, f e.2 e'.2) :: rest es

/-- Merges two ascending entry lists, combining the values of shared keys with `f`. -/
def merge (f : α → α → α) (xs ys : List (κ × α)) : List (κ × α) :=
  xs.foldr (mergeHead f) id ys

@[simp] theorem merge_nil_left (f : α → α → α) (ys : List (κ × α)) : merge f [] ys = ys := rfl

@[simp] theorem merge_cons_nil (f : α → α → α) (x : κ × α) (xs : List (κ × α)) :
    merge f (x :: xs) [] = x :: merge f xs [] := rfl

theorem merge_cons_cons (f : α → α → α) (x : κ × α) (xs : List (κ × α)) (y : κ × α)
    (ys : List (κ × α)) :
    merge f (x :: xs) (y :: ys) =
      if x.1 < y.1 then x :: merge f xs (y :: ys)
      else if y.1 < x.1 then y :: merge f (x :: xs) ys
      else (x.1, f x.2 y.2) :: merge f xs ys := rfl

theorem key_mem_merge {f : α → α → α} {xs ys : List (κ × α)} {e : κ × α}
    (h : e ∈ merge f xs ys) : e.1 ∈ xs.map Prod.fst ∨ e.1 ∈ ys.map Prod.fst := by
  induction xs generalizing ys with
  | nil => exact .inr (List.mem_map_of_mem h)
  | cons x xs ihx =>
    induction ys with
    | nil =>
      rcases List.mem_cons.1 h with rfl | h
      · simp
      · rcases ihx h with h | h
        · exact .inl (List.mem_cons_of_mem _ h)
        · exact .inr h
    | cons y ys ihy =>
      rw [merge_cons_cons] at h
      split at h
      · rcases List.mem_cons.1 h with rfl | h
        · simp
        · rcases ihx h with h | h
          · exact .inl (List.mem_cons_of_mem _ h)
          · exact .inr h
      · split at h
        · rcases List.mem_cons.1 h with rfl | h
          · simp
          · rcases ihy h with h | h
            · exact .inl h
            · exact .inr (List.mem_cons_of_mem _ h)
        · rcases List.mem_cons.1 h with rfl | h
          · simp
          · rcases ihx h with h | h
            · exact .inl (List.mem_cons_of_mem _ h)
            · exact .inr (List.mem_cons_of_mem _ h)

theorem lt_of_mem_keys {k : κ} {es : List (κ × α)} (h : ∀ e ∈ es, k < e.1) {k' : κ}
    (hk : k' ∈ es.map Prod.fst) : k < k' := by
  obtain ⟨e, he, rfl⟩ := List.mem_map.1 hk
  exact h e he

theorem sorted_merge {f : α → α → α} {xs ys : List (κ × α)}
    (hx : xs.Pairwise fun a b => a.1 < b.1) (hy : ys.Pairwise fun a b => a.1 < b.1) :
    (merge f xs ys).Pairwise fun a b => a.1 < b.1 := by
  induction xs generalizing ys with
  | nil => exact hy
  | cons x xs ihx =>
    rw [List.pairwise_cons] at hx
    induction ys with
    | nil =>
      refine List.pairwise_cons.2 ⟨fun e he => ?_, ihx hx.2 hy⟩
      rcases key_mem_merge he with h | h
      · exact lt_of_mem_keys hx.1 h
      · exact absurd h List.not_mem_nil
    | cons y ys ihy =>
      have hy' := List.pairwise_cons.1 hy
      rw [merge_cons_cons]
      split
      · next hlt =>
        refine List.pairwise_cons.2 ⟨fun e he => ?_, ihx hx.2 hy⟩
        rcases key_mem_merge he with h | h
        · exact lt_of_mem_keys hx.1 h
        · rcases List.mem_cons.1 h with h | h
          · rw [h]; exact hlt
          · exact StrictOrder.lt_trans hlt (lt_of_mem_keys hy'.1 h)
      · split
        · next hlt =>
          refine List.pairwise_cons.2 ⟨fun e he => ?_, ihy hy'.2⟩
          rcases key_mem_merge he with h | h
          · rcases List.mem_cons.1 h with h | h
            · rw [h]; exact hlt
            · exact StrictOrder.lt_trans hlt (lt_of_mem_keys hx.1 h)
          · exact lt_of_mem_keys hy'.1 h
        · next h₁ h₂ =>
          have hxy := StrictOrder.eq_of_not_lt h₁ h₂
          refine List.pairwise_cons.2 ⟨fun e he => ?_, ihx hx.2 hy'.2⟩
          rcases key_mem_merge he with h | h
          · exact lt_of_mem_keys hx.1 h
          · exact hxy ▸ lt_of_mem_keys hy'.1 h

/-- The entries of either map; `f` combines the values of a key in both. -/
def mergeWith (f : α → α → α) (m n : SortedMap κ α) : SortedMap κ α :=
  ⟨merge f m.entries n.entries, sorted_merge m.sorted n.sorted⟩

/-- Writes `a` at key `k`, replacing what was there. -/
def insert (m : SortedMap κ α) (k : κ) (a : α) : SortedMap κ α :=
  (singleton k a).mergeWith (fun new _ => new) m

/-! ## Lookups -/

variable [DecidableEq κ]

def get? (m : SortedMap κ α) (k : κ) : Option α := lookupEntry k m.entries

/-- Takes out the entry of a key. -/
def erase (m : SortedMap κ α) (k : κ) : SortedMap κ α :=
  ⟨m.entries.filter fun e => e.1 ≠ k, m.sorted.filter _⟩

theorem get?_def (m : SortedMap κ α) (k : κ) : m.get? k = lookupEntry k m.entries := rfl

theorem lookupEntry_eq_none {k : κ} {es : List (κ × α)} (h : ∀ e ∈ es, k < e.1) :
    lookupEntry k es = none := by
  simp only [lookupEntry, Option.map_eq_none_iff, List.find?_eq_none, decide_eq_true_eq]
  exact fun e he => (StrictOrder.ne_of_lt (h e he)).symm

/-- Combines two optional values with `f`. -/
def combine (f : α → α → α) : Option α → Option α → Option α
  | some a, some b => some (f a b)
  | some a, none => some a
  | none, b => b

@[simp] theorem combine_none_left (f : α → α → α) (b : Option α) : combine f none b = b := rfl

@[simp] theorem combine_none_right (f : α → α → α) (a : Option α) : combine f a none = a := by
  cases a <;> rfl

theorem lookupEntry_merge (f : α → α → α) (k : κ) {xs ys : List (κ × α)}
    (hx : xs.Pairwise fun a b => a.1 < b.1) (hy : ys.Pairwise fun a b => a.1 < b.1) :
    lookupEntry k (merge f xs ys) = combine f (lookupEntry k xs) (lookupEntry k ys) := by
  induction xs generalizing ys with
  | nil => simp
  | cons x xs ihx =>
    rw [List.pairwise_cons] at hx
    induction ys with
    | nil => simp [lookupEntry_cons, ihx hx.2 hy]
    | cons y ys ihy =>
      have hy' := List.pairwise_cons.1 hy
      rw [merge_cons_cons]
      split
      · next hlt =>
        rw [lookupEntry_cons, ihx hx.2 hy, lookupEntry_cons k x]
        split
        · next hk =>
          have hn : lookupEntry k (y :: ys) = none := by
            refine lookupEntry_eq_none fun e he => ?_
            rcases List.mem_cons.1 he with rfl | he
            · exact hk ▸ hlt
            · exact StrictOrder.lt_trans (hk ▸ hlt) (hy'.1 e he)
          rw [hn, combine_none_right]
        · rfl
      · split
        · next hlt =>
          rw [lookupEntry_cons, ihy hy'.2, lookupEntry_cons k y]
          split
          · next hk =>
            have hn : lookupEntry k (x :: xs) = none := by
              refine lookupEntry_eq_none fun e he => ?_
              rcases List.mem_cons.1 he with rfl | he
              · exact hk ▸ hlt
              · exact StrictOrder.lt_trans (hk ▸ hlt) (hx.1 e he)
            rw [hn, combine_none_left]
          · rfl
        · next h₁ h₂ =>
          have hxy := StrictOrder.eq_of_not_lt h₁ h₂
          rw [lookupEntry_cons, ihx hx.2 hy'.2, lookupEntry_cons k x, lookupEntry_cons k y, ← hxy]
          split <;> rfl

@[simp] theorem get?_empty (k : κ) : (empty : SortedMap κ α).get? k = none := rfl

theorem get?_mergeWith (f : α → α → α) (m n : SortedMap κ α) (k : κ) :
    (m.mergeWith f n).get? k = combine f (m.get? k) (n.get? k) :=
  lookupEntry_merge f k m.sorted n.sorted

theorem get?_singleton (k k' : κ) (a : α) :
    (singleton k a).get? k' = if k = k' then some a else none := by
  rw [get?_def, singleton, lookupEntry_cons]
  rfl

theorem get?_insert (m : SortedMap κ α) (k k' : κ) (a : α) :
    (m.insert k a).get? k' = if k = k' then some a else m.get? k' := by
  rw [insert, get?_mergeWith, get?_singleton]
  split
  · cases m.get? k' <;> rfl
  · rfl

theorem get?_erase (m : SortedMap κ α) (k k' : κ) :
    (m.erase k).get? k' = if k = k' then none else m.get? k' := by
  obtain ⟨es, hs⟩ := m
  rw [get?_def, get?_def]
  simp only [erase]
  clear hs
  induction es with
  | nil => simp
  | cons e es ih =>
    rw [lookupEntry_cons]
    by_cases h : e.1 = k
    · rw [List.filter_cons_of_neg (by simpa using h), ih, h]
      split <;> rfl
    · rw [List.filter_cons_of_pos (by simpa using h), lookupEntry_cons, ih]
      split
      · next he => rw [if_neg (fun hk => h (he.trans hk.symm))]
      · rfl

theorem entries_eq_of_lookup_eq : ∀ {xs ys : List (κ × α)},
    (xs.Pairwise fun a b => a.1 < b.1) → (ys.Pairwise fun a b => a.1 < b.1) →
    (∀ k, lookupEntry k xs = lookupEntry k ys) → xs = ys
  | [], [], _, _, _ => rfl
  | [], y :: ys, _, _, h => by
    have := h y.1
    rw [lookupEntry_cons, if_pos rfl] at this
    cases this
  | x :: xs, [], _, _, h => by
    have := h x.1
    rw [lookupEntry_cons, if_pos rfl] at this
    cases this
  | x :: xs, y :: ys, hx, hy, h => by
    rw [List.pairwise_cons] at hx hy
    have hxy : x.1 = y.1 := by
      refine StrictOrder.eq_of_not_lt (fun hlt => ?_) (fun hlt => ?_)
      · have := h x.1
        rw [lookupEntry_cons, if_pos rfl, lookupEntry_eq_none] at this
        · cases this
        · intro e he
          rcases List.mem_cons.1 he with rfl | he
          · exact hlt
          · exact StrictOrder.lt_trans hlt (hy.1 e he)
      · have := h y.1
        rw [lookupEntry_cons y.1 y, if_pos rfl, lookupEntry_eq_none] at this
        · cases this
        · intro e he
          rcases List.mem_cons.1 he with rfl | he
          · exact hlt
          · exact StrictOrder.lt_trans hlt (hx.1 e he)
    have hv : x.2 = y.2 := by
      have := h x.1
      rw [lookupEntry_cons, lookupEntry_cons, if_pos rfl, if_pos hxy.symm] at this
      exact Option.some.inj this
    have ht : xs = ys := by
      refine entries_eq_of_lookup_eq hx.2 hy.2 fun k => ?_
      have hk := h k
      rw [lookupEntry_cons, lookupEntry_cons, ← hxy] at hk
      by_cases hkx : x.1 = k
      · subst hkx
        rw [lookupEntry_eq_none hx.1, lookupEntry_eq_none fun e he => hxy ▸ hy.1 e he]
      · rwa [if_neg hkx, if_neg hkx] at hk
    rw [ht, Prod.ext hxy hv]

/-- Maps with the same lookups are equal. -/
theorem ext_get? {m n : SortedMap κ α} (h : ∀ k, m.get? k = n.get? k) : m = n :=
  ext (entries_eq_of_lookup_eq m.sorted n.sorted h)

theorem lookupEntry_eq_some_iff {es : List (κ × α)} (hs : es.Pairwise fun a b => a.1 < b.1) {k : κ}
    {a : α} : lookupEntry k es = some a ↔ (k, a) ∈ es := by
  induction es with
  | nil => simp
  | cons e es ih =>
    rw [List.pairwise_cons] at hs
    rw [lookupEntry_cons, List.mem_cons]
    split
    · next hk =>
      -- The key does not come again, so only the first entry counts.
      have hrest : (k, a) ∉ es := fun hmem => StrictOrder.lt_irrefl k (hk ▸ hs.1 (k, a) hmem)
      rw [or_iff_left hrest, Option.some.injEq, ← hk, Prod.ext_iff]
      exact ⟨fun h => ⟨rfl, h.symm⟩, fun h => h.2.symm⟩
    · next hk =>
      have hne : (k, a) ≠ e := fun heq => hk (heq ▸ rfl)
      rw [ih hs.2, or_iff_right hne]

/-- What is found at a key is its entry. -/
theorem get?_eq_some_iff {m : SortedMap κ α} {k : κ} {a : α} :
    m.get? k = some a ↔ (k, a) ∈ m.entries := lookupEntry_eq_some_iff m.sorted

end SortedMap

end FlowFacts
