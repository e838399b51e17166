import FlowFacts.Collection.StrictOrder

/-!
# Finite sets as sorted lists

A `SortedSet α` is a list in strictly ascending order. The order makes the representation
canonical: two sets with the same members are equal (`ext_mem`), so sets can be compared with `=`.

Main results: `mem_insert`, `mem_erase`, `mem_union` say what each operation does to the members.
-/

namespace FlowFacts

/-- A finite set, listed in strictly ascending order. -/
structure SortedSet (α : Type) [StrictOrder α] where
  items : List α
  sorted : items.Pairwise (· < ·)

namespace SortedSet

variable {α : Type} [StrictOrder α]

@[ext] theorem ext {s t : SortedSet α} (h : s.items = t.items) : s = t := by
  cases s; cases t; cases h; rfl

instance [DecidableEq α] : DecidableEq (SortedSet α) := fun s t =>
  decidable_of_iff (s.items = t.items) ⟨ext, congrArg items⟩

def empty : SortedSet α := ⟨[], List.Pairwise.nil⟩

instance : Inhabited (SortedSet α) := ⟨empty⟩

instance : Membership α (SortedSet α) := ⟨fun s a => a ∈ s.items⟩

theorem mem_def {a : α} {s : SortedSet α} : a ∈ s ↔ a ∈ s.items := Iff.rfl

@[simp] theorem not_mem_empty (a : α) : a ∉ (empty : SortedSet α) := List.not_mem_nil

instance [DecidableEq α] (a : α) (s : SortedSet α) : Decidable (a ∈ s) :=
  inferInstanceAs (Decidable (a ∈ s.items))

def size (s : SortedSet α) : Nat := s.items.length

def isEmpty (s : SortedSet α) : Bool := s.items.isEmpty

/-! ## Equality by members -/

theorem items_eq_of_mem_iff : ∀ {xs ys : List α}, xs.Pairwise (· < ·) → ys.Pairwise (· < ·) →
    (∀ a, a ∈ xs ↔ a ∈ ys) → xs = ys
  | [], [], _, _, _ => rfl
  | [], y :: ys, _, _, h => absurd ((h y).2 List.mem_cons_self) List.not_mem_nil
  | x :: xs, [], _, _, h => absurd ((h x).1 List.mem_cons_self) List.not_mem_nil
  | x :: xs, y :: ys, hx, hy, h => by
    rw [List.pairwise_cons] at hx hy
    have hxy : x = y := by
      refine StrictOrder.eq_of_not_lt (fun hlt => ?_) (fun hlt => ?_)
      · rcases List.mem_cons.1 ((h x).1 List.mem_cons_self) with rfl | hm
        · exact StrictOrder.lt_irrefl _ hlt
        · exact StrictOrder.lt_asymm hlt (hy.1 x hm)
      · rcases List.mem_cons.1 ((h y).2 List.mem_cons_self) with rfl | hm
        · exact StrictOrder.lt_irrefl _ hlt
        · exact StrictOrder.lt_asymm hlt (hx.1 y hm)
    subst hxy
    rw [items_eq_of_mem_iff hx.2 hy.2]
    intro a
    have ha := h a
    simp only [List.mem_cons] at ha
    constructor
    · intro hm
      rcases ha.1 (Or.inr hm) with rfl | hm'
      · exact absurd (hx.1 _ hm) (StrictOrder.lt_irrefl _)
      · exact hm'
    · intro hm
      rcases ha.2 (Or.inr hm) with rfl | hm'
      · exact absurd (hy.1 _ hm) (StrictOrder.lt_irrefl _)
      · exact hm'

/-- Sets with the same members are equal. -/
theorem ext_mem {s t : SortedSet α} (h : ∀ a, a ∈ s ↔ a ∈ t) : s = t :=
  ext (items_eq_of_mem_iff s.sorted t.sorted h)

/-! ## Union -/

/-- Puts `x` into an ascending list, where `rest` merges what lies above `x`. -/
def mergeHead (x : α) (rest : List α → List α) : List α → List α
  | [] => x :: rest []
  | y :: ys =>
    if x < y then x :: rest (y :: ys)
    else if y < x then y :: mergeHead x rest ys
    else x :: rest ys

/-- Merges two ascending lists, keeping one copy of what they share. -/
def merge (xs ys : List α) : List α := xs.foldr mergeHead id ys

@[simp] theorem merge_nil_left (ys : List α) : merge [] ys = ys := rfl

@[simp] theorem merge_cons_nil (x : α) (xs : List α) : merge (x :: xs) [] = x :: merge xs [] := rfl

theorem merge_cons_cons (x : α) (xs : List α) (y : α) (ys : List α) :
    merge (x :: xs) (y :: ys) =
      if x < y then x :: merge xs (y :: ys)
      else if y < x then y :: merge (x :: xs) ys
      else x :: merge xs ys := rfl

theorem mem_merge {a : α} (xs ys : List α) : a ∈ merge xs ys ↔ a ∈ xs ∨ a ∈ ys := by
  induction xs generalizing ys with
  | nil => simp
  | cons x xs ihx =>
    induction ys with
    | nil => simp [ihx]
    | cons y ys ihy =>
      rw [merge_cons_cons]
      split
      · simp [ihx, or_assoc]
      · split
        · simp only [List.mem_cons, ihy]
          constructor
          · rintro (h | (h | h) | h) <;> simp [h]
          · rintro ((h | h) | h | h) <;> simp [h]
        · next h₁ h₂ =>
          have hxy := StrictOrder.eq_of_not_lt h₁ h₂
          subst hxy
          simp only [List.mem_cons, ihx]
          constructor
          · rintro (h | h | h) <;> simp [h]
          · rintro ((h | h) | h | h) <;> simp [h]

theorem sorted_merge {xs ys : List α} (hx : xs.Pairwise (· < ·)) (hy : ys.Pairwise (· < ·)) :
    (merge xs ys).Pairwise (· < ·) := by
  induction xs generalizing ys with
  | nil => exact hy
  | cons x xs ihx =>
    rw [List.pairwise_cons] at hx
    induction ys with
    | nil =>
      rw [merge_cons_nil, List.pairwise_cons]
      exact ⟨fun a ha => by simpa using hx.1 a (by simpa [mem_merge] using ha), ihx hx.2 hy⟩
    | cons y ys ihy =>
      have hy' := List.pairwise_cons.1 hy
      rw [merge_cons_cons]
      split
      · next hlt =>
        refine List.pairwise_cons.2 ⟨fun a ha => ?_, ihx hx.2 hy⟩
        rcases (mem_merge _ _).1 ha with ha | ha
        · exact hx.1 a ha
        · rcases List.mem_cons.1 ha with rfl | ha
          · exact hlt
          · exact StrictOrder.lt_trans hlt (hy'.1 a ha)
      · split
        · next hlt =>
          refine List.pairwise_cons.2 ⟨fun a ha => ?_, ihy hy'.2⟩
          rcases (mem_merge _ _).1 ha with ha | ha
          · rcases List.mem_cons.1 ha with rfl | ha
            · exact hlt
            · exact StrictOrder.lt_trans hlt (hx.1 a ha)
          · exact hy'.1 a ha
        · next h₁ h₂ =>
          have hxy := StrictOrder.eq_of_not_lt h₁ h₂
          subst hxy
          refine List.pairwise_cons.2 ⟨fun a ha => ?_, ihx hx.2 hy'.2⟩
          rcases (mem_merge _ _).1 ha with ha | ha
          · exact hx.1 a ha
          · exact hy'.1 a ha

def union (s t : SortedSet α) : SortedSet α :=
  ⟨merge s.items t.items, sorted_merge s.sorted t.sorted⟩

@[simp] theorem mem_union {a : α} {s t : SortedSet α} : a ∈ s.union t ↔ a ∈ s ∨ a ∈ t :=
  mem_merge s.items t.items

/-! ## Single members -/

def singleton (a : α) : SortedSet α := ⟨[a], List.pairwise_singleton _ _⟩

@[simp] theorem mem_singleton {a b : α} : a ∈ singleton b ↔ a = b := List.mem_singleton

def insert (s : SortedSet α) (a : α) : SortedSet α := (singleton a).union s

@[simp] theorem mem_insert {a b : α} {s : SortedSet α} : a ∈ s.insert b ↔ a = b ∨ a ∈ s := by
  simp [insert]

def ofList (xs : List α) : SortedSet α := xs.foldl insert empty

theorem mem_foldl_insert {a : α} (xs : List α) (s : SortedSet α) :
    a ∈ xs.foldl insert s ↔ a ∈ s ∨ a ∈ xs := by
  induction xs generalizing s with
  | nil => simp
  | cons x xs ih =>
    rw [List.foldl_cons, ih]
    simp only [mem_insert, List.mem_cons]
    constructor
    · rintro ((h | h) | h) <;> simp [h]
    · rintro (h | h | h) <;> simp [h]

@[simp] theorem mem_ofList {a : α} {xs : List α} : a ∈ ofList xs ↔ a ∈ xs := by
  simp [ofList, mem_foldl_insert]

/-- A set is rebuilt from its items. -/
@[simp] theorem ofList_items (s : SortedSet α) : ofList s.items = s :=
  ext_mem fun _ => mem_ofList

variable [DecidableEq α]

def erase (s : SortedSet α) (a : α) : SortedSet α :=
  ⟨s.items.filter fun x => x ≠ a, s.sorted.filter _⟩

@[simp] theorem mem_erase {a b : α} {s : SortedSet α} : a ∈ s.erase b ↔ a ∈ s ∧ a ≠ b := by
  simp [mem_def, erase]

/-- Whether every member of `s` is one of `t`. -/
def subset (s t : SortedSet α) : Bool := s.items.all fun a => a ∈ t.items

theorem subset_iff {s t : SortedSet α} : s.subset t = true ↔ ∀ a ∈ s, a ∈ t := by
  simp [subset, mem_def]

/-- The members of `s` that are not in `t`. -/
def diff (s t : SortedSet α) : SortedSet α :=
  ⟨s.items.filter fun x => x ∉ t.items, s.sorted.filter _⟩

@[simp] theorem mem_diff {a : α} {s t : SortedSet α} : a ∈ s.diff t ↔ a ∈ s ∧ a ∉ t := by
  simp [mem_def, diff]

end SortedSet

end FlowFacts
