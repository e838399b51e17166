import Mathlib.Data.List.Forall2

/-!
# Agreeing results

Two computations that may fail agree up to a relation if both fail with the same error, or both
give values that are related. Loops agree if their bodies do.
-/

namespace FlowFacts

/-- A step that succeeds after another one has the other one's value to go on from. -/
theorem bind_eq_ok {ε α β : Type} {x : Except ε α} {f : α → Except ε β} {b : β}
    (h : x >>= f = .ok b) : ∃ a, x = .ok a ∧ f a = .ok b := by
  cases x with
  | ok a => exact ⟨a, rfl, h⟩
  | error e => cases h

/-- A computation that is seen to succeed has a value. -/
theorem exists_ok_of_toBool {ε α : Type} {x : Except ε α} (h : x.toBool = true) :
    ∃ a, x = .ok a := by
  cases x with
  | ok a => exact ⟨a, rfl⟩
  | error e => cases h

/-- A computation that is seen to fail has an error. -/
theorem exists_error_of_toBool {ε α : Type} {x : Except ε α} (h : x.toBool = false) :
    ∃ e, x = .error e := by
  cases x with
  | ok a => cases h
  | error e => exact ⟨e, rfl⟩

theorem map_eq_ok {ε α β : Type} {x : Except ε α} {f : α → β} {b : β} (h : x.map f = .ok b) :
    ∃ a, x = .ok a ∧ f a = b := by
  cases x with
  | ok a => exact ⟨a, rfl, Except.ok.inj h⟩
  | error e => cases h

theorem map_eq_error {ε α β : Type} {x : Except ε α} {f : α → β} {e : ε}
    (h : x.map f = .error e) : x = .error e := by
  cases x with
  | ok a => cases h
  | error e => exact congrArg _ (Except.error.inj h)

/-- A loop over a list succeeds if its body does at every place. -/
theorem mapM_eq_ok_iff {ε ι α : Type} {f : ι → Except ε α} {xs : List ι} {ys : List α} :
    xs.mapM f = .ok ys ↔ List.Forall₂ (fun x y => f x = .ok y) xs ys := by
  induction xs generalizing ys with
  | nil =>
    rw [List.mapM_nil, List.forall₂_nil_left_iff]
    exact ⟨fun h => (Except.ok.inj h).symm, fun h => congrArg Except.ok h.symm⟩
  | cons x xs ih =>
    rw [List.mapM_cons, List.forall₂_cons_left_iff]
    constructor
    · intro h
      obtain ⟨y, hy, h⟩ := bind_eq_ok h
      obtain ⟨rest, hrest, h⟩ := bind_eq_ok h
      exact ⟨y, rest, hy, ih.1 hrest, (Except.ok.inj h).symm⟩
    · rintro ⟨y, rest, hy, hrest, rfl⟩
      rw [hy, ih.2 hrest]
      rfl

/-- A loop over a list fails where its body fails first. -/
theorem mapM_eq_error_iff {ε ι α : Type} {f : ι → Except ε α} {xs : List ι} {e : ε} :
    xs.mapM f = .error e ↔ ∃ done x rest, xs = done ++ x :: rest ∧
      (∀ y ∈ done, ∃ a, f y = .ok a) ∧ f x = .error e := by
  induction xs with
  | nil =>
    rw [List.mapM_nil]
    constructor
    · intro h
      cases h
    · rintro ⟨done, x, rest, hxs, -⟩
      simp at hxs
  | cons x xs ih =>
    rw [List.mapM_cons]
    cases hx : f x with
    | error e' =>
      constructor
      · intro h
        cases h
        exact ⟨[], x, xs, rfl, by simp, hx⟩
      · rintro ⟨done, y, rest, hxs, hdone, hy⟩
        cases done with
        | nil =>
          cases hxs
          rw [hx] at hy
          cases hy
          rfl
        | cons z done =>
          cases hxs
          obtain ⟨a, ha⟩ := hdone x List.mem_cons_self
          rw [hx] at ha
          cases ha
    | ok a =>
      have htail : (Except.ok a >>= fun a => xs.mapM f >>= fun as => pure (a :: as)) = .error e ↔
          xs.mapM f = .error e := by
        cases xs.mapM f <;> simp [bind, Except.bind, pure, Except.pure]
      rw [htail, ih]
      constructor
      · rintro ⟨done, y, rest, rfl, hdone, hy⟩
        exact ⟨x :: done, y, rest, rfl, List.forall_mem_cons.2 ⟨⟨a, hx⟩, hdone⟩, hy⟩
      · rintro ⟨done, y, rest, hxs, hdone, hy⟩
        cases done with
        | nil =>
          cases hxs
          rw [hx] at hy
          cases hy
        | cons z done =>
          cases hxs
          exact ⟨done, y, rest, rfl, (List.forall_mem_cons.1 hdone).2, hy⟩

/-! ## Lists side by side -/

theorem exists_of_forall₂ {α β : Type} {R : α → β → Prop} {xs : List α} {ys : List β}
    (h : List.Forall₂ R xs ys) {y : β} (hy : y ∈ ys) : ∃ x ∈ xs, R x y := by
  obtain ⟨k, hk, rfl⟩ := List.getElem_of_mem hy
  have hk' : k < xs.length := h.length_eq ▸ hk
  exact ⟨_, List.getElem_mem hk', h.get hk' hk⟩

theorem exists_getElem?_of_forall₂ {α β : Type} {R : α → β → Prop} {xs : List α} {ys : List β}
    (h : List.Forall₂ R xs ys) {k : Nat} {x : α} (hx : xs[k]? = some x) :
    ∃ y, ys[k]? = some y ∧ R x y := by
  obtain ⟨hk, rfl⟩ := List.getElem?_eq_some_iff.1 hx
  have hk' : k < ys.length := h.length_eq ▸ hk
  exact ⟨_, List.getElem?_eq_getElem hk', h.get hk hk'⟩

theorem map_eq_of_forall₂ {α β γ : Type} {R : α → β → Prop} {f : α → γ} {g : β → γ}
    {xs : List α} {ys : List β} (h : List.Forall₂ R xs ys)
    (hR : ∀ {a : α} {b : β}, R a b → f a = g b) : xs.map f = ys.map g := by
  rw [← List.forall₂_eq_eq_eq, List.forall₂_map_left_iff, List.forall₂_map_right_iff]
  exact h.imp fun _ _ => hR

theorem eq_map_of_forall₂ {α β : Type} {R : α → β → Prop} {g : β → α} {xs : List α} {ys : List β}
    (h : List.Forall₂ R xs ys) (hR : ∀ a ∈ xs, ∀ b, R a b → a = g b) : xs = ys.map g := by
  have hmap := map_eq_of_forall₂ (f := id) ((List.forall₂_and_left _ _).2 ⟨hR, h⟩)
    fun {a b} hab => hab.1 b hab.2
  rwa [List.map_id] at hmap

theorem exists_forall₂ {α β : Type} {R : α → β → Prop} {xs : List α} (h : ∀ x ∈ xs, ∃ y, R x y) :
    ∃ ys, List.Forall₂ R xs ys := by
  induction xs with
  | nil => exact ⟨[], .nil⟩
  | cons x xs ih =>
    rw [List.forall_mem_cons] at h
    obtain ⟨⟨y, hy⟩, hxs⟩ := h
    obtain ⟨ys, hys⟩ := ih hxs
    exact ⟨y :: ys, .cons hy hys⟩

/-- Two lists of partners for the parts of pairs make a list of pairs. -/
theorem exists_pairs_of_forall₂ {α β γ δ : Type} {R : α → γ → Prop} {S : β → δ → Prop}
    {xs : List (α × β)} {cs : List γ} {ds : List δ} (hR : List.Forall₂ R (xs.map Prod.fst) cs)
    (hS : List.Forall₂ S (xs.map Prod.snd) ds) :
    ∃ ys, List.Forall₂ (fun x y => R x.1 y.1 ∧ S x.2 y.2) xs ys ∧
      ys.map Prod.fst = cs ∧ ys.map Prod.snd = ds := by
  induction xs generalizing cs ds with
  | nil =>
    cases hR
    cases hS
    exact ⟨[], .nil, rfl, rfl⟩
  | cons x xs ih =>
    cases hR with
    | cons hc hR =>
      cases hS with
      | cons hd hS =>
        obtain ⟨ys, hys, rfl, rfl⟩ := ih hR hS
        exact ⟨(_, _) :: ys, .cons ⟨hc, hd⟩ hys, rfl, rfl⟩

/-! ## Agreement -/

/-- Both results are values that `R` relates, or both are the same error. -/
inductive Agree {ε α β : Type} (R : α → β → Prop) : Except ε α → Except ε β → Prop
  | ok {a : α} {b : β} (h : R a b) : Agree R (.ok a) (.ok b)
  | error (e : ε) : Agree R (.error e) (.error e)

namespace Agree

variable {ε α β γ δ : Type} {R : α → β → Prop} {S : γ → δ → Prop} {x : Except ε α}
  {y : Except ε β}

theorem exists_ok (h : Agree R x y) {a : α} (ha : x = .ok a) : ∃ b, y = .ok b ∧ R a b := by
  cases h with
  | ok h =>
    cases ha
    exact ⟨_, rfl, h⟩
  | error e => cases ha

/-- Both results are values, or neither is. -/
theorem exists_ok_iff (h : Agree R x y) : (∃ a, x = .ok a) ↔ ∃ b, y = .ok b := by
  cases h with
  | ok h => simp
  | error e => simp

theorem rel (h : Agree R x y) {a : α} {b : β} (ha : x = .ok a) (hb : y = .ok b) : R a b := by
  obtain ⟨b', hb', hR⟩ := h.exists_ok ha
  rw [hb] at hb'
  cases hb'
  exact hR

theorem bind {f : α → Except ε γ} {g : β → Except ε δ} (h : Agree R x y)
    (hf : ∀ a b, R a b → Agree S (f a) (g b)) : Agree S (x >>= f) (y >>= g) := by
  cases h with
  | ok h => exact hf _ _ h
  | error e => exact .error e

/-- A common first step leaves the rest to agree on each of its values. -/
theorem bind_same {x : Except ε α} {f : α → Except ε γ} {g : α → Except ε δ}
    (hf : ∀ a, x = .ok a → Agree S (f a) (g a)) : Agree S (x >>= f) (x >>= g) := by
  cases x with
  | ok a => exact hf a rfl
  | error e => exact .error e

theorem foldlM {ι : Type} {xs : List ι} {f : α → ι → Except ε α} {g : β → ι → Except ε β}
    {a : α} {b : β} (hab : R a b) (hstep : ∀ i ∈ xs, ∀ a b, R a b → Agree R (f a i) (g b i)) :
    Agree R (xs.foldlM f a) (xs.foldlM g b) := by
  induction xs generalizing a b with
  | nil => exact .ok hab
  | cons i xs ih =>
    rw [List.foldlM_cons, List.foldlM_cons]
    refine bind (hstep i List.mem_cons_self a b hab) fun a' b' hab' => ih hab' ?_
    exact fun j hj => hstep j (List.mem_cons_of_mem i hj)

theorem mapM {ι : Type} {xs : List ι} {f : ι → Except ε α} {g : ι → Except ε β}
    (hstep : ∀ i ∈ xs, Agree R (f i) (g i)) :
    Agree (fun as bs => as.length = xs.length ∧ List.Forall₂ R as bs) (xs.mapM f) (xs.mapM g) := by
  induction xs with
  | nil => exact .ok ⟨rfl, .nil⟩
  | cons i xs ih =>
    rw [List.mapM_cons, List.mapM_cons]
    refine bind (hstep i List.mem_cons_self) fun a b hab => ?_
    refine bind (ih fun j hj => hstep j (List.mem_cons_of_mem i hj)) fun as bs habs => ?_
    exact .ok ⟨congrArg (· + 1) habs.1, .cons hab habs.2⟩

end Agree

end FlowFacts
