/-!
# Maps that remember insertion order

`OrderedMap κ α` holds one entry per key, in the order in which the keys were first inserted.
Writing to a key that is already present replaces its value and keeps its place.

Main results:
* `keys_insertEntry`: an insertion appends the key, unless it is already there.
* `get?_insert`: a lookup after an insertion sees the inserted value at its key, and the old
  map elsewhere.
* `entries_eq_concat_iff`: an insertion at a new key puts its entry behind all others.
* `ofList_entries`: rebuilding a map from its entries gives the same map.
-/

namespace FlowFacts

/-- A finite map whose entries are listed in the order of first insertion. -/
structure OrderedMap (κ α : Type) where
  entries : List (κ × α)
  nodupKeys : (entries.map Prod.fst).Nodup

namespace OrderedMap

variable {κ α β : Type}

@[ext] theorem ext {m n : OrderedMap κ α} (h : m.entries = n.entries) : m = n := by
  cases m; cases n; cases h; rfl

instance [DecidableEq κ] [DecidableEq α] : DecidableEq (OrderedMap κ α) := fun m n =>
  decidable_of_iff (m.entries = n.entries) ⟨ext, congrArg entries⟩

def empty : OrderedMap κ α := ⟨[], List.nodup_nil⟩

instance : Inhabited (OrderedMap κ α) := ⟨empty⟩

/-- The keys, in insertion order. -/
def keys (m : OrderedMap κ α) : List κ := m.entries.map Prod.fst

/-- The values, in insertion order of their keys. -/
def values (m : OrderedMap κ α) : List α := m.entries.map Prod.snd

def size (m : OrderedMap κ α) : Nat := m.entries.length

def isEmpty (m : OrderedMap κ α) : Bool := m.entries.isEmpty

/-- Applies `f` to every value; keys and order stay. -/
def mapWithKey (f : κ → α → β) (m : OrderedMap κ α) : OrderedMap κ β where
  entries := m.entries.map fun e => (e.1, f e.1 e.2)
  nodupKeys := by simpa [Function.comp_def] using m.nodupKeys

@[simp] theorem keys_mapWithKey (f : κ → α → β) (m : OrderedMap κ α) :
    (m.mapWithKey f).keys = m.keys := by
  simp [keys, mapWithKey, Function.comp_def]

variable [DecidableEq κ]

def get? (m : OrderedMap κ α) (k : κ) : Option α :=
  (m.entries.find? fun e => e.1 = k).map Prod.snd

def contains (m : OrderedMap κ α) (k : κ) : Bool := m.entries.any fun e => e.1 = k

/-- Writes `a` at key `k` of an entry list: in place if the key occurs, else at the end. -/
def insertEntry (k : κ) (a : α) : List (κ × α) → List (κ × α)
  | [] => [(k, a)]
  | e :: rest => if e.1 = k then (k, a) :: rest else e :: insertEntry k a rest

theorem keys_insertEntry (k : κ) (a : α) (es : List (κ × α)) :
    (insertEntry k a es).map Prod.fst =
      if k ∈ es.map Prod.fst then es.map Prod.fst else es.map Prod.fst ++ [k] := by
  induction es with
  | nil => simp [insertEntry]
  | cons e es ih =>
    by_cases h : e.1 = k
    · simp [insertEntry, h]
    · simp only [insertEntry, h, if_false, List.map_cons, ih, List.mem_cons, Ne.symm h, false_or]
      split <;> simp

theorem nodupKeys_insertEntry (k : κ) (a : α) {es : List (κ × α)}
    (h : (es.map Prod.fst).Nodup) : ((insertEntry k a es).map Prod.fst).Nodup := by
  rw [keys_insertEntry]
  split
  · exact h
  · next hk =>
    refine List.nodup_append.2 ⟨h, by simp, ?_⟩
    intro x hx y hy
    rw [List.mem_singleton.1 hy]
    exact fun hxk => hk (hxk ▸ hx)

/-- Writes `a` at key `k`. -/
def insert (m : OrderedMap κ α) (k : κ) (a : α) : OrderedMap κ α :=
  ⟨insertEntry k a m.entries, nodupKeys_insertEntry k a m.nodupKeys⟩

/-- Applies `f` to the value at key `k`, if there is one. -/
def modify (m : OrderedMap κ α) (k : κ) (f : α → α) : OrderedMap κ α :=
  m.mapWithKey fun k' a => if k' = k then f a else a

/-- The map with the given entries, written one after the other. -/
def ofList (es : List (κ × α)) : OrderedMap κ α :=
  es.foldl (fun m e => m.insert e.1 e.2) empty

@[simp] theorem get?_empty (k : κ) : (empty : OrderedMap κ α).get? k = none := rfl

theorem contains_iff_mem_keys (m : OrderedMap κ α) (k : κ) :
    m.contains k = true ↔ k ∈ m.keys := by
  simp [contains, keys]

theorem get?_eq_none_iff (m : OrderedMap κ α) (k : κ) : m.get? k = none ↔ k ∉ m.keys := by
  simp only [get?, keys, Option.map_eq_none_iff, List.find?_eq_none, decide_eq_true_eq,
    List.mem_map, not_exists, not_and]

theorem isSome_get? (m : OrderedMap κ α) (k : κ) : (m.get? k).isSome = m.contains k := by
  by_cases h : k ∈ m.keys
  · rw [(contains_iff_mem_keys m k).2 h, Option.isSome_iff_ne_none, Ne, get?_eq_none_iff]
    exact fun hn => hn h
  · rw [(get?_eq_none_iff m k).2 h, Option.isSome_none]
    exact (Bool.eq_false_iff.2 fun hc => h ((contains_iff_mem_keys m k).1 hc)).symm

theorem find?_insertEntry (k k' : κ) (a : α) (es : List (κ × α)) :
    ((insertEntry k a es).find? fun e => e.1 = k').map Prod.snd =
      if k = k' then some a else (es.find? fun e => e.1 = k').map Prod.snd := by
  induction es with
  | nil => by_cases h : k = k' <;> simp [insertEntry, h]
  | cons e es ih =>
    by_cases h : e.1 = k
    · by_cases hk : k = k'
      · simp [insertEntry, h, hk]
      · simp [insertEntry, h, hk]
    · by_cases he : e.1 = k'
      · have hk : k ≠ k' := fun hk => h (he.trans hk.symm)
        simp [insertEntry, he, hk, hk.symm]
      · simpa [insertEntry, h, he] using ih

theorem get?_insert (m : OrderedMap κ α) (k k' : κ) (a : α) :
    (m.insert k a).get? k' = if k = k' then some a else m.get? k' :=
  find?_insertEntry k k' a m.entries

theorem get?_mapWithKey (f : κ → α → β) (m : OrderedMap κ α) (k : κ) :
    (m.mapWithKey f).get? k = (m.get? k).map (f k) := by
  obtain ⟨es, _⟩ := m
  simp only [get?, mapWithKey]
  induction es with
  | nil => rfl
  | cons e es ih =>
    by_cases h : e.1 = k
    · simp [h]
    · simpa [h] using ih (by simp_all)

theorem insertEntry_of_not_mem {k : κ} {a : α} {es : List (κ × α)}
    (h : k ∉ es.map Prod.fst) : insertEntry k a es = es ++ [(k, a)] := by
  induction es with
  | nil => rfl
  | cons e es ih =>
    simp only [List.map_cons, List.mem_cons, not_or] at h
    simp [insertEntry, Ne.symm h.1, ih h.2]

/-- A map has one entry more than another, behind all others, exactly if it comes from an insertion
    at a new key. -/
theorem entries_eq_concat_iff {m m' : OrderedMap κ α} {k : κ} {a : α} :
    m'.entries = m.entries ++ [(k, a)] ↔ ¬ m.contains k = true ∧ m' = m.insert k a := by
  rw [contains_iff_mem_keys]
  constructor
  · intro h
    have hk : k ∉ m.keys := by
      have hnodup := m'.nodupKeys
      rw [h, List.map_append, List.nodup_append] at hnodup
      exact fun hmem => hnodup.2.2 k hmem k (by simp) rfl
    exact ⟨hk, ext (h.trans (insertEntry_of_not_mem hk).symm)⟩
  · rintro ⟨hk, rfl⟩
    exact insertEntry_of_not_mem hk

theorem entries_foldl_insert (es : List (κ × α)) (m : OrderedMap κ α)
    (h : ((m.entries ++ es).map Prod.fst).Nodup) :
    (es.foldl (fun m e => m.insert e.1 e.2) m).entries = m.entries ++ es := by
  induction es generalizing m with
  | nil => simp
  | cons e es ih =>
    have hk : e.1 ∉ m.entries.map Prod.fst := by
      simp only [List.map_append, List.map_cons, List.nodup_append, List.mem_cons] at h
      intro hm
      exact h.2.2 _ hm _ (Or.inl rfl) rfl
    have he : (m.insert e.1 e.2).entries = m.entries ++ [e] := insertEntry_of_not_mem hk
    rw [List.foldl_cons, ih _ (by rw [he]; simpa using h), he]
    simp

/-- Entry lists without repeated keys are kept as they are. -/
theorem entries_ofList {es : List (κ × α)} (h : (es.map Prod.fst).Nodup) :
    (ofList es).entries = es := by
  simpa [ofList, empty] using entries_foldl_insert es empty (by simpa [empty] using h)

@[simp] theorem ofList_entries (m : OrderedMap κ α) : ofList m.entries = m :=
  ext (entries_ofList m.nodupKeys)

end OrderedMap

end FlowFacts
