import FlowFacts.Proofs.FactPaths
import FlowFacts.Proofs.ProgramCodec
import Mathlib.Data.List.Forall2

/-!
# Points-to maps as lists of entries

In JSON a points-to map is a list of entries, each with a location and its targets. A list that is
read may have them in any order: a location may come several times or without targets, and targets
may be repeated. What such rows say of a location is that it is present or that it has a target, and
the map that is read says exactly what some row says. So it is the join of the maps of single rows,
and no order matters. A map is written in ascending order, and what was written is read back.

Main results:

* `PointsTo.ofJson?_eq`: what is read is the join of the maps of single rows.
* `PointsTo.says_ofRows`: what that join says.
* `PointsTo.isListing_toRows`: what is written.
* `PointsTo.ofJson?_toJson`: what was written is read back.
* `PointsTo.isEntryCodec`: reading and writing of points-to maps.
-/

namespace FlowFacts

namespace JsonText

theorem lt_of_index? {json : JsonText} {i : Nat} (h : json.index? = some i) : i < UInt64.size := by
  obtain ⟨n, -, h⟩ := Option.bind_eq_some_iff.1 h
  obtain ⟨hn, h⟩ := Option.ite_none_right_eq_some.1 h
  cases h
  omega

theorem exists_of_named? {α : Type} {f : String → Option α} {json : JsonText} {a : α}
    (h : json.named? f = some a) : ∃ name, f name = some a := by
  unfold named? at h
  split at h
  · exact ⟨_, h⟩
  · exact ⟨_, h⟩
  · cases h

/-- Items are decoded and then changed one by one. -/
theorem list?_map {α β : Type} (f : JsonText → Option α) (g : α → β) (json : JsonText) :
    json.list? (fun item => (f item).map g) = (json.list? f).map (List.map g) := by
  cases json with
  | arr items =>
    show items.mapM (fun item => (f item).map g) = (items.mapM f).map (List.map g)
    induction items with
    | nil => rfl
    | cons item items ih =>
      rw [List.mapM_cons, List.mapM_cons, ih]
      cases f item with
      | none => rfl
      | some a => cases items.mapM f <;> rfl
  | _ => rfl

theorem forall_of_list? {α : Type} {f : JsonText → Option α} {json : JsonText} {xs : List α}
    (h : json.list? f = some xs) {P : α → Prop} (hf : ∀ item a, f item = some a → P a) :
    ∀ a ∈ xs, P a := by
  cases json with
  | arr items =>
    replace h : items.mapM f = some xs := h
    induction items generalizing xs with
    | nil =>
      cases h
      exact fun a ha => absurd ha List.not_mem_nil
    | cons item items ih =>
      rw [List.mapM_cons] at h
      obtain ⟨a, ha, h⟩ := Option.bind_eq_some_iff.1 h
      obtain ⟨as, has, h⟩ := Option.bind_eq_some_iff.1 h
      cases h
      exact List.forall_mem_cons.2 ⟨hf item a ha, ih has⟩
  | _ => cases h

end JsonText

open JsonText

/-! ## Locations -/

namespace Location

/-- The index of the instruction that the location belongs to. -/
def index : Location → Nat
  | value index => index
  | memory index => index

/-- An index is a number of 64 bits. -/
def Fits (l : Location) : Prop := l.index < UInt64.size

instance (l : Location) : Decidable l.Fits := inferInstanceAs (Decidable (l.index < UInt64.size))

theorem ofJson?_toJson {l : Location} (h : l.Fits) : ofJson? (.ofJson l.toJson) = some l := by
  have hindex : (JsonText.ofJson (.nat l.index)).index? = some l.index :=
    natBelow?_nat (Nat.le_refl _) h
  cases l with
  | value i =>
    rw [index] at hindex
    rw [toJson, ofJson?, record?_ofJson_fields (by simp)]
    simp [fieldNamed?, named?_str, kind?, hindex]
  | memory i =>
    rw [index] at hindex
    rw [toJson, ofJson?, record?_ofJson_fields (by simp)]
    simp [fieldNamed?, named?_str, kind?, hindex]

theorem fits_of_ofJson? {json : JsonText} {l : Location} (h : ofJson? json = some l) : l.Fits := by
  obtain ⟨fields, -, h⟩ := Option.bind_eq_some_iff.1 h
  split at h
  · next kind number =>
    obtain ⟨k, hk, h⟩ := Option.bind_eq_some_iff.1 h
    obtain ⟨i, hi, h⟩ := Option.bind_eq_some_iff.1 h
    obtain ⟨name, hname⟩ := exists_of_named? hk
    cases h
    unfold kind? at hname
    split at hname
    · cases hname
      exact lt_of_index? hi
    · cases hname
      exact lt_of_index? hi
    · cases hname
  · cases h

end Location

namespace PointsTo

/-! ## Rows -/

/-- An entry as it is written: the targets are in any order and may be repeated. -/
structure Row where
  /-- The location that points. -/
  location : Location
  /-- What it may point to. -/
  targets : List Location
deriving DecidableEq

namespace Row

/-- All indices have 64 bits. -/
def Fits (row : Row) : Prop := row.location.Fits ∧ ∀ t ∈ row.targets, t.Fits

instance (row : Row) : Decidable row.Fits :=
  inferInstanceAs (Decidable (_ ∧ ∀ t ∈ row.targets, t.Fits))

/-- A row as JSON. -/
def toJson (row : Row) : Json :=
  .obj [("location", row.location.toJson), ("targets", .list Location.toJson row.targets)]

/-- A row from JSON, as it is written. -/
def ofJson? (json : JsonText) : Option Row := do
  match ← json.record? ["location", "targets"] with
  | [some location, some targets] =>
    return ⟨← Location.ofJson? location, ← targets.list? Location.ofJson?⟩
  | _ => none

/-- The map with this row only. -/
def toMap (row : Row) : PointsTo := .singleton row.location (.ofList row.targets)

/-- The row says that its location is present, or that `t` is one of the targets. -/
def Says (row : Row) (l : Location) (x : Option Location) : Prop :=
  row.location = l ∧ ∀ t ∈ x, t ∈ row.targets

theorem ofJson?_toJson {row : Row} (h : row.Fits) : ofJson? (.ofJson row.toJson) = some row := by
  have htargets := list?_ofJson fun t ht => Location.ofJson?_toJson (h.2 t ht)
  rw [toJson, ofJson?, record?_ofJson (by rfl) (by decide)]
  simp [Location.ofJson?_toJson h.1, htargets]

theorem entryOfJson?_eq (json : JsonText) :
    entryOfJson? json = (ofJson? json).map fun row => (row.location, .ofList row.targets) := by
  unfold entryOfJson? ofJson?
  cases json.record? ["location", "targets"] with
  | none => rfl
  | some fields =>
    -- Both read an entry only if there are two fields and none is absent.
    rcases fields with _ | ⟨_ | location, fields⟩
    · rfl
    · rfl
    rcases fields with _ | ⟨_ | targets, _ | ⟨_, _⟩⟩
    · rfl
    · rfl
    · rfl
    · show (Location.ofJson? location).bind _ = Option.map _ ((Location.ofJson? location).bind _)
      cases Location.ofJson? location with
      | none => rfl
      | some l => cases targets.list? Location.ofJson? <;> rfl
    · rfl

theorem says_toMap {row : Row} {l : Location} {x : Option Location} :
    row.toMap.Says l x ↔ row.Says l x := by
  unfold PointsTo.Says Says targets? toMap
  rw [SortedMap.get?_singleton]
  by_cases h : row.location = l
  · simp [h]
  · simp [h]

theorem fits_of_ofJson? {json : JsonText} {row : Row} (h : ofJson? json = some row) : row.Fits := by
  obtain ⟨fields, -, h⟩ := Option.bind_eq_some_iff.1 h
  split at h
  · next location targets =>
    obtain ⟨l, hl, h⟩ := Option.bind_eq_some_iff.1 h
    obtain ⟨ts, hts, h⟩ := Option.bind_eq_some_iff.1 h
    cases h
    exact ⟨Location.fits_of_ofJson? hl, forall_of_list? hts fun _ _ => Location.fits_of_ofJson?⟩
  · cases h

end Row

/-- All indices of some rows have 64 bits. -/
def AllFit (rows : List Row) : Prop := ∀ row ∈ rows, row.Fits

instance (rows : List Row) : Decidable (AllFit rows) :=
  inferInstanceAs (Decidable (∀ row ∈ rows, row.Fits))

/-- The rows of a JSON list, as they are written. -/
def rows? (json : JsonText) : Option (List Row) := json.list? Row.ofJson?

/-- The join of the maps of single rows. -/
def ofRows (rows : List Row) : PointsTo := Domain.joinAll (rows.map Row.toMap)

variable {m : PointsTo} {rows rows' : List Row} {l : Location} {x : Option Location}

theorem rows?_ofJson (h : AllFit rows) : rows? (.ofJson (.list Row.toJson rows)) = some rows :=
  list?_ofJson fun row hrow => Row.ofJson?_toJson (h row hrow)

theorem allFit_of_rows? {json : JsonText} (h : rows? json = some rows) : AllFit rows :=
  forall_of_list? h fun _ _ => Row.fits_of_ofJson?

/-! ## Reading -/

/-- Adding entries one by one is joining the maps of single rows. -/
theorem ofEntries_eq_ofRows (rows : List Row) :
    ofEntries (rows.map fun row => (row.location, .ofList row.targets)) = ofRows rows := by
  rw [ofEntries, ofRows, Domain.joinAll, List.foldl_map, List.foldl_map]
  rfl

/-- What is read is the join of the maps of single rows. -/
theorem ofJson?_eq (json : JsonText) : ofJson? json = (rows? json).map ofRows := by
  have hentry := funext Row.entryOfJson?_eq
  rw [ofJson?, hentry, list?_map, Option.map_map, rows?]
  congr 1
  funext rows
  exact ofEntries_eq_ofRows rows

/-- A map that is read says what some row says. -/
theorem says_ofRows : (ofRows rows).Says l x ↔ ∃ row ∈ rows, row.Says l x := by
  have hfact := isFact_says l x
  rw [ofRows, hfact.joinAll_iff]
  simp only [List.mem_map, exists_exists_and_eq_and, Row.says_toMap]

/-- The rows of two lists are the same but for their order and for the order of their targets. -/
def Rearranged (rows rows' : List Row) : Prop :=
  ∃ sorted, rows.Perm sorted ∧
    List.Forall₂ (fun a b => a.location = b.location ∧ a.targets.Perm b.targets) sorted rows'

theorem exists_says_iff_of_forall₂ {rows rows' : List Row}
    (h : List.Forall₂ (fun a b => a.location = b.location ∧ a.targets.Perm b.targets) rows rows') :
    (∃ row ∈ rows, row.Says l x) ↔ ∃ row ∈ rows', row.Says l x := by
  induction h with
  | nil => exact Iff.rfl
  | @cons a b _ _ hrow _ ih =>
    have hsays : a.Says l x ↔ b.Says l x := by
      unfold Row.Says
      rw [hrow.1]
      simp only [hrow.2.mem_iff]
    rw [List.exists_mem_cons_iff, List.exists_mem_cons_iff, hsays, ih]

/-- The order of rows and of targets does not matter. -/
theorem ofRows_eq_of_rearranged (h : Rearranged rows rows') : ofRows rows = ofRows rows' := by
  obtain ⟨sorted, hperm, hrows⟩ := h
  refine ext_says fun l x => ?_
  rw [says_ofRows, says_ofRows, ← exists_says_iff_of_forall₂ hrows]
  simp only [hperm.mem_iff]

/-! ## Writing -/

/-- The rows that a map is written as. -/
def toRows (m : PointsTo) : List Row := m.entries.map fun e => ⟨e.1, e.2.items⟩

theorem toJson_eq (m : PointsTo) : m.toJson = .list Row.toJson m.toRows := by
  rw [toJson, Json.list, Json.list, toRows, List.map_map]
  rfl

theorem mem_toRows {row : Row} :
    row ∈ m.toRows ↔ ∃ s, m.targets? row.location = some s ∧ row.targets = s.items := by
  rw [toRows, List.mem_map]
  constructor
  · rintro ⟨e, he, rfl⟩
    exact ⟨e.2, SortedMap.get?_eq_some_iff.2 he, rfl⟩
  · rintro ⟨s, hs, htargets⟩
    refine ⟨(row.location, s), SortedMap.get?_eq_some_iff.1 hs, ?_⟩
    rw [← htargets]

/-- The rows of a map say what the map says. -/
theorem says_toRows : (∃ row ∈ m.toRows, row.Says l x) ↔ m.Says l x := by
  constructor
  · rintro ⟨row, hrow, rfl, hx⟩
    obtain ⟨s, hs, htargets⟩ := mem_toRows.1 hrow
    rw [htargets] at hx
    exact ⟨s, hs, hx⟩
  · rintro ⟨s, hs, hx⟩
    exact ⟨⟨l, s.items⟩, mem_toRows.2 ⟨s, hs, rfl⟩, rfl, hx⟩

theorem ofRows_toRows (m : PointsTo) : ofRows m.toRows = m :=
  ext_says fun _ _ => Iff.trans says_ofRows says_toRows

/-- Indices of 64 bits stay so when rows are joined. -/
theorem allFit_toRows_ofRows (h : AllFit rows) : AllFit (ofRows rows).toRows := by
  intro row hrow
  -- Each index of the row stands in some row that was given.
  have hsays : ∀ x, row.Says row.location x → ∃ given ∈ rows, given.Says row.location x := by
    intro x hx
    exact says_ofRows.1 (says_toRows.1 ⟨row, hrow, hx⟩)
  constructor
  · obtain ⟨given, hgiven, hlocation, -⟩ := hsays none ⟨rfl, by simp⟩
    exact hlocation ▸ (h given hgiven).1
  · intro t ht
    obtain ⟨given, hgiven, -, hmem⟩ := hsays (some t) ⟨rfl, by simpa using ht⟩
    exact (h given hgiven).2 t (hmem t rfl)

/-- What was written is read back. -/
theorem ofJson?_toJson (h : AllFit m.toRows) : ofJson? (.ofJson m.toJson) = some m := by
  rw [toJson_eq, ofJson?_eq, rows?_ofJson h, Option.map_some, ofRows_toRows]

theorem allFit_of_ofJson? {json : JsonText} (h : ofJson? json = some m) : AllFit m.toRows := by
  rw [ofJson?_eq] at h
  obtain ⟨rows, hrows, rfl⟩ := Option.map_eq_some_iff.1 h
  exact allFit_toRows_ofRows (allFit_of_rows? hrows)

/-- Rows list a map: each location once and in ascending order, all values before all memory
    objects, and each with its targets in ascending order. -/
structure IsListing (m : PointsTo) (rows : List Row) : Prop where
  ascending : rows.Pairwise fun a b => a.location < b.location
  values_first : ∃ values objects : List Nat,
    rows.map Row.location = values.map .value ++ objects.map .memory ∧
      values.Pairwise (· < ·) ∧ objects.Pairwise (· < ·)
  targets_ascending : ∀ row ∈ rows, row.targets.Pairwise (· < ·)
  mem_locations : ∀ l, l ∈ rows.map Row.location ↔ (m.targets? l).isSome = true
  mem_targets : ∀ row ∈ rows, ∀ t, t ∈ row.targets ↔ t ∈ m.targets row.location

/-- Ascending locations are values with ascending indices, then memory objects with ascending
    indices. -/
theorem exists_values_objects {ls : List Location} (h : ls.Pairwise (· < ·)) :
    ∃ values objects : List Nat, ls = values.map .value ++ objects.map .memory ∧
      values.Pairwise (· < ·) ∧ objects.Pairwise (· < ·) := by
  induction ls with
  | nil => exact ⟨[], [], rfl, .nil, .nil⟩
  | cons l ls ih =>
    rw [List.pairwise_cons] at h
    obtain ⟨values, objects, rfl, hvalues, hobjects⟩ := ih h.2
    cases l with
    | value i =>
      refine ⟨i :: values, objects, rfl, List.pairwise_cons.2 ⟨fun j hj => ?_, hvalues⟩, hobjects⟩
      exact h.1 (.value j) (List.mem_append_left _ (List.mem_map_of_mem hj))
    | memory i =>
      -- No value comes behind a memory object.
      have hnil : values = [] := by
        refine List.eq_nil_iff_forall_not_mem.2 fun j hj => ?_
        exact h.1 (.value j) (List.mem_append_left _ (List.mem_map_of_mem hj))
      subst hnil
      refine ⟨[], i :: objects, rfl, .nil, List.pairwise_cons.2 ⟨fun j hj => ?_, hobjects⟩⟩
      exact h.1 (.memory j) (List.mem_map_of_mem hj)

theorem isListing_toRows (m : PointsTo) : m.IsListing m.toRows where
  ascending := List.pairwise_map.2 m.sorted
  values_first := by
    refine exists_values_objects ?_
    rw [toRows, List.map_map, List.pairwise_map]
    exact m.sorted
  targets_ascending row hrow := by
    obtain ⟨s, -, htargets⟩ := mem_toRows.1 hrow
    exact htargets ▸ s.sorted
  mem_locations l := by
    rw [List.mem_map, ← says_none, ← says_toRows]
    simp [Row.Says]
  mem_targets row hrow t := by
    obtain ⟨s, hs, htargets⟩ := mem_toRows.1 hrow
    rw [htargets, targets, hs]
    rfl

/-! ## Reading and writing -/

/-- What is read, written again. -/
def rewritten (read : JsonText → Option PointsTo) (write : PointsTo → Json) (json : JsonText) :
    Option JsonText :=
  (read json).map fun m => .ofJson (write m)

/-- A reader and a writer of points-to maps as lists of entries. -/
structure IsEntryCodec (read : JsonText → Option PointsTo) (write : PointsTo → Json) : Prop where
  /-- Rows are read as the join of the maps of single rows. -/
  read_rows : ∀ rows, AllFit rows →
    read (.ofJson (.list Row.toJson rows)) = some (Domain.joinAll (rows.map Row.toMap))
  /-- It does not matter how they are spelled, and nothing else can be read. -/
  read_eq : ∀ json, read json = (rows? json).map fun rows => Domain.joinAll (rows.map Row.toMap)
  /-- A location is present if a row names it, and its targets are those of all its rows. -/
  read_says : ∀ json rows m, rows? json = some rows → read json = some m →
    ∀ l x, m.Says l x ↔ ∃ row ∈ rows, row.Says l x
  /-- The order of rows and of targets does not matter. -/
  read_rearranged : ∀ json json' rows rows', rows? json = some rows → rows? json' = some rows' →
    Rearranged rows rows' → read json = read json'
  /-- Each location is written once, in ascending order, with its targets in ascending order. -/
  write_listing : ∀ m, ∃ rows, write m = .list Row.toJson rows ∧ m.IsListing rows
  /-- What was written is read back. -/
  read_write : ∀ m, AllFit m.toRows → read (.ofJson (write m)) = some m
  /-- Reading and writing for a second time changes nothing. -/
  rewritten_rewritten : ∀ json,
    (rewritten read write json).bind (rewritten read write) = rewritten read write json

theorem rewritten_bind_rewritten (json : JsonText) :
    (rewritten ofJson? toJson json).bind (rewritten ofJson? toJson) =
      rewritten ofJson? toJson json := by
  unfold rewritten
  cases h : ofJson? json with
  | none => rfl
  | some m =>
    rw [Option.map_some, Option.bind_some, ofJson?_toJson (allFit_of_ofJson? h), Option.map_some]

/-- Points-to maps are read from lists of entries as the join of the entries, and written as the
    ascending list of entries. -/
theorem isEntryCodec : IsEntryCodec ofJson? toJson where
  read_rows rows hfit := by rw [ofJson?_eq, rows?_ofJson hfit, Option.map_some, ofRows]
  read_eq := ofJson?_eq
  read_says json rows m hrows hm l x := by
    rw [ofJson?_eq, hrows, Option.map_some, Option.some.injEq] at hm
    rw [← hm, says_ofRows]
  read_rearranged json json' rows rows' hrows hrows' h := by
    rw [ofJson?_eq, ofJson?_eq, hrows, hrows', Option.map_some, Option.map_some,
      ofRows_eq_of_rearranged h]
  write_listing m := ⟨m.toRows, m.toJson_eq, m.isListing_toRows⟩
  read_write _ hfit := ofJson?_toJson hfit
  rewritten_rewritten := rewritten_bind_rewritten

/-- Rows out of order, with a location that comes twice, one without targets and a target that comes
    twice. -/
def scattered : List Row :=
  [⟨.memory 1, [.memory 3]⟩, ⟨.value 2, []⟩, ⟨.value 1, [.memory 1, .value 2, .memory 1]⟩,
    ⟨.memory 1, [.value 0, .memory 3]⟩]

theorem isEntryCodec_scattered :
    AllFit scattered ∧
      (ofJson? (.ofJson (.list Row.toJson scattered))).map toRows =
        some [⟨.value 1, [.value 2, .memory 1]⟩, ⟨.value 2, []⟩,
          ⟨.memory 1, [.value 0, .memory 3]⟩] ∧
      ofJson? (.ofJson (.list Row.toJson scattered.reverse)) =
        ofJson? (.ofJson (.list Row.toJson scattered)) := by
  have hfit : AllFit scattered := by decide
  have hfit' : AllFit scattered.reverse := by decide
  have hrearranged : Rearranged scattered.reverse scattered :=
    ⟨scattered, scattered.reverse_perm, List.forall₂_same.2 fun _ _ => ⟨rfl, .rfl⟩⟩
  refine ⟨hfit, ?_, ?_⟩
  · rw [IsEntryCodec.read_rows isEntryCodec scattered hfit]
    decide
  · exact IsEntryCodec.read_rearranged isEntryCodec _ _ _ _ (rows?_ofJson hfit')
      (rows?_ofJson hfit) hrearranged

end PointsTo

end FlowFacts
