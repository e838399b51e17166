import FlowFacts.Proofs.PointerConstraints
import FlowFacts.Proofs.PrintedForm
import FlowFacts.Proofs.ReportRows

/-!
# The text of a fact determines the fact

Sets of indices and points-to maps are written without padding and quoting: numbers of any length
stand between separators at two levels of nesting. Still nothing can be read in two ways, since no
separator occurs in what stands in front of it: a number has digits only, a location a letter and
digits, and the list of targets neither a dash nor a closing bracket.

Main results:

* `eq_of_append_separator_eq`: a separator that does not occur in front of itself can be found.
* `eq_of_join_eq`: so a text of pieces that end with it determines the pieces.
* `IndexSet.eq_of_text_eq`, `PointsTo.eq_of_text_eq`: texts determine facts.
* `texts_determine_facts`: the same of the facts of reports.
-/

namespace FlowFacts

/-! ## Texts with separators -/

theorem eq_of_append_cons_eq {α : Type} {xs ys rest rest' : List α} {c : α} (hx : c ∉ xs)
    (hy : c ∉ ys) (h : xs ++ c :: rest = ys ++ c :: rest') : xs = ys ∧ rest = rest' := by
  induction xs generalizing ys with
  | nil =>
    cases ys with
    | nil => exact ⟨rfl, List.tail_eq_of_cons_eq h⟩
    | cons y ys => exact absurd (List.head_eq_of_cons_eq h ▸ List.mem_cons_self) hy
  | cons x xs ih =>
    cases ys with
    | nil => exact absurd (List.head_eq_of_cons_eq h ▸ List.mem_cons_self) hx
    | cons y ys =>
      obtain ⟨rfl, htail⟩ := List.cons_eq_cons.1 h
      rw [List.mem_cons, not_or] at hx hy
      obtain ⟨rfl, hrest⟩ := ih hx.2 hy.2 htail
      exact ⟨rfl, hrest⟩

section Separators

variable {sep : String} {c : Char} {tail : List Char} (hsep : sep.toList = c :: tail)

include hsep

/-- A separator that starts with a character that does not occur before can be found. -/
theorem eq_of_append_separator_eq {s s' t t' : String} (hs : c ∉ s.toList) (hs' : c ∉ s'.toList)
    (h : s ++ sep ++ t = s' ++ sep ++ t') : s = s' ∧ t = t' := by
  have hlists : s.toList ++ c :: (tail ++ t.toList) = s'.toList ++ c :: (tail ++ t'.toList) := by
    have htoList := congrArg String.toList h
    simpa only [String.toList_append, hsep, List.append_assoc, List.cons_append] using htoList
  obtain ⟨hfront, hrest⟩ := eq_of_append_cons_eq hs hs' hlists
  exact ⟨String.toList_inj.1 hfront, String.toList_inj.1 (List.append_cancel_left hrest)⟩

/-- Pieces that end with such a separator can be told apart. -/
theorem eq_of_join_eq {α : Type} {text : α → String} (htext : ∀ a, c ∉ (text a).toList)
    (hinj : ∀ a b, text a = text b → a = b) {xs ys : List α}
    (h : String.join (xs.map fun a => text a ++ sep) =
      String.join (ys.map fun a => text a ++ sep)) : xs = ys := by
  have hne : ∀ (a : α) (rest : String), "" ≠ text a ++ sep ++ rest := by
    intro a rest heq
    have hnil := congrArg String.toList heq
    simp [hsep] at hnil
  induction xs generalizing ys with
  | nil =>
    cases ys with
    | nil => rfl
    | cons y ys =>
      rw [List.map_cons, String.join_cons] at h
      exact absurd h (hne y _)
  | cons x xs ih =>
    rw [List.map_cons, String.join_cons] at h
    cases ys with
    | nil => exact absurd h.symm (hne x _)
    | cons y ys =>
      rw [List.map_cons, String.join_cons] at h
      obtain ⟨hhead, hrest⟩ := eq_of_append_separator_eq hsep (htext x) (htext y) h
      rw [hinj x y hhead, ih hrest]

end Separators

/-- A character of a joined text stands in one of the texts. -/
theorem exists_of_mem_join {texts : List String} {c : Char} (h : c ∈ (String.join texts).toList) :
    ∃ s ∈ texts, c ∈ s.toList := by
  rw [String.toList_join] at h
  exact List.mem_flatMap.1 h

/-! ## Sets of indices -/

theorem not_mem_toString {c : Char} (hc : c.isDigit = false) (n : Nat) :
    c ∉ (toString n).toList := by
  intro hmem
  rw [isDigit_of_mem_toString hmem] at hc
  cases hc

theorem IndexSet.eq_of_text_eq {s t : IndexSet} (h : s.text = t.text) : s = t :=
  SortedSet.ext (eq_of_join_eq rfl (not_mem_toString rfl) (fun _ _ => toString_nat_injective) h)

/-! ## Points-to maps -/

namespace Location

theorem not_mem_text {c : Char} (hR : c ≠ 'R') (hM : c ≠ 'M') (hdigit : c.isDigit = false)
    (l : Location) : c ∉ l.text.toList := by
  cases l with
  | value index =>
    rw [text, String.toList_append, List.mem_append, not_or]
    exact ⟨fun h => hR (List.mem_singleton.1 h), not_mem_toString hdigit index⟩
  | memory index =>
    rw [text, String.toList_append, List.mem_append, not_or]
    exact ⟨fun h => hM (List.mem_singleton.1 h), not_mem_toString hdigit index⟩

theorem eq_of_text_eq {l m : Location} (h : l.text = m.text) : l = m := by
  have hlists := congrArg String.toList h
  cases l with
  | value i =>
    cases m with
    | value j => exact congrArg value (toString_nat_injective ((String.append_right_inj _).1 h))
    | memory j => simp [text] at hlists
  | memory i =>
    cases m with
    | value j => simp [text] at hlists
    | memory j => exact congrArg memory (toString_nat_injective ((String.append_right_inj _).1 h))

end Location

namespace PointsTo

/-- The targets as text. -/
def targetsText (targets : LocationSet) : String :=
  String.join (targets.items.map fun l => l.text ++ "/")

/-- An entry as text up to the bracket that closes it. -/
def openText (e : Location × LocationSet) : String := e.1.text ++ "->(" ++ targetsText e.2

theorem text_eq (m : PointsTo) :
    m.text = String.join (m.entries.map fun e => openText e ++ ")|") := rfl

theorem eq_of_targetsText_eq {s t : LocationSet} (h : targetsText s = targetsText t) : s = t :=
  SortedSet.ext <| eq_of_join_eq rfl (Location.not_mem_text (by decide) (by decide) rfl)
    (fun _ _ => Location.eq_of_text_eq) h

theorem not_mem_openText (e : Location × LocationSet) : ')' ∉ (openText e).toList := by
  have hlocation : ∀ l : Location, ')' ∉ l.text.toList :=
    Location.not_mem_text (by decide) (by decide) rfl
  have htargets : ')' ∉ (targetsText e.2).toList := by
    intro hmem
    obtain ⟨s, hs, hmem⟩ := exists_of_mem_join hmem
    obtain ⟨l, -, rfl⟩ := List.mem_map.1 hs
    simp [hlocation l] at hmem
  simp [openText, hlocation e.1, htargets]

theorem eq_of_openText_eq {d e : Location × LocationSet} (h : openText d = openText e) : d = e := by
  have hlocation : ∀ l : Location, '-' ∉ l.text.toList :=
    Location.not_mem_text (by decide) (by decide) rfl
  obtain ⟨hfrom, hto⟩ := eq_of_append_separator_eq rfl (hlocation d.1) (hlocation e.1) h
  exact Prod.ext (Location.eq_of_text_eq hfrom) (eq_of_targetsText_eq hto)

theorem eq_of_text_eq {m n : PointsTo} (h : m.text = n.text) : m = n := by
  rw [text_eq, text_eq] at h
  exact SortedMap.ext (eq_of_join_eq rfl not_mem_openText (fun _ _ => eq_of_openText_eq) h)

end PointsTo

/-! ## Reports -/

section Reports

variable {α : Type} [Domain α] [DecidableEq α] [Rendered α]

/-- Where texts determine values, the text of a fact determines its data. -/
theorem Report.data_eq_of_value_eq
    (hinj : ∀ v w : α, Rendered.text v = Rendered.text w → v = w) {kind : AnalysisKind}
    {a : Analysis α} {f g : Function} {c d : SolverConfig} {r q : Report}
    (hr : solved kind a f c = .ok r) (hq : solved kind a g d = .ok q) {x y : Fact}
    (hx : x ∈ r.facts) (hy : y ∈ q.facts) (h : x.value = y.value) : x.data = y.data := by
  have hshown : ∀ {f : Function} {c : SolverConfig} {r : Report} {x : Fact},
      solved kind a f c = .ok r → x ∈ r.facts →
      ∃ v : α, x.value = Rendered.text v ∧ x.data = Rendered.toJson v := by
    intro f c r x hr hx
    obtain ⟨s, hs, rfl⟩ := map_eq_ok hr
    obtain ⟨e, -, -, -, v, -, hv⟩ := exists_of_forall₂ (facts_ofSolution kind hs) hx
    exact ⟨v, hv⟩
  obtain ⟨v, htext, hdata⟩ := hshown hr hx
  obtain ⟨w, htext', hdata'⟩ := hshown hq hy
  rw [hdata, hdata', hinj v w (by rw [← htext, ← htext', h])]

end Reports

/-- Rendering is injective: the text of a set of indices determines the set, and the text of a
    points-to map the map, locations without targets included. So in the reports of an analysis,
    whatever the functions and the settings, facts with the same text have the same data. -/
theorem texts_determine_facts :
    (∀ s t : IndexSet, s.text = t.text → s = t) ∧
    (∀ m n : PointsTo, m.text = n.text → m = n) ∧
    ∀ (kind : AnalysisKind) (f g : Function) (c d : SolverConfig) (r q : Report),
      Report.run kind f c = .ok r → Report.run kind g d = .ok q →
      ∀ x ∈ r.facts, ∀ y ∈ q.facts, x.value = y.value → x.data = y.data := by
  refine ⟨fun _ _ => IndexSet.eq_of_text_eq, fun _ _ => PointsTo.eq_of_text_eq, ?_⟩
  intro kind f g c d r q hr hq x hx y hy h
  cases kind with
  | liveness =>
    exact Report.data_eq_of_value_eq (fun _ _ => IndexSet.eq_of_text_eq) hr hq hx hy h
  | pointsTo =>
    exact Report.data_eq_of_value_eq (fun _ _ => PointsTo.eq_of_text_eq) hr hq hx hy h
  | reaching =>
    exact Report.data_eq_of_value_eq (fun _ _ => IndexSet.eq_of_text_eq) hr hq hx hy h

/-- Two ways to the same map, with locations without targets, two ways to the same set, and two
    facts of different functions. -/
theorem texts_determine_facts_apart :
    IndexSet.text (.ofList [12, 1, 2]) = "1|2|12|" ∧
    (.ofList [12, 1, 2] : IndexSet) = (SortedSet.ofList [2, 12]).insert 1 ∧
    (PointsTo.ofEntries [(.memory 12, .empty), (.value 1, .ofList [.memory 2, .value 10]),
      (.value 11, .empty)]).text = "R1->(R10/M2/)|R11->()|M12->()|" ∧
    PointsTo.ofEntries [(.memory 12, .empty), (.value 1, .ofList [.memory 2, .value 10]),
        (.value 11, .empty)] =
      PointsTo.ofEntries [(.value 1, .singleton (.memory 2)), (.value 11, .empty),
        (.value 1, .singleton (.value 10)), (.memory 12, .empty)] ∧
    ∃ r q x y, Report.run .reaching spin { order := .lifo } = .ok r ∧
      Report.run .reaching chaseLoop {} = .ok q ∧ r.facts[3]? = some x ∧ q.facts[1]? = some y ∧
      x.value = "1|" ∧ y.value = "1|" ∧ x.data = y.data := by
  obtain ⟨hsets, hmaps, hfacts⟩ := texts_determine_facts
  refine ⟨by decide +kernel, hsets _ _ (by decide +kernel), by decide +kernel,
    hmaps _ _ (by decide +kernel), ?_⟩
  obtain ⟨r, hr⟩ : ∃ r, Report.run .reaching spin { order := .lifo } = .ok r :=
    exists_ok_of_toBool (by decide +kernel)
  obtain ⟨q, hq⟩ : ∃ q, Report.run .reaching chaseLoop {} = .ok q :=
    exists_ok_of_toBool (by decide +kernel)
  have hx : (Report.run .reaching spin { order := .lifo }).toOption.bind
      (fun r => r.facts[3]?.map Fact.value) = some "1|" := by
    decide +kernel
  have hy : (Report.run .reaching chaseLoop {}).toOption.bind
      (fun q => q.facts[1]?.map Fact.value) = some "1|" := by
    decide +kernel
  rw [hr, Except.toOption, Option.bind_some] at hx
  rw [hq, Except.toOption, Option.bind_some] at hy
  obtain ⟨x, hx, hxvalue⟩ := Option.map_eq_some_iff.1 hx
  obtain ⟨y, hy, hyvalue⟩ := Option.map_eq_some_iff.1 hy
  refine ⟨r, q, x, y, hr, hq, hx, hy, hxvalue, hyvalue, ?_⟩
  exact hfacts .reaching spin chaseLoop _ _ r q hr hq x (List.mem_of_getElem? hx) y
    (List.mem_of_getElem? hy) (hxvalue.trans hyvalue.symm)

end FlowFacts
