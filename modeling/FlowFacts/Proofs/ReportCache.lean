import FlowFacts.Proofs.Rejection
import FlowFacts.Report.Store

/-!
# Kept reports

A store hands out a report again if it has one for the analysis and the name of the function. That
this is the report of the function itself depends on the requests: two functions with one name may
not be mixed, except when the reports are cleared in between (`Request.Consistent`).

`Tracks` is what holds after every request: what the store keeps was found out about functions that
were handed over since the last clearing. It makes the store `Trusted` for the next request, and
runs with a trusted store answer as runs with an empty one do.

Main results:

* `runOnFunction_cases`, `runAll_cons_cases`: what a run does to the store.
* `tracks_performAll`: the invariant of all sequences of requests.
* `cache_transparent`: answers, kept reports and statistics after any sequence.
-/

namespace FlowFacts.ReportStore

/-! ## Requests -/

/-- A request to a store of reports. -/
inductive Request where
  | register (kind : AnalysisKind)
  | enableStatistics
  | runOnFunction (kind : AnalysisKind) (f : Function)
  | runOnModule (program : Module)
  | clearCache

namespace Request

/-- The functions that a request hands over. -/
def functions : Request → List Function
  | runOnFunction _ f => [f]
  | runOnModule program => program.functions.values
  | _ => []

/-- The analysis that a request registers. -/
def registers? : Request → Option AnalysisKind
  | register kind => some kind
  | _ => none

/-- The registered analyses, each once, in the order of their first registration. -/
def registered (requests : List Request) : List AnalysisKind :=
  (requests.filterMap registers?).eraseDups

/-- As long as the reports are not cleared, functions with the same name are equal. -/
def Consistent (requests : List Request) : Prop :=
  ∀ part, part <:+: requests → clearCache ∉ part →
    ∀ f ∈ part.flatMap functions, ∀ g ∈ part.flatMap functions, f.name = g.name → f = g

theorem consistent_of_forall {requests : List Request}
    (h : ∀ f ∈ requests.flatMap functions, ∀ g ∈ requests.flatMap functions,
      f.name = g.name → f = g) : Consistent requests := by
  intro part hpart _ f hf g hg
  have hsubset : ∀ f ∈ part.flatMap functions, f ∈ requests.flatMap functions := by
    intro f hf
    obtain ⟨q, hq, hf⟩ := List.mem_flatMap.1 hf
    exact List.mem_flatMap.2 ⟨q, hpart.subset hq, hf⟩
  exact h f (hsubset f hf) g (hsubset g hg)

/-- Clearing the reports allows other functions under the old names. -/
theorem Consistent.clear {old new : List Request} (hold : Consistent old) (hnew : Consistent new) :
    Consistent (old ++ clearCache :: new) := by
  rintro part ⟨before, after, hpart⟩ hclear
  rw [List.append_assoc, List.append_eq_append_iff] at hpart
  rcases hpart with ⟨rest, hold', hrest⟩ | ⟨rest, hbefore, hrest⟩
  · rw [List.append_eq_append_iff] at hrest
    rcases hrest with ⟨tail, rfl, -⟩ | ⟨tail, rfl, htail⟩
    · refine hold part ⟨before, tail, ?_⟩ hclear
      rw [hold', List.append_assoc]
    · cases tail with
      | nil =>
        refine hold (rest ++ []) ⟨before, [], ?_⟩ hclear
        rw [hold', List.append_nil, List.append_nil]
      | cons q tail =>
        cases htail
        simp at hclear
  · cases rest with
    | nil =>
      cases part with
      | nil => simp
      | cons q part =>
        cases hrest
        simp at hclear
    | cons q rest =>
      cases hrest
      exact hnew part ⟨rest, after, List.append_assoc rest part after⟩ hclear

end Request

/-- The store after a request. -/
def perform (store : ReportStore) : Request → ReportStore
  | .register kind => store.register kind
  | .enableStatistics => store.enableStatistics
  | .runOnFunction kind f => (store.runOnFunction kind f).2
  | .runOnModule program => (store.runOnModule program).2
  | .clearCache => store.clearCache

/-- The store after some requests. -/
def performAll (store : ReportStore) (requests : List Request) : ReportStore :=
  requests.foldl perform store

/-! ## Single runs -/

/-- What a run does: a report that is kept is handed out, a new one is kept, and after a failure the
    store is as before. -/
theorem runOnFunction_cases (store : ReportStore) (kind : AnalysisKind) (f : Function) :
    (∃ r, store.report? kind f.name = some r ∧ store.runOnFunction kind f = (.ok r, store)) ∨
    (∃ r, store.report? kind f.name = none ∧ Report.run kind f store.config = .ok r ∧
      store.runOnFunction kind f = (.ok r, store.keep kind f r)) ∨
    (∃ e, store.report? kind f.name = none ∧ Report.run kind f store.config = .error e ∧
      store.runOnFunction kind f = (.error e, store)) := by
  unfold runOnFunction
  cases store.report? kind f.name with
  | some r => exact .inl ⟨r, rfl, rfl⟩
  | none =>
    cases Report.run kind f store.config with
    | ok r => exact .inr (.inl ⟨r, rfl, rfl, rfl⟩)
    | error e => exact .inr (.inr ⟨e, rfl, rfl, rfl⟩)

theorem report?_keep (store : ReportStore) (kind kind' : AnalysisKind) (f : Function) (r : Report)
    (name : String) :
    (store.keep kind f r).report? kind' name =
      if kind = kind' ∧ f.name = name then some r else store.report? kind' name := by
  unfold report? keep
  simp only [OrderedMap.get?_insert, Prod.mk.injEq]

/-! ## Several runs -/

theorem runAll_cons_ok {store store' : ReportStore} {p : AnalysisKind × Function} {r : Report}
    (h : store.runOnFunction p.1 p.2 = (.ok r, store')) (rest : List (AnalysisKind × Function)) :
    store.runAll (p :: rest) = ((store'.runAll rest).1.map (r :: ·), (store'.runAll rest).2) := by
  rw [runAll, h]
  dsimp only
  rcases store'.runAll rest with ⟨⟨⟩ | ⟨⟩, last⟩
  · rfl
  · rfl

/-- What several runs do, by what the first one does. -/
theorem runAll_cons_cases (store : ReportStore) (p : AnalysisKind × Function)
    (rest : List (AnalysisKind × Function)) :
    (∃ r, store.report? p.1 p.2.name = some r ∧
      store.runAll (p :: rest) = ((store.runAll rest).1.map (r :: ·), (store.runAll rest).2)) ∨
    (∃ r, store.report? p.1 p.2.name = none ∧ Report.run p.1 p.2 store.config = .ok r ∧
      store.runAll (p :: rest) = (((store.keep p.1 p.2 r).runAll rest).1.map (r :: ·),
        ((store.keep p.1 p.2 r).runAll rest).2)) ∨
    (∃ e, store.report? p.1 p.2.name = none ∧ Report.run p.1 p.2 store.config = .error e ∧
      store.runAll (p :: rest) = (.error e, store)) := by
  rcases store.runOnFunction_cases p.1 p.2 with
    ⟨r, hkept, h⟩ | ⟨r, hnew, hrun, h⟩ | ⟨e, hnew, hrun, h⟩
  · exact .inl ⟨r, hkept, runAll_cons_ok h rest⟩
  · exact .inr (.inl ⟨r, hnew, hrun, runAll_cons_ok h rest⟩)
  · refine .inr (.inr ⟨e, hnew, hrun, ?_⟩)
    rw [runAll, h]

/-- What runs leave alone. -/
def settings (store : ReportStore) : SolverConfig × List AnalysisKind × Bool :=
  (store.config, store.kinds, store.collecting)

theorem settings_runAll (store : ReportStore) (pairs : List (AnalysisKind × Function)) :
    (store.runAll pairs).2.settings = store.settings := by
  induction pairs generalizing store with
  | nil => rfl
  | cons p rest ih =>
    rcases store.runAll_cons_cases p rest with ⟨r, -, h⟩ | ⟨r, -, -, h⟩ | ⟨e, -, -, h⟩
    · rw [h, ih]
    · rw [h, ih]
      rfl
    · rw [h]

/-- A report that is kept after some runs was kept before, or one of the runs produced it. -/
theorem report?_runAll_cases {store : ReportStore} {pairs : List (AnalysisKind × Function)}
    {kind : AnalysisKind} {name : String} {r : Report}
    (h : (store.runAll pairs).2.report? kind name = some r) :
    store.report? kind name = some r ∨
      ∃ f, (kind, f) ∈ pairs ∧ f.name = name ∧ Report.run kind f store.config = .ok r := by
  induction pairs generalizing store with
  | nil => exact .inl h
  | cons p rest ih =>
    have hlater : ∀ {f}, (kind, f) ∈ rest → (kind, f) ∈ p :: rest := List.mem_cons_of_mem p
    rcases store.runAll_cons_cases p rest with
      ⟨r', -, heq⟩ | ⟨r', -, hrun, heq⟩ | ⟨e, -, -, heq⟩
    all_goals rw [heq] at h
    · refine (ih h).imp_right ?_
      rintro ⟨f, hf, hr⟩
      exact ⟨f, hlater hf, hr⟩
    · rcases ih h with hkept | ⟨f, hf, hr⟩
      · rw [report?_keep] at hkept
        split_ifs at hkept with hkey
        · obtain ⟨rfl, rfl⟩ := hkey
          cases hkept
          exact .inr ⟨p.2, List.mem_cons_self, rfl, hrun⟩
        · exact .inl hkept
      · exact .inr ⟨f, hlater hf, hr⟩
    · exact .inl h

/-- Statistics that are not asked for are not kept. -/
theorem statistics_runAll_of_not_collecting {store : ReportStore}
    (hcollecting : store.collecting = false) (pairs : List (AnalysisKind × Function)) :
    (store.runAll pairs).2.statistics = store.statistics := by
  induction pairs generalizing store with
  | nil => rfl
  | cons p rest ih =>
    rcases store.runAll_cons_cases p rest with ⟨r, -, h⟩ | ⟨r, -, -, h⟩ | ⟨e, -, -, h⟩
    · rw [h]
      exact ih hcollecting
    · have hkept : (store.keep p.1 p.2 r).statistics = store.statistics := by
        rw [keep, hcollecting]
        rfl
      rw [h, ← hkept]
      exact ih hcollecting
    · rw [h]

/-! ## Trust -/

/-- What is kept for the functions of some runs is what the runs would produce, and a name stands
    for one function only. -/
structure Trusted (store : ReportStore) (pairs : List (AnalysisKind × Function)) : Prop where
  kept : ∀ p ∈ pairs, ∀ r, store.report? p.1 p.2.name = some r →
    Report.run p.1 p.2 store.config = .ok r
  name : ∀ p ∈ pairs, ∀ q ∈ pairs, p.2.name = q.2.name → p.2 = q.2

namespace Trusted

variable {store : ReportStore} {p : AnalysisKind × Function}
  {rest : List (AnalysisKind × Function)}

theorem tail (h : store.Trusted (p :: rest)) : store.Trusted rest where
  kept q hq := h.kept q (List.mem_cons_of_mem p hq)
  name q hq q' hq' := h.name q (List.mem_cons_of_mem p hq) q' (List.mem_cons_of_mem p hq')

/-- Runs share a report only if they are the same. -/
theorem eq_iff (h : store.Trusted (p :: rest)) {q : AnalysisKind × Function} (hq : q ∈ rest) :
    p.1 = q.1 ∧ p.2.name = q.2.name ↔ q = p := by
  constructor
  · rintro ⟨hkind, hname⟩
    have hfunction := h.name p List.mem_cons_self q (List.mem_cons_of_mem p hq) hname
    exact Prod.ext hkind.symm hfunction.symm
  · rintro rfl
    exact ⟨rfl, rfl⟩

theorem keep (h : store.Trusted (p :: rest)) {r : Report}
    (hrun : Report.run p.1 p.2 store.config = .ok r) : (store.keep p.1 p.2 r).Trusted rest where
  kept q hq r' hr' := by
    rw [report?_keep] at hr'
    split_ifs at hr' with hkey
    · obtain rfl := (h.eq_iff hq).1 hkey
      cases hr'
      exact hrun
    · exact h.tail.kept q hq r' hr'
  name := h.tail.name

end Trusted

/-- The answer of some runs does not depend on what is kept: it is all the reports in order, or the
    first error. -/
theorem Trusted.fst_runAll {store : ReportStore} {pairs : List (AnalysisKind × Function)}
    (h : store.Trusted pairs) :
    (store.runAll pairs).1 = pairs.mapM fun p => Report.run p.1 p.2 store.config := by
  induction pairs generalizing store with
  | nil => rfl
  | cons p rest ih =>
    rw [List.mapM_cons]
    rcases store.runAll_cons_cases p rest with
      ⟨r, hkept, heq⟩ | ⟨r, -, hrun, heq⟩ | ⟨e, -, hrun, heq⟩
    · rw [heq, h.kept p List.mem_cons_self r hkept, ih h.tail]
      rfl
    · rw [heq, hrun, ih (h.keep hrun)]
      rfl
    · rw [heq, hrun]
      rfl

/-! ## What several runs leave behind -/

/-- The runs in front of the first one that fails. -/
def succeeded (config : SolverConfig) (pairs : List (AnalysisKind × Function)) :
    List (AnalysisKind × Function) :=
  pairs.takeWhile fun p => (Report.run p.1 p.2 config).toBool

/-- The runs among them that the store has no report for, each once. -/
def missed (config : SolverConfig) (store : ReportStore)
    (pairs : List (AnalysisKind × Function)) : List (AnalysisKind × Function) :=
  ((succeeded config pairs).filter fun p => (store.report? p.1 p.2.name).isNone).eraseDups

/-- The entry that a run adds to the statistics. -/
def Enters (config : SolverConfig) (p : AnalysisKind × Function) (entry : RunStatistics) : Prop :=
  ∃ r, Report.run p.1 p.2 config = .ok r ∧ entry = ⟨p.1, p.2.name, r.stats⟩

theorem succeeded_cons_ok {config : SolverConfig} {p : AnalysisKind × Function} {r : Report}
    (h : Report.run p.1 p.2 config = .ok r) (rest : List (AnalysisKind × Function)) :
    succeeded config (p :: rest) = p :: succeeded config rest := by
  rw [succeeded, List.takeWhile_cons, h]
  rfl

theorem succeeded_cons_error {config : SolverConfig} {p : AnalysisKind × Function} {e : FlowError}
    (h : Report.run p.1 p.2 config = .error e) (rest : List (AnalysisKind × Function)) :
    succeeded config (p :: rest) = [] := by
  rw [succeeded, List.takeWhile_cons, h]
  rfl

theorem mem_of_mem_succeeded {config : SolverConfig} {pairs : List (AnalysisKind × Function)}
    {p : AnalysisKind × Function} (h : p ∈ succeeded config pairs) : p ∈ pairs :=
  (List.takeWhile_prefix _).subset h

namespace Trusted

variable {store : ReportStore} {pairs : List (AnalysisKind × Function)}

/-- After some runs the store keeps what it kept before, and the reports of the runs in front of the
    first failure. -/
theorem report?_runAll (h : store.Trusted pairs) {kind : AnalysisKind} {name : String}
    {r : Report} :
    (store.runAll pairs).2.report? kind name = some r ↔
      store.report? kind name = some r ∨ ∃ f, (kind, f) ∈ succeeded store.config pairs ∧
        f.name = name ∧ Report.run kind f store.config = .ok r := by
  induction pairs generalizing store with
  | nil => simp [runAll, succeeded]
  | cons p rest ih =>
    rcases store.runAll_cons_cases p rest with
      ⟨r', hkept, heq⟩ | ⟨r', hnew, hrun, heq⟩ | ⟨e, -, hrun, heq⟩
    · have hrun := h.kept p List.mem_cons_self r' hkept
      rw [heq, ih h.tail, succeeded_cons_ok hrun]
      refine or_congr_right' fun hother => ?_
      refine exists_congr fun f => and_congr_left ?_
      rintro ⟨rfl, hf⟩
      rw [List.mem_cons, or_iff_right]
      -- What is kept for the first run cannot be missing.
      rintro rfl
      rw [hrun] at hf
      cases hf
      exact hother hkept
    · rw [heq, ih (h.keep hrun), succeeded_cons_ok hrun, report?_keep]
      show _ ∨ (∃ f, (kind, f) ∈ succeeded store.config rest ∧ _) ↔ _
      by_cases hkey : p.1 = kind ∧ p.2.name = name
      · rw [if_pos hkey]
        obtain ⟨rfl, rfl⟩ := hkey
        constructor
        · rintro (hr | ⟨f, hf, hr⟩)
          · exact .inr ⟨p.2, List.mem_cons_self, rfl, hrun.trans (congrArg _ (Option.some.inj hr))⟩
          · exact .inr ⟨f, List.mem_cons_of_mem p hf, hr⟩
        · rintro (hr | ⟨f, hf, hname, hr⟩)
          · rw [hnew] at hr
            cases hr
          · rcases List.mem_cons.1 hf with hfirst | hf
            · obtain rfl : f = p.2 := congrArg Prod.snd hfirst
              rw [hrun] at hr
              exact .inl (congrArg some (Except.ok.inj hr))
            · exact .inr ⟨f, hf, hname, hr⟩
      · rw [if_neg hkey]
        refine or_congr_right (exists_congr fun f => and_congr_left ?_)
        rintro ⟨rfl, -⟩
        rw [List.mem_cons, or_iff_right]
        rintro rfl
        exact hkey ⟨rfl, rfl⟩
    · rw [heq, succeeded_cons_error hrun]
      simp

/-- While statistics are kept, every new report adds one entry. -/
theorem statistics_runAll (h : store.Trusted pairs) (hcollecting : store.collecting = true) :
    ∃ entries, (store.runAll pairs).2.statistics = store.statistics ++ entries ∧
      List.Forall₂ (Enters store.config) (missed store.config store pairs) entries := by
  induction pairs generalizing store with
  | nil => exact ⟨[], (List.append_nil _).symm, .nil⟩
  | cons p rest ih =>
    rcases store.runAll_cons_cases p rest with
      ⟨r, hkept, heq⟩ | ⟨r, hnew, hrun, heq⟩ | ⟨e, -, hrun, heq⟩
    · have hmissed : missed store.config store (p :: rest) = missed store.config store rest := by
        rw [missed, succeeded_cons_ok (h.kept p List.mem_cons_self r hkept), List.filter_cons,
          hkept]
        rfl
      rw [heq, hmissed]
      exact ih h.tail hcollecting
    · have hmissed : missed store.config store (p :: rest) =
          p :: missed store.config (store.keep p.1 p.2 r) rest := by
        rw [missed, succeeded_cons_ok hrun, List.filter_cons, hnew, Option.isNone_none, if_pos rfl,
          List.eraseDups_cons, List.filter_filter, missed]
        congr 2
        refine List.filter_congr fun q hq => ?_
        rw [report?_keep]
        simp only [h.eq_iff (mem_of_mem_succeeded hq)]
        by_cases hqp : q = p
        · simp [hqp]
        · simp [hqp]
      obtain ⟨entries, hentries, henters⟩ := ih (h.keep hrun) hcollecting
      refine ⟨⟨p.1, p.2.name, r.stats⟩ :: entries, ?_, ?_⟩
      · rw [heq, hentries, ReportStore.keep, if_pos hcollecting, List.append_assoc,
          List.singleton_append]
      · rw [hmissed]
        exact .cons ⟨r, hrun, rfl⟩ henters
    · have hmissed : missed store.config store (p :: rest) = [] := by
        rw [missed, succeeded_cons_error hrun]
        rfl
      rw [heq, hmissed]
      exact ⟨[], (List.append_nil _).symm, .nil⟩

end Trusted

/-! ## Sequences of requests -/

/-- What is known of a store after some requests. The reports that it keeps are those of functions
    that were handed over since the reports were cleared last. -/
structure Tracks (config : SolverConfig) (requests : List Request) (store : ReportStore) :
    Prop where
  config_eq : store.config = config
  kinds_eq : store.kinds = Request.registered requests
  collecting_iff : store.collecting = true ↔ .enableStatistics ∈ requests
  kept : ∃ old part, requests = old ++ part ∧ .clearCache ∉ part ∧
    ∀ kind name r, store.report? kind name = some r →
      ∃ f ∈ part.flatMap Request.functions, f.name = name ∧ Report.run kind f config = .ok r

theorem runAll_singleton (store : ReportStore) (kind : AnalysisKind) (f : Function) :
    store.runAll [(kind, f)] =
      ((store.runOnFunction kind f).1.map ([·]), (store.runOnFunction kind f).2) := by
  rcases store.runOnFunction_cases kind f with ⟨r, -, h⟩ | ⟨r, -, -, h⟩ | ⟨e, -, -, h⟩
  all_goals
    rw [h, runAll, h]
    rfl

namespace Tracks

variable {config : SolverConfig} {requests : List Request} {store : ReportStore}

theorem fresh (config : SolverConfig) : Tracks config [] (.fresh config) where
  config_eq := rfl
  kinds_eq := rfl
  collecting_iff := by simp [ReportStore.fresh]
  kept := ⟨[], [], rfl, List.not_mem_nil, fun kind name r h => by cases h⟩

/-- A request that is not to clear the reports adds to the functions handed over. -/
theorem kept_concat (h : Tracks config requests store) {q : Request} (hq : q ≠ .clearCache)
    {store' : ReportStore}
    (hcases : ∀ kind name r, store'.report? kind name = some r →
      store.report? kind name = some r ∨
        ∃ f ∈ q.functions, f.name = name ∧ Report.run kind f config = .ok r) :
    ∃ old part, requests ++ [q] = old ++ part ∧ .clearCache ∉ part ∧
      ∀ kind name r, store'.report? kind name = some r →
        ∃ f ∈ part.flatMap Request.functions, f.name = name ∧
          Report.run kind f config = .ok r := by
  obtain ⟨old, part, rfl, hclear, hkept⟩ := h.kept
  refine ⟨old, part ++ [q], List.append_assoc old part [q], ?_, ?_⟩
  · simp [hclear, hq.symm]
  · intro kind name r hr
    rw [List.flatMap_append]
    rcases hcases kind name r hr with hold | ⟨f, hf, hr⟩
    · obtain ⟨f, hf, hr⟩ := hkept kind name r hold
      exact ⟨f, List.mem_append_left _ hf, hr⟩
    · exact ⟨f, List.mem_append_right _ (by simpa using hf), hr⟩

theorem registered_concat_of_none {q : Request} (hq : q.registers? = none) :
    Request.registered (requests ++ [q]) = Request.registered requests := by
  simp [Request.registered, hq]

/-- Runs on functions that a request hands over. -/
theorem runAll (h : Tracks config requests store) {q : Request} (hclear : q ≠ .clearCache)
    (hkind : q.registers? = none) (hstatistics : q ≠ .enableStatistics)
    {pairs : List (AnalysisKind × Function)} (hpairs : ∀ p ∈ pairs, p.2 ∈ q.functions) :
    Tracks config (requests ++ [q]) (store.runAll pairs).2 := by
  have hsettings := store.settings_runAll pairs
  simp only [settings, Prod.mk.injEq] at hsettings
  obtain ⟨hconfig, hkinds, hcollecting⟩ := hsettings
  refine ⟨hconfig.trans h.config_eq, ?_, ?_, h.kept_concat hclear ?_⟩
  · rw [hkinds, h.kinds_eq, registered_concat_of_none hkind]
  · rw [hcollecting, h.collecting_iff]
    simp [hstatistics.symm]
  · intro kind name r hr
    refine (report?_runAll_cases hr).imp_right ?_
    rintro ⟨f, hf, hname, hrun⟩
    exact ⟨f, hpairs _ hf, hname, h.config_eq ▸ hrun⟩

theorem perform (h : Tracks config requests store) (q : Request) :
    Tracks config (requests ++ [q]) (store.perform q) := by
  cases q with
  | register kind =>
    refine ⟨?_, ?_, ?_, h.kept_concat (by simp) fun kind' name r hr => .inl ?_⟩
    · rw [← h.config_eq, ReportStore.perform, register]
      split_ifs <;> rfl
    · have hfilter : (requests ++ [Request.register kind]).filterMap Request.registers? =
          requests.filterMap Request.registers? ++ [kind] := by
        simp [Request.registers?]
      rw [Request.registered, hfilter, FlowGraph.eraseDups_concat, ← Request.registered,
        ← h.kinds_eq, ReportStore.perform, register, h.kinds_eq, Request.registered]
      simp only [List.mem_eraseDups]
      split_ifs
      · rw [h.kinds_eq, Request.registered]
      · rfl
    · rw [ReportStore.perform, register]
      split_ifs <;> simp [h.collecting_iff]
    · rw [ReportStore.perform, register] at hr
      split_ifs at hr <;> exact hr
  | enableStatistics =>
    refine ⟨h.config_eq, ?_, ?_, h.kept_concat (by simp) fun _ _ _ => .inl⟩
    · rw [registered_concat_of_none rfl, ← h.kinds_eq]
      rfl
    · simp [ReportStore.perform, ReportStore.enableStatistics]
  | runOnFunction kind f =>
    have hrun : store.perform (.runOnFunction kind f) = (store.runAll [(kind, f)]).2 := by
      rw [runAll_singleton]
      rfl
    rw [hrun]
    exact h.runAll (by simp) rfl (by simp) (by simp [Request.functions])
  | runOnModule program =>
    refine h.runAll (by simp) rfl (by simp) fun p hp => ?_
    exact (List.pair_mem_product.1 hp).2
  | clearCache =>
    refine ⟨h.config_eq, ?_, ?_, requests ++ [.clearCache], [], by simp, by simp, ?_⟩
    · rw [registered_concat_of_none rfl, ← h.kinds_eq]
      rfl
    · rw [List.mem_append, ← h.collecting_iff]
      simp [ReportStore.perform, ReportStore.clearCache]
    · intro kind name r hr
      cases hr

end Tracks

theorem tracks_performAll (config : SolverConfig) (requests : List Request) :
    Tracks config requests ((fresh config).performAll requests) := by
  induction requests using List.reverseRecOn with
  | nil => exact .fresh config
  | append_singleton requests q ih =>
    rw [performAll, List.foldl_concat]
    exact ih.perform q

/-- What is kept can be trusted when functions are handed over that agree with the ones before. -/
theorem Tracks.trusted {config : SolverConfig} {before after : List Request} {store : ReportStore}
    (h : Tracks config before store) {q : Request} (hclear : q ≠ .clearCache)
    (hconsistent : Request.Consistent (before ++ q :: after))
    {pairs : List (AnalysisKind × Function)} (hpairs : ∀ p ∈ pairs, p.2 ∈ q.functions) :
    store.Trusted pairs := by
  obtain ⟨old, part, rfl, hpart, hkept⟩ := h.kept
  have hsame := hconsistent (part ++ [q])
    ⟨old, after, by rw [List.append_assoc, List.append_assoc, List.append_assoc]; rfl⟩
    (by simp [hpart, hclear.symm])
  rw [List.flatMap_append, List.flatMap_singleton] at hsame
  constructor
  · intro p hp r hr
    obtain ⟨f, hf, hname, hrun⟩ := hkept _ _ r hr
    obtain rfl := hsame f (List.mem_append_left _ hf) p.2
      (List.mem_append_right _ (hpairs p hp)) hname
    rw [h.config_eq]
    exact hrun
  · intro p hp p' hp'
    exact hsame p.2 (List.mem_append_right _ (hpairs p hp)) p'.2
      (List.mem_append_right _ (hpairs p' hp'))

/-- The outcome of some runs, an answer and the store afterwards, as it would be if every report
    were computed anew. -/
structure Serves (config : SolverConfig) (collecting : Prop)
    (pairs : List (AnalysisKind × Function)) (store : ReportStore)
    (outcome : Except FlowError (List Report) × ReportStore) : Prop where
  /-- If all runs succeed, the answer has their reports in order. -/
  ok_iff : ∀ rs, outcome.1 = .ok rs ↔
    List.Forall₂ (fun p r => Report.run p.1 p.2 config = .ok r) pairs rs
  /-- Otherwise it is the error of the first run that fails. -/
  error_iff : ∀ e, outcome.1 = .error e ↔ ∃ done p rest, pairs = done ++ p :: rest ∧
    (∀ q ∈ done, ∃ r, Report.run q.1 q.2 config = .ok r) ∧ Report.run p.1 p.2 config = .error e
  /-- The store keeps what it kept, and the reports of the runs in front of the first failure. -/
  report?_iff : ∀ kind name r, outcome.2.report? kind name = some r ↔
    store.report? kind name = some r ∨ ∃ f, (kind, f) ∈ succeeded config pairs ∧
      f.name = name ∧ Report.run kind f config = .ok r
  /-- While statistics are kept, each run without a kept report adds one entry. -/
  statistics : collecting → ∃ entries, outcome.2.statistics = store.statistics ++ entries ∧
    List.Forall₂ (Enters config) (missed config store pairs) entries
  /-- Before that, none is added. -/
  no_statistics : ¬collecting → outcome.2.statistics = store.statistics

theorem Tracks.serves {config : SolverConfig} {before : List Request} {store : ReportStore}
    (h : Tracks config before store) {pairs : List (AnalysisKind × Function)}
    (htrusted : store.Trusted pairs) :
    Serves config (.enableStatistics ∈ before) pairs store (store.runAll pairs) := by
  obtain rfl := h.config_eq
  refine ⟨?_, ?_, fun _ _ _ => htrusted.report?_runAll, ?_, ?_⟩
  · intro rs
    rw [htrusted.fst_runAll, mapM_eq_ok_iff]
  · intro e
    rw [htrusted.fst_runAll, mapM_eq_error_iff]
  · intro hcollecting
    exact htrusted.statistics_runAll (h.collecting_iff.2 hcollecting)
  · intro hcollecting
    refine statistics_runAll_of_not_collecting ?_ pairs
    rw [← Bool.not_eq_true, h.collecting_iff]
    exact hcollecting

/-- Keeping reports cannot be noticed. For every sequence of requests to a fresh store in which
    functions with the same name are equal as long as the reports are not cleared: a run on a
    function answers as the analysis itself does, and a run on a module answers with the reports of
    every registered analysis on every function or with the first error. A failure loses nothing of
    what was kept or computed before it, and statistics count the reports that were computed. -/
theorem cache_transparent (config : SolverConfig) (before after : List Request) :
    (∀ kind f, Request.Consistent (before ++ .runOnFunction kind f :: after) →
      let store := (fresh config).performAll before
      let outcome := store.runOnFunction kind f
      (∀ r, outcome.1 = .ok r ↔ Report.run kind f config = .ok r) ∧
        Serves config (.enableStatistics ∈ before) [(kind, f)] store
          (outcome.1.map ([·]), outcome.2)) ∧
    ∀ program, Request.Consistent (before ++ .runOnModule program :: after) →
      let store := (fresh config).performAll before
      Serves config (.enableStatistics ∈ before)
        ((Request.registered before).product program.functions.values) store
        (store.runOnModule program) := by
  have htracks := tracks_performAll config before
  constructor
  · intro kind f hconsistent store outcome
    have htrusted : store.Trusted [(kind, f)] :=
      htracks.trusted (by simp) hconsistent (by simp [Request.functions])
    have hserves := htracks.serves htrusted
    rw [runAll_singleton] at hserves
    refine ⟨fun r => ?_, hserves⟩
    have hok := hserves.ok_iff [r]
    rw [List.forall₂_cons, and_iff_left .nil] at hok
    rw [← hok]
    show outcome.1 = .ok r ↔ outcome.1.map ([·]) = .ok [r]
    cases outcome.1 <;> simp [Except.map]
  · intro program hconsistent store
    have hkinds : store.kinds = Request.registered before := htracks.kinds_eq
    rw [← hkinds]
    exact htracks.serves (htracks.trusted (by simp) hconsistent
      fun p hp => (List.pair_mem_product.1 hp).2)

/-- Requests that hand over another `whirl` once the reports are cleared. -/
def replacement : List Request :=
  [.register .liveness, .register .pointsTo, .register .liveness, .enableStatistics,
    .runOnFunction .liveness (.fresh "whirl")] ++
  .clearCache :: [.runOnFunction .liveness FlowGraph.whirl]

/-- A module with a function that points-to analysis rejects. -/
def mixed : Module := ((Module.fresh "mixed").add FlowGraph.whirl).add gaps

/-- After `replacement`, a run on `mixed` fails at `gaps` and has two new reports by then. -/
theorem cache_transparent_replacement :
    Request.Consistent (replacement ++ [.runOnModule mixed]) ∧
      let store := (fresh {}).performAll replacement
      (∃ e, Report.run .pointsTo gaps {} = .error e ∧ (store.runOnModule mixed).1 = .error e) ∧
      (∃ r, Report.run .liveness gaps {} = .ok r ∧
        (store.runOnModule mixed).2.report? .liveness "gaps" = some r) ∧
      ∃ entries, (store.runOnModule mixed).2.statistics = store.statistics ++ entries ∧
        List.Forall₂ (Enters {}) [(.liveness, gaps), (.pointsTo, FlowGraph.whirl)] entries := by
  have hconsistent : Request.Consistent (replacement ++ [.runOnModule mixed]) := by
    have hold : Request.Consistent (replacement.take 5) :=
      Request.consistent_of_forall (by decide +kernel)
    have hnew : Request.Consistent [.runOnFunction .liveness FlowGraph.whirl, .runOnModule mixed] :=
      Request.consistent_of_forall (by decide +kernel)
    exact hold.clear hnew
  have hserves := (cache_transparent {} replacement []).2 mixed hconsistent
  have hpairs : (Request.registered replacement).product mixed.functions.values =
      [(.liveness, FlowGraph.whirl), (.liveness, gaps), (.pointsTo, FlowGraph.whirl)] ++
        [(.pointsTo, gaps)] := by decide +kernel
  rw [hpairs] at hserves
  refine ⟨hconsistent, ?_, ?_, ?_⟩
  · obtain ⟨e, he⟩ : ∃ e, Report.run .pointsTo gaps {} = .error e :=
      exists_error_of_toBool (by decide +kernel)
    have hdone : ∀ q ∈ [(AnalysisKind.liveness, FlowGraph.whirl), (.liveness, gaps),
        (.pointsTo, FlowGraph.whirl)], (Report.run q.1 q.2 {}).toBool = true := by decide +kernel
    exact ⟨e, he, (hserves.error_iff e).2
      ⟨_, _, [], rfl, fun q hq => exists_ok_of_toBool (hdone q hq), he⟩⟩
  · obtain ⟨r, hr⟩ : ∃ r, Report.run .liveness gaps {} = .ok r :=
      exists_ok_of_toBool (by decide +kernel)
    exact ⟨r, hr, (hserves.report?_iff .liveness "gaps" r).2
      (.inr ⟨gaps, by decide +kernel, rfl, hr⟩)⟩
  · have hmissed : missed {} ((fresh {}).performAll replacement)
        ([(.liveness, FlowGraph.whirl), (.liveness, gaps), (.pointsTo, FlowGraph.whirl)] ++
          [(.pointsTo, gaps)]) = [(.liveness, gaps), (.pointsTo, FlowGraph.whirl)] := by
      decide +kernel
    obtain ⟨entries, hentries, hnew⟩ := hserves.statistics (by simp [replacement])
    rw [hmissed] at hnew
    exact ⟨entries, hentries, hnew⟩

end FlowFacts.ReportStore
