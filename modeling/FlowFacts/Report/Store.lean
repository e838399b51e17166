import FlowFacts.Report.Basic

/-!
# Keeping reports

A `ReportStore` runs the registered analyses and keeps every report. A report that is already kept,
for the same analysis and the same function name, is not computed again.
-/

namespace FlowFacts

/-- The work that one run took. -/
structure RunStatistics where
  analysis : AnalysisKind
  function : String
  stats : Stats
deriving DecidableEq

/-- Registered analyses, in order of registration, and the reports kept so far, by analysis and
    function name. Statistics are kept if they are asked for, oldest first. -/
structure ReportStore where
  config : SolverConfig
  kinds : List AnalysisKind
  cache : OrderedMap (AnalysisKind × String) Report
  collecting : Bool
  statistics : List RunStatistics

namespace ReportStore

def fresh (config : SolverConfig) : ReportStore := ⟨config, [], .empty, false, []⟩

/-- Registers an analysis, once. -/
def register (store : ReportStore) (kind : AnalysisKind) : ReportStore :=
  if kind ∈ store.kinds then store else { store with kinds := store.kinds ++ [kind] }

/-- Keeps statistics from now on. -/
def enableStatistics (store : ReportStore) : ReportStore := { store with collecting := true }

def clearCache (store : ReportStore) : ReportStore := { store with cache := .empty }

/-- The report kept for an analysis and a function name. -/
def report? (store : ReportStore) (kind : AnalysisKind) (function : String) : Option Report :=
  store.cache.get? (kind, function)

/-- Keeps a new report. -/
def keep (store : ReportStore) (kind : AnalysisKind) (f : Function) (r : Report) : ReportStore :=
  { store with
    cache := store.cache.insert (kind, f.name) r
    statistics :=
      if store.collecting then store.statistics ++ [⟨kind, f.name, r.stats⟩] else store.statistics }

/-- The report of an analysis on a function, kept or new, and the store afterwards. -/
def runOnFunction (store : ReportStore) (kind : AnalysisKind) (f : Function) :
    Except FlowError Report × ReportStore :=
  match store.report? kind f.name with
  | some r => (.ok r, store)
  | none =>
    match Report.run kind f store.config with
    | .ok r => (.ok r, store.keep kind f r)
    | .error e => (.error e, store)

/-- The reports of several runs, up to the first one that fails. -/
def runAll (store : ReportStore) :
    List (AnalysisKind × Function) → Except FlowError (List Report) × ReportStore
  | [] => (.ok [], store)
  | (kind, f) :: rest =>
    match store.runOnFunction kind f with
    | (.error e, store) => (.error e, store)
    | (.ok r, store) =>
      match store.runAll rest with
      | (.ok rs, store) => (.ok (r :: rs), store)
      | (.error e, store) => (.error e, store)

/-- The reports of every registered analysis on every function of a module. -/
def runOnModule (store : ReportStore) (program : Module) :
    Except FlowError (List Report) × ReportStore :=
  store.runAll (store.kinds.flatMap fun kind => program.functions.values.map fun f => (kind, f))

end ReportStore

end FlowFacts
