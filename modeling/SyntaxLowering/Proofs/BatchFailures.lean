import SyntaxLowering.Batch
import SyntaxLowering.Proofs.Isolation

/-!
# A failure concerns its own path only

A batch works in a world of which nothing is assumed: loading a path and handing on a result are any
functions of its state, so that outcomes may differ from one time to the next and depend on what was
handed on before. `Course` says what happened to the paths of a batch, one after another, as a chain
of such steps of the world. The batch runs such a course for its paths, and all that it gives back
is read off the course and off the units that were loaded, processed without any failures between
them.
-/

namespace SyntaxLowering

/-- What happened to one path of a batch. -/
inductive Report where
  | notLoaded (path : String) (error : LoadError)
  | handedOn (path : String) (unit : SourceUnit) (result : LoweredUnit)
      (answer : Except String Unit)

namespace Report

def path : Report → String
  | notLoaded path _ | handedOn path _ _ _ => path

/-- The unit that was loaded. -/
def unit? : Report → Option SourceUnit
  | notLoaded _ _ => none
  | handedOn _ unit _ _ => some unit

/-- What was handed on. -/
def result? : Report → Option LoweredUnit
  | notLoaded _ _ => none
  | handedOn _ _ result _ => some result

/-- What failed. -/
def failure? : Report → Option Failure
  | notLoaded path error => some (.load path error)
  | handedOn path _ _ (.error reason) => some (.refused path reason)
  | handedOn _ _ _ (.ok ()) => none

/-- The path was loaded and its result was taken. -/
def Accepted (r : Report) : Prop :=
  ∃ unit result, r = handedOn r.path unit result (.ok ())

theorem failure?_eq_none_iff {r : Report} : r.failure? = none ↔ r.Accepted := by
  unfold Accepted
  cases r with
  | notLoaded path error => simp [failure?]
  | handedOn path unit result answer => cases answer <;> simp [failure?, Report.path]

end Report

namespace Workbench

section

variable {World : Type} (load : String → StateM World (Except LoadError SourceUnit))
  (sink : LoweredUnit → StateM World (Except String Unit))

/-- The reports of a batch and what its steps make of the world: each path is loaded once, and each
result is handed on once, before the next path is loaded. -/
inductive Course : World → List Report → World → Prop
  | nil (world : World) : Course world [] world
  | notLoaded {world world' last : World} {path : String} {error : LoadError}
      {reports : List Report} (hload : load path world = (.error error, world'))
      (rest : Course world' reports last) : Course world (.notLoaded path error :: reports) last
  | handedOn {world world' world'' last : World} {path : String} {unit : SourceUnit}
      {result : LoweredUnit} {answer : Except String Unit} {reports : List Report}
      (hload : load path world = (.ok unit, world'))
      (hsink : sink result world' = (answer, world'')) (rest : Course world'' reports last) :
      Course world (.handedOn path unit result answer :: reports) last

/-- What a batch does with its first path. -/
theorem processAll_cons (path : String) (paths : List String) (w : Workbench) (summary : Summary)
    (world : World) :
    processAll load sink (path :: paths) w summary world =
      match load path world with
      | (.error error, world') =>
        processAll load sink paths w (summary.fail (.load path error)) world'
      | (.ok unit, world') =>
        match sink (w.process unit).1 world' with
        | (.ok (), world'') =>
          processAll load sink paths (w.process unit).2 (summary.count (w.process unit).1) world''
        | (.error reason, world'') =>
          processAll load sink paths (w.process unit).2
            ((summary.count (w.process unit).1).fail (.refused path reason)) world'' := by
  rw [processAll]
  show StateT.bind (load path) _ world = _
  simp only [StateT.bind]
  show (match load path world with | (outcome, world') => _) = _
  obtain ⟨outcome, world'⟩ := load path world
  cases outcome with
  | error error => rfl
  | ok unit =>
    show StateT.bind (sink (w.process unit).1) _ world' = _
    simp only [StateT.bind]
    show (match sink (w.process unit).1 world' with | (answer, world'') => _) = _
    obtain ⟨answer, world''⟩ := sink (w.process unit).1 world'
    cases answer <;> rfl

end

theorem processEach_cons (w : Workbench) (u : SourceUnit) (us : List SourceUnit) :
    w.processEach (u :: us) = ((w.process u).1 :: ((w.process u).2.processEach us).1,
      ((w.process u).2.processEach us).2) := rfl

/-- What a batch gives back, read off its reports: the units that were loaded were processed as if
there had been no others, and nothing else was counted. -/
structure Accounts (w : Workbench) (summary : Summary) (reports : List Report)
    (done : Summary × Workbench) : Prop where
  results : reports.filterMap (·.result?) = (w.processEach (reports.filterMap (·.unit?))).1
  workbench : done.2 = (w.processEach (reports.filterMap (·.unit?))).2
  processed : done.1.processed = summary.processed + (reports.filterMap (·.unit?)).length
  changed : done.1.changed = summary.changed +
    (w.processEach (reports.filterMap (·.unit?))).1.countP (·.changed)
  failures : done.1.failures = summary.failures ++ reports.filterMap (·.failure?)

namespace Accounts

variable {w : Workbench} {summary : Summary} {reports : List Report} {done : Summary × Workbench}

theorem nil (w : Workbench) (summary : Summary) : Accounts w summary [] (summary, w) :=
  ⟨rfl, rfl, rfl, rfl, (List.append_nil _).symm⟩

/-- A path that could not be loaded adds a failure in front and changes nothing else. -/
theorem notLoaded {path : String} {error : LoadError}
    (h : Accounts w (summary.fail (.load path error)) reports done) :
    Accounts w summary (.notLoaded path error :: reports) done := by
  refine ⟨h.results, h.workbench, h.processed, h.changed, ?_⟩
  rw [h.failures]
  show (summary.failures ++ [Failure.load path error]) ++ _ = _
  rw [List.append_assoc]
  rfl

/-- A unit that was loaded is processed before the rest; its answer adds a failure at most. -/
theorem handedOn {path : String} {unit : SourceUnit} {answer : Except String Unit}
    {next : Summary} (hprocessed : next.processed = summary.processed + 1)
    (hchanged : next.changed = summary.changed + if (w.process unit).1.changed then 1 else 0)
    (hfailures : next.failures =
      summary.failures ++ (Report.handedOn path unit (w.process unit).1 answer).failure?.toList)
    (h : Accounts (w.process unit).2 next reports done) :
    Accounts w summary (.handedOn path unit (w.process unit).1 answer :: reports) done where
  results := by
    show (w.process unit).1 :: _ = (w.processEach (unit :: _)).1
    rw [processEach_cons, h.results]
  workbench := h.workbench
  processed := by
    rw [h.processed, hprocessed]
    show _ = summary.processed + (List.length (unit :: reports.filterMap (·.unit?)))
    rw [List.length_cons]
    omega
  changed := by
    rw [h.changed, hchanged]
    show _ = summary.changed + List.countP (·.changed) (w.processEach (unit :: _)).1
    rw [processEach_cons, List.countP_cons]
    omega
  failures := by
    rw [h.failures, hfailures, List.filterMap_cons, List.append_assoc]
    cases (Report.handedOn path unit (w.process unit).1 answer).failure? <;> rfl

end Accounts

/-- A batch runs a course of its paths and accounts for it. -/
theorem exists_course {World : Type}
    (load : String → StateM World (Except LoadError SourceUnit))
    (sink : LoweredUnit → StateM World (Except String Unit)) (paths : List String) (w : Workbench)
    (summary : Summary) (world : World) :
    ∃ reports : List Report, reports.map (·.path) = paths ∧
      Course load sink world reports (processAll load sink paths w summary world).2 ∧
      Accounts w summary reports (processAll load sink paths w summary world).1 := by
  induction paths generalizing w summary world with
  | nil => exact ⟨[], rfl, .nil world, .nil w summary⟩
  | cons path paths ih =>
    rw [processAll_cons]
    rcases hload : load path world with ⟨error | unit, world'⟩
    · obtain ⟨reports, hpaths, hcourse, haccounts⟩ :=
        ih w (summary.fail (.load path error)) world'
      exact ⟨.notLoaded path error :: reports, congrArg (path :: ·) hpaths,
        .notLoaded hload hcourse, haccounts.notLoaded⟩
    · dsimp only
      -- the unit has been counted by now, whatever the answer
      rcases hsink : sink (w.process unit).1 world' with ⟨reason | accepted, world''⟩
      · obtain ⟨reports, hpaths, hcourse, haccounts⟩ :=
          ih (w.process unit).2
            ((summary.count (w.process unit).1).fail (.refused path reason)) world''
        exact ⟨.handedOn path unit (w.process unit).1 (.error reason) :: reports,
          congrArg (path :: ·) hpaths, .handedOn hload hsink hcourse,
          haccounts.handedOn rfl rfl rfl⟩
      · have hfailures : (summary.count (w.process unit).1).failures = summary.failures ++ [] :=
          (List.append_nil _).symm
        obtain ⟨reports, hpaths, hcourse, haccounts⟩ :=
          ih (w.process unit).2 (summary.count (w.process unit).1) world''
        exact ⟨.handedOn path unit (w.process unit).1 (.ok ()) :: reports,
          congrArg (path :: ·) hpaths, .handedOn hload hsink hcourse,
          haccounts.handedOn rfl rfl hfailures⟩

/-- Failures concern their own paths only. Each path has one report, in the order of the paths.
Exactly the units that were loaded are handed on, once each and with the results that they have with
no failures between them, and the workbench ends as it does without these failures. The summary
counts those units and results and holds the failures of the reports, so it tells of a success if
and only if every path was loaded and every result taken. -/
theorem processAll_survives_failures {World : Type}
    (load : String → StateM World (Except LoadError SourceUnit))
    (sink : LoweredUnit → StateM World (Except String Unit)) (paths : List String) (w : Workbench)
    (world : World) :
    let done := processAll load sink paths w {} world
    ∃ reports : List Report, reports.map (·.path) = paths ∧ Course load sink world reports done.2 ∧
      let units := reports.filterMap (·.unit?)
      reports.filterMap (·.result?) = (w.processEach units).1 ∧
      done.1.2 = (w.processEach units).2 ∧
      done.1.1 = { processed := units.length
                   changed := (w.processEach units).1.countP (·.changed)
                   failures := reports.filterMap (·.failure?) } ∧
      (done.1.1.success = true ↔ ∀ r ∈ reports, r.Accepted) := by
  intro done
  obtain ⟨reports, hpaths, hcourse, h⟩ := exists_course load sink paths w {} world
  refine ⟨reports, hpaths, hcourse, h.results, h.workbench, ?_, ?_⟩
  · show Summary.mk done.1.1.processed done.1.1.changed done.1.1.failures = _
    rw [h.processed, h.changed, h.failures, Nat.zero_add, Nat.zero_add, List.nil_append]
  · rw [Summary.success, List.isEmpty_iff, h.failures, List.nil_append, List.filterMap_eq_nil_iff]
    exact forall₂_congr fun r _ => r.failure?_eq_none_iff

end Workbench

end SyntaxLowering
