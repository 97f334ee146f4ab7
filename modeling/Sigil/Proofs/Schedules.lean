import Mathlib.Data.List.Forall2
import Sigil.Proofs.ListingOrder
import Sigil.Proofs.SeparateTargets

namespace Sigil

/-- What is there once all planned files have been tried. -/
theorem Plan.find?_of_holds {w w' : Workspace} {files : List (String × String)}
    (hplan : (Plan.ofFiles w files).Sound) (hw' : (Plan.ofFiles w files).UnderWay w')
    (hholds : ∀ file ∈ files, (Plan.ofFiles w files).Holds file w') (loc : Location) :
    w'.tree.find? loc = (Plan.ofFiles w files).outcome loc := by
  by_cases hkey : loc ∈ (Plan.ofFiles w files).files.map Prod.fst
  · obtain ⟨⟨loc, text⟩, hmem, rfl⟩ := List.mem_map.mp hkey
    obtain ⟨file, hfile, hplaced⟩ := List.mem_filterMap.mp hmem
    obtain ⟨hplace, rfl⟩ := Workspace.placed?_eq_some_iff.mp hplaced
    rw [hplan.outcome_of_mem hmem]
    exact (hholds file hfile).file loc hplace
  · -- Where no file goes, there is a new directory or what was there at the start.
    rw [Plan.outcome_of_not_mem hkey]
    split
    case isTrue hmade =>
      obtain ⟨file, hfile, hpassed⟩ := List.mem_flatMap.mp hmade.2
      exact (hholds file hfile).directories loc hpassed
    case isFalse hkept =>
      rcases hw'.entries loc with hstart | hend
      · exact hstart
      · rw [hend, Plan.outcome_of_not_mem hkey, if_neg hkept]

namespace Outcome

variable {results results' : List (Except Failure String)}

theorem ofResults_ok (code : String) (results : List (Except Failure String)) :
    ofResults (.ok code :: results) =
      { ofResults results with modules := code :: (ofResults results).modules } := rfl

theorem ofResults_error (failure : Failure) (results : List (Except Failure String)) :
    ofResults (.error failure :: results) =
      { ofResults results with failures := failure :: (ofResults results).failures } := rfl

/-- Every unit counts once. -/
theorem summary_ofResults (results : List (Except Failure String)) :
    (ofResults results).summary.compiled + (ofResults results).summary.failed =
      results.length := by
  induction results with
  | nil => rfl
  | cons result results ih =>
    cases result with
    | ok code =>
      rw [ofResults_ok]
      simp only [summary, List.length_cons] at ih ⊢
      omega
    | error failure =>
      rw [ofResults_error]
      simp only [summary, List.length_cons] at ih ⊢
      omega

/-- Results that differ in reasons make outcomes that differ in reasons. -/
theorem ofResults_alike {exact : Prop}
    (h : List.Forall₂ (Alike exact Failure.withoutReason) results results') :
    (ofResults results).modules = (ofResults results').modules ∧
      (ofResults results).failures.map Failure.withoutReason =
        (ofResults results').failures.map Failure.withoutReason ∧
      (exact → ofResults results = ofResults results') := by
  induction h with
  | nil => exact ⟨rfl, rfl, fun _ => rfl⟩
  | @cons result result' results results' hresult _ ih =>
    obtain ⟨hmodules, hfailures, hexact⟩ := ih
    obtain ⟨hsame, hsameExact⟩ := hresult
    cases result with
    | ok code =>
      cases result' with
      | error failure' => cases hsame
      | ok code' =>
        cases hsame
        rw [ofResults_ok, ofResults_ok]
        exact ⟨congrArg (code :: ·) hmodules, hfailures, fun h => by rw [hexact h]⟩
    | error failure =>
      cases result' with
      | ok code' => cases hsame
      | error failure' =>
        have hfirst : failure.withoutReason = failure'.withoutReason := Except.error.inj hsame
        rw [ofResults_error, ofResults_error, List.map_cons, List.map_cons, hfirst, hfailures]
        refine ⟨hmodules, rfl, fun h => ?_⟩
        rw [hexact h, Except.error.inj (hsameExact h)]

end Outcome

theorem forall₂_alike_of_common {exact : Prop}
    {results results' common : List (Except Failure String)}
    (h : List.Forall₂ (Alike exact Failure.withoutReason) results common)
    (h' : List.Forall₂ (Alike exact Failure.withoutReason) results' common) :
    List.Forall₂ (Alike exact Failure.withoutReason) results results' := by
  induction h generalizing results' with
  | nil =>
    cases h'
    exact .nil
  | cons hfirst _ ih =>
    cases h' with
    | cons hfirst' hrest' => exact .cons (hfirst.trans hfirst'.symm) (ih hrest')

section Pools

open Worker

variable {w w' : Workspace} {args : Args} {settings : Settings} {units pool : List SourceUnit}
  {results : List (Except Failure String)} {unit : SourceUnit}

/-- In whatever order units are compiled, each comes to what it comes to alone, and all that it
writes is there in the end. -/
theorem Workspace.Separate.steps (h : w.Separate args settings units) (hfinds : w.Finds units)
    (hvalid : w.Valid) (hpool : pool ⊆ units)
    (hsteps : Steps (pool.map (compileUnit args settings)) w (results.map done) w') :
    (Plan.ofUnits w args settings units).UnderWay w' ∧
      List.Forall₂ (Alike (w.Settled settings) Failure.withoutReason) results
        (pool.map (w.expectUnit args settings)) ∧
      ∀ unit ∈ pool, ∀ file ∈ w.attempted (w.filesOf args settings unit),
        (Plan.ofUnits w args settings units).Holds file w' := by
  have hstart : (Plan.ofUnits w args settings units).UnderWay w :=
    Plan.underWay_start hvalid.tree.closed
  have hunits (i : Nat) (x : Worker (Except Failure String))
      (hi : (pool.map (compileUnit args settings))[i]? = some x) :
      x.Within (Plan.ofUnits w args settings units).env (fun r w' => ∀ unit, pool[i]? = some unit →
        Alike (w.Settled settings) Failure.withoutReason r (w.expectUnit args settings unit) ∧
          ∀ file ∈ w.attempted (w.filesOf args settings unit),
            (Plan.ofUnits w args settings units).Holds file w') w := by
    rw [List.getElem?_map, Option.map_eq_some_iff] at hi
    obtain ⟨unit, hi, rfl⟩ := hi
    have hunit : unit ∈ units := hpool (List.mem_of_getElem? hi)
    have htargets (file : String × String)
        (hfile : file ∈ w.attempted (w.filesOf args settings unit)) :=
      h.target hfinds hvalid (List.mem_flatMap.mpr ⟨unit, hunit, hfile⟩)
    have hwithin := Plan.within_compileUnit (h.sound hfinds)
      (fun w'' hw'' => h.read_eq hfinds hw'' hunit) htargets hstart
    refine hwithin.mono ?_
    rintro r w'' ⟨-, halike, hholds⟩ unit' hi'
    rw [hi, Option.some.injEq] at hi'
    subst hi'
    exact ⟨halike.mono fun hsettled => hsettled.straight hfinds hvalid.tree.closed hunit, hholds⟩
  obtain ⟨hallows, hresults⟩ := Within.steps hsteps hunits
  have hlength : results.length = pool.length := by simpa using length_of_steps hsteps
  refine ⟨(hallows hstart).1, List.forall₂_iff_get.mpr ⟨by simpa using hlength, ?_⟩, ?_⟩
  · intro i hi hi'
    rw [List.length_map] at hi'
    have hresult := hresults i (results.get ⟨i, hi⟩) (by simp) (pool.get ⟨i, hi'⟩) (by simp)
    simpa using hresult.1
  · intro unit hunit
    obtain ⟨i, hi, hget⟩ := List.mem_iff_getElem.mp hunit
    have hi' : i < results.length := by omega
    exact (hresults i (results.get ⟨i, hi'⟩) (by simp) unit (by simp [hi, hget])).2

/-- Together all units leave what is planned. -/
theorem Workspace.Separate.find?_of_steps (h : w.Separate args settings units)
    (hfinds : w.Finds units) (hvalid : w.Valid)
    (hsteps : Steps (units.map (compileUnit args settings)) w (results.map done) w')
    (loc : Location) :
    w'.tree.find? loc = (Plan.ofUnits w args settings units).outcome loc := by
  obtain ⟨hw', -, hholds⟩ := h.steps hfinds hvalid (List.Subset.refl units) hsteps
  refine Plan.find?_of_holds (h.sound hfinds) hw' ?_ loc
  intro file hfile
  obtain ⟨unit, hunit, hfile⟩ := List.mem_flatMap.mp hfile
  exact hholds unit hunit file hfile

/-- A unit alone is a pool too. -/
theorem Workspace.Separate.alone (h : w.Separate args settings units) (hfinds : w.Finds units)
    (hvalid : w.Valid) (hunit : unit ∈ units) :
    Alike (w.Settled settings) Failure.withoutReason
      ((compileUnit args settings unit : StateM Workspace _) w).1
      (w.expectUnit args settings unit) := by
  have hsteps : Steps ([unit].map (compileUnit args settings)) w
      ([((compileUnit args settings unit : StateM Workspace _) w).1].map done)
      ((compileUnit args settings unit : StateM Workspace _) w).2 := by
    have hget : [(compileUnit args settings unit : Worker _)][0]? =
        some (compileUnit args settings unit) := rfl
    rw [← compileUnit_natural]
    exact steps_run hget w
  have hresults := (h.steps hfinds hvalid (by simpa using hunit) hsteps).2.1
  exact (List.forall₂_cons.mp hresults).1

theorem steps_mapM_compileUnit (args : Args) (settings : Settings) (units : List SourceUnit)
    (w : Workspace) :
    Steps (units.map (compileUnit args settings)) w
      (((units.mapM (compileUnit args settings) : StateM Workspace _) w).1.map done)
      ((units.mapM (compileUnit args settings) : StateM Workspace _) w).2 := by
  have hsteps := steps_mapM_run [] (units.map (compileUnit args settings : _ → Worker _)) w
  rw [List.mapM_map] at hsteps
  simp only [Function.comp_def, compileUnit_natural] at hsteps
  exact hsteps

end Pools

/-- What has been compiled, and what it came to. -/
structure Batch where
  settings : Settings
  units : List SourceUnit
  results : List (Except Failure String)

def Batch.outcome (batch : Batch) : Outcome := .ofResults batch.results

/-- A way a run can go: files are listed in some order, and units are compiled at the same time. -/
inductive Schedule (args : Args) (w : Workspace) : Except RunError Batch → Workspace → Prop
  | stopped {e : RunError} {w' : Workspace}
    (h : Worker.Steps [prepare args] w [.done (.error e)] w') : Schedule args w (.error e) w'
  | compiled {settings : Settings} {units : List SourceUnit}
    {results : List (Except Failure String)} {mid w' : Workspace}
    (hprepare : Worker.Steps [prepare args] w [.done (.ok (settings, units))] mid)
    (hcompile : Worker.Steps (units.map (compileUnit args settings)) mid (results.map .done) w') :
    Schedule args w (.ok ⟨settings, units, results⟩) w'

theorem Schedule.of_inspects {args : Args} {w w' : Workspace} {r : Except RunError Batch}
    {prepared : Except RunError (Settings × List SourceUnit)}
    (hinspects : Inspects w prepared (prepare args) (prepare args)) (h : Schedule args w r w') :
    (∃ e, prepared = .error e ∧ r = .error e ∧ w' = w) ∨
      ∃ batch, prepared = .ok (batch.settings, batch.units) ∧ r = .ok batch ∧
        Worker.Steps (batch.units.map (compileUnit args batch.settings)) w
          (batch.results.map .done) w' := by
  cases h with
  | stopped h =>
    obtain ⟨rfl, rfl⟩ := hinspects.gives.of_steps h
    exact .inl ⟨_, rfl, rfl, rfl⟩
  | @compiled settings units results mid w' hprepare hcompile =>
    obtain ⟨rfl, rfl⟩ := hinspects.gives.of_steps hprepare
    exact .inr ⟨⟨settings, units, results⟩, rfl, rfl, hcompile⟩

theorem Inspects.steps {α : Type} {w : Workspace} {y : α} {worker : Worker α}
    {alone : StateM Workspace α} (h : Inspects w y worker alone) :
    Worker.Steps [worker] w [.done y] w := by
  have hget : [worker][0]? = some worker := rfl
  have hsteps := Worker.steps_run hget w
  rw [List.set_cons_zero] at hsteps
  obtain ⟨hresult, hw⟩ := h.gives.of_steps hsteps
  rwa [hresult, hw] at hsteps

/-- A run that compiles one unit after the other goes one of these ways. -/
theorem schedule_run (args : Args) (w : Workspace) :
    ∃ r w', (run args : StateM Workspace _) w = (r.map Batch.outcome, w') ∧
      Schedule args w r w' := by
  obtain ⟨prepared, hinspects, -⟩ := inspects_prepare args w
  have hsteps := hinspects.steps
  rw [run, bind_run hinspects.run]
  cases prepared with
  | error e => exact ⟨.error e, w, rfl, .stopped hsteps⟩
  | ok found =>
    obtain ⟨settings, units⟩ := found
    exact ⟨.ok ⟨settings, units, _⟩, _, rfl,
      .compiled hsteps (steps_mapM_compileUnit args settings units w)⟩

end Sigil
