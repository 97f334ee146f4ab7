import Sigil.Proofs.PlannedChanges

namespace Sigil

namespace Path

/-- The directory that is made for a file. -/
def directoryOf (path : String) : String := (parent? path).getD ""

/-- The steps to the directory of a file. -/
def stepsAbove (path : String) : List String := (steps (segments path)).dropLast

variable {init : List String} {path s : String}

theorem stepsAbove_of_step (h : segments path = init ++ [s]) (hs : s ≠ "") (hdot : s ≠ ".") :
    stepsAbove path = steps init := by
  rw [stepsAbove, h, steps_concat hs hdot, List.dropLast_concat]

theorem EndsInStep.leads (h : EndsInStep path) (base : Location) :
    Leads (directoryOf path) (stepsAbove path) ∧
      FileTree.origin base (directoryOf path) = FileTree.origin base path := by
  obtain ⟨init, s, hsegs, hs, hdot⟩ := h
  obtain ⟨parent, hparent, habs, hleads⟩ := leads_parent? hsegs hs hdot
  rw [directoryOf, hparent, Option.getD_some, stepsAbove_of_step hsegs hs hdot]
  exact ⟨hleads, FileTree.origin_congr base habs⟩

end Path

/-- A cause without what the system says about it. -/
def FailureCause.withoutReason : FailureCause → FailureCause
  | .write target _ => .write target ""
  | cause => cause

def Failure.withoutReason (failure : Failure) : Failure :=
  { failure with cause := failure.cause.withoutReason }

theorem Failure.withoutReason_congr (path : String) {cause cause' : FailureCause}
    (h : cause.withoutReason = cause'.withoutReason) :
    withoutReason { path, cause } = withoutReason { path, cause := cause' } := by
  rw [withoutReason, withoutReason, h]

namespace Workspace

/-- Where the making of a directory ends. -/
def reachDirectory (w : Workspace) (dir : String) : Except SystemError Location :=
  if dir = "" ∨ FileTree.IsTaken dir then
    w.tree.reach (FileTree.origin w.directory dir) (Path.steps (Path.segments dir))
  else .error (FileTree.refusal dir)

/-- What is a directory after the making of one. -/
def passedDirectories (w : Workspace) (dir : String) : List Location :=
  if dir = "" ∨ FileTree.IsTaken dir then
    w.tree.passed (FileTree.origin w.directory dir) (Path.steps (Path.segments dir))
  else []

/-- Where a text ends up that is written to a path. -/
def placeOf (w : Workspace) (path : String) : Except SystemError Location := do
  let dir ← w.reachDirectory (Path.directoryOf path)
  let name := (Path.segments path).getLastD ""
  if ¬FileTree.IsTaken path then .error (FileTree.refusal path)
  else if FileTree.nameLimit < name.utf8ByteSize then .error .nameTooLong
  else if name = ".." ∨ w.tree.find? (dir ++ [name]) = some .directory ∨
      (w.passedDirectories (Path.directoryOf path)).contains (dir ++ [name]) then
    .error .isADirectory
  else .ok (dir ++ [name])

theorem placeOf_of_error {w : Workspace} {path : String} {e : SystemError}
    (h : w.reachDirectory (Path.directoryOf path) = .error e) : w.placeOf path = .error e := by
  rw [placeOf, h]
  rfl

theorem placeOf_of_ok {w : Workspace} {path : String} {dir : Location}
    (h : w.reachDirectory (Path.directoryOf path) = .ok dir) :
    w.placeOf path =
      if ¬FileTree.IsTaken path then .error (FileTree.refusal path)
      else if FileTree.nameLimit < ((Path.segments path).getLastD "").utf8ByteSize then
        .error .nameTooLong
      else if (Path.segments path).getLastD "" = ".." ∨
          w.tree.find? (dir ++ [(Path.segments path).getLastD ""]) = some .directory ∨
          (w.passedDirectories (Path.directoryOf path)).contains
            (dir ++ [(Path.segments path).getLastD ""]) then
        .error .isADirectory
      else .ok (dir ++ [(Path.segments path).getLastD ""]) := by
  rw [placeOf, h]
  rfl

/-- The files of a list up to the first that cannot be written. -/
def attempted (w : Workspace) : List (String × String) → List (String × String)
  | [] => []
  | file :: files => file :: if (w.placeOf file.1).isOk then w.attempted files else []

/-- What the writing of several files comes to. -/
def expectFiles (w : Workspace) : List (String × String) → Except FailureCause Unit
  | [] => .ok ()
  | file :: files => do
    let _ ← (w.placeOf file.1).mapError fun e => .write file.1 e.message
    w.expectFiles files

/-- The output of a unit. -/
def outputOf (w : Workspace) (args : Args) (settings : Settings) (unit : SourceUnit) :
    Except Failure Output := do
  let source ← (w.tree.read w.directory unit.path).mapError fun e =>
    { path := unit.path, cause := .read e.message }
  (compile source (unit.options args settings)).mapError fun d =>
    { path := unit.path, source? := some source, cause := .compile d }

/-- The files that a unit tries to write. -/
def filesOf (w : Workspace) (args : Args) (settings : Settings) (unit : SourceUnit) :
    List (String × String) :=
  if args.stdout then []
  else (w.outputOf args settings unit).toOption.elim [] (·.files (unit.outputPath settings))

/-- What a unit comes to. -/
def expectUnit (w : Workspace) (args : Args) (settings : Settings) (unit : SourceUnit) :
    Except Failure String := do
  let output ← w.outputOf args settings unit
  let text := if args.stdout then output.code else output.moduleAt (unit.outputPath settings)
  ((w.expectFiles (w.filesOf args settings unit)).map fun _ => text).mapError fun cause =>
    { path := unit.path, cause }

section

variable {w : Workspace} {args : Args} {settings : Settings} {unit : SourceUnit}
  {failure : Failure} {output : Output}

theorem exists_of_outputOf (h : w.outputOf args settings unit = .ok output) :
    ∃ source, w.tree.read w.directory unit.path = .ok source ∧
      compile source (unit.options args settings) = .ok output := by
  rw [outputOf] at h
  cases hread : w.tree.read w.directory unit.path with
  | error e =>
    rw [hread] at h
    cases h
  | ok source =>
    rw [hread] at h
    change (compile source (unit.options args settings)).mapError _ = _ at h
    refine ⟨source, rfl, ?_⟩
    cases hcompile : compile source (unit.options args settings) with
    | error d =>
      rw [hcompile] at h
      cases h
    | ok output' =>
      rw [hcompile] at h
      cases h
      rfl

theorem filesOf_of_error (h : w.outputOf args settings unit = .error failure) :
    w.filesOf args settings unit = [] := by
  rw [filesOf, h]
  exact ite_self _

theorem filesOf_of_ok (h : w.outputOf args settings unit = .ok output) :
    w.filesOf args settings unit =
      if args.stdout then [] else output.files (unit.outputPath settings) := by
  rw [filesOf, h]
  rfl

theorem expectUnit_of_error (h : w.outputOf args settings unit = .error failure) :
    w.expectUnit args settings unit = .error failure := by
  rw [expectUnit, h]
  rfl

theorem expectUnit_of_ok (h : w.outputOf args settings unit = .ok output) :
    w.expectUnit args settings unit =
      ((w.expectFiles (w.filesOf args settings unit)).map fun _ =>
        if args.stdout then output.code else output.moduleAt (unit.outputPath settings)).mapError
          fun cause => { path := unit.path, cause } := by
  rw [expectUnit, h]
  rfl

end

end Workspace

namespace Plan

variable {plan : Plan} {w w' : Workspace} {path text : String}

theorem within_makeDirectories_refused (hw : plan.UnderWay w) (hpath : path ≠ "")
    (hrefused : ¬FileTree.IsTaken path) :
    (Storage.makeDirectories path : Worker _).Within plan.env
      (fun r w' => plan.UnderWay w' ∧ r = .error (FileTree.refusal path)) w := by
  have hreason : FileTree.refusal path ≠ .notFound := by
    rw [FileTree.refusal, if_neg hpath]
    split <;> simp
  have hlocate (w : Workspace) : w.tree.locate w.directory path = .error (FileTree.refusal path) :=
    FileTree.locate_of_not_isTaken hrefused
  have hensure : (Storage.ensureDirectory path : Worker _).Within plan.env
      (fun r w' => plan.UnderWay w' ∧ r = .error (FileTree.refusal path)) w := by
    refine Worker.Within.bind ?_
    intro w₁ henv₁ made w₂ hans
    have hrun : w₁.update (w₁.tree.makeDirectory w₁.directory path) = (made, w₂) :=
      hans.perform_eq (by simp)
    rw [FileTree.makeDirectory, hlocate] at hrun
    cases hrun
    refine ⟨plan.env.refl w₁, fun w₃ henv₃ => within_confirm fun w₄ w₅ henv₄ henv₅ => ?_⟩
    have hnot : w₄.tree.isDirectory w₄.directory path = false := by
      rw [FileTree.isDirectory, FileTree.entry, hlocate]
      rfl
    rw [if_neg (by simp [hnot])]
    exact ⟨(henv₅ (henv₄ (henv₃ (henv₁ hw).1).1).1).1, rfl⟩
  cases hparent : Path.parent? path with
  | none =>
    rw [Storage.makeDirectories_of_root hpath hparent]
    refine Worker.Within.bind (hensure.mono ?_)
    rintro first w₁ ⟨hw₁, rfl⟩
    exact fun w₂ henv₂ => ⟨(henv₂ hw₁).1, rfl⟩
  | some parent =>
    rw [Storage.makeDirectories_of_parent hparent]
    refine Worker.Within.bind (hensure.mono ?_)
    rintro first w₁ ⟨hw₁, rfl⟩
    rw [if_neg (by simpa using hreason)]
    exact fun w₂ henv₂ => ⟨(henv₂ hw₁).1, rfl⟩

/-- A text that a plan lets a worker write, as far as it can be written. -/
structure Target (plan : Plan) (path text : String) : Prop where
  ending : Path.EndsInStep path
  origin : plan.start.tree.find? (FileTree.origin plan.start.directory path) = some .directory
  clear : ∀ l ∈ FileTree.visits (FileTree.origin plan.start.directory path)
    (Path.stepsAbove path), l ∉ plan.files.map Prod.fst
  planned : ∀ l ∈ plan.start.passedDirectories (Path.directoryOf path),
    plan.start.tree.find? l = none → l ∈ plan.directories
  placed : ∀ loc, plan.start.placeOf path = .ok loc → (loc, text) ∈ plan.files

theorem Target.way (h : plan.Target path text)
    (htaken : Path.directoryOf path = "" ∨ FileTree.IsTaken (Path.directoryOf path)) :
    plan.Way (Path.directoryOf path) (Path.stepsAbove path) := by
  obtain ⟨hleads, horigin⟩ := h.ending.leads plan.start.directory
  have horigin' := h.origin
  have hclear := h.clear
  rw [← horigin] at horigin' hclear
  refine ⟨hleads, htaken, horigin', hclear, ?_⟩
  intro l hl
  refine h.planned l ?_
  rw [Workspace.passedDirectories, if_pos htaken, hleads.steps]
  exact hl

/-- What the making of its directory comes to for a file. -/
theorem Target.within_makeDirectories (h : plan.Target path text) (hplan : plan.Sound)
    (hw : plan.UnderWay w) :
    (Storage.makeDirectories (Path.directoryOf path) : Worker _).Within plan.env
      (fun r w' => plan.UnderWay w' ∧
        Alike (plan.start.tree.Straight (FileTree.origin plan.start.directory path)
          (Path.stepsAbove path)) (fun _ => ()) r
          ((plan.start.reachDirectory (Path.directoryOf path)).map fun _ => ()) ∧
        ∀ l ∈ plan.start.passedDirectories (Path.directoryOf path),
          w'.tree.find? l = some .directory) w := by
  obtain ⟨hleads, horigin⟩ := h.ending.leads plan.start.directory
  by_cases htaken : Path.directoryOf path = "" ∨
      FileTree.IsTaken (Path.directoryOf path)
  · rw [Workspace.reachDirectory, Workspace.passedDirectories, if_pos htaken, if_pos htaken,
      hleads.steps, ← horigin]
    refine ((h.way htaken).within_makeDirectories hplan hw).mono ?_
    rintro r w' ⟨hw', r', ⟨rfl, hpassed⟩, halike⟩
    exact ⟨hw', halike, hpassed⟩
  · rw [Workspace.reachDirectory, Workspace.passedDirectories, if_neg htaken, if_neg htaken]
    rw [not_or] at htaken
    refine (within_makeDirectories_refused hw htaken.1 htaken.2).mono ?_
    rintro r w' ⟨hw', rfl⟩
    exact ⟨hw', .refl _ _ _, fun l hl => by cases hl⟩

/-- What is there after a file has been tried. -/
structure Holds (plan : Plan) (file : String × String) (w : Workspace) : Prop where
  directories : ∀ l ∈ plan.start.passedDirectories (Path.directoryOf file.1),
    w.tree.find? l = some .directory
  file : ∀ loc, plan.start.placeOf file.1 = .ok loc →
    w.tree.find? loc = some (.file (.text file.2))

theorem Holds.after {file : String × String} (hplan : plan.Sound)
    (htarget : plan.Target file.1 file.2) (hw : plan.UnderWay w) (hmoves : plan.Moves w w')
    (h : plan.Holds file w) : plan.Holds file w' where
  directories := fun l hl => hplan.directory_stays hw hmoves (h.directories l hl)
  file := by
    intro loc hloc
    rcases hmoves loc with hsame | hdone
    · rw [hsame, h.file loc hloc]
    · rw [hdone, hplan.outcome_of_mem (htarget.placed loc hloc)]

/-- What the writing of a file comes to. -/
structure Written (plan : Plan) (path text : String) (result : Except SystemError Unit)
    (w : Workspace) : Prop where
  result : Alike (plan.start.tree.Straight (FileTree.origin plan.start.directory path)
    (Path.stepsAbove path)) (fun _ => ()) result ((plan.start.placeOf path).map fun _ => ())
  holds : plan.Holds (path, text) w

/-- Where a request to put a file leads once its directory has been made. -/
theorem Target.locate_eq (h : plan.Target path text) (hplan : plan.Sound) (hw : plan.UnderWay w)
    {dir : Location} (hreach : plan.start.reachDirectory (Path.directoryOf path) = .ok dir)
    (hpassed : ∀ l ∈ plan.start.passedDirectories (Path.directoryOf path),
      w.tree.find? l = some .directory) (htaken : FileTree.IsTaken path) :
    w.tree.find? dir = some .directory ∧
      w.tree.locate w.directory path =
        if FileTree.nameLimit < ((Path.segments path).getLastD "").utf8ByteSize then
          .error .nameTooLong
        else .ok (FileTree.step dir ((Path.segments path).getLastD "")) := by
  obtain ⟨hleads, horigin⟩ := h.ending.leads plan.start.directory
  obtain ⟨init, s, hsegs, hs, hdot⟩ := h.ending
  have hname : (Path.segments path).getLastD "" = s := by simp [hsegs]
  have hsteps : Path.steps (init ++ [s]) = Path.stepsAbove path ++ [s] := by
    rw [Path.stepsAbove_of_step hsegs hs hdot, Path.steps_concat hs hdot]
  rw [Workspace.reachDirectory] at hreach
  split at hreach
  case isFalse => cases hreach
  case isTrue htaken' =>
    rw [Workspace.passedDirectories, if_pos htaken', hleads.steps, horigin] at hpassed
    rw [hleads.steps, horigin] at hreach
    obtain ⟨hwalk, hdir⟩ :=
      FileTree.walk_of_reach hreach (hplan.directory_of_start hw h.origin) hpassed
    refine ⟨hdir, ?_⟩
    rw [FileTree.locate_of_isTaken htaken, hw.directory, hname, hsegs, FileTree.walk_steps hs hdot,
      hsteps, FileTree.walk_concat, hwalk]
    exact FileTree.follow_of_directory hdir

theorem Target.putFile_cases (h : plan.Target path text) (hplan : plan.Sound)
    (hw : plan.UnderWay w) {dir : Location}
    (hreach : plan.start.reachDirectory (Path.directoryOf path) = .ok dir)
    (hpassed : ∀ l ∈ plan.start.passedDirectories (Path.directoryOf path),
      w.tree.find? l = some .directory) :
    (∃ loc, plan.start.placeOf path = .ok loc ∧ w.tree.locate w.directory path = .ok loc) ∨
      ∃ e, plan.start.placeOf path = .error e ∧
        w.tree.putFile w.directory path (.text text) = .error e := by
  obtain ⟨init, s, hsegs, hs, hdot⟩ := h.ending
  have hname : (Path.segments path).getLastD "" = s := by simp [hsegs]
  rw [Workspace.placeOf_of_ok hreach]
  by_cases htaken : FileTree.IsTaken path
  · obtain ⟨hdir, hlocate⟩ := h.locate_eq hplan hw hreach hpassed htaken
    simp only [htaken, not_true_eq_false, ↓reduceIte]
    by_cases hlong : FileTree.nameLimit < ((Path.segments path).getLastD "").utf8ByteSize
    · rw [if_pos hlong] at hlocate ⊢
      right
      refine ⟨_, rfl, ?_⟩
      rw [FileTree.putFile, hlocate]
      rfl
    · rw [if_neg hlong] at hlocate ⊢
      rw [hname] at hlocate ⊢
      by_cases hup : s = ".."
      · -- The directory above one that is there is there as well.
        have habove : FileTree.step dir s = dir.dropLast := by
          rw [hup]
          rfl
        rw [habove] at hlocate
        rw [if_pos (.inl hup)]
        exact .inr ⟨_, rfl, FileTree.putFile_of_directory hlocate (hw.closed _ _ hdir)⟩
      · have hstep : FileTree.step dir s = dir ++ [s] := by
          rw [FileTree.step, if_neg (by simp [hs, hdot]), if_neg hup]
        rw [hstep] at hlocate
        split
        case isTrue hbad =>
          refine .inr ⟨_, rfl, FileTree.putFile_of_directory hlocate ?_⟩
          rcases hbad with hbad | hbad | hbad
          · exact absurd hbad hup
          · exact hplan.directory_of_start hw hbad
          · exact hpassed _ (List.contains_iff_mem.mp hbad)
        case isFalse => exact .inl ⟨_, rfl, hlocate⟩
  · simp only [htaken, not_false_eq_true, ↓reduceIte]
    right
    refine ⟨_, rfl, ?_⟩
    rw [FileTree.putFile, FileTree.locate_of_not_isTaken htaken]
    rfl

theorem Target.within_putFile (h : plan.Target path text) (hplan : plan.Sound)
    (hw : plan.UnderWay w) {dir : Location}
    (hreach : plan.start.reachDirectory (Path.directoryOf path) = .ok dir)
    (hpassed : ∀ l ∈ plan.start.passedDirectories (Path.directoryOf path),
      w.tree.find? l = some .directory) :
    (Storage.putFile path text : Worker _).Within plan.env
      (fun r w' => plan.UnderWay w' ∧ plan.Written path text r w') w := by
  intro w₁ henv₁ r w₂ hans
  obtain ⟨hw₁, hmoves₁⟩ := henv₁ hw
  have hpassed₁ : ∀ l ∈ plan.start.passedDirectories (Path.directoryOf path),
      w₁.tree.find? l = some .directory :=
    fun l hl => hplan.directory_stays hw hmoves₁ (hpassed l hl)
  have hrun : w₁.update (w₁.tree.putFile w₁.directory path (.text text)) = (r, w₂) :=
    hans.perform_eq (by simp)
  suffices hmade : plan.env.allows w₁ w₂ ∧ plan.Written path text r w₂ by
    refine ⟨hmade.1, fun w₃ henv₃ => ?_⟩
    obtain ⟨hw₂, -⟩ := hmade.1 hw₁
    obtain ⟨hw₃, hmoves₃⟩ := henv₃ hw₂
    exact ⟨hw₃, hmade.2.result, hmade.2.holds.after hplan h hw₂ hmoves₃⟩
  rcases h.putFile_cases hplan hw₁ hreach hpassed₁ with
    ⟨loc, hplace, hlocate⟩ | ⟨e, hplace, hput⟩
  · have hmem := h.placed loc hplace
    have hne := hplan.ne_directory hw₁ hmem
    rw [FileTree.putFile_of_locate hlocate hne] at hrun
    cases hrun
    refine ⟨hplan.allows_file hw₁ hlocate hmem, ?_, ?_, ?_⟩
    · rw [hplace]
      exact .refl _ _ _
    · intro l hl
      exact FileTree.keepsDirectories_put hne l (hpassed₁ l hl)
    · intro loc' hloc'
      rw [hplace, Except.ok.injEq] at hloc'
      change (w₁.tree.put loc _).find? loc' = _
      rw [FileTree.find?_put (FileTree.ne_nil_of_find? hne), if_pos hloc'.symm]
  · rw [hput] at hrun
    cases hrun
    refine ⟨plan.env.refl w₁, ?_, hpassed₁, ?_⟩
    · rw [hplace]
      exact .refl _ _ _
    · intro loc' hloc'
      rw [hplace] at hloc'
      cases hloc'

/-- Whatever others do meanwhile, a file is written as it is written alone, but for the reason where
it cannot be. -/
theorem Target.within_write (h : plan.Target path text) (hplan : plan.Sound)
    (hw : plan.UnderWay w) :
    (Storage.write path text : Worker _).Within plan.env
      (fun r w' => plan.UnderWay w' ∧ plan.Written path text r w') w := by
  refine Worker.Within.bind ((h.within_makeDirectories hplan hw).mono ?_)
  rintro made w₁ ⟨hw₁, ⟨hsame, hexact⟩, hpassed⟩
  -- The directory is made alone exactly if it is made here, so both go on in the same way.
  cases hreach : plan.start.reachDirectory (Path.directoryOf path) with
  | ok dir =>
    rw [hreach] at hsame
    cases made with
    | error e => cases hsame
    | ok => exact h.within_putFile hplan hw₁ hreach hpassed
  | error e₀ =>
    rw [hreach] at hsame hexact
    have hplace := Workspace.placeOf_of_error hreach
    cases made with
    | ok => cases hsame
    | error e =>
      intro w₂ henv₂
      obtain ⟨hw₂, hmoves₂⟩ := henv₂ hw₁
      refine ⟨hw₂, ⟨?_, ?_⟩, ?_, ?_⟩
      · rw [hplace]
        rfl
      · rw [hplace]
        exact hexact
      · intro l hl
        exact hplan.directory_stays hw₁ hmoves₂ (hpassed l hl)
      · intro loc hloc
        rw [hplace] at hloc
        cases hloc

/-- Nothing that has to be made stands in front of a file that is in the way of another one. -/
def Straight (plan : Plan) (files : List (String × String)) : Prop :=
  ∀ file ∈ files, plan.start.tree.Straight (FileTree.origin plan.start.directory file.1)
    (Path.stepsAbove file.1)

theorem within_writeFiles {files : List (String × String)} (hplan : plan.Sound)
    (htargets : ∀ file ∈ plan.start.attempted files, plan.Target file.1 file.2)
    (hw : plan.UnderWay w) :
    (writeFiles files : Worker _).Within plan.env (fun r w' => plan.UnderWay w' ∧
      Alike (plan.Straight files) FailureCause.withoutReason r (plan.start.expectFiles files) ∧
      ∀ file ∈ plan.start.attempted files, plan.Holds file w') w := by
  induction files generalizing w with
  | nil => exact fun w' henv => ⟨(henv hw).1, .refl _ _ _, fun file hfile => by cases hfile⟩
  | cons file files ih =>
    obtain ⟨path, text⟩ := file
    rw [Workspace.attempted] at htargets ⊢
    rw [Workspace.expectFiles]
    have htarget : plan.Target path text := htargets (path, text) List.mem_cons_self
    refine Worker.Within.bind ((htarget.within_write hplan hw).mono ?_)
    rintro written w₁ ⟨hw₁, ⟨hsame, hexact⟩, hholds⟩
    cases hplace : plan.start.placeOf path with
    | ok loc =>
      rw [hplace] at hsame htargets
      cases written with
      | error e => cases hsame
      | ok =>
        have hstable (w w' : Workspace) (henv : plan.env.allows w w')
            (h : plan.UnderWay w ∧ plan.Holds (path, text) w) :
            plan.UnderWay w' ∧ plan.Holds (path, text) w' := by
          obtain ⟨hw', hmoves⟩ := henv h.1
          exact ⟨hw', h.2.after hplan htarget h.1 hmoves⟩
        have hrest := ih (fun file hfile => htargets file (List.mem_cons_of_mem _ hfile)) hw₁
        refine (hrest.keep hstable ⟨hw₁, hholds⟩).mono ?_
        rintro r w₂ ⟨⟨hw₂, ⟨hsame, hexact⟩, hothers⟩, -, hfirst⟩
        refine ⟨hw₂, ⟨hsame, fun hstraight => ?_⟩, ?_⟩
        · exact hexact fun file hfile => hstraight file (List.mem_cons_of_mem _ hfile)
        · intro file hfile
          rcases List.mem_cons.mp hfile with rfl | hfile
          · exact hfirst
          · exact hothers file hfile
    | error e₀ =>
      rw [hplace] at hsame hexact
      cases written with
      | ok => cases hsame
      | error e =>
        intro w₂ henv₂
        obtain ⟨hw₂, hmoves₂⟩ := henv₂ hw₁
        refine ⟨hw₂, ⟨rfl, ?_⟩, ?_⟩
        · intro hstraight
          have he := hexact (hstraight (path, text) List.mem_cons_self)
          cases he
          rfl
        · intro file hfile
          rw [List.mem_singleton.mp hfile]
          exact hholds.after hplan htarget hw₁ hmoves₂

/-- Whatever others do meanwhile, a unit comes to what it comes to alone, but for the reason why a
file cannot be written. -/
theorem within_compileUnit {args : Args} {settings : Settings} {unit : SourceUnit}
    (hplan : plan.Sound)
    (hsource : ∀ w, plan.UnderWay w → w.tree.read w.directory unit.path =
      plan.start.tree.read plan.start.directory unit.path)
    (htargets : ∀ file ∈ plan.start.attempted (plan.start.filesOf args settings unit),
      plan.Target file.1 file.2) (hw : plan.UnderWay w) :
    (compileUnit args settings unit : Worker _).Within plan.env (fun r w' => plan.UnderWay w' ∧
      Alike (plan.Straight (plan.start.filesOf args settings unit)) Failure.withoutReason r
        (plan.start.expectUnit args settings unit) ∧
      ∀ file ∈ plan.start.attempted (plan.start.filesOf args settings unit),
        plan.Holds file w') w := by
  refine Worker.Within.bind ?_
  intro w₁ henv₁ found w₂ hans
  obtain ⟨hw₁, -⟩ := henv₁ hw
  have hrun : (w₁.tree.read w₁.directory unit.path, w₁) = (found, w₂) := hans.perform_eq (by simp)
  cases hrun
  rw [hsource w₁ hw₁]
  refine ⟨plan.env.refl w₁, ?_⟩
  intro w₃ henv₃
  obtain ⟨hw₃, -⟩ := henv₃ hw₁
  have hstop {failure : Failure} (hstop : plan.start.outputOf args settings unit = .error failure) :
      (pure (.error failure) : Worker (Except Failure String)).Within plan.env
        (fun r w' => plan.UnderWay w' ∧
          Alike (plan.Straight (plan.start.filesOf args settings unit)) Failure.withoutReason r
            (plan.start.expectUnit args settings unit) ∧
          ∀ file ∈ plan.start.attempted (plan.start.filesOf args settings unit),
            plan.Holds file w') w₃ := by
    intro w₄ henv₄
    rw [Workspace.filesOf_of_error hstop, Workspace.expectUnit_of_error hstop]
    exact ⟨(henv₄ hw₃).1, .refl _ _ _, fun file hfile => by cases hfile⟩
  cases hread : plan.start.tree.read plan.start.directory unit.path with
  | error e =>
    refine hstop ?_
    rw [Workspace.outputOf, hread]
    rfl
  | ok source =>
    cases hcompile : compile source (unit.options args settings) with
    | error d =>
      simp only [hcompile]
      refine hstop ?_
      rw [Workspace.outputOf, hread]
      change Except.mapError _ (compile _ _) = _
      rw [hcompile]
      rfl
    | ok output =>
      have houtput : plan.start.outputOf args settings unit = .ok output := by
        rw [Workspace.outputOf, hread]
        change Except.mapError _ (compile _ _) = _
        rw [hcompile]
        rfl
      simp only [hcompile]
      rw [Workspace.expectUnit_of_ok houtput]
      rw [Workspace.filesOf_of_ok houtput] at htargets ⊢
      by_cases hstdout : args.stdout = true
      · rw [if_pos hstdout, if_pos hstdout, if_pos hstdout]
        exact fun w₄ henv₄ => ⟨(henv₄ hw₃).1, .refl _ _ _, fun file hfile => by cases hfile⟩
      · rw [if_neg hstdout] at htargets ⊢
        rw [if_neg hstdout, if_neg hstdout]
        refine Worker.Within.bind ((within_writeFiles hplan htargets hw₃).mono ?_)
        rintro written w₄ ⟨hw₄, halike, hholds⟩
        have hresult := halike.map (fun _ => output.moduleAt (unit.outputPath settings))
          (Failure.withoutReason_congr unit.path)
        have hlast (w₅ : Workspace) (henv₅ : plan.env.allows w₄ w₅) :
            plan.UnderWay w₅ ∧ ∀ file ∈ plan.start.attempted
              (output.files (unit.outputPath settings)), plan.Holds file w₅ := by
          obtain ⟨hw₅, hmoves₅⟩ := henv₅ hw₄
          exact ⟨hw₅, fun file hfile =>
            (hholds file hfile).after hplan (htargets file hfile) hw₄ hmoves₅⟩
        cases written with
        | ok => exact fun w₅ henv₅ => ⟨(hlast w₅ henv₅).1, hresult, (hlast w₅ henv₅).2⟩
        | error cause => exact fun w₅ henv₅ => ⟨(hlast w₅ henv₅).1, hresult, (hlast w₅ henv₅).2⟩

end Plan

end Sigil
