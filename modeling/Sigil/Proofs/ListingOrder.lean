import Sigil.Proofs.OutputPaths
import Sigil.Proofs.Workers

namespace Sigil

structure IsOrder {α : Type} (le : α → α → Bool) : Prop where
  total : ∀ a b, (le a b || le b a) = true
  trans : ∀ a b c, le a b = true → le b c = true → le a c = true
  antisymm : ∀ a b, le a b = true → le b a = true → a = b

/-- Compares lists at the first place where they differ. -/
def lexLE {α : Type} [DecidableEq α] (le : α → α → Bool) : List α → List α → Bool
  | [], _ => true
  | _ :: _, [] => false
  | a :: as, b :: bs => if a = b then lexLE le as bs else le a b

namespace IsOrder

variable {α : Type} {le : α → α → Bool}

theorem lex [DecidableEq α] (h : IsOrder le) : IsOrder (lexLE le) where
  total as bs := by
    induction as generalizing bs with
    | nil => rfl
    | cons a as ih =>
      cases bs with
      | nil => rfl
      | cons b bs =>
        by_cases hab : a = b
        · simpa [lexLE, hab] using ih bs
        · simpa [lexLE, hab, Ne.symm hab] using h.total a b
  trans as bs cs hab hbc := by
    induction as generalizing bs cs with
    | nil => rfl
    | cons a as ih =>
      rcases bs with _ | ⟨b, bs⟩
      · cases hab
      rcases cs with _ | ⟨c, cs⟩
      · cases hbc
      rw [lexLE] at hab hbc ⊢
      by_cases heq : a = b
      · subst heq
        rw [if_pos rfl] at hab
        by_cases hac : a = c
        · rw [if_pos hac] at hbc ⊢
          exact ih bs cs hab hbc
        · rwa [if_neg hac] at hbc ⊢
      · rw [if_neg heq] at hab
        by_cases hcb : b = c
        · subst hcb
          rwa [if_neg heq]
        · rw [if_neg hcb] at hbc
          by_cases hac : a = c
          · subst hac
            exact absurd (h.antisymm a b hab hbc) heq
          · rw [if_neg hac]
            exact h.trans a b c hab hbc
  antisymm as bs hab hba := by
    induction as generalizing bs with
    | nil =>
      cases bs with
      | nil => rfl
      | cons b bs => cases hba
    | cons a as ih =>
      cases bs with
      | nil => cases hab
      | cons b bs =>
        rw [lexLE] at hab hba
        by_cases heq : a = b
        · subst heq
          rw [if_pos rfl] at hab hba
          rw [ih bs hab hba]
        · rw [if_neg heq] at hab
          rw [if_neg (Ne.symm heq)] at hba
          exact absurd (h.antisymm a b hab hba) heq

theorem mergeSort_eq_of_perm (h : IsOrder le) {l l' : List α} (hperm : l.Perm l') :
    l.mergeSort le = l'.mergeSort le := by
  have hsorted (l : List α) := List.pairwise_mergeSort h.trans h.total l
  have hsame : (l.mergeSort le).Perm (l'.mergeSort le) :=
    (List.mergeSort_perm l le).trans (hperm.trans (List.mergeSort_perm l' le).symm)
  exact hsame.eq_of_pairwise (fun a b _ _ => h.antisymm a b) (hsorted l) (hsorted l')

end IsOrder

theorem isOrder_textLE : IsOrder textLE := by
  have hchars : IsOrder fun c d : Char => decide (c.toNat ≤ d.toNat) :=
    ⟨by simp [Nat.le_total], by simpa using fun a b c => Nat.le_trans, fun c d hcd hdc =>
      Char.toNat_inj.mp (Nat.le_antisymm (by simpa using hcd) (by simpa using hdc))⟩
  have heq : textLE = lexLE fun c d : Char => decide (c.toNat ≤ d.toNat) := by
    funext cs ds
    induction cs generalizing ds with
    | nil => rfl
    | cons c cs ih =>
      cases ds with
      | nil => rfl
      | cons d ds =>
        rw [textLE, lexLE, ih]
        by_cases hcd : c = d
        · rw [if_pos hcd, if_pos hcd]
        · have hne : c.toNat ≠ d.toNat := fun h => hcd (Char.toNat_inj.mp h)
          simp only [hcd, ↓reduceIte, decide_eq_decide]
          omega
  rw [heq]
  exact hchars.lex

theorem isOrder_namesLE : IsOrder namesLE := by
  have htexts : IsOrder fun a b : String => textLE a.toList b.toList :=
    ⟨fun a b => isOrder_textLE.total _ _, fun a b c => isOrder_textLE.trans _ _ _,
      fun a b hab hba => String.toList_inj.mp (isOrder_textLE.antisymm _ _ hab hba)⟩
  have heq : namesLE = lexLE fun a b : String => textLE a.toList b.toList := by
    funext as bs
    induction as generalizing bs with
    | nil => rfl
    | cons a as ih =>
      cases bs with
      | nil => rfl
      | cons b bs => rw [namesLE, lexLE, ih]
  rw [heq]
  exact htexts.lex

/-- The order in which files are listed does not show in the sources. -/
theorem selectSources_perm {extension : String} {ignore : List Glob}
    {files files' : List (List String)} (h : files.Perm files') :
    selectSources extension ignore files = selectSources extension ignore files' :=
  isOrder_namesLE.mergeSort_eq_of_perm (h.filter _)

/-- Nobody changes anything. -/
def Interference.none : Interference where
  allows w w' := w' = w
  refl _ := rfl
  trans h h' := h'.trans h

namespace Worker

variable {α β : Type} {w w' : Workspace}

/-- However files are listed, a worker comes to `y` and changes nothing. -/
def Gives (w : Workspace) (y : α) (worker : Worker α) : Prop :=
  worker.Within .none (fun r w' => r = y ∧ w' = w) w

theorem gives_pure (w : Workspace) (y : α) : (pure y : Worker α).Gives w y :=
  fun _ h => ⟨rfl, h⟩

theorem Gives.bind {worker : Worker α} {f : α → Worker β} {y : α} {z : β} (h : worker.Gives w y)
    (hf : (f y).Gives w z) : (worker >>= f).Gives w z := by
  refine Within.bind (h.mono ?_)
  rintro r w' ⟨rfl, rfl⟩
  exact hf

theorem Gives.of_steps {worker : Worker α} {y r : α} (h : worker.Gives w y)
    (hsteps : Steps [worker] w [done r] w') : r = y ∧ w' = w := by
  have hdone : Steps [worker] w ([r].map done) w' := hsteps
  have hpool (i : Nat) (x : Worker α) (hi : [worker][i]? = some x) :
      x.Within .none (fun r w' => r = y ∧ w' = w) w := by
    rw [List.mem_singleton.mp (List.mem_of_getElem? hi)]
    exact h
  exact (Within.steps hdone hpool).2 0 r rfl

end Worker

theorem eq_of_checkUnits {args : Args} {settings settings' : Settings}
    {found units : List SourceUnit} (h : checkUnits args settings found = .ok (settings', units)) :
    settings' = settings ∧ units = found := by
  cases found with
  | nil => cases h
  | cons unit others =>
    rw [checkUnits] at h
    · split at h
      · cases h
      · cases h
        exact ⟨rfl, rfl⟩
    · exact List.cons_ne_nil unit others

/-- A program that changes nothing and comes to the same as a worker and alone. -/
structure Inspects {α : Type} (w : Workspace) (y : α) (worker : Worker α)
    (alone : StateM Workspace α) : Prop where
  gives : worker.Gives w y
  run : alone w = (y, w)

section Reading

variable {α β : Type} {w : Workspace}

theorem inspects_pure (w : Workspace) (y : α) : Inspects w y (pure y) (pure y) :=
  ⟨Worker.gives_pure w y, rfl⟩

theorem Inspects.bind {worker : Worker α} {alone : StateM Workspace α} {f : α → Worker β}
    {f' : α → StateM Workspace β} {y : α} {z : β} (h : Inspects w y worker alone)
    (hf : Inspects w z (f y) (f' y)) : Inspects w z (worker >>= f) (alone >>= f') :=
  ⟨h.gives.bind hf.gives, (bind_run h.run).trans hf.run⟩

theorem inspects_request {r : Request} {y : r.Answer} (hr : ∀ path, r ≠ .filesBelow path)
    (h : (r.perform : StateM Workspace _) w = (y, w)) : Inspects w y (.ask r .done) r.perform := by
  refine ⟨?_, h⟩
  rintro _ rfl a w' ha
  have hrun := ha.perform_eq hr
  rw [h] at hrun
  cases hrun
  exact ⟨rfl, Worker.gives_pure _ _⟩

theorem inspects_workingDirectory (w : Workspace) :
    Inspects w w.workingDirectory? Storage.workingDirectory Storage.workingDirectory :=
  inspects_request (r := .workingDirectory) (by simp) rfl

theorem inspects_isDirectory (w : Workspace) (path : String) :
    Inspects w (w.tree.isDirectory w.directory path) (Storage.isDirectory path)
      (Storage.isDirectory path) :=
  inspects_request (r := .isDirectory path) (by simp) rfl

theorem inspects_isFile (w : Workspace) (path : String) :
    Inspects w (w.tree.isFile w.directory path) (Storage.isFile path) (Storage.isFile path) :=
  inspects_request (r := .isFile path) (by simp) rfl

theorem inspects_read (w : Workspace) (path : String) :
    Inspects w (w.tree.read w.directory path) (Storage.read path) (Storage.read path) :=
  inspects_request (r := .read path) (by simp) rfl

theorem inspects_filesBelow {path : String} {f : List (List String) → Worker α}
    {f' : List (List String) → StateM Workspace α} {y : α}
    (h : ∀ files, files.Perm (w.tree.filesBelow w.directory path) →
      Inspects w y (f files) (f' files)) :
    Inspects w y (Storage.filesBelow path >>= f) (Storage.filesBelow path >>= f') := by
  refine ⟨?_, (bind_run rfl).trans (h _ (.refl _)).run⟩
  rintro _ rfl a w' ha
  cases ha with
  | exactly => exact ⟨rfl, (h _ (.refl _)).gives⟩
  | listed hperm => exact ⟨rfl, (h _ hperm).gives⟩

theorem inspects_loadConfig (w : Workspace) (path : String) :
    ∃ config, Inspects w config (loadConfig path) (loadConfig path) := by
  have hread := inspects_read w path
  cases hfound : w.tree.read w.directory path with
  | error reason =>
    rw [hfound] at hread
    exact ⟨_, hread.bind (inspects_pure w _)⟩
  | ok text =>
    rw [hfound] at hread
    cases hconfig : Config.ofText? path text with
    | some config =>
      exact ⟨.ok config, hread.bind (by simpa only [hconfig] using inspects_pure w _)⟩
    | none =>
      exact ⟨.error (.invalid path), hread.bind (by simpa only [hconfig] using inspects_pure w _)⟩

theorem inspects_findConfig (w : Workspace) (dir : String) :
    ∃ config, Inspects w config (findConfig dir) (findConfig dir) := by
  have hfile := inspects_isFile w (Path.join dir Config.defaultName)
  cases hfound : w.tree.isFile w.directory (Path.join dir Config.defaultName) with
  | true =>
    rw [hfound] at hfile
    obtain ⟨config, hconfig⟩ := inspects_loadConfig w (Path.join dir Config.defaultName)
    exact ⟨_, hfile.bind (hconfig.bind (inspects_pure w _))⟩
  | false =>
    rw [hfound] at hfile
    exact ⟨_, hfile.bind (inspects_pure w _)⟩

theorem inspects_chooseConfig (w : Workspace) (args : Args) :
    ∃ config, Inspects w config (chooseConfig args) (chooseConfig args) := by
  rw [chooseConfig, chooseConfig]
  cases args.config? with
  | some path =>
    obtain ⟨config, hconfig⟩ := inspects_loadConfig w path
    exact ⟨_, hconfig.bind (inspects_pure w _)⟩
  | none =>
    have hdir := inspects_workingDirectory w
    cases hfound : w.workingDirectory? with
    | none =>
      rw [hfound] at hdir
      exact ⟨_, hdir.bind (inspects_pure w _)⟩
    | some dir =>
      rw [hfound] at hdir
      obtain ⟨config, hconfig⟩ := inspects_findConfig w dir
      exact ⟨_, hdir.bind (hconfig.bind (inspects_pure w _))⟩

theorem inspects_expand (extension : String) (ignore : List Glob) (input : String) (w : Workspace) :
    Inspects w (w.unitsOf extension ignore input) (expand extension ignore input)
      (expand extension ignore input) := by
  refine (inspects_isDirectory w input).bind ?_
  rw [Workspace.unitsOf]
  by_cases hdir : w.tree.isDirectory w.directory input = true
  · simp only [hdir, ↓reduceIte]
    refine inspects_filesBelow fun files hfiles => ?_
    rw [selectSources_perm hfiles]
    exact inspects_pure w _
  · simp only [hdir]
    refine (inspects_isFile w input).bind ?_
    by_cases hfile : w.tree.isFile w.directory input = true
    · simp only [hfile, ↓reduceIte]
      exact inspects_pure w _
    · simp only [hfile]
      exact inspects_pure w _

theorem inspects_discover (extension : String) (ignore : List Glob) (inputs : List String)
    (w : Workspace) :
    Inspects w ((inputs.mapM (w.unitsOf extension ignore)).map List.flatten)
      (discover extension ignore inputs) (discover extension ignore inputs) := by
  induction inputs with
  | nil => exact inspects_pure w _
  | cons input inputs ih =>
    rw [discover, discover, List.mapM_cons]
    refine (inspects_expand extension ignore input w).bind ?_
    cases w.unitsOf extension ignore input with
    | error e => exact inspects_pure w _
    | ok units =>
      refine ih.bind ?_
      cases inputs.mapM (w.unitsOf extension ignore) with
      | error e => exact inspects_pure w _
      | ok others => exact inspects_pure w _

/-- What a run compiles does not depend on the order in which files are listed. -/
theorem inspects_prepare (args : Args) (w : Workspace) :
    ∃ r, Inspects w r (prepare args) (prepare args) ∧ ∀ settings units, r = .ok (settings, units) →
      ∃ ignore, ((discover settings.extension ignore args.inputs : StateM Workspace _) w).1 =
        .ok units := by
  obtain ⟨config, hconfig⟩ := inspects_chooseConfig w args
  cases config with
  | error e => exact ⟨_, hconfig.bind (inspects_pure w _), by simp⟩
  | ok config =>
    cases hglobs : readGlobs (defaultIgnores ++ (Settings.resolve args config).ignore) with
    | error e =>
      refine ⟨.error e, hconfig.bind ?_, by simp⟩
      simp only [hglobs]
      exact inspects_pure w _
    | ok ignore =>
      obtain ⟨found, hfound⟩ : ∃ found, Inspects w found
          (discover (Settings.resolve args config).extension ignore args.inputs)
          (discover (Settings.resolve args config).extension ignore args.inputs) :=
        ⟨_, inspects_discover _ ignore args.inputs w⟩
      refine ⟨found.bind (checkUnits args (Settings.resolve args config)), hconfig.bind ?_, ?_⟩
      · simp only [hglobs]
        exact hfound.bind (inspects_pure w _)
      · intro settings units h
        cases found with
        | error e => cases h
        | ok found =>
          obtain ⟨rfl, rfl⟩ := eq_of_checkUnits h
          exact ⟨ignore, by rw [hfound.run]⟩

end Reading

end Sigil
