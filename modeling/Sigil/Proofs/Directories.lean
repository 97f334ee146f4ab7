import Sigil.Proofs.FileTrees

namespace Sigil

namespace Path

/-- A path whose last segment leads somewhere. -/
def EndsInStep (path : String) : Prop := ∃ init s, segments path = init ++ [s] ∧ s ≠ "" ∧ s ≠ "."

/-- A path without anything behind its last step, and its steps. -/
structure Leads (path : String) (ss : List String) : Prop where
  steps : steps (segments path) = ss
  ending : path ∈ ["", "/", "."] ∨ EndsInStep path

theorem steps_trim (absolute : Bool) (segs : List String) :
    steps (trim absolute segs).reverse = steps segs.reverse := by
  fun_induction trim absolute segs with
  | case1 => rfl
  | case2 s before h ih =>
    rw [ih]
    rcases h with rfl | ⟨rfl, -⟩ <;> simp [steps]
  | case3 s before h => rfl

theorem steps_concat {init : List String} {s : String} (hs : s ≠ "") (hdot : s ≠ ".") :
    steps (init ++ [s]) = steps init ++ [s] := by
  rw [steps, List.filter_append, List.filter_cons_of_pos (by simp [hs, hdot]), List.filter_nil]
  rfl

theorem leads_parent? {init : List String} {path s : String} (h : segments path = init ++ [s])
    (hs : s ≠ "") (hdot : s ≠ ".") :
    ∃ parent, parent? path = some parent ∧ isAbsolute parent = isAbsolute path ∧
      Leads parent (steps init) := by
  have hparent : parent? path =
      some (ofSegments (isAbsolute path) (trim (isAbsolute path) init.reverse).reverse) := by
    rw [parent?, trimmed_of_step h hs hdot]
  have hsteps := steps_trim (isAbsolute path) init.reverse
  rw [List.reverse_reverse] at hsteps
  refine ⟨_, hparent, ?_⟩
  cases htrim : trim (isAbsolute path) init.reverse with
  | nil =>
    rw [htrim] at hsteps
    rw [← hsteps]
    cases isAbsolute path with
    | true => exact ⟨rfl, by decide, .inl (by decide)⟩
    | false => exact ⟨rfl, by decide, .inl (by decide)⟩
  | cons x before =>
    obtain ⟨hx, hdots⟩ := head_trim htrim
    rw [htrim, List.reverse_cons] at hsteps
    rw [List.reverse_cons, ← hsteps]
    have hspells : Spells (isAbsolute path) (before.reverse ++ [x]) := by
      obtain ⟨dropped, hdropped⟩ := trim_suffix (isAbsolute path) init.reverse
      have hinit : init = (before.reverse ++ [x]) ++ dropped.reverse := by
        rw [← List.reverse_reverse init, ← hdropped, htrim]
        simp
      have hall := spells_segments path
      rw [h, hinit, List.append_assoc] at hall
      exact hall.of_append (by simp)
    have hsegs := hspells.segments_ofSegments
    refine ⟨hspells.isAbsolute_ofSegments, by rw [hsegs], ?_⟩
    by_cases hxdot : x = "."
    · obtain ⟨habs, hbefore⟩ := hdots hxdot
      rw [habs, hbefore, hxdot]
      exact .inl (by decide)
    · exact .inr ⟨before.reverse, x, hsegs, hx, hxdot⟩

end Path

namespace FileTree

section Walking

variable {tree : FileTree} {l loc : Location} {s : String} {segs : List String} {content : Content}

theorem walk_cons :
    tree.walk loc (s :: segs) = tree.follow loc s >>= fun mid => tree.walk mid segs :=
  List.foldlM_cons

theorem walk_cons_of_directory (h : tree.find? loc = some .directory) :
    tree.walk loc (s :: segs) =
      if nameLimit < s.utf8ByteSize then .error .nameTooLong
      else tree.walk (step loc s) segs := by
  rw [walk_cons, follow_of_directory h]
  split <;> rfl

theorem walk_of_none (h : tree.find? loc = none) (hsegs : segs ≠ []) :
    tree.walk loc segs = .error .notFound := by
  cases segs with
  | nil => exact absurd rfl hsegs
  | cons s segs =>
    rw [walk_cons, follow_of_none h]
    rfl

theorem walk_of_file (h : tree.find? loc = some (.file content)) (hsegs : segs ≠ []) :
    tree.walk loc segs = .error .notADirectory := by
  cases segs with
  | nil => exact absurd rfl hsegs
  | cons s segs =>
    rw [walk_cons, follow_of_file h]
    rfl

theorem directory_of_walk (h : tree.walk loc segs = .ok l) (hsegs : segs ≠ []) :
    tree.find? loc = some .directory := by
  rcases hfind : tree.find? loc with _ | ⟨_ | content⟩
  · rw [walk_of_none hfind hsegs] at h
    cases h
  · rfl
  · rw [walk_of_file hfind hsegs] at h
    cases h

theorem walk_of_walk_cons (h : tree.walk loc (s :: segs) = .ok l) :
    tree.walk (step loc s) segs = .ok l := by
  rw [walk_cons_of_directory (directory_of_walk h (List.cons_ne_nil s segs))] at h
  split at h
  · cases h
  · exact h

/-- Segments that lead nowhere else change nothing in front of one that does. -/
theorem walk_steps {init : List String} (hs : s ≠ "") (hdot : s ≠ ".") :
    tree.walk loc (init ++ [s]) = tree.walk loc (Path.steps (init ++ [s])) := by
  induction init generalizing loc with
  | nil => simp [Path.steps, hs, hdot]
  | cons t init ih =>
    have hne : Path.steps (init ++ [s]) ≠ [] := by simp [Path.steps, hs, hdot]
    by_cases hstay : t = "" ∨ t = "."
    · have hdrop : Path.steps (t :: init ++ [s]) = Path.steps (init ++ [s]) := by
        rcases hstay with rfl | rfl <;> simp [Path.steps]
      have hshort : ¬nameLimit < t.utf8ByteSize := by
        rcases hstay with rfl | rfl <;> decide
      rw [hdrop, List.cons_append]
      rcases hfind : tree.find? loc with _ | ⟨_ | content⟩
      · rw [walk_of_none hfind (List.cons_ne_nil _ _), walk_of_none hfind hne]
      · rw [walk_cons_of_directory hfind, if_neg hshort, step, if_pos hstay, ih]
      · rw [walk_of_file hfind (List.cons_ne_nil _ _), walk_of_file hfind hne]
    · have hkeep : Path.steps (t :: init ++ [s]) = t :: Path.steps (init ++ [s]) := by
        rw [not_or] at hstay
        simp [Path.steps, hstay]
      rw [hkeep, List.cons_append, walk_cons, walk_cons]
      simp only [ih]

end Walking

/-- The locations that steps lead through if all is there. -/
def visits (loc : Location) : List String → List Location
  | [] => []
  | s :: ss => step loc s :: visits (step loc s) ss

/-- Where steps lead if all is there. -/
def land (loc : Location) (ss : List String) : Location := ss.foldl step loc

theorem visits_append (loc : Location) (ss ss' : List String) :
    visits loc (ss ++ ss') = visits loc ss ++ visits (land loc ss) ss' := by
  induction ss generalizing loc with
  | nil => rfl
  | cons s ss ih =>
    rw [List.cons_append, visits, visits, ih]
    rfl

theorem walk_eq_land {tree : FileTree} {l loc : Location} {ss : List String}
    (h : tree.walk loc ss = .ok l) : l = land loc ss := by
  induction ss using List.reverseRecOn generalizing l with
  | nil =>
    cases h
    rfl
  | append_singleton ss s ih =>
    obtain ⟨mid, hmid, hlast⟩ := walk_concat_eq_ok_iff.mp h
    obtain ⟨-, -, rfl⟩ := follow_eq_ok_iff.mp hlast
    rw [ih hmid, land, land, List.foldl_append]
    rfl

theorem land_append (loc : Location) (ss ss' : List String) :
    land loc (ss ++ ss') = land (land loc ss) ss' := List.foldl_append

theorem land_steps (loc : Location) (segs : List String) :
    land loc (Path.steps segs) = land loc segs := by
  induction segs generalizing loc with
  | nil => rfl
  | cons s segs ih =>
    by_cases hstay : s = "" ∨ s = "."
    · have hdrop : Path.steps (s :: segs) = Path.steps segs := by
        rcases hstay with rfl | rfl <;> simp [Path.steps]
      have hhere : land loc (s :: segs) = land loc segs := by
        rw [land, List.foldl_cons, step, if_pos hstay]
        rfl
      rw [hdrop, hhere, ih]
    · have hkeep : Path.steps (s :: segs) = s :: Path.steps segs := by
        rw [not_or] at hstay
        simp [Path.steps, hstay]
      rw [hkeep]
      exact ih (step loc s)

theorem land_names {loc : Location} {names : List String} (h : ∀ s ∈ names, Path.IsName s) :
    land loc names = loc ++ names := by
  induction names generalizing loc with
  | nil => exact (List.append_nil loc).symm
  | cons s names ih =>
    change land (step loc s) names = _
    rw [step_name (h s (by simp)), ih fun t ht => h t (by simp [ht]), List.append_assoc]
    rfl

theorem prefix_of_mem_visits {l loc : Location} {names : List String}
    (h : ∀ s ∈ names, Path.IsName s) (hl : l ∈ visits loc names) : l <+: loc ++ names := by
  induction names generalizing loc with
  | nil => cases hl
  | cons s names ih =>
    rw [visits, step_name (h s (by simp))] at hl
    have hall : loc ++ s :: names = (loc ++ [s]) ++ names := by simp
    rw [hall]
    rcases List.mem_cons.mp hl with rfl | hl
    · exact List.prefix_append _ _
    · exact ih (fun t ht => h t (by simp [ht])) hl

def hasFile (tree : FileTree) (loc : Location) : Bool :=
  match tree.find? loc with
  | some (.file _) => true
  | _ => false

theorem hasFile_iff {tree : FileTree} {loc : Location} :
    tree.hasFile loc = true ↔ ∃ content, tree.find? loc = some (.file content) := by
  rw [hasFile]
  rcases tree.find? loc with _ | ⟨_ | content⟩ <;> simp

/-- One step on the way to a directory that is made where it is missing. -/
def pass (tree : FileTree) (last : Bool) (loc : Location) (s : String) :
    Except SystemError Location :=
  if nameLimit < s.utf8ByteSize then .error .nameTooLong
  else if tree.hasFile (step loc s) then
    .error (if last then .alreadyExists else .notADirectory)
  else .ok (step loc s)

/-- Where the way to such a directory ends: only files and long names stop it. -/
def reach (tree : FileTree) (loc : Location) : List String → Except SystemError Location
  | [] => .ok loc
  | s :: ss =>
    match tree.pass ss.isEmpty loc s with
    | .ok next => tree.reach next ss
    | .error e => .error e

/-- What is a directory after the way to one has been made as far as it goes. -/
def passed (tree : FileTree) (loc : Location) : List String → List Location
  | [] => []
  | s :: ss =>
    match tree.pass ss.isEmpty loc s with
    | .ok next => next :: tree.passed next ss
    | .error _ => []

section Reaching

variable {tree tree' : FileTree} {l loc mid : Location} {s : String} {ss : List String}
  {e : SystemError} {last : Bool}

theorem pass_cases (tree : FileTree) (last : Bool) (loc : Location) (s : String) :
    (nameLimit < s.utf8ByteSize ∧ tree.pass last loc s = .error .nameTooLong) ∨
      (¬nameLimit < s.utf8ByteSize ∧ tree.hasFile (step loc s) = true ∧
        tree.pass last loc s = .error (if last then .alreadyExists else .notADirectory)) ∨
      (¬nameLimit < s.utf8ByteSize ∧ tree.hasFile (step loc s) = false ∧
        tree.pass last loc s = .ok (step loc s)) := by
  rw [pass]
  by_cases hlong : nameLimit < s.utf8ByteSize
  · exact .inl ⟨hlong, if_pos hlong⟩
  · rw [if_neg hlong]
    cases hfile : tree.hasFile (step loc s) with
    | true => exact .inr (.inl ⟨hlong, rfl, rfl⟩)
    | false => exact .inr (.inr ⟨hlong, rfl, rfl⟩)

theorem reach_cons_of_ok (h : tree.pass ss.isEmpty loc s = .ok l) :
    tree.reach loc (s :: ss) = tree.reach l ss ∧
      tree.passed loc (s :: ss) = l :: tree.passed l ss := by
  rw [reach, passed, h]
  exact ⟨rfl, rfl⟩

theorem reach_cons_of_error (h : tree.pass ss.isEmpty loc s = .error e) :
    tree.reach loc (s :: ss) = .error e ∧ tree.passed loc (s :: ss) = [] := by
  rw [reach, passed, h]
  exact ⟨rfl, rfl⟩

/-- Two trees with files at the same ones of some locations. -/
def FilesAlike (tree tree' : FileTree) (locs : List Location) : Prop :=
  ∀ l ∈ locs, tree'.hasFile l = tree.hasFile l

theorem hasFile_of_directory (h : tree.find? loc = some .directory) :
    tree.hasFile loc = false := by
  rw [hasFile, h]

theorem FilesAlike.cons (h : tree.FilesAlike tree' (visits loc (s :: ss))) :
    tree'.hasFile (step loc s) = tree.hasFile (step loc s) ∧
      tree.FilesAlike tree' (visits (step loc s) ss) :=
  ⟨h _ (by simp [visits]), fun l hl => h l (by simp [visits, hl])⟩

theorem directory_of_walk_to_directory (h : tree.walk loc ss = .ok l)
    (hl : tree.find? l = some .directory) : tree.find? loc = some .directory := by
  cases ss with
  | nil =>
    cases h
    exact hl
  | cons s ss => exact directory_of_walk h (List.cons_ne_nil s ss)

/-- A way that can be gone to its end is one that only has to be made. -/
theorem reach_of_walk (h : tree'.walk loc ss = .ok l) (hl : tree'.find? l = some .directory)
    (halike : tree.FilesAlike tree' (visits loc ss)) :
    tree.reach loc ss = .ok l ∧ ∀ p ∈ tree.passed loc ss, tree'.find? p = some .directory := by
  induction ss generalizing loc with
  | nil =>
    cases h
    exact ⟨rfl, fun p hp => by cases hp⟩
  | cons s ss ih =>
    have hdir := directory_of_walk_to_directory h hl
    rw [walk_cons_of_directory hdir] at h
    split at h
    · cases h
    · have hnext := directory_of_walk_to_directory h hl
      obtain ⟨hfile, halike⟩ := halike.cons
      rw [hasFile_of_directory hnext] at hfile
      obtain ⟨hreach, hpassed⟩ := ih h halike
      rcases tree.pass_cases ss.isEmpty loc s with
        ⟨hlong, -⟩ | ⟨-, hfile', -⟩ | ⟨-, -, hpass⟩
      · contradiction
      · rw [← hfile] at hfile'
        cases hfile'
      · obtain ⟨hreach', hpassed'⟩ := reach_cons_of_ok hpass
        rw [hreach', hpassed']
        refine ⟨hreach, ?_⟩
        intro p hp
        rcases List.mem_cons.mp hp with rfl | hp
        · exact hnext
        · exact hpassed p hp

/-- A way that has been made can be gone. -/
theorem walk_of_reach (h : tree.reach loc ss = .ok l) (hdir : tree'.find? loc = some .directory)
    (hpassed : ∀ p ∈ tree.passed loc ss, tree'.find? p = some .directory) :
    tree'.walk loc ss = .ok l ∧ tree'.find? l = some .directory := by
  induction ss generalizing loc with
  | nil =>
    cases h
    exact ⟨rfl, hdir⟩
  | cons s ss ih =>
    rcases tree.pass_cases ss.isEmpty loc s with
      ⟨-, hpass⟩ | ⟨-, -, hpass⟩ | ⟨hshort, -, hpass⟩
    · rw [(reach_cons_of_error hpass).1] at h
      cases h
    · rw [(reach_cons_of_error hpass).1] at h
      cases h
    · obtain ⟨hreach, hlocs⟩ := reach_cons_of_ok hpass
      rw [hreach] at h
      rw [hlocs] at hpassed
      rw [walk_cons_of_directory hdir, if_neg hshort]
      exact ih h (hpassed _ (by simp)) (fun p hp => hpassed p (by simp [hp]))

/-- What stops a walk other than a directory that is missing stops the making of directories. -/
theorem reach_of_walk_error (h : tree'.walk loc ss = .error e) (he : e ≠ .notFound)
    (hdir : tree'.find? loc = some .directory)
    (halike : tree.FilesAlike tree' (visits loc ss)) :
    tree.reach loc ss = .error e ∧ ∀ p ∈ tree.passed loc ss, tree'.find? p = some .directory := by
  induction ss generalizing loc with
  | nil => cases h
  | cons s ss ih =>
    rw [walk_cons_of_directory hdir] at h
    obtain ⟨hfile, halike⟩ := halike.cons
    rcases tree.pass_cases ss.isEmpty loc s with
      ⟨hlong, hpass⟩ | ⟨hshort, hfile', hpass⟩ | ⟨hshort, hfile', hpass⟩
    · rw [if_pos hlong] at h
      cases h
      obtain ⟨hreach, hlocs⟩ := reach_cons_of_error hpass
      rw [hreach, hlocs]
      exact ⟨rfl, fun p hp => by cases hp⟩
    · rw [if_neg hshort] at h
      rw [hfile'] at hfile
      obtain ⟨content, hcontent⟩ := hasFile_iff.mp hfile
      have hsegs : ss ≠ [] := by
        rintro rfl
        cases h
      rw [walk_of_file hcontent hsegs] at h
      cases h
      obtain ⟨hreach, hlocs⟩ := reach_cons_of_error hpass
      rw [hreach, hlocs]
      refine ⟨?_, fun p hp => by cases hp⟩
      cases ss with
      | nil => exact absurd rfl hsegs
      | cons t ss => rfl
    · rw [if_neg hshort] at h
      rw [hfile'] at hfile
      rcases hnext : tree'.find? (step loc s) with _ | ⟨_ | content⟩
      · have hsegs : ss ≠ [] := by
          rintro rfl
          cases h
        rw [walk_of_none hnext hsegs] at h
        cases h
        exact absurd rfl he
      · obtain ⟨hreach, hpassed⟩ := ih h hnext halike
        obtain ⟨hreach', hlocs⟩ := reach_cons_of_ok hpass
        rw [hreach', hlocs]
        refine ⟨hreach, ?_⟩
        intro p hp
        rcases List.mem_cons.mp hp with rfl | hp
        · exact hnext
        · exact hpassed p hp
      · rw [hasFile_iff.mpr ⟨content, hnext⟩] at hfile
        cases hfile

/-- A file that stands behind directories only is not missed. -/
theorem walk_ne_notFound (h : tree.reach loc ss = .error e) (he : e ≠ .nameTooLong)
    (hdir : tree'.find? loc = some .directory)
    (hpassed : ∀ p ∈ tree.passed loc ss, tree'.find? p = some .directory)
    (halike : tree.FilesAlike tree' (visits loc ss)) : tree'.walk loc ss ≠ .error .notFound := by
  induction ss generalizing loc with
  | nil => cases h
  | cons s ss ih =>
    obtain ⟨hfile, halike⟩ := halike.cons
    rw [walk_cons_of_directory hdir]
    rcases tree.pass_cases ss.isEmpty loc s with
      ⟨-, hpass⟩ | ⟨hshort, hfile', -⟩ | ⟨hshort, -, hpass⟩
    · rw [(reach_cons_of_error hpass).1] at h
      cases h
      exact absurd rfl he
    · rw [if_neg hshort]
      rw [hfile'] at hfile
      obtain ⟨content, hcontent⟩ := hasFile_iff.mp hfile
      cases ss with
      | nil => exact fun hok => by cases hok
      | cons t ss =>
        rw [walk_of_file hcontent (List.cons_ne_nil t ss)]
        exact fun hne => by cases hne
    · obtain ⟨hreach, hlocs⟩ := reach_cons_of_ok hpass
      rw [hreach] at h
      rw [hlocs] at hpassed
      rw [if_neg hshort]
      exact ih h (hpassed _ (by simp)) (fun p hp => hpassed p (by simp [hp])) halike

theorem pass_eq_ok_of_pass {last' : Bool} (h : tree.pass last loc s = .ok l) :
    tree.pass last' loc s = .ok l := by
  rcases tree.pass_cases last loc s with ⟨-, hpass⟩ | ⟨-, -, hpass⟩ | ⟨hshort, hfile, hpass⟩
  · rw [hpass] at h
    cases h
  · rw [hpass] at h
    cases h
  · rw [hpass] at h
    cases h
    rw [pass, if_neg hshort, hfile]
    rfl

theorem reach_concat_of_ok (h : tree.reach loc ss = .ok mid) :
    tree.reach loc (ss ++ [s]) = tree.pass true mid s ∧
      (∀ next, tree.pass true mid s = .ok next →
        tree.passed loc (ss ++ [s]) = tree.passed loc ss ++ [next]) ∧
      ∀ e, tree.pass true mid s = .error e →
        tree.passed loc (ss ++ [s]) = tree.passed loc ss := by
  induction ss generalizing loc with
  | nil =>
    cases h
    rw [List.nil_append]
    refine ⟨?_, fun next hnext => (reach_cons_of_ok hnext).2,
      fun e he => (reach_cons_of_error he).2⟩
    cases hpass : tree.pass true mid s with
    | ok next => exact (reach_cons_of_ok hpass).1
    | error e => exact (reach_cons_of_error hpass).1
  | cons t ss ih =>
    cases hpass : tree.pass ss.isEmpty loc t with
    | error e =>
      rw [(reach_cons_of_error hpass).1] at h
      cases h
    | ok next =>
      obtain ⟨hreach, hlocs⟩ := reach_cons_of_ok hpass
      have hpass' : tree.pass (ss ++ [s]).isEmpty loc t = .ok next := pass_eq_ok_of_pass hpass
      obtain ⟨hreach', hlocs'⟩ := reach_cons_of_ok hpass'
      rw [hreach] at h
      obtain ⟨hlast, hmore, hstop⟩ := ih h
      rw [List.cons_append, hreach', hlocs', hlocs]
      refine ⟨hlast, ?_, ?_⟩
      · intro l hl
        rw [hmore l hl]
        rfl
      · intro e he
        rw [hstop e he]

theorem reach_concat_of_error (h : tree.reach loc ss = .error e) :
    ∃ e', tree.reach loc (ss ++ [s]) = .error e' ∧
      tree.passed loc (ss ++ [s]) = tree.passed loc ss ∧
      (e = .nameTooLong ↔ e' = .nameTooLong) := by
  induction ss generalizing loc with
  | nil => cases h
  | cons t ss ih =>
    rcases tree.pass_cases ss.isEmpty loc t with
      ⟨hlong, hpass⟩ | ⟨hshort, hfile, hpass⟩ | ⟨hshort, hfile, hpass⟩
    · have hpass' : tree.pass (ss ++ [s]).isEmpty loc t = .error .nameTooLong := if_pos hlong
      rw [(reach_cons_of_error hpass).1] at h
      cases h
      obtain ⟨hreach, hlocs⟩ := reach_cons_of_error hpass'
      exact ⟨_, hreach, hlocs.trans (reach_cons_of_error hpass).2.symm, Iff.rfl⟩
    · have hpass' : tree.pass (ss ++ [s]).isEmpty loc t = .error .notADirectory := by
        rw [pass, if_neg hshort, hfile]
        simp
      rw [(reach_cons_of_error hpass).1] at h
      cases h
      obtain ⟨hreach, hlocs⟩ := reach_cons_of_error hpass'
      refine ⟨_, hreach, hlocs.trans (reach_cons_of_error hpass).2.symm, ?_⟩
      cases ss.isEmpty <;> simp
    · have hpass' : tree.pass (ss ++ [s]).isEmpty loc t = .ok (step loc t) :=
        pass_eq_ok_of_pass hpass
      obtain ⟨hreach, hlocs⟩ := reach_cons_of_ok hpass
      obtain ⟨hreach', hlocs'⟩ := reach_cons_of_ok hpass'
      rw [hreach] at h
      obtain ⟨e', he', hpassed, hiff⟩ := ih h
      exact ⟨e', hreach'.trans he', by rw [List.cons_append, hlocs', hlocs, hpassed], hiff⟩

theorem passed_subset_concat : tree.passed loc ss ⊆ tree.passed loc (ss ++ [s]) := by
  cases hreach : tree.reach loc ss with
  | error e =>
    obtain ⟨-, -, hpassed, -⟩ := reach_concat_of_error (s := s) hreach
    rw [hpassed]
    exact List.Subset.refl _
  | ok mid =>
    obtain ⟨-, hmore, hstop⟩ := reach_concat_of_ok (s := s) hreach
    cases hpass : tree.pass true mid s with
    | error e =>
      rw [hstop e hpass]
      exact List.Subset.refl _
    | ok next =>
      rw [hmore next hpass]
      exact List.subset_append_left _ _

theorem reach_ne_notFound : tree.reach loc ss ≠ .error .notFound := by
  induction ss generalizing loc with
  | nil => exact fun h => by cases h
  | cons s ss ih =>
    rcases tree.pass_cases ss.isEmpty loc s with
      ⟨-, hpass⟩ | ⟨-, -, hpass⟩ | ⟨-, -, hpass⟩
    · rw [(reach_cons_of_error hpass).1]
      exact fun h => by cases h
    · rw [(reach_cons_of_error hpass).1]
      cases ss.isEmpty <;> exact fun h => by cases h
    · rw [(reach_cons_of_ok hpass).1]
      exact ih

theorem land_of_reach (h : tree.reach loc ss = .ok l) :
    l = land loc ss ∧ tree.passed loc ss = visits loc ss := by
  induction ss generalizing loc with
  | nil =>
    cases h
    exact ⟨rfl, rfl⟩
  | cons s ss ih =>
    rcases tree.pass_cases ss.isEmpty loc s with
      ⟨-, hpass⟩ | ⟨-, -, hpass⟩ | ⟨-, -, hpass⟩
    · rw [(reach_cons_of_error hpass).1] at h
      cases h
    · rw [(reach_cons_of_error hpass).1] at h
      cases h
    · obtain ⟨hreach, hpassed⟩ := reach_cons_of_ok hpass
      rw [hreach] at h
      obtain ⟨hland, hvisits⟩ := ih h
      rw [hpassed, hvisits, hland]
      exact ⟨rfl, rfl⟩

/-- A walk to a directory visits nothing but directories. -/
theorem directory_of_mem_visits (h : tree.walk loc ss = .ok l)
    (hl : tree.find? l = some .directory) (hmid : mid ∈ visits loc ss) :
    tree.find? mid = some .directory := by
  obtain ⟨hreach, hpassed⟩ := reach_of_walk h hl fun _ _ => rfl
  rw [(land_of_reach hreach).2] at hpassed
  exact hpassed mid hmid

/-- A file in the way stands behind nothing that has to be made. -/
def Straight (tree : FileTree) (loc : Location) (ss : List String) : Prop :=
  ∀ e, tree.reach loc ss = .error e → e ≠ .nameTooLong →
    ∀ p ∈ tree.passed loc ss, tree.find? p = some .directory

theorem Straight.of_concat (h : tree.Straight loc (ss ++ [s])) : tree.Straight loc ss := by
  intro e he hne
  obtain ⟨e', he', hpassed, hiff⟩ := reach_concat_of_error (s := s) he
  rw [← hpassed]
  exact h e' he' (fun heq => hne (hiff.mpr heq))

theorem Straight.cons (h : tree.Straight (step loc s) ss)
    (hdir : tree.find? (step loc s) = some .directory) : tree.Straight loc (s :: ss) := by
  intro e he hne
  rcases tree.pass_cases ss.isEmpty loc s with
    ⟨-, hpass⟩ | ⟨-, hfile, -⟩ | ⟨-, -, hpass⟩
  · rw [(reach_cons_of_error hpass).1] at he
    cases he
    exact absurd rfl hne
  · rw [hasFile_of_directory hdir] at hfile
    cases hfile
  · obtain ⟨hreach, hpassed⟩ := reach_cons_of_ok hpass
    rw [hreach] at he
    rw [hpassed]
    intro p hp
    rcases List.mem_cons.mp hp with rfl | hp
    · exact hdir
    · exact h e he hne p hp

/-- Nothing stands below what is not there. -/
theorem Closed.reach_of_none (hclosed : tree.Closed) (hnames : ∀ s ∈ ss, Path.IsName s)
    (hnone : tree.find? loc = none) (h : tree.reach loc ss = .error e) : e = .nameTooLong := by
  induction ss generalizing loc with
  | nil => cases h
  | cons s ss ih =>
    have hbelow : tree.find? (step loc s) = none := by
      rw [step_name (hnames s (by simp))]
      rcases hfind : tree.find? (loc ++ [s]) with _ | entry
      · rfl
      · have habove := hclosed _ _ hfind
        rw [List.dropLast_concat, hnone] at habove
        cases habove
    rcases tree.pass_cases ss.isEmpty loc s with
      ⟨-, hpass⟩ | ⟨-, hfile, -⟩ | ⟨-, -, hpass⟩
    · rw [(reach_cons_of_error hpass).1] at h
      cases h
      rfl
    · rw [hasFile, hbelow] at hfile
      cases hfile
    · rw [(reach_cons_of_ok hpass).1] at h
      exact ih (fun t ht => hnames t (by simp [ht])) hbelow h

theorem Closed.straight_names (hclosed : tree.Closed) (hnames : ∀ s ∈ ss, Path.IsName s) :
    tree.Straight loc ss := by
  induction ss generalizing loc with
  | nil => exact fun e he => by cases he
  | cons s ss ih =>
    have hrest (t : String) (ht : t ∈ ss) : Path.IsName t := hnames t (by simp [ht])
    rcases hfind : tree.find? (step loc s) with _ | ⟨_ | content⟩
    · intro e he hne
      rcases tree.pass_cases ss.isEmpty loc s with
        ⟨-, hpass⟩ | ⟨-, hfile, -⟩ | ⟨-, -, hpass⟩
      · rw [(reach_cons_of_error hpass).1] at he
        cases he
        exact absurd rfl hne
      · rw [hasFile, hfind] at hfile
        cases hfile
      · rw [(reach_cons_of_ok hpass).1] at he
        exact absurd (hclosed.reach_of_none hrest hfind he) hne
    · exact (ih hrest).cons hfind
    · intro e he hne p hp
      rcases tree.pass_cases ss.isEmpty loc s with
        ⟨-, hpass⟩ | ⟨-, -, hpass⟩ | ⟨-, hfile, -⟩
      · rw [(reach_cons_of_error hpass).2] at hp
        cases hp
      · rw [(reach_cons_of_error hpass).2] at hp
        cases hp
      · rw [hasFile_iff.mpr ⟨content, hfind⟩] at hfile
        cases hfile

/-- Where all that stands before a step up is there, only missing directories follow each other. -/
theorem Closed.straight_of_settled {lead names : List String} (hclosed : tree.Closed)
    (hlead : ∀ s ∈ lead, s = ".." ∨ Path.IsName s) (hnames : ∀ s ∈ names, Path.IsName s)
    (hsettled : ∀ before after, lead = before ++ ".." :: after →
      ∃ l, tree.walk loc (before ++ [".."]) = .ok l ∧ tree.find? l = some .directory) :
    tree.Straight loc (lead ++ names) := by
  induction lead generalizing loc with
  | nil => exact hclosed.straight_names hnames
  | cons s lead ih =>
    have hrest (t : String) (ht : t ∈ lead) : t = ".." ∨ Path.IsName t := hlead t (by simp [ht])
    by_cases hup : ".." ∈ s :: lead
    · refine Straight.cons (ih hrest ?_) ?_
      · intro before after hsplit
        obtain ⟨l, hwalk, hl⟩ := hsettled (s :: before) after (by rw [hsplit, List.cons_append])
        exact ⟨l, walk_of_walk_cons hwalk, hl⟩
      · -- The first step is one of those in front of the step up, or that step itself.
        obtain ⟨before, after, hsplit⟩ := List.append_of_mem hup
        obtain ⟨l, hwalk, hl⟩ := hsettled before after hsplit
        cases before with
        | nil =>
          cases hsplit
          exact directory_of_walk_to_directory (walk_of_walk_cons hwalk) hl
        | cons t before =>
          cases hsplit
          exact directory_of_walk_to_directory (walk_of_walk_cons hwalk) hl
    · refine hclosed.straight_names fun t ht => ?_
      rcases List.mem_append.mp ht with ht | ht
      · exact (hlead t ht).resolve_left fun heq => hup (heq ▸ ht)
      · exact hnames t ht

end Reaching

end FileTree

end Sigil
