import Mathlib.Data.List.Pairwise
import Sigil.Proofs.OutputPaths
import Sigil.Proofs.UnitPlans

namespace Sigil

namespace FileTree

variable {tree tree' : FileTree} {loc : Location} {segs : List String}

theorem KeepsDirectories.walk_nameTooLong (h : tree.KeepsDirectories tree')
    (hwalk : tree.walk loc segs = .error .nameTooLong) :
    tree'.walk loc segs = .error .nameTooLong := by
  induction segs generalizing loc with
  | nil => cases hwalk
  | cons s segs ih =>
    rcases hfind : tree.find? loc with _ | ⟨_ | content⟩
    · rw [walk_of_none hfind (List.cons_ne_nil s segs)] at hwalk
      cases hwalk
    · rw [walk_cons_of_directory hfind] at hwalk
      rw [walk_cons_of_directory (h loc hfind)]
      split
      · rfl
      case isFalse hshort =>
        rw [if_neg hshort] at hwalk
        exact ih hwalk
    · rw [walk_of_file hfind (List.cons_ne_nil s segs)] at hwalk
      cases hwalk

theorem walk_append {segs' : List String} :
    tree.walk loc (segs ++ segs') = tree.walk loc segs >>= fun mid => tree.walk mid segs' :=
  List.foldlM_append

/-- A slash at the end of a path to a directory changes nothing. -/
theorem walk_joinLead {base l : Location} {path : String} (h : tree.locate base path = .ok l) :
    tree.walk (origin base path) (Path.joinLead path) = .ok l := by
  have hwalk := walk_of_locate h
  rcases Path.segments_eq_joinLead path with hsegs | hsegs
  · rwa [hsegs] at hwalk
  · rw [hsegs, walk_concat_eq_ok_iff] at hwalk
    obtain ⟨mid, hmid, hlast⟩ := hwalk
    obtain ⟨-, -, rfl⟩ := follow_eq_ok_iff.mp hlast
    exact hmid

theorem Closed.directory_of_append {names : List String} {e : Entry} (h : tree.Closed)
    (hne : names ≠ []) (hfind : tree.find? (loc ++ names) = some e) :
    tree.find? loc = some .directory := by
  induction names using List.reverseRecOn generalizing e with
  | nil => exact absurd rfl hne
  | append_singleton names s ih =>
    have habove := h _ _ hfind
    rw [← List.append_assoc, List.dropLast_concat] at habove
    by_cases hnil : names = []
    · rwa [hnil, List.append_nil] at habove
    · exact ih hnil habove

/-- Names lead to what is there, if none of them is too long. -/
theorem Closed.walk_names {names : List String} {e : Entry} (h : tree.Closed)
    (hnames : ∀ s ∈ names, Path.IsName s) (hdir : tree.find? loc = some .directory)
    (hfind : tree.find? (loc ++ names) = some e) :
    tree.walk loc names = .ok (loc ++ names) ∨ tree.walk loc names = .error .nameTooLong := by
  induction names generalizing loc with
  | nil => exact .inl (by rw [List.append_nil]; rfl)
  | cons s names ih =>
    rw [walk_cons_of_directory hdir, step_name (hnames s (by simp))]
    split
    · exact .inr rfl
    · have hall : loc ++ s :: names = (loc ++ [s]) ++ names := by simp
      rw [hall] at hfind ⊢
      by_cases hnil : names = []
      · rw [hnil, List.append_nil]
        exact .inl rfl
      · exact ih (fun t ht => hnames t (by simp [ht])) (h.directory_of_append hnil hfind) hfind

end FileTree

/-- A file, if the path to it can be followed at all. -/
def Workspace.HasSource (w : Workspace) (path : String) : Prop :=
  ¬FileTree.IsTaken path ∨ w.tree.locate w.directory path = .error .nameTooLong ∨
    ∃ loc content, w.tree.locate w.directory path = .ok loc ∧
      w.tree.find? loc = some (.file content)

section Sources

variable {w : Workspace} {extension : String} {ignore : List Glob} {unit : SourceUnit}

theorem Workspace.hasSource_ofNames {dir : String} {names : List String} (hvalid : w.tree.Valid)
    (hdir : w.tree.isDirectory w.directory dir = true)
    (h : names ∈ selectSources extension ignore (w.tree.filesBelow w.directory dir)) :
    w.HasSource (SourceUnit.ofNames dir names).path := by
  obtain ⟨hne, hnames⟩ := names_of_mem_selectSources hvalid h
  obtain ⟨loc, content, hlocate, hentry⟩ :=
    FileTree.mem_filesBelow (mem_of_mem_selectSources h).1
  obtain ⟨loc', hlocate', hloc⟩ := FileTree.entry_eq_ok_iff.mp (FileTree.isDirectory_iff.mp hdir)
  rw [hlocate, Except.ok.injEq] at hlocate'
  subst hlocate'
  have hfile : w.tree.find? (loc ++ names) = some (.file content) := by
    rw [FileTree.find?, if_neg (by simp [hne]), FileTree.lookup_of_mem hvalid.keys hentry]
  obtain ⟨hsegs, habs⟩ := segments_foldl_join dir hne hnames
  by_cases htaken : FileTree.IsTaken (names.foldl Path.join dir)
  · have hall : w.tree.locate w.directory (names.foldl Path.join dir) = w.tree.walk loc names := by
      rw [FileTree.locate_of_isTaken htaken, hsegs, FileTree.walk_append,
        FileTree.origin_congr _ habs, FileTree.walk_joinLead hlocate]
      rfl
    rcases hvalid.closed.walk_names hnames hloc hfile with hwalk | hwalk
    · exact .inr (.inr ⟨loc ++ names, content, hall.trans hwalk, hfile⟩)
    · exact .inr (.inl (hall.trans hwalk))
  · exact .inl htaken

theorem Workspace.hasSource_of_discover {inputs : List String} {units : List SourceUnit}
    (hvalid : w.tree.Valid)
    (h : ((discover extension ignore inputs : StateM Workspace _) w).1 = .ok units)
    (hunit : unit ∈ units) : w.HasSource unit.path := by
  rw [discover_run] at h
  obtain ⟨input, -, found, hfound, hunit⟩ := mem_of_mapM_flatten h hunit
  rw [Workspace.unitsOf] at hfound
  split at hfound
  case isTrue hdir =>
    cases hfound
    obtain ⟨names, hnames, rfl⟩ := List.mem_map.mp hunit
    exact w.hasSource_ofNames hvalid hdir hnames
  case isFalse =>
    split at hfound
    case isTrue hfile =>
      cases hfound
      rw [List.mem_singleton.mp hunit]
      obtain ⟨content, hentry⟩ := FileTree.isFile_iff.mp hfile
      obtain ⟨loc, hlocate, hloc⟩ := FileTree.entry_eq_ok_iff.mp hentry
      exact .inr (.inr ⟨loc, content, hlocate, hloc⟩)
    case isFalse => cases hfound

end Sources

/-- Where a path leads if all that it leads through is there. -/
def Workspace.landing (w : Workspace) (path : String) : Location :=
  FileTree.land (FileTree.origin w.directory path) (Path.segments path)

theorem FileTree.locate_of_read {tree : FileTree} {base : Location} {path text : String}
    (h : tree.read base path = .ok text) : ∃ loc, tree.locate base path = .ok loc := by
  cases hentry : tree.entry base path with
  | error e =>
    rw [read, hentry] at h
    cases h
  | ok e =>
    obtain ⟨loc, hlocate, -⟩ := entry_eq_ok_iff.mp hentry
    exact ⟨loc, hlocate⟩

theorem FileTree.read_congr {tree tree' : FileTree} {base : Location} {path : String}
    (hlocate : tree'.locate base path = tree.locate base path)
    (hfind : ∀ loc, tree.locate base path = .ok loc → tree'.find? loc = tree.find? loc) :
    tree'.read base path = tree.read base path := by
  have hentry : tree'.entry base path = tree.entry base path := by
    rw [entry, entry, hlocate]
    cases h : tree.locate base path with
    | error e => rfl
    | ok loc => simp only [bind, Except.bind, hfind loc h]
  rw [read, read, hentry]

theorem Plan.UnderWay.read_eq {plan : Plan} {w : Workspace} {path : String} (hplan : plan.Sound)
    (hw : plan.UnderWay w) (hsource : plan.start.HasSource path)
    (hclear : plan.start.landing path ∉ plan.files.map Prod.fst) :
    w.tree.read w.directory path = plan.start.tree.read plan.start.directory path := by
  have hkeeps : plan.start.tree.KeepsDirectories w.tree := fun _ => hplan.directory_of_start hw
  rw [hw.directory]
  by_cases htaken : FileTree.IsTaken path
  · rcases hsource with hrefused | hlong | ⟨loc, content, hlocate, hfile⟩
    · exact absurd htaken hrefused
    · refine FileTree.read_congr ?_ (by simp [hlong])
      rw [hlong, FileTree.locate_of_isTaken htaken]
      rw [FileTree.locate_of_isTaken htaken] at hlong
      exact hkeeps.walk_nameTooLong hlong
    · refine FileTree.read_congr (by rw [hlocate, hkeeps.locate_eq_ok hlocate]) ?_
      intro loc' hloc'
      rw [hlocate, Except.ok.injEq] at hloc'
      subst hloc'
      rcases hw.entries loc with hstart | hend
      · exact hstart
      · rw [hend, Plan.outcome_of_not_mem, hfile]
        · simp
        · rw [FileTree.walk_eq_land (FileTree.walk_of_locate hlocate)]
          exact hclear
  · refine FileTree.read_congr ?_ ?_
    · rw [FileTree.locate_of_not_isTaken htaken, FileTree.locate_of_not_isTaken htaken]
    · rw [FileTree.locate_of_not_isTaken htaken]
      exact fun loc hloc => by cases hloc

/-- The files that the output of a unit goes to. -/
def SourceUnit.targets (unit : SourceUnit) (args : Args) (settings : Settings) : List String :=
  if args.stdout then []
  else if settings.typed && settings.sourceMap then
    [unit.outputPath settings, unit.outputPath settings ++ ".map"]
  else [unit.outputPath settings]

section Targets

variable {w : Workspace} {args : Args} {settings : Settings} {unit : SourceUnit} {path : String}

theorem mapLines_of_map {source : String} {options : CompileOptions} {output : Output}
    (h : compile source options = .ok output) (hmap : output.map ≠ none) :
    options.dialect = .typed ∧ options.mapLines = true := by
  rw [compile] at h
  cases hcomponent : Component.ofSource options.name source with
  | error d =>
    rw [hcomponent] at h
    cases h
  | ok c =>
    rw [hcomponent] at h
    cases h
    rw [Component.output] at hmap
    cases hdialect : options.dialect with
    | plain =>
      rw [hdialect] at hmap
      exact absurd rfl hmap
    | typed =>
      refine ⟨rfl, ?_⟩
      by_contra hlines
      rw [hdialect] at hmap
      refine hmap (if_neg ?_)
      rintro (h | h)
      · exact hlines h
      · exact h rfl

theorem Workspace.filesOf_sublist :
    ((w.filesOf args settings unit).map Prod.fst).Sublist (unit.targets args settings) := by
  cases houtput : w.outputOf args settings unit with
  | error failure =>
    rw [filesOf_of_error houtput]
    exact List.nil_sublist _
  | ok output =>
    rw [filesOf_of_ok houtput, SourceUnit.targets]
    by_cases hstdout : args.stdout = true
    · rw [if_pos hstdout, if_pos hstdout]
      exact List.nil_sublist _
    · rw [if_neg hstdout, if_neg hstdout]
      cases hmap : output.map with
      | none =>
        rw [Output.files, hmap]
        by_cases hmapped : (settings.typed && settings.sourceMap) = true
        · rw [if_pos hmapped]
          exact .cons_cons _ (List.nil_sublist _)
        · rw [if_neg hmapped]
          exact .refl _
      | some map =>
        obtain ⟨source, -, hcompile⟩ := exists_of_outputOf houtput
        have hlines : (settings.typed && settings.sourceMap && !args.stdout) = true :=
          (mapLines_of_map hcompile (by simp [hmap])).2
        have hmapped : (settings.typed && settings.sourceMap) = true :=
          (Bool.and_eq_true_iff.mp hlines).1
        rw [Output.files, hmap, if_pos hmapped]
        exact .refl _

theorem Path.segments_append {init : List String} {s more : String}
    (h : Path.segments path = init ++ [s]) (hmore : '/' ∉ more.toList) :
    Path.segments (path ++ more) = init ++ [s ++ more] ∧
      Path.isAbsolute (path ++ more) = Path.isAbsolute path := by
  have hspells := Path.spells_segments path
  rw [h] at hspells
  have hplain : '/' ∉ (s ++ more).toList := by
    rw [String.toList_append, List.mem_append, not_or]
    exact ⟨hspells.plain s (by simp), hmore⟩
  have hpath : path ++ more = Path.ofSegments (Path.isAbsolute path) (init ++ [s ++ more]) := by
    rw [Path.ofSegments_concat, ← String.append_assoc, ← Path.ofSegments_concat, ← h,
      Path.ofSegments_segments]
  rw [hpath]
  exact ⟨(hspells.setLast hplain).segments_ofSegments,
    (hspells.setLast hplain).isAbsolute_ofSegments⟩

/-- Everything that a unit writes goes to one directory. -/
theorem SourceUnit.Placed.of_mem_targets (h : unit.Placed)
    (hpath : path ∈ unit.targets args settings) :
    Path.EndsInStep path ∧ Path.stepsAbove path = Path.stepsAbove (unit.target settings) ∧
      Path.isAbsolute path = Path.isAbsolute (unit.target settings) := by
  have htarget : Path.EndsInName (unit.target settings) := h.endsInName_target
  obtain ⟨init, name, hsegs, hname⟩ := htarget
  have hspells := Path.spells_rename settings.dialect.isExtension hsegs hname
  have hlength := Path.two_le_length_rename settings.dialect.extension hname
  have houtput : unit.outputPath settings = Path.ofSegments (Path.isAbsolute (unit.target settings))
      (init ++ [Path.rename name settings.dialect.extension]) := by
    rw [SourceUnit.outputPath_eq, Path.withExtension_of_name hsegs hname]
  have hsegsOut := hspells.segments_ofSegments
  have habsOut := hspells.isAbsolute_ofSegments
  rw [← houtput] at hsegsOut habsOut
  have hall {path s : String} (hpath : Path.segments path = init ++ [s]) (hs : 2 ≤ s.length)
      (habs : Path.isAbsolute path = Path.isAbsolute (unit.target settings)) :
      Path.EndsInStep path ∧ Path.stepsAbove path = Path.stepsAbove (unit.target settings) ∧
        Path.isAbsolute path = Path.isAbsolute (unit.target settings) := by
    have hempty : s ≠ "" := by
      rintro rfl
      exact absurd hs (by decide)
    have hdot : s ≠ "." := by
      rintro rfl
      exact absurd hs (by decide)
    refine ⟨⟨init, s, hpath, hempty, hdot⟩, ?_, habs⟩
    rw [Path.stepsAbove_of_step hpath hempty hdot,
      Path.stepsAbove_of_step hsegs hname.ne_empty hname.ne_dot]
  obtain ⟨hsegsMap, habsMap⟩ := Path.segments_append hsegsOut (by decide : '/' ∉ ".map".toList)
  have hmem : path = unit.outputPath settings ∨ path = unit.outputPath settings ++ ".map" := by
    rw [SourceUnit.targets] at hpath
    split at hpath
    · cases hpath
    · split at hpath
      · simpa using hpath
      · exact .inl (by simpa using hpath)
  rcases hmem with rfl | rfl
  · exact hall hsegsOut hlength habsOut
  · exact hall hsegsMap (by rw [String.length_append]; omega) (habsMap.trans habsOut)

end Targets

namespace FileTree

/-- Neither of two locations is the other one or below it. -/
def Apart (l l' : Location) : Prop := ¬l <+: l' ∧ ¬l' <+: l

instance (l l' : Location) : Decidable (Apart l l') := inferInstanceAs (Decidable (_ ∧ _))

theorem Apart.symm {l l' : Location} (h : Apart l l') : Apart l' l := ⟨h.2, h.1⟩

theorem prefix_or_step_prefix {l loc : Location} {s : String} (h : l <+: loc) (hs : s ≠ "")
    (hdot : s ≠ ".") : l <+: step loc s ∨ step loc s <+: l := by
  rw [step, if_neg (by simp [hs, hdot])]
  split
  · rcases List.eq_nil_or_concat' loc with rfl | ⟨init, t, rfl⟩
    · exact .inl h
    · rw [List.dropLast_concat]
      rcases List.prefix_concat_iff.mp h with rfl | h
      · exact .inr (List.prefix_append _ _)
      · exact .inl h
  · exact .inl (h.trans (List.prefix_append _ _))

end FileTree

section Placing

variable {w : Workspace} {path p q : String} {loc : Location}

theorem Workspace.landing_of_step {init : List String} {s : String} (w : Workspace)
    (h : Path.segments path = init ++ [s]) (hs : s ≠ "") (hdot : s ≠ ".") :
    w.landing path = FileTree.step
      (FileTree.land (FileTree.origin w.directory path) (Path.stepsAbove path)) s := by
  rw [landing, h, FileTree.land_append, Path.stepsAbove_of_step h hs hdot, FileTree.land_steps]
  rfl

theorem Workspace.placeOf_eq_ok (hending : Path.EndsInStep path) (h : w.placeOf path = .ok loc) :
    loc = w.landing path ∧ w.tree.find? loc ≠ some .directory ∧
      loc ∉ FileTree.visits (FileTree.origin w.directory path) (Path.stepsAbove path) := by
  obtain ⟨hleads, horigin⟩ := hending.leads w.directory
  obtain ⟨init, s, hsegs, hs, hdot⟩ := hending
  have hname : (Path.segments path).getLastD "" = s := by simp [hsegs]
  cases hreach : w.reachDirectory (Path.directoryOf path) with
  | error e =>
    rw [placeOf_of_error hreach] at h
    cases h
  | ok dir =>
    rw [placeOf_of_ok hreach, hname] at h
    rw [reachDirectory] at hreach
    split at hreach
    case isFalse => cases hreach
    case isTrue htaken =>
      rw [hleads.steps, horigin] at hreach
      obtain ⟨rfl, hpassed⟩ := FileTree.land_of_reach hreach
      rw [passedDirectories, if_pos htaken, hleads.steps, horigin, hpassed] at h
      split at h
      · cases h
      · split at h
        · cases h
        · split at h
          · cases h
          case isFalse hgood =>
            cases h
            rw [not_or, not_or, List.contains_iff_mem] at hgood
            refine ⟨?_, hgood.2⟩
            rw [w.landing_of_step hsegs hs hdot, FileTree.step, if_neg (by simp [hs, hdot]),
              if_neg hgood.1]

/-- A file in the directory of another one does not stand in its way. -/
theorem Workspace.not_mem_visits_of_same (hq : Path.EndsInStep q) (h : w.placeOf q = .ok loc)
    (habs : Path.isAbsolute p = Path.isAbsolute q)
    (hsteps : Path.stepsAbove p = Path.stepsAbove q) :
    loc ∉ FileTree.visits (FileTree.origin w.directory p) (Path.stepsAbove p) := by
  rw [FileTree.origin_congr w.directory habs, hsteps]
  exact (placeOf_eq_ok hq h).2.2

/-- Below a common directory only a file that is not apart from another one stands in its way. -/
theorem Workspace.not_mem_visits_of_apart {lead names names' : List String}
    (hp : Path.EndsInStep p) (hq : Path.EndsInStep q) (h : w.placeOf q = .ok loc)
    (habs : Path.isAbsolute p = Path.isAbsolute q) (hsteps : Path.stepsAbove p = lead ++ names)
    (hsteps' : Path.stepsAbove q = lead ++ names') (hnames : ∀ s ∈ names, Path.IsName s)
    (hapart : FileTree.Apart (w.landing p) (w.landing q)) :
    loc ∉ FileTree.visits (FileTree.origin w.directory p) (Path.stepsAbove p) := by
  obtain ⟨hland, -, hclear⟩ := placeOf_eq_ok hq h
  rw [hsteps', FileTree.visits_append, ← FileTree.origin_congr w.directory habs] at hclear
  intro hmem
  rw [hsteps, FileTree.visits_append] at hmem
  rcases List.mem_append.mp hmem with hmem | hmem
  · exact hclear (List.mem_append_left _ hmem)
  · obtain ⟨init, s, hsegs, hs, hdot⟩ := hp
    have hprefix := FileTree.prefix_of_mem_visits hnames hmem
    rw [← FileTree.land_names hnames, ← FileTree.land_append, ← hsteps] at hprefix
    rw [w.landing_of_step hsegs hs hdot, ← hland] at hapart
    exact (FileTree.prefix_or_step_prefix hprefix hs hdot).elim hapart.2 hapart.1

end Placing

/-- Where a file ends up, with its text. -/
def Workspace.placed? (w : Workspace) (file : String × String) : Option (Location × String) :=
  (w.placeOf file.1).toOption.map fun loc => (loc, file.2)

theorem Workspace.placed?_eq_some_iff {w : Workspace} {file : String × String}
    {a : Location × String} :
    w.placed? file = some a ↔ w.placeOf file.1 = .ok a.1 ∧ a.2 = file.2 := by
  obtain ⟨loc, text⟩ := a
  rw [placed?]
  cases w.placeOf file.1 with
  | error e => simp [Except.toOption]
  | ok loc' => simp [Except.toOption, eq_comm]

namespace Plan

variable {w : Workspace} {files : List (String × String)} {loc : Location} {path text : String}

/-- What it comes to that files are written, as far as they can be. -/
def ofFiles (w : Workspace) (files : List (String × String)) : Plan where
  start := w
  files := files.filterMap w.placed?
  directories := files.flatMap fun file => w.passedDirectories (Path.directoryOf file.1)

theorem exists_of_mem_ofFiles (h : (loc, text) ∈ (ofFiles w files).files) :
    ∃ file ∈ files, w.placeOf file.1 = .ok loc := by
  obtain ⟨file, hmem, hplaced⟩ := List.mem_filterMap.mp h
  exact ⟨file, hmem, (Workspace.placed?_eq_some_iff.mp hplaced).1⟩

theorem sound_ofFiles (hending : ∀ file ∈ files, Path.EndsInStep file.1)
    (hapart : files.Pairwise fun f g => FileTree.Apart (w.landing f.1) (w.landing g.1)) :
    (ofFiles w files).Sound where
  keys := by
    have hkeys : files.Pairwise fun f g => ∀ a, w.placed? f = some a → ∀ b, w.placed? g = some b →
        a.1 ≠ b.1 := by
      refine hapart.imp_of_mem ?_
      intro f g hf hg hfg a ha b hb heq
      have hfa := w.placeOf_eq_ok (hending f hf) (Workspace.placed?_eq_some_iff.mp ha).1
      have hgb := w.placeOf_eq_ok (hending g hg) (Workspace.placed?_eq_some_iff.mp hb).1
      rw [hfa.1, hgb.1] at heq
      exact hfg.1 (heq ▸ List.prefix_rfl)
    rw [List.Nodup, List.pairwise_map]
    exact hkeys.filterMap _ fun f g h => h
  targets := by
    rintro ⟨loc, text⟩ hmem
    obtain ⟨file, hfile, hplace⟩ := exists_of_mem_ofFiles hmem
    exact (w.placeOf_eq_ok (hending file hfile) hplace).2.1

theorem target_ofFiles (hmem : (path, text) ∈ files) (hending : Path.EndsInStep path)
    (hdirectory : w.tree.find? w.directory = some .directory)
    (hclear : ∀ file ∈ files, ∀ loc, w.placeOf file.1 = .ok loc →
      loc ∉ FileTree.visits (FileTree.origin w.directory path) (Path.stepsAbove path)) :
    (ofFiles w files).Target path text where
  ending := hending
  origin := by
    change w.tree.find? (FileTree.origin w.directory path) = _
    rw [FileTree.origin]
    split
    · rfl
    · exact hdirectory
  clear := by
    intro l hl hkey
    obtain ⟨⟨loc, text'⟩, hplanned, rfl⟩ := List.mem_map.mp hkey
    obtain ⟨file, hfile, hplace⟩ := exists_of_mem_ofFiles hplanned
    exact hclear file hfile loc hplace hl
  planned := fun l hl _ => List.mem_flatMap.mpr ⟨(path, text), hmem, hl⟩
  placed := fun loc hplace => List.mem_filterMap.mpr
    ⟨(path, text), hmem, Workspace.placed?_eq_some_iff.mpr ⟨hplace, rfl⟩⟩

end Plan

/-- A workspace as a system keeps it. -/
structure Workspace.Valid (w : Workspace) : Prop where
  tree : w.tree.Valid
  directory : w.tree.find? w.directory = some .directory

/-- No file that units write is another one or below it, and no source is one of them or below
one. -/
structure Workspace.Separate (w : Workspace) (args : Args) (settings : Settings)
    (units : List SourceUnit) : Prop where
  targets : (units.flatMap (·.targets args settings)).Pairwise fun p q =>
    FileTree.Apart (w.landing p) (w.landing q)
  sources : ∀ p ∈ units.flatMap (·.targets args settings), ∀ unit ∈ units,
    ¬w.landing p <+: w.landing unit.path

/-- Every step up in the output directory leads to a directory that is there. -/
def Workspace.Settled (w : Workspace) (settings : Settings) : Prop :=
  ∀ dir, settings.outDir? = some dir → ∀ before after,
    Path.segments dir = before ++ ".." :: after →
      w.tree.isDirectory w.directory
        (Path.ofSegments (Path.isAbsolute dir) (before ++ [".."])) = true

section Units

variable {w : Workspace} {args : Args} {settings : Settings} {units : List SourceUnit}
  {u v : SourceUnit} {file : String × String}

theorem Workspace.attempted_sublist (w : Workspace) (files : List (String × String)) :
    (w.attempted files).Sublist files := by
  induction files with
  | nil => exact .refl _
  | cons file files ih =>
    rw [attempted]
    split
    · exact ih.cons_cons file
    · exact (List.nil_sublist files).cons_cons file

/-- All files that units try to write. -/
def Workspace.triedFiles (w : Workspace) (args : Args) (settings : Settings)
    (units : List SourceUnit) : List (String × String) :=
  units.flatMap fun unit => w.attempted (w.filesOf args settings unit)

theorem Workspace.mem_targets_of_filesOf (h : file ∈ w.filesOf args settings u) :
    file.1 ∈ u.targets args settings :=
  filesOf_sublist.subset (List.mem_map_of_mem h)

theorem Workspace.exists_of_mem_triedFiles (h : file ∈ w.triedFiles args settings units) :
    ∃ unit ∈ units, file ∈ w.filesOf args settings unit := by
  obtain ⟨unit, hunit, hfile⟩ := List.mem_flatMap.mp h
  exact ⟨unit, hunit, (w.attempted_sublist _).subset hfile⟩

theorem Workspace.Separate.triedFiles (h : w.Separate args settings units) :
    (w.triedFiles args settings units).Pairwise fun f g =>
      FileTree.Apart (w.landing f.1) (w.landing g.1) := by
  obtain ⟨hsame, hdiffer⟩ := List.pairwise_flatMap.mp h.targets
  refine List.pairwise_flatMap.mpr ⟨?_, ?_⟩
  · intro unit hunit
    have hsublist := ((w.attempted_sublist (w.filesOf args settings unit)).map Prod.fst).trans
      filesOf_sublist
    have hpaths := (hsame unit hunit).sublist hsublist
    rw [List.pairwise_map] at hpaths
    exact hpaths
  · refine hdiffer.imp ?_
    intro u v huv f hf g hg
    have hmem {unit : SourceUnit} {file : String × String}
        (hfile : file ∈ w.attempted (w.filesOf args settings unit)) :
        file.1 ∈ unit.targets args settings :=
      mem_targets_of_filesOf ((w.attempted_sublist _).subset hfile)
    exact huv f.1 (hmem hf) g.1 (hmem hg)

theorem Workspace.Separate.apart {p q : String} (h : w.Separate args settings units)
    (hu : u ∈ units) (hv : v ∈ units) (hne : u ≠ v) (hp : p ∈ u.targets args settings)
    (hq : q ∈ v.targets args settings) : FileTree.Apart (w.landing p) (w.landing q) := by
  have hsymm : Std.Symm fun u v : SourceUnit => ∀ p ∈ u.targets args settings,
      ∀ q ∈ v.targets args settings, FileTree.Apart (w.landing p) (w.landing q) :=
    ⟨fun u v h p hp q hq => (h q hq p hp).symm⟩
  exact (List.pairwise_flatMap.mp h.targets).2.forall hu hv hne p hp q hq

/-- Units as a run finds them. -/
structure Workspace.Finds (w : Workspace) (units : List SourceUnit) : Prop where
  placed : ∀ unit ∈ units, unit.Placed
  sources : ∀ unit ∈ units, w.HasSource unit.path

theorem Workspace.finds_of_discover {extension : String} {ignore : List Glob}
    {inputs : List String} (hvalid : w.tree.Valid)
    (h : ((discover extension ignore inputs : StateM Workspace _) w).1 = .ok units) :
    w.Finds units :=
  ⟨fun _ => placed_of_discover hvalid h, fun _ => w.hasSource_of_discover hvalid h⟩

/-- The way to a file below the output directory. -/
theorem SourceUnit.Placed.stepsAbove_target {dir : String} (h : u.Placed)
    (hdir : settings.outDir? = some dir) :
    ∃ names, (∀ s ∈ names, Path.IsName s) ∧
      Path.stepsAbove (u.target settings) = Path.steps (Path.segments dir) ++ names := by
  obtain ⟨init, name, hsegs, hname⟩ := h.relative.endsInName
  have hnames (s : String) (hs : s ∈ init) : Path.IsName s :=
    h.relative.names s (by simp [hsegs, hs])
  refine ⟨init, hnames, ?_⟩
  have htarget : Path.segments (u.target settings) = (Path.joinLead dir ++ init) ++ [name] := by
    rw [SourceUnit.target, hdir, List.append_assoc, ← hsegs]
    exact Path.segments_join h.relative.relative
  rw [Path.stepsAbove_of_step htarget hname.ne_empty hname.ne_dot, Path.steps, List.filter_append]
  change Path.steps _ ++ Path.steps _ = _
  rw [Path.steps_joinLead, Path.steps_of_names hnames]

/-- The way to a file that stands beside its source. -/
theorem SourceUnit.Placed.walk_target (h : u.Placed) (hdir : settings.outDir? = none)
    (hfile : file ∈ w.filesOf args settings u) :
    ∃ l, w.tree.walk (FileTree.origin w.directory (u.target settings))
        (Path.stepsAbove (u.target settings)) = .ok l ∧ w.tree.find? l = some .directory := by
  have htarget : u.target settings = u.path := by
    rw [SourceUnit.target, hdir]
  rw [htarget]
  obtain ⟨init, name, hsegs, hname⟩ := h.path
  cases houtput : w.outputOf args settings u with
  | error failure =>
    rw [Workspace.filesOf_of_error houtput] at hfile
    cases hfile
  | ok output =>
    obtain ⟨source, hread, -⟩ := Workspace.exists_of_outputOf houtput
    obtain ⟨loc, hlocate⟩ := FileTree.locate_of_read hread
    have hwalk := FileTree.walk_of_locate hlocate
    rw [hsegs, FileTree.walk_steps hname.ne_empty hname.ne_dot,
      Path.steps_concat hname.ne_empty hname.ne_dot,
      ← Path.stepsAbove_of_step hsegs hname.ne_empty hname.ne_dot,
      FileTree.walk_concat_eq_ok_iff] at hwalk
    obtain ⟨mid, hmid, hlast⟩ := hwalk
    exact ⟨mid, hmid, (FileTree.follow_eq_ok_iff.mp hlast).1⟩

/-- No file that units write stands in the way of another one. -/
theorem Workspace.Separate.clear {p q : String × String} {loc : Location}
    (h : w.Separate args settings units) (hfinds : w.Finds units) (hu : u ∈ units) (hv : v ∈ units)
    (hp : p ∈ w.filesOf args settings u) (hq : q ∈ w.filesOf args settings v)
    (hplace : w.placeOf q.1 = .ok loc) :
    loc ∉ FileTree.visits (FileTree.origin w.directory p.1) (Path.stepsAbove p.1) := by
  have hpt := mem_targets_of_filesOf hp
  have hqt := mem_targets_of_filesOf hq
  obtain ⟨hpend, hpsteps, hpabs⟩ := (hfinds.placed u hu).of_mem_targets hpt
  obtain ⟨hqend, hqsteps, hqabs⟩ := (hfinds.placed v hv).of_mem_targets hqt
  by_cases hsame : u = v
  · subst hsame
    exact not_mem_visits_of_same hqend hplace (hpabs.trans hqabs.symm) (hpsteps.trans hqsteps.symm)
  · cases hdir : settings.outDir? with
    | some dir =>
      obtain ⟨names, hnames, hlead⟩ := (hfinds.placed u hu).stepsAbove_target hdir
      obtain ⟨names', -, hlead'⟩ := (hfinds.placed v hv).stepsAbove_target hdir
      have habs {unit : SourceUnit} (hunit : unit ∈ units) :
          Path.isAbsolute (unit.target settings) = Path.isAbsolute dir := by
        rw [SourceUnit.target, hdir]
        exact Path.isAbsolute_join (hfinds.placed unit hunit).relative.relative
      refine not_mem_visits_of_apart hpend hqend hplace ?_ (hpsteps.trans hlead)
        (hqsteps.trans hlead') hnames (h.apart hu hv hsame hpt hqt)
      rw [hpabs, hqabs, habs hu, habs hv]
    | none =>
      -- Beside a source there are only directories on the way.
      obtain ⟨l, hwalk, hl⟩ := (hfinds.placed u hu).walk_target hdir hp
      rw [FileTree.origin_congr w.directory hpabs, hpsteps]
      intro hmem
      exact (placeOf_eq_ok hqend hplace).2.1 (FileTree.directory_of_mem_visits hwalk hl hmem)

/-- What units put into a workspace together. -/
def Plan.ofUnits (w : Workspace) (args : Args) (settings : Settings) (units : List SourceUnit) :
    Plan :=
  .ofFiles w (w.triedFiles args settings units)

theorem Workspace.Finds.endsInStep (h : w.Finds units)
    (hfile : file ∈ w.triedFiles args settings units) : Path.EndsInStep file.1 := by
  obtain ⟨unit, hunit, hfile⟩ := exists_of_mem_triedFiles hfile
  exact ((h.placed unit hunit).of_mem_targets (mem_targets_of_filesOf hfile)).1

theorem Workspace.Separate.sound (h : w.Separate args settings units) (hfinds : w.Finds units) :
    (Plan.ofUnits w args settings units).Sound :=
  Plan.sound_ofFiles (fun _ => hfinds.endsInStep) h.triedFiles

theorem Workspace.Separate.target (h : w.Separate args settings units) (hfinds : w.Finds units)
    (hvalid : w.Valid) (hfile : file ∈ w.triedFiles args settings units) :
    (Plan.ofUnits w args settings units).Target file.1 file.2 := by
  refine Plan.target_ofFiles hfile (hfinds.endsInStep hfile) hvalid.directory ?_
  intro other hother loc hplace
  obtain ⟨u, hu, hfile⟩ := exists_of_mem_triedFiles hfile
  obtain ⟨v, hv, hother⟩ := exists_of_mem_triedFiles hother
  exact h.clear hfinds hu hv hfile hother hplace

theorem Workspace.Separate.read_eq {w' : Workspace} (h : w.Separate args settings units)
    (hfinds : w.Finds units) (hw' : (Plan.ofUnits w args settings units).UnderWay w')
    (hu : u ∈ units) :
    w'.tree.read w'.directory u.path = w.tree.read w.directory u.path := by
  have hclear : w.landing u.path ∉ (Plan.ofUnits w args settings units).files.map Prod.fst := by
    intro hkey
    obtain ⟨⟨loc, text⟩, hmem, hloc⟩ := List.mem_map.mp hkey
    obtain ⟨file, hfile, hplace⟩ := Plan.exists_of_mem_ofFiles hmem
    obtain ⟨v, hv, hfile'⟩ := exists_of_mem_triedFiles hfile
    have hland := (placeOf_eq_ok (hfinds.endsInStep hfile) hplace).1
    have htarget : file.1 ∈ units.flatMap (·.targets args settings) :=
      List.mem_flatMap.mpr ⟨v, hv, mem_targets_of_filesOf hfile'⟩
    exact h.sources file.1 htarget u hu (by rw [← hland, ← hloc])
  have hread := hw'.read_eq (h.sound hfinds) (hfinds.sources u hu) hclear
  exact hread

theorem Workspace.Settled.walk {dir : String} {before after : List String} (h : w.Settled settings)
    (hdir : settings.outDir? = some dir)
    (hsplit : Path.steps (Path.segments dir) = before ++ ".." :: after) :
    ∃ l, w.tree.walk (FileTree.origin w.directory dir) (before ++ [".."]) = .ok l ∧
      w.tree.find? l = some .directory := by
  obtain ⟨segs, others, hsegs, rfl, hothers⟩ := List.filter_eq_append_iff.mp hsplit
  obtain ⟨stays, rest, rfl, hstays, -, -⟩ := List.filter_eq_cons_iff.mp hothers
  rw [← List.append_assoc] at hsegs
  have hsteps : Path.steps (segs ++ stays) = Path.steps segs := by
    rw [Path.steps, List.filter_append, List.filter_eq_nil_iff.mpr hstays, List.append_nil]
    rfl
  have hspells : Path.Spells (Path.isAbsolute dir) ((segs ++ stays) ++ [".."]) := by
    have hall := Path.spells_segments dir
    rw [hsegs, ← List.singleton_append, ← List.append_assoc] at hall
    exact hall.of_append (by simp)
  obtain ⟨l, hlocate, hl⟩ := FileTree.entry_eq_ok_iff.mp
    (FileTree.isDirectory_iff.mp (h dir hdir (segs ++ stays) rest hsegs))
  have hwalk := FileTree.walk_of_locate hlocate
  rw [hspells.segments_ofSegments, FileTree.walk_steps (by decide) (by decide),
    Path.steps_concat (by decide) (by decide), hsteps,
    FileTree.origin_congr w.directory hspells.isAbsolute_ofSegments] at hwalk
  exact ⟨l, hwalk, hl⟩

/-- Where the output directory is settled, it does not matter who makes it. -/
theorem Workspace.Settled.straight (h : w.Settled settings) (hfinds : w.Finds units)
    (hclosed : w.tree.Closed) (hu : u ∈ units) :
    (Plan.ofUnits w args settings units).Straight (w.filesOf args settings u) := by
  intro file hfile
  change w.tree.Straight (FileTree.origin w.directory file.1) (Path.stepsAbove file.1)
  obtain ⟨-, hsteps, habs⟩ :=
    (hfinds.placed u hu).of_mem_targets (mem_targets_of_filesOf hfile)
  rw [FileTree.origin_congr w.directory habs, hsteps]
  cases hdir : settings.outDir? with
  | some dir =>
    obtain ⟨names, hnames, hlead⟩ := (hfinds.placed u hu).stepsAbove_target hdir
    have horigin : FileTree.origin w.directory (u.target settings) =
        FileTree.origin w.directory dir := by
      rw [SourceUnit.target, hdir]
      exact FileTree.origin_congr _ (Path.isAbsolute_join (hfinds.placed u hu).relative.relative)
    rw [hlead, horigin]
    refine hclosed.straight_of_settled ?_ hnames fun _ _ => h.walk hdir
    intro s hs
    obtain ⟨hmem, hstep⟩ := List.mem_filter.mp hs
    have hplain := (Path.spells_segments dir).plain s hmem
    by_cases hup : s = ".."
    · exact .inl hup
    · exact .inr ⟨by simpa [hup] using hstep, hplain⟩
  | none =>
    obtain ⟨l, hwalk, hl⟩ := (hfinds.placed u hu).walk_target hdir hfile
    intro e he
    rw [(FileTree.reach_of_walk hwalk hl fun _ _ => rfl).1] at he
    cases he

end Units

end Sigil
