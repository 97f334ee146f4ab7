import Sigil.Proofs.FileTrees
import Sigil.Proofs.Rules
import Sigil.SourceUnit

namespace Sigil

/-- The units of one input as they are found in a workspace. -/
def Workspace.unitsOf (w : Workspace) (extension : String) (ignore : List Glob) (input : String) :
    Except RunError (List SourceUnit) :=
  if w.tree.isDirectory w.directory input then
    .ok ((selectSources extension ignore (w.tree.filesBelow w.directory input)).map
      (SourceUnit.ofNames input))
  else if w.tree.isFile w.directory input then .ok [.ofFile input]
  else .error (.missingInput input)

section Discovery

variable {extension : String} {ignore : List Glob} {inputs : List String} {w : Workspace}
  {unit : SourceUnit} {units : List SourceUnit}

theorem expand_run (extension : String) (ignore : List Glob) (input : String) (w : Workspace) :
    (expand extension ignore input : StateM Workspace _) w =
      (w.unitsOf extension ignore input, w) := by
  change (if w.tree.isDirectory w.directory input = true then _ else _ : StateM Workspace _) w = _
  rw [Workspace.unitsOf]
  by_cases hdir : w.tree.isDirectory w.directory input = true
  · rw [if_pos hdir, if_pos hdir]
    rfl
  · rw [if_neg hdir, if_neg hdir]
    change (if w.tree.isFile w.directory input = true then _ else _ : StateM Workspace _) w = _
    by_cases hfile : w.tree.isFile w.directory input = true
    · rw [if_pos hfile, if_pos hfile]
      rfl
    · rw [if_neg hfile, if_neg hfile]
      rfl

theorem discover_run (extension : String) (ignore : List Glob) (inputs : List String)
    (w : Workspace) :
    (discover extension ignore inputs : StateM Workspace _) w =
      ((inputs.mapM (w.unitsOf extension ignore)).map List.flatten, w) := by
  induction inputs with
  | nil => rfl
  | cons input inputs ih =>
    rw [discover, List.mapM_cons, bind_run (expand_run extension ignore input w)]
    cases w.unitsOf extension ignore input with
    | error e => rfl
    | ok units =>
      change (discover extension ignore inputs >>= _ : StateM Workspace _) w = _
      rw [bind_run ih]
      cases inputs.mapM (w.unitsOf extension ignore) with
      | error e => rfl
      | ok others => rfl

/-- Every unit that is found is found for one of the inputs. -/
theorem mem_of_mapM_flatten
    (h : (inputs.mapM (w.unitsOf extension ignore)).map List.flatten = .ok units)
    (hunit : unit ∈ units) :
    ∃ input ∈ inputs, ∃ found, w.unitsOf extension ignore input = .ok found ∧ unit ∈ found := by
  induction inputs generalizing units with
  | nil =>
    cases h
    simp at hunit
  | cons input inputs ih =>
    rw [List.mapM_cons] at h
    cases hfound : w.unitsOf extension ignore input with
    | error e =>
      rw [hfound] at h
      cases h
    | ok found =>
      rw [hfound] at h
      cases hothers : inputs.mapM (w.unitsOf extension ignore) with
      | error e =>
        rw [hothers] at h
        cases h
      | ok others =>
        rw [hothers] at h
        cases h
        rw [List.flatten_cons, List.mem_append] at hunit
        rcases hunit with hunit | hunit
        · exact ⟨input, by simp, found, hfound, hunit⟩
        · obtain ⟨other, hother, rest⟩ := ih (by rw [hothers]; rfl) hunit
          exact ⟨other, by simp [hother], rest⟩

theorem mem_of_mem_selectSources {files : List (List String)} {names : List String}
    (h : names ∈ selectSources extension ignore files) :
    names ∈ files ∧ '.' :: extension.toList <:+ (names.getLastD "").toList := by
  rw [selectSources, List.mem_mergeSort, List.mem_filter, Bool.and_eq_true,
    List.isSuffixOf_iff_suffix] at h
  exact ⟨h.1, h.2.1⟩

/-- A unit as discovery makes it: a path to a file, and a way to it from a directory above. -/
structure SourceUnit.Placed (unit : SourceUnit) : Prop where
  path : Path.EndsInName unit.path
  relative : Path.LeadsBelow unit.relative
  name : Path.fileName? unit.relative = Path.fileName? unit.path

theorem segments_intercalate {names : List String} (hne : names ≠ [])
    (hnames : ∀ s ∈ names, Path.IsName s) :
    Path.segments ("/".intercalate names) = names ∧
      Path.isAbsolute ("/".intercalate names) = false := by
  have hspells : Path.Spells false names := by
    refine ⟨hne, fun s hs => (hnames s hs).2, ?_⟩
    intro _ hhead
    exact absurd rfl (hnames "" (List.mem_of_head? hhead)).ne_empty
  have heq : Path.ofSegments false names = "/".intercalate names := by
    simp [Path.ofSegments]
  rw [← heq]
  exact ⟨hspells.segments_ofSegments, hspells.isAbsolute_ofSegments⟩

theorem segments_name {name : String} (h : Path.IsName name) :
    Path.segments name = [name] ∧ Path.isAbsolute name = false := by
  have hone := segments_intercalate (List.cons_ne_nil name []) (by simpa using h)
  rwa [String.intercalate_singleton] at hone

theorem segments_foldl_join (base : String) {names : List String} (hne : names ≠ [])
    (hnames : ∀ s ∈ names, Path.IsName s) :
    Path.segments (names.foldl Path.join base) = Path.joinLead base ++ names ∧
      Path.isAbsolute (names.foldl Path.join base) = Path.isAbsolute base := by
  induction names using List.reverseRecOn with
  | nil => exact absurd rfl hne
  | append_singleton init s ih =>
    obtain ⟨hone, hrel⟩ := segments_name (hnames s (by simp))
    have hinit (t : String) (ht : t ∈ init) : Path.IsName t := hnames t (by simp [ht])
    rw [List.foldl_append, List.foldl_cons, List.foldl_nil, Path.segments_join hrel, hone,
      Path.isAbsolute_join hrel]
    rcases List.eq_nil_or_concat' init with rfl | ⟨before, t, rfl⟩
    · exact ⟨rfl, rfl⟩
    · obtain ⟨hsegs, habs⟩ := ih (by simp) hinit
      -- A path that ends in a name is joined to as it is.
      have hlead : Path.joinLead ((before ++ [t]).foldl Path.join base) =
          Path.joinLead base ++ (before ++ [t]) := by
        rcases Path.segments_eq_joinLead ((before ++ [t]).foldl Path.join base) with h | h
        · rw [← h, hsegs]
        · rw [hsegs, ← List.append_assoc] at h
          exact absurd (List.singleton_inj.mp (List.append_inj' h rfl).2)
            (hinit t (by simp)).ne_empty
      rw [hlead, habs]
      exact ⟨List.append_assoc _ _ _, rfl⟩

theorem SourceUnit.placed_ofFile {path : String} (h : Path.EndsInName path) :
    (SourceUnit.ofFile path).Placed := by
  obtain ⟨init, name, hsegs, hname⟩ := id h
  obtain ⟨hone, hrel⟩ := segments_name hname
  have hrelative : (SourceUnit.ofFile path).relative = name := by
    rw [SourceUnit.ofFile, Path.fileName?_of_name hsegs hname]
    rfl
  refine ⟨h, ?_, ?_⟩
  · rw [hrelative]
    exact ⟨hrel, by simpa [hone] using hname⟩
  · have hsingle : Path.segments name = [] ++ [name] := hone
    rw [hrelative, Path.fileName?_of_name hsingle hname]
    exact (Path.fileName?_of_name hsegs hname).symm

theorem SourceUnit.placed_ofNames (dir : String) {names : List String} (hne : names ≠ [])
    (hnames : ∀ s ∈ names, Path.IsName s) : (SourceUnit.ofNames dir names).Placed := by
  obtain ⟨hsegs, hrel⟩ := segments_intercalate hne hnames
  rcases List.eq_nil_or_concat names with rfl | ⟨init, name, hsplit⟩
  · exact absurd rfl hne
  · rw [List.concat_eq_append] at hsplit
    have hname : Path.IsName name := hnames name (by simp [hsplit])
    have hpath : Path.segments (SourceUnit.ofNames dir names).path =
        (Path.joinLead dir ++ init) ++ [name] := by
      rw [SourceUnit.ofNames, (segments_foldl_join dir hne hnames).1, hsplit, List.append_assoc]
    refine ⟨⟨_, name, hpath, hname⟩, ⟨hrel, ?_⟩, ?_⟩
    · rw [SourceUnit.ofNames, hsegs]
      exact hnames
    · rw [Path.fileName?_of_name hpath hname]
      exact Path.fileName?_of_name (hsegs.trans hsplit) hname

theorem names_of_mem_selectSources {names : List String} {path : String} (hvalid : w.tree.Valid)
    (h : names ∈ selectSources extension ignore (w.tree.filesBelow w.directory path)) :
    names ≠ [] ∧ ∀ s ∈ names, Path.IsName s := by
  obtain ⟨hbelow, hsuffix⟩ := mem_of_mem_selectSources h
  obtain ⟨dir, content, -, hentry⟩ := FileTree.mem_filesBelow hbelow
  constructor
  · rintro rfl
    simp at hsuffix
  · intro s hs
    exact hvalid.names _ hentry s (List.mem_append_right dir hs)

theorem Workspace.placed_of_unitsOf {found : List SourceUnit} {input : String}
    (hvalid : w.tree.Valid) (h : w.unitsOf extension ignore input = .ok found)
    (hunit : unit ∈ found) : unit.Placed := by
  rw [Workspace.unitsOf] at h
  split at h
  · cases h
    obtain ⟨names, hnames, rfl⟩ := List.mem_map.mp hunit
    obtain ⟨hne, hall⟩ := names_of_mem_selectSources hvalid hnames
    exact SourceUnit.placed_ofNames input hne hall
  · split at h
    case isTrue hfile =>
      cases h
      rw [List.mem_singleton.mp hunit]
      exact SourceUnit.placed_ofFile (hvalid.endsInName hfile)
    case isFalse => cases h

theorem placed_of_discover (hvalid : w.tree.Valid)
    (h : ((discover extension ignore inputs : StateM Workspace _) w).1 = .ok units)
    (hunit : unit ∈ units) : unit.Placed := by
  rw [discover_run] at h
  obtain ⟨input, -, found, hfound, hunit⟩ := mem_of_mapM_flatten h hunit
  exact w.placed_of_unitsOf hvalid hfound hunit

/-- The units of one input differ in what leads to them. -/
theorem Workspace.eq_of_unitsOf {found : List SourceUnit} {input : String} {u v : SourceUnit}
    (hvalid : w.tree.Valid) (h : w.unitsOf extension ignore input = .ok found) (hu : u ∈ found)
    (hv : v ∈ found) (hsame : Path.Same u.relative v.relative) : u = v := by
  have hsegs : Path.segments u.relative = Path.segments v.relative := by
    rw [← (w.placed_of_unitsOf hvalid h hu).relative.components_eq,
      ← (w.placed_of_unitsOf hvalid h hv).relative.components_eq]
    exact hsame.2
  rw [Workspace.unitsOf] at h
  split at h
  · cases h
    obtain ⟨names, hnames, rfl⟩ := List.mem_map.mp hu
    obtain ⟨names', hnames', rfl⟩ := List.mem_map.mp hv
    obtain ⟨hne, hall⟩ := names_of_mem_selectSources hvalid hnames
    obtain ⟨hne', hall'⟩ := names_of_mem_selectSources hvalid hnames'
    rw [SourceUnit.ofNames, SourceUnit.ofNames, (segments_intercalate hne hall).1,
      (segments_intercalate hne' hall').1] at hsegs
    rw [hsegs]
  · split at h
    · cases h
      rw [List.mem_singleton.mp hu, List.mem_singleton.mp hv]
    · cases h

end Discovery

theorem Dialect.isExtension (dialect : Dialect) : Path.IsExtension dialect.extension := by
  cases dialect with
  | plain => exact ⟨by decide, by decide, by decide⟩
  | typed => exact ⟨by decide, by decide, by decide⟩

namespace SourceUnit

variable {settings : Settings} {u v : SourceUnit}

/-- What tells where the output of a unit goes, its extension aside. -/
def place (unit : SourceUnit) (settings : Settings) : String :=
  match settings.outDir? with
  | some _ => unit.relative
  | none => unit.path

/-- Where the output of a unit would go with the extension of its source. -/
def target (unit : SourceUnit) (settings : Settings) : String :=
  match settings.outDir? with
  | some dir => Path.join dir unit.relative
  | none => unit.path

theorem outputPath_eq (unit : SourceUnit) (settings : Settings) :
    unit.outputPath settings =
      Path.withExtension (unit.target settings) settings.dialect.extension := by
  rw [outputPath, target]
  cases settings.outDir? <;> rfl

theorem Placed.endsInName_target (h : u.Placed) : Path.EndsInName (u.target settings) := by
  rw [target]
  cases settings.outDir? with
  | some dir => exact h.relative.endsInName.join h.relative.relative
  | none => exact h.path

theorem Placed.endsInName_place (h : u.Placed) : Path.EndsInName (u.place settings) := by
  rw [place]
  cases settings.outDir? with
  | some dir => exact h.relative.endsInName
  | none => exact h.path

theorem same_outputPath_iff (hu : u.Placed) (hv : v.Placed) :
    Path.Same (u.outputPath settings) (v.outputPath settings) ↔
      Path.SameButExtension (u.place settings) (v.place settings) := by
  rw [outputPath_eq, outputPath_eq, Path.same_withExtension_iff settings.dialect.isExtension
    hu.endsInName_target hv.endsInName_target, target, target, place, place]
  cases settings.outDir? with
  | some dir => exact Path.sameButExtension_join_iff hu.relative hv.relative
  | none => exact Iff.rfl

theorem same_place_of_same_outputPath {extension : String} (hu : u.Placed) (hv : v.Placed)
    (huext : Path.HasExtension u.path extension) (hvext : Path.HasExtension v.path extension)
    (h : Path.Same (u.outputPath settings) (v.outputPath settings)) :
    Path.Same (u.place settings) (v.place settings) := by
  have hext {unit : SourceUnit} (hunit : unit.Placed)
      (hpath : Path.HasExtension unit.path extension) :
      Path.HasExtension (unit.place settings) extension := by
    rw [place]
    cases settings.outDir? with
    | some dir =>
      obtain ⟨stem, hstem, hname⟩ := hpath
      exact ⟨stem, hstem, hunit.name.trans hname⟩
    | none => exact hpath
  exact Path.same_of_sameButExtension hu.endsInName_place hv.endsInName_place (hext hu huext)
    (hext hv hvext) ((same_outputPath_iff hu hv).mp h)

end SourceUnit

/-- Outputs share a path exactly if what tells their places differs in the extension at most. Units
of one extension with different sources then have different outputs, if nothing but their sources
tells their places or all of them come from one input. A source is an output's path only if it
has the extension of outputs itself. -/
theorem discover_outputPaths {settings : Settings} {ignore : List Glob} {inputs : List String}
    {w : Workspace} {units : List SourceUnit} {u v : SourceUnit} (hvalid : w.tree.Valid)
    (h : ((discover settings.extension ignore inputs : StateM Workspace _) w).1 = .ok units)
    (hu : u ∈ units) (hv : v ∈ units) :
    (Path.Same (u.outputPath settings) (v.outputPath settings) ↔
        Path.SameButExtension (u.place settings) (v.place settings)) ∧
      (settings.outDir? = none ∨ inputs.length = 1 →
        Path.HasExtension u.path settings.extension →
        Path.HasExtension v.path settings.extension → ¬Path.Same u.path v.path →
        ¬Path.Same (u.outputPath settings) (v.outputPath settings)) ∧
      (Path.Same (u.outputPath settings) v.path ↔
        Path.SameButExtension (u.target settings) v.path ∧
          Path.extension? v.path = some settings.dialect.extension ∧
          Path.stem? v.path ≠ some ".") := by
  have hplaced := placed_of_discover hvalid h hu
  have hplaced' := placed_of_discover hvalid h hv
  refine ⟨SourceUnit.same_outputPath_iff hplaced hplaced', ?_, ?_⟩
  · intro hsettings huext hvext hdiff hsame
    have hplace := SourceUnit.same_place_of_same_outputPath hplaced hplaced' huext hvext hsame
    rw [SourceUnit.place, SourceUnit.place] at hplace
    cases hout : settings.outDir? with
    | none =>
      rw [hout] at hplace
      exact hdiff hplace
    | some dir =>
      rw [hout] at hplace hsettings
      obtain ⟨input, rfl⟩ := List.length_eq_one_iff.mp (hsettings.resolve_left (by simp))
      rw [discover_run] at h
      obtain ⟨_, hmem, found, hfound, hu'⟩ := mem_of_mapM_flatten h hu
      obtain ⟨_, hmem', found', hfound', hv'⟩ := mem_of_mapM_flatten h hv
      rw [List.mem_singleton.mp hmem] at hfound
      rw [List.mem_singleton.mp hmem', hfound, Except.ok.injEq] at hfound'
      subst hfound'
      rw [w.eq_of_unitsOf hvalid hfound hu' hv' hplace] at hdiff
      exact hdiff ⟨rfl, rfl⟩
  · rw [SourceUnit.outputPath_eq]
    exact Path.same_withExtension_source_iff settings.dialect.isExtension
      hplaced.endsInName_target hplaced'.path

theorem discover_outputPaths_mixed :
    let tree : FileTree := ⟨[(["x.hks"], .file (.text "<p></p>")), (["d"], .directory),
      (["d", "x.hks"], .file (.text "<b></b>"))]⟩
    let w : Workspace := ⟨tree, []⟩
    let settings : Settings := ⟨true, false, none, "hks", []⟩
    let u : SourceUnit := ⟨"d/x.hks", "x.hks"⟩
    let v : SourceUnit := ⟨"x.hks", "x.hks"⟩
    ((discover settings.extension [] ["d", "x.hks"] : StateM Workspace _) w).1 = .ok [u, v] ∧
      ¬Path.Same u.path v.path ∧ ¬Path.Same (u.outputPath settings) (v.outputPath settings) := by
  intro tree w settings u v
  have hvalid : w.tree.Valid :=
    .ofEntries (by decide +kernel) (by decide +kernel) (by decide +kernel)
  have hunits : ((discover settings.extension [] ["d", "x.hks"] : StateM Workspace _) w).1 =
      .ok [u, v] := eq_ok_of_toOption (by decide +kernel)
  have hdiff : ¬Path.Same u.path v.path := by decide +kernel
  have houtputs := discover_outputPaths hvalid hunits (by simp : u ∈ [u, v]) (by simp : v ∈ [u, v])
  exact ⟨hunits, hdiff, houtputs.2.1 (.inl rfl) ⟨"x", by decide, by decide +kernel⟩
    ⟨"x", by decide, by decide +kernel⟩ hdiff⟩

theorem outputPaths_clash :
    let tree : FileTree := ⟨[(["a"], .directory), (["a", "x.hks"], .file (.text "<p></p>")),
      (["b"], .directory), (["b", "x.hks"], .file (.text "<p></p>"))]⟩
    let settings : Settings := ⟨false, false, some "out", "hks", []⟩
    let u : SourceUnit := ⟨"a/x.hks", "x.hks"⟩
    let v : SourceUnit := ⟨"b/x.hks", "x.hks"⟩
    tree.Valid ∧
      ((discover "hks" [] ["a", "b"] : StateM Workspace _) ⟨tree, []⟩).1 = .ok [u, v] ∧
      ¬Path.Same u.path v.path ∧ Path.Same (u.outputPath settings) (v.outputPath settings) := by
  intro tree settings u v
  refine ⟨.ofEntries (by decide +kernel) (by decide +kernel) (by decide +kernel),
    eq_ok_of_toOption (by decide +kernel), by decide +kernel⟩

end Sigil
