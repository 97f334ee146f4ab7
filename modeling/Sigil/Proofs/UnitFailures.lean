import Sigil.Proofs.OutputPaths
import Sigil.Run

namespace Sigil

/-- One tree has what the other one has, and directories besides. -/
def FileTree.Grows (tree tree' : FileTree) : Prop :=
  ∀ loc, tree'.find? loc = tree.find? loc ∨
    tree.find? loc = none ∧ tree'.find? loc = some .directory

/-- Two trees with the same files, their directories aside. -/
def FileTree.SameFiles (tree tree' : FileTree) : Prop :=
  ∀ loc content, tree'.find? loc = some (.file content) ↔ tree.find? loc = some (.file content)

namespace FileTree

variable {base loc : Location} {path : String} {segs : List String} {tree tree' tree'' : FileTree}

theorem Grows.refl (tree : FileTree) : tree.Grows tree := fun _ => .inl rfl

theorem Grows.trans (h : tree.Grows tree') (h' : tree'.Grows tree'') : tree.Grows tree'' := by
  intro loc
  rcases h' loc with hsame' | ⟨hnone', hdir'⟩
  · rw [hsame']
    exact h loc
  · right
    rcases h loc with hsame | ⟨-, hdir⟩
    · exact ⟨hsame ▸ hnone', hdir'⟩
    · rw [hdir] at hnone'
      cases hnone'

theorem Grows.find?_eq_some (h : tree.Grows tree') {e : Entry} (he : tree.find? loc = some e) :
    tree'.find? loc = some e := by
  rcases h loc with hsame | ⟨hnone, -⟩
  · rw [hsame, he]
  · rw [hnone] at he
    cases he

theorem Grows.sameFiles (h : tree.Grows tree') : tree.SameFiles tree' := by
  intro loc content
  constructor
  · intro hfile
    rcases h loc with hsame | ⟨-, hdir⟩
    · rw [← hsame, hfile]
    · rw [hdir] at hfile
      cases hfile
  · exact h.find?_eq_some

theorem Grows.keepsDirectories (h : tree.Grows tree') : tree.KeepsDirectories tree' :=
  fun _ => h.find?_eq_some

theorem grows_put_directory (h : tree.find? loc = none) : tree.Grows (tree.put loc .directory) := by
  have hroot : loc ≠ [] := ne_nil_of_find? (by rw [h]; simp : tree.find? loc ≠ _)
  intro loc'
  rw [find?_put hroot]
  by_cases heq : loc' = loc
  · right
    simp [heq, h]
  · left
    rw [if_neg heq]

end FileTree

/-- Of a workspace nothing changes but that directories are made. -/
structure Workspace.Grows (w w' : Workspace) : Prop where
  directory : w'.directory = w.directory
  tree : w.tree.Grows w'.tree

section Directories

variable {path : String} {w w' : Workspace} {result : Except SystemError Unit}

theorem Workspace.Grows.refl (w : Workspace) : w.Grows w := ⟨rfl, .refl _⟩

theorem Workspace.Grows.trans {w'' : Workspace} (h : w.Grows w') (h' : w'.Grows w'') :
    w.Grows w'' := ⟨h'.directory.trans h.directory, h.tree.trans h'.tree⟩

theorem makeDirectory_grows
    (h : (Storage.makeDirectory path : StateM Workspace _) w = (result, w')) : w.Grows w' := by
  change w.update (w.tree.makeDirectory w.directory path) = _ at h
  rcases w.tree.makeDirectory_cases w.directory path with
    ⟨loc, -, hnone, hmade⟩ | ⟨loc, e, -, -, hmade⟩ | ⟨e, -, hmade⟩
  · rw [hmade] at h
    cases h
    exact ⟨rfl, FileTree.grows_put_directory hnone⟩
  · rw [hmade] at h
    cases h
    exact .refl w
  · rw [hmade] at h
    cases h
    exact .refl w

theorem ensureDirectory_grows
    (h : (Storage.ensureDirectory path : StateM Workspace _) w = (result, w')) : w.Grows w' := by
  obtain ⟨made, mid, hmade, h⟩ := exists_of_bind_run h
  have hgrows := makeDirectory_grows hmade
  cases made with
  | ok =>
    cases h
    exact hgrows
  | error e =>
    obtain ⟨found, _, hfound, h⟩ := exists_of_bind_run h
    cases hfound
    split at h
    · cases h
      exact hgrows
    · cases h
      exact hgrows

theorem makeDirectories_grows
    (h : (Storage.makeDirectories path : StateM Workspace _) w = (result, w')) : w.Grows w' := by
  induction hlength : path.length using Nat.strong_induction_on generalizing path w w' result with
  | _ n ih =>
    by_cases hempty : path = ""
    · rw [hempty, Storage.makeDirectories_empty] at h
      cases h
      exact .refl w
    · cases hparent : Path.parent? path with
      | none =>
        rw [Storage.makeDirectories_of_root hempty hparent] at h
        obtain ⟨first, mid, hfirst, h⟩ := exists_of_bind_run h
        cases h
        exact ensureDirectory_grows hfirst
      | some parent =>
        rw [Storage.makeDirectories_of_parent hparent] at h
        obtain ⟨first, mid, hfirst, h⟩ := exists_of_bind_run h
        have hgrows := ensureDirectory_grows hfirst
        split at h
        · obtain ⟨above, mid', habove, h⟩ := exists_of_bind_run h
          have hgrows' := ih _ (hlength ▸ Path.length_parent?_lt hparent) habove rfl
          split at h
          · exact (hgrows.trans hgrows').trans (ensureDirectory_grows h)
          · cases h
            exact hgrows.trans hgrows'
        · cases h
          exact hgrows

end Directories

section Writing

variable {path text : String} {w w' : Workspace}

/-- A text is written in the end or not at all. -/
theorem write_cases {result : Except SystemError Unit}
    (h : (Storage.write path text : StateM Workspace _) w = (result, w')) :
    (∃ e, result = .error e ∧ w.Grows w') ∨
      ∃ mid loc, result = .ok () ∧ w.Grows mid ∧
        mid.tree.locate w.directory path = .ok loc ∧ mid.tree.find? loc ≠ some .directory ∧
        w' = { mid with tree := mid.tree.put loc (.file (.text text)) } := by
  obtain ⟨made, mid, hmade, h⟩ := exists_of_bind_run h
  have hgrows := makeDirectories_grows hmade
  cases made with
  | error e =>
    cases h
    exact .inl ⟨e, rfl, hgrows⟩
  | ok =>
    change mid.update (mid.tree.putFile mid.directory path (.text text)) = _ at h
    rcases mid.tree.putFile_cases mid.directory path (.text text) with
      ⟨loc, hlocate, hfile, hput⟩ | ⟨loc, -, -, hput⟩ | ⟨e, -, hput⟩
    · rw [hput] at h
      cases h
      exact .inr ⟨mid, loc, rfl, hgrows, hgrows.directory ▸ hlocate, hfile, rfl⟩
    · rw [hput] at h
      cases h
      exact .inl ⟨_, rfl, hgrows⟩
    · rw [hput] at h
      cases h
      exact .inl ⟨_, rfl, hgrows⟩

/-- Of several files the first one decides: either nothing is written, or it is and the others
follow. -/
theorem writeFiles_cons_cases {files : List (String × String)}
    {result : Except FailureCause Unit}
    (h : (writeFiles ((path, text) :: files) : StateM Workspace _) w = (result, w')) :
    (∃ reason, result = .error (.write path reason) ∧ w.Grows w') ∨
      ∃ mid, (Storage.write path text : StateM Workspace _) w = (.ok (), mid) ∧
        (writeFiles files : StateM Workspace _) mid = (result, w') := by
  rw [writeFiles] at h
  obtain ⟨written, mid, hwritten, h⟩ := exists_of_bind_run h
  cases written with
  | ok => exact .inr ⟨mid, hwritten, h⟩
  | error e =>
    cases h
    rcases write_cases hwritten with ⟨e', -, hgrows⟩ | ⟨_, _, hok, -⟩
    · exact .inl ⟨e.message, rfl, hgrows⟩
    · cases hok

theorem writeFiles_pair_failure {mapPath map : String} {cause : FailureCause}
    (h : (writeFiles [(path, text), (mapPath, map)] : StateM Workspace _) w = (.error cause, w')) :
    (∃ reason, cause = .write path reason ∧ w.Grows w') ∨
      ∃ reason loc, cause = .write mapPath reason ∧ w'.tree.locate w.directory path = .ok loc ∧
        w'.tree.find? loc = some (.file (.text text)) ∧
        ∀ loc' ≠ loc, ∀ content, w'.tree.find? loc' = some (.file content) ↔
          w.tree.find? loc' = some (.file content) := by
  rcases writeFiles_cons_cases h with ⟨reason, hcause, hgrows⟩ | ⟨mid, hfirst, h⟩
  · cases hcause
    exact .inl ⟨reason, rfl, hgrows⟩
  · rcases writeFiles_cons_cases h with ⟨reason, hcause, hgrows⟩ | ⟨mid', -, h⟩
    · cases hcause
      rcases write_cases hfirst with ⟨e, he, -⟩ | ⟨made, loc, -, hmade, hlocate, hfile, rfl⟩
      · cases he
      · have hroot := FileTree.ne_nil_of_find? hfile
        have hput (loc' : Location) : (made.tree.put loc (.file (.text text))).find? loc' =
            if loc' = loc then some (.file (.text text)) else made.tree.find? loc' :=
          FileTree.find?_put hroot
        refine .inr ⟨reason, loc, rfl, ?_, ?_, ?_⟩
        · exact hgrows.tree.keepsDirectories.locate_eq_ok
            ((FileTree.keepsDirectories_put hfile).locate_eq_ok hlocate)
        · exact hgrows.tree.find?_eq_some (by rw [hput, if_pos rfl])
        · intro loc' hne content
          rw [hgrows.tree.sameFiles, hput, if_neg hne, hmade.tree.sameFiles]
    · cases h

theorem compileUnit_cases {args : Args} {settings : Settings} {unit : SourceUnit}
    {failure : Failure}
    (h : (compileUnit args settings unit : StateM Workspace _) w = (.error failure, w')) :
    w' = w ∧ (∀ target reason, failure.cause ≠ .write target reason) ∨
      ∃ source output, w.tree.read w.directory unit.path = .ok source ∧
        compile source (unit.options args settings) = .ok output ∧
        (writeFiles (output.files (unit.outputPath settings)) : StateM Workspace _) w =
          (.error failure.cause, w') := by
  rw [compileUnit] at h
  obtain ⟨found, _, hfound, h⟩ := exists_of_bind_run h
  have hread : (w.tree.read w.directory unit.path, w) = (found, _) := hfound
  cases hread
  cases hsource : w.tree.read w.directory unit.path with
  | error e =>
    rw [hsource] at h
    cases h
    exact .inl ⟨rfl, fun _ _ heq => by cases heq⟩
  | ok source =>
    rw [hsource] at h
    cases hcompile : compile source (unit.options args settings) with
    | error d =>
      simp only [hcompile] at h
      cases h
      exact .inl ⟨rfl, fun _ _ heq => by cases heq⟩
    | ok output =>
      simp only [hcompile] at h
      split at h
      · cases h
      · obtain ⟨written, mid, hwritten, h⟩ := exists_of_bind_run h
        cases written with
        | ok => cases h
        | error cause =>
          cases h
          exact .inr ⟨source, output, rfl, hcompile, hwritten⟩

end Writing

end Sigil
