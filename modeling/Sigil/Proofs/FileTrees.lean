import Mathlib.Data.List.Induction
import Sigil.FileTree
import Sigil.Proofs.Paths

namespace Sigil

section Running

variable {σ α β : Type} {x : StateM σ α} {f : α → StateM σ β} {a : α} {s s' : σ}

theorem bind_run (h : x s = (a, s')) : (x >>= f) s = f a s' := by
  change f (x s).1 (x s).2 = f a s'
  rw [h]

theorem exists_of_bind_run {r : β × σ} (h : (x >>= f) s = r) :
    ∃ a s', x s = (a, s') ∧ f a s' = r :=
  ⟨(x s).1, (x s).2, rfl, h⟩

end Running

namespace FileTree

variable {tree : FileTree} {base dir loc loc' : Location} {path segment : String}

theorem lookup_of_mem {α : Type} {entries : List (Location × α)} {a : α}
    (hkeys : (entries.map Prod.fst).Nodup) (h : (loc, a) ∈ entries) :
    entries.lookup loc = some a := by
  obtain ⟨before, after, rfl⟩ := List.append_of_mem h
  rw [List.lookup_eq_some_iff]
  refine ⟨before, after, rfl, ?_⟩
  intro p hp
  rw [List.map_append, List.nodup_append] at hkeys
  have hne := hkeys.2.2 p.1 (List.mem_map_of_mem hp) loc (by simp)
  simpa using Ne.symm hne

theorem lookup_filter_ne {entries : List (Location × Entry)} (h : loc' ≠ loc) :
    (entries.filter (·.1 ≠ loc)).lookup loc' = entries.lookup loc' := by
  induction entries with
  | nil => rfl
  | cons entry entries ih =>
    obtain ⟨key, e⟩ := entry
    by_cases hkey : key = loc
    · have hne : (loc' == key) = false := by simpa [hkey] using h
      rw [List.filter_cons_of_neg (by simp [hkey]), List.lookup_cons, hne, ih]
    · rw [List.filter_cons_of_pos (by simp [hkey]), List.lookup_cons, List.lookup_cons, ih]

theorem find?_put {e : Entry} (h : loc ≠ []) :
    (tree.put loc e).find? loc' = if loc' = loc then some e else tree.find? loc' := by
  by_cases heq : loc' = loc
  · subst heq
    rw [if_pos rfl, find?, if_neg h, put, List.lookup_cons_self]
  · rw [if_neg heq, find?, find?]
    by_cases hroot : loc' = []
    · rw [if_pos hroot, if_pos hroot]
    · have hne : (loc' == loc) = false := by simpa using heq
      rw [if_neg hroot, if_neg hroot, put, List.lookup_cons, hne, lookup_filter_ne heq]

theorem ne_nil_of_find? (h : tree.find? loc ≠ some .directory) : loc ≠ [] := by
  rintro rfl
  exact h rfl

/-- Where a segment leads to out of a directory. -/
def step (loc : Location) (segment : String) : Location :=
  if segment = "" ∨ segment = "." then loc
  else if segment = ".." then loc.dropLast
  else loc ++ [segment]

theorem step_name (h : Path.IsName segment) : step loc segment = loc ++ [segment] := by
  rw [step, if_neg (by simp [h.ne_empty, h.ne_dot]), if_neg h.ne_dots]

theorem follow_of_none (h : tree.find? loc = none) :
    tree.follow loc segment = .error .notFound := by
  rw [follow, h]
  rfl

theorem follow_of_file {content : Content} (h : tree.find? loc = some (.file content)) :
    tree.follow loc segment = .error .notADirectory := by
  rw [follow, h]
  rfl

theorem follow_of_directory (h : tree.find? loc = some .directory) :
    tree.follow loc segment =
      if nameLimit < segment.utf8ByteSize then .error .nameTooLong
      else .ok (step loc segment) := by
  rw [follow, h, step]
  by_cases hstay : segment = "" ∨ segment = "."
  · have hshort : ¬nameLimit < segment.utf8ByteSize := by
      rcases hstay with rfl | rfl <;> decide
    simp only [hshort, hstay, ↓reduceIte]
    rfl
  · by_cases hup : segment = ".."
    · subst hup
      rfl
    · simp only [hstay, hup, ↓reduceIte]
      rfl

theorem follow_eq_ok_iff :
    tree.follow loc segment = .ok loc' ↔
      tree.find? loc = some .directory ∧ segment.utf8ByteSize ≤ nameLimit ∧
        loc' = step loc segment := by
  rcases hfind : tree.find? loc with _ | ⟨_ | content⟩
  · simp [follow_of_none hfind]
  · rw [follow_of_directory hfind]
    by_cases hlong : nameLimit < segment.utf8ByteSize
    · simp [hlong, Nat.not_le.mpr hlong]
    · simp [hlong, Nat.not_lt.mp hlong, eq_comm]
  · simp [follow_of_file hfind]

/-- Follows segments in turn. -/
def walk (tree : FileTree) (loc : Location) (segs : List String) : Except SystemError Location :=
  segs.foldlM tree.follow loc

theorem walk_concat {init : List String} :
    tree.walk loc (init ++ [segment]) =
      tree.walk loc init >>= fun mid => tree.follow mid segment := by
  rw [walk, List.foldlM_append]
  change (tree.walk loc init >>= fun mid => [segment].foldlM tree.follow mid) = _
  congr 1
  funext mid
  rw [List.foldlM_cons]
  exact bind_pure _

theorem walk_concat_eq_ok_iff {init : List String} :
    tree.walk loc (init ++ [segment]) = .ok loc' ↔
      ∃ mid, tree.walk loc init = .ok mid ∧ tree.follow mid segment = .ok loc' := by
  rw [walk_concat]
  cases tree.walk loc init with
  | error e => simp [bind, Except.bind]
  | ok mid => simp [bind, Except.bind]

/-- Where a path starts from. -/
def origin (base : Location) (path : String) : Location :=
  if Path.isAbsolute path then [] else base

theorem origin_congr {p q : String} (base : Location) (h : Path.isAbsolute p = Path.isAbsolute q) :
    origin base p = origin base q := by
  rw [origin, origin, h]

/-- A path that the system takes at all. -/
structure IsTaken (path : String) : Prop where
  clean : '\x00' ∉ path.toList
  nonempty : path ≠ ""
  short : path.utf8ByteSize ≤ pathLimit

instance (path : String) : Decidable (IsTaken path) :=
  decidable_of_iff ('\x00' ∉ path.toList ∧ path ≠ "" ∧ path.utf8ByteSize ≤ pathLimit)
    ⟨fun h => ⟨h.1, h.2.1, h.2.2⟩, fun h => ⟨h.clean, h.nonempty, h.short⟩⟩

theorem locate_of_isTaken (h : IsTaken path) :
    tree.locate base path = tree.walk (origin base path) (Path.segments path) := by
  have hclean : path.toList.contains '\x00' = false := by
    simpa using h.clean
  have hshort : ¬pathLimit < path.utf8ByteSize := Nat.not_lt.mpr h.short
  rw [locate, if_neg (by rw [hclean]; decide), if_neg h.nonempty, if_neg hshort]
  rfl

theorem isTaken_of_locate (h : tree.locate base path = .ok loc) : IsTaken path := by
  rw [locate] at h
  by_cases hclean : path.toList.contains '\x00' = true
  · rw [if_pos hclean] at h
    cases h
  · by_cases hempty : path = ""
    · rw [if_neg hclean, if_pos hempty] at h
      cases h
    · by_cases hlong : pathLimit < path.utf8ByteSize
      · rw [if_neg hclean, if_neg hempty, if_pos hlong] at h
        cases h
      · exact ⟨by simpa using hclean, hempty, Nat.not_lt.mp hlong⟩

/-- Why a path is not taken. -/
def refusal (path : String) : SystemError :=
  if '\x00' ∈ path.toList then .nulInName
  else if path = "" then .notFound
  else .nameTooLong

theorem locate_of_not_isTaken (h : ¬IsTaken path) :
    tree.locate base path = .error (refusal path) := by
  rw [locate, refusal]
  by_cases hclean : '\x00' ∈ path.toList
  · rw [if_pos (by simpa using hclean), if_pos hclean]
    rfl
  · rw [if_neg (by simpa using hclean), if_neg hclean]
    by_cases hempty : path = ""
    · rw [if_pos hempty, if_pos hempty]
      rfl
    · have hlong : pathLimit < path.utf8ByteSize := by
        by_contra hshort
        exact h ⟨hclean, hempty, Nat.not_lt.mp hshort⟩
      rw [if_neg hempty, if_neg hempty, if_pos hlong]
      rfl

theorem walk_of_locate (h : tree.locate base path = .ok loc) :
    tree.walk (origin base path) (Path.segments path) = .ok loc := by
  rw [← locate_of_isTaken (isTaken_of_locate h), h]

def KeepsDirectories (tree tree' : FileTree) : Prop :=
  ∀ loc, tree.find? loc = some .directory → tree'.find? loc = some .directory

theorem KeepsDirectories.walk_eq_ok {tree' : FileTree} {segs : List String}
    (h : tree.KeepsDirectories tree') (hwalk : tree.walk loc segs = .ok loc') :
    tree'.walk loc segs = .ok loc' := by
  induction segs using List.reverseRecOn generalizing loc' with
  | nil => exact hwalk
  | append_singleton segs s ih =>
    rw [walk_concat_eq_ok_iff] at hwalk ⊢
    obtain ⟨mid, hmid, hlast⟩ := hwalk
    obtain ⟨hdir, hshort, rfl⟩ := follow_eq_ok_iff.mp hlast
    exact ⟨mid, ih hmid, follow_eq_ok_iff.mpr ⟨h mid hdir, hshort, rfl⟩⟩

/-- What a path leads to is found again as long as no directory goes away. -/
theorem KeepsDirectories.locate_eq_ok {tree' : FileTree} (h : tree.KeepsDirectories tree')
    (hlocate : tree.locate base path = .ok loc) : tree'.locate base path = .ok loc := by
  rw [locate_of_isTaken (isTaken_of_locate hlocate)]
  exact h.walk_eq_ok (walk_of_locate hlocate)

theorem keepsDirectories_put {e : Entry} (h : tree.find? loc ≠ some .directory) :
    tree.KeepsDirectories (tree.put loc e) := by
  intro loc' hdir
  rw [find?_put (ne_nil_of_find? h), if_neg, hdir]
  rintro rfl
  exact h hdir

/-- Everything stands in a directory. -/
def Closed (tree : FileTree) : Prop :=
  ∀ loc e, tree.find? loc = some e → tree.find? loc.dropLast = some .directory

theorem Closed.put {e : Entry} (h : tree.Closed) (hloc : tree.find? loc ≠ some .directory)
    (hparent : tree.find? loc.dropLast = some .directory) : (tree.put loc e).Closed := by
  intro loc' e' hfind
  have hroot := ne_nil_of_find? hloc
  rw [find?_put hroot] at hfind ⊢
  have habove : tree.find? loc'.dropLast = some .directory := by
    split at hfind
    case isTrue heq =>
      rw [heq]
      exact hparent
    case isFalse => exact h loc' e' hfind
  rw [if_neg, habove]
  intro heq
  exact hloc (heq ▸ habove)

/-- Only names lead to what is no directory. -/
theorem Closed.parent_of_locate (h : tree.Closed) (hlocate : tree.locate base path = .ok loc)
    (hloc : tree.find? loc ≠ some .directory) : tree.find? loc.dropLast = some .directory := by
  have hwalk := walk_of_locate hlocate
  rcases List.eq_nil_or_concat (Path.segments path) with hsegs | ⟨init, s, hsegs⟩
  · exact absurd hsegs (Path.spells_segments path).nonempty
  · rw [List.concat_eq_append] at hsegs
    rw [hsegs, walk_concat_eq_ok_iff] at hwalk
    obtain ⟨mid, -, hlast⟩ := hwalk
    obtain ⟨hdir, -, rfl⟩ := follow_eq_ok_iff.mp hlast
    rw [step] at hloc ⊢
    split at hloc
    case isTrue => exact absurd hdir hloc
    case isFalse hstay =>
      split at hloc
      case isTrue => exact absurd (h mid _ hdir) hloc
      case isFalse hup => rwa [if_neg hstay, if_neg hup, List.dropLast_concat]

/-- A tree as a system keeps it: each entry stands once, under names, in a directory. -/
structure Valid (tree : FileTree) : Prop where
  keys : (tree.entries.map Prod.fst).Nodup
  names : ∀ e ∈ tree.entries, ∀ s ∈ e.1, Path.IsName s
  closed : tree.Closed

theorem Valid.ofEntries (hkeys : (tree.entries.map Prod.fst).Nodup)
    (hnames : ∀ e ∈ tree.entries, ∀ s ∈ e.1, Path.IsName s)
    (hclosed : ∀ e ∈ tree.entries, tree.find? e.1.dropLast = some .directory) : tree.Valid := by
  refine ⟨hkeys, hnames, ?_⟩
  intro loc e hfind
  by_cases hroot : loc = []
  · subst hroot
    rfl
  · rw [find?, if_neg hroot] at hfind
    obtain ⟨before, after, hentries, -⟩ := List.lookup_eq_some_iff.mp hfind
    exact hclosed (loc, e) (by simp [hentries])

theorem entry_eq_ok_iff {e : Entry} :
    tree.entry base path = .ok e ↔
      ∃ loc, tree.locate base path = .ok loc ∧ tree.find? loc = some e := by
  rw [entry]
  cases tree.locate base path with
  | error e => simp [bind, Except.bind]
  | ok loc =>
    cases h : tree.find? loc with
    | none => simp [bind, Except.bind, throw, throwThe, MonadExceptOf.throw, h]
    | some e => simp [bind, Except.bind, pure, Except.pure, h]

theorem isFile_iff :
    tree.isFile base path = true ↔ ∃ content, tree.entry base path = .ok (.file content) := by
  rw [isFile]
  rcases tree.entry base path with _ | ⟨_ | content⟩ <;> simp

theorem isDirectory_iff :
    tree.isDirectory base path = true ↔ tree.entry base path = .ok .directory := by
  rw [isDirectory]
  rcases tree.entry base path with _ | ⟨_ | content⟩ <;> simp

/-- Only a name leads to a file: every other segment leads to a directory. -/
theorem Valid.endsInName (hvalid : tree.Valid) (h : tree.isFile base path = true) :
    Path.EndsInName path := by
  obtain ⟨content, hentry⟩ := isFile_iff.mp h
  obtain ⟨loc, hlocate, hfile⟩ := entry_eq_ok_iff.mp hentry
  have hwalk := walk_of_locate hlocate
  have hspells := Path.spells_segments path
  rcases List.eq_nil_or_concat (Path.segments path) with hsegs | ⟨init, name, hsegs⟩
  · exact absurd hsegs hspells.nonempty
  · rw [List.concat_eq_append] at hsegs
    rw [hsegs, walk_concat_eq_ok_iff] at hwalk
    obtain ⟨before, -, hlast⟩ := hwalk
    obtain ⟨hdir, -, rfl⟩ := follow_eq_ok_iff.mp hlast
    refine ⟨init, name, hsegs, ?_, hspells.plain name (by simp [hsegs])⟩
    intro hspecial
    simp only [List.mem_cons, List.not_mem_nil, or_false] at hspecial
    rcases hspecial with rfl | rfl | rfl
    · simp [step, hdir] at hfile
    · simp [step, hdir] at hfile
    · have hparent := hvalid.closed _ _ hdir
      simp [step, hparent] at hfile

theorem namesBelow?_eq_some_iff {names : List String} :
    namesBelow? dir loc = some names ↔ loc = dir ++ names := by
  fun_induction namesBelow? dir loc with
  | case1 names' => simp
  | case2 a dir loc ih => simpa using ih
  | case3 a dir b loc hne => simp [Ne.symm hne]
  | case4 => simp

theorem mem_filesBelow {names : List String} (h : names ∈ tree.filesBelow base path) :
    ∃ dir content, tree.locate base path = .ok dir ∧
      (dir ++ names, Entry.file content) ∈ tree.entries := by
  rw [filesBelow] at h
  cases hlocate : tree.locate base path with
  | error e => simp [hlocate] at h
  | ok dir =>
    simp only [hlocate, List.mem_filterMap] at h
    obtain ⟨⟨loc, _ | content⟩, hmem, hnames⟩ := h
    · simp at hnames
    · rw [namesBelow?_eq_some_iff] at hnames
      exact ⟨dir, content, rfl, hnames ▸ hmem⟩

theorem makeDirectory_cases (tree : FileTree) (base : Location) (path : String) :
    (∃ loc, tree.locate base path = .ok loc ∧ tree.find? loc = none ∧
        tree.makeDirectory base path = .ok (tree.put loc .directory)) ∨
      (∃ loc e, tree.locate base path = .ok loc ∧ tree.find? loc = some e ∧
        tree.makeDirectory base path = .error .alreadyExists) ∨
      ∃ error, tree.locate base path = .error error ∧
        tree.makeDirectory base path = .error error := by
  rw [makeDirectory]
  cases tree.locate base path with
  | error error => exact .inr (.inr ⟨error, rfl, rfl⟩)
  | ok loc =>
    cases hfind : tree.find? loc with
    | none => exact .inl ⟨loc, rfl, hfind, by simp [bind, Except.bind, hfind, pure, Except.pure]⟩
    | some e =>
      refine .inr (.inl ⟨loc, e, rfl, hfind, ?_⟩)
      simp [bind, Except.bind, hfind, throw, throwThe, MonadExceptOf.throw]

theorem putFile_cases (tree : FileTree) (base : Location) (path : String) (content : Content) :
    (∃ loc, tree.locate base path = .ok loc ∧ tree.find? loc ≠ some .directory ∧
        tree.putFile base path content = .ok (tree.put loc (.file content))) ∨
      (∃ loc, tree.locate base path = .ok loc ∧ tree.find? loc = some .directory ∧
        tree.putFile base path content = .error .isADirectory) ∨
      ∃ error, tree.locate base path = .error error ∧
        tree.putFile base path content = .error error := by
  rw [putFile]
  cases tree.locate base path with
  | error error => exact .inr (.inr ⟨error, rfl, rfl⟩)
  | ok loc =>
    rcases hfind : tree.find? loc with _ | ⟨_ | old⟩
    · exact .inl ⟨loc, rfl, by simp [hfind], by simp [bind, Except.bind, hfind, pure, Except.pure]⟩
    · refine .inr (.inl ⟨loc, rfl, hfind, ?_⟩)
      simp [bind, Except.bind, hfind, throw, throwThe, MonadExceptOf.throw]
    · exact .inl ⟨loc, rfl, by simp [hfind], by simp [bind, Except.bind, hfind, pure, Except.pure]⟩

theorem putFile_of_locate {content : Content} (hlocate : tree.locate base path = .ok loc)
    (hloc : tree.find? loc ≠ some .directory) :
    tree.putFile base path content = .ok (tree.put loc (.file content)) := by
  rcases tree.putFile_cases base path content with
    ⟨loc', hlocate', -, hput⟩ | ⟨loc', hlocate', hdir, -⟩ | ⟨e, hlocate', -⟩
  · rw [hlocate, Except.ok.injEq] at hlocate'
    rw [hlocate', hput]
  · rw [hlocate, Except.ok.injEq] at hlocate'
    exact absurd (hlocate' ▸ hdir) hloc
  · rw [hlocate] at hlocate'
    cases hlocate'

theorem putFile_of_directory {content : Content} (hlocate : tree.locate base path = .ok loc)
    (hloc : tree.find? loc = some .directory) :
    tree.putFile base path content = .error .isADirectory := by
  rcases tree.putFile_cases base path content with
    ⟨loc', hlocate', hne, -⟩ | ⟨_, -, -, hput⟩ | ⟨e, hlocate', -⟩
  · rw [hlocate, Except.ok.injEq] at hlocate'
    exact absurd (hlocate' ▸ hloc) hne
  · exact hput
  · rw [hlocate] at hlocate'
    cases hlocate'

end FileTree

namespace Storage

variable {m : Type → Type} [Monad m] [Storage m] {parent path : String}

theorem makeDirectories_of_parent (h : Path.parent? path = some parent) :
    (makeDirectories path : m _) = do
      let first ← ensureDirectory path
      if first = .error .notFound then
        let above ← makeDirectories parent
        if above = .ok () then ensureDirectory path else return above
      else return first := by
  have hpath : path ≠ "" := by
    rintro rfl
    cases h
  rw [makeDirectories, if_neg hpath]
  congr 1
  funext first
  rw [h]
  cases first with
  | ok => rfl
  | error e =>
    by_cases hmissing : e = .notFound
    · subst hmissing
      rw [if_pos rfl]
      change (if parent.length < path.length then _ else _) = _
      rw [if_pos (Path.length_parent?_lt h)]
      congr 1
      funext above
      cases above with
      | ok => rfl
      | error e => rfl
    · rw [if_neg (by simpa using hmissing)]
      cases e <;> first | rfl | exact absurd rfl hmissing

theorem makeDirectories_of_root (hpath : path ≠ "") (h : Path.parent? path = none) :
    (makeDirectories path : m _) = ensureDirectory path >>= pure := by
  rw [makeDirectories, if_neg hpath]
  congr 1
  funext first
  rw [h]
  cases first with
  | ok => rfl
  | error e => cases e <;> rfl

theorem makeDirectories_empty : (makeDirectories "" : m _) = pure (.ok ()) := by
  rw [makeDirectories, if_pos rfl]

end Storage

end Sigil
