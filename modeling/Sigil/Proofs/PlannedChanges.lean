import Sigil.Proofs.Directories
import Sigil.Proofs.Workers

namespace Sigil

/-- Two results that differ at most in what `erase` takes from their errors, and not even in that
where `exact` holds. -/
def Alike {ε ε' α : Type} (exact : Prop) (erase : ε → ε') (r r' : Except ε α) : Prop :=
  r.mapError erase = r'.mapError erase ∧ (exact → r = r')

theorem Alike.refl {ε ε' α : Type} (exact : Prop) (erase : ε → ε') (r : Except ε α) :
    Alike exact erase r r :=
  ⟨rfl, fun _ => rfl⟩

theorem Alike.symm {ε ε' α : Type} {exact : Prop} {erase : ε → ε'} {r r' : Except ε α}
    (h : Alike exact erase r r') : Alike exact erase r' r :=
  ⟨h.1.symm, fun hexact => (h.2 hexact).symm⟩

theorem Alike.trans {ε ε' α : Type} {exact : Prop} {erase : ε → ε'} {r r' r'' : Except ε α}
    (h : Alike exact erase r r') (h' : Alike exact erase r' r'') : Alike exact erase r r'' :=
  ⟨h.1.trans h'.1, fun hexact => (h.2 hexact).trans (h'.2 hexact)⟩

theorem Alike.mono {ε ε' α : Type} {exact exact' : Prop} {erase : ε → ε'} {r r' : Except ε α}
    (hexact : exact' → exact) (h : Alike exact erase r r') : Alike exact' erase r r' :=
  ⟨h.1, fun h' => h.2 (hexact h')⟩

theorem Alike.map {ε ε' ε₁ ε₁' α β : Type} {exact : Prop} {erase : ε → ε'} {erase₁ : ε₁ → ε₁'}
    {r r' : Except ε α} {f : ε → ε₁} (h : Alike exact erase r r') (g : α → β)
    (hf : ∀ {e e'}, erase e = erase e' → erase₁ (f e) = erase₁ (f e')) :
    Alike exact erase₁ ((r.map g).mapError f) ((r'.map g).mapError f) := by
  obtain ⟨hsame, hexact⟩ := h
  refine ⟨?_, fun h => by rw [hexact h]⟩
  cases r with
  | ok a =>
    cases r' with
    | ok a' =>
      cases hsame
      rfl
    | error e' => cases hsame
  | error e =>
    cases r' with
    | ok a' => cases hsame
    | error e' => exact congrArg Except.error (hf (Except.error.inj hsame))

/-- What several workers are going to put into a workspace together: files with their texts, and
directories where nothing is yet. -/
structure Plan where
  start : Workspace
  files : List (Location × String)
  directories : List Location

namespace Plan

/-- What a location holds in the end. -/
def outcome (plan : Plan) (loc : Location) : Option Entry :=
  match plan.files.lookup loc with
  | some text => some (.file (.text text))
  | none =>
    if plan.start.tree.find? loc = none ∧ loc ∈ plan.directories then some .directory
    else plan.start.tree.find? loc

/-- A plan whose parts do not stand in each other's way. -/
structure Sound (plan : Plan) : Prop where
  keys : (plan.files.map Prod.fst).Nodup
  targets : ∀ f ∈ plan.files, plan.start.tree.find? f.1 ≠ some .directory

/-- A workspace in which every location is as at the start or as in the end. -/
structure UnderWay (plan : Plan) (w : Workspace) : Prop where
  directory : w.directory = plan.start.directory
  closed : w.tree.Closed
  entries : ∀ loc, w.tree.find? loc = plan.start.tree.find? loc ∨
    w.tree.find? loc = plan.outcome loc

/-- Some locations come to hold what they hold in the end. -/
def Moves (plan : Plan) (w w' : Workspace) : Prop :=
  ∀ loc, w'.tree.find? loc = w.tree.find? loc ∨ w'.tree.find? loc = plan.outcome loc

/-- Workers that carry out a plan. -/
def env (plan : Plan) : Interference where
  allows w w' := plan.UnderWay w → plan.UnderWay w' ∧ plan.Moves w w'
  refl _ hw := ⟨hw, fun _ => .inl rfl⟩
  trans h h' hw := by
    obtain ⟨hw', hmoves⟩ := h hw
    obtain ⟨hw'', hmoves'⟩ := h' hw'
    refine ⟨hw'', fun loc => ?_⟩
    rcases hmoves' loc with hsame | hdone
    · rw [hsame]
      exact hmoves loc
    · exact .inr hdone

variable {plan : Plan} {w w' : Workspace} {loc : Location} {text : String}

theorem underWay_start (hclosed : plan.start.tree.Closed) : plan.UnderWay plan.start :=
  ⟨rfl, hclosed, fun _ => .inl rfl⟩

theorem outcome_of_not_mem (h : loc ∉ plan.files.map Prod.fst) :
    plan.outcome loc =
      if plan.start.tree.find? loc = none ∧ loc ∈ plan.directories then some .directory
      else plan.start.tree.find? loc := by
  have hnone : plan.files.lookup loc = none := by
    rw [List.lookup_eq_none_iff]
    intro f hf
    simp only [bne_iff_ne, ne_eq]
    rintro rfl
    exact h (List.mem_map_of_mem hf)
  rw [outcome, hnone]

/-- Where no file is planned, files are as they were. -/
theorem UnderWay.filesAlike (hw : plan.UnderWay w) {locs : List Location}
    (h : ∀ l ∈ locs, l ∉ plan.files.map Prod.fst) :
    plan.start.tree.FilesAlike w.tree locs := by
  intro l hl
  rcases hw.entries l with hstart | hend
  · rw [FileTree.hasFile, FileTree.hasFile, hstart]
  · rw [outcome_of_not_mem (h l hl)] at hend
    rw [FileTree.hasFile, FileTree.hasFile, hend]
    by_cases hmade : plan.start.tree.find? l = none ∧ l ∈ plan.directories
    · rw [if_pos hmade, hmade.1]
    · rw [if_neg hmade]

theorem UnderWay.allows_put {e : Entry} (hw : plan.UnderWay w) {path : String}
    (hlocate : w.tree.locate w.directory path = .ok loc)
    (hloc : w.tree.find? loc ≠ some .directory) (he : plan.outcome loc = some e) :
    plan.env.allows w { w with tree := w.tree.put loc e } := by
  intro _
  have hput (l : Location) : (w.tree.put loc e).find? l =
      if l = loc then some e else w.tree.find? l :=
    FileTree.find?_put (FileTree.ne_nil_of_find? hloc)
  have hmoves : plan.Moves w { w with tree := w.tree.put loc e } := by
    intro l
    rw [hput]
    by_cases heq : l = loc
    · right
      rw [if_pos heq, heq, he]
    · left
      rw [if_neg heq]
  refine ⟨⟨hw.directory, ?_, ?_⟩, hmoves⟩
  · exact hw.closed.put hloc (hw.closed.parent_of_locate hlocate hloc)
  · intro l
    rcases hmoves l with hsame | hdone
    · rw [hsame]
      exact hw.entries l
    · exact .inr hdone

/-- A directory may be made that is planned and missing. -/
theorem UnderWay.allows_directory (hw : plan.UnderWay w) {path : String}
    (hlocate : w.tree.locate w.directory path = .ok loc) (hnone : w.tree.find? loc = none)
    (hfile : loc ∉ plan.files.map Prod.fst)
    (hmade : plan.start.tree.find? loc = none → loc ∈ plan.directories) :
    plan.env.allows w { w with tree := w.tree.put loc .directory } := by
  have hstart : plan.start.tree.find? loc = none := by
    rcases hw.entries loc with hstart | hend
    · rw [← hstart, hnone]
    · rw [outcome_of_not_mem hfile, hnone] at hend
      split at hend
      · cases hend
      · exact hend.symm
  refine hw.allows_put hlocate (by rw [hnone]; simp) ?_
  rw [outcome_of_not_mem hfile, if_pos ⟨hstart, hmade hstart⟩]

namespace Sound

theorem outcome_of_mem (hplan : plan.Sound) (h : (loc, text) ∈ plan.files) :
    plan.outcome loc = some (.file (.text text)) := by
  rw [outcome, FileTree.lookup_of_mem hplan.keys h]

/-- No directory goes away. -/
theorem outcome_of_directory (hplan : plan.Sound)
    (h : plan.start.tree.find? loc = some .directory) : plan.outcome loc = some .directory := by
  have hmem : loc ∉ plan.files.map Prod.fst := by
    intro hmem
    obtain ⟨f, hf, rfl⟩ := List.mem_map.mp hmem
    exact hplan.targets f hf h
  rw [outcome_of_not_mem hmem, h]
  simp

theorem directory_stays (hplan : plan.Sound) (hw : plan.UnderWay w) (hmoves : plan.Moves w w')
    (h : w.tree.find? loc = some .directory) : w'.tree.find? loc = some .directory := by
  rcases hmoves loc with hsame | hdone
  · rw [hsame, h]
  · rw [hdone]
    rcases hw.entries loc with hstart | hend
    · exact hplan.outcome_of_directory (hstart ▸ h)
    · rw [← hend, h]

theorem directory_of_start (hplan : plan.Sound) (hw : plan.UnderWay w)
    (h : plan.start.tree.find? loc = some .directory) : w.tree.find? loc = some .directory := by
  rcases hw.entries loc with hstart | hend
  · rw [hstart, h]
  · rw [hend, hplan.outcome_of_directory h]

theorem ne_directory (hplan : plan.Sound) (hw : plan.UnderWay w)
    (hmem : (loc, text) ∈ plan.files) : w.tree.find? loc ≠ some .directory := by
  rcases hw.entries loc with hstart | hend
  · rw [hstart]
    exact hplan.targets _ hmem
  · rw [hend, hplan.outcome_of_mem hmem]
    simp

/-- A file may be put that is planned. -/
theorem allows_file (hplan : plan.Sound) (hw : plan.UnderWay w) {path : String}
    (hlocate : w.tree.locate w.directory path = .ok loc) (hmem : (loc, text) ∈ plan.files) :
    plan.env.allows w { w with tree := w.tree.put loc (.file (.text text)) } :=
  hw.allows_put hlocate (hplan.ne_directory hw hmem) (hplan.outcome_of_mem hmem)

end Sound

/-- A path to a directory that a plan lets workers make as far as it is missing. -/
structure Way (plan : Plan) (path : String) (ss : List String) : Prop where
  leads : Path.Leads path ss
  taken : path = "" ∨ FileTree.IsTaken path
  origin : plan.start.tree.find? (FileTree.origin plan.start.directory path) = some .directory
  clear : ∀ l ∈ FileTree.visits (FileTree.origin plan.start.directory path) ss,
    l ∉ plan.files.map Prod.fst
  planned : ∀ l ∈ plan.start.tree.passed (FileTree.origin plan.start.directory path) ss,
    plan.start.tree.find? l = none → l ∈ plan.directories

/-- A result that the making of a directory comes to, and what then has been made. -/
structure Made (plan : Plan) (path : String) (ss : List String) (result : Except SystemError Unit)
    (w : Workspace) : Prop where
  result : result =
    (plan.start.tree.reach (FileTree.origin plan.start.directory path) ss).map fun _ => ()
  passed : ∀ l ∈ plan.start.tree.passed (FileTree.origin plan.start.directory path) ss,
    w.tree.find? l = some .directory

/-- What is known where a directory on the way to another one is missing. -/
structure Missing (plan : Plan) (path : String) (ss : List String) (w : Workspace) : Prop where
  nonempty : ss ≠ []
  above : ∀ init s mid, ss = init ++ [s] →
    plan.start.tree.reach (FileTree.origin plan.start.directory path) init = .ok mid →
    ¬∀ l ∈ plan.start.tree.passed (FileTree.origin plan.start.directory path) init,
      w.tree.find? l = some .directory
  straight : plan.start.tree.Straight (FileTree.origin plan.start.directory path) ss →
    ∀ e, plan.start.tree.reach (FileTree.origin plan.start.directory path) ss = .error e →
      e = .nameTooLong

section Making

variable {path : String} {ss : List String} {result : Except SystemError Unit}

theorem Made.after (hplan : plan.Sound) (hw : plan.UnderWay w) (hmoves : plan.Moves w w')
    (h : plan.Made path ss result w) : plan.Made path ss result w' :=
  ⟨h.result, fun l hl => hplan.directory_stays hw hmoves (h.passed l hl)⟩

theorem Way.locate_eq (hway : plan.Way path ss) (hplan : plan.Sound) (hpath : path ≠ "")
    (hw : plan.UnderWay w) :
    w.tree.locate w.directory path =
      w.tree.walk (FileTree.origin plan.start.directory path) ss := by
  have hdir := hplan.directory_of_start hw hway.origin
  rw [hw.directory, FileTree.locate_of_isTaken (hway.taken.resolve_left hpath)]
  rcases hway.leads.ending with hhome | ⟨init, s, hsegs, hs, hdot⟩
  · -- The root and the working directory are where they start from.
    have hstay (s : String) (hs : s = "" ∨ s = ".") :
        w.tree.walk (FileTree.origin plan.start.directory path) [s] =
          w.tree.walk (FileTree.origin plan.start.directory path) [] := by
      have hshort : ¬FileTree.nameLimit < s.utf8ByteSize := by
        rcases hs with rfl | rfl <;> decide
      rw [FileTree.walk_cons_of_directory hdir, if_neg hshort, FileTree.step, if_pos hs]
    have hss := hway.leads.steps
    simp only [List.mem_cons, List.not_mem_nil, or_false] at hhome
    rcases hhome with rfl | rfl | rfl
    · exact absurd rfl hpath
    · rw [← hss]
      exact hstay "" (.inl rfl)
    · rw [← hss]
      exact hstay "." (.inr rfl)
  · rw [← hway.leads.steps, hsegs, FileTree.walk_steps hs hdot]

theorem Way.filesAlike (hway : plan.Way path ss) (hw : plan.UnderWay w) :
    plan.start.tree.FilesAlike w.tree
      (FileTree.visits (FileTree.origin plan.start.directory path) ss) :=
  hw.filesAlike hway.clear

/-- A directory is there after all that leads to it has been made, unless something stopped it. -/
theorem Way.isDirectory_eq (hway : plan.Way path ss) (hplan : plan.Sound) (hpath : path ≠ "")
    (hw : plan.UnderWay w) (hmade : plan.Made path ss result w) :
    w.tree.isDirectory w.directory path = true ↔ result = .ok () := by
  have hdir := hplan.directory_of_start hw hway.origin
  rw [FileTree.isDirectory_iff, FileTree.entry_eq_ok_iff, hway.locate_eq hplan hpath hw,
    hmade.result]
  constructor
  · rintro ⟨l, hwalk, hl⟩
    rw [(FileTree.reach_of_walk hwalk hl (hway.filesAlike hw)).1]
    rfl
  · intro hok
    cases hreach : plan.start.tree.reach (FileTree.origin plan.start.directory path) ss with
    | error e =>
      rw [hreach] at hok
      cases hok
    | ok l => exact ⟨l, FileTree.walk_of_reach hreach hdir hmade.passed⟩

/-- What a walk says about the last step, where it does not end in a directory. -/
theorem Way.last_of_walk (hway : plan.Way path ss) (hplan : plan.Sound) (hw : plan.UnderWay w)
    (hwalk : w.tree.walk (FileTree.origin plan.start.directory path) ss = .ok loc)
    (hloc : w.tree.find? loc ≠ some .directory) :
    ∃ init s mid, ss = init ++ [s] ∧
      plan.start.tree.reach (FileTree.origin plan.start.directory path) init = .ok mid ∧
      (∀ l ∈ plan.start.tree.passed (FileTree.origin plan.start.directory path) init,
        w.tree.find? l = some .directory) ∧
      ¬FileTree.nameLimit < s.utf8ByteSize ∧ loc = FileTree.step mid s ∧
      loc ∉ plan.files.map Prod.fst ∧ w.tree.hasFile loc = plan.start.tree.hasFile loc := by
  rcases List.eq_nil_or_concat ss with rfl | ⟨init, s, rfl⟩
  · cases hwalk
    exact absurd (hplan.directory_of_start hw hway.origin) hloc
  · have halike := hway.filesAlike hw
    have hclear := hway.clear
    rw [List.concat_eq_append] at hwalk halike hclear ⊢
    rw [FileTree.visits_append] at halike hclear
    obtain ⟨mid, hmid, hlast⟩ := FileTree.walk_concat_eq_ok_iff.mp hwalk
    obtain ⟨hdir, hshort, rfl⟩ := FileTree.follow_eq_ok_iff.mp hlast
    have hvisit : FileTree.step mid s ∈
        FileTree.visits (FileTree.land (FileTree.origin plan.start.directory path) init) [s] := by
      rw [← FileTree.walk_eq_land hmid]
      exact List.mem_singleton_self _
    obtain ⟨hreach, hpassed⟩ := FileTree.reach_of_walk hmid hdir
      (fun l hl => halike l (List.mem_append_left _ hl))
    exact ⟨init, s, mid, rfl, hreach, hpassed, Nat.not_lt.mpr hshort, rfl,
      hclear _ (List.mem_append_right _ hvisit), halike _ (List.mem_append_right _ hvisit)⟩

theorem Way.missing_of_walk (hway : plan.Way path ss) (hplan : plan.Sound) (hw : plan.UnderWay w)
    (hwalk : w.tree.walk (FileTree.origin plan.start.directory path) ss = .error .notFound) :
    plan.Missing path ss w where
  nonempty := by
    rintro rfl
    cases hwalk
  above := by
    rintro init s mid rfl hreach hpassed
    have hdir := hplan.directory_of_start hw hway.origin
    obtain ⟨hmid, hmiddir⟩ := FileTree.walk_of_reach hreach hdir hpassed
    rw [FileTree.walk_concat, hmid] at hwalk
    change w.tree.follow mid s = _ at hwalk
    rw [FileTree.follow_of_directory hmiddir] at hwalk
    split at hwalk <;> cases hwalk
  straight := by
    intro hstraight e he
    by_contra hne
    have hdir := hplan.directory_of_start hw hway.origin
    refine FileTree.walk_ne_notFound he hne hdir ?_ (hway.filesAlike hw) hwalk
    intro l hl
    exact hplan.directory_of_start hw (hstraight e he hne l hl)

theorem Way.made_of_none (hway : plan.Way path ss) (hplan : plan.Sound) (hpath : path ≠ "")
    (hw : plan.UnderWay w) (hlocate : w.tree.locate w.directory path = .ok loc)
    (hnone : w.tree.find? loc = none) :
    plan.env.allows w { w with tree := w.tree.put loc .directory } ∧
      plan.Made path ss (.ok ()) { w with tree := w.tree.put loc .directory } := by
  have hwalk := hlocate
  rw [hway.locate_eq hplan hpath hw] at hwalk
  have hne : w.tree.find? loc ≠ some .directory := by
    rw [hnone]
    simp
  obtain ⟨init, s, mid, rfl, hreach, hpassed, hshort, hstep, hkey, hfile⟩ :=
    hway.last_of_walk hplan hw hwalk hne
  have hpass : plan.start.tree.pass true mid s = .ok loc := by
    have hnofile : w.tree.hasFile loc = false := by rw [FileTree.hasFile, hnone]
    rw [FileTree.pass, if_neg hshort, ← hstep, ← hfile, hnofile]
    rfl
  obtain ⟨hall, hmore, -⟩ := FileTree.reach_concat_of_ok hreach
  refine ⟨hw.allows_directory hlocate hnone hkey ?_, ?_, ?_⟩
  · exact hway.planned loc (by rw [hmore loc hpass]; simp)
  · rw [hall, hpass]
    rfl
  · rw [hmore loc hpass]
    intro l hl
    rcases List.mem_append.mp hl with hl | hl
    · exact FileTree.keepsDirectories_put hne l (hpassed l hl)
    · rw [List.mem_singleton.mp hl]
      change (w.tree.put loc .directory).find? loc = _
      rw [FileTree.find?_put (FileTree.ne_nil_of_find? hne), if_pos rfl]

theorem Way.made_of_file {content : Content} (hway : plan.Way path ss) (hplan : plan.Sound)
    (hw : plan.UnderWay w)
    (hwalk : w.tree.walk (FileTree.origin plan.start.directory path) ss = .ok loc)
    (hloc : w.tree.find? loc = some (.file content)) :
    plan.Made path ss (.error .alreadyExists) w := by
  obtain ⟨init, s, mid, rfl, hreach, hpassed, hshort, hstep, -, hfile⟩ :=
    hway.last_of_walk hplan hw hwalk (by rw [hloc]; simp)
  have hpass : plan.start.tree.pass true mid s = .error .alreadyExists := by
    rw [FileTree.pass, if_neg hshort, ← hstep, ← hfile, FileTree.hasFile_iff.mpr ⟨content, hloc⟩]
    rfl
  obtain ⟨hall, -, hstop⟩ := FileTree.reach_concat_of_ok hreach
  refine ⟨by rw [hall, hpass]; rfl, ?_⟩
  rw [hstop _ hpass]
  exact hpassed

/-- The request to make a directory meets one of three: something on the way is missing, the
directory is there afterwards, or something stops it. -/
theorem Way.makeDirectory_cases (hway : plan.Way path ss) (hplan : plan.Sound) (hpath : path ≠ "")
    (hw : plan.UnderWay w)
    (h : (Storage.makeDirectory path : StateM Workspace _) w = (result, w')) :
    plan.env.allows w w' ∧
      (result = .error .notFound ∧ plan.Missing path ss w ∨
        (result = .ok () ∨ result = .error .alreadyExists) ∧ plan.Made path ss (.ok ()) w' ∨
        ∃ e, e ≠ .notFound ∧ result = .error e ∧ plan.Made path ss (.error e) w') := by
  have hdir := hplan.directory_of_start hw hway.origin
  change w.update (w.tree.makeDirectory w.directory path) = _ at h
  rcases w.tree.makeDirectory_cases w.directory path with
    ⟨loc, hlocate, hnone, hmade⟩ | ⟨loc, entry, hlocate, hsome, hmade⟩ | ⟨e, hlocate, hmade⟩
  · rw [hmade] at h
    cases h
    obtain ⟨hallows, hdone⟩ := hway.made_of_none hplan hpath hw hlocate hnone
    exact ⟨hallows, .inr (.inl ⟨.inl rfl, hdone⟩)⟩
  · rw [hmade] at h
    cases h
    rw [hway.locate_eq hplan hpath hw] at hlocate
    refine ⟨plan.env.refl w, .inr ?_⟩
    cases entry with
    | directory =>
      obtain ⟨hreach, hpassed⟩ := FileTree.reach_of_walk hlocate hsome (hway.filesAlike hw)
      exact .inl ⟨.inr rfl, by rw [hreach]; rfl, hpassed⟩
    | file content =>
      exact .inr ⟨.alreadyExists, by simp, rfl, hway.made_of_file hplan hw hlocate hsome⟩
  · rw [hmade] at h
    cases h
    rw [hway.locate_eq hplan hpath hw] at hlocate
    refine ⟨plan.env.refl w, ?_⟩
    by_cases he : e = .notFound
    · subst he
      exact .inl ⟨rfl, hway.missing_of_walk hplan hw hlocate⟩
    · obtain ⟨hreach, hpassed⟩ :=
        FileTree.reach_of_walk_error hlocate he hdir (hway.filesAlike hw)
      exact .inr (.inr ⟨e, he, rfl, by rw [hreach]; rfl, hpassed⟩)

theorem Missing.before (hplan : plan.Sound) (hw : plan.UnderWay w) (hmoves : plan.Moves w w')
    (h : plan.Missing path ss w') : plan.Missing path ss w where
  nonempty := h.nonempty
  above := by
    intro init s mid hss hreach hpassed
    exact h.above init s mid hss hreach fun l hl => hplan.directory_stays hw hmoves (hpassed l hl)
  straight := h.straight

theorem within_confirm {e : SystemError} {post : Except SystemError Unit → Workspace → Prop}
    (h : ∀ w' w'', plan.env.allows w w' → plan.env.allows w' w'' →
      post (if e ≠ .notFound ∧ w'.tree.isDirectory w'.directory path = true then .ok ()
        else .error e) w'') :
    (do if e ≠ .notFound ∧ (← Storage.isDirectory path) then return .ok () else return .error e :
      Worker _).Within plan.env post w := by
  refine Worker.Within.bind ?_
  intro w₁ henv₁ found w₂ hans
  have hrun : (w₁.tree.isDirectory w₁.directory path, w₁) = (found, w₂) := hans.perform_eq (by simp)
  cases hrun
  refine ⟨plan.env.refl w₁, ?_⟩
  intro w₃ henv₃
  have hpost (w₄ : Workspace) (henv₄ : plan.env.allows w₃ w₄) :=
    h w₁ w₄ henv₁ (plan.env.trans henv₃ henv₄)
  split
  case isTrue hc =>
    simp only [if_pos hc] at hpost
    exact hpost
  case isFalse hc =>
    simp only [if_neg hc] at hpost
    exact hpost

/-- Whatever others do meanwhile, a directory is made, or found made, or stopped by what stops it
alone, unless something on the way to it is missing. -/
theorem Way.within_ensureDirectory (hway : plan.Way path ss) (hplan : plan.Sound)
    (hpath : path ≠ "") (hw : plan.UnderWay w) :
    (Storage.ensureDirectory path : Worker _).Within plan.env (fun r w' => plan.UnderWay w' ∧
      (plan.Made path ss r w' ∨ r = .error .notFound ∧ plan.Missing path ss w)) w := by
  refine Worker.Within.bind ?_
  intro w₁ henv₁ made w₂ hans
  obtain ⟨hw₁, hmoves₁⟩ := henv₁ hw
  have hrun : (Storage.makeDirectory path : StateM Workspace _) w₁ = (made, w₂) :=
    hans.perform_eq (by simp)
  obtain ⟨hallows, hcases⟩ := hway.makeDirectory_cases hplan hpath hw₁ hrun
  refine ⟨hallows, ?_⟩
  intro w₃ henv₃
  obtain ⟨hw₂, -⟩ := hallows hw₁
  obtain ⟨hw₃, hmoves₃⟩ := henv₃ hw₂
  rcases hcases with ⟨rfl, hmissing⟩ | ⟨rfl | rfl, hmade⟩ | ⟨e, he, rfl, hmade⟩
  · refine within_confirm fun w₄ w₅ henv₄ henv₅ => ?_
    rw [if_neg (by simp)]
    exact ⟨(henv₅ (henv₄ hw₃).1).1, .inr ⟨rfl, hmissing.before hplan hw hmoves₁⟩⟩
  · intro w₄ henv₄
    obtain ⟨hw₄, hmoves₄⟩ := henv₄ hw₃
    exact ⟨hw₄, .inl ((hmade.after hplan hw₂ hmoves₃).after hplan hw₃ hmoves₄)⟩
  · refine within_confirm fun w₄ w₅ henv₄ henv₅ => ?_
    obtain ⟨hw₄, hmoves₄⟩ := henv₄ hw₃
    obtain ⟨hw₅, hmoves₅⟩ := henv₅ hw₄
    have hmade₄ := (hmade.after hplan hw₂ hmoves₃).after hplan hw₃ hmoves₄
    rw [if_pos ⟨by simp, (hway.isDirectory_eq hplan hpath hw₄ hmade₄).mpr rfl⟩]
    exact ⟨hw₅, .inl (hmade₄.after hplan hw₄ hmoves₅)⟩
  · refine within_confirm fun w₄ w₅ henv₄ henv₅ => ?_
    obtain ⟨hw₄, hmoves₄⟩ := henv₄ hw₃
    obtain ⟨hw₅, hmoves₅⟩ := henv₅ hw₄
    have hmade₄ := (hmade.after hplan hw₂ hmoves₃).after hplan hw₃ hmoves₄
    have hnot : ¬(e ≠ .notFound ∧ w₄.tree.isDirectory w₄.directory path = true) := by
      rintro ⟨-, hdir⟩
      have := (hway.isDirectory_eq hplan hpath hw₄ hmade₄).mp hdir
      cases this
    rw [if_neg hnot]
    exact ⟨hw₅, .inl (hmade₄.after hplan hw₄ hmoves₅)⟩

theorem Made.ne_notFound (h : plan.Made path ss result w) : result ≠ .error .notFound := by
  rw [h.result]
  intro heq
  cases hreach : plan.start.tree.reach (FileTree.origin plan.start.directory path) ss with
  | ok l =>
    rw [hreach] at heq
    cases heq
  | error e =>
    rw [hreach] at heq
    cases heq
    exact FileTree.reach_ne_notFound hreach

theorem Made.within_pure {exact : Prop} {result' : Except SystemError Unit} (hplan : plan.Sound)
    (hw : plan.UnderWay w) (h : plan.Made path ss result w)
    (halike : Alike exact (fun _ => ()) result' result) :
    (pure result' : Worker _).Within plan.env (fun r w' => plan.UnderWay w' ∧
      ∃ r', plan.Made path ss r' w' ∧ Alike exact (fun _ => ()) r r') w := by
  intro w' henv
  obtain ⟨hw', hmoves⟩ := henv hw
  exact ⟨hw', result, h.after hplan hw hmoves, halike⟩

theorem Way.parent {init : List String} {s : String} (hway : plan.Way path (init ++ [s])) :
    ∃ parent, Path.parent? path = some parent ∧
      FileTree.origin plan.start.directory parent = FileTree.origin plan.start.directory path ∧
      plan.Way parent init := by
  obtain ⟨⟨hsteps, hending⟩, htaken, horigin, hclear, hplanned⟩ := hway
  rcases hending with hhome | ⟨segs, t, hsegs, ht, hdot⟩
  · have hnil : Path.steps (Path.segments path) = [] := by
      simp only [List.mem_cons, List.not_mem_nil, or_false] at hhome
      rcases hhome with rfl | rfl | rfl <;> decide
    simp [hnil] at hsteps
  · obtain ⟨parent, hparent, habs, hleads⟩ := Path.leads_parent? hsegs ht hdot
    have hsame : FileTree.origin plan.start.directory parent =
        FileTree.origin plan.start.directory path := FileTree.origin_congr _ habs
    have hinit : Path.steps segs = init := by
      rw [hsegs, Path.steps_concat ht hdot] at hsteps
      exact (List.append_inj' hsteps rfl).1
    refine ⟨parent, hparent, hsame, hinit ▸ hleads, ?_, hsame ▸ horigin, ?_, ?_⟩
    · obtain ⟨rest, -, hpath⟩ := Path.parent?_append hparent
      by_cases hempty : parent = ""
      · exact .inl hempty
      · right
        have hpathtaken : FileTree.IsTaken path := htaken.resolve_left (by
          rintro rfl
          cases hparent)
        obtain ⟨hclean, -, hshort⟩ := hpathtaken
        rw [hpath] at hclean hshort
        rw [String.toList_append, List.mem_append, not_or] at hclean
        rw [String.utf8ByteSize_append] at hshort
        exact ⟨hclean.1, hempty, by omega⟩
    · rw [hsame]
      intro l hl
      exact hclear l (by rw [FileTree.visits_append]; exact List.mem_append_left _ hl)
    · rw [hsame]
      intro l hl
      exact hplanned l (FileTree.passed_subset_concat hl)

/-- What follows the making of the directory above, where that one was missing. -/
theorem Way.within_below {init : List String} {s : String} {above : Except SystemError Unit}
    (hway : plan.Way path (init ++ [s])) (hplan : plan.Sound) (hpath : path ≠ "")
    (hw : plan.UnderWay w) (hmissing : plan.Missing path (init ++ [s]) w')
    (hmade : plan.Made path init result w)
    (halike : Alike (plan.start.tree.Straight (FileTree.origin plan.start.directory path) init)
      (fun _ => ()) above result) :
    (if above = .ok () then Storage.ensureDirectory path else return above : Worker _).Within
      plan.env (fun r w' => plan.UnderWay w' ∧ ∃ r', plan.Made path (init ++ [s]) r' w' ∧
        Alike (plan.start.tree.Straight (FileTree.origin plan.start.directory path) (init ++ [s]))
          (fun _ => ()) r r') w := by
  obtain ⟨hresult, hpassed⟩ := hmade
  obtain ⟨hsame, hexact⟩ := halike
  subst hresult
  cases hreach : plan.start.tree.reach (FileTree.origin plan.start.directory path) init with
  | ok mid =>
    rw [hreach] at hsame
    cases above with
    | error e => cases hsame
    | ok =>
      rw [if_pos rfl]
      refine (hway.within_ensureDirectory hplan hpath hw).mono ?_
      rintro r w₁ ⟨hw₁, hmade₁ | ⟨-, hmissing₁⟩⟩
      · exact ⟨hw₁, r, hmade₁, .refl _ _ _⟩
      · exact absurd hpassed (hmissing₁.above init s mid rfl hreach)
  | error e₀ =>
    -- What stops the way above stops the whole way, with another reason only for the last step.
    rw [hreach] at hsame hexact
    cases above with
    | ok => cases hsame
    | error e =>
      rw [if_neg (by simp)]
      obtain ⟨e', he', hsamePassed, hiff⟩ := FileTree.reach_concat_of_error (s := s) hreach
      have hmade : plan.Made path (init ++ [s]) (.error e') w :=
        ⟨by rw [he']; rfl, by rw [hsamePassed]; exact hpassed⟩
      refine hmade.within_pure hplan hw ⟨rfl, fun hstraight => ?_⟩
      have hlong := hmissing.straight hstraight e' he'
      rw [hexact hstraight.of_concat, hlong, hiff.mpr hlong]
      rfl

/-- Whatever others do meanwhile, directories are made as far as they can be made alone. Others can
change the reason for a stop only where a file stands behind something that has to be made. -/
theorem Way.within_makeDirectories (hway : plan.Way path ss) (hplan : plan.Sound)
    (hw : plan.UnderWay w) :
    (Storage.makeDirectories path : Worker _).Within plan.env (fun r w' => plan.UnderWay w' ∧
      ∃ r', plan.Made path ss r' w' ∧ Alike
        (plan.start.tree.Straight (FileTree.origin plan.start.directory path) ss)
        (fun _ => ()) r r') w := by
  -- The way to the directory above has one step less, and that directory may be missing too.
  induction hlength : ss.length using Nat.strongRecOn generalizing path ss w with
  | ind n ih =>
    by_cases hempty : path = ""
    · subst hempty
      rw [Storage.makeDirectories_empty, ← hway.leads.steps]
      intro w' henv
      exact ⟨(henv hw).1, .ok (), ⟨rfl, fun l hl => by cases hl⟩, .refl _ _ _⟩
    · have hensure := hway.within_ensureDirectory hplan hempty hw
      cases hparent : Path.parent? path with
      | none =>
        rw [Storage.makeDirectories_of_root hempty hparent]
        refine Worker.Within.bind (hensure.mono ?_)
        rintro first w₁ ⟨hw₁, hmade | ⟨-, hmissing⟩⟩
        · exact hmade.within_pure hplan hw₁ (.refl _ _ _)
        · obtain ⟨init, s, rfl⟩ := List.eq_nil_or_concat' ss |>.resolve_left hmissing.nonempty
          obtain ⟨_, hsome, -⟩ := hway.parent
          rw [hparent] at hsome
          cases hsome
      | some parent =>
        rw [Storage.makeDirectories_of_parent hparent]
        refine Worker.Within.bind (hensure.mono ?_)
        rintro first w₁ ⟨hw₁, hmade | ⟨rfl, hmissing⟩⟩
        · rw [if_neg hmade.ne_notFound]
          exact hmade.within_pure hplan hw₁ (.refl _ _ _)
        · rw [if_pos rfl]
          obtain ⟨init, s, rfl⟩ := List.eq_nil_or_concat' ss |>.resolve_left hmissing.nonempty
          obtain ⟨parent', hparent', horigin, habove⟩ := hway.parent
          rw [hparent, Option.some.injEq] at hparent'
          subst hparent'
          refine Worker.Within.bind ((ih init.length (by simp [← hlength]) habove hw₁ rfl).mono ?_)
          rintro above w₂ ⟨hw₂, r', ⟨hresult, hpassed⟩, halike⟩
          rw [horigin] at hresult hpassed halike
          exact hway.within_below hplan hempty hw₂ hmissing ⟨hresult, hpassed⟩ halike

end Making

end Plan

end Sigil
