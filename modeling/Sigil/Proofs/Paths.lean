import Mathlib.Data.List.Basic
import Sigil.Path

namespace Sigil

namespace Path

theorem splitAt_eq_splitOn (sep : Char) (cs : List Char) : splitAt sep cs = cs.splitOn sep := by
  induction cs with
  | nil => exact (List.splitOn_nil sep).symm
  | cons c cs ih =>
    rw [splitAt, List.splitOn_cons_eq_if_modifyHead, ih]
    by_cases hc : c = sep
    · simp [hc]
    · cases hparts : cs.splitOn sep with
      | nil => exact absurd hparts (List.splitOn_ne_nil sep cs)
      | cons part parts => simp [hc]

theorem splitAt_append (sep : Char) (cs ds : List Char) :
    splitAt sep (cs ++ sep :: ds) = splitAt sep cs ++ splitAt sep ds := by
  simp only [splitAt_eq_splitOn, List.splitOn_append_cons_self]

theorem splitAt_ne_nil (sep : Char) (cs : List Char) : splitAt sep cs ≠ [] := by
  rw [splitAt_eq_splitOn]
  exact List.splitOn_ne_nil sep cs

theorem splitAt_of_not_mem {sep : Char} {cs : List Char} (h : sep ∉ cs) :
    splitAt sep cs = [cs] := by
  rw [splitAt_eq_splitOn]
  exact List.splitOn_eq_singleton h

theorem intercalate_splitAt (sep : Char) (cs : List Char) :
    [sep].intercalate (splitAt sep cs) = cs := by
  rw [splitAt_eq_splitOn]
  exact List.intercalate_splitOn sep

theorem not_mem_of_mem_splitAt {sep : Char} {cs part : List Char} (h : part ∈ splitAt sep cs) :
    sep ∉ part := by
  fun_induction splitAt sep cs generalizing part with
  | case1 => simp_all
  | case2 cs ih =>
    rcases List.mem_cons.mp h with rfl | h
    · exact List.not_mem_nil
    · exact ih h
  | case3 c cs hc hparts ih => exact absurd hparts (splitAt_ne_nil sep cs)
  | case4 c cs hc first others hparts ih =>
    rcases List.mem_cons.mp h with rfl | h
    · have hfirst : sep ∉ first := ih (by simp [hparts])
      simp [hfirst, Ne.symm hc]
    · exact ih (by simp [hparts, h])

theorem mem_of_mem_splitAt {sep c : Char} {cs part : List Char} (hpart : part ∈ splitAt sep cs)
    (hc : c ∈ part) : c ∈ cs := by
  fun_induction splitAt sep cs generalizing part with
  | case1 => simp_all
  | case2 cs ih =>
    rcases List.mem_cons.mp hpart with rfl | hpart
    · cases hc
    · exact List.mem_cons_of_mem _ (ih hpart hc)
  | case3 d cs hd hparts ih => exact absurd hparts (splitAt_ne_nil sep cs)
  | case4 d cs hd first others hparts ih =>
    rcases List.mem_cons.mp hpart with rfl | hpart
    · rcases List.mem_cons.mp hc with rfl | hc
      · exact List.mem_cons_self
      · exact List.mem_cons_of_mem _ (ih (by simp [hparts]) hc)
    · exact List.mem_cons_of_mem _ (ih (by simp [hparts, hpart]) hc)

theorem splitAt_intercalate {sep : Char} {parts : List (List Char)}
    (hplain : ∀ part ∈ parts, sep ∉ part) (hne : parts ≠ []) :
    splitAt sep ([sep].intercalate parts) = parts := by
  rw [splitAt_eq_splitOn]
  exact List.splitOn_intercalate sep hplain hne

/-- Segments that a path can have: a relative path does not start with a slash. -/
structure Spells (absolute : Bool) (segs : List String) : Prop where
  nonempty : segs ≠ []
  plain : ∀ s ∈ segs, '/' ∉ s.toList
  relative : absolute = false → segs.head? = some "" → segs = [""]

theorem toList_intercalate_slash (segs : List String) :
    ("/".intercalate segs).toList = ['/'].intercalate (segs.map String.toList) := by
  simp [String.toList_intercalate]

theorem map_ofList_toList (segs : List String) :
    (segs.map String.toList).map String.ofList = segs := by
  simp [List.map_map, Function.comp_def]

theorem spells_segments (path : String) : Spells (isAbsolute path) (segments path) where
  nonempty := by
    intro h
    exact splitAt_ne_nil _ _ (List.map_eq_nil_iff.mp h)
  plain := by
    intro s hs
    obtain ⟨part, hpart, rfl⟩ := List.mem_map.mp hs
    rw [String.toList_ofList]
    exact not_mem_of_mem_splitAt hpart
  relative := by
    intro habs hhead
    rw [segments, habs] at hhead ⊢
    simp only [Bool.false_eq_true, ↓reduceIte] at hhead ⊢
    cases hcs : path.toList with
    | nil => rfl
    | cons c cs =>
      have hc : c ≠ '/' := by
        intro hc
        simp [isAbsolute, hcs, hc] at habs
      rw [hcs, splitAt, if_neg hc] at hhead
      cases hparts : splitAt '/' cs with
      | nil => exact absurd hparts (splitAt_ne_nil _ _)
      | cons part parts => simp [hparts] at hhead

theorem mem_of_mem_segments {path s : String} {c : Char} (hs : s ∈ segments path)
    (hc : c ∈ s.toList) : c ∈ path.toList := by
  obtain ⟨part, hpart, rfl⟩ := List.mem_map.mp hs
  rw [String.toList_ofList] at hc
  have hmem := mem_of_mem_splitAt hpart hc
  split at hmem
  · exact List.mem_of_mem_drop hmem
  · exact hmem

theorem ofSegments_segments (path : String) :
    ofSegments (isAbsolute path) (segments path) = path := by
  apply String.toList_inj.mp
  rw [ofSegments, String.toList_append, toList_intercalate_slash, segments, List.map_map]
  have hid : String.toList ∘ String.ofList = id := by
    funext cs
    exact String.toList_ofList
  rw [hid, List.map_id, intercalate_splitAt]
  cases habs : isAbsolute path with
  | false => simp
  | true =>
    obtain ⟨cs, hcs⟩ : ∃ cs, path.toList = '/' :: cs := by
      cases hcs : path.toList with
      | nil => simp [isAbsolute, hcs] at habs
      | cons c cs => exact ⟨cs, by simpa [isAbsolute, hcs] using habs⟩
    simp [hcs]

namespace Spells

variable {absolute : Bool} {init segs : List String} {s s' : String}

theorem isAbsolute_ofSegments (h : Spells absolute segs) :
    isAbsolute (ofSegments absolute segs) = absolute := by
  cases absolute with
  | true => simp [isAbsolute, ofSegments]
  | false =>
    have hhead (s rest : String) (hs : '/' ∉ s.toList) (hrest : s = "" → rest = "") :
        isAbsolute (s ++ rest) = false := by
      cases hcs : s.toList with
      | nil =>
        have hempty : s = "" := String.toList_inj.mp hcs
        simp [isAbsolute, hempty, hrest hempty]
      | cons c cs =>
        have hc : c ≠ '/' := fun hc => hs (by simp [hcs, hc])
        simp [isAbsolute, hcs, hc]
    rcases segs with _ | ⟨s, _ | ⟨t, rest⟩⟩
    · exact absurd rfl h.nonempty
    · have := hhead s "" (h.plain s (by simp)) (fun _ => rfl)
      simpa [ofSegments] using this
    · have hs : s ≠ "" := by
        intro hs
        have := h.relative rfl (by simp [hs])
        simp at this
      have := hhead s ("/" ++ "/".intercalate (t :: rest)) (h.plain s (by simp)) (absurd · hs)
      simpa [ofSegments, String.append_assoc] using this

theorem segments_ofSegments (h : Spells absolute segs) :
    segments (ofSegments absolute segs) = segs := by
  have hplain : ∀ part ∈ segs.map String.toList, '/' ∉ part := by
    intro part hpart
    obtain ⟨s, hs, rfl⟩ := List.mem_map.mp hpart
    exact h.plain s hs
  have hbody : (if absolute then (ofSegments absolute segs).toList.drop 1
      else (ofSegments absolute segs).toList) = ['/'].intercalate (segs.map String.toList) := by
    cases absolute <;> simp [ofSegments]
  rw [segments, h.isAbsolute_ofSegments, hbody, splitAt_intercalate hplain (by simp [h.nonempty]),
    map_ofList_toList]

theorem setLast (h : Spells absolute (init ++ [s])) (hs' : '/' ∉ s'.toList) :
    Spells absolute (init ++ [s']) where
  nonempty := by simp
  plain := by
    intro t ht
    rcases List.mem_append.mp ht with ht | ht
    · exact h.plain t (by simp [ht])
    · rw [List.mem_singleton.mp ht]
      exact hs'
  relative := by
    intro habs hhead
    cases init with
    | nil => simpa using hhead
    | cons t init =>
      have := h.relative habs (by simpa using hhead)
      simp at this

theorem of_append {others : List String} (h : Spells absolute (init ++ others))
    (hne : init ≠ []) : Spells absolute init where
  nonempty := hne
  plain := fun t ht => h.plain t (by simp [ht])
  relative := by
    intro habs hhead
    cases init with
    | nil => exact absurd rfl hne
    | cons t init =>
      have hone := h.relative habs (by simpa using hhead)
      simp_all

end Spells

theorem ofSegments_concat (absolute : Bool) (init : List String) (s : String) :
    ofSegments absolute (init ++ [s]) = ofSegments absolute (init ++ [""]) ++ s := by
  cases init with
  | nil => simp [ofSegments]
  | cons t init =>
    have h (u : String) : "/".intercalate (t :: init ++ [u]) =
        "/".intercalate (t :: init) ++ "/" ++ u := by
      rw [String.intercalate_append_of_ne_nil (by simp) (by simp)]
      simp
    simp only [ofSegments, h, String.append_assoc, String.append_empty]

theorem ofSegments_append (absolute : Bool) (init others : List String) :
    ∃ rest, ofSegments absolute (init ++ others) = ofSegments absolute init ++ rest := by
  by_cases hinit : init = []
  · refine ⟨"/".intercalate others, ?_⟩
    simp [hinit, ofSegments]
  · by_cases hothers : others = []
    · exact ⟨"", by simp [hothers]⟩
    · refine ⟨"/" ++ "/".intercalate others, ?_⟩
      simp only [ofSegments, String.intercalate_append_of_ne_nil hinit hothers,
        String.append_assoc]

theorem trim_suffix (absolute : Bool) (segs : List String) : trim absolute segs <:+ segs := by
  fun_induction trim absolute segs with
  | case1 => exact List.suffix_rfl
  | case2 s before h ih => exact ih.trans (List.suffix_cons s before)
  | case3 s before h => exact List.suffix_rfl

theorem head_trim {absolute : Bool} {s : String} {before segs : List String}
    (h : trim absolute segs = s :: before) :
    s ≠ "" ∧ (s = "." → absolute = false ∧ before = []) := by
  fun_induction trim absolute segs with
  | case1 => cases h
  | case2 _ _ _ ih => exact ih h
  | case3 t others hkeep =>
    cases h
    refine ⟨fun hs => hkeep (.inl hs), ?_⟩
    intro hs
    simpa [hs] using hkeep

theorem fileName?_mem_segments {path name : String} (h : fileName? path = some name) :
    name ∈ segments path := by
  rw [fileName?] at h
  split at h
  next s before htrimmed =>
    have hs : s ∈ trimmed path := by simp [htrimmed]
    have hsegs := (trim_suffix (isAbsolute path) (segments path).reverse).subset hs
    split at h
    · cases h
    · cases h
      exact List.mem_reverse.mp hsegs
  next => cases h

/-- A path begins with that of its directory and goes on. -/
theorem parent?_append {parent path : String} (h : parent? path = some parent) :
    ∃ rest, rest ≠ "" ∧ path = parent ++ rest := by
  rw [parent?] at h
  cases htrimmed : trimmed path with
  | nil => simp [htrimmed] at h
  | cons s before =>
    simp only [htrimmed, Option.some.injEq] at h
    obtain ⟨dropped, hsegs⟩ := trim_suffix (isAbsolute path) (segments path).reverse
    obtain ⟨between, hbetween⟩ := trim_suffix (isAbsolute path) before
    have hsplit : segments path = (before.reverse ++ [s]) ++ dropped.reverse := by
      rw [← List.reverse_reverse (segments path), ← hsegs]
      change (dropped ++ trimmed path).reverse = _
      rw [htrimmed]
      simp
    have habove : before.reverse ++ [""] =
        (trim (isAbsolute path) before).reverse ++ (between.reverse ++ [""]) := by
      rw [← List.append_assoc, ← List.reverse_append, hbetween]
    obtain ⟨rest, hrest⟩ := ofSegments_append (isAbsolute path)
      (trim (isAbsolute path) before).reverse (between.reverse ++ [""])
    obtain ⟨behind, hbehind⟩ :=
      ofSegments_append (isAbsolute path) (before.reverse ++ [s]) dropped.reverse
    refine ⟨rest ++ (s ++ behind), ?_, ?_⟩
    · intro hempty
      have htoList := congrArg String.toList hempty
      simp only [String.toList_append, String.toList_empty, List.append_eq_nil_iff] at htoList
      exact (head_trim htrimmed).1 (String.toList_inj.mp htoList.2.1)
    · rw [← ofSegments_segments path, hsplit, hbehind, ofSegments_concat, habove, hrest, h]
      simp only [String.append_assoc]

theorem length_parent?_lt {parent path : String} (h : parent? path = some parent) :
    parent.length < path.length := by
  obtain ⟨rest, hrest, hpath⟩ := parent?_append h
  have hpos : rest.length ≠ 0 := by rwa [ne_eq, String.length_eq_zero_iff]
  have hlength := congrArg String.length hpath
  rw [String.length_append] at hlength
  omega

/-- A name that an entry of a directory can have. -/
def IsName (s : String) : Prop := s ∉ ["", ".", ".."] ∧ '/' ∉ s.toList

instance (s : String) : Decidable (IsName s) := inferInstanceAs (Decidable (_ ∧ _))

namespace IsName

variable {s : String}

theorem ne_empty (h : IsName s) : s ≠ "" := fun hs => h.1 (by simp [hs])

theorem ne_dot (h : IsName s) : s ≠ "." := fun hs => h.1 (by simp [hs])

theorem ne_dots (h : IsName s) : s ≠ ".." := fun hs => h.1 (by simp [hs])

end IsName

section Ending

variable {path extension name : String} {init : List String}

theorem trimmed_of_step {s : String} (h : segments path = init ++ [s]) (hs : s ≠ "")
    (hdot : s ≠ ".") : trimmed path = s :: init.reverse := by
  rw [trimmed, h, List.reverse_append, List.reverse_singleton, List.singleton_append, trim,
    if_neg (by simp [hs, hdot])]

theorem trimmed_of_name (h : segments path = init ++ [name]) (hname : IsName name) :
    trimmed path = name :: init.reverse := trimmed_of_step h hname.ne_empty hname.ne_dot

theorem fileName?_of_name (h : segments path = init ++ [name]) (hname : IsName name) :
    fileName? path = some name := by
  rw [fileName?, trimmed_of_name h hname]
  exact if_neg (by simp [hname.ne_dot, hname.ne_dots])

theorem addExtension_of_name (h : segments path = init ++ [name]) (hname : IsName name) :
    addExtension path extension =
      ofSegments (isAbsolute path) (init ++ [(splitName name).1 ++ "." ++ extension]) := by
  rw [addExtension, stem?, trimmed_of_name h hname, fileName?_of_name h hname]
  simp

theorem addExtension_of_dots (h : segments path = init ++ [".."]) :
    addExtension path extension = path := by
  have htrimmed : trimmed path = ".." :: init.reverse :=
    trimmed_of_step h (by decide) (by decide)
  have hname : fileName? path = none := by
    rw [fileName?, htrimmed]
    exact if_pos (.inr rfl)
  rw [addExtension, stem?, htrimmed, hname]
  rfl

end Ending

theorem splitName_append {stem extension : String} (hstem : stem ≠ "")
    (hext : '.' ∉ extension.toList) :
    splitName (stem ++ "." ++ extension) = (stem, some extension) := by
  have hparts : (splitAt '.' (stem ++ "." ++ extension).toList).reverse =
      extension.toList :: (splitAt '.' stem.toList).reverse := by
    have htoList : (stem ++ "." ++ extension).toList = stem.toList ++ '.' :: extension.toList := by
      simp
    rw [htoList, splitAt_append, splitAt_of_not_mem hext, List.reverse_append]
    rfl
  rw [splitName, hparts]
  cases hstems : (splitAt '.' stem.toList).reverse with
  | nil => simp [splitAt_ne_nil] at hstems
  | cons part parts =>
    have hback : splitAt '.' stem.toList = (part :: parts).reverse := by
      rw [← hstems, List.reverse_reverse]
    have hjoin : ['.'].intercalate (part :: parts).reverse = stem.toList := by
      rw [← hback, intercalate_splitAt]
    have hproper : ¬(part = [] ∧ parts = []) := by
      rintro ⟨rfl, rfl⟩
      apply hstem
      apply String.toList_inj.mp
      rw [← hjoin]
      rfl
    simp only [if_neg hproper, hjoin, String.ofList_toList]

/-- A name has an extension if it has a dot that does not stand in front of it. -/
theorem splitName_cases (name : String) :
    splitName name = (name, none) ∨
      ∃ stem extension, splitName name = (stem, some extension) ∧ stem ≠ "" ∧
        '.' ∉ extension.toList ∧ name = stem ++ "." ++ extension := by
  rw [splitName]
  rcases hparts : (splitAt '.' name.toList).reverse with _ | ⟨ext, _ | ⟨part, parts⟩⟩
  · exact .inl rfl
  · exact .inl rfl
  · by_cases hproper : part = [] ∧ parts = []
    · exact .inl (if_pos hproper)
    · right
      have hall : splitAt '.' name.toList = (part :: parts).reverse ++ [ext] := by
        rw [← List.reverse_reverse (splitAt '.' name.toList), hparts, List.reverse_cons]
      have hmem : ∀ p ∈ (part :: parts).reverse, '.' ∉ p := by
        intro p hp
        exact not_mem_of_mem_splitAt (hall ▸ List.mem_append_left _ hp)
      have hext : '.' ∉ ext :=
        not_mem_of_mem_splitAt (hall ▸ List.mem_append_right _ (List.mem_singleton_self _))
      have hstem := splitAt_intercalate hmem (by simp)
      refine ⟨_, _, if_neg hproper, ?_, by simpa using hext, ?_⟩
      · intro hempty
        have hnil : ['.'].intercalate (part :: parts).reverse = [] := by
          simpa using congrArg String.toList hempty
        rw [hnil] at hstem
        have hone : part :: parts = [[]] := by
          rw [← List.reverse_reverse (part :: parts), ← hstem]
          rfl
        exact hproper (by simpa using hone)
      · have hsplit : splitAt '.' name.toList =
            splitAt '.' (['.'].intercalate (part :: parts).reverse ++ '.' :: ext) := by
          rw [splitAt_append, hstem, splitAt_of_not_mem hext, hall]
        apply String.toList_inj.mp
        rw [← intercalate_splitAt '.' name.toList, hsplit, intercalate_splitAt]
        simp

/-- The stem of a path is written with characters of the path. -/
theorem mem_of_mem_stem? {path stem : String} {c : Char} (h : stem? path = some stem)
    (hc : c ∈ stem.toList) : c ∈ path.toList := by
  obtain ⟨name, hname, rfl⟩ := Option.map_eq_some_iff.mp h
  apply mem_of_mem_segments (fileName?_mem_segments hname)
  rcases splitName_cases name with hsplit | ⟨stem, extension, hsplit, _, _, hjoined⟩
  · rwa [hsplit] at hc
  · rw [hsplit] at hc
    simp [hjoined, hc]

theorem splitName_of_dotless {name : String} (h : '.' ∉ name.toList) :
    splitName name = (name, none) := by
  rcases splitName_cases name with hsplit | ⟨stem, extension, _, _, _, hjoined⟩
  · exact hsplit
  · exact absurd (by simp [hjoined]) h

/-- A file name with another extension. A stem that is a dot makes it the name of a parent. -/
def rename (name extension : String) : String :=
  if (splitName name).1 = "." then ".." else (splitName name).1 ++ "." ++ extension

section Ending

variable {path extension name : String} {init : List String}

theorem withExtension_of_name (h : segments path = init ++ [name]) (hname : IsName name) :
    withExtension path extension =
      ofSegments (isAbsolute path) (init ++ [rename name extension]) := by
  have hext : extension? path = (splitName name).2 := by
    rw [extension?, fileName?_of_name h hname]
    rfl
  rw [withExtension, hext]
  rcases splitName_cases name with hsplit | ⟨stem, old, hsplit, hstem, -, hold⟩
  · rw [hsplit, addExtension_of_name h hname, rename, hsplit, if_neg hname.ne_dot]
  · -- What is left without the old extension still ends in its dot.
    have hspells : Spells (isAbsolute path) (init ++ [stem ++ "."]) := by
      have hspells := spells_segments path
      rw [h] at hspells
      refine hspells.setLast ?_
      have hplain := hname.2
      simp only [hold, String.toList_append, List.mem_append] at hplain ⊢
      exact fun hslash => hplain (.inl hslash)
    have hcut : String.ofList (path.toList.take (path.length - old.length)) =
        ofSegments (isAbsolute path) (init ++ [stem ++ "."]) := by
      have hpath : path = ofSegments (isAbsolute path) (init ++ [stem ++ "."]) ++ old := by
        rw [ofSegments_concat, String.append_assoc, ← hold, ← ofSegments_concat, ← h,
          ofSegments_segments]
      have htoList := congrArg String.toList hpath
      rw [String.toList_append] at htoList
      have hlength : path.length - old.length =
          (ofSegments (isAbsolute path) (init ++ [stem ++ "."])).toList.length := by
        rw [String.length_toList]
        have := congrArg String.length hpath
        rw [String.length_append] at this
        omega
      rw [hlength, htoList, List.take_left, String.ofList_toList]
    rw [hsplit, rename, hsplit]
    change addExtension (String.ofList (path.toList.take (path.length - old.length))) extension = _
    rw [hcut]
    have hsegs := hspells.segments_ofSegments
    have habs := hspells.isAbsolute_ofSegments
    by_cases hdot : stem = "."
    · subst hdot
      rw [if_pos rfl]
      exact addExtension_of_dots hsegs
    · have hproper : IsName (stem ++ ".") := by
        refine ⟨?_, hspells.plain _ (by simp)⟩
        intro hmem
        simp only [List.mem_cons, List.not_mem_nil, or_false] at hmem
        rcases hmem with hmem | hmem | hmem
        · simpa using congrArg String.toList hmem
        · exact hstem ((String.append_left_inj ".").mp (by simpa using hmem))
        · exact hdot ((String.append_left_inj ".").mp (by simpa using hmem))
      have hagain : splitName (stem ++ "." ++ "") = (stem, some "") :=
        splitName_append hstem (by simp)
      rw [String.append_empty] at hagain
      rw [addExtension_of_name hsegs hproper, habs, hagain, if_neg hdot]

end Ending

/-- An extension that `rename` can put behind a stem so that it is read back. -/
structure IsExtension (extension : String) : Prop where
  nonempty : extension ≠ ""
  dotless : '.' ∉ extension.toList
  plain : '/' ∉ extension.toList

section Renaming

variable {extension name name' : String}

theorem splitName_fst_ne_empty (hname : IsName name) : (splitName name).1 ≠ "" := by
  rcases splitName_cases name with hsplit | ⟨stem, old, hsplit, hstem, -⟩
  · rw [hsplit]
    exact hname.ne_empty
  · rw [hsplit]
    exact hstem

theorem plain_splitName_fst (hname : IsName name) : '/' ∉ (splitName name).1.toList := by
  rcases splitName_cases name with hsplit | ⟨stem, old, hsplit, -, -, hold⟩
  · rw [hsplit]
    exact hname.2
  · rw [hsplit]
    intro hslash
    exact hname.2 (by simp [hold, hslash])

theorem plain_rename (hext : IsExtension extension) (hname : IsName name) :
    '/' ∉ (rename name extension).toList := by
  rw [rename]
  split
  · simp
  · simp [plain_splitName_fst hname, hext.plain]

theorem two_le_length_rename (extension : String) (hname : IsName name) :
    2 ≤ (rename name extension).length := by
  have hstem := splitName_fst_ne_empty hname
  rw [ne_eq, ← String.length_eq_zero_iff] at hstem
  rw [rename]
  split
  · decide
  · simp only [String.length_append]
    have : (".": String).length = 1 := by decide
    omega

theorem rename_eq_name_iff (hext : IsExtension extension) (hname : IsName name)
    (hname' : IsName name') :
    rename name extension = name' ↔
      splitName name' = ((splitName name).1, some extension) ∧ (splitName name).1 ≠ "." := by
  rw [rename]
  by_cases hdot : (splitName name).1 = "."
  · simp [hdot, Ne.symm hname'.ne_dots]
  · rw [if_neg hdot]
    constructor
    · intro h
      rw [← h]
      exact ⟨splitName_append (splitName_fst_ne_empty hname) hext.dotless, hdot⟩
    · rintro ⟨h, -⟩
      rcases splitName_cases name' with hsplit | ⟨stem, old, hsplit, -, -, hold⟩
      · rw [hsplit] at h
        simp at h
      · rw [hsplit, Prod.mk.injEq, Option.some.injEq] at h
        rw [hold, h.1, h.2]

theorem rename_inj (hext : IsExtension extension) (hname : IsName name) (hname' : IsName name') :
    rename name extension = rename name' extension ↔ (splitName name).1 = (splitName name').1 := by
  have hdots (n : String) (hn : IsName n) : ".." ≠ (splitName n).1 ++ "." ++ extension := by
    intro h
    have hlength := congrArg String.length h
    have hstem := splitName_fst_ne_empty hn
    have hne := hext.nonempty
    rw [ne_eq, ← String.length_eq_zero_iff] at hstem hne
    have hdot : (".": String).length = 1 := by decide
    have hdots : ("..": String).length = 2 := by decide
    simp only [String.length_append] at hlength
    omega
  constructor
  · intro h
    rw [rename, rename] at h
    split at h <;> split at h
    · simp_all
    · exact absurd h (hdots name' hname')
    · exact absurd h.symm (hdots name hname)
    · simpa [String.ext_iff] using h
  · intro h
    rw [rename, rename, h]

end Renaming

/-- The segments that name something on the way. -/
def steps (segs : List String) : List String := segs.filter fun s => s ≠ "" ∧ s ≠ "."

/-- What a path goes through. A dot counts in front of a relative path only. -/
def named (absolute : Bool) (segs : List String) : List String :=
  (if absolute = false ∧ segs.head? = some "." then ["."] else []) ++ steps segs

def components (path : String) : List String := named (isAbsolute path) (segments path)

/-- Two spellings of one path. -/
def Same (p q : String) : Prop := isAbsolute p = isAbsolute q ∧ components p = components q

/-- Two paths that differ in nothing but what their names have behind the stem. -/
def SameButExtension (p q : String) : Prop :=
  isAbsolute p = isAbsolute q ∧ (components p).dropLast = (components q).dropLast ∧
    stem? p = stem? q

instance (p q : String) : Decidable (Same p q) := inferInstanceAs (Decidable (_ ∧ _))

theorem named_append {absolute : Bool} {segs : List String} (lead : List String)
    (h : segs.head? ≠ some ".") :
    named absolute (lead ++ segs) = named absolute lead ++ steps segs := by
  have hhead : (lead ++ segs).head? = some "." ↔ lead.head? = some "." := by
    cases lead <;> simp [h]
  simp only [named, hhead, steps, List.filter_append, List.append_assoc]

theorem named_concat {absolute : Bool} {s : String} (init : List String) (hs : s ≠ "")
    (hdot : s ≠ ".") : named absolute (init ++ [s]) = named absolute init ++ [s] := by
  rw [named_append init (by simp [hdot])]
  simp [steps, hs, hdot]

theorem steps_of_names {names : List String} (h : ∀ s ∈ names, IsName s) : steps names = names := by
  apply List.filter_eq_self.mpr
  intro s hs
  simp [(h s hs).ne_empty, (h s hs).ne_dot]

theorem named_append_names {absolute : Bool} {names : List String} (lead : List String)
    (h : ∀ s ∈ names, IsName s) :
    named absolute (lead ++ names) = named absolute lead ++ names := by
  have hhead : names.head? ≠ some "." := by
    intro hhead
    exact (h "." (List.mem_of_head? hhead)).ne_dot rfl
  rw [named_append lead hhead, steps_of_names h]

/-- The segments that `join` puts in front. -/
def joinLead (base : String) : List String :=
  if base = "" then []
  else if base.toList.getLast? = some '/' then (segments base).dropLast else segments base

theorem isAbsolute_append {base path : String} (h : base ≠ "") :
    isAbsolute (base ++ path) = isAbsolute base := by
  cases hcs : base.toList with
  | nil => exact absurd (String.toList_inj.mp hcs) h
  | cons c cs => simp [isAbsolute, hcs]

theorem isAbsolute_join {base path : String} (h : isAbsolute path = false) :
    isAbsolute (join base path) = isAbsolute base := by
  rw [join, h, if_neg Bool.false_ne_true]
  by_cases hbase : base = ""
  · rw [if_pos (.inl hbase), hbase, String.empty_append, h]
    rfl
  · split
    · exact isAbsolute_append hbase
    · rw [String.append_assoc]
      exact isAbsolute_append hbase

theorem segments_append_slash {base path : String} (h : base ≠ "") :
    segments (base ++ "/" ++ path) =
      segments base ++ (splitAt '/' path.toList).map String.ofList := by
  have habs : isAbsolute (base ++ "/" ++ path) = isAbsolute base := by
    rw [String.append_assoc]
    exact isAbsolute_append h
  rw [segments, segments, habs, ← List.map_append, ← splitAt_append]
  cases hcs : base.toList with
  | nil => exact absurd (String.toList_inj.mp hcs) h
  | cons c cs => split <;> simp [hcs]

theorem segments_join {base path : String} (h : isAbsolute path = false) :
    segments (join base path) = joinLead base ++ segments path := by
  have hpath : segments path = (splitAt '/' path.toList).map String.ofList := by
    rw [segments, h, if_neg Bool.false_ne_true]
  rw [join, h, if_neg Bool.false_ne_true, joinLead]
  by_cases hbase : base = ""
  · simp [hbase]
  · simp only [hbase, false_or, ↓reduceIte]
    split
    case isTrue hslash =>
      obtain ⟨cs, hcs⟩ := List.getLast?_eq_some_iff.mp hslash
      have hsplit : base = String.ofList cs ++ "/" := String.toList_inj.mp (by simpa using hcs)
      by_cases hroot : cs = []
      · have hone : base = "/" := by simpa [hroot] using hsplit
        have habs : isAbsolute ("/" ++ path) = true := by simp [isAbsolute]
        rw [hone, segments, habs, hpath]
        simp [segments, isAbsolute, splitAt]
      · have hne : String.ofList cs ≠ "" := by
          intro hcs'
          exact hroot (by simpa using congrArg String.toList hcs')
        have hsegs : segments base = segments (String.ofList cs) ++ [""] := by
          rw [hsplit, ← String.append_empty (s := _ ++ "/"), segments_append_slash hne]
          rfl
        rw [hsegs, List.dropLast_concat, hsplit, segments_append_slash hne, hpath]
    case isFalse => rw [segments_append_slash hbase, hpath]

theorem segments_eq_joinLead (base : String) :
    segments base = joinLead base ∨ segments base = joinLead base ++ [""] := by
  by_cases hslash : base = "" ∨ base.toList.getLast? = some '/'
  · right
    have hjoin : join base "" = base := by
      rw [join, if_neg (by decide), if_pos hslash, String.append_empty]
    have hsegs : segments (join base "") = joinLead base ++ [""] := segments_join (by decide)
    rwa [hjoin] at hsegs
  · left
    rw [not_or] at hslash
    rw [joinLead, if_neg hslash.1, if_neg hslash.2]

theorem steps_joinLead (base : String) : steps (joinLead base) = steps (segments base) := by
  rcases segments_eq_joinLead base with h | h
  · rw [h]
  · rw [h, steps, steps, List.filter_append]
    simp

/-- A path whose last segment is a name, as that of a file is. -/
def EndsInName (path : String) : Prop := ∃ init name, segments path = init ++ [name] ∧ IsName name

/-- A path that leads from a directory to something below it by names alone. -/
structure LeadsBelow (path : String) : Prop where
  relative : isAbsolute path = false
  names : ∀ s ∈ segments path, IsName s

section Comparing

variable {base extension name p path q : String} {init : List String}

theorem components_of_name (h : segments path = init ++ [name]) (hname : IsName name) :
    components path = named (isAbsolute path) init ++ [name] := by
  rw [components, h, named_concat init hname.ne_empty hname.ne_dot]

theorem stem?_of_name (h : segments path = init ++ [name]) (hname : IsName name) :
    stem? path = some (splitName name).1 := by
  rw [stem?, fileName?_of_name h hname]
  rfl

theorem extension?_of_name (h : segments path = init ++ [name]) (hname : IsName name) :
    extension? path = (splitName name).2 := by
  rw [extension?, fileName?_of_name h hname]
  rfl

theorem spells_rename (hext : IsExtension extension) (h : segments path = init ++ [name])
    (hname : IsName name) : Spells (isAbsolute path) (init ++ [rename name extension]) := by
  have hspells := spells_segments path
  rw [h] at hspells
  exact hspells.setLast (plain_rename hext hname)

theorem isAbsolute_withExtension (hext : IsExtension extension) (h : EndsInName path) :
    isAbsolute (withExtension path extension) = isAbsolute path := by
  obtain ⟨init, name, h, hname⟩ := h
  rw [withExtension_of_name h hname, (spells_rename hext h hname).isAbsolute_ofSegments]

theorem components_withExtension (hext : IsExtension extension)
    (h : segments path = init ++ [name]) (hname : IsName name) :
    components (withExtension path extension) =
      named (isAbsolute path) init ++ [rename name extension] := by
  have hspells := spells_rename hext h hname
  have hlength := two_le_length_rename extension hname
  have hempty : rename name extension ≠ "" := by
    intro hempty
    simp [hempty] at hlength
  have hdot : rename name extension ≠ "." := by
    intro hdot
    rw [hdot] at hlength
    exact absurd hlength (by decide)
  rw [components, withExtension_of_name h hname, hspells.isAbsolute_ofSegments,
    hspells.segments_ofSegments, named_concat init hempty hdot]

/-- Outputs share a path exactly if their sources do, extensions aside. -/
theorem same_withExtension_iff (hext : IsExtension extension) (hp : EndsInName p)
    (hq : EndsInName q) :
    Same (withExtension p extension) (withExtension q extension) ↔ SameButExtension p q := by
  rw [Same, SameButExtension, isAbsolute_withExtension hext hp, isAbsolute_withExtension hext hq]
  obtain ⟨init, name, h, hname⟩ := hp
  obtain ⟨init', name', h', hname'⟩ := hq
  rw [components_withExtension hext h hname, components_withExtension hext h' hname',
    components_of_name h hname, components_of_name h' hname', stem?_of_name h hname,
    stem?_of_name h' hname', List.dropLast_concat, List.dropLast_concat, Option.some.injEq,
    ← rename_inj hext hname hname']
  simp only [List.append_singleton_inj]

/-- An output has the path of a source exactly if the source has the extension of outputs and
stands where the output goes. A stem that is a dot is the exception: that output is no file. -/
theorem same_withExtension_source_iff (hext : IsExtension extension) (hp : EndsInName p)
    (hq : EndsInName q) :
    Same (withExtension p extension) q ↔
      SameButExtension p q ∧ extension? q = some extension ∧ stem? q ≠ some "." := by
  rw [Same, SameButExtension, isAbsolute_withExtension hext hp]
  obtain ⟨init, name, hsegs, hname⟩ := hp
  obtain ⟨init', name', hsegs', hname'⟩ := hq
  rw [components_withExtension hext hsegs hname, components_of_name hsegs hname,
    components_of_name hsegs' hname', stem?_of_name hsegs hname, stem?_of_name hsegs' hname',
    extension?_of_name hsegs' hname', List.append_singleton_inj, List.dropLast_concat,
    List.dropLast_concat, rename_eq_name_iff hext hname hname']
  simp only [Option.some.injEq, ne_eq]
  constructor
  · rintro ⟨habs, hinit, hsplit, hdot⟩
    rw [hsplit]
    exact ⟨⟨habs, hinit, rfl⟩, rfl, hdot⟩
  · rintro ⟨⟨habs, hinit, hstem⟩, hold, hdot⟩
    rw [hstem]
    exact ⟨habs, hinit, Prod.ext rfl hold, hdot⟩

theorem LeadsBelow.endsInName (h : LeadsBelow path) : EndsInName path := by
  rcases List.eq_nil_or_concat (segments path) with hsegs | ⟨init, name, hsegs⟩
  · exact absurd hsegs (spells_segments path).nonempty
  · rw [List.concat_eq_append] at hsegs
    exact ⟨init, name, hsegs, h.names name (by simp [hsegs])⟩

theorem EndsInName.join (h : EndsInName path) (hrel : isAbsolute path = false) :
    EndsInName (join base path) := by
  obtain ⟨init, name, hsegs, hname⟩ := h
  exact ⟨joinLead base ++ init, name, by rw [segments_join hrel, hsegs, List.append_assoc], hname⟩

theorem LeadsBelow.components_eq (h : LeadsBelow path) : components path = segments path := by
  rw [components, ← List.nil_append (segments path), named_append_names [] h.names]
  simp [named, steps]

theorem LeadsBelow.components_join (h : LeadsBelow path) :
    components (Path.join base path) =
      named (isAbsolute base) (joinLead base) ++ components path := by
  rw [components, isAbsolute_join h.relative, segments_join h.relative,
    named_append_names _ h.names, h.components_eq]

theorem LeadsBelow.stem?_join (h : LeadsBelow path) : stem? (Path.join base path) = stem? path := by
  obtain ⟨init, name, hsegs, hname⟩ := h.endsInName
  have hjoin : segments (Path.join base path) = (joinLead base ++ init) ++ [name] := by
    rw [segments_join h.relative, hsegs, List.append_assoc]
  rw [stem?_of_name hsegs hname, stem?_of_name hjoin hname]

theorem sameButExtension_join_iff (hp : LeadsBelow p) (hq : LeadsBelow q) :
    SameButExtension (join base p) (join base q) ↔ SameButExtension p q := by
  have hne {path : String} (h : LeadsBelow path) : components path ≠ [] := by
    rw [h.components_eq]
    exact (spells_segments path).nonempty
  rw [SameButExtension, SameButExtension, isAbsolute_join hp.relative, isAbsolute_join hq.relative,
    hp.relative, hq.relative, hp.components_join, hq.components_join, hp.stem?_join,
    hq.stem?_join, List.dropLast_append_of_ne_nil (hne hp), List.dropLast_append_of_ne_nil (hne hq)]
  simp

/-- A name that is an extension behind a stem. -/
def HasExtension (path extension : String) : Prop :=
  ∃ stem, stem ≠ "" ∧ fileName? path = some (stem ++ "." ++ extension)

theorem splitName_fst_inj {stem stem' : String} (hstem : stem ≠ "") (hstem' : stem' ≠ "")
    (h : (splitName (stem ++ "." ++ extension)).1 = (splitName (stem' ++ "." ++ extension)).1) :
    stem = stem' := by
  by_cases hdot : '.' ∈ extension.toList
  · -- The stem then ends at a dot of the extension, the last one.
    obtain ⟨back, front, hsplit, hback⟩ := List.eq_append_cons_of_mem (List.mem_reverse.mpr hdot)
    have hext : extension = String.ofList front.reverse ++ "." ++ String.ofList back.reverse := by
      apply String.toList_inj.mp
      rw [← List.reverse_reverse extension.toList, hsplit]
      simp
    have hlast (stem : String) : (splitName (stem ++ "." ++ extension)).1 =
        stem ++ ("." ++ String.ofList front.reverse) := by
      have hassoc : stem ++ "." ++ extension =
          (stem ++ ("." ++ String.ofList front.reverse)) ++ "." ++ String.ofList back.reverse := by
        rw [hext]
        simp only [String.append_assoc]
      rw [hassoc, splitName_append ?_ (by simpa using hback)]
      intro hempty
      simpa using congrArg String.toList hempty
    rw [hlast, hlast] at h
    exact (String.append_left_inj _).mp h
  · rw [splitName_append hstem hdot, splitName_append hstem' hdot] at h
    exact h

/-- Among the files of one extension the stem tells the name. -/
theorem same_of_sameButExtension (hp : EndsInName p) (hq : EndsInName q)
    (hpext : HasExtension p extension) (hqext : HasExtension q extension)
    (h : SameButExtension p q) : Same p q := by
  obtain ⟨habs, hinit, hstem⟩ := h
  obtain ⟨init, name, hsegs, hname⟩ := hp
  obtain ⟨init', name', hsegs', hname'⟩ := hq
  obtain ⟨stem, hne, hfile⟩ := hpext
  obtain ⟨stem', hne', hfile'⟩ := hqext
  rw [fileName?_of_name hsegs hname, Option.some.injEq] at hfile
  rw [fileName?_of_name hsegs' hname', Option.some.injEq] at hfile'
  rw [stem?_of_name hsegs hname, stem?_of_name hsegs' hname', Option.some.injEq, hfile,
    hfile'] at hstem
  have hstems := splitName_fst_inj hne hne' hstem
  rw [components_of_name hsegs hname, components_of_name hsegs' hname', List.dropLast_concat,
    List.dropLast_concat] at hinit
  refine ⟨habs, ?_⟩
  rw [components_of_name hsegs hname, components_of_name hsegs' hname', hinit, hfile, hfile',
    hstems]

end Comparing

end Path

end Sigil
