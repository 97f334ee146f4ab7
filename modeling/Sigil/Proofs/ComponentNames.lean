import Sigil.Proofs.Naming
import Sigil.Proofs.OutputPaths

namespace Sigil

namespace Names

/-- Whether a name is one for a component: an upper-case letter, then letters and digits. -/
def isComponentName (name : String) : Bool :=
  match name.toList with
  | [] => false
  | c :: cs => c.isUpper && cs.all Char.isAlphanum

/-- The words of a name: what stands between its hyphens, with its letters and numbers only. -/
def words (cs : List Char) : List String :=
  (Path.splitAt '-' cs).map fun part => String.ofList (part.filter isAlphanumeric)

theorem toList_capitalize_cons (c : Char) (cs : List Char) :
    (capitalize (String.ofList (c :: cs))).toList = upperCase c ++ cs := by
  simp [capitalize]

theorem words_hyphen (cs : List Char) : words ('-' :: cs) = "" :: words cs := by
  simp [words, Path.splitAt]

theorem words_cons {c : Char} {cs : List Char} {word : String} {others : List String}
    (hc : c ≠ '-') (h : words cs = word :: others) :
    words (c :: cs) =
      (if isAlphanumeric c then String.ofList (c :: word.toList) else word) :: others := by
  obtain ⟨part, parts, hparts, rfl, rfl⟩ := List.map_eq_cons_iff.mp h
  rw [words, Path.splitAt, if_neg hc, hparts]
  by_cases halnum : isAlphanumeric c
  · simp [halnum]
  · simp [halnum]

theorem words_eq_cons (cs : List Char) : ∃ word others, words cs = word :: others := by
  apply List.exists_cons_of_ne_nil
  intro h
  exact Path.splitAt_ne_nil '-' cs (List.map_eq_nil_iff.mp h)

/-- The words are written one behind the other, each with its first character in upper case, but
the first one only if `upper` holds. -/
theorem joinWords_of_words {cs : List Char} {word : String} {others : List String} (upper : Bool)
    (h : words cs = word :: others) :
    joinWords upper cs =
      (if upper then capitalize word else word).toList ++
        others.flatMap fun word => (capitalize word).toList := by
  fun_induction joinWords upper cs generalizing word others with
  | case1 upper =>
    cases h
    cases upper <;> rfl
  | case2 upper cs ih =>
    -- A word without characters ends here, and nothing of `upper` is left for the next one.
    obtain ⟨next, further, hnext⟩ := words_eq_cons cs
    rw [words_hyphen, hnext] at h
    cases h
    rw [ih hnext]
    cases upper <;> rfl
  | case3 c cs hc halnum ih =>
    obtain ⟨next, further, hnext⟩ := words_eq_cons cs
    rw [words_cons hc hnext, if_pos halnum] at h
    cases h
    rw [ih hnext, if_pos rfl, toList_capitalize_cons, List.append_assoc]
    rfl
  | case4 upper c cs hc halnum hupper ih =>
    obtain ⟨next, further, hnext⟩ := words_eq_cons cs
    rw [words_cons hc hnext, if_pos halnum] at h
    cases h
    simp [ih hnext, hupper]
  | case5 upper c cs hc halnum ih =>
    -- What is left out keeps `upper` pending: the first word still begins behind it.
    obtain ⟨next, further, hnext⟩ := words_eq_cons cs
    rw [words_cons hc hnext, if_neg halnum] at h
    cases h
    exact ih hnext

theorem ofList_joinWords (cs : List Char) :
    String.ofList (joinWords true cs) = String.join ((words cs).map capitalize) := by
  obtain ⟨word, others, h⟩ := words_eq_cons cs
  rw [← String.toList_inj, String.toList_ofList, String.toList_join, List.flatMap_map,
    joinWords_of_words true h, h]
  rfl

theorem mem_words {cs : List Char} {word : String} (h : word ∈ words cs) {c : Char}
    (hc : c ∈ word.toList) : c ∈ cs ∧ isAlphanumeric c := by
  obtain ⟨part, hpart, rfl⟩ := List.mem_map.mp h
  rw [String.toList_ofList, List.mem_filter] at hc
  exact ⟨Path.mem_of_mem_splitAt hpart hc.1, hc.2⟩

theorem isAlphanum_of_mem_capitalize {word : String} (h : ∀ c ∈ word.toList, c.isAlphanum) :
    ∀ c ∈ (capitalize word).toList, c.isAlphanum := by
  unfold capitalize
  split
  next => simp
  next first cs hword =>
    rw [hword] at h
    have hfirst := h first List.mem_cons_self
    have hascii := toNat_lt_of_isAlphanum hfirst
    rw [upperCase_of_ascii hascii, String.toList_ofList]
    intro c hc
    rcases List.mem_cons.mp hc with rfl | hc
    · exact isAlphanum_toUpper hfirst
    · exact h c (List.mem_cons_of_mem _ hc)

theorem isAlphanum_of_mem_joinWords {cs : List Char} (h : ∀ c ∈ cs, c.toNat < 128) (upper : Bool) :
    ∀ c ∈ joinWords upper cs, c.isAlphanum := by
  have hword : ∀ word ∈ words cs, ∀ c ∈ word.toList, c.isAlphanum := by
    intro word hword c hc
    obtain ⟨hmem, halnum⟩ := mem_words hword hc
    rwa [isAlphanumeric_of_ascii (h c hmem)] at halnum
  obtain ⟨first, others, hwords⟩ := words_eq_cons cs
  have hfirst := hword first (by simp [hwords])
  rw [joinWords_of_words upper hwords]
  intro c hc
  rcases List.mem_append.mp hc with hc | hc
  · cases upper with
    | true => exact isAlphanum_of_mem_capitalize hfirst c hc
    | false => exact hfirst c hc
  · obtain ⟨word, hother, hc⟩ := List.mem_flatMap.mp hc
    exact isAlphanum_of_mem_capitalize (hword word (by simp [hwords, hother])) c hc

theorem joinWords_of_isAlpha {c : Char} (h : c.isAlpha) (cs : List Char) :
    joinWords true (c :: cs) = c.toUpper :: joinWords false cs := by
  have hhyphen : c ≠ '-' := by
    rintro rfl
    cases h
  have halnum := isAlphanum_of_isAlpha h
  rw [joinWords, if_neg hhyphen, if_pos (isAlphanumeric_of_isAlphanum halnum), if_pos rfl,
    upperCase_of_ascii (toNat_lt_of_isAlphanum halnum), List.singleton_append]

/-- The words of a text that starts with a letter make a name for a component. -/
theorem isComponentName_joinWords {c : Char} {cs : List Char} (hc : c.isAlpha)
    (hcs : ∀ d ∈ cs, d.toNat < 128) :
    isComponentName (String.ofList (joinWords true (c :: cs))) := by
  rw [isComponentName, String.toList_ofList, joinWords_of_isAlpha hc]
  simp only [isUpper_toUpper hc, Bool.true_and]
  exact List.all_eq_true.mpr (isAlphanum_of_mem_joinWords hcs false)

section Stable

variable {name : String}

theorem exists_of_isComponentName (h : isComponentName name) :
    ∃ c cs, name.toList = c :: cs ∧ c.isUpper ∧ ∀ d ∈ c :: cs, d.isAlphanum := by
  unfold isComponentName at h
  split at h
  next => cases h
  next c cs hname =>
    rw [Bool.and_eq_true, List.all_eq_true] at h
    refine ⟨c, cs, hname, h.1, ?_⟩
    intro d hd
    rcases List.mem_cons.mp hd with rfl | hd
    · exact isAlphanum_of_isAlpha (isAlpha_of_isUpper h.1)
    · exact h.2 d hd

/-- The name of a component is one word, which is in upper case already. -/
theorem joinWords_of_isComponentName (h : isComponentName name) :
    joinWords true name.toList = name.toList := by
  obtain ⟨c, cs, hname, hupper, halnum⟩ := exists_of_isComponentName h
  have hhyphen : '-' ∉ c :: cs := fun hm => absurd (halnum '-' hm) (by decide)
  have hall : (c :: cs).filter isAlphanumeric = c :: cs :=
    List.filter_eq_self.mpr fun d hd => isAlphanumeric_of_isAlphanum (halnum d hd)
  have hwords : words (c :: cs) = [String.ofList (c :: cs)] := by
    rw [words, Path.splitAt_of_not_mem hhyphen, List.map_singleton, hall]
  have hlt := toNat_lt_of_isAlphanum (halnum c List.mem_cons_self)
  rw [hname, joinWords_of_words true hwords, if_pos rfl, toList_capitalize_cons,
    upperCase_of_ascii hlt, toUpper_of_isUpper hupper]
  simp

/-- As a path, the name of a component is a file name without an extension. -/
theorem stem?_of_isComponentName (h : isComponentName name) : Path.stem? name = some name := by
  obtain ⟨c, cs, hname, _, halnum⟩ := exists_of_isComponentName h
  have hplain {d : Char} (hd : d.isAlphanum = false) : d ∉ name.toList := by
    rw [hname]
    intro hm
    exact absurd (halnum d hm) (by simp [hd])
  have hdotless := hplain (show '.'.isAlphanum = false by decide)
  have hentry : Path.IsName name := by
    refine ⟨?_, hplain (by decide)⟩
    intro hm
    rcases hm with _ | ⟨_, _ | ⟨_, _ | ⟨_, hm⟩⟩⟩
    · cases hname
    · exact hdotless (by decide)
    · exact hdotless (by decide)
    · cases hm
  have hsegments : Path.segments name = [] ++ [name] := (segments_name hentry).1
  rw [Path.stem?_of_name hsegments hentry, Path.splitName_of_dotless hdotless]

end Stable

/-- The part of a path that a component is named after: its stem from the first letter on. -/
def namingPart (path : String) : List Char :=
  ((Path.stem? path).getD "").toList.dropWhile (!isAlphabetic ·)

theorem componentFromPath_eq (path : String) :
    componentFromPath path =
      if joinWords true (namingPart path) = [] then fallbackComponent
      else String.ofList (joinWords true (namingPart path)) := by
  unfold componentFromPath
  dsimp only
  split
  next h => exact (if_pos h).symm
  next h => exact (if_neg h).symm

theorem namingPart_ascii {path : String} (h : ∀ c ∈ path.toList, c.toNat < 128) :
    ∀ c ∈ namingPart path, c.toNat < 128 := by
  intro c hc
  have hstem := (List.dropWhile_suffix _).subset hc
  cases hs : Path.stem? path with
  | none => simp [hs] at hstem
  | some stem =>
    rw [hs] at hstem
    exact h c (Path.mem_of_mem_stem? hs hstem)

theorem isAlpha_of_namingPart {path : String} (h : ∀ c ∈ path.toList, c.toNat < 128) {c : Char}
    {cs : List Char} (hpart : namingPart path = c :: cs) : c.isAlpha := by
  have hlt := namingPart_ascii h c (by simp [hpart])
  unfold namingPart at hpart
  generalize ((Path.stem? path).getD "").toList = stem at hpart
  have hhead := List.head?_dropWhile_not (!isAlphabetic ·) stem
  rw [hpart] at hhead
  rw [← isAlphabetic_of_ascii hlt]
  simpa using hhead

/-- A component has the words of the part that it is named after, each with its first character in
upper case; only where that part is empty it has the fallback. -/
theorem componentFromPath_eq_join {path : String} (h : ∀ c ∈ path.toList, c.toNat < 128) :
    componentFromPath path =
      if namingPart path = [] then fallbackComponent
      else String.join ((words (namingPart path)).map capitalize) := by
  rw [componentFromPath_eq]
  cases hpart : namingPart path with
  | nil => rfl
  | cons c cs =>
    have hne : joinWords true (c :: cs) ≠ [] := by
      rw [joinWords_of_isAlpha (isAlpha_of_namingPart h hpart)]
      exact List.cons_ne_nil _ _
    rw [if_neg hne, if_neg (List.cons_ne_nil c cs), ofList_joinWords]

theorem isComponentName_componentFromPath {path : String}
    (h : ∀ c ∈ path.toList, c.toNat < 128) : isComponentName (componentFromPath path) := by
  have hascii := namingPart_ascii h
  rw [componentFromPath_eq_join h]
  cases hpart : namingPart path with
  | nil => decide
  | cons c cs =>
    rw [hpart, List.forall_mem_cons] at hascii
    rw [if_neg (List.cons_ne_nil c cs), ← ofList_joinWords]
    exact isComponentName_joinWords (isAlpha_of_namingPart h hpart) hascii.2

theorem componentFromPath_of_isComponentName {name : String} (h : isComponentName name) :
    componentFromPath name = name := by
  obtain ⟨c, cs, hname, hupper, _⟩ := exists_of_isComponentName h
  have hpart : namingPart name = name.toList := by
    rw [namingPart, stem?_of_isComponentName h, Option.getD_some, hname,
      List.dropWhile_cons_of_neg (by simp [isAlphabetic_of_isAlpha (isAlpha_of_isUpper hupper)])]
  rw [componentFromPath_eq, hpart, joinWords_of_isComponentName h, if_neg (by simp [hname]),
    String.ofList_toList]

/-- Every ASCII path gives its component a name that is fit for one, made of the words of the
path's stem. Such names are just those that stand for themselves, so that deriving a name once more
changes nothing. -/
theorem componentFromPath_stable (path : String) (h : ∀ c ∈ path.toList, c.toNat < 128) :
    isComponentName (componentFromPath path) ∧
      componentFromPath (componentFromPath path) = componentFromPath path ∧
      (componentFromPath path = path ↔ isComponentName path) ∧
      componentFromPath path =
        if namingPart path = [] then fallbackComponent
        else String.join ((words (namingPart path)).map capitalize) := by
  have hname := isComponentName_componentFromPath h
  refine ⟨hname, componentFromPath_of_isComponentName hname, ⟨?_, ?_⟩,
    componentFromPath_eq_join h⟩
  · intro heq
    rw [heq] at hname
    exact hname
  · exact componentFromPath_of_isComponentName

theorem componentFromPath_stable_hyphens :
    componentFromPath "/app/+2-to_do-3rd.page.hks/." = "Todo3rdpage" ∧
      isComponentName "Todo3rdpage" ∧ componentFromPath "Todo3rdpage" = "Todo3rdpage" := by
  have hascii : ("/app/+2-to_do-3rd.page.hks/.".toList.all fun c => c.toNat < 128) = true := by
    decide
  have hname : componentFromPath "/app/+2-to_do-3rd.page.hks/." = "Todo3rdpage" := by
    decide +kernel
  have hstable := componentFromPath_stable "/app/+2-to_do-3rd.page.hks/." fun c hc => by
    simpa using List.all_eq_true.mp hascii c hc
  rw [hname] at hstable
  exact ⟨hname, hstable.1, hstable.2.1⟩

end Names

end Sigil
