import Mathlib.Order.Bounds.Basic
import Sigil.Proofs.MappingsField

namespace Sigil

namespace PositionMap

/-- The source line of the first mapping for the generated line `n` in which no number is zero. -/
def firstFor (n : Nat) (mappings : List (Nat × Nat)) : Option Nat :=
  (mappings.find? fun m => m.1 = n ∧ m.1 ≠ 0 ∧ m.2 ≠ 0).map (·.2)

variable {entries : List (Nat × Nat)} {n : Nat}

theorem firstFor_cons_of_pos {m : Nat × Nat} (h : m.1 = n ∧ m.1 ≠ 0 ∧ m.2 ≠ 0)
    (mappings : List (Nat × Nat)) : firstFor n (m :: mappings) = some m.2 := by
  rw [firstFor, List.find?_cons_of_pos (by simpa using h), Option.map_some]

theorem firstFor_cons_of_neg {m : Nat × Nat} (h : ¬ (m.1 = n ∧ m.1 ≠ 0 ∧ m.2 ≠ 0))
    (mappings : List (Nat × Nat)) : firstFor n (m :: mappings) = firstFor n mappings := by
  rw [firstFor, List.find?_cons_of_neg (by simpa using h), firstFor]

theorem firstFor_append (mappings others : List (Nat × Nat)) :
    firstFor n (mappings ++ others) = (firstFor n mappings).or (firstFor n others) := by
  rw [firstFor, List.find?_append, Option.map_or]
  rfl

theorem Ascends.pairwise {g : Nat} (h : Ascends g entries) : entries.Pairwise (·.1 < ·.1) := by
  induction entries generalizing g with
  | nil => exact .nil
  | cons e rest ih => exact List.pairwise_cons.mpr ⟨fun b hb => h.2.lt hb, ih h.2⟩

theorem Ascends.lookup_eq_none {g : Nat} (h : Ascends g entries) (hn : n ≤ g) :
    entries.lookup n = none := by
  rw [List.lookup_eq_none_iff]
  intro e he
  have hlt := h.lt he
  rw [bne_iff_ne]
  omega

/-- An entry is found by its generated line. -/
theorem Ascends.lookup_eq_some_iff {g k : Nat} (h : Ascends g entries) :
    entries.lookup n = some k ↔ (n, k) ∈ entries := by
  induction entries generalizing g with
  | nil => simp
  | cons e rest ih =>
    obtain ⟨g', o'⟩ := e
    obtain ⟨_, hrest⟩ := h
    by_cases hn : n = g'
    · subst hn
      have hlater : (n, k) ∉ rest := fun hm => Nat.lt_irrefl n (hrest.lt hm)
      simp [hlater, eq_comm]
    · rw [List.lookup_cons, beq_eq_false_iff_ne.mpr hn, List.mem_cons]
      simp [hn, ih hrest]

/-- A line that has an entry keeps it. -/
theorem lookup_insertEntry {start g : Nat} (h : Ascends start entries) (o : Nat) :
    (insertEntry g o entries).lookup n =
      (entries.lookup n).or (if n = g then some o else none) := by
  induction entries generalizing start with
  | nil =>
    rw [insertEntry, List.lookup_cons]
    by_cases hn : n = g
    · simp [hn]
    · rw [beq_eq_false_iff_ne.mpr hn]
      simp [hn]
  | cons e rest ih =>
    obtain ⟨g', o'⟩ := e
    obtain ⟨_, hrest⟩ := h
    unfold insertEntry
    split
    next hlt =>
      by_cases hn : n = g
      · -- All entries lie behind the new one, so none of them is for its line.
        have hnone : ((g', o') :: rest).lookup n = none :=
          Ascends.lookup_eq_none (g := g) ⟨hlt, hrest⟩ (by omega)
        rw [hnone, hn, List.lookup_cons_self]
        simp
      · rw [List.lookup_cons, beq_eq_false_iff_ne.mpr hn]
        simp [hn]
    next hnot =>
      split
      next heq =>
        subst heq
        rw [List.lookup_cons]
        by_cases hn : n = g <;> simp [hn]
      next hne =>
        rw [List.lookup_cons, List.lookup_cons]
        by_cases hn : n = g'
        · simp [hn]
        · rw [beq_eq_false_iff_ne.mpr hn]
          exact ih hrest

/-- A mapping counts for its generated line if that has no entry yet. -/
theorem sourceLine_addMapping {map : PositionMap} (h : Ascends 0 map.entries) (g o : Nat) :
    (map.addMapping g o).sourceLine? n = (map.sourceLine? n).or (firstFor n [(g, o)]) := by
  unfold addMapping
  split
  next hzero =>
    have hnone : firstFor n [(g, o)] = none := by
      rw [firstFor_cons_of_neg (by dsimp only; omega)]
      rfl
    rw [hnone, Option.or_none]
  next hpos =>
    have hfirst : firstFor n [(g, o)] = if n = g then some o else none := by
      split
      next hn => exact firstFor_cons_of_pos (by dsimp only; omega) []
      next hn =>
        rw [firstFor_cons_of_neg (by dsimp only; omega)]
        rfl
    rw [hfirst]
    exact lookup_insertEntry h o

theorem sourceLine_ofMappings (file source : String) (mappings : List (Nat × Nat)) (n : Nat) :
    (ofMappings file source mappings).sourceLine? n = firstFor n mappings := by
  have hfold (map : PositionMap) (h : Ascends 0 map.entries) :
      (mappings.foldl (fun map m => map.addMapping m.1 m.2) map).sourceLine? n =
        (map.sourceLine? n).or (firstFor n mappings) := by
    induction mappings generalizing map with
    | nil => simp [firstFor]
    | cons m mappings ih =>
      rw [List.foldl_cons, ih _ (ascends_addMapping h m.1 m.2), sourceLine_addMapping h,
        Option.or_assoc, ← firstFor_append]
      rfl
  exact hfold ⟨file, source, []⟩ trivial

/-- The first entry for a source line is the one with the least generated line. -/
theorem Ascends.isLeast_of_find {g k : Nat} {e : Nat × Nat} (h : Ascends g entries)
    (he : entries.find? (·.2 == k) = some e) : IsLeast {n | (n, k) ∈ entries} e.1 := by
  obtain ⟨hk, before, behind, hentries, hbefore⟩ := List.find?_eq_some_iff_append.mp he
  obtain rfl : e.2 = k := eq_of_beq hk
  have hsorted := h.pairwise
  rw [hentries] at hsorted
  refine ⟨?_, fun n hn => ?_⟩
  · change e ∈ entries
    rw [hentries]
    simp
  · change (n, e.2) ∈ entries at hn
    rw [hentries, List.mem_append, List.mem_cons] at hn
    rcases hn with hn | heq | hn
    · -- The entries before the first one are for other source lines.
      have hno := hbefore _ hn
      simp at hno
    · exact Nat.le_of_eq (congrArg Prod.fst heq).symm
    · have hlt := (List.pairwise_cons.mp (List.pairwise_append.mp hsorted).2.1).1 _ hn
      exact Nat.le_of_lt hlt

theorem generatedLine_eq_some_iff {map : PositionMap} {g k : Nat} (h : Ascends g map.entries) :
    map.generatedLine? k = some n ↔ IsLeast {n | map.sourceLine? n = some k} n := by
  have hmem : {n | map.sourceLine? n = some k} = {n | (n, k) ∈ map.entries} :=
    Set.ext fun n => h.lookup_eq_some_iff
  rw [hmem]
  constructor
  · intro hfind
    obtain ⟨e, he, rfl⟩ := Option.map_eq_some_iff.mp hfind
    exact h.isLeast_of_find he
  · intro hleast
    have hsome : (map.entries.find? (·.2 == k)).isSome :=
      List.find?_isSome.mpr ⟨(n, k), hleast.1, beq_self_eq_true k⟩
    obtain ⟨e, he⟩ := Option.isSome_iff_exists.mp hsome
    rw [generatedLine?, he, Option.map_some, (h.isLeast_of_find he).unique hleast]

end PositionMap

namespace Component

/-- The source line that line `n` of the typed output was written for, lines counted from one. -/
def lineOrigin? (c : Component) (n : Nat) : Option Nat :=
  if n = 0 then none else ((c.outputLines .typed)[n - 1]?).bind (·.origin)

end Component

/-- What the numbered lines of an output give for a line is what that line was written for. -/
theorem OutputLine.firstFor_numbered {start n : Nat} (hstart : 0 < start) (ls : List OutputLine) :
    PositionMap.firstFor n (numbered start ls) =
      if n < start then none else ((ls[n - start]?).bind (·.origin)).filter (0 < ·) := by
  induction ls generalizing start with
  | nil => simp [numbered, PositionMap.firstFor]
  | cons l ls ih =>
    have hother (hne : start ≠ n) :
        PositionMap.firstFor n (l.origin.map (start, ·)).toList = none := by
      cases l.origin with
      | none => rfl
      | some o => exact PositionMap.firstFor_cons_of_neg (fun h => hne h.1) []
    rw [numbered_cons, PositionMap.firstFor_append, ih (Nat.succ_pos start)]
    rcases Nat.lt_trichotomy n start with hlt | heq | hgt
    · rw [hother (by omega), if_pos (by omega), if_pos hlt, Option.or_none]
    · subst heq
      rw [if_pos (by omega), if_neg (by omega), Nat.sub_self, List.getElem?_cons_zero,
        Option.bind_some, Option.or_none]
      cases l.origin with
      | none => rfl
      | some o =>
        rw [Option.map_some, Option.toList_some]
        by_cases ho : o = 0
        · rw [PositionMap.firstFor_cons_of_neg (fun h => h.2.2 ho), ho]
          rfl
        · have hfirst : PositionMap.firstFor n [(n, o)] = some o :=
            PositionMap.firstFor_cons_of_pos ⟨rfl, Nat.ne_of_gt hstart, ho⟩ []
          rw [hfirst, Option.filter_some, if_pos (decide_eq_true (Nat.pos_of_ne_zero ho))]
    · have hindex : n - start = n - (start + 1) + 1 := by omega
      rw [hother (by omega), Option.none_or, if_neg (by omega), if_neg (by omega), hindex,
        List.getElem?_cons_succ]

namespace Component

theorem firstFor_lineMappings (c : Component) (n : Nat) :
    PositionMap.firstFor n (c.lineMappings .typed) = (c.lineOrigin? n).filter (0 < ·) := by
  have hnumbered : PositionMap.firstFor n (c.lineMappings .typed) =
      if n < 1 then none else
        (((c.outputLines .typed)[n - 1]?).bind (·.origin)).filter (0 < ·) :=
    OutputLine.firstFor_numbered Nat.one_pos (c.outputLines .typed)
  rw [hnumbered, lineOrigin?]
  by_cases hn : n = 0
  · rw [if_pos (by omega), if_pos hn]
    rfl
  · rw [if_neg (by omega), if_neg hn]

/-- A line of the typed output is looked up among the hints first. -/
theorem sourceLine_typedOutput (c : Component) (source : String) (options : TypedOptions)
    (n : Nat) :
    ((c.typedOutput source options).map.bind (·.sourceLine? n)) =
      (PositionMap.firstFor n options.hints).or
        (if options.mapLines then (c.lineOrigin? n).filter (0 < ·) else none) := by
  have hderived : PositionMap.firstFor n (if options.mapLines then c.lineMappings .typed else []) =
      if options.mapLines then (c.lineOrigin? n).filter (0 < ·) else none := by
    split
    next => exact c.firstFor_lineMappings n
    next => rfl
  unfold typedOutput
  dsimp only
  split
  next =>
    rw [Option.bind_some, PositionMap.sourceLine_ofMappings, PositionMap.firstFor_append, hderived]
  next hnone =>
    obtain ⟨hmap, hhints⟩ := not_or.mp hnone
    rw [not_not.mp hhints, if_neg hmap]
    rfl

end Component

open PositionMap in
/-- The entries of a map go up by generated line. The source line of a generated line is the one of
the first mapping for it in which no number is zero, and the generated line of a source line is the
least one that leads to it. In the map of a typed output the hints count first, and behind them the
lines of the output itself if they are mapped. -/
theorem ofMappings_lookups (file source : String) (mappings : List (Nat × Nat)) :
    (ofMappings file source mappings).entries.Pairwise (·.1 < ·.1) ∧
      (∀ n, (ofMappings file source mappings).sourceLine? n = firstFor n mappings) ∧
      (∀ k n, (ofMappings file source mappings).generatedLine? k = some n ↔
        IsLeast {n | (ofMappings file source mappings).sourceLine? n = some k} n) ∧
      ∀ (c : Component) (document : String) (options : TypedOptions) (n : Nat),
        ((c.typedOutput document options).map.bind (·.sourceLine? n)) =
          (firstFor n options.hints).or
            (if options.mapLines then (c.lineOrigin? n).filter (0 < ·) else none) := by
  have hascends := ascends_ofMappings file source mappings
  exact ⟨hascends.pairwise, sourceLine_ofMappings file source mappings,
    fun k n => generatedLine_eq_some_iff hascends,
    fun c document options n => c.sourceLine_typedOutput document options n⟩

end Sigil
