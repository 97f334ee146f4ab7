import Mathlib.Tactic.Ring
import Sigil.Proofs.PositionMaps

namespace Sigil

namespace Vlq

def digitValue? (c : Char) : Option Nat := base64Digits.idxOf? c

/-- The number that is written as `n`, whose lowest bit is the sign. -/
def signed (n : Nat) : Int := if n % 2 = 0 then (n / 2 : Nat) else -(n / 2 : Nat)

/-- The numbers that a text of digits stands for, where `low` is what was read of the first up to
its bit `shift`. A text that ends within a number stands for none. -/
def decodeFrom (low shift : Nat) : List Char → Option (List Int)
  | [] => if shift = 0 then some [] else none
  | c :: cs =>
    (digitValue? c).bind fun d =>
      if d < 32 then (decodeFrom 0 0 cs).map (signed (low + d * 2 ^ shift) :: ·)
      else decodeFrom (low + (d - 32) * 2 ^ shift) (shift + 5) cs

def decode (cs : List Char) : Option (List Int) := decodeFrom 0 0 cs

theorem digitValue_base64Digit {n : Nat} (h : n < 64) : digitValue? (base64Digit n) = some n := by
  have hall : ∀ n < 64, digitValue? (base64Digit n) = some n := by decide +kernel
  exact hall n h

theorem groups_lt (n : Nat) : ∀ d ∈ groups n, d < 64 := by
  fun_induction groups n with
  | case1 n hn =>
    intro d hd
    obtain rfl := List.mem_singleton.mp hd
    omega
  | case2 n hn ih =>
    intro d hd
    rcases List.mem_cons.mp hd with rfl | hd
    · omega
    · exact ih d hd

/-- The groups of a number are read as that number, and what follows them is read on its own. -/
theorem decodeFrom_groups (low shift n : Nat) (cs : List Char) :
    decodeFrom low shift ((groups n).map base64Digit ++ cs) =
      (decodeFrom 0 0 cs).map (signed (low + n * 2 ^ shift) :: ·) := by
  fun_induction groups n generalizing low shift with
  | case1 n hn =>
    rw [List.map_singleton, List.singleton_append, decodeFrom,
      digitValue_base64Digit (by omega : n < 64), Option.bind_some, if_pos hn]
  | case2 n hn ih =>
    have hd : n % 32 + 32 < 64 := by omega
    have hmore : ¬ n % 32 + 32 < 32 := by omega
    have hsum : low + (n % 32 + 32 - 32) * 2 ^ shift + n / 32 * 2 ^ (shift + 5) =
        low + n * 2 ^ shift := by
      have hn := Nat.mod_add_div n 32
      calc low + (n % 32 + 32 - 32) * 2 ^ shift + n / 32 * 2 ^ (shift + 5)
          = low + (n % 32 + 32 * (n / 32)) * 2 ^ shift := by
            rw [Nat.pow_add, Nat.add_sub_cancel]
            ring
        _ = low + n * 2 ^ shift := by rw [hn]
    rw [List.map_cons, List.cons_append, decodeFrom, digitValue_base64Digit hd, Option.bind_some,
      if_neg hmore, ih, hsum]

/-- The number that is read where `v` was written. -/
def reread (v : Int) : Int := signed (word v)

theorem decode_encode (v : Int) (cs : List Char) :
    decode (encode v ++ cs) = (decode cs).map (reread v :: ·) := by
  unfold decode encode reread
  rw [decodeFrom_groups, Nat.pow_zero, Nat.mul_one, Nat.zero_add]

/-- Just the numbers that fit into 31 bits beside their sign are read as they were written. -/
theorem reread_eq_self_iff {v : Int} : reread v = v ↔ v.natAbs < 2 ^ 31 := by
  unfold reread signed word
  split <;> split <;> omega

theorem not_mem_encode {c : Char} (hc : digitValue? c = none) (v : Int) : c ∉ encode v := by
  intro h
  obtain ⟨d, hd, rfl⟩ := List.mem_map.mp h
  rw [digitValue_base64Digit (groups_lt _ d hd)] at hc
  cases hc

end Vlq

/-- A segment of a `mappings` field: the column of the generated line, the source, and its line and
its column. All but the first count from the segment before. -/
structure Segment where
  column : Int
  source : Int
  line : Int
  sourceColumn : Int
deriving DecidableEq, Repr

namespace Segment

def ofChars? (cs : List Char) : Option Segment :=
  match Vlq.decode cs with
  | some [column, source, line, sourceColumn] => some ⟨column, source, line, sourceColumn⟩
  | _ => none

/-- The segments of one generated line, with commas between them. -/
def ofLine? (cs : List Char) : Option (List Segment) :=
  if cs = [] then some [] else (cs.splitOn ',').mapM ofChars?

/-- The segments of a `mappings` field, line by line. -/
def ofField? (field : String) : Option (List (List Segment)) :=
  (field.toList.splitOn ';').mapM ofLine?

/-- The lines that deltas lead to from the line `o`, each with the generated line of its delta. -/
def accumulate (o : Int) : List (Nat × Int) → List (Nat × Int)
  | [] => []
  | (g, delta) :: rest => (g, o + delta) :: accumulate (o + delta) rest

/-- The deltas of the source lines, with the generated lines, of which the first is `start`. -/
def deltas (start : Nat) (lines : List (List Segment)) : List (Nat × Int) :=
  (lines.zipIdx start).flatMap fun (segments, g) => segments.map fun s => (g, s.line)

/-- The pairs of generated and source lines, counted from one, that segments stand for. In the field
the source lines are counted from zero. -/
def positions (lines : List (List Segment)) : List (Nat × Int) :=
  (accumulate 0 (deltas 1 lines)).map fun (g, o) => (g, o + 1)

end Segment

namespace PositionMap

/-- How far each source line of the entries lies behind the one before, where the first counts from
the line `o`. -/
def lineDeltas (o : Nat) : List (Nat × Nat) → List Int
  | [] => []
  | (_, o') :: rest => ((o' : Int) - (o : Int)) :: lineDeltas o' rest

/-- The delta on each generated line behind the line `g`, up to the last one that has an entry. -/
def deltaLines (g o : Nat) : List (Nat × Nat) → List (Option Int)
  | [] => []
  | (g', o') :: rest =>
    List.replicate (g' - g - 1) none ++ some ((o' : Int) - (o : Int)) :: deltaLines g' o' rest

/-- What stands in the field for a line with a delta or without one. -/
def lineText (delta? : Option Int) : List Char := (delta?.map segment).getD []

/-- The segments that are read off it. -/
def lineSegments (delta? : Option Int) : List Segment :=
  (delta?.map fun delta => ⟨0, 0, Vlq.reread delta, 0⟩).toList

/-- The generated lines of the entries go up and lie behind `g`. -/
def Ascends (g : Nat) : List (Nat × Nat) → Prop
  | [] => True
  | (g', _) :: rest => g < g' ∧ Ascends g' rest

theorem Ascends.lt {g : Nat} {entries : List (Nat × Nat)} (h : Ascends g entries) {e : Nat × Nat}
    (he : e ∈ entries) : g < e.1 := by
  induction entries generalizing g with
  | nil => cases he
  | cons first rest ih =>
    obtain ⟨hlt, hrest⟩ := h
    rcases List.mem_cons.mp he with rfl | he
    · exact hlt
    · have hbehind := ih hrest he
      omega

theorem Ascends.insertEntry {g g' o : Nat} {entries : List (Nat × Nat)} (h : Ascends g entries)
    (hg : g < g') : Ascends g (insertEntry g' o entries) := by
  induction entries generalizing g with
  | nil => exact ⟨hg, trivial⟩
  | cons e rest ih =>
    obtain ⟨hfirst, hrest⟩ := h
    unfold PositionMap.insertEntry
    split
    next hlt => exact ⟨hg, hlt, hrest⟩
    next hnot =>
      split
      next => exact ⟨hfirst, hrest⟩
      next hne => exact ⟨hfirst, ih hrest (by omega)⟩

theorem ascends_addMapping {map : PositionMap} (h : Ascends 0 map.entries) (g o : Nat) :
    Ascends 0 (map.addMapping g o).entries := by
  unfold addMapping
  split
  next => exact h
  next hpos => exact h.insertEntry (by omega)

theorem ascends_ofMappings (file source : String) (pairs : List (Nat × Nat)) :
    Ascends 0 (ofMappings file source pairs).entries := by
  have hempty : Ascends 0 (⟨file, source, []⟩ : PositionMap).entries := trivial
  exact List.foldlRecOn (motive := fun map : PositionMap => Ascends 0 map.entries) pairs _ hempty
    fun map h pair _ => ascends_addMapping h pair.1 pair.2

theorem decode_segment (delta : Int) :
    Vlq.decode (segment delta) = some [0, 0, Vlq.reread delta, 0] := by
  have hzero : Vlq.reread 0 = 0 := by decide
  have hend : Vlq.decode [] = some [] := rfl
  unfold segment
  rw [List.append_assoc, List.append_assoc, Vlq.decode_encode, Vlq.decode_encode,
    Vlq.decode_encode, ← List.append_nil (Vlq.encode 0), Vlq.decode_encode, hend, hzero]
  rfl

theorem not_mem_segment {c : Char} (hc : Vlq.digitValue? c = none) (delta : Int) :
    c ∉ segment delta := by
  have hzero := Vlq.not_mem_encode hc 0
  have hdelta := Vlq.not_mem_encode hc delta
  simp only [segment, List.mem_append, not_or]
  exact ⟨⟨⟨hzero, hzero⟩, hdelta⟩, hzero⟩

theorem semicolon_not_mem_lineText (delta? : Option Int) : ';' ∉ lineText delta? := by
  cases delta? with
  | none => simp [lineText]
  | some delta => exact not_mem_segment (by decide +kernel) delta

theorem ofLine_lineText (delta? : Option Int) :
    Segment.ofLine? (lineText delta?) = some (lineSegments delta?) := by
  cases delta? with
  | none => rfl
  | some delta =>
    have hdecode := decode_segment delta
    have hne : segment delta ≠ [] := by
      intro hnil
      rw [hnil] at hdecode
      cases hdecode
    have hcomma : ',' ∉ segment delta := not_mem_segment (by decide +kernel) delta
    have hread : Segment.ofChars? (segment delta) = some ⟨0, 0, Vlq.reread delta, 0⟩ := by
      rw [Segment.ofChars?, hdecode]
    change Segment.ofLine? (segment delta) = some [⟨0, 0, Vlq.reread delta, 0⟩]
    rw [Segment.ofLine?, if_neg hne, List.splitOn_eq_singleton hcomma, List.mapM_cons, hread]
    rfl

theorem splitOn_semicolons {cs : List Char} (hcs : ';' ∉ cs) (k : Nat) (rest : List Char) :
    (cs ++ List.replicate (k + 1) ';' ++ rest).splitOn ';' =
      cs :: List.replicate k [] ++ rest.splitOn ';' := by
  induction k generalizing cs with
  | zero =>
    rw [List.append_assoc]
    exact List.splitOn_append_cons_self_of_not_mem hcs rest
  | succ k ih =>
    have hnil : ';' ∉ ([] : List Char) := by simp
    have hrest := ih hnil
    rw [List.append_assoc, List.replicate_succ, List.cons_append,
      List.splitOn_append_cons_self_of_not_mem hcs, ← List.nil_append (List.replicate (k + 1) ';'),
      hrest, List.replicate_succ]
    rfl

/-- A line of the field, and behind it the lines of entries for later lines. -/
theorem splitOn_encodeFrom {g o : Nat} {entries : List (Nat × Nat)} (h : Ascends g entries)
    {cs : List Char} (hcs : ';' ∉ cs) :
    (cs ++ encodeFrom g o entries).splitOn ';' =
      cs :: (deltaLines g o entries).map lineText := by
  induction entries generalizing g o cs with
  | nil =>
    rw [encodeFrom, List.append_nil]
    exact List.splitOn_eq_singleton hcs
  | cons e rest ih =>
    obtain ⟨g', o'⟩ := e
    obtain ⟨hlt, hrest⟩ := h
    have hk : g' - g = g' - g - 1 + 1 := by omega
    have hsegment := semicolon_not_mem_lineText (some ((o' : Int) - (o : Int)))
    rw [encodeFrom, hk, ← List.append_assoc, ← List.append_assoc,
      List.append_assoc _ _ (encodeFrom g' o' rest), splitOn_semicolons hcs]
    have hlines := ih hrest hsegment (o := o')
    change (segment ((o' : Int) - (o : Int)) ++ encodeFrom g' o' rest).splitOn ';' = _ at hlines
    rw [hlines, deltaLines, List.map_append, List.map_replicate, List.map_cons]
    rfl

/-- If the lines were counted from zero, there would be one more. -/
theorem encodeFrom_zero {map : PositionMap} (h : Ascends 0 map.entries) (hne : map.entries ≠ []) :
    encodeFrom 0 1 map.entries = ';' :: map.mappings.toList := by
  rw [mappings, String.toList_ofList]
  obtain ⟨⟨g, o⟩, rest, hentries⟩ := List.exists_cons_of_ne_nil hne
  rw [hentries] at h ⊢
  have hpos : 0 < g := h.1
  have hk : g - 0 = g - 1 + 1 := by omega
  rw [encodeFrom, hk, List.replicate_succ, List.cons_append, List.cons_append]
  rfl

theorem splitOn_mappings {map : PositionMap} (h : Ascends 0 map.entries)
    (hne : map.entries ≠ []) :
    map.mappings.toList.splitOn ';' = (deltaLines 0 1 map.entries).map lineText := by
  have hsplit := splitOn_encodeFrom (o := 1) h (List.not_mem_nil (a := ';'))
  have hcons := List.splitOn_append_cons_self_of_not_mem (List.not_mem_nil (a := ';'))
    map.mappings.toList
  rw [encodeFrom_zero h hne, hcons] at hsplit
  exact (List.cons.inj hsplit).2

theorem mapM_ofLine (lines : List (Option Int)) :
    (lines.map lineText).mapM Segment.ofLine? = some (lines.map lineSegments) := by
  induction lines with
  | nil => rfl
  | cons delta? lines ih =>
    rw [List.map_cons, List.mapM_cons, ofLine_lineText, ih]
    rfl

/-- The deltas that are read off the lines, with the numbers of their lines. -/
theorem deltas_deltaLines {g : Nat} (o : Nat) {entries : List (Nat × Nat)} (h : Ascends g entries) :
    Segment.deltas (g + 1) ((deltaLines g o entries).map lineSegments) =
      (entries.map (·.1)).zip ((lineDeltas o entries).map Vlq.reread) := by
  induction entries generalizing g o with
  | nil => rfl
  | cons e rest ih =>
    obtain ⟨g', o'⟩ := e
    obtain ⟨hlt, hrest⟩ := h
    have hempty (k start : Nat) : Segment.deltas start (List.replicate k []) = [] := by
      induction k generalizing start with
      | zero => rfl
      | succ k ih => exact ih (start + 1)
    have hstart : g + 1 + (g' - g - 1) = g' := by omega
    have hlater := ih o' hrest
    unfold Segment.deltas at hempty hlater ⊢
    rw [deltaLines, List.map_append, List.map_replicate, List.map_cons, List.zipIdx_append,
      List.flatMap_append, List.length_replicate, hstart]
    change ((List.replicate (g' - g - 1) []).zipIdx (g + 1)).flatMap _ ++ _ = _
    rw [hempty, List.nil_append, List.zipIdx_cons, List.flatMap_cons, hlater]
    rfl

/-- The lines that are reached again by what is read of the deltas are the original ones just if
each delta is read as it was written. -/
theorem accumulate_eq_iff (o : Nat) (entries : List (Nat × Nat)) :
    (Segment.accumulate ((o : Int) - 1)
        ((entries.map (·.1)).zip ((lineDeltas o entries).map Vlq.reread))).map
          (fun (g, o) => (g, o + 1)) =
        entries.map (fun e => (e.1, (e.2 : Int))) ↔
      ∀ delta ∈ lineDeltas o entries, delta.natAbs < 2 ^ 31 := by
  induction entries generalizing o with
  | nil => simp [Segment.accumulate, lineDeltas]
  | cons e rest ih =>
    obtain ⟨g', o'⟩ := e
    have hhead : (o : Int) - 1 + Vlq.reread ((o' : Int) - (o : Int)) + 1 = o' ↔
        ((o' : Int) - (o : Int)).natAbs < 2 ^ 31 := by
      rw [← Vlq.reread_eq_self_iff]
      omega
    rw [lineDeltas, List.map_cons, List.map_cons, List.zip_cons_cons, Segment.accumulate,
      List.map_cons, List.map_cons, List.cons.injEq, Prod.mk.injEq, List.forall_mem_cons, hhead]
    constructor
    · rintro ⟨⟨_, hdelta⟩, hrest⟩
      have hread := Vlq.reread_eq_self_iff.mpr hdelta
      have hnext : (o : Int) - 1 + ((o' : Int) - (o : Int)) = (o' : Int) - 1 := by omega
      rw [hread, hnext] at hrest
      exact ⟨hdelta, (ih o').mp hrest⟩
    · rintro ⟨hdelta, hrest⟩
      have hread := Vlq.reread_eq_self_iff.mpr hdelta
      have hnext : (o : Int) - 1 + ((o' : Int) - (o : Int)) = (o' : Int) - 1 := by omega
      rw [hread, hnext]
      exact ⟨⟨rfl, hdelta⟩, (ih o').mpr hrest⟩

/-- The last generated line that has an entry, or `g` if there is none. -/
def lastLine (g : Nat) (entries : List (Nat × Nat)) : Nat := (entries.getLast?.map (·.1)).getD g

theorem lastLine_cons (g : Nat) (e : Nat × Nat) (rest : List (Nat × Nat)) :
    lastLine g (e :: rest) = lastLine e.1 rest := by
  unfold lastLine
  rw [List.getLast?_cons]
  cases rest.getLast? <;> rfl

theorem length_deltaLines {g : Nat} (o : Nat) {entries : List (Nat × Nat)} (h : Ascends g entries) :
    g + (deltaLines g o entries).length = lastLine g entries := by
  induction entries generalizing g o with
  | nil => rfl
  | cons e rest ih =>
    obtain ⟨g', o'⟩ := e
    obtain ⟨hlt, hrest⟩ := h
    have hlater := ih o' hrest
    rw [lastLine_cons, ← hlater, deltaLines, List.length_append, List.length_replicate,
      List.length_cons]
    omega

theorem count_encodeFrom {g : Nat} (o : Nat) {entries : List (Nat × Nat)} (h : Ascends g entries) :
    g + (encodeFrom g o entries).count ';' = lastLine g entries := by
  induction entries generalizing g o with
  | nil => rfl
  | cons e rest ih =>
    obtain ⟨g', o'⟩ := e
    obtain ⟨hlt, hrest⟩ := h
    have hlater := ih o' hrest
    have hsegment : (segment ((o' : Int) - (o : Int))).count ';' = 0 :=
      List.count_eq_zero.mpr (semicolon_not_mem_lineText (some _))
    rw [lastLine_cons, ← hlater, encodeFrom, List.count_append, List.count_append,
      List.count_replicate_self, hsegment]
    omega

/-- Each entry has a delta on its line. -/
theorem deltaLines_of_mem {g : Nat} (o : Nat) {entries : List (Nat × Nat)} (h : Ascends g entries)
    {e : Nat × Nat} (he : e ∈ entries) :
    ∃ delta, (deltaLines g o entries)[e.1 - g - 1]? = some (some delta) := by
  induction entries generalizing g o with
  | nil => cases he
  | cons first rest ih =>
    obtain ⟨g', o'⟩ := first
    obtain ⟨hlt, hrest⟩ := h
    rw [deltaLines]
    rcases List.mem_cons.mp he with rfl | he
    · refine ⟨(o' : Int) - (o : Int), ?_⟩
      rw [List.getElem?_append_right (by simp), List.length_replicate]
      simp
    · obtain ⟨delta, hdelta⟩ := ih o' hrest he
      have hbehind := hrest.lt he
      have hindex : e.1 - g - 1 - (g' - g - 1) = e.1 - g' - 1 + 1 := by omega
      refine ⟨delta, ?_⟩
      rw [List.getElem?_append_right (by rw [List.length_replicate]; omega),
        List.length_replicate, hindex, List.getElem?_cons_succ]
      exact hdelta

/-- A line with a delta has an entry. -/
theorem mem_of_deltaLines {g n : Nat} (o : Nat) {entries : List (Nat × Nat)}
    (h : Ascends g entries) {delta : Int}
    (hn : (deltaLines g o entries)[n]? = some (some delta)) : g + n + 1 ∈ entries.map (·.1) := by
  induction entries generalizing g o n with
  | nil => cases hn
  | cons e rest ih =>
    obtain ⟨g', o'⟩ := e
    obtain ⟨hlt, hrest⟩ := h
    rw [deltaLines] at hn
    rcases Nat.lt_trichotomy n (g' - g - 1) with hlow | heq | hhigh
    · rw [List.getElem?_append_left (by rw [List.length_replicate]; exact hlow),
        List.getElem?_replicate_of_lt hlow] at hn
      cases hn
    · have hline : g + n + 1 = g' := by omega
      rw [hline, List.map_cons]
      exact List.mem_cons_self
    · have hindex : n - (g' - g - 1) = n - (g' - g - 1) - 1 + 1 := by omega
      rw [List.getElem?_append_right (by rw [List.length_replicate]; omega),
        List.length_replicate, hindex, List.getElem?_cons_succ] at hn
      have hlater := ih o' hrest hn
      have hline : g' + (n - (g' - g - 1) - 1) + 1 = g + n + 1 := by omega
      rw [hline] at hlater
      exact List.mem_cons_of_mem _ hlater

end PositionMap

open PositionMap in
/-- The `mappings` field of a map is read line by line up to the last line that has an entry. A line
with an entry has one segment, in which only the source line counts, and any other line has none.
The pairs that the segments stand for are the entries of the map just if no source line lies
2 ^ 31 lines or more from the one before it, of which the first is the line one. -/
theorem mappings_ofField (file source : String) (pairs : List (Nat × Nat)) :
    let map := PositionMap.ofMappings file source pairs
    ∃ lines, Segment.ofField? map.mappings = some lines ∧
      lines.length = lastLine 1 map.entries ∧
      map.mappings.toList.count ';' = lastLine 1 map.entries - 1 ∧
      (map.entries = [] → map.mappings = "") ∧
      (∀ e ∈ map.entries, ∃ delta, lines[e.1 - 1]? = some [⟨0, 0, delta, 0⟩]) ∧
      (∀ n segments, lines[n]? = some segments → n + 1 ∉ map.entries.map (·.1) → segments = []) ∧
      (Segment.positions lines = map.entries.map (fun e => (e.1, (e.2 : Int))) ↔
        ∀ delta ∈ lineDeltas 1 map.entries, delta.natAbs < 2 ^ 31) := by
  intro map
  have hascends : Ascends 0 map.entries := ascends_ofMappings file source pairs
  by_cases hempty : map.entries = []
  · have hfield : map.mappings = "" := by rw [mappings, hempty]; rfl
    rw [hfield, hempty]
    refine ⟨[[]], by decide +kernel, rfl, by decide, fun _ => rfl, nofun, ?_, ?_⟩
    · intro n segments hn _
      rw [List.getElem?_singleton] at hn
      split at hn <;> cases hn
      rfl
    · simp [Segment.positions, Segment.deltas, Segment.accumulate, lineDeltas]
  · have hread : Segment.ofField? map.mappings =
        some ((deltaLines 0 1 map.entries).map lineSegments) := by
      rw [Segment.ofField?, splitOn_mappings hascends hempty, mapM_ofLine]
    have hlast : lastLine 0 map.entries = lastLine 1 map.entries := by
      obtain ⟨e, rest, hentries⟩ := List.exists_cons_of_ne_nil hempty
      rw [hentries, lastLine_cons, lastLine_cons]
    refine ⟨_, hread, ?_, ?_, fun h => absurd h hempty, fun e he => ?_, fun n segments hn hno => ?_,
      ?_⟩
    · have hlength := length_deltaLines 1 hascends
      rw [List.length_map, ← hlast]
      omega
    · have hcount := count_encodeFrom 1 hascends
      rw [encodeFrom_zero hascends hempty, List.count_cons_self] at hcount
      omega
    · obtain ⟨delta, hdelta⟩ := deltaLines_of_mem 1 hascends he
      refine ⟨Vlq.reread delta, ?_⟩
      rw [List.getElem?_map]
      exact congrArg (Option.map lineSegments) hdelta
    · rw [List.getElem?_map] at hn
      obtain ⟨delta?, hdelta, rfl⟩ := Option.map_eq_some_iff.mp hn
      cases delta? with
      | none => rfl
      | some delta =>
        have hmem := mem_of_deltaLines 1 hascends hdelta
        rw [Nat.zero_add] at hmem
        exact absurd hmem hno
    · rw [Segment.positions, ← Nat.zero_add 1, deltas_deltaLines 1 hascends]
      exact accumulate_eq_iff 1 map.entries

example : (PositionMap.ofMappings "a.tsx" "a.hks" [(5, 2), (3, 4), (2, 1), (3, 9)]).mappings =
    ";AAAA;AAGA;;AAFA" := by decide +kernel

end Sigil
