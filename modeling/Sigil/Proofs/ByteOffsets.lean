import Mathlib.Data.List.DropRight
import Mathlib.Data.Prod.Lex
import Mathlib.Order.Monotone.Defs
import Sigil.Proofs.Positions

namespace Sigil

theorem byteLength_toList (text : String) : byteLength text.toList = text.utf8ByteSize := by
  have hlist (cs : List Char) : byteLength cs = (String.ofList cs).utf8ByteSize := by
    induction cs with
    | nil => rfl
    | cons c cs ih =>
      rw [byteLength, ih, ← List.singleton_append, String.ofList_append,
        String.utf8ByteSize_append, ← String.singleton_eq_ofList, String.utf8ByteSize_singleton]
  rw [hlist, String.ofList_toList]

namespace Point

/-- The column counts the characters behind the last newline. -/
theorem column_start_after (cs : List Char) :
    (start.after cs).column = 1 + (cs.rtakeWhile (· ≠ '\n')).length := by
  induction cs using List.reverseRecOn with
  | nil => rfl
  | append_singleton cs c ih =>
    rw [after_append]
    change ((start.after cs).next c).column = _
    by_cases hc : c = '\n'
    · subst c
      rw [next_newline, List.rtakeWhile_concat_neg _ _ _ (by simp)]
      rfl
    · rw [next_of_ne hc, List.rtakeWhile_concat_pos _ _ _ (by simpa using hc),
        List.length_append, ih]
      rfl

/-- Reading on moves a point to a later line, or to a later column of its line. -/
theorem lt_after (p : Point) {cs : List Char} (h : cs ≠ []) :
    toLex (p.line, p.column) < toLex ((p.after cs).line, (p.after cs).column) := by
  rw [Prod.Lex.toLex_lt_toLex, line_after]
  by_cases hnewline : '\n' ∈ cs
  · have hcount := List.count_pos_iff.mpr hnewline
    exact .inl (by omega)
  · have hlength := List.length_pos_iff.mpr h
    rw [column_after p hnewline, List.count_eq_zero.mpr hnewline]
    exact .inr ⟨rfl, by omega⟩

end Point

namespace LineIndex

/-- The characters that lie within the first `n` bytes. -/
def within : Nat → List Char → List Char
  | _, [] => []
  | n, c :: cs => if c.utf8Size ≤ n then c :: within (n - c.utf8Size) cs else []

/-- A byte count takes the characters that fit, and the next one does not. -/
theorem exists_within (n : Nat) (cs : List Char) :
    ∃ behind, cs = within n cs ++ behind ∧ byteLength (within n cs) ≤ n ∧
      ∀ c ∈ behind.head?, n < byteLength (within n cs) + c.utf8Size := by
  induction cs generalizing n with
  | nil => exact ⟨[], rfl, Nat.zero_le n, by simp⟩
  | cons c cs ih =>
    by_cases hc : c.utf8Size ≤ n
    · obtain ⟨behind, happend, hfits, hnext⟩ := ih (n - c.utf8Size)
      rw [within, if_pos hc, byteLength]
      refine ⟨behind, congrArg (c :: ·) happend, by omega, ?_⟩
      intro d hd
      have hlt := hnext d hd
      omega
    · rw [within, if_neg hc]
      refine ⟨c :: cs, rfl, Nat.zero_le n, ?_⟩
      intro d hd
      cases Option.some.inj hd
      rw [byteLength]
      omega

theorem within_append (before behind : List Char) :
    within (byteLength before) (before ++ behind) = before := by
  induction before with
  | nil =>
    cases behind with
    | nil => rfl
    | cons c cs =>
      have hsize := c.utf8Size_pos
      exact if_neg (by rw [byteLength]; omega)
  | cons c before ih =>
    rw [List.cons_append, within, byteLength, if_pos (Nat.le_add_right _ _),
      Nat.add_sub_cancel_left, ih]

/-- A byte offset is between two characters where those before it take as many bytes. -/
theorem isValid_iff (text : String) (n : Nat) :
    (⟨n⟩ : String.Pos.Raw).IsValid text ↔ byteLength (within n text.toList) = n := by
  have htext : text = String.ofList text.toList := String.ofList_toList.symm
  rw [htext, String.Pos.Raw.isValid_ofList, String.toList_ofList]
  simp only [← byteLength_toList, String.toList_ofList]
  constructor
  · rintro ⟨i, rfl⟩
    have htake := within_append (text.toList.take i) (text.toList.drop i)
    rw [List.take_append_drop] at htake
    rw [htake]
  · intro h
    obtain ⟨behind, happend, -, -⟩ := exists_within n text.toList
    refine ⟨(within n text.toList).length, ?_⟩
    have htake : (within n text.toList ++ behind).take (within n text.toList).length =
        within n text.toList := List.take_left
    rw [← happend] at htake
    rw [htake, h]

theorem countWithin_inside {c : Char} {n : Nat} (hpos : 0 < n) (hlt : n < c.utf8Size)
    (cs ds : List Char) : countWithin (cs ++ c :: ds) (byteLength cs + n) = none := by
  induction cs with
  | nil =>
    obtain ⟨m, rfl⟩ := Nat.exists_eq_add_of_lt hpos
    rw [List.nil_append, byteLength, Nat.zero_add, Nat.zero_add, countWithin, if_neg (by omega)]
  | cons d cs ih =>
    obtain ⟨m, hm, hle, hrest⟩ := byteLength_cons_eq_succ d cs
    have hsum : byteLength (d :: cs) + n = m + n + 1 := by omega
    have hless : m + n + 1 - d.utf8Size = byteLength cs + n := by omega
    rw [hsum, List.cons_append, countWithin, if_pos (by omega), hless, ih]
    rfl

/-- An offset inside a character is on that character's line, at the line's first column. -/
theorem position_inside {source : String} {before behind : List Char} {c : Char} {offset : Nat}
    (h : source.toList = before ++ c :: behind) (hlt : byteLength before < offset)
    (hoffset : offset < byteLength before + c.utf8Size) :
    (ofText source).position offset = (1 + before.count '\n', 1) := by
  have hsize : c.utf8Size ≤ byteLength (c :: behind) := Nat.le_add_right _ _
  have hend : offset ≤ byteLength source.toList := by
    rw [h, byteLength_append]
    omega
  have hc : c ≠ '\n' := by
    rintro rfl
    have hone : '\n'.utf8Size = 1 := rfl
    omega
  have hnext : ∀ start ∈ startsFrom (byteLength before) (c :: behind), offset < start := by
    intro start hstart
    rw [startsFrom, if_neg hc] at hstart
    have hbounds := startsFrom_bounds hstart
    omega
  obtain ⟨lines, last, rfl, hlast, hlines⟩ := exists_lastLine before
  have hwidth : offset - byteLength lines =
      byteLength last + (offset - byteLength (lines ++ last)) := by
    rw [byteLength_append] at hlt ⊢
    omega
  rw [position_of_lastLine h hlast hlines (Nat.le_of_lt hlt) hend hnext, hwidth,
    countWithin_inside (by omega) (by omega), Option.elim_none]

/-- The line and the column of a byte offset, by a scan of the characters before it. -/
def scannedPosition (text : String) (offset : Nat) : Nat × Nat :=
  let k := min offset text.utf8ByteSize
  let before := within k text.toList
  (1 + before.count '\n',
    if (⟨k⟩ : String.Pos.Raw).IsValid text then 1 + (before.rtakeWhile (· ≠ '\n')).length else 1)

theorem position_min (text : String) (offset : Nat) :
    (ofText text).position (min offset text.utf8ByteSize) = (ofText text).position offset := by
  have hmin : min (min offset text.utf8ByteSize) (byteLength text.toList) =
      min offset (byteLength text.toList) := by
    rw [byteLength_toList]
    omega
  unfold position
  dsimp only [ofText]
  rw [hmin]

theorem position_eq_scannedPosition (text : String) (offset : Nat) :
    (ofText text).position offset = scannedPosition text offset := by
  rw [← position_min]
  unfold scannedPosition
  dsimp only
  generalize hk : min offset text.utf8ByteSize = k
  obtain ⟨behind, happend, hfits, hnext⟩ := exists_within k text.toList
  by_cases hvalid : (⟨k⟩ : String.Pos.Raw).IsValid text
  · have hboundary := (isValid_iff text k).mp hvalid
    have hposition := position_of_prefix happend
    rw [hboundary] at hposition
    rw [if_pos hvalid, hposition, Point.line_after, Point.column_start_after]
    rfl
  · have hlt := Nat.lt_of_le_of_ne hfits (mt (isValid_iff text k).mpr hvalid)
    cases behind with
    | nil =>
      have hlength := congrArg byteLength happend
      rw [List.append_nil, byteLength_toList] at hlength
      omega
    | cons c behind =>
      rw [if_neg hvalid]
      exact position_inside happend hlt (hnext c rfl)

/-- Between characters, later offsets have later positions. -/
theorem strictMonoOn_position (text : String) :
    StrictMonoOn (fun offset => toLex ((ofText text).position offset))
      {offset | (⟨offset⟩ : String.Pos.Raw).IsValid text} := by
  intro j hj k hk hlt
  replace hj := (isValid_iff text j).mp hj
  replace hk := (isValid_iff text k).mp hk
  obtain ⟨behindJ, happendJ, -⟩ := exists_within j text.toList
  obtain ⟨behindK, happendK, -⟩ := exists_within k text.toList
  have hfront : within j text.toList <+: within k text.toList := by
    rcases List.prefix_or_prefix_of_prefix ⟨behindJ, happendJ.symm⟩ ⟨behindK, happendK.symm⟩
      with hfront | ⟨more, hmore⟩
    · exact hfront
    · have hlength := congrArg byteLength hmore
      rw [byteLength_append] at hlength
      omega
  obtain ⟨more, hmore⟩ := hfront
  have hne : more ≠ [] := by
    rintro rfl
    rw [List.append_nil] at hmore
    rw [← hmore] at hk
    omega
  have hpositionJ := position_of_prefix happendJ
  have hpositionK := position_of_prefix happendK
  rw [hj] at hpositionJ
  rw [hk, ← hmore, Point.after_append] at hpositionK
  change toLex ((ofText text).position j) < toLex ((ofText text).position k)
  rw [hpositionJ, hpositionK]
  exact Point.lt_after _ hne

/-- The index gives every byte offset the position that a scan of the text gives it, and the
offsets between characters have their positions in order and each its own. -/
theorem position_ofText (text : String) :
    (∀ offset, (ofText text).position offset = scannedPosition text offset) ∧
      StrictMonoOn (fun offset => toLex ((ofText text).position offset))
        {offset | (⟨offset⟩ : String.Pos.Raw).IsValid text} ∧
      Set.InjOn (ofText text).position {offset | (⟨offset⟩ : String.Pos.Raw).IsValid text} := by
  have hmono := strictMonoOn_position text
  refine ⟨position_eq_scannedPosition text, hmono, ?_⟩
  intro j hj k hk heq
  exact hmono.injOn hj hk (congrArg toLex heq)

end LineIndex

end Sigil
