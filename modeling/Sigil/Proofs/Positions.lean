import Mathlib.Data.List.Induction
import Sigil.LineIndex
import Sigil.Place

namespace Sigil

theorem byteLength_append (cs ds : List Char) :
    byteLength (cs ++ ds) = byteLength cs + byteLength ds := by
  induction cs with
  | nil => simp [byteLength]
  | cons c cs ih => rw [List.cons_append, byteLength, byteLength, ih, Nat.add_assoc]

namespace Point

theorem after_append (p : Point) (cs ds : List Char) :
    p.after (cs ++ ds) = (p.after cs).after ds :=
  List.foldl_append

theorem next_newline (p : Point) : p.next '\n' = ⟨p.offset + 1, p.line + 1, 1⟩ := rfl

theorem next_of_ne {c : Char} (h : c ≠ '\n') (p : Point) :
    p.next c = ⟨p.offset + c.utf8Size, p.line, p.column + 1⟩ :=
  if_neg h

theorem offset_after (p : Point) (cs : List Char) :
    (p.after cs).offset = p.offset + byteLength cs := by
  induction cs generalizing p with
  | nil => rfl
  | cons c cs ih =>
    have hnext : (p.next c).offset = p.offset + c.utf8Size := by
      unfold next
      split <;> rfl
    have hrest := ih (p.next c)
    rw [hnext, Nat.add_assoc] at hrest
    exact hrest

theorem line_after (p : Point) (cs : List Char) : (p.after cs).line = p.line + cs.count '\n' := by
  induction cs generalizing p with
  | nil => rfl
  | cons c cs ih =>
    have hrest := ih (p.next c)
    by_cases hc : c = '\n'
    · subst c
      rw [next_newline] at hrest
      change ((p.next '\n').after cs).line = _
      rw [next_newline, hrest, List.count_cons_self]
      change p.line + 1 + cs.count '\n' = _
      omega
    · rw [next_of_ne hc] at hrest
      change ((p.next c).after cs).line = _
      rw [next_of_ne hc, hrest, List.count_cons_of_ne hc]

/-- On one line the columns count the characters. -/
theorem column_after (p : Point) {cs : List Char} (h : '\n' ∉ cs) :
    (p.after cs).column = p.column + cs.length := by
  induction cs generalizing p with
  | nil => rfl
  | cons c cs ih =>
    rw [List.mem_cons, not_or] at h
    have hrest := ih (p.next c) h.2
    rw [next_of_ne (Ne.symm h.1)] at hrest
    change ((p.next c).after cs).column = _
    rw [next_of_ne (Ne.symm h.1), hrest, List.length_cons]
    change p.column + 1 + cs.length = _
    omega

end Point

namespace LineIndex

theorem startsFrom_append (offset : Nat) (cs ds : List Char) :
    startsFrom offset (cs ++ ds) =
      startsFrom offset cs ++ startsFrom (offset + byteLength cs) ds := by
  induction cs generalizing offset with
  | nil => rfl
  | cons c cs ih =>
    have hrest := ih (offset + c.utf8Size)
    rw [List.cons_append, startsFrom, startsFrom, byteLength, ← Nat.add_assoc, hrest]
    split <;> rfl

theorem startsFrom_of_not_mem (offset : Nat) {cs : List Char} (h : '\n' ∉ cs) :
    startsFrom offset cs = [] := by
  induction cs generalizing offset with
  | nil => rfl
  | cons c cs ih =>
    rw [List.mem_cons, not_or] at h
    rw [startsFrom, if_neg (Ne.symm h.1)]
    exact ih _ h.2

theorem startsFrom_newline (offset : Nat) : startsFrom offset ['\n'] = [offset + 1] := rfl

theorem length_startsFrom (offset : Nat) (cs : List Char) :
    (startsFrom offset cs).length = cs.count '\n' := by
  induction cs generalizing offset with
  | nil => rfl
  | cons c cs ih =>
    by_cases hc : c = '\n'
    · subst c
      rw [startsFrom, if_pos rfl, List.length_cons, ih, List.count_cons_self]
    · rw [startsFrom, if_neg hc, ih, List.count_cons_of_ne hc]

theorem startsFrom_bounds {offset start : Nat} {cs : List Char} (h : start ∈ startsFrom offset cs) :
    offset < start ∧ start ≤ offset + byteLength cs := by
  induction cs generalizing offset with
  | nil => cases h
  | cons c cs ih =>
    have hsize := c.utf8Size_pos
    rw [byteLength]
    unfold startsFrom at h
    split at h
    next =>
      rcases List.mem_cons.mp h with rfl | h
      · omega
      · have hrest := ih h
        omega
    next =>
      have hrest := ih h
      omega

theorem byteLength_cons_eq_succ (c : Char) (cs : List Char) :
    ∃ n, byteLength (c :: cs) = n + 1 ∧ c.utf8Size ≤ n + 1 ∧
      n + 1 - c.utf8Size = byteLength cs := by
  have hsize := c.utf8Size_pos
  refine ⟨byteLength (c :: cs) - 1, ?_, ?_, ?_⟩ <;> rw [byteLength] <;> omega

theorem dropBytes_append (cs ds : List Char) : dropBytes (cs ++ ds) (byteLength cs) = some ds := by
  induction cs with
  | nil => cases ds <;> rfl
  | cons c cs ih =>
    obtain ⟨n, hn, hle, hrest⟩ := byteLength_cons_eq_succ c cs
    rw [hn, List.cons_append, dropBytes, if_pos hle, hrest]
    exact ih

theorem countWithin_append (cs ds : List Char) :
    countWithin (cs ++ ds) (byteLength cs) = some cs.length := by
  induction cs with
  | nil => cases ds <;> rfl
  | cons c cs ih =>
    obtain ⟨n, hn, hle, hrest⟩ := byteLength_cons_eq_succ c cs
    rw [hn, List.cons_append, countWithin, if_pos hle, hrest, ih]
    rfl

/-- What stands before an offset is a number of whole lines and the start of another one. -/
theorem exists_lastLine (cs : List Char) :
    ∃ lines last, cs = lines ++ last ∧ '\n' ∉ last ∧
      (lines = [] ∨ ∃ others, lines = others ++ ['\n']) := by
  induction cs using List.reverseRecOn with
  | nil => exact ⟨[], [], rfl, by simp, .inl rfl⟩
  | append_singleton cs c ih =>
    by_cases hc : c = '\n'
    · subst c
      exact ⟨cs ++ ['\n'], [], by simp, by simp, .inr ⟨cs, rfl⟩⟩
    · obtain ⟨lines, last, rfl, hlast, hlines⟩ := ih
      refine ⟨lines, last ++ [c], by simp, ?_, hlines⟩
      simpa [hlast] using Ne.symm hc

theorem column_after_lines {lines : List Char}
    (h : lines = [] ∨ ∃ others, lines = others ++ ['\n']) :
    (Point.start.after lines).column = 1 := by
  rcases h with rfl | ⟨others, rfl⟩
  · rfl
  · rw [Point.after_append]
    rfl

theorem getLast_starts {lines : List Char}
    (h : lines = [] ∨ ∃ others, lines = others ++ ['\n']) :
    (0 :: startsFrom 0 lines).getLast? = some (byteLength lines) := by
  rcases h with rfl | ⟨others, rfl⟩
  · rfl
  · rw [startsFrom_append, startsFrom_newline, byteLength_append, ← List.cons_append,
      List.getLast?_append, Nat.zero_add]
    rfl

/-- The starts of lines up to an offset are those among the characters `before`, where no line
behind them starts so early. -/
theorem takeWhile_starts {before behind : List Char} {offset : Nat}
    (hoffset : byteLength before ≤ offset)
    (hnext : ∀ start ∈ startsFrom (byteLength before) behind, offset < start) :
    (0 :: startsFrom 0 (before ++ behind)).takeWhile (· ≤ offset) = 0 :: startsFrom 0 before := by
  have hbefore : ∀ start ∈ 0 :: startsFrom 0 before, decide (start ≤ offset) = true := by
    intro start hstart
    rw [decide_eq_true_eq]
    rcases List.mem_cons.mp hstart with rfl | hstart
    · omega
    · have hbounds := startsFrom_bounds hstart
      omega
  have hbehind : (startsFrom (0 + byteLength before) behind).takeWhile
      (fun start => decide (start ≤ offset)) = [] := by
    rw [Nat.zero_add]
    cases hstarts : startsFrom (byteLength before) behind with
    | nil => rfl
    | cons start starts =>
      have hstart := hnext start (hstarts ▸ List.mem_cons_self)
      rw [List.takeWhile_cons_of_neg]
      rw [decide_eq_true_eq]
      omega
  rw [startsFrom_append, ← List.cons_append, List.takeWhile_append_of_pos hbefore, hbehind,
    List.append_nil]

/-- The position of an offset is counted from the start of its line, which is the last one before
the characters `behind`. -/
theorem position_of_lastLine {source : String} {lines last behind : List Char} {offset : Nat}
    (h : source.toList = lines ++ last ++ behind) (hlast : '\n' ∉ last)
    (hlines : lines = [] ∨ ∃ others, lines = others ++ ['\n'])
    (hoffset : byteLength (lines ++ last) ≤ offset) (hend : offset ≤ byteLength source.toList)
    (hnext : ∀ start ∈ startsFrom (byteLength (lines ++ last)) behind, offset < start) :
    (ofText source).position offset =
      (1 + (lines ++ last).count '\n',
        (countWithin (last ++ behind) (offset - byteLength lines)).elim 1 (1 + ·)) := by
  have hstarts : startsFrom 0 (lines ++ last) = startsFrom 0 lines := by
    rw [startsFrom_append, startsFrom_of_not_mem _ hlast, List.append_nil]
  have hline : (0 :: startsFrom 0 (lines ++ last)).length = 1 + (lines ++ last).count '\n' := by
    rw [List.length_cons, length_startsFrom, Nat.add_comm]
  unfold position lineStart ofText
  dsimp only
  rw [Nat.min_eq_left hend, h, takeWhile_starts hoffset hnext, hline, hstarts,
    getLast_starts hlines, Option.getD_some, List.append_assoc lines, dropBytes_append,
    Option.bind_some]
  cases countWithin (last ++ behind) (offset - byteLength lines) with
  | none => rfl
  | some n => rw [Option.elim_some, Nat.add_comm 1 n]

/-- The index finds the line and the column that are reached by reading up to an offset. -/
theorem position_of_prefix {source : String} {before behind : List Char}
    (h : source.toList = before ++ behind) :
    (ofText source).position (byteLength before) =
      ((Point.start.after before).line, (Point.start.after before).column) := by
  have hend : byteLength before ≤ byteLength source.toList := by
    rw [h, byteLength_append]
    omega
  obtain ⟨lines, last, rfl, hlast, hlines⟩ := exists_lastLine before
  have hcolumn : (Point.start.after (lines ++ last)).column = 1 + last.length := by
    rw [Point.after_append, Point.column_after _ hlast, column_after_lines hlines]
  have hwidth : byteLength (lines ++ last) - byteLength lines = byteLength last := by
    rw [byteLength_append]
    omega
  rw [position_of_lastLine h hlast hlines (Nat.le_refl _) hend
      (fun start hstart => (startsFrom_bounds hstart).1),
    hwidth, countWithin_append, hcolumn, Point.line_after]
  rfl

end LineIndex

end Sigil
