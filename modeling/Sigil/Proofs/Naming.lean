import Sigil.Names
import Sigil.Proofs.Pieces

namespace Sigil

theorem toNat_lt_of_isWordPart {c : Char} (h : isWordPart c) : c.toNat < 128 := by
  delta isWordPart Char.isAlphanum Char.isAlpha Char.isUpper Char.isLower Char.isDigit at h
  simp only [Bool.or_eq_true, Bool.and_eq_true, decide_eq_true_eq, beq_iff_eq, ge_iff_le,
    UInt32.le_iff_toNat_le] at h
  have hnine : '9'.val.toNat = 57 := rfl
  have hupper : 'Z'.val.toNat = 90 := rfl
  have hlower : 'z'.val.toNat = 122 := rfl
  change c.val.toNat < 128
  rcases h with (((h | h) | h) | rfl)
  · omega
  · omega
  · omega
  · decide

/-- What holds of each of the ASCII characters, one by one, holds of all of them. -/
@[elab_as_elim]
theorem forall_ascii {motive : Char → Prop} (c : Char) (hc : c.toNat < 128)
    (h : ∀ n < 128, motive (Char.ofNat n)) : motive c := by
  have hcode := h c.toNat hc
  rwa [Char.ofNat_toNat] at hcode

section Ascii

variable {c : Char}

theorem isAlphabetic_of_ascii (h : c.toNat < 128) : isAlphabetic c = c.isAlpha := if_pos h

theorem isAlphanumeric_of_ascii (h : c.toNat < 128) : isAlphanumeric c = c.isAlphanum := by
  have hnumeric : isNumeric c = c.isDigit := if_pos h
  rw [isAlphanumeric, isAlphabetic_of_ascii h, hnumeric]
  rfl

theorem upperCase_of_ascii (h : c.toNat < 128) : upperCase c = [c.toUpper] := if_pos h

theorem toNat_lt_of_isAlphanum (h : c.isAlphanum) : c.toNat < 128 :=
  toNat_lt_of_isWordPart (by simp [isWordPart, h])

theorem isAlphanum_of_isAlpha (h : c.isAlpha) : c.isAlphanum := by
  change (c.isAlpha || c.isDigit) = true
  rw [h, Bool.true_or]

theorem isAlphabetic_of_isAlpha (h : c.isAlpha) : isAlphabetic c := by
  rw [isAlphabetic_of_ascii (toNat_lt_of_isAlphanum (isAlphanum_of_isAlpha h))]
  exact h

theorem isAlphanumeric_of_isAlphanum (h : c.isAlphanum) : isAlphanumeric c := by
  rw [isAlphanumeric_of_ascii (toNat_lt_of_isAlphanum h)]
  exact h

theorem isAlpha_of_isUpper (h : c.isUpper) : c.isAlpha := by
  change (c.isUpper || c.isLower) = true
  rw [h, Bool.true_or]

theorem isAlphanum_toUpper (h : c.isAlphanum) : c.toUpper.isAlphanum := by
  have hlt := toNat_lt_of_isAlphanum h
  revert h
  exact forall_ascii c hlt (by decide)

theorem isUpper_toUpper (h : c.isAlpha) : c.toUpper.isUpper := by
  have hlt := toNat_lt_of_isAlphanum (isAlphanum_of_isAlpha h)
  revert h
  exact forall_ascii c hlt (by decide)

theorem toUpper_of_isUpper (h : c.isUpper) : c.toUpper = c := by
  have hlt := toNat_lt_of_isAlphanum (isAlphanum_of_isAlpha (isAlpha_of_isUpper h))
  revert h
  exact forall_ascii c hlt (by decide)

end Ascii

/-- A character that can start a word has one upper-case form, which can stand in a word. -/
theorem upperCase_of_isWordStart {c : Char} (h : isWordStart c) :
    ∃ u, upperCase c = [u] ∧ isWordPart u := by
  have hlt := toNat_lt_of_isWordPart (Front.isWordPart_of_isWordStart h)
  refine ⟨c.toUpper, upperCase_of_ascii hlt, ?_⟩
  revert h
  exact forall_ascii c hlt (by decide)

theorem isWordPart_of_mem_capitalize {name : String} (h : isName name) :
    ∀ c ∈ (Names.capitalize name).toList, isWordPart c := by
  unfold Names.capitalize
  unfold isName at h
  split
  next hn => simp
  next c cs hn =>
    rw [hn] at h
    simp only [Bool.and_eq_true, List.all_eq_true] at h
    obtain ⟨u, hu, hpart⟩ := upperCase_of_isWordStart h.1
    rw [hu, String.toList_ofList]
    intro d hd
    rcases List.mem_cons.mp hd with rfl | hd
    · exact hpart
    · exact h.2 d hd

/-- The setter of a name can be called. -/
theorem isVariable_setter {name : String} (h : isName name) : isVariable (Names.setter name) := by
  have hparts := isWordPart_of_mem_capitalize h
  have hhead : (Names.setter name).toList.head? = some 's' := by simp [Names.setter]
  have hname : isName (Names.setter name) := by
    simp only [isName, Names.setter, String.toList_append]
    simpa [isWordStart, isWordPart] using hparts
  have hword : Rule.literalWord? (Names.setter name) = none := by
    unfold Rule.literalWord?
    split
    next hs => rw [hs] at hhead; simp at hhead
    next hs => rw [hs] at hhead; simp at hhead
    next hs => rw [hs] at hhead; simp at hhead
    next hs => rw [hs] at hhead; simp at hhead
    next => rfl
  simp [isVariable, hname, hword]

theorem ofNat_ne_newline {n : Nat} (h : n ≠ 10) : Char.ofNat n ≠ '\n' := by
  intro he
  have hcode : (Char.ofNat n).toNat = 10 := congrArg Char.toNat he
  by_cases hvalid : n.isValidChar
  · rw [Char.ofNat, dif_pos hvalid] at hcode
    exact h hcode
  · rw [Char.ofNat, dif_neg hvalid] at hcode
    cases hcode

/-- No character but a newline has one in its upper-case form. -/
theorem newline_not_mem_upperCase {c : Char} (h : c ≠ '\n') : '\n' ∉ upperCase c := by
  have hlong : ∀ entry ∈ longCases, ∀ n ∈ entry.2, n ≠ 10 := by decide
  have hruns : ∀ r ∈ caseRuns, 10 < r.upper := by decide +kernel
  unfold upperCase
  split
  next hlt =>
    have hupper : c ≠ '\n' → c.toUpper ≠ '\n' := forall_ascii c hlt (by decide)
    simpa [eq_comm] using hupper h
  next =>
    split
    next codes hcodes =>
      obtain ⟨_, _, hsplit, _⟩ := List.lookup_eq_some_iff.mp hcodes
      have hentry : (c.toNat, codes) ∈ longCases := by simp [hsplit]
      intro hm
      obtain ⟨n, hn, he⟩ := List.mem_map.mp hm
      exact ofNat_ne_newline (hlong _ hentry n hn) he
    next =>
      dsimp only
      split
      next r hr =>
        have hupper := hruns r (List.mem_of_find?_eq_some hr)
        have hcode : r.upper + (c.toNat - r.first) ≠ 10 := by omega
        simpa [eq_comm] using ofNat_ne_newline hcode
      next => simpa [eq_comm] using h

namespace Names

theorem oneLine_capitalize {name : String} (h : OneLine name) : OneLine (capitalize name) := by
  unfold capitalize
  unfold OneLine at h ⊢
  split
  next => decide
  next c cs hname =>
    rw [hname, List.mem_cons, not_or] at h
    rw [String.toList_ofList, List.mem_append, not_or]
    exact ⟨newline_not_mem_upperCase (Ne.symm h.1), h.2⟩

theorem newline_not_mem_joinWords {cs : List Char} (h : '\n' ∉ cs) (upper : Bool) :
    '\n' ∉ joinWords upper cs := by
  induction cs generalizing upper with
  | nil => simp [joinWords]
  | cons c cs ih =>
    rw [List.mem_cons, not_or] at h
    rw [joinWords]
    split
    · exact ih h.2 true
    · split
      · split
        · rw [List.mem_append, not_or]
          exact ⟨newline_not_mem_upperCase (Ne.symm h.1), ih h.2 false⟩
        · rw [List.mem_cons, not_or]
          exact ⟨h.1, ih h.2 false⟩
      · exact ih h.2 upper

end Names

end Sigil
