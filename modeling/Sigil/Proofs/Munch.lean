import Sigil.Proofs.Pieces

namespace Sigil

/-- What can stand between the quotes of a string: a backslash takes the next character along, and
nothing takes a newline. -/
inductive Quoted (quote : Char) : List Char → Prop where
  | nil : Quoted quote []
  | plain {c : Char} {cs : List Char} :
      c ≠ quote → c ≠ '\\' → c ≠ '\n' → Quoted quote cs → Quoted quote (c :: cs)
  | escaped {c : Char} {cs : List Char} :
      c ≠ '\n' → Quoted quote cs → Quoted quote ('\\' :: c :: cs)

/-- The texts that the pattern of a kind matches. A stop has no pattern. -/
def Kind.Matches : Kind → List Char → Prop
  | symbol s, cs => cs = s.text.toList
  | string, cs =>
    ∃ quote body, (quote = '"' ∨ quote = '\'') ∧ Quoted quote body ∧ cs = quote :: (body ++ [quote])
  | number, cs => IsNumeral cs
  | ident, cs =>
    ∃ first others, cs = first :: others ∧ isWordStart first ∧ ∀ c ∈ others, isWordPart c
  | comment, cs => ∃ body, cs = '/' :: '/' :: body ∧ '\n' ∉ body
  | newline, cs => cs = ['\n']
  | stop, _ => False

theorem Kind.Matches.ne_nil {kind : Kind} {cs : List Char} (h : kind.Matches cs) : cs ≠ [] := by
  rintro rfl
  cases kind with
  | symbol s =>
    have hpos := s.length_text_pos
    rw [← String.length_toList, ← h] at hpos
    exact absurd hpos (by simp)
  | string =>
    obtain ⟨quote, body, _, _, hnil⟩ := h
    cases hnil
  | number =>
    obtain ⟨d, whole, fraction, hnil, _⟩ := h
    cases hnil
  | ident =>
    obtain ⟨first, others, hnil, _⟩ := h
    cases hnil
  | comment =>
    obtain ⟨body, hnil, _⟩ := h
    cases hnil
  | newline => cases h
  | stop => exact h

/-- A longer symbol is tried before a shorter one. -/
theorem Symbol.length_le_of_prefix {s found : Symbol} {cs : List Char}
    (hfound : atFront? cs = some found) (hs : s.text.toList <+: cs) :
    s.text.length ≤ found.text.length := by
  have hmem : s ∈ all := by cases s <;> decide
  have hsorted : all.Pairwise fun a b => b.text.length ≤ a.text.length := by decide
  obtain ⟨_, before, behind, hall, hbefore⟩ := List.find?_eq_some_iff_append.mp hfound
  rw [hall] at hmem hsorted
  rcases List.mem_append.mp hmem with hm | hm
  · have hno := hbefore s hm
    rw [List.isPrefixOf_iff_prefix.mpr hs] at hno
    cases hno
  · rcases List.mem_cons.mp hm with rfl | hm
    · exact Nat.le_refl _
    · exact (List.pairwise_cons.mp (List.pairwise_append.mp hsorted).2.1).1 s hm

namespace Front

theorem stringExtent_of_quoted {quote : Char} {body : List Char} (hq : quote ≠ '\\')
    (h : Quoted quote body) (rest : List Char) :
    stringExtent quote (body ++ quote :: rest) = (body.length + 1, true) := by
  induction h with
  | nil => simp [stringExtent, hq]
  | @plain c cs hquote hslash hline _ ih =>
    simp [stringExtent, hquote, hslash, hline, ih]
  | @escaped c cs hline _ ih => simp [stringExtent, hline, ih]

theorem quoted_of_stringExtent {quote : Char} {cs : List Char} {n : Nat}
    (h : stringExtent quote cs = (n, true)) :
    ∃ body, Quoted quote body ∧ cs.take n = body ++ [quote] := by
  fun_induction stringExtent quote cs generalizing n with
  | case1 => cases h
  | case2 => cases h
  | case3 => cases h
  | case4 c cs hline m closed he ih =>
    cases h
    obtain ⟨body, hbody, htake⟩ := ih he
    exact ⟨'\\' :: c :: body, .escaped hline hbody, by simp [htake]⟩
  | case5 cs hone htwo =>
    cases h
    exact ⟨[], .nil, rfl⟩
  | case6 => cases h
  | case7 c cs hone htwo hquote hline m closed he ih =>
    cases h
    obtain ⟨body, hbody, htake⟩ := ih he
    have hslash : c ≠ '\\' := by
      rintro rfl
      cases cs with
      | nil => exact hone rfl rfl
      | cons d cs => exact htwo d cs rfl rfl
    exact ⟨c :: body, .plain hquote hslash hline hbody, by simp [htake]⟩

/-- A numeral is within the extent of the number that starts where it does. -/
theorem length_le_numberExtent {whole fraction : List Char} (hwhole : ∀ c ∈ whole, c.isDigit)
    (hfraction : IsFraction fraction) (rest : List Char) :
    (whole ++ fraction).length ≤ numberExtent (whole ++ fraction ++ rest) := by
  rcases hfraction with rfl | ⟨d, ds, rfl, hd, hds⟩
  · rw [List.append_nil]
    have hdigits : whole.length ≤ ((whole ++ rest).takeWhile Char.isDigit).length := by
      rw [List.takeWhile_append_of_pos hwhole, List.length_append]
      omega
    unfold numberExtent
    dsimp only
    split
    next =>
      split
      · omega
      · exact hdigits
    next => exact hdigits
  · have hpoint : ∀ c ∈ ('.' :: d :: ds ++ rest).head?, c.isDigit = false := by
      intro c hc
      cases hc
      rfl
    unfold numberExtent
    rw [List.append_assoc, takeWhile_append_of_stop hwhole hpoint,
      dropWhile_append_of_stop hwhole hpoint]
    simp only [List.cons_append, hd, ↓reduceIte, List.takeWhile_append_of_pos hds,
      List.length_append, List.length_cons]
    omega

theorem read_of_quote {c : Char} (h : c = '"' ∨ c = '\'') (cs : List Char) :
    read c cs = match stringExtent c cs with
      | (n, true) => .token .string n
      | (n, false) => .unreadable n := by
  rcases h with rfl | rfl <;> rfl

/-- The token that is read is of the kind's pattern. -/
theorem read_matches {c : Char} {cs : List Char} {kind : Kind} {n : Nat}
    (h : read c cs = .token kind n) : kind.Matches (c :: cs.take n) := by
  rcases read_token_cases h with ⟨rfl, rfl, rfl⟩ | ⟨rfl, hc, hn⟩ | ⟨rfl, hc, rfl⟩ |
    ⟨rfl, hc, rfl⟩ | ⟨s, rfl, hs, rfl⟩
  · rfl
  · obtain ⟨body, hbody, htake⟩ := quoted_of_stringExtent hn
    exact ⟨c, body, hc, hbody, by rw [htake]⟩
  · obtain ⟨whole, fraction, htake, hwhole, hfraction⟩ := take_numberExtent cs
    exact ⟨c, whole, fraction, by rw [htake], hc, hwhole, hfraction⟩
  · have htake := List.prefix_iff_eq_take.mp (List.takeWhile_prefix (l := cs) isWordPart)
    rw [← htake]
    exact ⟨c, _, rfl, hc, fun x hx => List.mem_takeWhile_imp hx⟩
  · have hpos := s.length_text_pos
    have hfront := Symbol.take_atFront hs
    rwa [show s.text.length = s.text.length - 1 + 1 by omega, List.take_succ_cons] at hfront

/-- No pattern matches more of what stands at the front than the token that is read. -/
theorem read_longest {c : Char} {cs : List Char} {kind kind' : Kind} {n : Nat} {text : List Char}
    (h : read c cs = .token kind n) (htext : kind'.Matches text) (hfront : text <+: c :: cs) :
    text.length ≤ n + 1 := by
  obtain ⟨d, others, rfl⟩ := List.exists_cons_of_ne_nil htext.ne_nil
  obtain ⟨rfl, rest, rfl⟩ := List.cons_prefix_cons.mp hfront
  rw [List.length_cons]
  refine Nat.succ_le_succ ?_
  cases kind' with
  | symbol s =>
    -- The first character of a symbol starts nothing but symbols and comments.
    obtain ⟨c, cs, hs, _, hline, hquote, hdigit, hword, _⟩ := s.text_eq_cons
    obtain ⟨rfl, rfl⟩ := List.cons.inj (htext.trans hs)
    rcases read_token_cases h with ⟨_, hd, _⟩ | ⟨_, hd, _⟩ | ⟨_, hd, _⟩ | ⟨_, hd, _⟩ |
      ⟨found, _, hfound, rfl⟩
    · exact absurd hd hline
    · exact absurd hd hquote
    · rw [hdigit] at hd
      cases hd
    · rw [hword] at hd
      cases hd
    · have hlength := Symbol.length_le_of_prefix hfound (hs ▸ hfront)
      rw [← String.length_toList, hs, List.length_cons] at hlength
      omega
  | string =>
    obtain ⟨quote, body, hquote, hbody, heq⟩ := htext
    obtain ⟨rfl, rfl⟩ := List.cons.inj heq
    have hslash : d ≠ '\\' := by rcases hquote with rfl | rfl <;> decide
    have hextent := stringExtent_of_quoted hslash hbody rest
    rw [read_of_quote hquote, List.append_assoc, List.singleton_append, hextent] at h
    cases h
    simp
  | number =>
    obtain ⟨d, whole, fraction, heq, hd, hwhole, hfraction⟩ := htext
    obtain ⟨rfl, rfl⟩ := List.cons.inj heq
    rw [read_of_isDigit hd] at h
    cases h
    exact length_le_numberExtent hwhole hfraction rest
  | ident =>
    obtain ⟨first, others, heq, hfirst, hothers⟩ := htext
    obtain ⟨rfl, rfl⟩ := List.cons.inj heq
    rw [read_of_isWordStart hfirst, List.takeWhile_append_of_pos hothers] at h
    cases h
    simp
  | comment =>
    obtain ⟨body, heq, _⟩ := htext
    obtain ⟨rfl, rfl⟩ := List.cons.inj heq
    cases h
  | newline =>
    cases htext
    simp
  | stop => exact htext.elim

/-- What is skipped is a blank, or a comment up to the end of its line. -/
theorem read_skipped_cases {c : Char} {cs : List Char} {n : Nat} (h : read c cs = .skipped n) :
    (isBlank c ∧ n = 0) ∨
      ∃ others, c = '/' ∧ cs = '/' :: others ∧ n = (cs.takeWhile (· ≠ '\n')).length := by
  unfold read at h
  split at h
  next hc => cases h; exact .inl ⟨hc, rfl⟩
  next =>
    split at h
    next hc =>
      cases h
      obtain ⟨others, hcs⟩ := List.head?_eq_some_iff.mp hc.2
      exact .inr ⟨others, hc.1, hcs, rfl⟩
    next =>
      split at h
      next => cases h
      next =>
        split at h
        next => split at h <;> cases h
        next =>
          split at h
          next => cases h
          next =>
            split at h
            next => cases h
            next => split at h <;> cases h

end Front

end Sigil
