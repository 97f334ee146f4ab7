import Sigil.Proofs.Boundaries
import Sigil.Proofs.DeclarationOrder

namespace Sigil

namespace Rule

open Sigil.Parser

/-- The coupling of runs over lines that look alike, the last of which ends before `rest` in the
first run and before `rest'` in the second. -/
def Coupling.onLines (f : Nat → Nat) (rest rest' : List Lexeme) : Coupling f where
  Rel ts ts' := ∃ m m', m.map (Lexeme.seen f) = m'.map (Lexeme.seen f) ∧ ts = m ++ rest ∧
    ts' = m' ++ rest'
  Kept ts := ∃ m newline, newline.kind = .newline ∧ ts = m ++ newline :: rest
  faults := False
  kept_of_suffix := by
    rintro ts us ⟨x, rfl⟩ ⟨m, newline, hk, rfl⟩
    exact ⟨x ++ m, newline, hk, (List.append_assoc x m _).symm⟩
  kept_of_faults h := h.elim
  front := by
    rintro ts ts' ⟨n, newline, hk, hts⟩ ⟨m, m', hseen, rfl, rfl⟩
    cases m with
    | nil =>
      have hlength := congrArg List.length hts
      simp at hlength
      omega
    | cons t m =>
      obtain ⟨t', m', rfl, ht, _⟩ := List.map_eq_cons_iff.mp hseen.symm
      exact .inl (congrArg some ht.symm)
  second := by
    rintro ts ts' ⟨n, newline, hk, hts⟩ hfront _ ⟨m, m', hseen, rfl, rfl⟩
    obtain rfl : m = n ++ [newline] :=
      List.append_cancel_right (show m ++ rest = n ++ [newline] ++ rest by simpa using hts)
    cases n with
    | nil => exact absurd hk hfront
    | cons t n =>
      obtain ⟨t', us, rfl, ht, hus⟩ := List.map_eq_cons_iff.mp hseen.symm
      cases n with
      | nil =>
        obtain ⟨u', us', rfl, hu, _⟩ := List.map_eq_cons_iff.mp hus
        exact .inl (congrArg some hu.symm)
      | cons u n =>
        obtain ⟨u', us', rfl, hu, _⟩ := List.map_eq_cons_iff.mp hus
        exact .inl (congrArg some hu.symm)
  tail := by
    rintro ts ts' _ ⟨n, newline, hk, hts⟩ ⟨m, m', hseen, rfl, rfl⟩
    cases m with
    | nil =>
      have hlength := congrArg List.length hts
      simp at hlength
      omega
    | cons t m =>
      obtain ⟨t', m', rfl, _, hm⟩ := List.map_eq_cons_iff.mp hseen.symm
      exact ⟨m, m', hm.symm, rfl, rfl⟩
  length_eq h := h.elim
  length_lt_iff := by
    rintro _ _ _ _ ⟨m, m', hm, rfl, rfl⟩ ⟨n, n', hn, rfl, rfl⟩
    have hm := congrArg List.length hm
    have hn := congrArg List.length hn
    simp only [List.length_map] at hm hn
    simp only [List.length_append, hm, hn, Nat.add_lt_add_iff_right]

/-- Lines that look alike, but for the gap before the first lexeme on them. -/
inductive AlikeInside (f : Nat → Nat) : List Lexeme → List Lexeme → Prop where
  | nil : AlikeInside f [] []
  | newline {t t' : Lexeme} {ts ts' : List Lexeme} :
      t.kind = .newline → t'.kind = .newline → AlikeInside f ts ts' →
      AlikeInside f (t :: ts) (t' :: ts')
  | first {t t' : Lexeme} {ts ts' : List Lexeme} :
      t.kind ≠ .newline → t.seen f = { t' with gap := t.gap }.seen f →
      ts.map (Lexeme.seen f) = ts'.map (Lexeme.seen f) → AlikeInside f (t :: ts) (t' :: ts')

theorem AlikeInside.dropWhile {f : Nat → Nat} {ts ts' us : List Lexeme} {t : Lexeme}
    (h : AlikeInside f ts ts') (hts : ts.dropWhile (·.kind = .newline) = t :: us) :
    ∃ t' us', ts'.dropWhile (·.kind = .newline) = t' :: us' ∧
      t.seen f = { t' with gap := t.gap }.seen f ∧
      us.map (Lexeme.seen f) = us'.map (Lexeme.seen f) := by
  induction h with
  | nil => cases hts
  | newline hk hk' _ ih =>
    rw [List.dropWhile_cons_of_pos (by simpa using hk)] at hts
    rw [List.dropWhile_cons_of_pos (by simpa using hk')]
    exact ih hts
  | @first u u' vs vs' hk hseen hvs =>
    have hk' : u'.kind ≠ .newline := fun heq => hk ((Lexeme.kind_eq_of_seen hseen).trans heq)
    rw [List.dropWhile_cons_of_neg (by simpa using hk)] at hts
    cases hts
    exact ⟨u', vs', List.dropWhile_cons_of_neg (by simpa using hk'), hseen, hvs⟩

section

variable {f : Nat → Nat} {lines lines' : List Lexeme}

/-- Wherever the lines stand, a declaration is read off them that is `d` but for its line. -/
def Declares (f : Nat → Nat) (lines : List Lexeme) (d : Declaration) : Prop :=
  ∀ rest, ∃ d' k, d.renumber f = d'.renumber f ∧ (∀ t ∈ k, t.kind = .newline) ∧
    declaration (lines.dropWhile (·.kind = .newline) ++ rest) = .ok (d', k ++ rest)

/-- Wherever the lines stand, a root is read off them that is `m` but for its lines. -/
def Roots (f : Nat → Nat) (lines : List Lexeme) (m : Markup) : Prop :=
  kindAt 0 (lines.dropWhile (·.kind = .newline)) = .symbol .langle ∧
  ∀ rest, ∃ m' k mid, m.renumber f = m'.renumber f ∧ (∀ t ∈ k, t.kind = .newline) ∧
    markup (lines.dropWhile (·.kind = .newline) ++ rest) = .ok (m', mid) ∧
    endStatement mid = .ok ((), k ++ rest)

theorem endStatement_newline {newline : Lexeme} (hk : newline.kind = .newline)
    (rest : List Lexeme) : endStatement (newline :: rest) = .ok ((), rest) := by
  rw [endStatement, bind_of_ok (kind_apply _), show kindAt 0 (newline :: rest) = .newline from hk]
  rfl

/-- What is read off a line up to its end is read off a line that looks alike. -/
theorem tracks_lines {α β : Type} {view : α → β} {At : List Lexeme → Prop} {p p' : Rule α}
    {x k rest us' rest' : List Lexeme} {newline : Lexeme} {a : α}
    (hfollows : ∀ C : Coupling f, Follows C At Anything view p p')
    (hat : At (x ++ newline :: (k ++ rest))) (hnewline : newline.kind = .newline)
    (hk : ∀ t ∈ k, t.kind = .newline)
    (hseen : (x ++ newline :: k).map (Lexeme.seen f) = us'.map (Lexeme.seen f))
    (hr : p (x ++ newline :: (k ++ rest)) = .ok (a, newline :: (k ++ rest))) :
    ∃ a' k' mid, view a = view a' ∧ (∀ t ∈ k', t.kind = .newline) ∧
      p' (us' ++ rest') = .ok (a', mid) ∧ endStatement mid = .ok ((), k' ++ rest') := by
  rw [List.append_cons, List.map_append] at hseen
  obtain ⟨m', k', rfl, hm, hk'⟩ := List.map_eq_append_iff.mp hseen.symm
  have hnewlines : ∀ t ∈ k', t.kind = .newline := by
    intro t ht
    have hmem : t.seen f ∈ k.map (Lexeme.seen f) := hk' ▸ List.mem_map_of_mem ht
    obtain ⟨u, hu, hut⟩ := List.mem_map.mp hmem
    exact (Lexeme.kind_eq_of_seen hut).symm.trans (hk u hu)
  have hrel : (Coupling.onLines f (k ++ rest) (k' ++ rest')).Rel (x ++ newline :: (k ++ rest))
      (m' ++ k' ++ rest') :=
    ⟨x ++ [newline], m', hm.symm, by simp, by simp⟩
  have hkept : (Coupling.onLines f (k ++ rest) (k' ++ rest')).Kept (newline :: (k ++ rest)) :=
    ⟨[], newline, hnewline, rfl⟩
  obtain ⟨a', mid, hr', hview, n, n', hn, hrest, rfl⟩ :=
    ((hfollows _).tracks hat hrel).value hr hkept
  obtain rfl : [newline] = n :=
    List.append_cancel_right (show [newline] ++ (k ++ rest) = n ++ (k ++ rest) from hrest)
  obtain ⟨newline', _, rfl, hseen', hnil⟩ := List.map_eq_cons_iff.mp hn.symm
  obtain rfl := List.map_eq_nil_iff.mp hnil
  refine ⟨a', k', _, hview, hnewlines, hr', endStatement_newline ?_ _⟩
  exact (Lexeme.kind_eq_of_seen hseen').trans hnewline

theorem takeWhile_newline (ts : List Lexeme) :
    ∀ t ∈ ts.takeWhile (·.kind = .newline), t.kind = .newline :=
  fun _ ht => by simpa using List.mem_takeWhile_imp ht

/-- The only declaration before a root is followed by nothing but newlines. -/
theorem leading_single {ts root : List Lexeme} {d : Declaration}
    (h : many leadingRound ts = .ok ([d], root)) :
    ∃ k, (∀ t ∈ k, t.kind = .newline) ∧
      declaration (ts.dropWhile (·.kind = .newline)) = .ok (d, k ++ root) := by
  obtain ⟨mid, hround, hmany⟩ | ⟨_, hround⟩ | ⟨_, hround, hlt⟩ := many_eq_cons h
  · obtain ⟨hstop, _⟩ | ⟨d', heq, hd⟩ := leadingRound_eq_ok.mp hround
    · cases hstop
    · cases heq
      obtain rfl := many_leadingRound_eq_nil hmany
      refine ⟨mid.takeWhile (·.kind = .newline), takeWhile_newline mid, ?_⟩
      rwa [List.takeWhile_append_dropWhile]
  · obtain ⟨heq, _⟩ | ⟨_, heq, _⟩ := leadingRound_eq_ok.mp hround <;> cases heq
  · -- A declaration always gets further.
    obtain ⟨heq, _⟩ | ⟨_, heq, hd⟩ := leadingRound_eq_ok.mp hround
    · cases heq
    · have hlength := (List.dropWhile_suffix (l := ts) (·.kind = .newline)).length_le
      exact absurd (Nat.lt_of_lt_of_le (declaration_shortens hd) hlength) hlt

theorem dropWhile_append_root {root : List Lexeme} (hroot : EmptyElement root)
    (hne : kindAt 0 ((lines ++ root).dropWhile (·.kind = .newline)) ≠ .symbol .langle) :
    (lines ++ root).dropWhile (·.kind = .newline) =
      lines.dropWhile (·.kind = .newline) ++ root := by
  obtain ⟨angle, _, _, _, _, _, _, rfl, hangle, _⟩ := hroot.cases
  rw [List.dropWhile_append] at hne ⊢
  split at hne
  next =>
    rw [List.dropWhile_cons_of_neg (by simp [hangle])] at hne
    exact absurd hangle hne
  next hempty => rw [if_neg hempty]

theorem kindAt_newlines_root {k root : List Lexeme} (hroot : EmptyElement root)
    (hk : ∀ t ∈ k, t.kind = .newline) : kindAt 0 (k ++ root) ≠ .stop := by
  intro hstop
  cases k with
  | nil =>
    rw [List.nil_append, hroot.kindAt_zero] at hstop
    cases hstop
  | cons t k =>
    have ht := hk t (by simp)
    rw [show t.kind = .stop from hstop] at ht
    cases ht

/-- The gap before the first lexeme of a declaration does not matter. -/
theorem follows_bodies {t t' : Lexeme} {body : Rule Declaration} {gap : Gap}
    (hbody : declarationBody? t.line t = some body)
    (hseen : t.seen f = { t' with gap := gap }.seen f) :
    ∃ body', declarationBody? t'.line t' = some body' ∧
      ∀ C : Coupling f, Follows C Anywhere Anything (Declaration.renumber f) body body' := by
  have hcases (C : Coupling f) : ∃ body', declarationBody? t'.line t' = some body' ∧
      Follows C Anywhere Anything (Declaration.renumber f) body body' := by
    obtain ⟨hnone, _⟩ | ⟨first, second, hfirst, hsecond, _, hfollows⟩ :=
      follows_declarationBody C Anything hseen
    · rw [hbody] at hnone
      cases hnone
    · rw [hbody] at hfirst
      cases hfirst
      exact ⟨second, hsecond, hfollows⟩
  obtain ⟨body', hbody', _⟩ := hcases (.void f)
  refine ⟨body', hbody', fun C => ?_⟩
  obtain ⟨body'', hbody'', hfollows⟩ := hcases C
  rw [hbody'] at hbody''
  cases hbody''
  exact hfollows

/-- Lines that make up a component with one declaration, when an empty element stands behind them,
hold that declaration wherever they stand. -/
theorem declares_of_unit {name : String} {root rest : List Lexeme} {c : Component} {d : Declaration}
    (hroot : EmptyElement root) (hlines : ∀ t ∈ lines.getLast?, t.kind = .newline)
    (hstop : ∀ t ∈ lines, t.kind ≠ .stop) (hr : unit name (lines ++ root) = .ok (c, rest))
    (hc : c.declarations = [d]) (halike : AlikeInside f lines lines') : Declares f lines' d := by
  obtain ⟨leading, tree, hleading, rfl⟩ := unit_before_root hroot hlines hstop hr
  obtain rfl : leading = [d] := by
    have hperm := Component.declarations_perm name leading tree
    rw [hc] at hperm
    exact (List.singleton_perm.mp hperm).symm
  obtain ⟨k, hk, hd⟩ := leading_single hleading
  rw [dropWhile_append_root hroot (kind_of_declaration hd).2.2] at hd
  obtain ⟨t, us, body, x, mid, hts, hbody, hd, rfl, hend⟩ := declaration_eq_ok hd
  obtain ⟨newline, rfl, hnewline⟩ : ∃ newline, mid = newline :: (k ++ root) ∧
      newline.kind = .newline := by
    obtain hend | ⟨rfl, hend⟩ := endStatement_eq_ok hend
    · exact hend
    · exact absurd hend (kindAt_newlines_root hroot hk)
  have hlines' : lines.dropWhile (·.kind = .newline) = t :: (x ++ newline :: k) := by
    refine List.append_cancel_right (hts.trans ?_)
    simp
  obtain ⟨t', us', hdrop, hseen, hus⟩ := halike.dropWhile hlines'
  obtain ⟨body', hbody', hfollows⟩ := follows_bodies hbody hseen
  intro rest'
  obtain ⟨d', k', mid', hview, hk', hd', hend'⟩ :=
    tracks_lines hfollows trivial hnewline hk hus hd
  refine ⟨d', k', hview, hk', ?_⟩
  rw [hdrop]
  exact declaration_of_body hbody' hd' hend'

/-- Nor does the gap before a root. -/
theorem markup_regap (t : Lexeme) (gap : Gap) (us : List Lexeme) :
    markup ({ t with gap := gap } :: us) = markup (t :: us) := by
  have hnode : node [] ({ t with gap := gap } :: us) = node [] (t :: us) := by
    change nestFrom _ nodeStep [] _ = nestFrom _ nodeStep [] _
    rw [nestFrom, nestFrom]
    rfl
  rw [markup, get_bind_apply, get_bind_apply]
  change (if kindAt 1 (t :: us) ≠ .symbol .rangle ∧ wordAt 1 "each" (t :: us) then _
    else _ : Rule Markup) _ = _
  split
  · rfl
  · exact hnode

theorem eq_nil_of_kindAt {ts us : List Lexeme} (hstop : ∀ t ∈ us, t.kind ≠ .stop) (h : ts <:+ us)
    (hk : kindAt 0 ts = .stop) : ts = [] := by
  cases ts with
  | nil => rfl
  | cons t ts => exact absurd hk (hstop t (h.subset (by simp)))

/-- A root that ends its lines leaves the newlines behind it. -/
theorem newline_of_markup {mid k : List Lexeme} {m : Markup}
    (hlines : ∀ t ∈ lines.getLast?, t.kind = .newline) (hstop : ∀ t ∈ lines, t.kind ≠ .stop)
    (hm : markup (lines.dropWhile (·.kind = .newline)) = .ok (m, mid))
    (hend : endStatement mid = .ok ((), k)) :
    ∃ t x newline, lines.dropWhile (·.kind = .newline) = t :: (x ++ newline :: k) ∧
      mid = newline :: k ∧ newline.kind = .newline := by
  obtain ⟨x, hx, hcloses⟩ := closes_markup hm
  have hsuffix : lines.dropWhile (·.kind = .newline) <:+ lines := List.dropWhile_suffix _
  obtain ⟨newline, rfl, hnewline⟩ | ⟨rfl, hk⟩ := endStatement_eq_ok hend
  · cases x with
    | nil =>
      obtain ⟨_, _, _, _, hnil, _⟩ := hcloses
      simp at hnil
    | cons t x => exact ⟨t, x, newline, hx, rfl, hnewline⟩
  · -- The lines do not end with an angle.
    exfalso
    have hmid : mid <:+ lines.dropWhile (·.kind = .newline) := ⟨x, hx.symm⟩
    have hnil : mid = [] := eq_nil_of_kindAt hstop (hmid.trans hsuffix) hk
    rw [hnil, List.append_nil] at hx
    obtain ⟨front, hfront⟩ := hsuffix
    rw [hx] at hfront
    have hall := hcloses.behind front
    rw [hfront] at hall
    cases hlast : lines.getLast? with
    | none =>
      obtain ⟨_, _, _, _, heq, _⟩ := hall
      rw [List.getLast?_eq_none_iff.mp hlast] at heq
      simp at heq
    | some t =>
      have hangle := Closes.getLast (x := []) hall hlast
      rw [hlines t hlast] at hangle
      cases hangle

/-- Lines that make up a component without declarations hold its root wherever they stand. -/
theorem roots_of_unit {name : String} {rest : List Lexeme} {c : Component}
    (hlines : ∀ t ∈ lines.getLast?, t.kind = .newline) (hstop : ∀ t ∈ lines, t.kind ≠ .stop)
    (hr : unit name lines = .ok (c, rest)) (hc : c.declarations = [])
    (halike : AlikeInside f lines lines') : Roots f lines' c.markup := by
  obtain ⟨leading, tree, trailing, mid, behind, k, hleading, hangle, htree, hend, htrailing,
    rfl⟩ := unit_eq_ok hr
  have hnone : leading ++ trailing = [] := by
    have hperm := Component.declarations_perm name (leading ++ trailing) tree
    rw [hc] at hperm
    exact List.nil_perm.mp hperm
  obtain ⟨rfl, rfl⟩ := List.append_eq_nil_iff.mp hnone
  obtain rfl := many_leadingRound_eq_nil hleading
  obtain ⟨t, x, newline, hts, rfl, hnewline⟩ := newline_of_markup hlines hstop htree hend
  have hk : ∀ u ∈ k, u.kind = .newline := by
    have hsuffix : k <:+ lines := by
      have hinner : k <:+ t :: (x ++ newline :: k) := ⟨t :: (x ++ [newline]), by simp⟩
      exact (hts ▸ hinner).trans (List.dropWhile_suffix _)
    have hdrop := eq_nil_of_kindAt hstop ((List.dropWhile_suffix _).trans hsuffix)
      (many_trailingRound_eq_nil htrailing)
    exact fun u hu => by simpa using List.dropWhile_eq_nil_iff.mp hdrop u hu
  obtain ⟨t', us', hdrop, hseen, hus⟩ := halike.dropWhile hts
  rw [hts, ← List.append_nil k, ← List.cons_append] at htree hangle
  refine ⟨?_, fun rest' => ?_⟩
  · rw [hdrop]
    exact (Lexeme.kind_eq_of_seen hseen).symm.trans hangle
  · have hall : (t :: x ++ newline :: k).map (Lexeme.seen f) =
        ({ t' with gap := t.gap } :: us').map (Lexeme.seen f) := by
      rw [List.map_cons, ← hseen, ← hus]
      rfl
    obtain ⟨m', k', mid, hview, hk', hm', hend'⟩ :=
      tracks_lines (fun C => follows_markup) hangle hnewline hk hall htree
    refine ⟨m', k', mid, hview, hk', ?_, hend'⟩
    rw [hdrop, ← hm']
    exact (markup_regap t' t.gap (us' ++ rest')).symm

theorem dropWhile_newlines_append {k ts rest : List Lexeme} (hk : ∀ t ∈ k, t.kind = .newline)
    (hts : ts.dropWhile (·.kind = .newline) ≠ []) :
    (k ++ (ts ++ rest)).dropWhile (·.kind = .newline) =
      ts.dropWhile (·.kind = .newline) ++ rest := by
  rw [List.dropWhile_append_of_pos fun t ht => by simpa using hk t ht, List.dropWhile_append,
    if_neg (by simpa [List.isEmpty_iff] using hts)]

/-- Rounds that read declarations behind newlines read one off lines that hold one. -/
theorem many_of_declares {round : Rule (Round Declaration)} {rest final : List Lexeme}
    {d : Declaration} {ds : List Declaration}
    (hround : ∀ ts d rest, declaration (ts.dropWhile (·.kind = .newline)) = .ok (d, rest) →
      round ts = .ok (.more d, rest)) (h : Declares f lines d)
    (hrest : ∀ k, (∀ t ∈ k, t.kind = .newline) → many round (k ++ rest) = .ok (ds, final)) :
    ∃ d', d.renumber f = d'.renumber f ∧ ∀ k, (∀ t ∈ k, t.kind = .newline) →
      many round (k ++ (lines ++ rest)) = .ok (d' :: ds, final) := by
  obtain ⟨d', k', hview, hk', hd⟩ := h rest
  have hshort := declaration_shortens hd
  have hne : lines.dropWhile (·.kind = .newline) ≠ [] := by
    intro hnil
    rw [hnil, List.nil_append, List.length_append] at hshort
    omega
  refine ⟨d', hview, fun k hk => ?_⟩
  have hdrop : (k ++ (lines ++ rest)).dropWhile (·.kind = .newline) =
      lines.dropWhile (·.kind = .newline) ++ rest := dropWhile_newlines_append hk hne
  have hlength := (List.dropWhile_suffix (l := k ++ (lines ++ rest)) (·.kind = .newline)).length_le
  rw [hdrop] at hlength
  exact many_of_more (hround _ _ _ (hdrop ▸ hd)) (Nat.lt_of_lt_of_le hshort hlength) (hrest k' hk')

end

end Rule

end Sigil
