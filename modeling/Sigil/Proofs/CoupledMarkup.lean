import Sigil.Proofs.CoupledRules

namespace Sigil

namespace Rule

open Sigil.Parser

section

variable {f : Nat → Nat} {C : Coupling f} {At : List Lexeme → Prop} {Used : List Lexeme → Prop}

/-- A hyphen and an identifier that touch go on with a name. -/
def JoinsName (ts : List Lexeme) : Prop :=
  ∃ hyphen part rest, ts = hyphen :: part :: rest ∧ hyphen.kind = .symbol .minus ∧
    hyphen.gap = .touching ∧ part.kind = .ident ∧ part.gap = .touching

theorem namePartRound_of_joins {hyphen part : Lexeme} {rest : List Lexeme}
    (hh : hyphen.kind = .symbol .minus) (hhg : hyphen.gap = .touching) (hp : part.kind = .ident)
    (hpg : part.gap = .touching) :
    namePartRound (hyphen :: part :: rest) = .ok (.more part.text, rest) := by
  unfold namePartRound
  rw [get_bind_apply]
  simp only [hh, hhg, hp, hpg, and_self, ↓reduceIte]
  rfl

theorem namePartRound_of_not_joins {ts : List Lexeme} (h : ¬ JoinsName ts) :
    namePartRound ts = .ok (.stop, ts) := by
  unfold namePartRound
  rw [get_bind_apply]
  split
  next hyphen part rest =>
    rw [if_neg fun hjoins => h ⟨hyphen, part, rest, rfl, hjoins⟩]
    rfl
  next => rfl

theorem JoinsName.of_agree {ts ts' : List Lexeme} (hagree : C.Agree ts ts') (h : JoinsName ts') :
    JoinsName ts := by
  obtain ⟨hyphen', part', rest', rfl, hh, hhg, hp, hpg⟩ := h
  obtain ⟨_, hend⟩ | ⟨hyphen, us, _, _, rfl, heq, hseen⟩ := hagree.front.cases
  · exact absurd (hend hyphen' rfl).1 (hh ▸ nofun)
  cases heq
  have hkind : hyphen.kind = .symbol .minus := (Lexeme.kind_eq_of_seen hseen).trans hh
  obtain ⟨_, hend⟩ | ⟨part, rest, _, _, rfl, heq, hseen'⟩ :=
    (hagree.second (show hyphen.kind ≠ .newline from hkind ▸ nofun) (List.cons_ne_nil _ _)).cases
  · exact absurd (hend part' rfl).1 (hp ▸ nofun)
  cases heq
  have hkind' : part.kind = .ident := (Lexeme.kind_eq_of_seen hseen').trans hp
  refine ⟨hyphen, part, rest, rfl, hkind, ?_, hkind', ?_⟩
  · rw [Lexeme.gap_eq_of_seen hseen (hkind ▸ nofun), hhg]
  · rw [Lexeme.gap_eq_of_seen hseen' (hkind' ▸ nofun), hpg]

theorem follows_namePartRound [Unopened Used] :
    Follows C At Used (Round.map id) namePartRound namePartRound where
  uses ts r rest _ hr := by
    by_cases hjoins : JoinsName ts
    · obtain ⟨hyphen, part, others, rfl, hh, hhg, hp, hpg⟩ := hjoins
      rw [namePartRound_of_joins hh hhg hp hpg] at hr
      cases hr
      refine ⟨[hyphen] ++ [part], rfl, Unopened.append (Unopened.single ?_) (Unopened.single ?_)⟩
      · exact hh ▸ nofun
      · exact hp ▸ nofun
    · rw [namePartRound_of_not_joins hjoins] at hr
      cases hr
      exact ⟨[], rfl, Unopened.nil⟩
  tracks ts ts' _ hrel := by
    refine ⟨fun r rest hr hkept => ?_, fun e _ hr => ?_⟩
    · by_cases hjoins : JoinsName ts
      · obtain ⟨hyphen, part, others, rfl, hh, hhg, hp, hpg⟩ := hjoins
        rw [namePartRound_of_joins hh hhg hp hpg] at hr
        cases hr
        have hkept₁ : C.Kept (part :: rest) := C.kept_of_suffix (List.suffix_cons _ _) hkept
        have hkept₂ : C.Kept (hyphen :: part :: rest) :=
          C.kept_of_suffix (List.suffix_cons _ _) hkept₁
        obtain ⟨heq, _⟩ | ⟨_, _, hyphen', us', heq, rfl, hseen⟩ := (C.front hkept₂ hrel).cases
        · cases heq
        cases heq
        have hrel₁ : C.Rel (part :: rest) us' := C.rel_of_cons hkept₁ hrel
        obtain ⟨heq, _⟩ | ⟨_, _, part', rest', heq, rfl, hseen'⟩ := (C.front hkept₁ hrel₁).cases
        · cases heq
        cases heq
        refine ⟨.more part'.text, rest', ?_, ?_, C.rel_of_cons hkept hrel₁⟩
        · apply namePartRound_of_joins
          · rw [← Lexeme.kind_eq_of_seen hseen, hh]
          · rw [← Lexeme.gap_eq_of_seen hseen (hh ▸ nofun), hhg]
          · rw [← Lexeme.kind_eq_of_seen hseen', hp]
          · rw [← Lexeme.gap_eq_of_seen hseen' (hp ▸ nofun), hpg]
        · exact congrArg Round.more (Lexeme.text_eq_of_seen hseen')
      · rw [namePartRound_of_not_joins hjoins] at hr
        cases hr
        have hjoins' : ¬ JoinsName ts' := fun h => hjoins (h.of_agree (.of_rel hkept hrel))
        exact ⟨.stop, ts', namePartRound_of_not_joins hjoins', rfl, hrel⟩
    · by_cases hjoins : JoinsName ts
      · obtain ⟨hyphen, part, others, rfl, hh, hhg, hp, hpg⟩ := hjoins
        rw [namePartRound_of_joins hh hhg hp hpg] at hr
        cases hr
      · rw [namePartRound_of_not_joins hjoins] at hr
        cases hr

theorem follows_hyphenated [Unopened Used] (expected : String) :
    Follows C At Used id (hyphenated expected) (hyphenated expected) := by
  refine follows_bind (follows_ident _) fun first => ?_
  exact follows_bind (follows_manyOf follows_namePartRound) fun parts => follows_pure rfl

theorem follows_attributeRound [Unopened Used] :
    Follows C At Used (Round.map id) attributeRound attributeRound := by
  refine follows_bind follows_skipNewlines fun _ => ?_
  refine follows_kind fun k => ?_
  split
  · exact follows_pure rfl
  · exact follows_pure rfl
  · refine follows_bind ?_ fun a => follows_pure rfl
    refine follows_bind (follows_skipAt nofun nofun) fun _ => ?_
    refine follows_bind (follows_hyphenated _) fun name => ?_
    refine follows_bind (follows_expect nofun) fun _ => ?_
    refine follows_kind fun k => follows_ite Iff.rfl (fun _ => ?_) fun _ => ?_
    · exact follows_bind follows_braced fun e => follows_pure rfl
    · exact follows_bind (follows_ident _) fun handler => follows_pure rfl
  · refine follows_bind ?_ fun a => follows_pure rfl
    refine follows_bind (follows_hyphenated _) fun name => ?_
    refine follows_bind (follows_eat nofun) fun valued =>
      follows_ite Iff.rfl (fun _ => ?_) fun _ => follows_pure rfl
    refine follows_kind fun k => ?_
    split
    · exact follows_bind follows_braced fun e => follows_pure rfl
    · refine follows_bindView (follows_takeAs .string nofun nofun _) fun t t' ht => follows_pure ?_
      exact congrArg (fun s => (⟨name, .text s⟩ : Attribute)) (congrArg Prod.snd ht)
    · exact follows_unexpected _
  · exact follows_unexpected _

theorem expect_eq_ok {k : Kind} {ts rest : List Lexeme} {u : Unit}
    (h : expect k ts = .ok (u, rest)) (hk : k ≠ .stop) : ∃ t, ts = t :: rest ∧ t.kind = k := by
  obtain ⟨eaten, mid, he, h⟩ := bind_eq_ok h
  rw [eat_apply] at he
  split at he
  next hfront =>
    cases he
    cases h
    cases ts with
    | nil => exact absurd hfront.symm hk
    | cons t ts => exact ⟨t, rfl, hfront⟩
  next => cases he; cases h

/-- The lexemes of a name are identifiers and hyphens. -/
theorem hyphenated_eq_ok {expected name : String} {ts rest : List Lexeme}
    (h : hyphenated expected ts = .ok (name, rest)) :
    ∃ x, ts = x ++ rest ∧ ∀ t ∈ x, t.kind = .ident ∨ t.kind = .symbol .minus := by
  have hround (ts r rest) (hr : namePartRound ts = .ok (r, rest)) :
      ∃ x, ts = x ++ rest ∧ ∀ t ∈ x, t.kind = .ident ∨ t.kind = .symbol .minus := by
    by_cases hjoins : JoinsName ts
    · obtain ⟨hyphen, part, others, rfl, hh, hhg, hp, hpg⟩ := hjoins
      rw [namePartRound_of_joins hh hhg hp hpg] at hr
      cases hr
      exact ⟨[hyphen, part], rfl, by simp [hh, hp]⟩
    · rw [namePartRound_of_not_joins hjoins] at hr
      cases hr
      exact ⟨[], rfl, by simp⟩
  obtain ⟨first, mid, hfirst, h⟩ := bind_eq_ok h
  obtain ⟨parts, _, hparts, h⟩ := bind_eq_ok h
  cases h
  obtain ⟨t, _, ht, hfirst⟩ := bind_eq_ok hfirst
  cases hfirst
  obtain ⟨x, rfl, hx⟩ := many_uses
    (fun x y hx hy t ht => (List.mem_append.mp ht).elim (hx t) (hy t)) hround hparts
  cases ts with
  | nil => cases ht
  | cons u us =>
    rw [take_cons] at ht
    split at ht
    next hk =>
      cases ht
      refine ⟨t :: x, rfl, List.forall_mem_cons.mpr ⟨.inl hk, hx⟩⟩
    next => cases ht

/-- What a closing tag is made of. -/
theorem closingTag_eq_ok {expected : String} {ts rest : List Lexeme}
    (h : closingTag expected ts = .ok ((), rest)) :
    ∃ angle slash name close, ts = angle :: slash :: (name ++ close :: rest) ∧
      angle.kind = .symbol .langle ∧ slash.kind = .symbol .slash ∧
      (∀ t ∈ name, t.kind = .ident ∨ t.kind = .symbol .minus) ∧ close.kind = .symbol .rangle := by
  obtain ⟨_, _, hfirst, hbehind⟩ := bind_eq_ok h
  obtain ⟨angle, rfl, hangle⟩ := expect_eq_ok hfirst nofun
  obtain ⟨_, mid, hsecond, hname⟩ := bind_eq_ok hbehind
  obtain ⟨slash, rfl, hslash⟩ := expect_eq_ok hsecond nofun
  rw [get_bind_apply, bind_of_ok (kind_apply mid)] at hname
  have hend {found : String} {us : List Lexeme}
      (h : (do unless found = expected do failAt mid (.mismatchedTag expected found)
               expect (.symbol .rangle) : Rule Unit) us = .ok ((), rest)) :
      ∃ close, us = close :: rest ∧ close.kind = .symbol .rangle := by
    split at h
    next => exact expect_eq_ok h nofun
    next => cases h
  split at hname
  next =>
    obtain ⟨close, rfl, hclose⟩ := hend hname
    exact ⟨angle, slash, [], close, rfl, hangle, hslash, by simp, hclose⟩
  next =>
    obtain ⟨found, _, hfound, hlast⟩ := bind_eq_ok hname
    obtain ⟨name, rfl, hparts⟩ := hyphenated_eq_ok hfound
    obtain ⟨close, rfl, hclose⟩ := hend hlast
    exact ⟨angle, slash, name, close, rfl, hangle, hslash, hparts, hclose⟩

theorem follows_closingTag (expected : String) :
    Follows C At Anything id (closingTag expected) (closingTag expected) := by
  refine follows_bind (follows_expectOf fun _ _ => trivial) fun _ => ?_
  refine follows_bind (follows_expect nofun) fun _ => ?_
  refine follows_get fun here here' _ hagree => follows_kind fun k => ?_
  have hend (found : String) : Follows C Anywhere Anything id
      (do unless found = expected do failAt here (.mismatchedTag expected found)
          expect (.symbol .rangle) : Rule Unit)
      (do unless found = expected do failAt here' (.mismatchedTag expected found)
          expect (.symbol .rangle) : Rule Unit) :=
    follows_ite Iff.rfl (fun _ => follows_expect nofun) fun _ => follows_failAt_bind hagree.length _
  refine follows_ite Iff.rfl (fun _ => ?_) fun _ => ?_
  · exact follows_bind (follows_pure rfl) hend
  · exact follows_bind (follows_hyphenated _) hend

/-- What is kept inside a tag that is still open goes on behind the newlines. -/
def Coupling.InnerKept (C : Coupling f) (ts : List Lexeme) : Prop :=
  C.faults ∨ ∃ m t us, ts = m ++ t :: us ∧ t.kind ≠ .newline ∧ C.Kept us

theorem Coupling.InnerKept.kept {ts : List Lexeme} (h : C.InnerKept ts) : C.Kept ts := by
  obtain hfaults | ⟨m, t, us, rfl, _, hus⟩ := h
  · exact C.kept_of_faults hfaults ts
  · exact C.kept_of_suffix ((List.suffix_cons t us).trans (List.suffix_append m _)) hus

/-- The coupling inside a tag that is still open. -/
def Coupling.inner (C : Coupling f) : Coupling f where
  Rel := C.Rel
  Kept := C.InnerKept
  faults := C.faults
  more := C.more
  kept_of_suffix := by
    rintro ts rest ⟨x, rfl⟩ (hfaults | ⟨m, t, us, rfl, ht, hus⟩)
    · exact .inl hfaults
    · exact .inr ⟨x ++ m, t, us, (List.append_assoc x m _).symm, ht, hus⟩
  kept_of_faults hfaults _ := .inl hfaults
  front hkept hrel := C.front hkept.kept hrel
  second hkept hk hne hrel := C.second hkept.kept hk hne hrel
  tail hne hkept hrel := C.tail hne hkept.kept hrel
  length_eq := C.length_eq
  length_lt_iff := C.length_lt_iff

theorem Coupling.InnerKept.dropWhile_newline {ts : List Lexeme} (h : C.InnerKept ts) :
    C.InnerKept (ts.dropWhile (·.kind = .newline)) := by
  obtain hfaults | ⟨m, t, us, rfl, ht, hus⟩ := h
  · exact .inl hfaults
  · refine .inr ⟨m.dropWhile (·.kind = .newline), t, us, ?_, ht, hus⟩
    have hstop : (t :: us).dropWhile (·.kind = .newline) = t :: us :=
      List.dropWhile_cons_of_neg (by simpa using ht)
    rw [List.dropWhile_append, hstop]
    split
    next hall => rw [List.isEmpty_iff.mp hall, List.nil_append]
    next => rfl

theorem Follows.inner {α β : Type} {view : α → β} {p p' : Rule α}
    (h : Follows C At Used view p p') : Follows C.inner At Used view p p' where
  uses := h.uses
  tracks _ _ hat hrel :=
    ⟨fun _ _ hr hkept => (h.tracks hat hrel).value hr hkept.kept, (h.tracks hat hrel).fault⟩

theorem textRound_of_text {ts rest : List Lexeme} {t : Lexeme}
    (hdrop : ts.dropWhile (·.kind = .newline) = t :: rest) (ht : isText t.kind = true) :
    textRound ts = .ok (.more t, rest) := by
  unfold textRound
  rw [get_bind_apply, hdrop]
  dsimp only
  rw [if_pos ht]
  rfl

theorem textRound_of_not_text {ts : List Lexeme}
    (h : isText (kindAt 0 (ts.dropWhile (·.kind = .newline))) = false) :
    textRound ts = .ok (.stop, ts) := by
  unfold textRound
  rw [get_bind_apply]
  cases hdrop : ts.dropWhile (·.kind = .newline) with
  | nil => rfl
  | cons t rest =>
    rw [hdrop] at h
    dsimp only
    rw [if_neg (show ¬ isText t.kind = true from Bool.eq_false_iff.mp h)]
    rfl

/-- A round reads the first lexeme behind the newlines, if it is text. -/
theorem textRound_cases (ts : List Lexeme) :
    (∃ t rest, ts.dropWhile (·.kind = .newline) = t :: rest ∧ isText t.kind = true ∧
        textRound ts = .ok (.more t, rest)) ∨
      (isText (kindAt 0 (ts.dropWhile (·.kind = .newline))) = false ∧
        textRound ts = .ok (.stop, ts)) := by
  by_cases htext : isText (kindAt 0 (ts.dropWhile (·.kind = .newline))) = true
  · cases hdrop : ts.dropWhile (·.kind = .newline) with
    | nil => rw [hdrop] at htext; cases htext
    | cons t rest =>
      rw [hdrop] at htext
      exact .inl ⟨t, rest, rfl, htext, textRound_of_text hdrop htext⟩
  · rw [Bool.not_eq_true] at htext
    exact .inr ⟨htext, textRound_of_not_text htext⟩

theorem isText_ne_newline {k : Kind} (h : isText k = true) : k ≠ .newline := by
  rintro rfl
  cases h

/-- Of a text only the spellings and the blanks before them are kept. -/
theorem follows_textRound :
    Follows C.inner At Anything (Round.map fun t : Lexeme => (blankBefore t, t.text)) textRound
      textRound where
  uses ts r rest _ hr := by
    obtain ⟨t, others, hdrop, _, hround⟩ | ⟨_, hround⟩ := textRound_cases ts
    · rw [hround] at hr
      cases hr
      have hsuffix : rest <:+ ts :=
        (List.suffix_cons t rest).trans (hdrop ▸ List.dropWhile_suffix _)
      exact hsuffix.imp fun x hx => ⟨hx.symm, trivial⟩
    · rw [hround] at hr
      cases hr
      exact ⟨[], rfl, trivial⟩
  tracks ts ts' _ hrel := by
    obtain ⟨t, others, hdrop, htext, hround⟩ | ⟨htext, hround⟩ := textRound_cases ts
    · rw [hround]
      refine ⟨fun r rest hr hkept => ?_, fun e _ hr => by (cases hr)⟩
      cases hr
      have hkept' : C.inner.Kept (t :: others) :=
        C.inner.kept_of_suffix (List.suffix_cons _ _) hkept
      have hrel' := C.inner.dropWhile_newline hrel (hdrop ▸ hkept')
      rw [hdrop] at hrel'
      obtain ⟨heq, _⟩ | ⟨_, _, t', others', heq, hdrop', hseen⟩ :=
        (C.inner.front hkept' hrel').cases
      · cases heq
      cases heq
      rw [hdrop'] at hrel'
      have hkind := Lexeme.kind_eq_of_seen hseen
      have hgap := Lexeme.gap_eq_of_seen hseen (isText_ne_newline htext)
      refine ⟨.more t', others', textRound_of_text hdrop' (hkind ▸ htext), ?_,
        C.inner.rel_of_cons hkept hrel'⟩
      simp only [Round.map, blankBefore, hgap, Lexeme.text_eq_of_seen hseen]
    · rw [hround]
      refine ⟨fun r rest hr hkept => ?_, fun e _ hr => by (cases hr)⟩
      cases hr
      -- That no text goes on is seen behind the newlines as well.
      have hkept' : C.inner.Kept (ts.dropWhile (·.kind = .newline)) := hkept.dropWhile_newline
      have hrel' := C.inner.dropWhile_newline hrel hkept'
      rw [(C.inner.front hkept' hrel').kindAt_eq] at htext
      exact ⟨.stop, ts', textRound_of_not_text htext, rfl, hrel⟩

theorem joinText_eq_of_map {run run' : List Lexeme}
    (h : run.map (fun t => (blankBefore t, t.text)) = run'.map fun t => (blankBefore t, t.text)) :
    joinText run = joinText run' := by
  have hfold : ∀ (s : String) (run run' : List Lexeme),
      run.map (fun t => (blankBefore t, t.text)) = run'.map (fun t => (blankBefore t, t.text)) →
      run.foldl (fun s t => s ++ blankBefore t ++ t.text) s =
        run'.foldl (fun s t => s ++ blankBefore t ++ t.text) s := by
    intro s run run' h
    rw [← List.foldl_map (f := fun t : Lexeme => (blankBefore t, t.text))
      (g := fun s x => s ++ x.1 ++ x.2), h, List.foldl_map]
  cases run with
  | nil =>
    cases run' with
    | nil => rfl
    | cons t' run' => cases h
  | cons t run =>
    cases run' with
    | nil => cases h
    | cons t' run' =>
      simp only [List.map_cons, List.cons.injEq, Prod.mk.injEq] at h
      rw [joinText, joinText, h.1.2]
      exact hfold _ _ _ h.2

theorem AlikeAtFront.blankAtFront_eq {ts ts' : List Lexeme} (h : AlikeAtFront f ts ts') :
    blankAtFront ts = blankAtFront ts' := by
  obtain ⟨rfl, hend⟩ | ⟨t, us, t', us', rfl, rfl, hseen⟩ := h.cases
  · cases ts' with
    | nil => rfl
    | cons t' us' => exact (if_pos (.inr (hend t' rfl).1)).symm
  · rw [blankAtFront, blankAtFront, blankBefore, blankBefore, ← Lexeme.kind_eq_of_seen hseen]
    by_cases hk : t.kind = .newline
    · rw [if_pos (.inl hk), if_pos (.inl hk)]
    · rw [Lexeme.gap_eq_of_seen hseen hk]

theorem follows_textRun (startsLine : Bool) :
    Follows C.inner At Anything (Markup.renumber f) (textRun startsLine) (textRun startsLine) := by
  refine follows_get fun before before' _ hbefore => ?_
  refine follows_bindView (follows_many follows_textRound) fun run run' hrun => ?_
  refine follows_get fun behind behind' _ hbehind => follows_pure ?_
  rw [hbefore.front.blankAtFront_eq, hbehind.front.blankAtFront_eq, joinText_eq_of_map hrun]

section

variable {node node' : Rule Markup}

theorem follows_childRound
    (h : Follows C (AtKind (.symbol .langle)) Anything (Markup.renumber f) node node')
    (parent : String) :
    Follows C.inner At Anything (Round.map (Markup.renumber f)) (childRound node parent)
      (childRound node' parent) := by
  refine follows_kind fun front => ?_
  refine follows_bind follows_skipNewlines fun _ => ?_
  refine follows_kind fun k => ?_
  split
  · exact follows_unexpected _
  · refine follows_get fun ts ts' hk hagree => ?_
    refine follows_ite ?_ (fun _ => follows_pure rfl) fun _ => ?_
    · rw [hagree.kindAt_one (hk ▸ nofun) (hk ▸ nofun)]
    · have hnode : Follows C.inner (· = ts) Anything (Markup.renumber f) node node' :=
        h.inner.within fun us hus => hus ▸ hk
      exact follows_bindView hnode fun m m' hm => follows_pure (congrArg Round.more hm)
  · exact follows_bind follows_braced fun e => follows_pure rfl
  · exact follows_unexpected _
  · exact follows_unexpected _
  · exact follows_bindView (follows_textRun _) fun m m' hm => follows_pure (congrArg Round.more hm)

/-- All that is kept behind an element is kept at the closing tag, whose angle is no newline. -/
theorem follows_children
    (h : Follows C (AtKind (.symbol .langle)) Anything (Markup.renumber f) node node')
    (parent : String) :
    Follows C At Anything (List.map (Markup.renumber f)) (children node parent)
      (children node' parent) := by
  have hmany : Follows C.inner Anywhere Anything (List.map (Markup.renumber f))
      (many (childRound node parent)) (many (childRound node' parent)) :=
    follows_many (follows_childRound h parent)
  have hclose (ms ms' : List Markup)
      (hms : ms.map (Markup.renumber f) = ms'.map (Markup.renumber f)) :
      Follows C Anywhere Anything (List.map (Markup.renumber f))
        (do closingTag parent; return ms) (do closingTag parent; return ms') :=
    follows_bind (follows_closingTag parent) fun _ => follows_pure hms
  refine ⟨fun ts ms rest _ hr => ?_, fun ts ts' _ hrel => ⟨fun ms rest hr hkept => ?_, ?_⟩⟩
  · obtain ⟨ms', mid, hm, hc⟩ := bind_eq_ok hr
    have hsuffix := ((hclose ms' ms' rfl).suffix trivial hc).trans (hmany.suffix trivial hm)
    exact hsuffix.imp fun x hx => ⟨hx.symm, trivial⟩
  · obtain ⟨ms', mid, hm, hc⟩ := bind_eq_ok hr
    obtain ⟨_, _, htag, hreturn⟩ := bind_eq_ok hc
    cases hreturn
    obtain ⟨angle, slash, name, close, rfl, hangle, _⟩ := closingTag_eq_ok htag
    have hmid : C.inner.Kept (angle :: slash :: (name ++ close :: rest)) := by
      refine .inr ⟨[], angle, _, rfl, hangle ▸ nofun, C.kept_of_suffix ?_ hkept⟩
      exact ⟨slash :: (name ++ [close]), by simp⟩
    obtain ⟨ns, mid', hm', hns, hrel'⟩ := (hmany.tracks trivial hrel).value hm hmid
    change ∃ a' rest', (many (childRound node' parent) >>= _) ts' = .ok (a', rest') ∧ _
    rw [bind_of_ok hm']
    exact ((hclose ms ns hns).tracks trivial hrel').value hc hkept
  · -- Where faults are compared, all is kept.
    intro e hfaults hr
    have hround : Follows C Anywhere Anything (List.map (Markup.renumber f))
        (many (childRound node parent)) (many (childRound node' parent)) :=
      ⟨hmany.uses, fun us us' hat hrel =>
        ⟨fun ms rest hr _ => (hmany.tracks hat hrel).value hr (.inl hfaults),
          (hmany.tracks hat hrel).fault⟩⟩
    exact ((follows_bindView hround hclose).tracks trivial hrel).fault hfaults hr

theorem follows_element
    (h : Follows C (AtKind (.symbol .langle)) Anything (Markup.renumber f) node node')
    {line line' : Nat} (hline : f line = f line') :
    Follows C At Anything (Markup.renumberElement f) (element node line)
      (element node' line') := by
  refine follows_bind (follows_hyphenated _) fun tag => ?_
  refine follows_bind (follows_manyOf follows_attributeRound) fun attributes => ?_
  refine follows_bind (follows_eat nofun) fun selfClosing =>
    follows_ite Iff.rfl (fun _ => ?_) fun _ => ?_
  · refine follows_bind (follows_expect nofun) fun _ => follows_pure ?_
    simp only [Markup.renumberElement, hline]
  · refine follows_bind (follows_expect nofun) fun _ => ?_
    refine follows_bindView (follows_children h tag) fun ms ms' hms => follows_pure ?_
    simp only [Markup.renumberElement, Markup.renumberAll_eq_map, hms, hline]

end

/-- Notes the line of a lexeme that is there and moves behind it. -/
theorem follows_lineSkip {ts : List Lexeme} (hne : ts ≠ []) {α β : Type} {view : α → β}
    {g g' : Nat → Rule α}
    (hg : ∀ line line', f line = f line' →
      Follows C (· = ts.tail) Anything view (g line) (g' line')) :
    Follows C (· = ts) Anything view (do let line ← line; skip; g line)
      (do let line ← line; skip; g' line) := by
  have hline : Follows C (· = ts) Anything f line line := follows_line fun _ hus => hus ▸ hne
  refine follows_bindMid (fun _ => (· = ts)) hline (fun us n rest hus hr => ?_) fun n n' hn => ?_
  · cases hr
    exact hus
  · refine follows_bindMid (fun _ => (· = ts.tail)) (follows_skipOf hne)
      (fun us _ rest hus hr => ?_) fun _ _ _ => hg n n' hn
    cases hr
    rw [hus]

theorem follows_eachLoop {node node' : List String → Rule Markup}
    (h : ∀ outer, Follows C (AtKind (.symbol .langle)) Anything (Markup.renumber f) (node outer)
      (node' outer)) (outer : List String) (hne : ∀ ts, At ts → ts ≠ []) :
    Follows C At Anything (Markup.renumber f) (eachLoop node outer) (eachLoop node' outer) := by
  refine follows_get fun here here' hat hhere => ?_
  refine follows_bind (follows_skipOf (hne here hat)) fun _ => ?_
  refine follows_bind (follows_ident _) fun binding => ?_
  refine follows_bind follows_typeAnnotation fun itemType => ?_
  refine follows_get fun ts ts' _ hagree => ?_
  refine follows_ite (by rw [hagree.front.wordAt_eq]) (fun hword => ?_) fun _ =>
    follows_unexpected_bind _
  refine follows_bind (follows_skipOf (ne_nil_of_wordAt hword)) fun _ => ?_
  refine follows_bind (follows_ident _) fun collection => ?_
  refine follows_bind (follows_memberChain follows_expression _) fun source => ?_
  refine follows_bind (follows_expect nofun) fun _ => ?_
  refine follows_bind follows_skipNewlines fun _ => ?_
  refine follows_get fun ts ts' _ hagree => ?_
  refine follows_ite ?_ (fun hangle => ?_) fun _ => follows_fail_bind _
  · rw [← hagree.front.kindAt_eq]
    refine and_congr_right fun hk => ?_
    rw [hagree.kindAt_one (hk ▸ nofun) (hk ▸ nofun), hagree.wordAt_one (hk ▸ nofun) (hk ▸ nofun)]
  refine follows_lineSkip (ne_nil_of_kindAt (hangle.1 ▸ nofun)) fun line line' hline => ?_
  refine follows_bindView (follows_element (h _) hline) fun template template' htemplate => ?_
  have hfind : (outer.find? fun o => o != binding && Markup.elementReferences o template) =
      outer.find? fun o => o != binding && Markup.elementReferences o template' := by
    congr 1
    funext o
    rw [← Markup.elementReferences_renumber o template, htemplate,
      Markup.elementReferences_renumber]
  rw [hfind]
  split
  · exact follows_failAt_bind hhere.length _
  · refine follows_bind follows_skipNewlines fun _ => ?_
    refine follows_get fun ts ts' _ hagree => ?_
    refine follows_ite ?_ (fun _ => ?_) fun _ => follows_fail_bind _
    · rw [← hagree.front.kindAt_eq]
      refine and_congr_right fun hk => ?_
      rw [hagree.kindAt_one (hk ▸ nofun) (hk ▸ nofun)]
    refine follows_bind (follows_closingTag _) fun _ => follows_pure ?_
    simp only [Markup.renumber, htemplate]

theorem follows_nodeStep {node node' : List String → Rule Markup}
    (h : ∀ outer, Follows C (AtKind (.symbol .langle)) Anything (Markup.renumber f) (node outer)
      (node' outer)) (outer : List String) :
    Follows C (AtKind (.symbol .langle)) Anything (Markup.renumber f) (nodeStep node outer)
      (nodeStep node' outer) := by
  refine follows_get fun ts ts' hk hagree => ?_
  rw [← hagree.wordAt_one (hk ▸ nofun) (hk ▸ nofun)]
  refine follows_lineSkip (ne_nil_of_kindAt (hk ▸ nofun)) fun line line' hline => ?_
  have heat : Follows C (· = ts.tail) Anything id (eat (.symbol .rangle)) (eat (.symbol .rangle)) :=
    follows_eat nofun
  refine follows_bindMid (fun closed us => closed = true ∨ us = ts.tail) heat
    (fun us closed rest hus hr => ?_) fun closed _ heq => ?_
  · rw [eat_apply] at hr
    split at hr
    next => cases hr; exact .inl rfl
    next => cases hr; exact .inr hus
  cases heq
  refine follows_ite Iff.rfl (fun _ => ?_) fun hopen =>
    follows_ite Iff.rfl (fun heach => ?_) fun _ => ?_
  · refine follows_bindView (follows_children (h outer) "") fun ms ms' hms => follows_pure ?_
    simp only [Markup.renumber, Markup.renumberAll_eq_map, hms, hline]
  · refine follows_eachLoop h outer fun us hus => ?_
    obtain hclosed | rfl := hus
    · exact absurd hclosed hopen
    · rw [wordAt_succ] at heach
      exact ne_nil_of_wordAt heach
  · refine follows_bindView (follows_element (h outer) hline) fun e e' he => follows_pure ?_
    simp only [Markup.renumber, he]

theorem follows_node (outer : List String) :
    Follows C (AtKind (.symbol .langle)) Anything (Markup.renumber f) (node outer) (node outer) :=
  follows_nestWith (fun _ _ => follows_unexpected _) (fun _ _ _ h => follows_nodeStep h) outer

theorem follows_markup :
    Follows C (AtKind (.symbol .langle)) Anything (Markup.renumber f) markup markup := by
  refine follows_get fun ts ts' hk hagree => ?_
  refine follows_ite ?_ (fun _ => follows_fail_bind _) fun _ => ?_
  · rw [hagree.kindAt_one (hk ▸ nofun) (hk ▸ nofun), hagree.wordAt_one (hk ▸ nofun) (hk ▸ nofun)]
  · exact (follows_node []).within fun us hus => hus ▸ hk

theorem follows_leadingRound [Unopened Used] :
    Follows C At Used (Round.map (Declaration.renumber f)) leadingRound leadingRound := by
  refine follows_bind follows_skipNewlines fun _ => follows_kind fun k => ?_
  split
  · exact follows_pure rfl
  · exact follows_pure rfl
  · exact follows_bindView follows_declaration fun d d' hd => follows_pure (congrArg Round.more hd)

theorem follows_trailingRound [Unopened Used] :
    Follows C At Used (Round.map (Declaration.renumber f)) trailingRound trailingRound := by
  refine follows_bind follows_skipNewlines fun _ => follows_kind fun k => ?_
  split
  · exact follows_pure rfl
  · exact follows_fail _
  · exact follows_bindView follows_declaration fun d d' hd => follows_pure (congrArg Round.more hd)

/-- Coupled runs of the whole grammar read the same component. -/
theorem follows_unit (name : String) :
    Follows C At Anything (Component.renumber f) (unit name) (unit name) := by
  refine follows_bindView (follows_many follows_leadingRound) fun leading leading' hleading => ?_
  refine follows_kind fun k => follows_ite Iff.rfl (fun hk => ?_) fun _ => follows_fail_bind _
  subst hk
  refine follows_bindView follows_markup fun m m' hm => ?_
  refine follows_bind follows_endStatement fun _ => ?_
  refine follows_bindView (follows_many follows_trailingRound)
    fun trailing trailing' htrailing => ?_
  refine follows_pure ?_
  simp only [Component.renumber_ofDeclarations, List.map_append, hleading, htrailing, hm]

end

end Rule

end Sigil
