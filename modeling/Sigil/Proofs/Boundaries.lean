import Mathlib.Data.List.Chain
import Sigil.Proofs.CoupledMarkup

namespace Sigil

namespace Parser

/-- A repetition ends with a round that asks for no more, or that gets no further. -/
theorem many_final {σ ε α : Type} {round : Parser σ ε (Round α)} {ts rest : List σ} {as : List α}
    (h : many round ts = .ok (as, rest)) :
    ∃ mid r, round mid = .ok (r, rest) ∧ ∀ a, r = .more a → ¬ rest.length < mid.length := by
  change manyFrom round ts = .ok (as, rest) at h
  fun_induction manyFrom round ts generalizing as rest with
  | case1 ts e he => cases h
  | case2 ts mid hm => cases h; exact ⟨ts, _, hm, fun _ heq => by cases heq⟩
  | case3 ts a mid hm => cases h; exact ⟨ts, _, hm, fun _ heq => by cases heq⟩
  | case4 ts a mid hm hlt e he ih => cases h
  | case5 ts a mid hm hlt others final he ih => cases h; exact ih he
  | case6 ts a mid hm hlt => cases h; exact ⟨ts, _, hm, fun _ _ => hlt⟩

theorem many_eq_nil {σ ε α : Type} {round : Parser σ ε (Round α)} {ts rest : List σ}
    (h : many round ts = .ok ([], rest)) : round ts = .ok (.stop, rest) := by
  change manyFrom round ts = _ at h
  rw [manyFrom] at h
  split at h
  next => cases h
  next hr => cases h; exact hr
  next => cases h
  next =>
    split at h
    next => split at h <;> cases h
    next => cases h

theorem many_eq_cons {σ ε α : Type} {round : Parser σ ε (Round α)} {ts rest : List σ} {a : α}
    {as : List α} (h : many round ts = .ok (a :: as, rest)) :
    (∃ mid, round ts = .ok (.more a, mid) ∧ many round mid = .ok (as, rest)) ∨
      (as = [] ∧ round ts = .ok (.last a, rest)) ∨
      (as = [] ∧ round ts = .ok (.more a, rest) ∧ ¬ rest.length < ts.length) := by
  change manyFrom round ts = _ at h
  rw [manyFrom] at h
  split at h
  next => cases h
  next => cases h
  next hr => cases h; exact .inr (.inl ⟨rfl, hr⟩)
  next mid hr =>
    split at h
    next =>
      split at h
      next => cases h
      next hmany => cases h; exact .inl ⟨mid, hr, hmany⟩
    next hlt => cases h; exact .inr (.inr ⟨rfl, hr, hlt⟩)

end Parser

namespace Rule

open Sigil.Parser

/-- No tag is opened: an angle neither comes first nor stands behind a newline. -/
structure NoOpening (x : List Lexeme) : Prop where
  front : ∀ t ∈ x.head?, t.kind ≠ .symbol .langle
  behind : x.IsChain fun t u => t.kind = .newline → u.kind ≠ .symbol .langle

instance : Unopened NoOpening where
  nil := ⟨nofun, .nil⟩
  append := by
    intro x y hx hy
    refine ⟨?_, List.isChain_append.mpr ⟨hx.behind, hy.behind, fun _ _ u hu _ => hy.front u hu⟩⟩
    cases x with
    | nil => exact hy.front
    | cons t x => exact hx.front
  single := by
    intro t ht
    refine ⟨?_, .singleton t⟩
    rintro _ ⟨⟩
    exact ht
  angle := by
    intro t angle hnewline ht
    refine ⟨?_, List.isChain_pair.mpr fun h => absurd h hnewline⟩
    rintro _ ⟨⟩
    exact ht

/-- Nothing without an opening tag reaches over one that starts a line. -/
theorem NoOpening.within {x rest lines behind : List Lexeme} {angle : Lexeme} (hx : NoOpening x)
    (hlines : ∀ t ∈ lines.getLast?, t.kind = .newline) (hangle : angle.kind = .symbol .langle)
    (h : lines ++ angle :: behind = x ++ rest) :
    ∃ k, lines = x ++ k ∧ rest = k ++ angle :: behind := by
  obtain ⟨k, rfl, hrest⟩ | ⟨k, rfl, hrest⟩ := List.append_eq_append_iff.mp h
  · -- What is used up starts the angle's line or goes on behind it.
    cases k with
    | nil => exact ⟨[], by simp, by simpa using hrest.symm⟩
    | cons t k =>
      injection hrest with ht _
      subst ht
      cases hlast : lines.getLast? with
      | none =>
        rw [List.getLast?_eq_none_iff.mp hlast] at hx
        exact absurd hangle (hx.front angle rfl)
      | some nl =>
        have hpair := (List.isChain_append.mp hx.behind).2.2 nl hlast angle rfl
        exact absurd hangle (hpair (hlines nl hlast))
  · exact ⟨k, rfl, hrest⟩

section

variable {α β : Type}

/-- What a rule uses up satisfies `Used`. -/
def Uses (Used : List Lexeme → Prop) (p : Rule α) : Prop :=
  ∀ ⦃ts a rest⦄, p ts = .ok (a, rest) → ∃ x, ts = x ++ rest ∧ Used x

variable {Used Used' : List Lexeme → Prop} {p q : Rule α} {g : α → Rule β}

theorem Follows.usesOf {γ : Type} {view : α → γ}
    (h : Follows (.void id) Anywhere Used view p p) : Uses Used p :=
  fun _ _ _ hr => h.uses trivial hr

theorem Uses.mono (h : Uses Used p) (hused : ∀ x, Used x → Used' x) : Uses Used' p := by
  intro ts a rest hr
  obtain ⟨x, hx, hu⟩ := h hr
  exact ⟨x, hx, hused x hu⟩

theorem uses_bind {Used₁ Used₂ : List Lexeme → Prop} (hp : Uses Used₁ p)
    (hg : ∀ a, Uses Used₂ (g a)) (hused : ∀ x y, Used₁ x → Used₂ y → Used (x ++ y)) :
    Uses Used (p >>= g) := by
  intro ts b rest hr
  obtain ⟨a, mid, ha, hb⟩ := bind_eq_ok hr
  obtain ⟨x, rfl, hx⟩ := hp ha
  obtain ⟨y, rfl, hy⟩ := hg a hb
  exact ⟨x ++ y, (List.append_assoc x y rest).symm, hused x y hx hy⟩

theorem uses_map (hp : Uses Used p) (h : α → β) : Uses Used (p >>= fun a => pure (h a)) := by
  intro ts b rest hr
  obtain ⟨a, mid, ha, hb⟩ := bind_eq_ok hr
  cases hb
  exact hp ha

theorem uses_get {g : List Lexeme → Rule β} (hg : ∀ ts, Uses Used (g ts)) :
    Uses Used (get >>= g) := by
  intro ts b rest hr
  exact hg ts hr

theorem uses_kind {g : Kind → Rule β} (hg : ∀ k, Uses Used (g k)) : Uses Used (kind >>= g) := by
  intro ts b rest hr
  exact hg (kindAt 0 ts) hr

theorem uses_pure (h : Used []) (a : α) : Uses Used (pure a) := by
  intro ts b rest hr
  cases hr
  exact ⟨[], rfl, h⟩

theorem uses_ite {c : Prop} [Decidable c] (hp : Uses Used p) (hq : Uses Used q) :
    Uses Used (if c then p else q) := by
  split
  · exact hp
  · exact hq

theorem uses_failAt_bind (here : List Lexeme) (cause : Cause) :
    Uses Used (failAt here cause >>= g) :=
  fun _ _ _ hr => nomatch hr

theorem uses_fail_bind (cause : Cause) : Uses Used (fail cause >>= g) :=
  fun _ _ _ hr => nomatch hr

theorem uses_unexpected_bind (expected : String) : Uses Used (unexpected expected >>= g) :=
  fun _ _ _ hr => nomatch hr

instance (all : List Lexeme) : SuffixClosed (· <:+ all) where
  of_suffix hrest hts := hrest.trans hts

theorem yields_of_uses {all : List Lexeme} (h : Uses Anything p) :
    Yields (· <:+ all) p (fun _ => True) := by
  intro ts a rest hts hr
  obtain ⟨x, rfl, _⟩ := h hr
  exact ⟨(List.suffix_append x rest).trans hts, trivial⟩

end

/-- A tag is closed at the end: by a slash, perhaps a name, and an angle. -/
def Closes (x : List Lexeme) : Prop :=
  ∃ y slash name close, x = y ++ slash :: (name ++ [close]) ∧ slash.kind = .symbol .slash ∧
    (∀ t ∈ name, t.kind = .ident ∨ t.kind = .symbol .minus) ∧ close.kind = .symbol .rangle

theorem Closes.behind {y : List Lexeme} (h : Closes y) (x : List Lexeme) : Closes (x ++ y) := by
  obtain ⟨z, slash, name, close, rfl, hslash, hname, hclose⟩ := h
  exact ⟨x ++ z, slash, name, close, (List.append_assoc x z _).symm, hslash, hname, hclose⟩

theorem Closes.getLast {x y : List Lexeme} {t : Lexeme} (h : Closes (x ++ y))
    (ht : t ∈ y.getLast?) : t.kind = .symbol .rangle := by
  obtain ⟨z, slash, name, close, heq, _, _, hclose⟩ := h
  have hlast : (x ++ y).getLast? = some close := by
    rw [heq, ← List.cons_append, ← List.append_assoc, List.getLast?_concat]
  rw [List.getLast?_append, ht] at hlast
  cases hlast
  exact hclose

theorem closes_behind {α β : Type} {p : Rule α} {g : α → Rule β} (hp : Uses Anything p)
    (hg : ∀ a, Uses Closes (g a)) : Uses Closes (p >>= g) :=
  uses_bind hp hg fun x _ _ hy => hy.behind x

theorem uses_skip : Uses Anything skip := by
  intro ts a rest hr
  cases hr
  exact ⟨ts.take 1, (ts.take_append_drop 1).symm.trans (by rw [List.drop_one]), trivial⟩

theorem uses_line : Uses Anything line := by
  intro ts n rest hr
  cases hr
  exact ⟨[], rfl, trivial⟩

theorem closes_closingTag (expected : String) : Uses Closes (closingTag expected) := by
  intro ts a rest hr
  obtain ⟨angle, slash, name, close, rfl, _, hslash, hname, hclose⟩ := closingTag_eq_ok hr
  refine ⟨angle :: slash :: (name ++ [close]), by simp, ?_⟩
  exact ⟨[angle], slash, name, close, rfl, hslash, hname, hclose⟩

section

variable {node : Rule Markup}

theorem closes_children
    (h : Follows (.void id) (AtKind (.symbol .langle)) Anything (Markup.renumber id) node node)
    (parent : String) : Uses Closes (children node parent) := by
  have hmany : Follows (Coupling.void id).inner Anywhere Anything (List.map (Markup.renumber id))
      (many (childRound node parent)) (many (childRound node parent)) :=
    follows_many (follows_childRound h parent)
  refine closes_behind (fun _ _ _ hr => hmany.uses trivial hr) fun nodes => ?_
  exact uses_map (closes_closingTag parent) fun _ => nodes

theorem closes_element
    (h : Follows (.void id) (AtKind (.symbol .langle)) Anything (Markup.renumber id) node node)
    (line : Nat) : Uses Closes (element node line) := by
  refine closes_behind (follows_hyphenated _).usesOf fun tag => ?_
  refine closes_behind (follows_manyOf follows_attributeRound).usesOf fun attributes => ?_
  intro ts e rest hr
  obtain ⟨closed, mid, heat, hr⟩ := bind_eq_ok hr
  rw [eat_apply] at heat
  split at heat
  next hk =>
    cases heat
    obtain ⟨_, _, hexpect, hr⟩ := bind_eq_ok hr
    cases hr
    obtain ⟨close, hmid, hclose⟩ := expect_eq_ok hexpect nofun
    cases ts with
    | nil => cases hmid
    | cons slash us =>
      obtain rfl : us = close :: rest := hmid
      exact ⟨[slash, close], rfl, [], slash, [], close, rfl, hk, by simp, hclose⟩
  next =>
    cases heat
    have hopen : Uses Anything (expect (.symbol .rangle)) :=
      (follows_expect (s := .rangle) nofun).usesOf
    exact closes_behind hopen (fun _ => uses_map (closes_children h tag) _) hr

end

section

variable {node : List String → Rule Markup}

theorem closes_eachLoop
    (h : ∀ outer, Follows (.void id) (AtKind (.symbol .langle)) Anything (Markup.renumber id)
      (node outer) (node outer)) (outer : List String) : Uses Closes (eachLoop node outer) := by
  have hopen : Uses Anything (expect (.symbol .rangle)) :=
    (follows_expect (s := .rangle) nofun).usesOf
  refine uses_get fun here => closes_behind uses_skip fun _ => ?_
  refine closes_behind (follows_ident _).usesOf fun binding => ?_
  refine closes_behind follows_typeAnnotation.usesOf fun itemType => ?_
  refine uses_get fun _ => uses_ite ?_ (uses_unexpected_bind _)
  refine closes_behind uses_skip fun _ => ?_
  refine closes_behind (follows_ident _).usesOf fun collection => ?_
  refine closes_behind (follows_memberChain follows_expression _).usesOf fun source => ?_
  refine closes_behind hopen fun _ => ?_
  refine closes_behind follows_skipNewlines.usesOf fun _ => ?_
  refine uses_get fun _ => uses_ite ?_ (uses_fail_bind _)
  refine closes_behind uses_line fun line => ?_
  refine closes_behind uses_skip fun _ => ?_
  refine closes_behind (follows_element (h _) rfl).usesOf fun template => ?_
  split
  · exact uses_failAt_bind _ _
  · refine closes_behind follows_skipNewlines.usesOf fun _ => ?_
    refine uses_get fun _ => uses_ite ?_ (uses_fail_bind _)
    exact uses_map (closes_closingTag _) _

theorem closes_nodeStep
    (h : ∀ outer, Follows (.void id) (AtKind (.symbol .langle)) Anything (Markup.renumber id)
      (node outer) (node outer)) (outer : List String) : Uses Closes (nodeStep node outer) := by
  have heat : Uses Anything (eat (.symbol .rangle)) :=
    (follows_eat (s := .rangle) nofun).usesOf
  refine uses_get fun ts => ?_
  refine closes_behind uses_line fun line => ?_
  refine closes_behind uses_skip fun _ => closes_behind heat fun _ => ?_
  refine uses_ite (uses_map (closes_children (h outer) "") _) (uses_ite ?_ ?_)
  · exact closes_eachLoop h outer
  · exact uses_map (closes_element (h outer) line) _

end

/-- A node reads what its step reads with parts that are nodes as well. -/
theorem node_eq_nodeStep (outer : List String) (ts : List Lexeme) :
    ∃ part : List String → Rule Markup, node outer ts = nodeStep part outer ts ∧
      ∀ inner us m rest, part inner us = .ok (m, rest) → node inner us = .ok (m, rest) := by
  refine ⟨fun inner us => if us.length < ts.length then node inner us else unexpected "markup" us,
    ?_, fun inner us m rest hr => ?_⟩
  · change nestFrom _ nodeStep outer ts = _
    rw [nestFrom]
    rfl
  · dsimp only at hr
    split at hr
    next => exact hr
    next => cases hr

theorem follows_part {part : List String → Rule Markup}
    (h : ∀ inner us m rest, part inner us = .ok (m, rest) → node inner us = .ok (m, rest))
    (inner : List String) :
    Follows (.void id) (AtKind (.symbol .langle)) Anything (Markup.renumber id) (part inner)
      (part inner) :=
  ⟨fun _ _ _ hk hr => (follows_node (C := .void id) inner).uses hk (h _ _ _ _ hr),
    fun _ _ _ hrel => hrel.elim⟩

/-- A tree ends with what closes its root. -/
theorem closes_node (outer : List String) : Uses Closes (node outer) := by
  intro ts m rest hr
  obtain ⟨part, hnode, hpart⟩ := node_eq_nodeStep outer ts
  rw [hnode] at hr
  exact closes_nodeStep (follows_part hpart) outer hr

/-- The end is no opening tag: it closes a tag, or it is not of a tag. -/
def Ended (x : List Lexeme) : Prop :=
  Closes x ∨ ∃ y t, x = y ++ [t] ∧ t.kind ≠ .symbol .rangle

theorem Ended.behind {y : List Lexeme} (h : Ended y) (x : List Lexeme) : Ended (x ++ y) := by
  obtain h | ⟨z, t, rfl, ht⟩ := h
  · exact .inl (h.behind x)
  · exact .inr ⟨x ++ z, t, (List.append_assoc x z [t]).symm, ht⟩

def Settled (x : List Lexeme) : Prop := x = [] ∨ Ended x

theorem Settled.append {x y : List Lexeme} (hx : Settled x) (hy : Settled y) :
    Settled (x ++ y) := by
  obtain rfl | hy := hy
  · rwa [List.append_nil]
  · exact .inr (hy.behind x)

theorem settled_skipNewlines : Uses Settled skipNewlines := by
  intro ts a rest hr
  cases hr
  refine ⟨ts.takeWhile (·.kind = .newline), List.takeWhile_append_dropWhile.symm, ?_⟩
  obtain hnil | ⟨y, t, hy⟩ := List.eq_nil_or_concat (ts.takeWhile (·.kind = .newline))
  · exact .inl hnil
  · have ht : t.kind = .newline := by
      have hmem : t ∈ ts.takeWhile (·.kind = .newline) := by simp [hy]
      simpa using List.mem_takeWhile_imp hmem
    exact .inr (.inr ⟨y, t, by simpa using hy, ht ▸ nofun⟩)

theorem ended_behind {α β : Type} {p : Rule α} {g : α → Rule β} (hp : Uses Anything p)
    (hg : ∀ a, Uses Ended (g a)) : Uses Ended (p >>= g) :=
  uses_bind hp hg fun x _ _ hy => hy.behind x

theorem ended_expect {k : Kind} (hk : k ≠ .stop) (hangle : k ≠ .symbol .rangle) :
    Uses Ended (expect k) := by
  intro ts a rest hr
  obtain ⟨t, rfl, ht⟩ := expect_eq_ok hr hk
  exact ⟨[t], rfl, .inr ⟨[], t, rfl, ht ▸ hangle⟩⟩

theorem ended_braced : Uses Ended braced := by
  have hopen : Uses Anything (expect (.symbol .lbrace)) :=
    (follows_expect (s := .lbrace) nofun).usesOf
  refine ended_behind hopen fun _ => ?_
  refine ended_behind follows_skipNewlines.usesOf fun _ => ?_
  refine ended_behind follows_expression.usesOf fun e => ?_
  refine ended_behind follows_skipNewlines.usesOf fun _ => ?_
  exact uses_map (ended_expect (k := .symbol .rbrace) nofun nofun) fun _ => e

theorem settled_textRound : Uses Settled textRound := by
  intro ts r rest hr
  obtain ⟨t, us, hdrop, htext, hround⟩ | ⟨_, hround⟩ := textRound_cases ts
  · rw [hround] at hr
    cases hr
    refine ⟨ts.takeWhile (·.kind = .newline) ++ [t], ?_, ?_⟩
    · rw [List.append_assoc, List.singleton_append, ← hdrop, List.takeWhile_append_dropWhile]
    · refine .inr (.inr ⟨_, t, rfl, fun hangle => ?_⟩)
      rw [hangle] at htext
      cases htext
  · rw [hround] at hr
    cases hr
    exact ⟨[], rfl, .inl rfl⟩

theorem settled_textRun (startsLine : Bool) : Uses Settled (textRun startsLine) := by
  refine uses_get fun before => ?_
  have hmany : Uses Settled (many textRound) := fun _ _ _ hr =>
    many_uses (fun _ _ hx hy => hx.append hy) (fun _ _ _ => @settled_textRound _ _ _) hr
  refine uses_bind hmany ?_ fun _ _ => Settled.append
  exact fun run => uses_get fun behind => uses_pure (.inl rfl) _

/-- Behind a child no tag is left open. -/
theorem settled_childRound {node : Rule Markup} (h : Uses Closes node) (parent : String) :
    Uses Settled (childRound node parent) := by
  refine uses_kind fun front => ?_
  refine uses_bind settled_skipNewlines (fun _ => uses_kind fun k => ?_) fun _ _ => Settled.append
  split
  · exact fun _ _ _ hr => nomatch hr
  · refine uses_get fun ts => uses_ite ?_ ?_
    · exact uses_pure (.inl rfl) _
    · exact uses_map (h.mono fun x hx => .inr (.inl hx)) _
  · exact uses_map (ended_braced.mono fun x hx => .inr hx) _
  · exact fun _ _ _ hr => nomatch hr
  · exact fun _ _ _ hr => nomatch hr
  · exact uses_map (settled_textRun _) _

/-- The lexemes of an element with nothing in it. -/
structure EmptyElement (root : List Lexeme) : Prop where
  kinds : root.map (·.kind) = [.symbol .langle, .ident, .symbol .rangle, .symbol .langle,
    .symbol .slash, .ident, .symbol .rangle]

theorem EmptyElement.cases {root : List Lexeme} (h : EmptyElement root) :
    ∃ angle name close angle' slash name' close',
      root = [angle, name, close, angle', slash, name', close'] ∧
      angle.kind = .symbol .langle ∧ name.kind = .ident ∧ angle'.kind = .symbol .langle ∧
      slash.kind = .symbol .slash ∧ name'.kind = .ident ∧ close.kind = .symbol .rangle := by
  obtain ⟨angle, _, rfl, hangle, hkinds⟩ := List.map_eq_cons_iff.mp h.kinds
  obtain ⟨name, _, rfl, hname, hkinds⟩ := List.map_eq_cons_iff.mp hkinds
  obtain ⟨close, _, rfl, hclose, hkinds⟩ := List.map_eq_cons_iff.mp hkinds
  obtain ⟨angle', _, rfl, hangle', hkinds⟩ := List.map_eq_cons_iff.mp hkinds
  obtain ⟨slash, _, rfl, hslash, hkinds⟩ := List.map_eq_cons_iff.mp hkinds
  obtain ⟨name', _, rfl, hname', hkinds⟩ := List.map_eq_cons_iff.mp hkinds
  obtain ⟨close', _, rfl, _, hkinds⟩ := List.map_eq_cons_iff.mp hkinds
  obtain rfl := List.map_eq_nil_iff.mp hkinds
  exact ⟨angle, name, close, angle', slash, name', close', rfl, hangle, hname, hangle', hslash,
    hname', hclose⟩

/-- Where a closing tag ends with one identifier before its angle, the slash stands before that. -/
theorem closing_eq {x y parts : List Lexeme} {slash close before name close' : Lexeme}
    (h : y ++ slash :: (parts ++ [close]) = x ++ [before, name, close'])
    (hslash : slash.kind = .symbol .slash)
    (hparts : ∀ t ∈ parts, t.kind = .ident ∨ t.kind = .symbol .minus)
    (hname : name.kind = .ident)
    (hbefore : ¬ (before.kind = .ident ∨ before.kind = .symbol .minus)) :
    y = x ∧ slash = before := by
  have hrev := congrArg List.reverse h
  simp only [List.reverse_append, List.reverse_cons, List.reverse_nil, List.nil_append,
    List.cons_append, List.append_assoc] at hrev
  injection hrev with _ hrev
  have hmem : ∀ t ∈ parts.reverse, t.kind = .ident ∨ t.kind = .symbol .minus :=
    fun t ht => hparts t (List.mem_reverse.mp ht)
  cases hlast : parts.reverse with
  | nil =>
    rw [hlast] at hrev
    injection hrev with heq _
    rw [heq, hname] at hslash
    cases hslash
  | cons part others =>
    rw [hlast] at hrev hmem
    injection hrev with _ hrev
    cases others with
    | nil =>
      injection hrev with heq hrev
      exact ⟨List.reverse_inj.mp hrev, heq⟩
    | cons part' others =>
      injection hrev with heq _
      exact absurd (heq ▸ hmem part' (by simp)) hbefore

/-- An opening tag without attributes closes nothing. -/
theorem not_closes_opening {x : List Lexeme} {angle name close : Lexeme}
    (hangle : angle.kind = .symbol .langle) (hname : name.kind = .ident) :
    ¬ Closes (x ++ [angle, name, close]) := by
  rintro ⟨y, slash, parts, close', heq, hslash, hparts, _⟩
  obtain ⟨_, rfl⟩ := closing_eq heq.symm hslash hparts hname (by rw [hangle]; nofun)
  rw [hangle] at hslash
  cases hslash

/-- An empty element closes a tag only at its end. -/
theorem EmptyElement.closes_cases {root x taken rest : List Lexeme} (h : EmptyElement root)
    (hroot : root = taken ++ rest) (hcloses : Closes (x ++ taken)) :
    taken = [] ∨ taken = root := by
  obtain ⟨angle, name, close, angle', slash, name', close', rfl, hangle, hname, hangle', hslash,
    hname', _⟩ := h.cases
  have hlast (t : Lexeme) (hk : t.kind ≠ .symbol .rangle) : taken.getLast? ≠ some t :=
    fun ht => hk (hcloses.getLast ht)
  have hfront : taken <+: [angle, name, close, angle', slash, name', close'] := ⟨rest, hroot.symm⟩
  simp only [List.prefix_cons_iff, List.prefix_nil] at hfront
  obtain rfl | ⟨_, rfl, hfront⟩ := hfront
  · exact .inl rfl
  obtain rfl | ⟨_, rfl, hfront⟩ := hfront
  · exact absurd rfl (hlast angle (hangle ▸ nofun))
  obtain rfl | ⟨_, rfl, hfront⟩ := hfront
  · exact absurd rfl (hlast name (hname ▸ nofun))
  obtain rfl | ⟨_, rfl, hfront⟩ := hfront
  · exact absurd hcloses (not_closes_opening hangle hname)
  obtain rfl | ⟨_, rfl, hfront⟩ := hfront
  · exact absurd rfl (hlast angle' (hangle' ▸ nofun))
  obtain rfl | ⟨_, rfl, hfront⟩ := hfront
  · exact absurd rfl (hlast slash (hslash ▸ nofun))
  obtain rfl | ⟨_, rfl, rfl⟩ := hfront
  · exact absurd rfl (hlast name' (hname' ▸ nofun))
  · exact .inr rfl

/-- What starts before an empty element between tags ends before it: its tag cannot close a tag
that was opened before. -/
theorem children_before_root {node : Rule Markup} {parent : String} {k root rest : List Lexeme}
    {ms : List Markup} (h : Uses Closes node) (hroot : EmptyElement root)
    (hr : children node parent (k ++ root) = .ok (ms, rest)) :
    ∃ k', rest = k' ++ root ∧ k' <:+ k := by
  have hmany : Uses Settled (many (childRound node parent)) := fun _ _ _ hr =>
    many_uses (fun _ _ => Settled.append) (fun _ _ _ => @settled_childRound node h parent _ _ _) hr
  obtain ⟨_, mid, hnodes, hr⟩ := bind_eq_ok hr
  obtain ⟨_, _, hclosing, hr⟩ := bind_eq_ok hr
  cases hr
  obtain ⟨x, hx, hsettled⟩ := hmany hnodes
  obtain ⟨opening, slash, parts, close, rfl, _, hslash, hparts, hclose⟩ := closingTag_eq_ok hclosing
  have hall : k ++ root = (x ++ [opening] ++ slash :: (parts ++ [close])) ++ rest := by
    rw [hx]
    simp
  obtain ⟨taken, htaken, hrest⟩ | ⟨k', rfl, rfl⟩ := List.append_eq_append_iff.mp hall
  · have hcloses : Closes (k ++ taken) :=
      htaken ▸ ⟨x ++ [opening], slash, parts, close, rfl, hslash, hparts, hclose⟩
    obtain rfl | rfl := hroot.closes_cases hrest hcloses
    · exact ⟨[], hrest.symm, List.nil_suffix⟩
    · -- Then the child before the closing tag would have ended with the opening tag.
      exfalso
      obtain ⟨angle, name, close', angle', slash', name', close'', rfl, hangle, hname, hangle',
        hslash', hname', hclose'⟩ := hroot.cases
      have hsplit : x ++ [opening] ++ slash :: (parts ++ [close]) =
          (k ++ [angle, name, close'] ++ [angle']) ++ [slash', name', close''] := by
        rw [htaken]
        simp
      obtain ⟨heq, _⟩ := closing_eq hsplit hslash hparts hname' (by rw [hslash']; nofun)
      obtain ⟨rfl, _⟩ := List.append_inj' heq rfl
      obtain hnil | hcloses | ⟨y, t, hy, ht⟩ := hsettled
      · simp at hnil
      · exact not_closes_opening hangle hname hcloses
      · have hlast : k ++ [angle, name] ++ [close'] = y ++ [t] := by
          rw [← hy, List.append_assoc]
          rfl
        obtain ⟨_, heq⟩ := List.append_inj' hlast rfl
        cases heq
        exact ht hclose'
  · exact ⟨k', rfl, List.suffix_append _ _⟩

/-- An element that is opened on the lines before an empty element is closed on them. -/
theorem element_before_root {node : Rule Markup} {line : Nat} {lines root rest : List Lexeme}
    {e : Element Markup} (h : Uses Closes node) (hroot : EmptyElement root)
    (hlines : ∀ t ∈ lines.getLast?, t.kind = .newline)
    (hr : element node line (lines ++ root) = .ok (e, rest)) :
    ∃ k, rest = k ++ root ∧ k <:+ lines := by
  have hopening {x mid : List Lexeme} (hx : NoOpening x) (heq : lines ++ root = x ++ mid) :
      ∃ k, mid = k ++ root ∧ k <:+ lines := by
    obtain ⟨angle, _, _, _, _, _, _, rfl, hangle, _⟩ := hroot.cases
    obtain ⟨k, rfl, rfl⟩ := hx.within hlines hangle heq
    exact ⟨k, rfl, List.suffix_append x k⟩
  have huses {α : Type} {p : Rule α} {x ts mid : List Lexeme} {a : α} (hp : Uses NoOpening p)
      (hx : NoOpening x) (heq : lines ++ root = x ++ ts) (hr : p ts = .ok (a, mid)) :
      ∃ y, NoOpening y ∧ lines ++ root = y ++ mid := by
    obtain ⟨y, rfl, hy⟩ := hp hr
    exact ⟨x ++ y, Unopened.append hx hy, by rw [heq, List.append_assoc]⟩
  have hexpect : Uses NoOpening (expect (.symbol .rangle)) :=
    (follows_expect (s := .rangle) nofun).usesOf
  have heat : Uses NoOpening (eat (.symbol .slash)) :=
    (follows_eat (s := .slash) nofun).usesOf
  obtain ⟨tag, _, htag, hr⟩ := bind_eq_ok hr
  obtain ⟨x₁, hx₁, heq₁⟩ := huses (follows_hyphenated _).usesOf Unopened.nil rfl htag
  obtain ⟨attributes, _, hattributes, hr⟩ := bind_eq_ok hr
  obtain ⟨x₂, hx₂, heq₂⟩ :=
    huses (follows_manyOf follows_attributeRound).usesOf hx₁ heq₁ hattributes
  obtain ⟨closed, _, hclosed, hr⟩ := bind_eq_ok hr
  obtain ⟨x₃, hx₃, heq₃⟩ := huses heat hx₂ heq₂ hclosed
  cases closed with
  | true =>
    obtain ⟨_, _, hangle, hr⟩ := bind_eq_ok hr
    obtain ⟨x₄, hx₄, heq₄⟩ := huses hexpect hx₃ heq₃ hangle
    cases hr
    exact hopening hx₄ heq₄
  | false =>
    obtain ⟨_, _, hangle, hr⟩ := bind_eq_ok hr
    obtain ⟨x₄, hx₄, heq₄⟩ := huses hexpect hx₃ heq₃ hangle
    obtain ⟨ms, _, hchildren, hr⟩ := bind_eq_ok hr
    cases hr
    obtain ⟨k, rfl, hk⟩ := hopening hx₄ heq₄
    obtain ⟨k', rfl, hk'⟩ := children_before_root h hroot hchildren
    exact ⟨k', rfl, hk'.trans hk⟩

theorem newline_last_of_suffix {ts us : List Lexeme} (h : ∀ t ∈ ts.getLast?, t.kind = .newline)
    (hus : us <:+ ts) : ∀ t ∈ us.getLast?, t.kind = .newline := by
  obtain ⟨x, rfl⟩ := hus
  exact fun t ht => h t (List.mem_getLast?_append_of_mem_getLast? ht)

theorem markup_before_root {lines root rest : List Lexeme} {m : Markup}
    (hroot : EmptyElement root) (hlines : ∀ t ∈ lines.getLast?, t.kind = .newline)
    (hk : kindAt 0 lines = .symbol .langle) (hr : markup (lines ++ root) = .ok (m, rest)) :
    ∃ k, rest = k ++ root ∧ k <:+ lines := by
  cases lines with
  | nil => cases hk
  | cons angle lines =>
    have hne : lines ≠ [] := by
      rintro rfl
      have hnewline := hlines angle rfl
      rw [show angle.kind = .symbol .langle from hk] at hnewline
      cases hnewline
    have hsuffix := List.suffix_cons angle lines
    rw [markup, get_bind_apply] at hr
    split at hr
    next => cases hr
    next hloop =>
      obtain ⟨part, hnode, hpart⟩ := node_eq_nodeStep [] (angle :: lines ++ root)
      have hcloses (inner : List String) : Uses Closes (part inner) :=
        fun _ _ _ hr => closes_node inner (hpart _ _ _ _ hr)
      change node [] (angle :: lines ++ root) = _ at hr
      rw [hnode, nodeStep, get_bind_apply] at hr
      obtain ⟨line, _, hline, hr⟩ := bind_eq_ok hr
      cases hline
      obtain ⟨_, _, hskip, hr⟩ := bind_eq_ok hr
      cases hskip
      obtain ⟨closed, _, heat, hr⟩ := bind_eq_ok hr
      rw [eat_apply] at heat
      cases lines with
      | nil => exact absurd rfl hne
      | cons t lines =>
        split at heat
        next =>
          cases heat
          obtain ⟨ms, _, hchildren, hr⟩ := bind_eq_ok hr
          cases hr
          obtain ⟨k, rfl, hk⟩ := children_before_root (hcloses []) hroot hchildren
          exact ⟨k, rfl, (hk.trans (List.suffix_cons t lines)).trans hsuffix⟩
        next hopen =>
          cases heat
          have hword : ¬ wordAt 1 "each" (angle :: t :: lines ++ root) = true :=
            fun hword => hloop ⟨hopen, hword⟩
          rw [if_neg Bool.false_ne_true, if_neg hword] at hr
          obtain ⟨e, _, helement, hr⟩ := bind_eq_ok hr
          cases hr
          have hlines := newline_last_of_suffix hlines hsuffix
          obtain ⟨k, rfl, hk⟩ := element_before_root (hcloses []) hroot hlines helement
          exact ⟨k, rfl, hk.trans hsuffix⟩

theorem endStatement_eq_ok {ts rest : List Lexeme} (h : endStatement ts = .ok ((), rest)) :
    (∃ newline, ts = newline :: rest ∧ newline.kind = .newline) ∨
      (ts = rest ∧ kindAt 0 ts = .stop) := by
  rw [endStatement, bind_of_ok (kind_apply ts)] at h
  cases hk : kindAt 0 ts with
  | newline =>
    rw [hk] at h
    cases h
    cases ts with
    | nil => cases hk
    | cons t ts => exact .inl ⟨t, rfl, hk⟩
  | stop =>
    rw [hk] at h
    cases h
    exact .inr ⟨rfl, rfl⟩
  | _ =>
    rw [hk] at h
    cases h

/-- What a declaration is made of: a first lexeme, what it starts, and the end of the statement. -/
theorem declaration_eq_ok {ts rest : List Lexeme} {d : Declaration}
    (h : declaration ts = .ok (d, rest)) :
    ∃ t us body x mid, ts = t :: us ∧ declarationBody? t.line t = some body ∧
      body us = .ok (d, mid) ∧ us = x ++ mid ∧ endStatement mid = .ok ((), rest) := by
  rw [declaration, get_bind_apply] at h
  cases ts with
  | nil => cases h
  | cons t us =>
    obtain ⟨hbody, _⟩ | ⟨body, _, hbody, _, _, hfollows⟩ :=
      follows_declarationBody (.void id) Anything (rfl : t.seen id = t.seen id)
    · simp only [List.head?_cons, Option.bind_some, hbody] at h
      cases h
    · simp only [List.head?_cons, Option.bind_some, hbody] at h
      obtain ⟨_, _, hskip, h⟩ := bind_eq_ok h
      cases hskip
      obtain ⟨d', mid, hd, h⟩ := bind_eq_ok h
      obtain ⟨_, _, hend, h⟩ := bind_eq_ok h
      cases h
      obtain ⟨x, hx, _⟩ := hfollows.uses trivial hd
      exact ⟨t, us, body, x, mid, rfl, hbody, hd, hx, hend⟩

theorem declaration_of_body {t : Lexeme} {us mid rest : List Lexeme} {body : Rule Declaration}
    {d : Declaration} (hbody : declarationBody? t.line t = some body)
    (hd : body us = .ok (d, mid)) (hend : endStatement mid = .ok ((), rest)) :
    declaration (t :: us) = .ok (d, rest) := by
  rw [declaration, get_bind_apply]
  simp only [List.head?_cons, Option.bind_some, hbody]
  rw [bind_of_ok (skip_apply _), List.tail_cons, bind_of_ok hd, bind_of_ok hend]
  rfl

theorem declaration_shortens {ts rest : List Lexeme} {d : Declaration}
    (h : declaration ts = .ok (d, rest)) : rest.length < ts.length := by
  obtain ⟨t, _, _, x, mid, rfl, _, _, rfl, hend⟩ := declaration_eq_ok h
  have hle : rest.length ≤ mid.length := by
    obtain ⟨newline, rfl, _⟩ | ⟨rfl, _⟩ := endStatement_eq_ok hend <;> simp
  simp only [List.length_cons, List.length_append]
  omega

/-- A round before the markup: the newlines do not matter, and an angle ends the rounds. -/
theorem leadingRound_apply (ts : List Lexeme) :
    leadingRound ts =
      (if kindAt 0 (ts.dropWhile (·.kind = .newline)) = .stop ∨
          kindAt 0 (ts.dropWhile (·.kind = .newline)) = .symbol .langle then pure .stop
        else do return .more (← declaration) : Rule (Round Declaration))
        (ts.dropWhile (·.kind = .newline)) := by
  have hround : leadingRound = (do
      skipNewlines
      let k ← kind
      if k = .stop ∨ k = .symbol .langle then pure .stop else do return .more (← declaration)) := by
    unfold leadingRound
    refine congrArg (skipNewlines >>= ·) (funext fun _ => ?_)
    refine congrArg (kind >>= ·) (funext fun k => ?_)
    split
    next => rw [if_pos (.inl rfl)]
    next => rw [if_pos (.inr rfl)]
    next hstop hangle => rw [if_neg (not_or.mpr ⟨hstop, hangle⟩)]
  rw [hround]
  rfl

/-- A round behind the markup: the newlines do not matter, and an angle is a fault. -/
theorem trailingRound_apply (ts : List Lexeme) :
    trailingRound ts =
      (if kindAt 0 (ts.dropWhile (·.kind = .newline)) = .stop then pure .stop
        else if kindAt 0 (ts.dropWhile (·.kind = .newline)) = .symbol .langle then
          fail .duplicateMarkup
        else do return .more (← declaration) : Rule (Round Declaration))
        (ts.dropWhile (·.kind = .newline)) := by
  have hround : trailingRound = (do
      skipNewlines
      let k ← kind
      if k = .stop then pure .stop
      else if k = .symbol .langle then fail .duplicateMarkup
      else do return .more (← declaration)) := by
    unfold trailingRound
    refine congrArg (skipNewlines >>= ·) (funext fun _ => ?_)
    refine congrArg (kind >>= ·) (funext fun k => ?_)
    split
    next => rw [if_pos rfl]
    next => rw [if_neg nofun, if_pos rfl]
    next hstop hangle => rw [if_neg hstop, if_neg hangle]
  rw [hround]
  rfl

theorem kind_of_declaration {ts rest : List Lexeme} {d : Declaration}
    (h : declaration ts = .ok (d, rest)) :
    kindAt 0 ts ≠ .stop ∧ kindAt 0 ts ≠ .newline ∧ kindAt 0 ts ≠ .symbol .langle := by
  obtain ⟨t, us, body, _, _, rfl, hbody, _⟩ := declaration_eq_ok h
  unfold declarationBody? at hbody
  refine ⟨fun hk => ?_, fun hk => ?_, fun hk => ?_⟩
  all_goals
    rw [show t.kind = _ from hk] at hbody
    cases hbody

theorem leadingRound_eq_ok {ts rest : List Lexeme} {r : Round Declaration} :
    leadingRound ts = .ok (r, rest) ↔
      (r = .stop ∧ rest = ts.dropWhile (·.kind = .newline) ∧
        (kindAt 0 rest = .stop ∨ kindAt 0 rest = .symbol .langle)) ∨
      ∃ d, r = .more d ∧ declaration (ts.dropWhile (·.kind = .newline)) = .ok (d, rest) := by
  rw [leadingRound_apply]
  constructor
  · intro h
    split at h
    next hk => cases h; exact .inl ⟨rfl, rfl, hk⟩
    next =>
      obtain ⟨d, _, hd, h⟩ := bind_eq_ok h
      cases h
      exact .inr ⟨d, rfl, hd⟩
  · rintro (⟨rfl, rfl, hk⟩ | ⟨d, rfl, hd⟩)
    · rw [if_pos hk]
      rfl
    · obtain ⟨hstop, _, hangle⟩ := kind_of_declaration hd
      rw [if_neg (not_or.mpr ⟨hstop, hangle⟩)]
      exact bind_of_ok hd

theorem trailingRound_eq_ok {ts rest : List Lexeme} {r : Round Declaration} :
    trailingRound ts = .ok (r, rest) ↔
      (r = .stop ∧ rest = ts.dropWhile (·.kind = .newline) ∧ kindAt 0 rest = .stop) ∨
      ∃ d, r = .more d ∧ declaration (ts.dropWhile (·.kind = .newline)) = .ok (d, rest) := by
  rw [trailingRound_apply]
  constructor
  · intro h
    split at h
    next hk => cases h; exact .inl ⟨rfl, rfl, hk⟩
    next =>
      split at h
      next => cases h
      next =>
        obtain ⟨d, _, hd, h⟩ := bind_eq_ok h
        cases h
        exact .inr ⟨d, rfl, hd⟩
  · rintro (⟨rfl, rfl, hk⟩ | ⟨d, rfl, hd⟩)
    · rw [if_pos hk]
      rfl
    · obtain ⟨hstop, _, hangle⟩ := kind_of_declaration hd
      rw [if_neg hstop, if_neg hangle]
      exact bind_of_ok hd

theorem many_leadingRound_eq_nil {ts rest : List Lexeme}
    (h : many leadingRound ts = .ok ([], rest)) : rest = ts.dropWhile (·.kind = .newline) := by
  obtain ⟨_, hrest, _⟩ | ⟨_, heq, _⟩ := leadingRound_eq_ok.mp (many_eq_nil h)
  · exact hrest
  · cases heq

theorem many_trailingRound_eq_nil {ts rest : List Lexeme}
    (h : many trailingRound ts = .ok ([], rest)) :
    kindAt 0 (ts.dropWhile (·.kind = .newline)) = .stop := by
  obtain ⟨_, rfl, hstop⟩ | ⟨_, heq, _⟩ := trailingRound_eq_ok.mp (many_eq_nil h)
  · exact hstop
  · cases heq

/-- Behind the markup no second root can follow. -/
theorem trailing_before_root {k root rest : List Lexeme} {ds : List Declaration}
    (hroot : EmptyElement root) (hlines : ∀ t ∈ k.getLast?, t.kind = .newline)
    (hstop : ∀ t ∈ k, t.kind ≠ .stop) : many trailingRound (k ++ root) ≠ .ok (ds, rest) := by
  intro hr
  obtain ⟨angle, _, _, _, _, _, _, rfl, hangle, _⟩ := hroot.cases
  have huses : Follows (.void id) Anywhere NoOpening (List.map (Declaration.renumber id))
      (many trailingRound) (many trailingRound) := follows_many follows_trailingRound
  obtain ⟨x, hx, hopening⟩ := huses.uses trivial hr
  obtain ⟨k', rfl, rfl⟩ := hopening.within hlines hangle hx
  obtain ⟨mid, r, hround, hmore⟩ := many_final hr
  obtain ⟨rfl, _, hk⟩ | ⟨d, rfl, hd⟩ := trailingRound_eq_ok.mp hround
  · cases k' with
    | nil =>
      rw [show angle.kind = .stop from hk] at hangle
      cases hangle
    | cons t k' => exact hstop t (by simp) hk
  · have hlength := (List.dropWhile_suffix (l := mid) (·.kind = .newline)).length_le
    exact hmore d rfl (Nat.lt_of_lt_of_le (declaration_shortens hd) hlength)

theorem closes_markup : Uses Closes markup :=
  uses_get fun _ => uses_ite (uses_fail_bind _) (closes_node [])

/-- What a unit is made of: declarations, the markup with the end of its statement, and more
declarations. -/
theorem unit_eq_ok {name : String} {ts rest : List Lexeme} {c : Component}
    (h : unit name ts = .ok (c, rest)) :
    ∃ leading tree trailing mid behind behind', many leadingRound ts = .ok (leading, mid) ∧
      kindAt 0 mid = .symbol .langle ∧ markup mid = .ok (tree, behind) ∧
      endStatement behind = .ok ((), behind') ∧
      many trailingRound behind' = .ok (trailing, rest) ∧
      c = .ofDeclarations name (leading ++ trailing) tree := by
  obtain ⟨leading, mid, hleading, h⟩ := bind_eq_ok h
  rw [bind_of_ok (kind_apply _)] at h
  split at h
  next hk =>
    obtain ⟨tree, behind, htree, h⟩ := bind_eq_ok h
    obtain ⟨_, behind', hend, h⟩ := bind_eq_ok h
    obtain ⟨trailing, _, htrailing, h⟩ := bind_eq_ok h
    cases h
    exact ⟨leading, tree, trailing, mid, behind, behind', hleading, hk, htree, hend, htrailing, rfl⟩
  next => cases h

theorem EmptyElement.kindAt_zero {root : List Lexeme} (h : EmptyElement root) :
    kindAt 0 root = .symbol .langle := by
  obtain ⟨angle, _, _, _, _, _, _, rfl, hangle, _⟩ := h.cases
  exact hangle

/-- An empty element that is the root leaves nothing behind. -/
theorem EmptyElement.markup_eq_ok {root rest : List Lexeme} {m : Markup} (h : EmptyElement root)
    (hr : markup root = .ok (m, rest)) : rest = [] := by
  obtain ⟨x, hx, hcloses⟩ := closes_markup hr
  obtain rfl | rfl := h.closes_cases hx (x := []) hcloses
  · obtain ⟨_, _, _, _, hnil, _⟩ := hcloses
    simp at hnil
  · exact List.self_eq_append_right.mp hx

/-- A root on the lines before an empty element would make that element a second one. -/
theorem no_second_root {lines root mid mid' rest : List Lexeme} {m : Markup}
    {ds : List Declaration} (hroot : EmptyElement root)
    (hlines : ∀ t ∈ lines.getLast?, t.kind = .newline) (hstop : ∀ t ∈ lines, t.kind ≠ .stop)
    (hk : kindAt 0 lines = .symbol .langle) (hm : markup (lines ++ root) = .ok (m, mid))
    (hend : endStatement mid = .ok ((), mid')) : many trailingRound mid' ≠ .ok (ds, rest) := by
  obtain ⟨k, rfl, hsuffix⟩ := markup_before_root hroot hlines hk hm
  have hangle := hroot.kindAt_zero
  cases k with
  | nil =>
    rw [List.nil_append] at hend
    obtain ⟨newline, rfl, hnewline⟩ | ⟨_, hk⟩ := endStatement_eq_ok hend
    · rw [show newline.kind = .symbol .langle from hangle] at hnewline
      cases hnewline
    · rw [hangle] at hk
      cases hk
  | cons t k =>
    obtain ⟨_, heq, _⟩ | ⟨_, hk⟩ := endStatement_eq_ok hend
    · injection heq with _ heq
      subst heq
      have hsuffix := (List.suffix_cons t k).trans hsuffix
      exact trailing_before_root hroot (newline_last_of_suffix hlines hsuffix)
        fun u hu => hstop u (hsuffix.subset hu)
    · exact absurd hk (hstop t (hsuffix.subset (by simp)))

/-- A unit that ends with an empty element behind a newline has it as its root, with all its
declarations before it. -/
theorem unit_before_root {name : String} {lines root rest : List Lexeme} {c : Component}
    (hroot : EmptyElement root) (hlines : ∀ t ∈ lines.getLast?, t.kind = .newline)
    (hstop : ∀ t ∈ lines, t.kind ≠ .stop) (hr : unit name (lines ++ root) = .ok (c, rest)) :
    ∃ leading tree, many leadingRound (lines ++ root) = .ok (leading, root) ∧
      c = .ofDeclarations name leading tree := by
  have huses : Follows (.void id) Anywhere NoOpening (List.map (Declaration.renumber id))
      (many leadingRound) (many leadingRound) := follows_many follows_leadingRound
  obtain ⟨angle, _, _, _, _, _, _, hfront, hangle, _⟩ := hroot.cases
  obtain ⟨leading, tree, trailing, mid, behind, behind', hleading, hk, htree, hend, htrailing,
    rfl⟩ := unit_eq_ok hr
  obtain ⟨x, hx, hopening⟩ := huses.uses trivial hleading
  rw [hfront] at hx
  obtain ⟨k, rfl, hmid⟩ := hopening.within hlines hangle hx
  rw [← hfront] at hmid
  subst hmid
  cases k with
  | nil =>
    obtain rfl := hroot.markup_eq_ok htree
    obtain ⟨_, heq, _⟩ | ⟨rfl, _⟩ := endStatement_eq_ok hend
    · cases heq
    have hnone : many trailingRound [] = .ok ([], []) :=
      many_of_stop (trailingRound_eq_ok.mpr (.inl ⟨rfl, rfl, rfl⟩))
    rw [hnone] at htrailing
    cases htrailing
    exact ⟨leading, tree, hleading, by rw [List.append_nil]⟩
  | cons t k =>
    have hlines := newline_last_of_suffix hlines (List.suffix_append x (t :: k))
    have hstop (u : Lexeme) (hu : u ∈ t :: k) : u.kind ≠ .stop :=
      hstop u (List.mem_append_right x hu)
    exact absurd htrailing (no_second_root hroot hlines hstop hk htree hend)

end Rule

end Sigil
