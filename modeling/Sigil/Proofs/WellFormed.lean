import Mathlib.Data.List.Chain
import Sigil.Markup.Layout
import Sigil.Proofs.Boundaries
import Sigil.Proofs.Parts

namespace Sigil

/-- What is asked of a tree and its children: a text is not empty and no other text stands next to
it, and what closes itself has no children. -/
structure Markup.Tidy (m : Markup) : Prop where
  nonempty : m ≠ .text ""
  separated : m.parts.IsChain fun a b => ¬ (a.isText ∧ b.isText)
  childless {e : Element Markup} : m = .element e → e.selfClosing → e.children = []

namespace Rule

open Sigil.Parser

theorem textRun_eq_ok {startsLine : Bool} {ts rest : List Lexeme} {m : Markup}
    (h : textRun startsLine ts = .ok (m, rest)) :
    ∃ run, many textRound ts = .ok (run, rest) ∧
      m = .text ((if startsLine then "" else blankAtFront ts) ++ joinText run ++
        blankAtFront rest) := by
  unfold textRun at h
  rw [get_bind_apply] at h
  obtain ⟨run, mid, hrun, h⟩ := bind_eq_ok h
  cases h
  exact ⟨run, hrun, rfl⟩

theorem kindAt_behind_newlines (ts : List Lexeme) :
    kindAt 0 (ts.dropWhile (·.kind = .newline)) ≠ .newline := by
  cases hdrop : ts.dropWhile (·.kind = .newline) with
  | nil => simp [kindAt]
  | cons t us =>
    have hhead := List.head?_dropWhile_not (fun t : Lexeme => decide (t.kind = .newline)) ts
    rw [hdrop] at hhead
    simpa [kindAt] using hhead

/-- What one round of children reads, behind the newlines before it. -/
theorem childRound_eq_ok {node : Rule Markup} {parent : String} {ts rest : List Lexeme}
    {r : Round Markup} (h : childRound node parent ts = .ok (r, rest)) :
    r = .stop ∨
      (∃ m, r = .more m ∧ node (ts.dropWhile (·.kind = .newline)) = .ok (m, rest)) ∨
      (∃ e, r = .more (.interpolation e)) ∨
      ∃ m startsLine, r = .more m ∧ isText (kindAt 0 (ts.dropWhile (·.kind = .newline))) ∧
        textRun startsLine (ts.dropWhile (·.kind = .newline)) = .ok (m, rest) := by
  have hline := kindAt_behind_newlines ts
  unfold childRound at h
  rw [bind_of_ok (kind_apply ts)] at h
  obtain ⟨_, _, hskip, h⟩ := bind_eq_ok h
  cases hskip
  rw [bind_of_ok (kind_apply _)] at h
  generalize kindAt 0 (ts.dropWhile (·.kind = .newline)) = k at h hline ⊢
  split at h
  next => cases h
  next =>
    rw [get_bind_apply] at h
    split at h
    next => cases h; exact .inl rfl
    next =>
      obtain ⟨m, mid, hm, h⟩ := bind_eq_ok h
      cases h
      exact .inr (.inl ⟨m, rfl, hm⟩)
  next =>
    obtain ⟨e, mid, _, h⟩ := bind_eq_ok h
    cases h
    exact .inr (.inr (.inl ⟨e, rfl⟩))
  next => cases h
  next => cases h
  next hstop hlangle hlbrace hrangle hrbrace =>
    obtain ⟨m, mid, hm, h⟩ := bind_eq_ok h
    cases h
    refine .inr (.inr (.inr ⟨m, _, rfl, ?_, hm⟩))
    unfold isText
    split <;> simp_all

/-- A text ends only where no more text follows, be it behind newlines. -/
theorem many_textRound_final {ts rest : List Lexeme} {run : List Lexeme}
    (h : many textRound ts = .ok (run, rest)) :
    isText (kindAt 0 (rest.dropWhile (·.kind = .newline))) = false := by
  obtain ⟨mid, r, hround, hmore⟩ := many_final h
  rcases textRound_cases mid with ⟨t, behind, hdrop, _, htext⟩ | ⟨hno, hstop⟩
  · cases htext.symm.trans hround
    have hsuffix := List.dropWhile_suffix (fun t : Lexeme => t.kind = .newline) (l := mid)
    rw [hdrop] at hsuffix
    have hshorter : rest.length + 1 ≤ mid.length := hsuffix.length_le
    exact absurd hshorter (hmore t rfl)
  · cases hstop.symm.trans hround
    exact hno

theorem yields_textRound_nonempty :
    Yields Lexeme.AllScanned textRound (Round.All fun t => t.text ≠ "") := by
  intro ts r rest hts hr
  have hsuffix := List.dropWhile_suffix (fun t : Lexeme => t.kind = .newline) (l := ts)
  rcases textRound_cases ts with ⟨t, behind, hdrop, hkind, htext⟩ | ⟨_, hstop⟩
  · cases htext.symm.trans hr
    rw [hdrop] at hsuffix
    obtain ⟨ht, hrest⟩ := List.forall_mem_cons.mp (SuffixClosed.of_suffix hsuffix hts)
    refine ⟨hrest, ht.nonempty ?_⟩
    intro hk
    rw [hk] at hkind
    cases hkind
  · cases hstop.symm.trans hr
    exact ⟨hts, trivial⟩

theorem joinText_ne_empty {t : Lexeme} {ts : List Lexeme} (h : t.text ≠ "") :
    joinText (t :: ts) ≠ "" := by
  change ts.foldl (fun s t => s ++ blankBefore t ++ t.text) t.text ≠ ""
  refine List.foldlRecOn (motive := fun s => s ≠ "") ts _ h fun s hs t _ => ?_
  simp [hs]

/-- A text that starts at text is not empty. -/
theorem textRun_ne_empty {startsLine : Bool} {ts rest : List Lexeme} {m : Markup}
    (hts : Lexeme.AllScanned ts) (htext : isText (kindAt 0 ts))
    (h : textRun startsLine ts = .ok (m, rest)) : m ≠ .text "" := by
  obtain ⟨run, hrun, rfl⟩ := textRun_eq_ok h
  cases run with
  | nil =>
    have hstop := many_eq_nil hrun
    cases ts with
    | nil => cases htext
    | cons t ts =>
      have hdrop : (t :: ts).dropWhile (·.kind = .newline) = t :: ts := by
        have hne : t.kind ≠ .newline := isText_ne_newline htext
        simp [hne]
      cases (textRound_of_text hdrop htext).symm.trans hstop
  | cons t run =>
    have hne := (yields_many yields_textRound_nonempty hts hrun).2 t (by simp)
    simp [joinText_ne_empty hne]

/-- All that is within the siblings is tidy, and no two texts are next to each other. -/
def TidySiblings (ms : List Markup) : Prop :=
  (ms.IsChain fun a b => ¬ (a.isText ∧ b.isText)) ∧
    ∀ m ∈ ms, ∀ n, Within Markup.parts m n → n.Tidy

/-- A tree that is no text and within which all is tidy. -/
def TidyNode (m : Markup) : Prop :=
  m.isText = false ∧ ∀ n, Within Markup.parts m n → n.Tidy

section

variable {node : Rule Markup} {parent : String}

theorem tidy_leaf {m : Markup} (hparts : m.parts = []) (hnonempty : m ≠ .text "")
    (helement : ∀ e, m ≠ .element e) : ∀ n, Within Markup.parts m n → n.Tidy := by
  refine Within.forall_of_parts ⟨hnonempty, ?_, fun he => absurd he (helement _)⟩ ?_
  · rw [hparts]
    exact .nil
  · rw [hparts]
    exact fun a ha => by cases ha

theorem yields_childRound_tidy (hnode : Yields Lexeme.AllScanned node TidyNode) :
    Yields Lexeme.AllScanned (childRound node parent)
      (Round.All fun m => ∀ n, Within Markup.parts m n → n.Tidy) := by
  intro ts r rest hts hr
  have hscanned := yields_childRound (P := fun _ => True) (hnode.mono fun _ _ => trivial)
    (fun startsLine => (yields_textRun startsLine).mono fun _ _ => trivial)
    (yields_braced.mono fun _ _ => trivial) parent hts hr
  have hbehind : Lexeme.AllScanned (ts.dropWhile (·.kind = .newline)) :=
    SuffixClosed.of_suffix (List.dropWhile_suffix _) hts
  refine ⟨hscanned.1, ?_⟩
  rcases childRound_eq_ok hr with rfl | ⟨m, rfl, hm⟩ | ⟨e, rfl⟩ | ⟨m, startsLine, rfl, htext, hm⟩
  · trivial
  · exact (hnode hbehind hm).2.2
  · exact tidy_leaf rfl (by simp) (by simp)
  · have hnonempty := textRun_ne_empty hbehind htext hm
    obtain ⟨run, _, rfl⟩ := textRun_eq_ok hm
    exact tidy_leaf rfl hnonempty (by simp)

/-- Where a round of children reads a text, text is in front of it and none behind it. -/
theorem childRound_text {ts rest : List Lexeme} {r : Round Markup}
    (hnode : Yields Lexeme.AllScanned node TidyNode) (hts : Lexeme.AllScanned ts)
    (h : childRound node parent ts = .ok (r, rest)) :
    Round.All (fun m => m.isText → isText (kindAt 0 (ts.dropWhile (·.kind = .newline))) ∧
      isText (kindAt 0 (rest.dropWhile (·.kind = .newline))) = false) r := by
  rcases childRound_eq_ok h with rfl | ⟨m, rfl, hm⟩ | ⟨e, rfl⟩ | ⟨m, startsLine, rfl, htext, hm⟩
  · trivial
  · intro hmtext
    have hno := (hnode (SuffixClosed.of_suffix (List.dropWhile_suffix _) hts) hm).2.1
    rw [hno] at hmtext
    cases hmtext
  · exact fun he => by cases he
  · obtain ⟨run, hrun, _⟩ := textRun_eq_ok hm
    exact fun _ => ⟨htext, many_textRound_final hrun⟩

theorem separated_of_many (hnode : Yields Lexeme.AllScanned node TidyNode) {ts rest : List Lexeme}
    {ms : List Markup} (hts : Lexeme.AllScanned ts)
    (h : many (childRound node parent) ts = .ok (ms, rest)) :
    ms.IsChain fun a b => ¬ (a.isText ∧ b.isText) := by
  induction ms generalizing ts with
  | nil => exact .nil
  | cons m ms ih =>
    rcases many_eq_cons h with ⟨mid, hm, hms⟩ | ⟨rfl, _⟩ | ⟨rfl, _⟩
    · have hmid := (yields_childRound_tidy hnode hts hm).1
      cases ms with
      | nil => exact .singleton _
      | cons next ms =>
        refine List.isChain_cons_cons.mpr ⟨fun ⟨hfirst, hsecond⟩ => ?_, ih hmid hms⟩
        -- Behind the first text there is no text, and the second starts with it.
        have hbehind := (childRound_text hnode hts hm hfirst).2
        have hfront : isText (kindAt 0 (mid.dropWhile (·.kind = .newline))) = true := by
          rcases many_eq_cons hms with ⟨_, hnext, _⟩ | ⟨_, hnext⟩ | ⟨_, hnext, _⟩
          all_goals exact (childRound_text hnode hmid hnext hsecond).1
        rw [hbehind] at hfront
        cases hfront
    · exact .singleton _
    · exact .singleton _

end

theorem tidy_inherited :
    Inherited Lexeme.AllScanned OneLine Attribute.Spelled (fun s => isName s)
      (fun t? => ∀ t ∈ t?, t.Spelled) (Phrase .source) (fun _ => TidyNode)
      (fun _ => TidySiblings) where
  name := spelled_inherited.name
  attr := spelled_inherited.attr
  siblings parent hnode ts ms rest hts h := by
    obtain ⟨hrest, hms⟩ := yields_many (yields_childRound_tidy hnode) hts h
    exact ⟨hrest, separated_of_many hnode hts h, hms⟩
  ident := spelled_inherited.ident
  type? := spelled_inherited.type?
  source := spelled_inherited.source
  childless _ _ := ⟨rfl, Within.forall_of_parts ⟨nofun, .nil, fun he _ => by cases he; rfl⟩
    fun a ha => by cases ha⟩
  element _ _ hchildren :=
    ⟨rfl, Within.forall_of_parts ⟨nofun, hchildren.1, fun he hself => by cases he; cases hself⟩
      hchildren.2⟩
  fragment hchildren :=
    ⟨rfl, Within.forall_of_parts ⟨nofun, hchildren.1, nofun⟩ hchildren.2⟩
  each _ _ _ htemplate _ :=
    ⟨rfl, Within.forall_of_parts ⟨nofun, .singleton _, nofun⟩
      (List.forall_mem_singleton.mpr htemplate.2)⟩

end Rule

namespace Component

/-- The trees of the markup of a component. -/
def HasTree (c : Component) (m : Markup) : Prop := Within Markup.parts c.markup m

/-- The expressions that the declarations and the trees of a component hold in a role. -/
def HasExpr (c : Component) (role : Role) (e : Expr) : Prop :=
  (∃ d ∈ c.declarations, (role, e) ∈ d.exprs) ∨ ∃ m, c.HasTree m ∧ (role, e) ∈ m.exprs

def HasType (c : Component) (t : TypeExpr) : Prop :=
  (∃ d ∈ c.declarations, t ∈ d.type?) ∨ ∃ m, c.HasTree m ∧ t ∈ m.type?

/-- The texts anywhere in a component, its name apart. -/
inductive HasText (c : Component) : String → Prop where
  | declaration {d : Declaration} {s : String} : d ∈ c.declarations → s ∈ d.texts → HasText c s
  | tree {m : Markup} {s : String} : c.HasTree m → s ∈ m.texts → HasText c s
  | expr {role : Role} {e p : Expr} {s : String} :
      c.HasExpr role e → Within Expr.parts e p → s ∈ p.texts → HasText c s
  | type {t u : TypeExpr} {s : String} :
      c.HasType t → Within TypeExpr.parts t u → s ∈ u.texts → HasText c s

/-- What can be relied on in a component that is read off a source. -/
structure WellFormed (c : Component) : Prop where
  root : (∃ e, c.markup = .element e) ∨ ∃ children line, c.markup = .fragment children line
  tidy {m : Markup} : c.HasTree m → m.Tidy
  /-- The source of a loop is a name with members and methods read off it. -/
  source {e : Expr} : c.HasExpr .source e →
    ∃ (name : String) (suffixes : List Suffix), e = suffixes.foldl Suffix.apply (.ident name) ∧
      ∀ s ∈ suffixes, ∀ arg ∈ s.args, arg.Named
  shaped {role : Role} {e p : Expr} : c.HasExpr role e → Within Expr.parts e p → p.Shaped
  named {role : Role} {e : Expr} : c.HasExpr role e → role ≠ .source → e.Named
  /-- Only an entry of a list can be spread, be it a list of a declaration or one within an
  expression. -/
  entry {role : Role} {e : Expr} : c.HasExpr role e → e.isSpread → role = .entry
  operand {role : Role} {e p : Expr} : c.HasExpr role e → Within Expr.parts e p →
    ∀ o ∈ p.operands, o.isSpread = false
  oneLine {s : String} : c.HasText s → OneLine s

namespace Spelled

variable {c : Component}

theorem tree (h : c.Spelled) {m : Markup} (hm : c.HasTree m) : m.Spelled :=
  hm.of_step (fun _ ha => ha.of_mem_parts) h.markup

theorem phrase (h : c.Spelled) {role : Role} {e : Expr} (he : c.HasExpr role e) :
    Phrase role e := by
  rcases he with ⟨d, hd, he⟩ | ⟨m, hm, he⟩
  · exact (h.declaration hd).phrase _ he
  · exact (h.tree hm).phrase _ he

theorem type (h : c.Spelled) {t : TypeExpr} (ht : c.HasType t) : t.Spelled := by
  rcases ht with ⟨d, hd, ht⟩ | ⟨m, hm, ht⟩
  · exact (h.declaration hd).type t ht
  · exact (h.tree hm).type t ht

theorem oneLine (h : c.Spelled) {s : String} (hs : c.HasText s) : OneLine s := by
  cases hs with
  | declaration hd hs => exact (h.declaration hd).oneLine s hs
  | tree hm hs => exact (h.tree hm).oneLine s hs
  | expr he hp hs =>
    obtain ⟨_, _, hphrase⟩ := (h.phrase he).of_within hp
    exact hphrase.oneLine s hs
  | type ht hu hs =>
    have hspelled := hu.of_step (fun _ ha => ha.of_mem_parts) (h.type ht)
    exact hspelled.oneLine s hs

theorem root_cases (h : c.Spelled) :
    (∃ e, c.markup = .element e) ∨ ∃ children line, c.markup = .fragment children line := by
  obtain ⟨line, hline, _⟩ := h.root
  cases hm : c.markup with
  | element e => exact .inl ⟨e, rfl⟩
  | fragment children line => exact .inr ⟨children, line, rfl⟩
  | interpolation _ | text _ | each _ _ _ _ => rw [hm] at hline; cases hline

theorem root_isText (h : c.Spelled) : c.markup.isText = false := by
  rcases h.root_cases with ⟨e, he⟩ | ⟨children, line, he⟩ <;> rw [he] <;> rfl

/-- A component that is spelled as it is read is well formed if its trees are tidy. -/
theorem wellFormed (h : c.Spelled) (htidy : ∀ m, c.HasTree m → m.Tidy) : c.WellFormed where
  root := h.root_cases
  tidy := htidy _
  source he := by
    obtain ⟨name, suffixes, rfl, hs⟩ := (h.phrase he).source_cases
    refine ⟨name, suffixes, rfl, fun s hmem arg harg => ?_⟩
    have hspelled := hs s hmem
    cases s with
    | member _ => cases harg
    | method _ args => exact (hspelled.2 arg harg).named nofun
  shaped he hp := by
    obtain ⟨_, _, hphrase⟩ := (h.phrase he).of_within hp
    exact hphrase.shaped
  named he hrole := (h.phrase he).named hrole
  entry {role e} he hspread := by
    by_contra hrole
    rw [(h.phrase he).not_isSpread hrole] at hspread
    cases hspread
  operand he hp := by
    obtain ⟨_, _, hphrase⟩ := (h.phrase he).of_within hp
    exact hphrase.operand_not_isSpread
  oneLine := h.oneLine

end Spelled

theorem tidy_of_ofSource {name source : String} {c : Component} (h : ofSource name source = .ok c) :
    ∀ m, c.HasTree m → m.Tidy := by
  obtain ⟨tokens, htokens, h⟩ := ofSource_eq_ok h
  obtain ⟨rest, h⟩ := ofTokens_eq_ok h
  obtain ⟨leading, tree, trailing, mid, behind, _, hleading, _, htree, _, _, rfl⟩ :=
    Rule.unit_eq_ok h
  have hmid := (Parser.yields_many (Rule.yields_leadingRound Rule.yields_declaration)
    (lexemes_scanned htokens) hleading).1
  exact (Rule.tidy_inherited.yields_markup hmid htree).2.2

end Component

/-- Whatever is read off a source is well formed. -/
theorem ofSource_wellFormed {name source : String} {c : Component}
    (h : Component.ofSource name source = .ok c) : c.WellFormed :=
  (Component.spelled_of_ofSource h).2.wellFormed (Component.tidy_of_ofSource h)

/-- A text that goes on behind a newline is one child, and a loop over what a literal's name stands
for has a child of its own that closes itself. -/
theorem ofSource_wellFormed_loop :
    ∃ c, Component.ofSource "Rows" ("@xs = [...a, b.c - 1]\n<ul>one\n two" ++
        "<each x in true.rows(...xs)><li k=\x7b() => n += x.n\x7d /></each>three</ul>") = .ok c ∧
      c.markup.parts.map Markup.texts = [["one two"], ["x"], ["three"]] ∧ c.WellFormed := by
  have hread : ((Component.ofSource "Rows" ("@xs = [...a, b.c - 1]\n<ul>one\n two" ++
      "<each x in true.rows(...xs)><li k=\x7b() => n += x.n\x7d /></each>three</ul>")).toOption.map
        fun c => c.markup.parts.map Markup.texts) = some [["one two"], ["x"], ["three"]] := by
    decide +kernel
  obtain ⟨c, hc, hparts⟩ := Option.map_eq_some_iff.mp hread
  have hsource := eq_ok_of_toOption hc
  exact ⟨c, hsource, hparts, ofSource_wellFormed hsource⟩

/-- Two children can both be texts, with another child between them. -/
theorem ofSource_texts_apart :
    ∃ c, Component.ofSource "Component" "<p>a\x7bb\x7dc</p>" = .ok c ∧
      c.markup.parts.map Markup.texts = [["a"], [], ["c"]] ∧
      ¬ c.markup.parts.Pairwise fun a b => ¬ (a.isText ∧ b.isText) := by
  have hread : ((Component.ofSource "Component" "<p>a\x7bb\x7dc</p>").toOption.map fun c =>
      (c.markup.parts.map Markup.texts, c.markup.parts.map Markup.isText)) =
      some ([["a"], [], ["c"]], [true, false, true]) := by
    decide +kernel
  obtain ⟨c, hc, hparts⟩ := Option.map_eq_some_iff.mp hread
  obtain ⟨htexts, hkinds⟩ := Prod.mk.inj hparts
  refine ⟨c, eq_ok_of_toOption hc, htexts, fun hpairs => ?_⟩
  have hno : (c.markup.parts.map Markup.isText).Pairwise
      fun a b : Bool => ¬ (a = true ∧ b = true) :=
    List.pairwise_map.mpr hpairs
  rw [hkinds] at hno
  exact absurd hno (by decide)

end Sigil
