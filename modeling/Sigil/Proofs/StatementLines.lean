import Sigil.Proofs.Boundaries
import Sigil.Proofs.DeclarationOrder
import Sigil.Proofs.FaultPlaces
import Sigil.Proofs.Readings
import Sigil.Text.Lines

namespace Sigil

theorem length_linesOf_cons (c : Char) (cs : List Char) :
    (linesOf (c :: cs)).length =
      if c = '\n' then (linesOf cs).length + 1 else max 1 (linesOf cs).length := by
  split
  next hc =>
    subst hc
    rfl
  next hc =>
    by_cases hreturn : ∃ more, c = '\r' ∧ cs = '\n' :: more
    · obtain ⟨more, rfl, rfl⟩ := hreturn
      have hnext : linesOf ('\n' :: more) = [] :: linesOf more := rfl
      have hboth : linesOf ('\r' :: '\n' :: more) = [] :: linesOf more := rfl
      rw [hnext, hboth, List.length_cons]
      omega
    · rw [linesOf.eq_4 _ _ hc fun more hc hcs => hreturn ⟨more, hc, hcs⟩]
      cases linesOf cs with
      | nil => rfl
      | cons line lines =>
        rw [List.length_cons, List.length_cons]
        omega

/-- A character stands on the line behind as many newlines as stand before it. -/
theorem count_newline_lt (front behind : List Char) (c : Char) :
    front.count '\n' < (linesOf (front ++ c :: behind)).length := by
  induction front with
  | nil =>
    rw [List.nil_append, length_linesOf_cons, List.count_nil]
    split <;> omega
  | cons a front ih =>
    rw [List.cons_append, length_linesOf_cons]
    by_cases ha : a = '\n'
    · rw [if_pos ha, ha, List.count_cons_self]
      omega
    · rw [if_neg ha, List.count_cons_of_ne ha]
      omega

/-- A lexeme before another one is not on a later line, and is on an earlier one if it ends its
line. -/
def Lexeme.Before (a b : Lexeme) : Prop := a.line ≤ b.line ∧ (a.kind = .newline → a.line < b.line)

theorem Lexeme.arrange_before {stop : Option Nat} {ts : List Token}
    (h : ts.Pairwise fun a b =>
      a.place.line ≤ b.place.line ∧ (a.kind = .newline → a.place.line < b.place.line)) :
    (arrange stop ts).Pairwise Lexeme.Before := by
  induction ts generalizing stop with
  | nil => exact .nil
  | cons t ts ih =>
    obtain ⟨ht, hts⟩ := List.pairwise_cons.mp h
    refine List.pairwise_cons.mpr ⟨fun l hl => ?_, ih hts⟩
    obtain ⟨u, hu, gap, rfl⟩ := mem_arrange hl
    exact ht u hu

namespace Token

theorem Tiles.line_ge {before cs : List Char} {ts : List Token} (h : Tiles before cs ts)
    {t : Token} (ht : t ∈ ts) : 1 + before.count '\n' ≤ t.place.line := by
  obtain ⟨front, text, behind, _, hfront, htoken, _⟩ := h.of_mem ht
  have hcount := hfront.sublist.count_le '\n'
  have hline : t.place.line = 1 + front.count '\n' := by
    rw [htoken]
    exact Point.line_after _ _
  omega

/-- The lines of tokens go up behind each newline and never down. -/
theorem Tiles.ascending {before cs : List Char} {ts : List Token} (h : Tiles before cs ts) :
    ts.Pairwise fun a b =>
      a.place.line ≤ b.place.line ∧ (a.kind = .newline → a.place.line < b.place.line) := by
  induction h with
  | stop hgap => exact List.pairwise_singleton _ _
  | @token before gap text behind kind ts hgap hlongest hrest ih =>
    refine List.pairwise_cons.mpr ⟨fun t ht => ?_, ih⟩
    have hlater := hrest.line_ge ht
    have hcount := hlongest.2.1.count_newline
    rw [List.count_append, hcount] at hlater
    have hline : (Point.start.after (before ++ gap)).line = 1 + (before ++ gap).count '\n' :=
      Point.line_after _ _
    change (Point.start.after (before ++ gap)).line ≤ _ ∧
      (kind = .newline → (Point.start.after (before ++ gap)).line < _)
    rw [hline]
    refine ⟨by omega, fun hk => ?_⟩
    rw [if_pos hk] at hlater
    omega

/-- A token stands on one of the lines of its source. -/
theorem line_bounds {source : String} {ts : List Token} (h : tokenize source = .ok ts) {t : Token}
    (ht : t ∈ ts) (hk : t.kind ≠ .stop) :
    1 ≤ t.place.line ∧ t.place.line ≤ (splitLines source).length := by
  obtain ⟨front, text, behind, hsource, _, htoken, hlongest⟩ := (tiles_of_tokenize h).of_mem ht
  obtain ⟨c, others, rfl⟩ := List.exists_cons_of_ne_nil (hlongest hk).2.1.ne_nil
  have hline : t.place.line = 1 + front.count '\n' := by
    rw [htoken]
    exact Point.line_after _ _
  have hcount := count_newline_lt front (others ++ behind) c
  have hlength :
      (splitLines source).length = (linesOf (front ++ c :: (others ++ behind))).length := by
    rw [splitLines, List.length_map]
    exact congrArg (fun cs => (linesOf cs).length) hsource
  omega

end Token

namespace Rule

open Sigil.Parser

/-- What is known of the lexemes that are left of a source. -/
structure Orderly (ts : List Lexeme) : Prop where
  scanned : Lexeme.AllScanned ts
  ascending : ts.Pairwise Lexeme.Before
  unstopped : ∀ t ∈ ts, t.kind ≠ .stop

theorem Orderly.of_suffix {ts rest : List Lexeme} (h : Orderly ts) (hrest : rest <:+ ts) :
    Orderly rest where
  scanned t ht := h.scanned t (hrest.subset ht)
  ascending := h.ascending.sublist hrest.sublist
  unstopped t ht := h.unstopped t (hrest.subset ht)

/-- Statements on the lines `ns` are read off `ts`, one below the other, and `rest` is left below
them. -/
structure Passes (ns : List Nat) (ts rest : List Lexeme) : Prop where
  suffix : rest <:+ ts
  ascending : ns.Pairwise (· < ·)
  start : ∀ n ∈ ns, ∃ t ∈ ts, t.line = n
  below : ∀ n ∈ ns, ∀ t ∈ rest, n < t.line

theorem Passes.nil {ts rest : List Lexeme} (h : rest <:+ ts) : Passes [] ts rest :=
  ⟨h, .nil, by simp, by simp⟩

theorem Passes.append {ns ns' : List Nat} {ts mid rest : List Lexeme} (h : Passes ns ts mid)
    (h' : Passes ns' mid rest) : Passes (ns ++ ns') ts rest where
  suffix := h'.suffix.trans h.suffix
  ascending := by
    refine List.pairwise_append.mpr ⟨h.ascending, h'.ascending, fun n hn n' hn' => ?_⟩
    obtain ⟨t, ht, rfl⟩ := h'.start n' hn'
    exact h.below n hn t ht
  start := by
    refine List.forall_mem_append.mpr ⟨h.start, fun n hn => ?_⟩
    obtain ⟨t, ht, hline⟩ := h'.start n hn
    exact ⟨t, h.suffix.subset ht, hline⟩
  below := by
    refine List.forall_mem_append.mpr ⟨fun n hn t ht => ?_, h'.below⟩
    exact h.below n hn t (h'.suffix.subset ht)

/-- Behind the end of a statement the next line starts. -/
theorem Orderly.passes {t : Lexeme} {x mid rest : List Lexeme} (h : Orderly (t :: (x ++ mid)))
    (hend : endStatement mid = .ok ((), rest)) : Passes [t.line] (t :: (x ++ mid)) rest := by
  obtain ⟨hfirst, hlater⟩ := List.pairwise_cons.mp h.ascending
  have hstart : ∀ n ∈ [t.line], ∃ u ∈ t :: (x ++ mid), u.line = n :=
    List.forall_mem_singleton.mpr ⟨t, List.mem_cons_self, rfl⟩
  obtain ⟨newline, rfl, hk⟩ | ⟨rfl, hstop⟩ := endStatement_eq_ok hend
  · refine ⟨⟨t :: (x ++ [newline]), by simp⟩, List.pairwise_singleton _ _, hstart, ?_⟩
    refine List.forall_mem_singleton.mpr fun u hu => ?_
    have hnewline := hfirst newline (by simp)
    have hnext := (List.pairwise_cons.mp (List.pairwise_append.mp hlater).2.1).1 u hu
    exact Nat.lt_of_le_of_lt hnewline.1 (hnext.2 hk)
  · -- A source has no stop but at its end.
    cases mid with
    | nil =>
      refine ⟨List.nil_suffix, List.pairwise_singleton _ _, hstart, ?_⟩
      exact fun _ _ u hu => by cases hu
    | cons stop mid => exact absurd hstop (h.unstopped stop (by simp))

/-- A declaration starts where its first lexeme does. -/
theorem declaration_line {ts rest : List Lexeme} {d : Declaration} (h : Lexeme.AllScanned ts)
    (hr : declaration ts = .ok (d, rest)) : ∃ t ∈ ts.head?, d.line = t.line := by
  obtain ⟨t, us, body, _, _, rfl, hbody, hd, _⟩ := declaration_eq_ok hr
  have hscanned : Lexeme.AllScanned us := fun u hu => h u (List.mem_cons_of_mem t hu)
  exact ⟨t, by simp, (yields_declarationBody hbody hscanned hd).2.2⟩

theorem passes_declaration {ts rest : List Lexeme} {d : Declaration} (h : Orderly ts)
    (hr : declaration ts = .ok (d, rest)) : Passes [d.line] ts rest := by
  obtain ⟨t, ht, hline⟩ := declaration_line h.scanned hr
  obtain ⟨first, us, _, x, mid, rfl, _, _, rfl, hend⟩ := declaration_eq_ok hr
  obtain rfl : first = t := by simpa using ht
  rw [hline]
  exact h.passes hend

/-- A round that reads no more than newlines and, it may be, a declaration behind them. -/
def IsStatementRound (round : Rule (Round Declaration)) : Prop :=
  ∀ ⦃ts r rest⦄, round ts = .ok (r, rest) →
    (r = .stop ∧ rest = ts.dropWhile (·.kind = .newline)) ∨
      ∃ d, r = .more d ∧ declaration (ts.dropWhile (·.kind = .newline)) = .ok (d, rest)

theorem leadingRound_isStatementRound : IsStatementRound leadingRound := by
  intro ts r rest hr
  obtain ⟨hstop, hrest, _⟩ | hmore := leadingRound_eq_ok.mp hr
  · exact .inl ⟨hstop, hrest⟩
  · exact .inr hmore

theorem trailingRound_isStatementRound : IsStatementRound trailingRound := by
  intro ts r rest hr
  obtain ⟨hstop, hrest, _⟩ | hmore := trailingRound_eq_ok.mp hr
  · exact .inl ⟨hstop, hrest⟩
  · exact .inr hmore

theorem IsStatementRound.passes {round : Rule (Round Declaration)} (hround : IsStatementRound round)
    {ts rest : List Lexeme} {d : Declaration} (h : Orderly ts)
    (hr : round ts = .ok (.more d, rest)) : Passes [d.line] ts rest := by
  have hlines := List.dropWhile_suffix (fun t : Lexeme => t.kind = .newline) (l := ts)
  obtain ⟨hstop, _⟩ | ⟨d', hmore, hd⟩ := hround hr
  · cases hstop
  · cases hmore
    exact (Passes.nil hlines).append (passes_declaration (h.of_suffix hlines) hd)

/-- Declarations that are read one after the other stand one below the other. -/
theorem IsStatementRound.passes_many {round : Rule (Round Declaration)}
    (hround : IsStatementRound round) {ts rest : List Lexeme} {ds : List Declaration}
    (h : Orderly ts) (hr : many round ts = .ok (ds, rest)) :
    Passes (ds.map (·.line)) ts rest := by
  induction ds generalizing ts with
  | nil =>
    obtain ⟨_, rfl⟩ | ⟨d, hmore, _⟩ := hround (many_eq_nil hr)
    · exact .nil (List.dropWhile_suffix _)
    · cases hmore
  | cons d ds ih =>
    obtain ⟨mid, hd, hds⟩ | ⟨_, hlast⟩ | ⟨rfl, hd, _⟩ := many_eq_cons hr
    · have hfirst := hround.passes h hd
      exact hfirst.append (ih (h.of_suffix hfirst.suffix) hds)
    · obtain ⟨hstop, _⟩ | ⟨d', hmore, _⟩ := hround hlast
      · cases hstop
      · cases hmore
    · exact hround.passes h hd

theorem passes_markup {ts behind rest : List Lexeme} {m : Markup} (h : Orderly ts)
    (hm : markup ts = .ok (m, behind)) (hend : endStatement behind = .ok ((), rest)) :
    ∃ line, m.line? = some line ∧ Passes [line] ts rest := by
  obtain ⟨t, ht, hline⟩ := markup_line hm
  obtain ⟨x, rfl, hcloses⟩ := closes_markup hm
  obtain ⟨y, slash, name, close, rfl, _⟩ := hcloses
  refine ⟨t.line, hline, ?_⟩
  cases hx : y ++ slash :: (name ++ [close]) with
  | nil => simp at hx
  | cons first x =>
    rw [hx] at ht h
    obtain rfl : first = t := by simpa using ht
    exact h.passes hend

/-- The statements of a unit stand one below the other, the markup among them. -/
theorem passes_unit {name : String} {ts rest : List Lexeme} {c : Component} (h : Orderly ts)
    (hr : unit name ts = .ok (c, rest)) :
    ∃ leading trailing line, c.markup.line? = some line ∧
      c = .ofDeclarations name (leading ++ trailing) c.markup ∧
      Passes (leading.map (·.line) ++ line :: trailing.map (·.line)) ts rest := by
  obtain ⟨leading, tree, trailing, mid, behind, behind', hleading, _, htree, hend, htrailing,
    rfl⟩ := unit_eq_ok hr
  have habove := leadingRound_isStatementRound.passes_many h hleading
  have hmid := h.of_suffix habove.suffix
  obtain ⟨line, hline, hroot⟩ := passes_markup hmid htree hend
  have hbelow := trailingRound_isStatementRound.passes_many (hmid.of_suffix hroot.suffix) htrailing
  exact ⟨leading, trailing, line, hline, rfl, habove.append (hroot.append hbelow)⟩

/-- Among the lexemes a rule reads `a`, and the first lexeme that it reads is on a line. -/
def StartsOn {α : Type} (rule : Rule α) (all : List Lexeme) (a : α) (line : Nat) : Prop :=
  ∃ first others rest, first :: others <:+ all ∧ rule (first :: others) = .ok (a, rest) ∧
    first.line = line

section Starts

variable {all : List Lexeme}

theorem startsOn_of_head {α : Type} {rule : Rule α} {ts rest : List Lexeme} {a : α} {t : Lexeme}
    (hts : ts <:+ all) (hr : rule ts = .ok (a, rest)) (ht : t ∈ ts.head?) :
    StartsOn rule all a t.line := by
  cases ts with
  | nil => cases ht
  | cons _ others =>
    cases ht
    exact ⟨t, others, rest, hts, hr, rfl⟩

theorem yields_declaration_start (hall : Lexeme.AllScanned all) :
    Yields (· <:+ all) declaration (fun d => StartsOn declaration all d d.line) := by
  intro ts d rest hts hr
  obtain ⟨t, ht, hline⟩ := declaration_line (fun u hu => hall u (hts.subset hu)) hr
  have hstart := startsOn_of_head hts hr ht
  rw [← hline] at hstart
  obtain ⟨first, us, _, x, mid, rfl, _, _, rfl, hend⟩ := declaration_eq_ok hr
  have hmid : mid <:+ all := (List.suffix_append (first :: x) mid).trans hts
  exact ⟨(yields_endStatement (I := (· <:+ all)) hmid hend).1, hstart⟩

theorem yields_markup_start :
    Yields (· <:+ all) markup
      (fun m => ∃ line, m.line? = some line ∧ StartsOn markup all m line) := by
  intro ts m rest hts hr
  obtain ⟨t, ht, hline⟩ := markup_line hr
  obtain ⟨x, rfl, _⟩ := closes_markup hr
  exact ⟨(List.suffix_append x rest).trans hts, t.line, hline, startsOn_of_head hts hr ht⟩

end Starts

end Rule

namespace Component

/-- The lines of the declarations of each kind, in the order of the component's lists. -/
def lineLists (c : Component) : List (List Nat) :=
  [c.props.map (·.line), c.states.map (·.line), c.reducers.map (·.line),
    c.transitions.map (·.line), c.deferreds.map (·.line), c.optimistics.map (·.line),
    c.memos.map (·.line), c.effects.map (·.line), c.layoutEffects.map (·.line),
    c.events.map (·.line), c.callbacks.map (·.line), c.handles.map (·.line), c.refs.map (·.line),
    c.contexts.map (·.line), c.ids.map (·.line), c.stores.map (·.line), c.actions.map (·.line)]

theorem flatten_lineLists (c : Component) : c.lineLists.flatten = c.declarations.map (·.line) := by
  delta lineLists declarations
  simp only [List.map_append, List.map_map, List.flatten_cons, List.flatten_nil, List.append_nil,
    List.append_assoc]
  rfl

theorem lines_sublist {α : Type} {p : Declaration → Option α} {line : α → Nat}
    (h : ∀ d a, p d = some a → line a = d.line) (ds : List Declaration) :
    ((ds.filterMap p).map line).Sublist (ds.map (·.line)) := by
  induction ds with
  | nil => exact .slnil
  | cons d ds ih =>
    cases hd : p d with
    | none =>
      rw [List.filterMap_cons_none hd]
      exact ih.cons _
    | some a =>
      rw [List.filterMap_cons_some hd, List.map_cons, List.map_cons, h d a hd]
      exact ih.cons_cons _

/-- The declarations of one kind keep the order that all declarations have. -/
theorem lineLists_sublist {name : String} {ds : List Declaration} {m : Markup} {lines : List Nat}
    (h : lines ∈ (ofDeclarations name ds m).lineLists) : lines.Sublist (ds.map (·.line)) := by
  delta lineLists ofDeclarations at h
  simp only [List.mem_cons, List.not_mem_nil, or_false] at h
  rcases h with rfl | rfl | rfl | rfl | rfl | rfl | rfl | rfl | rfl | rfl | rfl | rfl | rfl | rfl |
    rfl | rfl | rfl
  all_goals
    refine lines_sublist (fun d a hd => ?_) ds
    cases d <;> cases hd
    rfl

/-- The lines of a source that the statements of a component start on tell them apart. -/
structure LinesApart (source : String) (c : Component) : Prop where
  ascending : ∀ lines ∈ c.lineLists, lines.Pairwise (· < ·)
  distinct : c.lineLists.flatten.Nodup
  within : ∀ n ∈ c.lineLists.flatten, 1 ≤ n ∧ n ≤ (splitLines source).length
  root : ∃ line, c.markup.line? = some line ∧ line ∉ c.lineLists.flatten ∧ 1 ≤ line ∧
    line ≤ (splitLines source).length

end Component

theorem Token.orderly_of_tokenize {source : String} {ts : List Token}
    (h : tokenize source = .ok ts) : Rule.Orderly (Input.ofTokens ts).lexemes := by
  have hscanned := lexemes_scanned h
  have htiles := tiles_of_tokenize h
  have hascending := htiles.ascending
  obtain ⟨body, rfl, hbody⟩ := htiles.ends
  have hend : ∀ t ∈ body, t.isEnd = false := fun t ht => by simp [isEnd, hbody t ht]
  rw [Input.ofTokens_append_stop rfl hend] at hscanned ⊢
  refine ⟨hscanned, Lexeme.arrange_before (List.pairwise_append.mp hascending).1, fun l hl => ?_⟩
  obtain ⟨t, ht, gap, rfl⟩ := Lexeme.mem_arrange hl
  exact hbody t ht

/-- A component keeps of each of its statements the line of the first token. -/
theorem Component.startsOn_of_ofSource {name source : String} {c : Component}
    (h : ofSource name source = .ok c) :
    ∃ tokens, Token.tokenize source = .ok tokens ∧
      (∀ x ∈ c.declarations,
        Rule.StartsOn Rule.declaration (Input.ofTokens tokens).lexemes x x.line) ∧
      ∃ line, c.markup.line? = some line ∧
        Rule.StartsOn Rule.markup (Input.ofTokens tokens).lexemes c.markup line := by
  obtain ⟨tokens, htokens, h⟩ := ofSource_eq_ok h
  obtain ⟨rest, h⟩ := ofTokens_eq_ok h
  have hdeclaration := Rule.yields_declaration_start (lexemes_scanned htokens)
  have hunit := Rule.yields_unit_of hdeclaration Rule.yields_markup_start name
  exact ⟨tokens, htokens, (hunit List.suffix_rfl h).2.2⟩

end Sigil
