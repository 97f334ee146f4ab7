import Sigil.Proofs.LineIndependence
import Sigil.Proofs.Readings
import Sigil.Proofs.Statements
import Sigil.Proofs.Trees

namespace Sigil

open Rule

/-- The numbering that tells no lines apart. -/
def lineless : Nat → Nat := fun _ => 0

namespace Reads

variable {s s' e : Standing} {b cs : List Char} {l ls : List Lexeme}

theorem kind_ne_stop (h : Reads s cs ls e) : ∀ t ∈ ls, t.kind ≠ .stop := by
  induction h with
  | nil => exact nofun
  | skip _ _ ih => exact ih
  | token hread _ ih => exact List.forall_mem_cons.mpr ⟨Front.read_token_ne_stop hread, ih⟩

/-- On other lines a text is read as lexemes that look alike. -/
theorem relined (h : Reads s cs ls e) (hbefore : s.before = s'.before) :
    ∃ ls' e', Reads s' cs ls' e' ∧
      ls.map (Lexeme.seen lineless) = ls'.map (Lexeme.seen lineless) := by
  induction h generalizing s' with
  | nil => exact ⟨[], s', .nil, rfl⟩
  | skip hread _ ih =>
    have hskip : _ = s'.skip.before := congrArg (·.map fun _ => Gap.spaced) hbefore
    obtain ⟨ls', e', hr, hseen⟩ := ih hskip
    exact ⟨ls', e', .skip hread hr, hseen⟩
  | @token s e c cs kind n ls hread _ ih =>
    have hpast : (s.past kind).before = (s'.past kind).before := by
      unfold Standing.past
      split
      · exact congrArg (·.map fun _ => Gap.spaced) hbefore
      · rfl
    obtain ⟨ls', e', hr, hseen⟩ := ih hpast
    refine ⟨_, e', .token hread hr, ?_⟩
    rw [List.map_cons, List.map_cons, hseen]
    refine congrArg (· :: _) ?_
    unfold Lexeme.seen Standing.lexeme
    rw [hbefore]
    rfl

/-- Behind other texts a text is read as lexemes that look alike, but for the gap before the first
that is no newline. -/
theorem elsewhere (h : Reads s cs ls e) (s' : Standing) :
    ∃ ls' e', Reads s' cs ls' e' ∧ AlikeInside lineless ls ls' := by
  induction h generalizing s' with
  | nil => exact ⟨[], s', .nil, .nil⟩
  | skip hread _ ih =>
    obtain ⟨ls', e', hr, halike⟩ := ih s'.skip
    exact ⟨ls', e', .skip hread hr, halike⟩
  | @token s e c cs kind n ls hread hrest ih =>
    by_cases hk : kind = .newline
    · obtain ⟨ls', e', hr, halike⟩ := ih (s'.past kind)
      exact ⟨_, e', .token hread hr, .newline hk hk halike⟩
    · have hpast : (s.past kind).before = (s'.past kind).before := by
        unfold Standing.past
        rw [if_neg hk, if_neg hk]
      obtain ⟨ls', e', hr, hseen⟩ := hrest.relined hpast
      exact ⟨_, e', .token hread hr, .first hk rfl hseen⟩

/-- A line that can be read on its own is read up to its end, and what follows from there. -/
theorem line_iff {e' : Standing} {y : List Char} (hb : Reads s b l e) :
    Reads s (b ++ '\n' :: y) ls e' ↔
      ∃ l', ls = l ++ e.lexeme .newline ['\n'] :: l' ∧ Reads (e.past .newline) y l' e' := by
  obtain ⟨inComment, hiff⟩ := hb.append_iff
  have hline : (if inComment then ('\n' :: y).dropWhile (· ≠ '\n') else '\n' :: y) = '\n' :: y := by
    cases inComment <;> rfl
  rw [hiff _ (atEdge_of_lineEnd (.inr rfl)), hline]
  constructor
  · rintro ⟨_, rfl, hr⟩
    obtain ⟨l', rfl, hr'⟩ := newline_iff.mp hr
    exact ⟨l', rfl, hr'⟩
  · rintro ⟨l', rfl, hr⟩
    exact ⟨_, rfl, newline_iff.mpr ⟨l', rfl, hr⟩⟩

/-- Lines are read wherever they stand, and what follows them is read from there. -/
theorem lines_elsewhere (hb : Reads .start b l e) (s : Standing) :
    ∃ lines e', AlikeInside lineless (l ++ [e.lexeme .newline ['\n']]) lines ∧
      ∀ y ls e'', Reads e' y ls e'' → Reads s (b ++ '\n' :: y) (lines ++ ls) e'' := by
  have hwhole : Reads .start (b ++ ['\n']) (l ++ [e.lexeme .newline ['\n']]) (e.past .newline) :=
    hb.line_iff.mpr ⟨[], rfl, .nil⟩
  obtain ⟨l', e', hb', _⟩ := hb.elsewhere s
  obtain ⟨lines, _, hlines, halike⟩ := hwhole.elsewhere s
  obtain ⟨_, rfl, hnil⟩ := hb'.line_iff.mp hlines
  obtain ⟨rfl, _⟩ := nil_iff.mp hnil
  refine ⟨_, e'.past .newline, halike, fun y ls e'' hr => ?_⟩
  rw [List.append_assoc]
  exact hb'.line_iff.mpr ⟨ls, rfl, hr⟩

theorem emptyElement (h : Reads s "<p></p>".toList ls e) : EmptyElement ls := by
  have hstep {s : Standing} {c : Char} {cs : List Char} {ls : List Lexeme} (kind : Kind)
      (hread : Front.read c cs = .token kind 0) (h : Reads s (c :: cs) ls e) :
      ∃ t l, ls = t :: l ∧ t.kind = kind ∧ Reads (s.past kind) cs l e := by
    obtain ⟨l, rfl, hr⟩ := (token_iff hread).mp h
    exact ⟨_, l, rfl, rfl, hr⟩
  have htext : "<p></p>".toList = ['<', 'p', '>', '<', '/', 'p', '>'] := by decide +kernel
  rw [htext] at h
  obtain ⟨t₁, _, rfl, hk₁, h⟩ := hstep (.symbol .langle) (by decide +kernel) h
  obtain ⟨t₂, _, rfl, hk₂, h⟩ := hstep .ident (by decide +kernel) h
  obtain ⟨t₃, _, rfl, hk₃, h⟩ := hstep (.symbol .rangle) (by decide +kernel) h
  obtain ⟨t₄, _, rfl, hk₄, h⟩ := hstep (.symbol .langle) (by decide +kernel) h
  obtain ⟨t₅, _, rfl, hk₅, h⟩ := hstep (.symbol .slash) (by decide +kernel) h
  obtain ⟨t₆, _, rfl, hk₆, h⟩ := hstep .ident (by decide +kernel) h
  obtain ⟨t₇, _, rfl, hk₇, h⟩ := hstep (.symbol .rangle) (by decide +kernel) h
  obtain ⟨rfl, _⟩ := nil_iff.mp h
  exact ⟨by simp only [List.map_cons, List.map_nil, hk₁, hk₂, hk₃, hk₄, hk₅, hk₆, hk₇]⟩

end Reads

theorem Component.ofSource_of_reads {name source : String} {ls rest : List Lexeme} {e : Standing}
    {c : Component} (hr : Reads .start source.toList ls e)
    (hunit : unit name ls = .ok (c, rest)) : ofSource name source = .ok c := by
  obtain ⟨ts, hts, rfl, _⟩ := hr.tokenize
  rw [ofSource, hts]
  change ((do let x ← unit name (Input.ofTokens ts).lexemes; pure x.1).mapError _) = _
  rw [hunit]
  rfl

theorem Component.reads_of_ofSource {name source : String} {c : Component}
    (h : ofSource name source = .ok c) :
    ∃ ts ls e rest, Token.tokenize source = .ok ts ∧ Reads .start source.toList ls e ∧
      unit name ls = .ok (c, rest) := by
  obtain ⟨ts, hts, hc⟩ := ofSource_eq_ok h
  obtain ⟨rest, hunit⟩ := ofTokens_eq_ok hc
  obtain ⟨e, hreads, _⟩ := Reads.of_tokenize hts
  exact ⟨ts, _, e, rest, hts, hreads, hunit⟩

/-- Lines that make up a component with one declaration, when an element stands behind them. -/
structure DeclarationChunk where
  text : String
  declaration : Declaration
  ended : ∃ line, text = line ++ "\n"
  single : ∃ name c, Component.ofSource name (text ++ "<p></p>") = .ok c ∧
    c.declarations = [declaration]

/-- Lines that make up a component without declarations. -/
structure MarkupChunk where
  text : String
  ended : ∃ line, text = line ++ "\n"
  bare : ∃ name c, Component.ofSource name text = .ok c ∧ c.declarations = []

theorem DeclarationChunk.declares (x : DeclarationChunk) (s : Standing) :
    ∃ lines e, Declares lineless lines x.declaration ∧
      ∀ y ls e', Reads e y ls e' → Reads s (x.text.toList ++ y) (lines ++ ls) e' := by
  obtain ⟨line, htext⟩ := x.ended
  obtain ⟨name, c, hsource, hc⟩ := x.single
  obtain ⟨ts, ls, e, rest, hts, hreads, hunit⟩ := Component.reads_of_ofSource hsource
  have hchars : (x.text ++ "<p></p>").toList = line.toList ++ '\n' :: "<p></p>".toList := by
    rw [htext]
    simp
  obtain ⟨l, e₀, hline⟩ := Reads.of_line hts hchars (.inr rfl)
  rw [hchars] at hreads
  obtain ⟨root, rfl, hroot⟩ := hline.line_iff.mp hreads
  obtain ⟨lines, e', halike, hnext⟩ := hline.lines_elsewhere s
  refine ⟨lines, e', ?_, fun y ls e'' hr => ?_⟩
  · have hstop := hreads.kind_ne_stop
    rw [List.append_cons] at hunit hstop
    refine declares_of_unit hroot.emptyElement ?_ ?_ hunit hc halike
    · intro t ht
      rw [List.getLast?_concat] at ht
      cases ht
      rfl
    · exact fun t ht => hstop t (List.mem_append_left _ ht)
  · rw [htext, String.toList_append, List.append_assoc]
    exact hnext y ls e'' hr

theorem MarkupChunk.roots (x : MarkupChunk) :
    ∃ m, ∀ s, ∃ lines e, Roots lineless lines m ∧
      ∀ y ls e', Reads e y ls e' → Reads s (x.text.toList ++ y) (lines ++ ls) e' := by
  obtain ⟨line, htext⟩ := x.ended
  obtain ⟨name, c, hsource, hc⟩ := x.bare
  obtain ⟨ts, ls, e, rest, hts, hreads, hunit⟩ := Component.reads_of_ofSource hsource
  have hchars : x.text.toList = line.toList ++ ['\n'] := by
    rw [htext]
    simp
  obtain ⟨l, e₀, hline⟩ := Reads.of_line hts hchars (.inr rfl)
  rw [hchars] at hreads
  obtain ⟨_, rfl, hnil⟩ := hline.line_iff.mp hreads
  obtain ⟨rfl, _⟩ := Reads.nil_iff.mp hnil
  refine ⟨c.markup, fun s => ?_⟩
  obtain ⟨lines, e', halike, hnext⟩ := hline.lines_elsewhere s
  refine ⟨lines, e', roots_of_unit ?_ hreads.kind_ne_stop hunit hc halike, fun y ls e'' hr => ?_⟩
  · intro t ht
    rw [List.getLast?_concat] at ht
    cases ht
    rfl
  · rw [hchars, List.append_assoc]
    exact hnext y ls e'' hr

/-- Rounds that read declarations behind newlines read one off each chunk. -/
theorem many_chunks {round : Rule (Parser.Round Declaration)}
    (hround : ∀ ts d rest, declaration (ts.dropWhile (·.kind = .newline)) = .ok (d, rest) →
      round ts = .ok (.more d, rest)) (chunks : List DeclarationChunk) (s : Standing) :
    ∃ e, ∀ y ls e', Reads e y ls e' → ∀ ds final,
      (∀ k, (∀ t ∈ k, t.kind = .newline) → Parser.many round (k ++ ls) = .ok (ds, final)) →
      ∃ ls' ds', Reads s (chunks.flatMap (·.text.toList) ++ y) ls' e' ∧
        chunks.map (·.declaration.renumber lineless) = ds'.map (·.renumber lineless) ∧
        ∀ k, (∀ t ∈ k, t.kind = .newline) →
          Parser.many round (k ++ ls') = .ok (ds' ++ ds, final) := by
  induction chunks generalizing s with
  | nil => exact ⟨s, fun y ls e' hr ds final hmany => ⟨ls, [], hr, rfl, hmany⟩⟩
  | cons x chunks ih =>
    obtain ⟨lines, e₁, hdeclares, hnext⟩ := x.declares s
    obtain ⟨e, ih⟩ := ih e₁
    refine ⟨e, fun y ls e' hr ds final hmany => ?_⟩
    obtain ⟨ls', ds', hr', hview, hmany'⟩ := ih y ls e' hr ds final hmany
    obtain ⟨d', hd', hall⟩ := many_of_declares hround hdeclares hmany'
    refine ⟨lines ++ ls', d' :: ds', ?_, ?_, hall⟩
    · rw [List.flatMap_cons, List.append_assoc]
      exact hnext _ _ _ hr'
    · rw [List.map_cons, List.map_cons, hview, hd']

theorem ne_nil_of_angle {ts : List Lexeme} (h : kindAt 0 ts = .symbol .langle) : ts ≠ [] := by
  rintro rfl
  cases h

theorem kindAt_append_of_angle {ts : List Lexeme} (h : kindAt 0 ts = .symbol .langle)
    (rest : List Lexeme) : kindAt 0 (ts ++ rest) = .symbol .langle := by
  cases ts with
  | nil => cases h
  | cons t ts => exact h

theorem many_trailingRound_newlines {k : List Lexeme} (hk : ∀ t ∈ k, t.kind = .newline) :
    Parser.many trailingRound k = .ok ([], []) := by
  have hnil : k.dropWhile (·.kind = .newline) = [] :=
    List.dropWhile_eq_nil_iff.mpr fun t ht => by simpa using hk t ht
  exact Parser.many_of_stop (trailingRound_eq_ok.mpr (.inl ⟨rfl, hnil.symm, rfl⟩))

/-- A root among chunks makes up the component that has their declarations and this root. -/
theorem unit_of_runs (name : String) {ls lines behind : List Lexeme} {m : Markup}
    {leading trailing : List Declaration} (hroots : Roots lineless lines m)
    (hleading : Parser.many leadingRound ls =
      .ok (leading, lines.dropWhile (·.kind = .newline) ++ behind))
    (htrailing : ∀ k, (∀ t ∈ k, t.kind = .newline) →
      Parser.many trailingRound (k ++ behind) = .ok (trailing, [])) :
    ∃ m', m.renumber lineless = m'.renumber lineless ∧
      unit name ls = .ok (.ofDeclarations name (leading ++ trailing) m', []) := by
  obtain ⟨hangle, hroot⟩ := hroots
  obtain ⟨m', k, mid, hm, hk, htree, hend⟩ := hroot behind
  refine ⟨m', hm, ?_⟩
  have hfront := kindAt_append_of_angle hangle behind
  rw [unit, Parser.bind_of_ok hleading, Parser.bind_of_ok (kind_apply _), if_pos hfront]
  dsimp only
  rw [Parser.bind_of_ok htree, Parser.bind_of_ok hend, Parser.bind_of_ok (htrailing k hk)]
  rfl

/-- Chunks make up the component that has their declarations and their root. -/
theorem MarkupChunk.ofSource_between (x : MarkupChunk) :
    ∃ m, ∀ (name source : String) (before behind : List DeclarationChunk),
      source.toList = before.flatMap (·.text.toList) ++
        (x.text.toList ++ behind.flatMap (·.text.toList)) →
      ∃ c, Component.ofSource name source = .ok c ∧ c.renumber lineless =
        .ofDeclarations name ((before ++ behind).map (·.declaration.renumber lineless)) m := by
  obtain ⟨m, hroots⟩ := x.roots
  refine ⟨m.renumber lineless, fun name source before behind hsource => ?_⟩
  -- Each part is read from where the one before it stops, so the parts are put together backwards.
  obtain ⟨e₁, hleading⟩ := many_chunks
    (fun _ d _ hd => leadingRound_eq_ok.mpr (.inr ⟨d, rfl, hd⟩)) before .start
  obtain ⟨lines, e₂, hroot, hnext⟩ := hroots e₁
  obtain ⟨e₃, htrailing⟩ := many_chunks
    (fun _ d _ hd => trailingRound_eq_ok.mpr (.inr ⟨d, rfl, hd⟩)) behind e₂
  obtain ⟨ls₂, ds₂, hreads₂, hview₂, hmany₂⟩ := htrailing [] [] e₃ .nil [] []
    fun k hk => by rw [List.append_nil]; exact many_trailingRound_newlines hk
  have hstop (k : List Lexeme) (hk : ∀ t ∈ k, t.kind = .newline) :
      Parser.many leadingRound (k ++ (lines ++ ls₂)) =
        .ok ([], lines.dropWhile (·.kind = .newline) ++ ls₂) := by
    refine Parser.many_of_stop (leadingRound_eq_ok.mpr (.inl ⟨rfl, ?_, .inr ?_⟩))
    · exact (dropWhile_newlines_append hk (ne_nil_of_angle hroot.1)).symm
    · exact kindAt_append_of_angle hroot.1 ls₂
  obtain ⟨ls₁, ds₁, hreads₁, hview₁, hmany₁⟩ := hleading _ _ _ (hnext _ _ _ hreads₂) [] _ hstop
  rw [List.append_nil] at hmany₁ hmany₂
  obtain ⟨m', hm, hunit⟩ := unit_of_runs name hroot (hmany₁ [] nofun) hmany₂
  rw [List.append_nil, ← hsource] at hreads₁
  refine ⟨_, Component.ofSource_of_reads hreads₁ hunit, ?_⟩
  rw [Component.renumber_ofDeclarations, List.map_append, List.map_append, hview₁, hview₂, hm]

/-- A part of a source that can be moved: a declaration or the markup, with the lines they take. -/
inductive Chunk where
  | declaration (x : DeclarationChunk)
  | markup (x : MarkupChunk)

namespace Chunk

def text : Chunk → String
  | declaration x => x.text
  | markup x => x.text

/-- The kind of a declaration. The markup has none. -/
def kind? : Chunk → Option Nat
  | declaration x => some x.declaration.kind
  | markup _ => none

theorem eq_map_declaration {chunks : List Chunk} (h : chunks.countP (·.kind? = none) = 0) :
    ∃ xs : List DeclarationChunk, chunks = xs.map .declaration := by
  induction chunks with
  | nil => exact ⟨[], rfl⟩
  | cons chunk chunks ih =>
    cases chunk with
    | declaration x =>
      obtain ⟨xs, rfl⟩ := ih h
      exact ⟨x :: xs, rfl⟩
    | markup x => simp [kind?] at h

/-- The markup between declarations. -/
def around (before : List DeclarationChunk) (m : MarkupChunk) (behind : List DeclarationChunk) :
    List Chunk :=
  before.map declaration ++ markup m :: behind.map declaration

theorem exists_around {chunks : List Chunk} (h : chunks.countP (·.kind? = none) = 1) :
    ∃ before m behind, chunks = around before m behind := by
  induction chunks with
  | nil => cases h
  | cons chunk chunks ih =>
    cases chunk with
    | declaration x =>
      obtain ⟨before, m, behind, rfl⟩ := ih h
      exact ⟨x :: before, m, behind, rfl⟩
    | markup x =>
      have hrest : chunks.countP (·.kind? = none) = 0 := by
        rw [List.countP_cons_of_pos (by simp [kind?])] at h
        omega
      obtain ⟨behind, rfl⟩ := eq_map_declaration hrest
      exact ⟨[], x, behind, rfl⟩

variable (before : List DeclarationChunk) (m : MarkupChunk) (behind : List DeclarationChunk)

theorem filter_markup : (around before m behind).filter (·.kind? = none) = [markup m] := by
  simp [around, List.filter_map, Function.comp_def, kind?]

theorem filter_declaration (k : Nat) :
    (around before m behind).filter (·.kind? = some k) =
      ((before ++ behind).filter (·.declaration.kind = k)).map declaration := by
  simp [around, List.filter_map, Function.comp_def, kind?]

theorem toList_around :
    (String.join ((around before m behind).map text)).toList = before.flatMap (·.text.toList) ++
      (m.text.toList ++ behind.flatMap (·.text.toList)) := by
  simp [around, String.toList_join, List.flatMap_map, text]

end Chunk

end Sigil
