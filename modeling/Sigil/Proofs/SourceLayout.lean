import Mathlib.Logic.Relation
import Sigil.Proofs.CoupledMarkup
import Sigil.Proofs.Readings
import Sigil.Proofs.Trees

namespace Sigil

namespace Rule

/-- The coupling of runs over lexemes that look alike one by one. -/
def Coupling.lockstep (f : Nat → Nat) : Coupling f where
  Rel ts ts' := ts.map (Lexeme.seen f) = ts'.map (Lexeme.seen f)
  Kept _ := True
  faults := True
  kept_of_suffix _ _ := trivial
  kept_of_faults _ _ := trivial
  front _ h := .inl (by rw [← List.head?_map, h, List.head?_map])
  second _ _ _ h := .inl (by
    rw [← List.head?_map, ← List.head?_map, List.map_tail, List.map_tail, h])
  tail _ _ h := by rw [List.map_tail, List.map_tail, h]
  length_eq _ h := by simpa using (congrArg List.length h).symm
  length_lt_iff h h' := by
    have hlength := congrArg List.length h
    have hlength' := congrArg List.length h'
    rw [List.length_map, List.length_map] at hlength hlength'
    rw [hlength, hlength']

end Rule

namespace Component

theorem ofLexemes_eq_map (name : String) (ls : List Lexeme) :
    ofLexemes name ls = (Rule.unit name ls).map (·.1) := by
  change (do let x ← Rule.unit name ls; pure x.1) = _
  cases Rule.unit name ls <;> rfl

/-- The grammar sees no more of lexemes than their kinds, spellings, values and lines, and the gaps
of those that are no newlines. -/
theorem ofLexemes_eq_of_seen (name : String) {ls ls' : List Lexeme}
    (h : ls.map (Lexeme.seen id) = ls'.map (Lexeme.seen id)) :
    ofLexemes name ls = ofLexemes name ls' := by
  have hfollows : Rule.Follows (.lockstep id) Rule.Anywhere Rule.Anything (renumber id)
      (Rule.unit name) (Rule.unit name) := Rule.follows_unit name
  have htracks := hfollows.tracks trivial h
  rw [ofLexemes_eq_map, ofLexemes_eq_map]
  cases hr : Rule.unit name ls with
  | error e =>
    have hr' : Rule.unit name ls' = .error e := htracks.fault trivial hr
    rw [hr']
  | ok x =>
    obtain ⟨c', rest', hr', hview, _⟩ := htracks.value hr trivial
    rw [renumber_id, renumber_id] at hview
    rw [hr']
    exact congrArg Except.ok hview

end Component

/-- Two outcomes that tell the same: equal components, or the same cause on the same line. -/
def SameReading : Except Diagnostic Component → Except Diagnostic Component → Prop
  | .ok c, .ok c' => c = c'
  | .error d, .error d' => d.cause = d'.cause ∧ d.place.line = d'.place.line
  | _, _ => False

theorem SameReading.refl (r : Except Diagnostic Component) : SameReading r r := by
  cases r with
  | error d => exact ⟨rfl, rfl⟩
  | ok c => rfl

theorem SameReading.trans {r r' r'' : Except Diagnostic Component} (h : SameReading r r')
    (h' : SameReading r' r'') : SameReading r r'' := by
  match r, r', r'', h, h' with
  | .ok _, .ok _, .ok _, h, h' => exact Eq.trans h h'
  | .error _, .error _, .error _, h, h' => exact ⟨h.1.trans h'.1, h.2.trans h'.2⟩

theorem Lexeme.arrange_line (before : Option Nat) (ts : List Token) :
    (arrange before ts).map (·.line) = ts.map (·.place.line) := by
  induction ts generalizing before with
  | nil => rfl
  | cons t ts ih => rw [arrange, List.map_cons, List.map_cons, ih]

theorem Lexeme.length_arrange (before : Option Nat) (ts : List Token) :
    (arrange before ts).length = ts.length := by
  have hlines := congrArg List.length (arrange_line before ts)
  rwa [List.length_map, List.length_map] at hlines

theorem Input.place_line (input : Input) (left : Nat) :
    (input.place left).line =
      (((input.lexemes.map (·.line)).drop (input.lexemes.length - left)).head?).getD
        input.stop.line := by
  have hlength : input.lexemes.length = input.body.length := Lexeme.length_arrange none input.body
  rw [hlength, Input.lexemes, Lexeme.arrange_line, ← List.map_drop, List.head?_map, place]
  cases (input.body.drop (input.body.length - left)).head? <;> rfl

/-- What is read off tokens depends on their lexemes and on the line where they end. -/
theorem sameReading_of_lexemes (name : String) {ts ts' : List Token}
    (h : (Input.ofTokens ts).lexemes.map (Lexeme.seen id) =
      (Input.ofTokens ts').lexemes.map (Lexeme.seen id))
    (hstop : (Input.ofTokens ts).stop.line = (Input.ofTokens ts').stop.line) :
    SameReading (Component.ofTokens name ts) (Component.ofTokens name ts') := by
  have hlines : (Input.ofTokens ts).lexemes.map (·.line) =
      (Input.ofTokens ts').lexemes.map (·.line) := by
    have hseen := congrArg (List.map (·.line)) h
    rwa [List.map_map, List.map_map] at hseen
  have hlength : (Input.ofTokens ts).lexemes.length = (Input.ofTokens ts').lexemes.length := by
    simpa using congrArg List.length hlines
  unfold Component.ofTokens
  dsimp only
  rw [Component.ofLexemes_eq_of_seen name h]
  cases Component.ofLexemes name (Input.ofTokens ts').lexemes with
  | ok c => rfl
  | error e =>
    refine ⟨rfl, ?_⟩
    change ((Input.ofTokens ts).place e.left).line = ((Input.ofTokens ts').place e.left).line
    rw [Input.place_line, Input.place_line, hlines, hlength, hstop]

namespace Token

/-- Tokens that differ at most in where they lie on their line. -/
structure SameOnLine (t t' : Token) : Prop where
  kind : t.kind = t'.kind
  text : t.text = t'.text
  value : t.value = t'.value
  line : t.place.line = t'.place.line

instance : DecidableRel SameOnLine := fun t t' =>
  decidable_of_iff
    (t.kind = t'.kind ∧ t.text = t'.text ∧ t.value = t'.value ∧ t.place.line = t'.place.line)
    ⟨fun ⟨hkind, htext, hvalue, hline⟩ => ⟨hkind, htext, hvalue, hline⟩,
      fun h => ⟨h.kind, h.text, h.value, h.line⟩⟩

/-- Neither a newline nor the end. -/
def Visible (t : Token) : Prop :=
  t.kind ≠ .newline ∧ t.kind ≠ .stop

instance : DecidablePred Visible := fun _ => inferInstanceAs (Decidable (_ ∧ _))

/-- Two tokens that follow each other on a line touch in one list if they do in the other. -/
def SameTouching (ts ts' : List Token) : Prop :=
  ∀ i, ∀ t ∈ ts[i]?, ∀ u ∈ ts[i + 1]?, ∀ t' ∈ ts'[i]?, ∀ u' ∈ ts'[i + 1]?,
    t.Visible → u.Visible →
    t.place.span.touches u.place.span = t'.place.span.touches u'.place.span

instance (ts ts' : List Token) : Decidable (SameTouching ts ts') :=
  decidable_of_iff
    (∀ i < ts.length, ∀ t ∈ ts[i]?, ∀ u ∈ ts[i + 1]?, ∀ t' ∈ ts'[i]?, ∀ u' ∈ ts'[i + 1]?,
      t.Visible → u.Visible →
      t.place.span.touches u.place.span = t'.place.span.touches u'.place.span)
    ⟨fun h i t ht => h i (List.getElem?_eq_some_iff.mp ht).1 t ht, fun h i _ => h i⟩

/-- Tokens that do not overlap, where newlines take their room. -/
structure Spread (ts : List Token) : Prop where
  ordered : ts.Pairwise fun a b => a.place.span.stop ≤ b.place.span.start
  newline : ∀ t ∈ ts, t.kind = .newline → t.place.span.start < t.place.span.stop

theorem Spread.tail {t : Token} {ts : List Token} (h : Spread (t :: ts)) : Spread ts :=
  ⟨(List.pairwise_cons.mp h.ordered).2, fun u hu => h.newline u (by simp [hu])⟩

theorem Spread.of_prefix {ts us : List Token} (h : Spread (ts ++ us)) : Spread ts :=
  ⟨(List.pairwise_append.mp h.ordered).1, fun u hu => h.newline u (by simp [hu])⟩

theorem Tiles.spread {before cs : List Char} {ts : List Token} (h : Tiles before cs ts) :
    Spread ts := by
  refine ⟨h.ordered, fun t ht hk => ?_⟩
  obtain ⟨front, text, behind, _, _, htoken, hlongest⟩ := h.of_mem ht
  rw [hk] at htoken hlongest
  obtain rfl : text = ['\n'] := (hlongest nofun).2.1
  rw [htoken, ofChars_span, byteLength_append]
  exact Nat.lt_succ_self _

/-- The tokens before two lists agree on the gaps to the first tokens of the lists, unless these are
newlines. -/
def SameGap (before before' : Option Nat) (ts ts' : List Token) : Prop :=
  (before = none ∧ before' = none) ∨
    ∃ stop stop', before = some stop ∧ before' = some stop' ∧
      (∀ t ∈ ts, stop ≤ t.place.span.start) ∧ (∀ t ∈ ts', stop' ≤ t.place.span.start) ∧
      ∀ t ∈ ts.head?, ∀ t' ∈ ts'.head?, t.kind ≠ .newline →
        (stop = t.place.span.start ↔ stop' = t'.place.span.start)

theorem SameGap.eq {before before' : Option Nat} {t t' : Token} {ts ts' : List Token}
    (h : SameGap before before' (t :: ts) (t' :: ts')) (hk : t.kind ≠ .newline) :
    (before.map (Gap.between · t.place.span.start)).getD .touching =
      (before'.map (Gap.between · t'.place.span.start)).getD .touching := by
  obtain ⟨rfl, rfl⟩ | ⟨stop, stop', rfl, rfl, hle, hle', htouch⟩ := h
  · rfl
  · have hstop := hle t (by simp)
    have hstop' := hle' t' (by simp)
    have hiff := htouch t rfl t' rfl hk
    change Gap.between stop t.place.span.start = Gap.between stop' t'.place.span.start
    unfold Gap.between
    by_cases heq : stop = t.place.span.start
    · rw [if_pos heq, if_pos (hiff.mp heq)]
    · have heq' : stop' ≠ t'.place.span.start := fun h => heq (hiff.mpr h)
      rw [if_neg heq, if_neg heq', if_pos (by omega), if_pos (by omega)]

/-- A newline leaves room, so that no token behind it touches one before it. -/
theorem SameGap.newline {before before' : Option Nat} {t t' : Token} {ts ts' : List Token}
    (h : SameGap before before' (t :: ts) (t' :: ts')) (hspread : Spread (t :: ts))
    (hspread' : Spread (t' :: ts')) (hk : t.kind = .newline) (hk' : t'.kind = .newline) :
    SameGap before before' ts ts' := by
  obtain hnone | ⟨stop, stop', hbefore, hbefore', hle, hle', _⟩ := h
  · exact .inl hnone
  · have hlt (u) (hu : u ∈ ts) : stop < u.place.span.start := by
      have h₁ := hle t (by simp)
      have h₂ := hspread.newline t (by simp) hk
      have h₃ := (List.pairwise_cons.mp hspread.ordered).1 u hu
      omega
    have hlt' (u) (hu : u ∈ ts') : stop' < u.place.span.start := by
      have h₁ := hle' t' (by simp)
      have h₂ := hspread'.newline t' (by simp) hk'
      have h₃ := (List.pairwise_cons.mp hspread'.ordered).1 u hu
      omega
    refine .inr ⟨stop, stop', hbefore, hbefore', fun u hu => Nat.le_of_lt (hlt u hu),
      fun u hu => Nat.le_of_lt (hlt' u hu), fun u hu u' hu' _ => ?_⟩
    have hne := Nat.ne_of_lt (hlt u (List.mem_of_mem_head? hu))
    have hne' := Nat.ne_of_lt (hlt' u' (List.mem_of_mem_head? hu'))
    exact iff_of_false hne hne'

theorem SameGap.of_touching {t t' : Token} {ts ts' : List Token}
    (htouch : SameTouching (t :: ts) (t' :: ts')) (hspread : Spread (t :: ts))
    (hspread' : Spread (t' :: ts')) (hstop : ∀ u ∈ t :: ts, u.kind ≠ .stop)
    (hk : t.kind ≠ .newline) :
    SameGap (some t.place.span.stop) (some t'.place.span.stop) ts ts' := by
  refine .inr ⟨_, _, rfl, rfl, (List.pairwise_cons.mp hspread.ordered).1,
    (List.pairwise_cons.mp hspread'.ordered).1, fun u hu u' hu' hku => ?_⟩
  have hsecond : (t :: ts)[1]? = some u := by simpa [List.head?_eq_getElem?] using hu
  have hsecond' : (t' :: ts')[1]? = some u' := by simpa [List.head?_eq_getElem?] using hu'
  have heq := htouch 0 t rfl u hsecond t' rfl u' hsecond' ⟨hk, hstop t (by simp)⟩
    ⟨hku, hstop u (List.mem_of_getElem? hsecond)⟩
  unfold Span.touches at heq
  rw [← beq_iff_eq (a := t.place.span.stop), heq, beq_iff_eq]

/-- Tokens that differ at most in where they lie on their lines, but touch alike, have lexemes that
look alike. -/
theorem arrange_seen {ts ts' : List Token} {before before' : Option Nat}
    (hsame : List.Forall₂ SameOnLine ts ts') (htouch : SameTouching ts ts') (hspread : Spread ts)
    (hspread' : Spread ts') (hstop : ∀ t ∈ ts, t.kind ≠ .stop)
    (hgap : SameGap before before' ts ts') :
    (Lexeme.arrange before ts).map (Lexeme.seen id) =
      (Lexeme.arrange before' ts').map (Lexeme.seen id) := by
  induction hsame generalizing before before' with
  | nil => rfl
  | @cons t t' ts ts' ht hts ih =>
    have htail : SameTouching ts ts' := fun i => htouch (i + 1)
    have hnext : SameGap (if t.kind = .newline then before else some t.place.span.stop)
        (if t'.kind = .newline then before' else some t'.place.span.stop) ts ts' := by
      rw [← ht.kind]
      split
      next hk => exact hgap.newline hspread hspread' hk (ht.kind ▸ hk)
      next hk => exact .of_touching htouch hspread hspread' hstop hk
    rw [Lexeme.arrange, Lexeme.arrange, List.map_cons, List.map_cons,
      ih htail hspread.tail hspread'.tail (fun u hu => hstop u (by simp [hu])) hnext]
    refine congrArg₂ List.cons ?_ rfl
    unfold Lexeme.seen
    rw [← ht.kind, ← ht.text, ← ht.value, ← ht.line]
    by_cases hk : t.kind = .newline
    · simp only [hk, ↓reduceIte]
    · simp only [hk, ↓reduceIte, hgap.eq hk]

end Token

theorem Component.ofSource_of_tokenize (name : String) {source : String} {ts : List Token}
    (h : Token.tokenize source = .ok ts) : ofSource name source = ofTokens name ts := by
  rw [ofSource, h]
  rfl

open Token in
theorem sameReading_of_tokens (name : String) {source source' : String} {ts ts' : List Token}
    (h : tokenize source = .ok ts) (h' : tokenize source' = .ok ts')
    (hsame : List.Forall₂ SameOnLine ts ts') (htouch : SameTouching ts ts') :
    SameReading (Component.ofSource name source) (Component.ofSource name source') := by
  have htiles : Tiles [] source.toList ts := tiles_of_scanFrom (tokenize_eq_ok_iff.mp h)
  have htiles' : Tiles [] source'.toList ts' := tiles_of_scanFrom (tokenize_eq_ok_iff.mp h')
  have hspread := htiles.spread
  have hspread' := htiles'.spread
  rw [Component.ofSource_of_tokenize name h, Component.ofSource_of_tokenize name h']
  obtain ⟨body, rfl, hbody⟩ := htiles.ends
  obtain ⟨body', rfl, hbody'⟩ := htiles'.ends
  have hlength : body.length = body'.length := by simpa using hsame.length_eq
  have hbodies : List.Forall₂ SameOnLine body body' := by
    have htake := List.forall₂_take_append _ _ _ hsame
    rwa [← hlength, List.take_left] at htake
  have hends := List.forall₂_drop_append _ _ _ hsame
  rw [← hlength, List.drop_left, List.forall₂_cons] at hends
  have hnot {ts : List Token} (hts : ∀ t ∈ ts, t.kind ≠ .stop) : ∀ t ∈ ts, t.isEnd = false := by
    intro t ht
    simp [isEnd, hts t ht]
  have hinput := Input.ofTokens_append_stop
    (show (ofChars .stop [] (.after .start source.toList)).isEnd from rfl) (hnot hbody)
  have hinput' := Input.ofTokens_append_stop
    (show (ofChars .stop [] (.after .start source'.toList)).isEnd from rfl) (hnot hbody')
  refine sameReading_of_lexemes name ?_ ?_
  · have hfront : SameTouching body body' := by
      intro i t ht u hu t' ht' u' hu'
      have hleft {us vs : List Token} {j : Nat} {v : Token} (h : v ∈ us[j]?) :
          v ∈ (us ++ vs)[j]? := by
        rwa [List.getElem?_append_left (List.getElem?_eq_some_iff.mp h).1]
      exact htouch i t (hleft ht) u (hleft hu) t' (hleft ht') u' (hleft hu')
    rw [List.nil_append, hinput, List.nil_append, hinput']
    exact arrange_seen hbodies hfront hspread.of_prefix hspread'.of_prefix hbody (.inl ⟨rfl, rfl⟩)
  · rw [List.nil_append, hinput, List.nil_append, hinput']
    exact hends.1.line

/-- A text that is read alike when `x` is written as `x'`, from a given standing. -/
def ReadAlike (s : Standing) (x x' : List Char) : Prop :=
  ∀ ls e, Reads s x ls e → ∃ ls' e', Reads s x' ls' e' ∧
    ls.map (Lexeme.seen id) = ls'.map (Lexeme.seen id) ∧ e.line = e'.line

/-- What is read alike behind an edge is read alike behind all that can be read before the edge. -/
theorem ReadAlike.append {s e : Standing} {b x x' : List Char} {l : List Lexeme}
    (hb : Reads s b l e) (hx : AtEdge x) (hx' : AtEdge x')
    (hline : x.dropWhile (· ≠ '\n') = x'.dropWhile (· ≠ '\n')) (h : ReadAlike e x x') :
    ReadAlike s (b ++ x) (b ++ x') := by
  intro ls final hr
  obtain ⟨inComment, hiff⟩ := hb.append_iff
  obtain ⟨l', rfl, hr'⟩ := (hiff x hx ls final).mp hr
  cases inComment with
  | true =>
    rw [if_pos rfl, hline] at hr'
    exact ⟨l ++ l', final, (hiff x' hx' _ _).mpr ⟨l', rfl, by rwa [if_pos rfl]⟩, rfl, rfl⟩
  | false =>
    rw [if_neg nofun] at hr'
    obtain ⟨l'', final', hr'', hseen, hfinal⟩ := h l' final hr'
    refine ⟨l ++ l'', final', (hiff x' hx' _ _).mpr ⟨l'', rfl, by rwa [if_neg nofun]⟩, ?_, hfinal⟩
    rw [List.map_append, List.map_append, hseen]

theorem Reads.blanks_iff {s e : Standing} {gap behind : List Char} {ls : List Lexeme}
    (hne : gap ≠ []) (hgap : ∀ c ∈ gap, isBlank c) :
    Reads s (gap ++ behind) ls e ↔ Reads s.skip behind ls e := by
  induction gap generalizing s with
  | nil => exact absurd rfl hne
  | cons c gap ih =>
    rw [List.cons_append, blank_iff (hgap c (by simp))]
    cases gap with
    | nil => rfl
    | cons d gap =>
      rw [ih (by simp) fun c hc => hgap c (List.mem_cons_of_mem _ hc), Standing.skip_skip]

/-- At the end of a line it does not matter whether something was skipped. -/
theorem Reads.of_lineEnd {s e : Standing} {behind : List Char} {ls : List Lexeme}
    (hbehind : behind = [] ∨ behind.head? = some '\n') (h : Reads s behind ls e) :
    ∃ ls' e', Reads s.skip behind ls' e' ∧
      ls.map (Lexeme.seen id) = ls'.map (Lexeme.seen id) ∧ e.line = e'.line := by
  obtain rfl | hhead := hbehind
  · obtain ⟨rfl, rfl⟩ := nil_iff.mp h
    exact ⟨[], e.skip, .nil, rfl, rfl⟩
  · obtain ⟨rest, rfl⟩ := List.head?_eq_some_iff.mp hhead
    obtain ⟨l, rfl, hr⟩ := newline_iff.mp h
    refine ⟨_, e, newline_iff.mpr ⟨l, rfl, ?_⟩, rfl, rfl⟩
    rwa [Standing.skip_past_newline]

/-- One change of a source's layout: a gap made of blanks gets other blanks, or blanks that a
comment may follow are added to the end of a line. -/
inductive LayoutEdit (source source' : String) : Prop where
  | resize {before gap gap' behind : List Char} :
      source.toList = before ++ (gap ++ behind) → source'.toList = before ++ (gap' ++ behind) →
      gap ≠ [] → (∀ c ∈ gap, isBlank c) → gap' ≠ [] → (∀ c ∈ gap', isBlank c) →
      (∀ ts, Token.tokenize source = .ok ts → ∀ t ∈ ts,
        t.place.span.stop ≤ byteLength before ∨
          byteLength (before ++ gap) ≤ t.place.span.start) →
      LayoutEdit source source'
  | lineEnd {before blanks comment behind : List Char} :
      source.toList = before ++ behind →
      source'.toList = before ++ (blanks ++ comment ++ behind) →
      (behind = [] ∨ behind.head? = some '\n') → blanks ≠ [] → (∀ c ∈ blanks, isBlank c) →
      (comment = [] ∨ Kind.comment.Matches comment) →
      LayoutEdit source source'

theorem atEdge_of_blanks {gap : List Char} (hne : gap ≠ []) (hgap : ∀ c ∈ gap, isBlank c)
    (behind : List Char) : AtEdge (gap ++ behind) := by
  cases gap with
  | nil => exact absurd rfl hne
  | cons c gap =>
    intro d hd
    cases hd
    exact .inl (hgap c (by simp))

theorem dropWhile_sameLine {cs : List Char} (h : '\n' ∉ cs) (behind : List Char) :
    (cs ++ behind).dropWhile (· ≠ '\n') = behind.dropWhile (· ≠ '\n') := by
  refine List.dropWhile_append_of_pos fun c hc => ?_
  have hne : c ≠ '\n' := fun heq => h (heq ▸ hc)
  simpa using hne

theorem newline_notMem_blanks {gap : List Char} (hgap : ∀ c ∈ gap, isBlank c) : '\n' ∉ gap :=
  fun hmem => nomatch hgap _ hmem

theorem dropWhile_lineEnd {behind : List Char} (h : behind = [] ∨ behind.head? = some '\n') :
    behind.dropWhile (· ≠ '\n') = behind := by
  obtain rfl | hhead := h
  · rfl
  · obtain ⟨rest, rfl⟩ := List.head?_eq_some_iff.mp hhead
    rfl

/-- A gap can be of any size. -/
theorem readAlike_resize (s : Standing) {gap gap' behind : List Char} (hne : gap ≠ [])
    (hgap : ∀ c ∈ gap, isBlank c) (hne' : gap' ≠ []) (hgap' : ∀ c ∈ gap', isBlank c) :
    ReadAlike s (gap ++ behind) (gap' ++ behind) := by
  intro ls e hr
  rw [Reads.blanks_iff hne hgap] at hr
  exact ⟨ls, e, (Reads.blanks_iff hne' hgap').mpr hr, rfl, rfl⟩

/-- What is added to the end of a line is skipped. -/
theorem readAlike_lineEnd (s : Standing) {blanks comment behind : List Char}
    (hbehind : behind = [] ∨ behind.head? = some '\n') (hne : blanks ≠ [])
    (hblanks : ∀ c ∈ blanks, isBlank c) (hcomment : comment = [] ∨ Kind.comment.Matches comment) :
    ReadAlike s behind (blanks ++ comment ++ behind) := by
  intro ls e hr
  obtain ⟨ls', e', hr', hseen, hline⟩ := hr.of_lineEnd hbehind
  refine ⟨ls', e', ?_, hseen, hline⟩
  rw [List.append_assoc, Reads.blanks_iff hne hblanks]
  obtain rfl | ⟨body, rfl, hbody⟩ := hcomment
  · exact hr'
  · have hslash : '\n' ∉ '/' :: body := by simpa using hbody
    rw [List.cons_append, List.cons_append, Reads.comment_iff, ← List.cons_append,
      dropWhile_sameLine hslash, dropWhile_lineEnd hbehind, Standing.skip_skip]
    exact hr'

open Token in
theorem LayoutEdit.readAlike {source source' : String} (h : LayoutEdit source source')
    {ts : List Token} (hts : tokenize source = .ok ts) :
    ReadAlike .start source.toList source'.toList := by
  have hscan := tokenize_eq_ok_iff.mp hts
  have hstart (b : List Char) : Point.start.offset + byteLength b = byteLength b := Nat.zero_add _
  cases h with
  | @resize before gap gap' behind hsource hsource' hne hgap hne' hgap' hclear =>
    have hx := atEdge_of_blanks hne hgap behind
    have hx' := atEdge_of_blanks hne' hgap' behind
    rw [scan, hsource] at hscan
    obtain ⟨l, e, hb⟩ := Reads.of_uncrossed hx hscan (hstart before) (fun t ht => by
      refine (hclear ts hts t ht).imp_right fun hle => ?_
      rw [byteLength_append] at hle
      omega) .start
    rw [hsource, hsource']
    refine ReadAlike.append hb hx hx' ?_ (readAlike_resize e hne hgap hne' hgap')
    rw [dropWhile_sameLine (newline_notMem_blanks hgap),
      dropWhile_sameLine (newline_notMem_blanks hgap')]
  | @lineEnd before blanks comment behind hsource hsource' hbehind hne hblanks hcomment =>
    have hx := atEdge_of_lineEnd hbehind
    have hx' : AtEdge (blanks ++ comment ++ behind) := by
      rw [List.append_assoc]
      exact atEdge_of_blanks hne hblanks _
    obtain ⟨l, e, hb⟩ := Reads.of_line hts hsource hbehind
    rw [hsource, hsource']
    refine ReadAlike.append hb hx hx' ?_ (readAlike_lineEnd e hbehind hne hblanks hcomment)
    have hcomment' : '\n' ∉ comment := by
      obtain rfl | ⟨body, rfl, hbody⟩ := hcomment
      · exact List.not_mem_nil
      · simpa using hbody
    rw [List.append_assoc, dropWhile_sameLine (newline_notMem_blanks hblanks),
      dropWhile_sameLine hcomment']

/-- Whatever its layout is changed to, a source that can be tokenized still can, and reads the
same. -/
theorem sameReading_of_edits (name : String) {source source' : String}
    (h : Relation.ReflTransGen LayoutEdit source source')
    (hts : ∃ ts, Token.tokenize source = .ok ts) :
    (∃ ts, Token.tokenize source' = .ok ts) ∧
      SameReading (Component.ofSource name source) (Component.ofSource name source') := by
  induction h with
  | refl => exact ⟨hts, .refl _⟩
  | @tail middle source' _ hedit ih =>
    obtain ⟨⟨ts, hmiddle⟩, hsame⟩ := ih
    obtain ⟨e, hreads, hline⟩ := Reads.of_tokenize hmiddle
    obtain ⟨ls, e', hreads', hseen, hend⟩ := hedit.readAlike hmiddle _ _ hreads
    obtain ⟨ts', hts', rfl, hline'⟩ := hreads'.tokenize
    refine ⟨⟨ts', hts'⟩, hsame.trans ?_⟩
    rw [Component.ofSource_of_tokenize name hmiddle, Component.ofSource_of_tokenize name hts']
    exact sameReading_of_lexemes name hseen (by rw [hline, hline', hend])

/-- The source with a carriage return before each newline. -/
def withCarriageReturns (source : String) : String :=
  String.ofList (source.toList.flatMap fun c => if c = '\n' then ['\r', '\n'] else [c])

theorem edits_withCarriageReturns (source : String) :
    Relation.ReflTransGen LayoutEdit source (withCarriageReturns source) := by
  -- The newlines are changed one after the other; `done` stands before those still to come.
  have hrest : ∀ done rest : List Char, Relation.ReflTransGen LayoutEdit
      (String.ofList (done ++ rest))
      (String.ofList (done ++ rest.flatMap fun c => if c = '\n' then ['\r', '\n'] else [c])) := by
    intro done rest
    induction rest generalizing done with
    | nil => exact .refl
    | cons c rest ih =>
      rw [List.flatMap_cons]
      split
      next hc =>
        subst hc
        have hnext := ih (done ++ ['\r', '\n'])
        rw [List.append_assoc, List.append_assoc] at hnext
        refine .head ?_ hnext
        have hreturn : ∀ c ∈ ['\r'], isBlank c := by simp [isBlank]
        have htext : (String.ofList (done ++ (['\r', '\n'] ++ rest))).toList
            = done ++ (['\r'] ++ [] ++ '\n' :: rest) := String.toList_ofList
        exact .lineEnd String.toList_ofList htext (.inr rfl) (List.cons_ne_nil _ _) hreturn
          (.inl rfl)
      next =>
        have hnext := ih (done ++ [c])
        rwa [List.append_assoc, List.append_assoc] at hnext
  have hall := hrest [] source.toList
  rwa [List.nil_append, List.nil_append, String.ofList_toList] at hall

end Sigil
