import Mathlib.Data.List.Chain
import Sigil.Proofs.Munch
import Sigil.Proofs.Positions

namespace Sigil

/-- What can stand between two tokens: blanks, and a comment behind them. -/
def IsGap (cs : List Char) : Prop :=
  ∃ blanks comment, cs = blanks ++ comment ∧ (∀ c ∈ blanks, isBlank c) ∧
    (comment = [] ∨ Kind.comment.Matches comment)

namespace IsGap

theorem nil : IsGap [] := ⟨[], [], rfl, by simp, .inl rfl⟩

theorem newline_not_mem {cs : List Char} (h : IsGap cs) : '\n' ∉ cs := by
  obtain ⟨blanks, comment, rfl, hblanks, hcomment⟩ := h
  have hblank : '\n' ∉ blanks := fun hm => absurd (hblanks _ hm) (by decide)
  rcases hcomment with rfl | ⟨body, rfl, hbody⟩
  · simpa using hblank
  · simp [hblank, hbody]

theorem blank {c : Char} {cs : List Char} (hc : isBlank c) (h : IsGap cs) : IsGap (c :: cs) := by
  obtain ⟨blanks, comment, rfl, hblanks, hcomment⟩ := h
  exact ⟨c :: blanks, comment, rfl, List.forall_mem_cons.mpr ⟨hc, hblanks⟩, hcomment⟩

/-- What would follow a comment on its line is a part of it. -/
theorem comment {cs ds : List Char} (hcs : Kind.comment.Matches cs) (h : IsGap ds) :
    IsGap (cs ++ ds) := by
  have hline := h.newline_not_mem
  obtain ⟨body, rfl, hbody⟩ := hcs
  exact ⟨[], _, rfl, by simp, .inr ⟨body ++ ds, rfl, by simp [hbody, hline]⟩⟩

end IsGap

/-- What is skipped stands in a gap. -/
theorem Front.isGap_of_skipped {c : Char} {cs : List Char} {n : Nat} (h : read c cs = .skipped n)
    {gap : List Char} (hgap : IsGap gap) : IsGap (c :: cs.take n ++ gap) := by
  rcases read_skipped_cases h with ⟨hc, rfl⟩ | ⟨others, rfl, rfl, rfl⟩
  · exact hgap.blank hc
  · have htake := List.prefix_iff_eq_take.mp
      (List.takeWhile_prefix (l := '/' :: others) (· ≠ '\n'))
    rw [← htake]
    refine IsGap.comment ⟨others.takeWhile (· ≠ '\n'), rfl, fun hm => ?_⟩ hgap
    exact absurd (List.mem_takeWhile_imp hm) (by decide)

theorem Quoted.newline_not_mem {quote : Char} {cs : List Char} (h : Quoted quote cs) :
    '\n' ∉ cs := by
  induction h with
  | nil => simp
  | plain _ _ hc _ ih => simp [Ne.symm hc, ih]
  | escaped hc _ ih => simp [Ne.symm hc, ih]

/-- Only a newline takes a newline. -/
theorem Kind.Matches.eq_newline {kind : Kind} {cs : List Char} (h : kind.Matches cs)
    (hm : '\n' ∈ cs) : kind = .newline := by
  cases kind with
  | symbol s =>
    have htext := s.oneLine_text
    rw [OneLine, ← h] at htext
    exact absurd hm htext
  | string =>
    obtain ⟨quote, body, hquote, hbody, rfl⟩ := h
    have hne : '\n' ≠ quote := by rcases hquote with rfl | rfl <;> decide
    simp [hne, hbody.newline_not_mem] at hm
  | number => exact absurd hm (Token.isNumeral_no_newline h)
  | ident =>
    obtain ⟨first, others, rfl, hfirst, hothers⟩ := h
    rcases List.mem_cons.mp hm with heq | hm
    · exact absurd hfirst (by rw [← heq]; decide)
    · exact absurd (hothers _ hm) (by decide)
  | comment =>
    obtain ⟨body, rfl, hbody⟩ := h
    simp [hbody] at hm
  | newline => rfl
  | stop => exact h.elim

namespace Token

/-- A text at the front of an input that is matched by the pattern of a kind, and no pattern matches
a longer one. -/
def IsLongest (kind : Kind) (text input : List Char) : Prop :=
  text <+: input ∧ kind.Matches text ∧
    ∀ (kind' : Kind) (text' : List Char),
      kind'.Matches text' → text' <+: input → text'.length ≤ text.length

theorem isLongest_of_read {c : Char} {cs : List Char} {kind : Kind} {n : Nat}
    (h : Front.read c cs = .token kind n) : IsLongest kind (c :: cs.take n) (c :: cs) := by
  refine ⟨?_, Front.read_matches h, fun kind' text' htext hfront => ?_⟩
  · exact List.cons_prefix_cons.mpr ⟨rfl, List.take_prefix n cs⟩
  · have hlength := Front.read_longest h htext hfront
    have hinput := hfront.length_le
    rw [List.length_cons] at hinput ⊢
    rw [List.length_take]
    omega

/-- Tokens that take the characters `cs`, which stand behind `before`, one after the other: each
behind a gap, and the longest that can be read there. -/
inductive Tiles : List Char → List Char → List Token → Prop where
  | stop {before gap : List Char} :
      IsGap gap → Tiles before gap [ofChars .stop [] (Point.start.after (before ++ gap))]
  | token {before gap text behind : List Char} {kind : Kind} {ts : List Token} :
      IsGap gap → IsLongest kind text (text ++ behind) → Tiles (before ++ gap ++ text) behind ts →
      Tiles before (gap ++ (text ++ behind))
        (ofChars kind text (Point.start.after (before ++ gap)) :: ts)

/-- What is skipped before a tiling is added to its first gap. -/
theorem Tiles.skip {before skipped cs : List Char} {ts : List Token}
    (hskipped : ∀ gap, IsGap gap → IsGap (skipped ++ gap))
    (h : Tiles (before ++ skipped) cs ts) : Tiles before (skipped ++ cs) ts := by
  cases h with
  | stop hgap =>
    rw [List.append_assoc]
    exact .stop (hskipped _ hgap)
  | token hgap hlongest hrest =>
    rw [List.append_assoc before] at hrest ⊢
    rw [← List.append_assoc skipped]
    exact .token (hskipped _ hgap) hlongest hrest

theorem tiles_of_scanFrom {before cs : List Char} {ts : List Token}
    (h : scanFrom (Point.start.after before) cs = ts.map .ok) : Tiles before cs ts := by
  generalize hp : Point.start.after before = p at h
  fun_induction scanFrom p cs generalizing before ts with
  | case1 p =>
    obtain ⟨t, rest, rfl, ht, hrest⟩ := List.map_eq_cons_iff.mp h.symm
    cases ht
    obtain rfl := List.map_eq_nil_iff.mp hrest
    have hstop : Tiles before [] [ofChars .stop [] (Point.start.after (before ++ []))] :=
      .stop IsGap.nil
    rwa [List.append_nil, hp] at hstop
  | case2 p c cs n hr ih =>
    have hsplit : c :: cs = (c :: cs.take n) ++ cs.drop n := by simp
    have hrest : Tiles (before ++ c :: cs.take n) (cs.drop n) ts :=
      ih (by rw [Point.after_append, hp]) h
    rw [hsplit]
    exact hrest.skip fun gap hgap => Front.isGap_of_skipped hr hgap
  | case3 p c cs kind n hr ih =>
    obtain ⟨t, rest, rfl, ht, hrest⟩ := List.map_eq_cons_iff.mp h.symm
    cases ht
    have hsplit : c :: cs = (c :: cs.take n) ++ cs.drop n := by simp
    have hbehind : Tiles (before ++ [] ++ c :: cs.take n) (cs.drop n) rest := by
      rw [List.append_nil]
      exact ih (by rw [Point.after_append, hp]) hrest.symm
    have hlongest := isLongest_of_read hr
    rw [hsplit] at hlongest
    have htoken := Tiles.token IsGap.nil hlongest hbehind
    rw [List.append_nil, hp, List.nil_append, ← hsplit] at htoken
    exact htoken
  | case4 p c cs n hr =>
    obtain ⟨t, rest, rfl, ht, hrest⟩ := List.map_eq_cons_iff.mp h.symm
    cases ht

theorem ofChars_span (kind : Kind) (before text : List Char) :
    (ofChars kind text (Point.start.after before)).place.span =
      ⟨byteLength before, byteLength (before ++ text)⟩ := by
  have hstart : (Point.start.after before).offset = byteLength before := by
    rw [Point.offset_after]
    exact Nat.zero_add _
  have hstop : ((Point.start.after before).after text).offset = byteLength (before ++ text) := by
    rw [Point.offset_after, hstart, byteLength_append]
  change Span.mk _ _ = _
  rw [hstart, hstop]

/-- Where a token of a tiling stands, and what it takes. -/
theorem Tiles.of_mem {before cs : List Char} {ts : List Token} (h : Tiles before cs ts) {t : Token}
    (ht : t ∈ ts) :
    ∃ front text behind, before ++ cs = front ++ (text ++ behind) ∧ before <+: front ∧
      t = ofChars t.kind text (Point.start.after front) ∧
      (t.kind ≠ .stop → IsLongest t.kind text (text ++ behind)) := by
  induction h with
  | @stop before gap hgap =>
    obtain rfl := List.mem_singleton.mp ht
    exact ⟨before ++ gap, [], [], by simp, List.prefix_append _ _, rfl, fun hk => absurd rfl hk⟩
  | @token before gap text behind kind ts hgap hlongest hrest ih =>
    rcases List.mem_cons.mp ht with rfl | ht
    · exact ⟨before ++ gap, text, behind, by simp, List.prefix_append _ _, rfl, fun _ => hlongest⟩
    · obtain ⟨front, text', behind', hfront, hbefore, htoken⟩ := ih ht
      refine ⟨front, text', behind', by simpa using hfront, ?_, htoken⟩
      rw [List.append_assoc] at hbefore
      exact (List.prefix_append _ _).trans hbefore

theorem Tiles.start_le {before cs : List Char} {ts : List Token} (h : Tiles before cs ts)
    {t : Token} (ht : t ∈ ts) : byteLength before ≤ t.place.span.start := by
  obtain ⟨front, text, behind, _, ⟨more, rfl⟩, htoken, _⟩ := h.of_mem ht
  rw [htoken, ofChars_span, byteLength_append]
  exact Nat.le_add_right _ _

theorem Tiles.ordered {before cs : List Char} {ts : List Token} (h : Tiles before cs ts) :
    ts.Pairwise fun a b => a.place.span.stop ≤ b.place.span.start := by
  induction h with
  | stop hgap => exact List.pairwise_singleton _ _
  | token hgap hlongest hrest ih =>
    refine List.pairwise_cons.mpr ⟨fun t ht => ?_, ih⟩
    rw [ofChars_span]
    exact hrest.start_le ht

/-- Between the bytes `start` and `stop` of a source there is nothing but a gap. -/
def GapBetween (source : List Char) (start stop : Nat) : Prop :=
  ∃ before gap behind, source = before ++ (gap ++ behind) ∧ IsGap gap ∧
    byteLength before = start ∧ byteLength (before ++ gap) = stop

theorem Tiles.gap_first {before cs : List Char} {ts : List Token} (h : Tiles before cs ts) :
    ∀ t ∈ ts.head?, GapBetween (before ++ cs) (byteLength before) t.place.span.start := by
  intro t ht
  cases h with
  | stop hgap =>
    cases ht
    exact ⟨before, _, [], by simp, hgap, rfl, by rw [ofChars_span]⟩
  | token hgap hlongest hrest =>
    cases ht
    exact ⟨before, _, _, rfl, hgap, rfl, by rw [ofChars_span]⟩

theorem Tiles.gaps {before cs : List Char} {ts : List Token} (h : Tiles before cs ts) :
    ts.IsChain fun a b => GapBetween (before ++ cs) a.place.span.stop b.place.span.start := by
  induction h with
  | stop hgap => exact .singleton _
  | @token before gap text behind kind ts hgap hlongest hrest ih =>
    have hsource : before ++ gap ++ text ++ behind = before ++ (gap ++ (text ++ behind)) := by simp
    have hfirst := hrest.gap_first
    rw [hsource] at hfirst ih
    refine List.IsChain.cons ih fun t ht => ?_
    rw [ofChars_span]
    exact hfirst t ht

theorem Tiles.ends {before cs : List Char} {ts : List Token} (h : Tiles before cs ts) :
    ∃ body, ts = body ++ [ofChars .stop [] (Point.start.after (before ++ cs))] ∧
      ∀ t ∈ body, t.kind ≠ .stop := by
  induction h with
  | stop hgap => exact ⟨[], rfl, by simp⟩
  | @token before gap text behind kind ts hgap hlongest hrest ih =>
    obtain ⟨body, rfl, hbody⟩ := ih
    refine ⟨ofChars kind text (Point.start.after (before ++ gap)) :: body, by simp, ?_⟩
    have hkind : kind ≠ .stop := by
      rintro rfl
      exact hlongest.2.1
    exact List.forall_mem_cons.mpr ⟨hkind, hbody⟩

end Token

theorem Kind.Matches.count_newline {kind : Kind} {cs : List Char} (h : kind.Matches cs) :
    cs.count '\n' = if kind = .newline then 1 else 0 := by
  split
  next hk =>
    subst kind
    obtain rfl : cs = ['\n'] := h
    rfl
  next hk => exact List.count_eq_zero.mpr fun hm => hk (h.eq_newline hm)

namespace Token

/-- The stops of the newlines are the starts of the lines. -/
theorem Tiles.newline_stops {before cs : List Char} {ts : List Token} (h : Tiles before cs ts) :
    (ts.filter (·.kind = .newline)).map (·.place.span.stop) =
      LineIndex.startsFrom (byteLength before) cs := by
  induction h with
  | @stop before gap hgap =>
    rw [LineIndex.startsFrom_of_not_mem _ hgap.newline_not_mem]
    rfl
  | @token before gap text behind kind ts hgap hlongest hrest ih =>
    rw [LineIndex.startsFrom_append, LineIndex.startsFrom_of_not_mem _ hgap.newline_not_mem,
      List.nil_append, LineIndex.startsFrom_append, ← byteLength_append, ← byteLength_append, ← ih]
    by_cases hk : kind = .newline
    · subst kind
      obtain rfl : text = ['\n'] := hlongest.2.1
      rw [List.filter_cons_of_pos (by rfl), List.map_cons, ofChars_span,
        LineIndex.startsFrom_newline, byteLength_append (before ++ gap)]
      rfl
    · have hline : '\n' ∉ text := fun hm => hk (hlongest.2.1.eq_newline hm)
      have hfirst : (ofChars kind text (Point.start.after (before ++ gap))).kind ≠ .newline := hk
      rw [List.filter_cons_of_neg (by simpa using hfirst),
        LineIndex.startsFrom_of_not_mem _ hline, List.nil_append]

/-- The line of a token counts the newlines before it. -/
theorem Tiles.line {before cs : List Char} {ts : List Token} (h : Tiles before cs ts)
    {init rest : List Token} {t : Token} (hts : ts = init ++ t :: rest) :
    t.place.line = 1 + before.count '\n' + init.countP (·.kind = .newline) := by
  have hline (front : List Char) : (Point.start.after front).line = 1 + front.count '\n' :=
    Point.line_after _ _
  induction h generalizing init with
  | @stop before gap hgap =>
    have hgaps := List.count_eq_zero.mpr hgap.newline_not_mem
    obtain ⟨rfl, rfl, rfl⟩ : init = [] ∧ ofChars .stop [] (Point.start.after (before ++ gap)) = t ∧
        rest = [] := by
      cases init with
      | nil => simpa using hts
      | cons first init => simp at hts
    change (Point.start.after (before ++ gap)).line = _
    rw [hline, List.count_append, hgaps]
    rfl
  | @token before gap text behind kind ts hgap hlongest hrest ih =>
    have hgaps := List.count_eq_zero.mpr hgap.newline_not_mem
    cases init with
    | nil =>
      obtain ⟨rfl, rfl⟩ := List.cons.inj hts
      change (Point.start.after (before ++ gap)).line = _
      rw [hline, List.count_append, hgaps]
      rfl
    | cons first init =>
      obtain ⟨rfl, hothers⟩ := List.cons.inj hts
      have hcount := hlongest.2.1.count_newline
      rw [ih hothers, List.count_append, List.count_append, hgaps, hcount, List.countP_cons]
      change _ = 1 + before.count '\n' +
        (init.countP (·.kind = .newline) + if decide (kind = .newline) = true then 1 else 0)
      simp only [decide_eq_true_eq]
      omega

/-- How the tokens of a source lie in it. -/
structure Tiling (source : String) (ts : List Token) : Prop where
  /-- The spans do not overlap and are in order. -/
  ordered : ts.Pairwise fun a b => a.place.span.stop ≤ b.place.span.start
  /-- A token takes the slice of its span, which is the longest text that any pattern matches. -/
  slice : ∀ t ∈ ts, t.kind ≠ .stop → ∃ before behind,
    source.toList = before ++ (t.text.toList ++ behind) ∧
      t.place.span = ⟨byteLength before, byteLength (before ++ t.text.toList)⟩ ∧
      IsLongest t.kind t.text.toList (t.text.toList ++ behind)
  /-- Before the first token and between two tokens there are only gaps. -/
  gap_first : ∀ t ∈ ts.head?, GapBetween source.toList 0 t.place.span.start
  gaps : ts.IsChain fun a b => GapBetween source.toList a.place.span.stop b.place.span.start
  /-- A stop, and no other, is the last token. It is empty and stands at the end. -/
  ends : ∃ body stop, ts = body ++ [stop] ∧ stop.kind = .stop ∧ stop.text = "" ∧
    stop.place.span = .empty (byteLength source.toList) ∧ ∀ t ∈ body, t.kind ≠ .stop
  /-- Each newline of the source is a token. -/
  newline : ∀ before behind, source.toList = before ++ '\n' :: behind →
    ∃ t ∈ ts, t.kind = .newline ∧ t.text = "\n" ∧ t.place.span.start = byteLength before
  /-- There are no other tokens for newlines. -/
  newline_stops : (ts.filter (·.kind = .newline)).map (·.place.span.stop) =
    LineIndex.startsFrom 0 source.toList
  /-- The line of a token counts the newlines before it. -/
  line : ∀ before t behind, ts = before ++ t :: behind →
    t.place.line = 1 + before.countP (·.kind = .newline)
  /-- The line and the column are those of the span's start. -/
  position : ∀ t ∈ ts, (LineIndex.ofText source).position t.place.span.start =
    (t.place.line, t.place.column)

end Token

open Token in
/-- A source that can be tokenized is tiled by its tokens. -/
theorem tokenize_tiling {source : String} {ts : List Token}
    (h : Token.tokenize source = .ok ts) : Tiling source ts := by
  have htiles : Tiles [] source.toList ts := tiles_of_scanFrom (tokenize_eq_ok_iff.mp h)
  have hstops := htiles.newline_stops
  refine {
    ordered := htiles.ordered
    slice := fun t ht hk => ?_
    gap_first := htiles.gap_first
    gaps := htiles.gaps
    ends := ?_
    newline := fun before behind hsource => ?_
    newline_stops := hstops
    line := fun before t behind hts => htiles.line hts
    position := fun t ht => ?_ }
  · obtain ⟨front, text, behind, hsource, _, htoken, hlongest⟩ := htiles.of_mem ht
    have htext : t.text.toList = text := by
      rw [htoken]
      exact String.toList_ofList
    rw [htext]
    refine ⟨front, behind, hsource, ?_, hlongest hk⟩
    rw [htoken]
    exact ofChars_span t.kind front text
  · obtain ⟨body, hts, hbody⟩ := htiles.ends
    refine ⟨body, _, hts, rfl, rfl, ?_, hbody⟩
    rw [ofChars_span, List.append_nil]
    rfl
  · -- The line behind the newline starts where some newline stops.
    have hstart : byteLength before + 1 ∈ LineIndex.startsFrom 0 source.toList := by
      rw [hsource, LineIndex.startsFrom_append, Nat.zero_add]
      exact List.mem_append_right _ List.mem_cons_self
    rw [← show _ = LineIndex.startsFrom 0 source.toList from hstops] at hstart
    obtain ⟨t, ht, hstop⟩ := List.mem_map.mp hstart
    obtain ⟨ht, hk⟩ := List.mem_filter.mp ht
    have hk : t.kind = .newline := of_decide_eq_true hk
    obtain ⟨front, text, _, _, _, htoken, hlongest⟩ := htiles.of_mem ht
    rw [hk] at htoken hlongest
    obtain rfl : text = ['\n'] := (hlongest (by decide)).2.1
    refine ⟨t, ht, hk, by rw [htoken]; rfl, ?_⟩
    rw [htoken, ofChars_span, byteLength_append] at hstop
    rw [htoken, ofChars_span]
    exact Nat.add_right_cancel hstop
  · obtain ⟨front, text, behind, hsource, _, htoken, _⟩ := htiles.of_mem ht
    have hposition := LineIndex.position_of_prefix hsource
    rw [htoken, ofChars_span]
    exact hposition

/-- A longer symbol, a comment against a slash, a string that holds the start of a comment, and a
character of two bytes. -/
theorem tokenize_tiling_mixed :
    ∃ ts, Token.tokenize "@a += 'é//' // b\n\t- 1.5." = .ok ts ∧
      Token.Tiling "@a += 'é//' // b\n\t- 1.5." ts ∧
      ts.map (·.text) = ["@", "a", "+=", "'é//'", "\n", "-", "1.5", ".", ""] := by
  have hread : (Token.tokenize "@a += 'é//' // b\n\t- 1.5.").toOption.map (·.map (·.text)) =
      some ["@", "a", "+=", "'é//'", "\n", "-", "1.5", ".", ""] := by decide +kernel
  obtain ⟨ts, hts, htexts⟩ := Option.map_eq_some_iff.mp hread
  have hts := eq_ok_of_toOption hts
  exact ⟨ts, hts, tokenize_tiling hts, htexts⟩

end Sigil
