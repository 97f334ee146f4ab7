import Sigil.Proofs.Rereading
import Sigil.Proofs.Tiling

namespace Sigil

/-- Where a piece can end whatever it is: nothing follows, or a blank or a newline does. -/
def AtEdge (x : List Char) : Prop := ∀ c ∈ x.head?, isBlank c = true ∨ c = '\n'

theorem AtEdge.head_false {x : List Char} (hx : AtEdge x) {p : Char → Bool}
    (hp : [' ', '\t', '\r', '\n'].any p = false) : ∀ c ∈ x.head?, p c = false := by
  intro c hc
  have hmem : c ∈ [' ', '\t', '\r', '\n'] := by
    rcases hx c hc with h | rfl
    · simp only [isBlank, Bool.or_eq_true, beq_iff_eq] at h
      rcases h with (rfl | rfl) | rfl <;> decide
    · decide
  exact Bool.eq_false_iff.mpr (List.any_eq_false.mp hp c hmem)

theorem atEdge_of_lineEnd {behind : List Char} (h : behind = [] ∨ behind.head? = some '\n') :
    AtEdge behind := by
  intro c hc
  obtain rfl | hhead := h
  · cases hc
  · rw [hhead] at hc
    cases hc
    exact .inr rfl

theorem takeWhile_append_of_head {α : Type} {p : α → Bool} {x : List α}
    (hx : ∀ c ∈ x.head?, p c = false) (b : List α) : (b ++ x).takeWhile p = b.takeWhile p := by
  induction b with
  | nil =>
    cases x with
    | nil => rfl
    | cons c x => simp [hx c rfl]
  | cons c b ih => simp only [List.cons_append, List.takeWhile_cons, ih]

theorem dropWhile_append_of_head {α : Type} {p : α → Bool} {x : List α}
    (hx : ∀ c ∈ x.head?, p c = false) (b : List α) :
    (b ++ x).dropWhile p = b.dropWhile p ++ x := by
  induction b with
  | nil =>
    cases x with
    | nil => rfl
    | cons c x => simp [hx c rfl]
  | cons c b ih =>
    simp only [List.cons_append, List.dropWhile_cons, ih]
    split <;> rfl

/-- No symbol goes on over an edge. -/
theorem Symbol.atFront_append_edge {x : List Char} (hx : AtEdge x) (b : List Char) :
    atFront? (b ++ x) = atFront? b := by
  unfold atFront?
  congr 1
  funext s
  have htext : s.text.toList.all fun c => isBlank c = false ∧ c ≠ '\n' := by cases s <;> decide
  have htext := List.all_eq_true.mp htext
  refine Bool.eq_iff_iff.mpr ?_
  rw [List.isPrefixOf_iff_prefix, List.isPrefixOf_iff_prefix]
  refine ⟨fun h => ?_, fun h => h.trans (List.prefix_append b x)⟩
  rcases List.prefix_or_prefix_of_prefix h (List.prefix_append b x) with hb | ⟨r, hr⟩
  · exact hb
  · rw [← hr] at h htext ⊢
    cases r with
    | nil => rw [List.append_nil]
    | cons c r =>
      obtain ⟨y, hy⟩ := (List.prefix_append_right_inj b).mp h
      have hc : x.head? = some c := by rw [← hy]; rfl
      have hno := of_decide_eq_true (htext c (by simp))
      rcases hx c hc with hblank | hline
      · rw [hno.1] at hblank
        cases hblank
      · exact absurd hline hno.2

theorem drop_length_takeWhile {α : Type} (p : α → Bool) (cs : List α) :
    cs.drop (cs.takeWhile p).length = cs.dropWhile p := by
  induction cs with
  | nil => rfl
  | cons c cs ih =>
    rw [List.takeWhile_cons, List.dropWhile_cons]
    split
    · rw [List.length_cons, List.drop_succ_cons, ih]
    · rfl

theorem takeWhile_append_of_dropWhile_ne_nil {α : Type} {p : α → Bool} {cs : List α}
    (h : cs.dropWhile p ≠ []) (x : List α) : (cs ++ x).takeWhile p = cs.takeWhile p := by
  rw [List.takeWhile_append, if_neg]
  intro hall
  rw [← drop_length_takeWhile, hall, List.drop_length] at h
  exact h rfl

namespace Front

variable {x : List Char}

theorem numberExtent_le (cs : List Char) : numberExtent cs ≤ cs.length := by
  have hsplit :
      cs.length = (cs.takeWhile Char.isDigit).length + (cs.dropWhile Char.isDigit).length := by
    rw [← List.length_append, List.takeWhile_append_dropWhile]
  unfold numberExtent
  dsimp only
  split
  next d rest hdrop =>
    have hdigits := (List.takeWhile_prefix Char.isDigit (l := rest)).length_le
    rw [hdrop, List.length_cons, List.length_cons] at hsplit
    split <;> omega
  next => omega

/-- A token takes no more than there is. -/
theorem read_token_le {c : Char} {cs : List Char} {kind : Kind} {n : Nat}
    (h : read c cs = .token kind n) : n ≤ cs.length := by
  rcases read_token_cases h with ⟨rfl, rfl, rfl⟩ | ⟨rfl, hc, hn⟩ | ⟨rfl, hc, rfl⟩ |
    ⟨rfl, hc, rfl⟩ | ⟨s, rfl, hs, rfl⟩
  · exact Nat.zero_le _
  · have hslash : c ≠ '\\' := by rcases hc with rfl | rfl <;> decide
    obtain ⟨body, hbody, htake⟩ := quoted_of_stringExtent hn
    have hcs : cs = body ++ c :: cs.drop n := by
      rw [← List.singleton_append, ← List.append_assoc, ← htake, List.take_append_drop]
    rw [hcs, stringExtent_of_quoted hslash hbody] at hn
    have hlength := congrArg List.length hcs
    rw [List.length_append, List.length_cons] at hlength
    injection hn
    omega
  · exact numberExtent_le cs
  · exact (List.takeWhile_prefix _).length_le
  · have hfound := List.find?_some hs
    have hlength := (List.isPrefixOf_iff_prefix.mp hfound).length_le
    rw [List.length_cons, String.length_toList] at hlength
    omega

theorem numberExtent_append_edge (hx : AtEdge x) (b : List Char) :
    numberExtent (b ++ x) = numberExtent b := by
  have hdigit : ∀ c ∈ x.head?, c.isDigit = false := hx.head_false (by decide)
  have hpoint : ∀ c ∈ x.head?, (c == '.') = false := hx.head_false (by decide)
  unfold numberExtent
  rw [takeWhile_append_of_head hdigit, dropWhile_append_of_head hdigit]
  match hr : b.dropWhile Char.isDigit with
  | [] =>
    cases x with
    | nil => rfl
    | cons c x =>
      have hc : c ≠ '.' := beq_eq_false_iff_ne.mp (hpoint c rfl)
      simp [hc]
  | [c] =>
    cases x with
    | nil => rfl
    | cons d x => by_cases hc : c = '.' <;> simp [hc, hdigit d rfl]
  | c :: d :: r =>
    by_cases hc : c = '.'
    · subst hc
      simp only [List.cons_append, takeWhile_append_of_head hdigit]
    · simp [hc]

theorem head_append_edge (hx : AtEdge x) (b : List Char) :
    (b ++ x).head? = some '/' ↔ b.head? = some '/' := by
  cases b with
  | nil =>
    refine ⟨fun h => ?_, fun h => by cases h⟩
    have hslash : ∀ c ∈ x.head?, (c == '/') = false := hx.head_false (by decide)
    exact absurd (hslash '/' h) (by decide)
  | cons c b => rfl

/-- What follows an edge does not matter, unless a string or a comment goes on there. -/
theorem read_append_edge (hx : AtEdge x) {c : Char} {b : List Char}
    (hquote : ¬ (c = '"' ∨ c = '\'')) (hcomment : ¬ (c = '/' ∧ b.head? = some '/')) :
    read c (b ++ x) = read c b := by
  have hword : ∀ c ∈ x.head?, isWordPart c = false := hx.head_false (by decide)
  have hsymbol : Symbol.atFront? (c :: (b ++ x)) = Symbol.atFront? (c :: b) :=
    Symbol.atFront_append_edge hx (c :: b)
  have hcomment' : ¬ (c = '/' ∧ (b ++ x).head? = some '/') := by rwa [head_append_edge hx]
  unfold read
  simp only [if_neg hcomment, if_neg hcomment', if_neg hquote, numberExtent_append_edge hx,
    takeWhile_append_of_head hword, hsymbol]

theorem read_blankOf {c : Char} (hc : isBlank c = true) (cs : List Char) :
    read c cs = .skipped 0 := by
  unfold read
  rw [if_pos hc]

theorem read_comment (cs : List Char) :
    read '/' ('/' :: cs) = .skipped (('/' :: cs).takeWhile (· ≠ '\n')).length := rfl

theorem stringExtent_append {quote : Char} (hquote : quote ≠ '\\') {b : List Char} {n : Nat}
    (h : stringExtent quote b = (n, true)) (x : List Char) :
    stringExtent quote (b ++ x) = (n, true) := by
  obtain ⟨body, hbody, htake⟩ := quoted_of_stringExtent h
  have hb : b = body ++ quote :: b.drop n := by
    rw [← List.singleton_append, ← List.append_assoc, ← htake, List.take_append_drop]
  rw [hb, stringExtent_of_quoted hquote hbody] at h
  rw [hb, List.append_assoc, List.cons_append, stringExtent_of_quoted hquote hbody, h]

theorem stringExtent_of_append {quote : Char} (hquote : quote ≠ '\\') {b x : List Char} {n : Nat}
    (h : stringExtent quote (b ++ x) = (n, true)) (hn : n ≤ b.length) :
    stringExtent quote b = (n, true) := by
  obtain ⟨body, hbody, htake⟩ := quoted_of_stringExtent h
  rw [List.take_append_of_le_length hn] at htake
  have hb : b = body ++ quote :: b.drop n := by
    rw [← List.singleton_append, ← List.append_assoc, ← htake, List.take_append_drop]
  rw [hb, List.append_assoc, List.cons_append, stringExtent_of_quoted hquote hbody] at h
  rw [hb, stringExtent_of_quoted hquote hbody, h]

theorem read_token_append (hx : AtEdge x) {c : Char} {b : List Char} {kind : Kind} {n : Nat}
    (h : read c b = .token kind n) : read c (b ++ x) = .token kind n := by
  by_cases hquote : c = '"' ∨ c = '\''
  · have hslash : c ≠ '\\' := by rcases hquote with rfl | rfl <;> decide
    rw [read_of_quote hquote] at h ⊢
    split at h
    next m he => rw [stringExtent_append hslash he]; exact h
    next => cases h
  · rw [read_append_edge hx hquote, h]
    rintro ⟨rfl, hhead⟩
    obtain ⟨others, rfl⟩ := List.head?_eq_some_iff.mp hhead
    rw [read_comment] at h
    cases h

theorem read_token_of_append (hx : AtEdge x) {c : Char} {b : List Char} {kind : Kind} {n : Nat}
    (h : read c (b ++ x) = .token kind n) (hn : n ≤ b.length) : read c b = .token kind n := by
  by_cases hquote : c = '"' ∨ c = '\''
  · have hslash : c ≠ '\\' := by rcases hquote with rfl | rfl <;> decide
    rw [read_of_quote hquote] at h ⊢
    split at h
    next m he =>
      cases h
      rw [stringExtent_of_append hslash he hn]
    next => cases h
  · rw [read_append_edge hx hquote] at h
    · exact h
    · rintro ⟨rfl, hhead⟩
      obtain ⟨others, rfl⟩ := List.head?_eq_some_iff.mp hhead
      rw [List.cons_append, read_comment] at h
      cases h

end Front

/-- Where a reader stands: how the next token lies behind the last one that is no newline, if there
is one, and the line. -/
structure Standing where
  before : Option Gap
  line : Nat

namespace Standing

def start : Standing := ⟨none, 1⟩

/-- Behind something that is skipped. -/
def skip (s : Standing) : Standing := ⟨s.before.map fun _ => .spaced, s.line⟩

/-- Behind a token. -/
def past (s : Standing) (kind : Kind) : Standing :=
  if kind = .newline then ⟨s.before.map fun _ => .spaced, s.line + 1⟩ else ⟨some .touching, s.line⟩

/-- The lexeme of a token that is spelled `text`. -/
def lexeme (s : Standing) (kind : Kind) (text : List Char) : Lexeme :=
  ⟨kind, String.ofList text, Token.valueOf kind text, s.line, s.before.getD .touching⟩

theorem skip_skip (s : Standing) : s.skip.skip = s.skip := by
  unfold skip
  rw [Option.map_map]
  rfl

theorem skip_past_newline (s : Standing) : s.skip.past .newline = s.past .newline := by
  unfold skip past
  rw [if_pos rfl, if_pos rfl, Option.map_map]
  rfl

end Standing

/-- The lexemes that are read off characters, from one standing to another. -/
inductive Reads : Standing → List Char → List Lexeme → Standing → Prop where
  | nil {s : Standing} : Reads s [] [] s
  | skip {s e : Standing} {c : Char} {cs : List Char} {n : Nat} {ls : List Lexeme} :
      Front.read c cs = .skipped n → Reads s.skip (cs.drop n) ls e → Reads s (c :: cs) ls e
  | token {s e : Standing} {c : Char} {cs : List Char} {kind : Kind} {n : Nat} {ls : List Lexeme} :
      Front.read c cs = .token kind n → Reads (s.past kind) (cs.drop n) ls e →
      Reads s (c :: cs) (s.lexeme kind (c :: cs.take n) :: ls) e

namespace Reads

variable {s e e' : Standing} {c : Char} {b cs x : List Char} {ls l : List Lexeme} {n : Nat}

theorem nil_iff : Reads s [] ls e ↔ ls = [] ∧ e = s := by
  refine ⟨fun h => ?_, ?_⟩
  · cases h
    exact ⟨rfl, rfl⟩
  · rintro ⟨rfl, rfl⟩
    exact .nil

theorem skip_iff (h : Front.read c cs = .skipped n) :
    Reads s (c :: cs) ls e ↔ Reads s.skip (cs.drop n) ls e := by
  refine ⟨fun hr => ?_, .skip h⟩
  cases hr with
  | skip h' hr =>
    rw [h] at h'
    cases h'
    exact hr
  | token h' hr =>
    rw [h] at h'
    cases h'

theorem token_iff {kind : Kind} (h : Front.read c cs = .token kind n) :
    Reads s (c :: cs) ls e ↔
      ∃ l, ls = s.lexeme kind (c :: cs.take n) :: l ∧ Reads (s.past kind) (cs.drop n) l e := by
  refine ⟨fun hr => ?_, ?_⟩
  · cases hr with
    | skip h' hr =>
      rw [h] at h'
      cases h'
    | token h' hr =>
      rw [h] at h'
      cases h'
      exact ⟨_, rfl, hr⟩
  · rintro ⟨l, rfl, hr⟩
    exact .token h hr

theorem blank_iff (hc : isBlank c = true) : Reads s (c :: cs) ls e ↔ Reads s.skip cs ls e :=
  skip_iff (Front.read_blankOf hc cs)

theorem newline_iff :
    Reads s ('\n' :: cs) ls e ↔
      ∃ l, ls = s.lexeme .newline ['\n'] :: l ∧ Reads (s.past .newline) cs l e :=
  token_iff (n := 0) rfl

/-- A comment is skipped up to the end of its line. -/
theorem comment_iff :
    Reads s ('/' :: '/' :: cs) ls e ↔ Reads s.skip (('/' :: cs).dropWhile (· ≠ '\n')) ls e := by
  rw [skip_iff (Front.read_comment cs)]
  rw [drop_length_takeWhile]

/-- A text is read in one way. -/
theorem unique {ls' : List Lexeme} (h : Reads s cs ls e) (h' : Reads s cs ls' e') :
    ls = ls' ∧ e = e' := by
  induction h generalizing ls' with
  | nil =>
    obtain ⟨rfl, rfl⟩ := nil_iff.mp h'
    exact ⟨rfl, rfl⟩
  | skip hread _ ih => exact ih ((skip_iff hread).mp h')
  | token hread _ ih =>
    obtain ⟨l, rfl, hr⟩ := (token_iff hread).mp h'
    obtain ⟨rfl, rfl⟩ := ih hr
    exact ⟨rfl, rfl⟩

/-- What is read behind an edge is read from where the reading before it stops, or, where that stops
in a comment, from the end of the line. -/
theorem append_iff (h : Reads s b l e) :
    ∃ inComment : Bool, ∀ x, AtEdge x → ∀ ls e', Reads s (b ++ x) ls e' ↔
      ∃ l', ls = l ++ l' ∧ Reads e (if inComment then x.dropWhile (· ≠ '\n') else x) l' e' := by
  induction h with
  | nil => exact ⟨false, fun x _ ls e' => by simp⟩
  | @skip s e c cs n ls hread hrest ih =>
    obtain ⟨inComment, ih⟩ := ih
    rcases Front.read_skipped_cases hread with ⟨hc, rfl⟩ | ⟨others, rfl, rfl, rfl⟩
    · refine ⟨inComment, fun x hx ls e' => ?_⟩
      rw [List.cons_append, blank_iff hc]
      exact ih x hx ls e'
    · by_cases hline : ('/' :: others).dropWhile (· ≠ '\n') = []
      · -- The comment is still open at the edge.
        rw [drop_length_takeWhile, hline] at hrest
        obtain ⟨rfl, rfl⟩ := nil_iff.mp hrest
        refine ⟨true, fun x hx ls e' => ?_⟩
        rw [List.cons_append, List.cons_append, comment_iff, ← List.cons_append,
          List.dropWhile_append, hline]
        simp
      · refine ⟨inComment, fun x hx ls e' => ?_⟩
        rw [List.cons_append, List.cons_append, comment_iff, ← List.cons_append,
          List.dropWhile_append, if_neg (by simpa [List.isEmpty_iff] using hline)]
        rw [drop_length_takeWhile] at ih
        exact ih x hx ls e'
  | @token s e c cs kind n ls hread hrest ih =>
    obtain ⟨inComment, ih⟩ := ih
    refine ⟨inComment, fun x hx ls' e' => ?_⟩
    have hn := Front.read_token_le hread
    rw [List.cons_append, token_iff (Front.read_token_append hx hread),
      List.take_append_of_le_length hn, List.drop_append_of_le_length hn]
    refine ⟨?_, ?_⟩
    · rintro ⟨l, rfl, hr⟩
      obtain ⟨l', rfl, hr'⟩ := (ih x hx l e').mp hr
      exact ⟨l', rfl, hr'⟩
    · rintro ⟨l', rfl, hr'⟩
      exact ⟨ls ++ l', rfl, (ih x hx _ e').mpr ⟨l', rfl, hr'⟩⟩

end Reads

namespace Standing

/-- Where a reader at `p` stands when the last token that is no newline stops at `before`. -/
def ofPoint (before : Option Nat) (p : Point) : Standing :=
  ⟨before.map (Gap.between · p.offset), p.line⟩

variable {before : Option Nat} {p : Point}

theorem map_between_of_lt {q : Point} (h : ∀ stop ∈ before, stop < q.offset) :
    before.map (Gap.between · q.offset) =
      (before.map (Gap.between · p.offset)).map fun _ => Gap.spaced := by
  cases before with
  | none => rfl
  | some stop =>
    have hlt : stop < q.offset := h stop rfl
    have hgap : Gap.between stop q.offset = .spaced := by
      unfold Gap.between
      rw [if_neg (Nat.ne_of_lt hlt), if_pos hlt]
    simp only [Option.map_some, hgap]

theorem lt_offset_after (h : ∀ stop ∈ before, stop ≤ p.offset) (c : Char) (cs : List Char) :
    ∀ stop ∈ before, stop < (p.after (c :: cs)).offset := by
  intro stop hstop
  have hle := h stop hstop
  obtain ⟨n, hn, _⟩ := LineIndex.byteLength_cons_eq_succ c cs
  rw [Point.offset_after, hn]
  omega

variable {text : List Char}

theorem ofPoint_after_gap (hlt : ∀ stop ∈ before, stop < (p.after text).offset)
    (hline : '\n' ∉ text) : ofPoint before (p.after text) = (ofPoint before p).skip := by
  unfold ofPoint skip
  rw [map_between_of_lt (p := p) hlt, Point.line_after, List.count_eq_zero.mpr hline]
  rfl

theorem ofPoint_after_token {kind : Kind} (hlt : ∀ stop ∈ before, stop < (p.after text).offset)
    (htext : kind.Matches text) :
    ofPoint (if kind = .newline then before else some (p.after text).offset) (p.after text) =
      (ofPoint before p).past kind := by
  unfold ofPoint past
  rw [Point.line_after, htext.count_newline]
  split
  next hk => rw [map_between_of_lt (p := p) hlt]
  next hk => simp [Gap.between]

end Standing

namespace Reads

open Token

/-- Tokens and a stop that are scanned off characters make up the lexemes that are read off them. -/
theorem of_scanFrom {p : Point} {cs : List Char} {ts : List Token}
    (h : scanFrom p cs = ts.map .ok) {before : Option Nat}
    (hbefore : ∀ stop ∈ before, stop ≤ p.offset) :
    ∃ body stop e, ts = body ++ [stop] ∧ stop.isEnd = true ∧ (∀ t ∈ body, t.isEnd = false) ∧
      stop.place.line = e.line ∧ Reads (.ofPoint before p) cs (Lexeme.arrange before body) e := by
  fun_induction scanFrom p cs generalizing ts before with
  | case1 p =>
    obtain ⟨t, rest, rfl, ht, hrest⟩ := List.map_eq_cons_iff.mp h.symm
    cases ht
    obtain rfl := List.map_eq_nil_iff.mp hrest
    exact ⟨[], _, _, rfl, rfl, by simp, rfl, .nil⟩
  | case2 p c cs n hr ih =>
    have hlt := Standing.lt_offset_after hbefore c (cs.take n)
    obtain ⟨body, stop, e, hts, hstop, hbody, hline, hreads⟩ :=
      ih h fun s hs => Nat.le_of_lt (hlt s hs)
    refine ⟨body, stop, e, hts, hstop, hbody, hline, .skip hr ?_⟩
    have hskipped := (Front.isGap_of_skipped hr IsGap.nil).newline_not_mem
    rwa [Standing.ofPoint_after_gap hlt (by simpa using hskipped)] at hreads
  | case3 p c cs kind n hr ih =>
    obtain ⟨t, rest, rfl, ht, hrest⟩ := List.map_eq_cons_iff.mp h.symm
    cases ht
    have hlt := Standing.lt_offset_after hbefore c (cs.take n)
    have hafter : ∀ stop ∈ if kind = .newline then before else
        some (p.after (c :: cs.take n)).offset, stop ≤ (p.after (c :: cs.take n)).offset := by
      intro stop hstop
      split at hstop
      next => exact Nat.le_of_lt (hlt stop hstop)
      next => cases hstop; exact Nat.le_refl _
    obtain ⟨body, stop, e, rfl, hstop, hbody, hline, hreads⟩ := ih hrest.symm hafter
    refine ⟨_ :: body, stop, e, rfl, hstop, ?_, hline, ?_⟩
    · refine List.forall_mem_cons.mpr ⟨?_, hbody⟩
      simp [isEnd, ofChars, Front.read_token_ne_stop hr]
    · rw [Standing.ofPoint_after_token hlt (Front.read_matches hr)] at hreads
      exact .token hr hreads
  | case4 p c cs n hr =>
    obtain ⟨t, rest, rfl, ht, hrest⟩ := List.map_eq_cons_iff.mp h.symm
    cases ht

/-- A token that goes no further than `b` in bytes takes no more characters than `b` has. -/
theorem le_length_of_byteLength {b x : List Char} {n : Nat} (hn : n ≤ (b ++ x).length)
    (h : byteLength ((b ++ x).take n) ≤ byteLength b) : n ≤ b.length := by
  by_contra hlt
  rw [List.take_append, List.take_of_length_le (by omega), byteLength_append] at h
  rw [List.length_append] at hn
  cases hmore : x.take (n - b.length) with
  | nil =>
    have hlength := congrArg List.length hmore
    rw [List.length_take, List.length_nil] at hlength
    omega
  | cons c more =>
    obtain ⟨k, hk, _⟩ := LineIndex.byteLength_cons_eq_succ c more
    rw [hmore, hk] at h
    omega

/-- What stands before a place that no token goes over can be read on its own. -/
theorem of_uncrossed {p : Point} {b x : List Char} {ts : List Token} {cut : Nat} (hx : AtEdge x)
    (h : scanFrom p (b ++ x) = ts.map .ok) (hp : p.offset + byteLength b = cut)
    (hcut : ∀ t ∈ ts, t.place.span.stop ≤ cut ∨ cut ≤ t.place.span.start) (s : Standing) :
    ∃ l e, Reads s b l e := by
  induction hm : b.length using Nat.strong_induction_on generalizing p b ts s with
  | _ m ih =>
    cases b with
    | nil => exact ⟨[], s, .nil⟩
    | cons c b =>
      rw [List.cons_append, Token.scanFrom] at h
      -- Behind what is taken of `b` the place is as far away as before.
      have hplace {n : Nat} (hn : n ≤ b.length) :
          (p.after (c :: (b ++ x).take n)).offset + byteLength (b.drop n) = cut := by
        rw [List.take_append_of_le_length hn, Point.offset_after, Nat.add_assoc,
          ← byteLength_append, List.cons_append, List.take_append_drop, hp]
      have hshort (n : Nat) : (b.drop n).length < m := by
        rw [← hm, List.length_drop, List.length_cons]
        omega
      split at h
      next n hr =>
        rcases Front.read_skipped_cases hr with ⟨hc, rfl⟩ | ⟨others, rfl, hothers, rfl⟩
        · obtain ⟨l, e, hl⟩ := ih _ (hshort 0) h (hplace (Nat.zero_le _)) hcut s.skip rfl
          exact ⟨l, e, (blank_iff hc).mpr hl⟩
        · obtain ⟨rest, rfl⟩ : ∃ rest, b = '/' :: rest := by
            refine List.head?_eq_some_iff.mp ((Front.head_append_edge hx b).mp ?_)
            rw [hothers]
            rfl
          by_cases hline : ('/' :: rest).dropWhile (· ≠ '\n') = []
          · exact ⟨[], s.skip, comment_iff.mpr (by rw [hline]; exact .nil)⟩
          · have htake := takeWhile_append_of_dropWhile_ne_nil hline x
            have hle :
                ((('/' :: rest) ++ x).takeWhile (· ≠ '\n')).length ≤ ('/' :: rest).length := by
              rw [htake]
              exact (List.takeWhile_prefix _).length_le
            rw [List.drop_append_of_le_length hle] at h
            obtain ⟨l, e, hl⟩ := ih _ (hshort _) h (hplace hle) hcut s.skip rfl
            rw [htake, drop_length_takeWhile] at hl
            exact ⟨l, e, comment_iff.mpr hl⟩
      next kind n hr =>
        obtain ⟨t, rest, rfl, ht, hrest⟩ := List.map_eq_cons_iff.mp h.symm
        cases ht
        have hn : n ≤ b.length := by
          refine le_length_of_byteLength (Front.read_token_le hr) ?_
          have hspan := hcut (ofChars kind (c :: (b ++ x).take n) p) (by simp)
          change (p.after (c :: (b ++ x).take n)).offset ≤ cut ∨ cut ≤ p.offset at hspan
          have hpos := c.utf8Size_pos
          rw [Point.offset_after, ← hp, byteLength, byteLength] at hspan
          omega
        rw [List.drop_append_of_le_length hn] at hrest
        obtain ⟨l, e, hl⟩ := ih _ (hshort n) hrest.symm (hplace hn)
          (fun t ht => hcut t (by simp [ht])) (s.past kind) rfl
        exact ⟨_, e, .token (Front.read_token_of_append hx hr hn) hl⟩
      next =>
        obtain ⟨t, rest, rfl, ht, hrest⟩ := List.map_eq_cons_iff.mp h.symm
        cases ht

/-- No token goes over the end of a line. -/
theorem uncrossed_of_lineEnd {b x : List Char} {ts : List Token} (h : Tiles [] (b ++ x) ts)
    (hx : x = [] ∨ x.head? = some '\n') {t : Token} (ht : t ∈ ts) :
    t.place.span.stop ≤ byteLength b ∨ byteLength b ≤ t.place.span.start := by
  obtain ⟨body, rfl, hbody⟩ := h.ends
  rcases List.mem_append.mp ht with hmem | hmem
  · obtain ⟨front, text, behind, hsource, _, htoken, hlongest⟩ := h.of_mem ht
    have hmatches := (hlongest (hbody t hmem)).2.1
    rw [htoken, ofChars_span]
    rw [List.nil_append] at hsource
    rcases List.append_eq_append_iff.mp hsource with ⟨more, rfl, _⟩ | ⟨taken, rfl, hrest⟩
    · rw [byteLength_append]
      exact .inr (Nat.le_add_right _ _)
    · rcases List.append_eq_append_iff.mp hrest with ⟨more, rfl, _⟩ | ⟨past, rfl, rfl⟩
      · rw [← List.append_assoc, byteLength_append (front ++ text)]
        exact .inl (Nat.le_add_right _ _)
      · cases past with
        | nil =>
          rw [List.append_nil]
          exact .inl (Nat.le_refl _)
        | cons c past =>
          -- A token that goes on behind the end of the line is that end.
          obtain rfl : c = '\n' := by
            rcases hx with hnil | hhead
            · cases hnil
            · exact Option.some.inj hhead
          rw [hmatches.eq_newline (by simp)] at hmatches
          have hline : taken ++ '\n' :: past = ['\n'] := hmatches
          obtain rfl : taken = [] := by
            cases taken with
            | nil => rfl
            | cons d taken => simp at hline
          rw [List.append_nil]
          exact .inr (Nat.le_refl _)
  · obtain rfl := List.mem_singleton.mp hmem
    rw [ofChars_span, List.nil_append, byteLength_append]
    exact .inr (Nat.le_add_right _ _)

/-- What stands before the end of a line can be read on its own. -/
theorem of_line {source : String} {ts : List Token} {b x : List Char}
    (h : tokenize source = .ok ts) (hsource : source.toList = b ++ x)
    (hx : x = [] ∨ x.head? = some '\n') : ∃ l e, Reads .start b l e := by
  have hscan := tokenize_eq_ok_iff.mp h
  rw [scan, hsource] at hscan
  have hcut : Point.start.offset + byteLength b = byteLength b := Nat.zero_add _
  exact of_uncrossed (atEdge_of_lineEnd hx) hscan hcut
    (fun t ht => uncrossed_of_lineEnd (tiles_of_scanFrom hscan) hx ht) .start

/-- What can be read can be scanned. -/
theorem scanFrom {s e : Standing} {cs : List Char} {ls : List Lexeme} (h : Reads s cs ls e)
    (p : Point) : ∃ ts : List Token, scanFrom p cs = ts.map .ok := by
  induction h generalizing p with
  | nil => exact ⟨[ofChars .stop [] p], by rw [Token.scanFrom]; rfl⟩
  | @skip s e c cs n ls hread _ ih =>
    obtain ⟨ts, hts⟩ := ih (p.after (c :: cs.take n))
    refine ⟨ts, ?_⟩
    rw [Token.scanFrom, hread]
    exact hts
  | @token s e c cs kind n ls hread _ ih =>
    obtain ⟨ts, hts⟩ := ih (p.after (c :: cs.take n))
    refine ⟨ofChars kind (c :: cs.take n) p :: ts, ?_⟩
    rw [Token.scanFrom, hread]
    simp only [hts, List.map_cons]

/-- The lexemes of a source are what is read off it. -/
theorem of_tokenize {source : String} {ts : List Token} (h : tokenize source = .ok ts) :
    ∃ e, Reads .start source.toList (Input.ofTokens ts).lexemes e ∧
      (Input.ofTokens ts).stop.line = e.line := by
  have hbefore : ∀ stop ∈ (none : Option Nat), stop ≤ Point.start.offset := nofun
  obtain ⟨body, stop, e, rfl, hstop, hbody, hline, hreads⟩ :=
    of_scanFrom (tokenize_eq_ok_iff.mp h) hbefore
  rw [Input.ofTokens_append_stop hstop hbody]
  exact ⟨e, hreads, hline⟩

theorem tokenize {source : String} {ls : List Lexeme} {e : Standing}
    (h : Reads .start source.toList ls e) :
    ∃ ts, tokenize source = .ok ts ∧ (Input.ofTokens ts).lexemes = ls ∧
      (Input.ofTokens ts).stop.line = e.line := by
  obtain ⟨ts, hscan⟩ := h.scanFrom .start
  have hts : Token.tokenize source = .ok ts := tokenize_eq_ok_iff.mpr hscan
  obtain ⟨e', hreads, hline⟩ := of_tokenize hts
  obtain ⟨hls, rfl⟩ := hreads.unique h
  exact ⟨ts, hts, hls, hline⟩

end Reads

end Sigil
