import Sigil.Proofs.StatementOrder
import Sigil.Proofs.WellFormed

namespace Sigil

/-- Where a text can go on or stop: nothing follows, or a blank or an opening angle does. -/
def AtBreak (y : List Char) : Prop := ∀ c ∈ y.head?, c = ' ' ∨ c = '<'

section

variable {x y b : List Char}

theorem AtBreak.head_false (hy : AtBreak y) {p : Char → Bool}
    (hp : [' ', '<'].any p = false) : ∀ c ∈ y.head?, p c = false := by
  intro c hc
  have hmem : c ∈ [' ', '<'] := by
    rcases hy c hc with rfl | rfl <;> simp
  exact Bool.eq_false_iff.mpr (List.any_eq_false.mp hp c hmem)

/-- What holds neither a blank nor an angle does not go over a break. -/
theorem AtBreak.prefix_of_append (hy : AtBreak y) {text : List Char}
    (htext : ∀ c ∈ text, c ≠ ' ' ∧ c ≠ '<') (h : text <+: b ++ y) : text <+: b := by
  rcases List.prefix_or_prefix_of_prefix h (List.prefix_append b y) with hb | ⟨more, rfl⟩
  · exact hb
  · cases more with
    | nil => rw [List.append_nil]
    | cons c more =>
      obtain ⟨behind, hbehind⟩ := (List.prefix_append_right_inj b).mp h
      have hhead : y.head? = some c := by rw [← hbehind]; rfl
      have hc := htext c (by simp)
      rcases hy c hhead with rfl | rfl
      · exact absurd rfl hc.1
      · exact absurd rfl hc.2

namespace Front

variable {c : Char} {kind : Kind} {n : Nat}

theorem numberExtent_break (hy : AtBreak y) (hn : numberExtent (b ++ x) ≤ b.length) :
    numberExtent (b ++ y) = numberExtent (b ++ x) := by
  refine Nat.le_antisymm ?_ ?_
  · obtain ⟨whole, fraction, htake, hwhole, hfraction⟩ := take_numberExtent (b ++ y)
    have hplain : ∀ c ∈ whole ++ fraction, c ≠ ' ' ∧ c ≠ '<' := by
      intro c hc
      rcases Token.isDigit_or_point hwhole hfraction hc with hdigit | rfl
      · exact ⟨ne_of_class hdigit rfl, ne_of_class hdigit rfl⟩
      · decide
    have hfront := hy.prefix_of_append hplain (htake ▸ List.take_prefix _ _)
    obtain ⟨more, hmore⟩ := hfront
    have hle := length_le_numberExtent hwhole hfraction (more ++ x)
    rw [← List.append_assoc, hmore, ← htake, List.length_take,
      Nat.min_eq_left (numberExtent_le _)] at hle
    exact hle
  · obtain ⟨whole, fraction, htake, hwhole, hfraction⟩ := take_numberExtent (b ++ x)
    rw [List.take_append_of_le_length hn] at htake
    have hle := length_le_numberExtent hwhole hfraction (b.drop (numberExtent (b ++ x)) ++ y)
    rw [← List.append_assoc, ← htake, List.take_append_drop, List.length_take,
      Nat.min_eq_left hn] at hle
    exact hle

theorem takeWhile_break {p : Char → Bool} (hp : [' ', '<'].any p = false) (hy : AtBreak y)
    (hn : ((b ++ x).takeWhile p).length ≤ b.length) :
    (b ++ y).takeWhile p = (b ++ x).takeWhile p := by
  rw [takeWhile_append_of_head (hy.head_false hp)]
  rw [List.takeWhile_append] at hn ⊢
  by_cases hall : (b.takeWhile p).length = b.length
  · rw [if_pos hall, List.length_append] at hn
    have hnil : x.takeWhile p = [] := List.eq_nil_of_length_eq_zero (by omega)
    rw [if_pos hall, hnil, List.append_nil]
    exact (List.takeWhile_prefix p).eq_of_length hall
  · rw [if_neg hall]

/-- No symbol holds a blank, and an angle is one of its own. -/
theorem symbol_tail (s : Symbol) : ∀ c ∈ s.text.toList.tail, c ≠ ' ' ∧ c ≠ '<' := by
  have hall : s.text.toList.tail.all fun c => c != ' ' && c != '<' := by cases s <;> rfl
  simpa using hall

theorem atFront_break {s : Symbol} (hy : AtBreak y)
    (h : Symbol.atFront? (c :: (b ++ x)) = some s) (hn : s.text.length - 1 ≤ b.length) :
    Symbol.atFront? (c :: (b ++ y)) = some s := by
  obtain ⟨hs, before, behind, hall, hbefore⟩ := List.find?_eq_some_iff_append.mp h
  have hsfront := List.isPrefixOf_iff_prefix.mp hs
  have hwithin : s.text.toList <+: c :: b := by
    refine List.prefix_of_prefix_length_le hsfront ?_ ?_
    · exact List.cons_prefix_cons.mpr ⟨rfl, List.prefix_append b x⟩
    · rw [String.length_toList, List.length_cons]
      omega
  refine List.find?_eq_some_iff_append.mpr ⟨?_, before, behind, hall, ?_⟩
  · refine List.isPrefixOf_iff_prefix.mpr (hwithin.trans ?_)
    exact List.cons_prefix_cons.mpr ⟨rfl, List.prefix_append b y⟩
  · intro a ha
    rw [Bool.not_eq_true', Bool.eq_false_iff]
    intro hother
    -- What is at the front now does not go over the break, so it was at the front before.
    obtain ⟨d, ds, hads, _⟩ := a.text_eq_cons
    have hplain := symbol_tail a
    rw [hads, List.tail_cons] at hplain
    have hafront := List.isPrefixOf_iff_prefix.mp hother
    rw [hads] at hafront
    obtain ⟨rfl, htail⟩ := List.cons_prefix_cons.mp hafront
    have hstill : a.text.toList <+: d :: (b ++ x) := by
      rw [hads]
      refine List.cons_prefix_cons.mpr ⟨rfl, ?_⟩
      exact (hy.prefix_of_append hplain htail).trans (List.prefix_append b x)
    have hno := hbefore a ha
    rw [List.isPrefixOf_iff_prefix.mpr hstill] at hno
    cases hno

/-- A token that ends before a break or earlier is read in the same way whatever stands where the
break is. -/
theorem read_token_break (hy : AtBreak y) (h : read c (b ++ x) = .token kind n)
    (hn : n ≤ b.length) : read c (b ++ y) = .token kind n := by
  rcases read_token_cases h with ⟨rfl, rfl, rfl⟩ | ⟨rfl, hc, hextent⟩ | ⟨rfl, hc, rfl⟩ |
    ⟨rfl, hc, rfl⟩ | ⟨s, rfl, hs, rfl⟩
  · rfl
  · have hslash : c ≠ '\\' := by rcases hc with rfl | rfl <;> decide
    have hown := stringExtent_of_append hslash hextent hn
    rw [read_of_quote hc, stringExtent_append hslash hown]
  · rw [read_of_isDigit hc, numberExtent_break hy hn]
  · rw [read_of_isWordStart hc, takeWhile_break (by decide) hy hn]
  · refine read_of_atFront (atFront_break hy hs hn) ?_
    rintro ⟨rfl, hhead⟩
    cases b with
    | nil =>
      have hslash : ∀ c ∈ y.head?, (c == '/') = false := hy.head_false (by decide)
      exact absurd (hslash '/' hhead) (by decide)
    | cons d b =>
      obtain rfl : d = '/' := Option.some.inj hhead
      rw [List.cons_append, read_comment] at h
      cases h

end Front

end

namespace Lexeme

/-- The lexeme behind a given gap. -/
def behind (gap : Gap) (t : Lexeme) : Lexeme := { t with gap }

/-- The lexeme on a given line, with a gap before it only if it is spaced. -/
def inlined (line : Nat) (t : Lexeme) : Lexeme :=
  { t with line, gap := if t.gap = .spaced then .spaced else .touching }

/-- The lexemes apart from the newlines. -/
def unbroken (ts : List Lexeme) : List Lexeme := ts.filter (·.kind ≠ .newline)

/-- The spellings of lexemes in a row, each behind a blank if it is spaced. -/
def inlineText (ts : List Lexeme) : List Char :=
  ts.flatMap fun t => (Rule.blankBefore t).toList ++ t.text.toList

theorem unbroken_cons_newline {t : Lexeme} (h : t.kind = .newline) (ts : List Lexeme) :
    unbroken (t :: ts) = unbroken ts :=
  List.filter_cons_of_neg (by simpa using h)

theorem unbroken_cons_of_ne {t : Lexeme} (h : t.kind ≠ .newline) (ts : List Lexeme) :
    unbroken (t :: ts) = t :: unbroken ts :=
  List.filter_cons_of_pos (by simpa using h)

theorem inlineText_cons (t : Lexeme) (ts : List Lexeme) :
    inlineText (t :: ts) = (Rule.blankBefore t).toList ++ t.text.toList ++ inlineText ts :=
  List.flatMap_cons

end Lexeme

namespace Reads

open Lexeme

variable {s e e' : Standing} {cs y : List Char} {body rest ls : List Lexeme}

/-- Behind a gap the next lexeme that is no newline starts with a blank. -/
theorem atBreak_of_spaced (h : Reads s cs (body ++ rest) e) (hs : s.before = some .spaced)
    (hy : AtBreak y) : AtBreak (inlineText (unbroken body) ++ y) := by
  generalize hls : body ++ rest = ls at h
  induction h generalizing body with
  | nil =>
    obtain ⟨rfl, -⟩ := List.append_eq_nil_iff.mp hls
    exact hy
  | @skip s _ _ _ _ _ _ _ ih => exact ih (by rw [Standing.skip, hs]; rfl) hls
  | @token s _ c cs kind n ls _ _ ih =>
    rcases List.append_eq_cons_iff.mp hls with ⟨rfl, -⟩ | ⟨body, rfl, rfl⟩
    · exact hy
    · by_cases hk : kind = .newline
      · rw [unbroken_cons_newline hk]
        refine ih ?_ rfl
        rw [Standing.past, if_pos hk, hs]
        rfl
      · have hgap : (s.lexeme kind (c :: cs.take n)).gap = .spaced := by
          rw [Standing.lexeme, hs]
          rfl
        rw [unbroken_cons_of_ne hk, inlineText_cons, Rule.blankBefore, if_pos hgap]
        intro d hd
        cases hd
        exact .inl rfl

/-- Right behind a token, the row of the next lexemes is what stands there up to a break. -/
theorem exists_break (h : Reads s cs (body ++ rest) e) (hs : s.before = some .touching)
    (hy : AtBreak y) :
    ∃ b x z, cs = b ++ x ∧ inlineText (unbroken body) ++ y = b ++ z ∧ AtBreak z := by
  generalize hls : body ++ rest = ls at h
  induction h generalizing body with
  | nil =>
    obtain ⟨rfl, -⟩ := List.append_eq_nil_iff.mp hls
    exact ⟨[], [], y, rfl, rfl, hy⟩
  | @skip s _ c cs _ _ _ hrest _ =>
    subst hls
    exact ⟨[], c :: cs, _, rfl, rfl, hrest.atBreak_of_spaced (by rw [Standing.skip, hs]; rfl) hy⟩
  | @token s _ c cs kind n ls _ hrest ih =>
    rcases List.append_eq_cons_iff.mp hls with ⟨rfl, -⟩ | ⟨body, rfl, rfl⟩
    · exact ⟨[], c :: cs, y, rfl, rfl, hy⟩
    · by_cases hk : kind = .newline
      · rw [unbroken_cons_newline hk]
        have hspaced : (s.past kind).before = some .spaced := by
          rw [Standing.past, if_pos hk, hs]
          rfl
        exact ⟨[], c :: cs, _, rfl, rfl, hrest.atBreak_of_spaced hspaced hy⟩
      · have htouching : (s.past kind).before = some .touching := by
          rw [Standing.past, if_neg hk]
        obtain ⟨b, x, z, hcs, hrow, hz⟩ := ih htouching rfl
        have hgap : (s.lexeme kind (c :: cs.take n)).gap ≠ .spaced := by
          rw [Standing.lexeme, hs]
          simp
        refine ⟨c :: cs.take n ++ b, x, z, ?_, ?_, hz⟩
        · rw [List.append_assoc, ← hcs, List.cons_append, List.take_append_drop]
        · rw [unbroken_cons_of_ne hk, inlineText_cons, Rule.blankBefore, if_neg hgap,
            List.append_assoc _ (inlineText _), hrow, ← List.append_assoc]
          simp [Standing.lexeme]

theorem token_append {c : Char} {b x : List Char} {kind : Kind}
    (hread : Front.read c (b ++ x) = .token kind b.length) (h : Reads (s.past kind) x ls e) :
    Reads s (c :: (b ++ x)) (s.lexeme kind (c :: b) :: ls) e := by
  refine (token_iff hread).mpr ⟨ls, ?_, ?_⟩
  · rw [List.take_left]
  · rwa [List.drop_left]

/-- The lexemes that are read off a source are read again off their row, whatever is read behind
it. -/
theorem inlined (h : Reads s cs (body ++ rest) e) (hy : AtBreak y) {line : Nat}
    (hread : Reads ⟨some .touching, line⟩ y ls e') :
    Reads ⟨some .touching, line⟩ (inlineText (unbroken body) ++ y)
      ((unbroken body).map (Lexeme.inlined line) ++ ls) e' := by
  generalize hls : body ++ rest = all at h
  induction h generalizing body with
  | nil =>
    obtain ⟨rfl, -⟩ := List.append_eq_nil_iff.mp hls
    exact hread
  | skip _ _ ih => exact ih hls
  | @token s _ c cs kind n _ hfront hrest ih =>
    rcases List.append_eq_cons_iff.mp hls with ⟨rfl, -⟩ | ⟨body, rfl, rfl⟩
    · exact hread
    · by_cases hk : kind = .newline
      · rw [unbroken_cons_newline hk]
        exact ih rfl
      · have htouching : (s.past kind).before = some .touching := by
          rw [Standing.past, if_neg hk]
        obtain ⟨b, x, z, hcs, hrow, hz⟩ := hrest.exists_break htouching hy
        have hlength : (cs.take n).length = n := by
          have hn := Front.read_token_le hfront
          rw [List.length_take]
          omega
        have hcut : Front.read c (cs.take n ++ (inlineText (unbroken body) ++ y)) =
            .token kind (cs.take n).length := by
          rw [hrow, ← List.append_assoc, hlength]
          refine Front.read_token_break (x := x) hz ?_ (by rw [List.length_append]; omega)
          rw [List.append_assoc, ← hcs, List.take_append_drop]
          exact hfront
        have hbehind (gap : Gap) : Reads ((⟨some gap, line⟩ : Standing).past kind)
            (inlineText (unbroken body) ++ y) ((unbroken body).map (Lexeme.inlined line) ++ ls)
            e' := by
          rw [Standing.past, if_neg hk]
          exact ih rfl
        rw [unbroken_cons_of_ne hk, inlineText_cons, List.map_cons, List.append_assoc,
          List.append_assoc]
        by_cases hgap : (s.lexeme kind (c :: cs.take n)).gap = .spaced
        · have hspaced := token_append hcut (hbehind .spaced)
          rw [Rule.blankBefore, if_pos hgap, Lexeme.inlined, if_pos hgap]
          refine (blank_iff rfl).mpr ?_
          simpa [Standing.skip, Standing.lexeme] using hspaced
        · have hnext := token_append hcut (hbehind .touching)
          rw [Rule.blankBefore, if_neg hgap, Lexeme.inlined, if_neg hgap]
          simpa [Standing.lexeme] using hnext

theorem of_suffix {ts : List Lexeme} (h : Reads s cs ls e) (hts : ts <:+ ls) :
    ∃ s' cs', Reads s' cs' ts e := by
  induction h with
  | nil =>
    obtain rfl := List.suffix_nil.mp hts
    exact ⟨_, [], .nil⟩
  | skip _ _ ih => exact ih hts
  | token hfront hrest ih =>
    rcases List.suffix_cons_iff.mp hts with rfl | hts
    · exact ⟨_, _, .token hfront hrest⟩
    · exact ih hts

/-- Which gap is before the first lexeme does not matter for the others. -/
theorem withGap {t : Lexeme} (h : Reads s cs (t :: ls) e) (ht : t.kind ≠ .newline) (gap : Gap) :
    ∃ s' cs', Reads s' cs' (t.behind gap :: ls) e := by
  generalize hall : t :: ls = all at h
  induction h with
  | nil => cases hall
  | skip _ _ ih => exact ih hall
  | @token s e c cs kind n ls hfront hrest ih =>
    cases hall
    have hk : kind ≠ .newline := ht
    have hpast : s.past kind = (⟨some gap, s.line⟩ : Standing).past kind := by
      rw [Standing.past, Standing.past, if_neg hk, if_neg hk]
    rw [hpast] at hrest
    exact ⟨⟨some gap, s.line⟩, c :: cs, .token hfront hrest⟩

end Reads

namespace Rule

open Sigil.Parser Lexeme

variable {ts rest run : List Lexeme}

theorem textRound_eq_ok {r : Round Lexeme} (h : textRound ts = .ok (r, rest)) :
    (r = .stop ∧ rest = ts) ∨
      ∃ lines t, r = .more t ∧ ts = lines ++ t :: rest ∧ unbroken lines = [] ∧
        isText t.kind = true := by
  rcases textRound_cases ts with ⟨t, behind, hdrop, hkind, htext⟩ | ⟨_, hstop⟩
  · cases htext.symm.trans h
    refine .inr ⟨ts.takeWhile (·.kind = .newline), t, rfl, ?_, ?_, hkind⟩
    · rw [← hdrop, List.takeWhile_append_dropWhile]
    · refine List.filter_eq_nil_iff.mpr fun line hline => ?_
      simpa using List.mem_takeWhile_imp hline
  · cases hstop.symm.trans h
    exact .inl ⟨rfl, rfl⟩

/-- A text reads lexemes that are text, and the newlines between them. -/
theorem many_textRound_eq_ok (h : many textRound ts = .ok (run, rest)) :
    ∃ body, ts = body ++ rest ∧ run = unbroken body ∧ ∀ t ∈ run, isText t.kind := by
  induction run generalizing ts with
  | nil =>
    rcases textRound_eq_ok (many_eq_nil h) with ⟨_, rfl⟩ | ⟨_, _, hmore, _⟩
    · exact ⟨[], rfl, rfl, by simp⟩
    · cases hmore
  | cons t run ih =>
    have hcons (body : List Lexeme) {mid : List Lexeme} (ht : textRound ts = .ok (.more t, mid))
        (hmid : mid = body ++ rest) (hbody : run = unbroken body)
        (htext : ∀ t ∈ run, isText t.kind) :
        ∃ body, ts = body ++ rest ∧ t :: run = unbroken body ∧ ∀ u ∈ t :: run, isText u.kind := by
      rcases textRound_eq_ok ht with ⟨hstop, _⟩ | ⟨lines, _, hmore, rfl, hlines, hkind⟩
      · cases hstop
      · cases hmore
        refine ⟨lines ++ t :: body, by rw [hmid]; simp, ?_, List.forall_mem_cons.mpr ⟨hkind, htext⟩⟩
        have hsplit : unbroken (lines ++ t :: body) = unbroken lines ++ unbroken (t :: body) :=
          List.filter_append lines (t :: body)
        rw [hsplit, hlines, unbroken_cons_of_ne (isText_ne_newline hkind), hbody]
        rfl
    rcases many_eq_cons h with ⟨mid, ht, hrun⟩ | ⟨_, hlast⟩ | ⟨rfl, ht, _⟩
    · obtain ⟨body, hmid, hbody, htext⟩ := ih hrun
      exact hcons body ht hmid hbody htext
    · rcases textRound_eq_ok hlast with ⟨hstop, _⟩ | ⟨_, _, hmore, _⟩
      · cases hstop
      · cases hmore
    · exact hcons [] ht rfl rfl (by simp)

theorem toList_joinText (t : Lexeme) (ts : List Lexeme) :
    (joinText (t :: ts)).toList = t.text.toList ++ inlineText ts := by
  change (ts.foldl (fun s t => s ++ blankBefore t ++ t.text) t.text).toList = _
  generalize t.text = first
  induction ts generalizing first with
  | nil => simp [inlineText]
  | cons t ts ih =>
    rw [List.foldl_cons, ih, inlineText_cons]
    simp

theorem blankAtFront_of_text {t : Lexeme} (ht : isText t.kind = true) (ts : List Lexeme) :
    blankAtFront (t :: ts) = blankBefore t := by
  refine if_neg ?_
  rintro (hk | hk) <;> rw [hk] at ht <;> cases ht

/-- What a run of text spells. The gap before its first lexeme counts only if it starts no line. -/
theorem textRun_eq_inlineText {startsLine : Bool} {t : Lexeme} {m : Markup}
    (ht : isText t.kind = true) (h : textRun startsLine (t :: ts) = .ok (m, rest)) :
    ∃ gap body text, ts = body ++ rest ∧ m = .text text ∧ (∀ u ∈ unbroken body, isText u.kind) ∧
      text.toList = inlineText (t.behind gap :: unbroken body) ++ (blankAtFront rest).toList := by
  obtain ⟨run, hrun, rfl⟩ := textRun_eq_ok h
  have hne := isText_ne_newline ht
  obtain ⟨body, hbody, rfl, htext⟩ := many_textRound_eq_ok hrun
  cases body with
  | nil =>
    -- A text that reads nothing does not stand before text.
    obtain rfl : t :: ts = rest := hbody
    have hfinal := many_textRound_final hrun
    rw [List.dropWhile_cons_of_neg (by simpa using hne)] at hfinal
    exact absurd ht (Bool.eq_false_iff.mp hfinal)
  | cons first body =>
    rw [List.cons_append] at hbody
    obtain ⟨rfl, rfl⟩ := List.cons.inj hbody
    rw [unbroken_cons_of_ne hne] at htext
    have hleading : (if startsLine then "" else blankAtFront (t :: (body ++ rest))) =
        blankBefore (t.behind (if startsLine then .touching else t.gap)) := by
      rw [blankAtFront_of_text ht]
      cases startsLine <;> rfl
    refine ⟨if startsLine then .touching else t.gap, body, _, rfl, rfl,
      (List.forall_mem_cons.mp htext).2, ?_⟩
    rw [hleading, unbroken_cons_of_ne hne, inlineText_cons, String.toList_append,
      String.toList_append, toList_joinText]
    simp only [List.append_assoc]
    rfl

/-- The opening tag of a paragraph at the start of a source. -/
def paragraphOpening : List Lexeme :=
  [⟨.symbol .langle, "<", .none, 1, .touching⟩, ⟨.ident, "p", .word "p", 1, .touching⟩,
    ⟨.symbol .rangle, ">", .none, 1, .touching⟩]

/-- The closing tag of a paragraph on the first line, behind a gap. -/
def paragraphClosing (gap : Gap) : List Lexeme :=
  [⟨.symbol .langle, "<", .none, 1, gap⟩, ⟨.symbol .slash, "/", .none, 1, .touching⟩,
    ⟨.ident, "p", .word "p", 1, .touching⟩, ⟨.symbol .rangle, ">", .none, 1, .touching⟩]

variable {gap : Gap}

theorem many_textRound_closing (hrun : ∀ t ∈ run, isText t.kind) :
    many textRound (run ++ paragraphClosing gap) = .ok (run, paragraphClosing gap) := by
  induction run with
  | nil => exact many_of_stop (textRound_of_not_text rfl)
  | cons t run ih =>
    obtain ⟨ht, hrun⟩ := List.forall_mem_cons.mp hrun
    refine many_of_more (textRound_of_text ?_ ht) ?_ (ih hrun)
    · rw [List.cons_append, List.dropWhile_cons_of_neg]
      simpa using isText_ne_newline ht
    · rw [List.cons_append, List.length_cons]
      omega

theorem childRound_closing (node : Rule Markup) {t : Lexeme} (ht : isText t.kind = true)
    (hrun : ∀ u ∈ run, isText u.kind) :
    childRound node "p" (t :: run ++ paragraphClosing gap) =
      .ok (.more (.text (blankBefore t ++ joinText (t :: run) ++
        blankAtFront (paragraphClosing gap))), paragraphClosing gap) := by
  have hall : ∀ u ∈ t :: run, isText u.kind := List.forall_mem_cons.mpr ⟨ht, hrun⟩
  have hne : kindAt 0 (t :: run ++ paragraphClosing gap) ≠ .newline := isText_ne_newline ht
  have htext : textRun false (t :: run ++ paragraphClosing gap) =
      .ok (.text (blankBefore t ++ joinText (t :: run) ++
        blankAtFront (paragraphClosing gap)), paragraphClosing gap) := by
    unfold textRun
    rw [get_bind_apply, bind_of_ok (many_textRound_closing hall), get_bind_apply,
      ← blankAtFront_of_text ht (run ++ paragraphClosing gap)]
    rfl
  have hfront : isText (kindAt 0 (t :: run ++ paragraphClosing gap)) = true := ht
  unfold childRound
  rw [bind_of_ok (kind_apply _), bind_of_ok (skipNewlines_of_ne hne), bind_of_ok (kind_apply _)]
  rw [decide_eq_false hne]
  generalize kindAt 0 (t :: run ++ paragraphClosing gap) = k at hfront ⊢
  split
  iterate 5 cases hfront
  rw [bind_of_ok htext]
  rfl

theorem hyphenated_cons {expected : String} {t : Lexeme} (ht : t.kind = .ident)
    (hts : namePartRound ts = .ok (.stop, ts)) :
    hyphenated expected (t :: ts) = .ok (t.text, ts) := by
  unfold hyphenated
  rw [bind_of_ok (ident_cons ht), bind_of_ok (many_of_stop hts)]
  rfl

theorem closingTag_closing : closingTag "p" (paragraphClosing gap) = .ok ((), []) := by
  unfold closingTag paragraphClosing
  rw [bind_of_ok (expect_cons (k := .symbol .langle) rfl),
    bind_of_ok (expect_cons (k := .symbol .slash) rfl), get_bind_apply,
    bind_of_ok (kind_apply _)]
  dsimp only
  rw [if_neg (by simp [kindAt]), bind_of_ok (hyphenated_cons rfl rfl)]
  rfl

/-- The text of a run in a paragraph. -/
def paragraphText (gap : Gap) (t : Lexeme) (run : List Lexeme) : String :=
  blankBefore t ++ joinText (t :: run) ++ blankAtFront (paragraphClosing gap)

theorem children_closing (node : Rule Markup) {t : Lexeme} (ht : isText t.kind = true)
    (hrun : ∀ u ∈ run, isText u.kind) :
    children node "p" (t :: run ++ paragraphClosing gap) =
      .ok ([.text (paragraphText gap t run)], []) := by
  have hmany : many (childRound node "p") (t :: run ++ paragraphClosing gap) =
      .ok ([.text (paragraphText gap t run)], paragraphClosing gap) := by
    refine many_of_more (childRound_closing node ht hrun) ?_ (many_of_stop rfl)
    rw [List.length_append, List.length_cons]
    omega
  unfold children
  rw [bind_of_ok hmany, bind_of_ok closingTag_closing]
  rfl

theorem element_closing (node : Rule Markup) {t : Lexeme} (ht : isText t.kind = true)
    (hrun : ∀ u ∈ run, isText u.kind) :
    element node 1 (paragraphOpening.tail ++ (t :: run ++ paragraphClosing gap)) =
      .ok (⟨"p", [], [.text (paragraphText gap t run)], false, 1⟩, []) := by
  have hname : hyphenated "tag name"
      (paragraphOpening.tail ++ (t :: run ++ paragraphClosing gap)) =
      .ok ("p", paragraphOpening.tail.tail ++ (t :: run ++ paragraphClosing gap)) :=
    hyphenated_cons rfl rfl
  have hattributes (inside : List Lexeme) : attributeRound (paragraphOpening.tail.tail ++ inside) =
      .ok (.stop, paragraphOpening.tail.tail ++ inside) := rfl
  have hslash (inside : List Lexeme) : eat (.symbol .slash) (paragraphOpening.tail.tail ++ inside) =
      .ok (false, paragraphOpening.tail.tail ++ inside) := rfl
  have hopen (inside : List Lexeme) :
      expect (.symbol .rangle) (paragraphOpening.tail.tail ++ inside) = .ok ((), inside) := rfl
  unfold element
  rw [bind_of_ok hname, bind_of_ok (many_of_stop (hattributes _)), bind_of_ok (hslash _)]
  simp only [Bool.false_eq_true, ↓reduceIte]
  rw [bind_of_ok (hopen _), bind_of_ok (children_closing node ht hrun)]
  rfl

/-- A paragraph around a run of text has that text as its only child. -/
theorem unit_paragraph (name : String) (gap : Gap) {t : Lexeme} (ht : isText t.kind = true)
    (hrun : ∀ u ∈ run, isText u.kind) :
    unit name (paragraphOpening ++ (t :: run ++ paragraphClosing gap)) =
      .ok (.ofDeclarations name []
        (.element ⟨"p", [], [.text (paragraphText gap t run)], false, 1⟩), []) := by
  obtain ⟨part, hnode, _⟩ :=
    node_eq_nodeStep [] (paragraphOpening ++ (t :: run ++ paragraphClosing gap))
  have hmarkup (inside : List Lexeme) :
      markup (paragraphOpening ++ inside) = node [] (paragraphOpening ++ inside) := rfl
  have hstep (inside : List Lexeme) : nodeStep part [] (paragraphOpening ++ inside) =
      (element (part []) 1 >>= fun e => pure (.element e)) (paragraphOpening.tail ++ inside) := rfl
  have hleading (inside : List Lexeme) : leadingRound (paragraphOpening ++ inside) =
      .ok (.stop, paragraphOpening ++ inside) := rfl
  have htree : markup (paragraphOpening ++ (t :: run ++ paragraphClosing gap)) =
      .ok (.element ⟨"p", [], [.text (paragraphText gap t run)], false, 1⟩, []) := by
    rw [hmarkup, hnode, hstep, bind_of_ok (element_closing (part []) ht hrun)]
    rfl
  have hend : endStatement [] = .ok ((), []) := rfl
  unfold unit
  rw [bind_of_ok (many_of_stop (hleading _)), bind_of_ok (kind_apply _), if_pos (by rfl)]
  dsimp only
  rw [bind_of_ok htree, bind_of_ok hend, bind_of_ok (many_of_stop rfl)]
  rfl

section

variable {all : List Lexeme}

/-- A text among the trees is what is read off the lexemes somewhere. -/
def ReadOff (all : List Lexeme) (m : Markup) : Prop :=
  ∀ s, m = .text s → ∃ startsLine t ts rest, t :: ts <:+ all ∧ isText t.kind = true ∧
    textRun startsLine (t :: ts) = .ok (.text s, rest)

/-- All texts within a tree are read off the lexemes. -/
def AllReadOff (all : List Lexeme) (m : Markup) : Prop :=
  ∀ n, Within Markup.parts m n → ReadOff all n

theorem allReadOff_of_parts {m : Markup} (hm : m.isText = false)
    (hparts : ∀ n ∈ m.parts, AllReadOff all n) : AllReadOff all m :=
  Within.forall_of_parts (fun s hs => by rw [hs] at hm; cases hm) hparts

theorem yields_childRound_readOff {node : Rule Markup}
    (hnode : Yields (· <:+ all) node (AllReadOff all)) (parent : String) :
    Yields (· <:+ all) (childRound node parent) (Round.All (AllReadOff all)) := by
  intro ts r rest hts hr
  have hsuffix := yields_childRound (P := fun _ => True) (hnode.mono fun _ _ => trivial)
    (fun startsLine => yields_of_uses ((settled_textRun startsLine).mono fun _ _ => trivial))
    (yields_of_uses (ended_braced.mono fun _ _ => trivial)) parent hts hr
  have hbehind : ts.dropWhile (·.kind = .newline) <:+ all :=
    (List.dropWhile_suffix _).trans hts
  refine ⟨hsuffix.1, ?_⟩
  rcases childRound_eq_ok hr with rfl | ⟨m, rfl, hm⟩ | ⟨e, rfl⟩ | ⟨m, startsLine, rfl, htext, hm⟩
  · trivial
  · exact (hnode hbehind hm).2
  · exact allReadOff_of_parts rfl (fun n hn => by cases hn)
  · obtain ⟨run, _, rfl⟩ := textRun_eq_ok hm
    refine Within.forall_of_parts ?_ (fun n hn => by cases hn)
    intro s hs
    cases hs
    cases hfront : ts.dropWhile (·.kind = .newline) with
    | nil => rw [hfront] at htext; cases htext
    | cons t us =>
      rw [hfront] at hbehind htext hm
      exact ⟨startsLine, t, us, rest, hbehind, htext, hm⟩

theorem readOff_inherited :
    Inherited (· <:+ all) (fun _ => True) (fun _ => True) (fun _ => True) (fun _ => True)
      (fun _ => True) (fun _ => AllReadOff all) (fun _ ms => ∀ m ∈ ms, AllReadOff all m) where
  name expected := yields_of_uses (follows_hyphenated expected).usesOf
  attr := (yields_of_uses follows_attributeRound.usesOf).mono fun round _ => by
    cases round <;> trivial
  siblings parent hnode := yields_many (yields_childRound_readOff hnode parent)
  ident expected := yields_of_uses (follows_ident expected).usesOf
  type? := yields_of_uses follows_typeAnnotation.usesOf
  source _ := yields_of_uses (follows_memberChain follows_expression _).usesOf
  childless _ _ := allReadOff_of_parts rfl (fun n hn => by cases hn)
  element _ _ hchildren := allReadOff_of_parts rfl hchildren
  fragment hchildren := allReadOff_of_parts rfl hchildren
  each _ _ _ htemplate _ := allReadOff_of_parts rfl (List.forall_mem_singleton.mpr htemplate)

end

end Rule

namespace Reads

open Rule

variable {e : Standing} {cs : List Char} {ls : List Lexeme}

theorem paragraph (h : Reads ⟨some .touching, 1⟩ cs ls e) :
    Reads .start ("<p>".toList ++ cs) (paragraphOpening ++ ls) e :=
  .token (n := 0) rfl (.token (n := 0) rfl (.token (n := 0) rfl h))

/-- The closing tag is read with the blank that stands before it. -/
theorem paragraphEnd {blank : String} (h : blank = "" ∨ blank = " ") :
    ∃ gap, Reads ⟨some .touching, 1⟩ (blank ++ "</p>").toList (paragraphClosing gap)
      ⟨some .touching, 1⟩ ∧ blankAtFront (paragraphClosing gap) = blank := by
  have htag (gap : Gap) : Reads ⟨some gap, 1⟩ "</p>".toList (paragraphClosing gap)
      ⟨some .touching, 1⟩ :=
    .token (n := 0) rfl (.token (n := 0) rfl (.token (n := 0) rfl (.token (n := 0) rfl .nil)))
  rcases h with rfl | rfl
  · exact ⟨.touching, htag .touching, rfl⟩
  · exact ⟨.spaced, .skip (n := 0) rfl (htag .spaced), rfl⟩

end Reads

namespace Rule

open Lexeme

theorem blankAtFront_cases (ts : List Lexeme) : blankAtFront ts = "" ∨ blankAtFront ts = " " := by
  unfold blankAtFront
  split
  next => exact .inl rfl
  next t _ =>
    split
    next => exact .inl rfl
    next =>
      unfold blankBefore
      split
      next => exact .inr rfl
      next => exact .inl rfl

theorem blankBefore_inlined (line : Nat) (t : Lexeme) :
    blankBefore (t.inlined line) = blankBefore t := by
  unfold blankBefore Lexeme.inlined
  by_cases h : t.gap = .spaced
  · simp [h]
  · simp [h]

theorem inlineText_inlined (line : Nat) (ts : List Lexeme) :
    inlineText (ts.map (Lexeme.inlined line)) = inlineText ts := by
  induction ts with
  | nil => rfl
  | cons t ts ih =>
    rw [List.map_cons, inlineText_cons, inlineText_cons, ih, blankBefore_inlined]
    rfl

theorem toList_paragraphText (gap : Gap) (t : Lexeme) (run : List Lexeme) :
    (paragraphText gap t run).toList =
      inlineText (t :: run) ++ (blankAtFront (paragraphClosing gap)).toList := by
  rw [paragraphText, String.toList_append, String.toList_append, toList_joinText, inlineText_cons]
  simp only [List.append_assoc]

end Rule

open Rule Lexeme in
/-- A run of text is read again in a paragraph of its own, with the same lexemes on one line. -/
theorem Reads.textRun {s e : Standing} {cs : List Char} {startsLine : Bool} {t : Lexeme}
    {ts rest : List Lexeme} {text : String} (h : Reads s cs (t :: ts) e)
    (ht : isText t.kind = true) (hrun : textRun startsLine (t :: ts) = .ok (.text text, rest)) :
    ∃ body gap first run e', ts = body ++ rest ∧ (∀ u ∈ unbroken (t :: body), isText u.kind) ∧
      (first :: run).map Lexeme.piece = (unbroken (t :: body)).map Lexeme.piece ∧
      paragraphText gap first run = text ∧
      Reads .start ("<p>" ++ text ++ "</p>").toList
        (paragraphOpening ++ (first :: run ++ paragraphClosing gap)) e' := by
  obtain ⟨gap, body, _, rfl, heq, htext, hchars⟩ := textRun_eq_inlineText ht hrun
  cases heq
  have hne := isText_ne_newline ht
  have hunbroken : unbroken (t :: body) = t :: unbroken body := unbroken_cons_of_ne hne body
  have hrow : unbroken (t.behind gap :: body) = t.behind gap :: unbroken body :=
    unbroken_cons_of_ne (t := t.behind gap) hne body
  obtain ⟨closing, hclosing, hblank⟩ := Reads.paragraphEnd (blankAtFront_cases rest)
  have hbreak : AtBreak (blankAtFront rest ++ "</p>").toList := by
    intro c hc
    rcases blankAtFront_cases rest with hb | hb <;> rw [hb] at hc <;> cases hc
    · exact .inr rfl
    · exact .inl rfl
  obtain ⟨s', cs', hgap⟩ := h.withGap hne gap
  rw [← List.cons_append] at hgap
  have hagain := (hgap.inlined hbreak hclosing).paragraph
  rw [hrow] at hagain
  refine ⟨body, closing, (t.behind gap).inlined 1, (unbroken body).map (Lexeme.inlined 1),
    ⟨some .touching, 1⟩, rfl, ?_, ?_, ?_, ?_⟩
  · rw [hunbroken]
    exact List.forall_mem_cons.mpr ⟨ht, htext⟩
  · rw [hunbroken]
    simp [Lexeme.inlined, Lexeme.behind, Lexeme.piece]
  · rw [← String.toList_inj, toList_paragraphText, hblank, hchars, ← List.map_cons,
      inlineText_inlined]
  · simpa [hchars] using hagain

namespace Component

open Rule

/-- Every text of a component is read as a run of its source's lexemes. -/
theorem readOff_of_unit {name : String} {c : Component} {all rest : List Lexeme}
    (h : unit name all = .ok (c, rest)) {m : Markup} (hm : c.HasTree m) : ReadOff all m := by
  obtain ⟨leading, tree, trailing, mid, behind, _, hleading, _, htree, _, _, rfl⟩ := unit_eq_ok h
  have huses : Follows (.void id) Anywhere Anything (List.map (Declaration.renumber id))
      (Parser.many leadingRound) (Parser.many leadingRound) := follows_many follows_leadingRound
  obtain ⟨x, rfl, _⟩ := huses.uses trivial hleading
  exact (readOff_inherited.yields_markup (List.suffix_append x mid) htree).2 m hm

end Component

open Rule Lexeme in
/-- A text of a component is a run of its source's lexemes up to where no more text follows, and it
is spelled with all of them: they are what a paragraph around the text has between its tags. -/
def Retells (source text : String) : Prop :=
  ∃ ts inner before run behind, Token.tokenize source = .ok ts ∧
    (Input.ofTokens ts).lexemes = before ++ run ++ behind ∧
    isText (kindAt 0 run) = true ∧ (∀ t ∈ unbroken run, isText t.kind) ∧
    isText (kindAt 0 (behind.dropWhile (·.kind = .newline))) = false ∧
    Token.tokenize ("<p>" ++ text ++ "</p>") = .ok inner ∧
    (Input.ofTokens inner).lexemes.map Lexeme.piece =
      [.symbol .langle, .word "p", .symbol .rangle] ++ (unbroken run).map Lexeme.piece ++
        [.symbol .langle, .symbol .slash, .word "p", .symbol .rangle]

theorem Markup.eq_text {m : Markup} {text : String} (hm : m.isText = true)
    (htexts : m.texts = [text]) : m = .text text := by
  cases m with
  | text s => cases htexts; rfl
  | element _ | interpolation _ | each _ _ _ _ | fragment _ _ => cases hm

end Sigil
