import Mathlib.Data.List.Infix
import Mathlib.Data.List.TakeWhile
import Sigil.Lexeme
import Sigil.Token.Scan

namespace Sigil

/-- The text holds no newline. -/
def OneLine (s : String) : Prop := '\n' ∉ s.toList

instance (s : String) : Decidable (OneLine s) := inferInstanceAs (Decidable ('\n' ∉ s.toList))

@[simp]
theorem oneLine_append {s t : String} : OneLine (s ++ t) ↔ OneLine s ∧ OneLine t := by
  simp [OneLine, not_or]

theorem oneLine_between {before s behind : String} (hbefore : OneLine before) (h : OneLine s)
    (hbehind : OneLine behind) : OneLine (before ++ s ++ behind) :=
  oneLine_append.mpr ⟨oneLine_append.mpr ⟨hbefore, h⟩, hbehind⟩

/-- What is in a class is nothing that the class leaves out. -/
theorem ne_of_class {α : Type} {p : α → Bool} {a b : α} (ha : p a) (hb : p b = false) : a ≠ b := by
  rintro rfl
  simp [ha] at hb

/-- Whether a text is spelled like an identifier. -/
def isName (s : String) : Bool :=
  match s.toList with
  | [] => false
  | c :: cs => isWordStart c && cs.all isWordPart

/-- What may stand behind the whole digits of a number: nothing, or a point and more digits. -/
def IsFraction (cs : List Char) : Prop :=
  cs = [] ∨ ∃ d ds, cs = '.' :: d :: ds ∧ d.isDigit ∧ ∀ c ∈ ds, c.isDigit

/-- What a number is spelled like. -/
def IsNumeral (cs : List Char) : Prop :=
  ∃ d whole fraction, cs = d :: (whole ++ fraction) ∧ d.isDigit ∧ (∀ c ∈ whole, c.isDigit) ∧
    IsFraction fraction

namespace Front

/-- All that can stand behind a token at the front of a source. -/
theorem read_token_cases {c : Char} {cs : List Char} {kind : Kind} {n : Nat}
    (h : read c cs = .token kind n) :
    (kind = .newline ∧ c = '\n' ∧ n = 0) ∨
      (kind = .string ∧ (c = '"' ∨ c = '\'') ∧ stringExtent c cs = (n, true)) ∨
      (kind = .number ∧ c.isDigit ∧ n = numberExtent cs) ∨
      (kind = .ident ∧ isWordStart c ∧ n = (cs.takeWhile isWordPart).length) ∨
      ∃ s, kind = .symbol s ∧ Symbol.atFront? (c :: cs) = some s ∧ n = s.text.length - 1 := by
  unfold read at h
  split at h
  next => cases h
  next =>
    split at h
    next => cases h
    next =>
      split at h
      next hc => cases h; exact .inl ⟨rfl, hc, rfl⟩
      next =>
        split at h
        next hc =>
          split at h
          next m he => cases h; exact .inr (.inl ⟨rfl, hc, he⟩)
          next => cases h
        next =>
          split at h
          next hc => cases h; exact .inr (.inr (.inl ⟨rfl, hc, rfl⟩))
          next =>
            split at h
            next hc => cases h; exact .inr (.inr (.inr (.inl ⟨rfl, hc, rfl⟩)))
            next =>
              split at h
              next s hs => cases h; exact .inr (.inr (.inr (.inr ⟨s, rfl, hs, rfl⟩)))
              next => cases h

theorem take_stringExtent_no_newline {quote : Char} (hq : quote ≠ '\n') (cs : List Char) :
    '\n' ∉ cs.take (stringExtent quote cs).1 := by
  fun_induction stringExtent quote cs with
  | case1 => simp
  | case2 => decide
  | case3 => simp
  | case4 c cs hc n closed he ih =>
    rw [he] at ih
    simpa [Ne.symm hc] using ih
  | case5 => simpa using hq.symm
  | case6 => simp
  | case7 c cs _ _ hc hn n closed he ih =>
    rw [he] at ih
    simpa [Ne.symm hn] using ih

theorem takeWhile_isDigit_all (cs : List Char) : ∀ c ∈ cs.takeWhile Char.isDigit, c.isDigit :=
  fun _ hc => List.mem_takeWhile_imp hc

/-- What the extent of a number takes of the characters behind its first digit. -/
theorem take_numberExtent (cs : List Char) :
    ∃ whole fraction, cs.take (numberExtent cs) = whole ++ fraction ∧
      (∀ c ∈ whole, c.isDigit) ∧ IsFraction fraction := by
  have hsplit := List.takeWhile_append_dropWhile (p := Char.isDigit) (l := cs)
  have hwhole := takeWhile_isDigit_all cs
  have plain : numberExtent cs = (cs.takeWhile Char.isDigit).length →
      ∃ whole fraction, cs.take (numberExtent cs) = whole ++ fraction ∧
        (∀ c ∈ whole, c.isDigit) ∧ IsFraction fraction := by
    intro h
    refine ⟨cs.takeWhile Char.isDigit, [], ?_, hwhole, .inl rfl⟩
    rw [h, List.append_nil]
    exact (List.prefix_iff_eq_take.mp (List.takeWhile_prefix _)).symm
  cases hd : cs.dropWhile Char.isDigit with
  | nil => exact plain (by simp [numberExtent, hd])
  | cons point behind =>
    cases behind with
    | nil => exact plain (by simp [numberExtent, hd])
    | cons d rest =>
      by_cases hp : point = '.' ∧ d.isDigit
      · obtain ⟨rfl, hdigit⟩ := hp
        refine ⟨cs.takeWhile Char.isDigit, '.' :: d :: rest.takeWhile Char.isDigit, ?_, hwhole,
          .inr ⟨d, _, rfl, hdigit, takeWhile_isDigit_all rest⟩⟩
        have hn : numberExtent cs =
            (cs.takeWhile Char.isDigit ++ '.' :: d :: rest.takeWhile Char.isDigit).length := by
          simp [numberExtent, hd, hdigit]
          omega
        have hprefix :
            cs.takeWhile Char.isDigit ++ '.' :: d :: rest.takeWhile Char.isDigit <+: cs := by
          refine ⟨rest.dropWhile Char.isDigit, ?_⟩
          rw [List.append_assoc, List.cons_append, List.cons_append,
            List.takeWhile_append_dropWhile, ← hd, hsplit]
        rw [hn]
        exact (List.prefix_iff_eq_take.mp hprefix).symm
      · refine plain ?_
        unfold numberExtent
        rw [hd]
        by_cases hpoint : point = '.'
        · have hdigit : d.isDigit = false := by simpa [hpoint] using hp
          simp [hpoint, hdigit]
        · simp [hpoint]

end Front

theorem Symbol.take_atFront {cs : List Char} {s : Symbol} (h : atFront? cs = some s) :
    cs.take s.text.length = s.text.toList := by
  have hp := List.find?_some h
  rw [← String.length_toList]
  exact (List.prefix_iff_eq_take.mp (List.isPrefixOf_iff_prefix.mp hp)).symm

theorem Symbol.length_text_pos (s : Symbol) : 0 < s.text.length := by
  cases s <;> decide

theorem Symbol.oneLine_text (s : Symbol) : OneLine s.text := by
  cases s <;> decide

/-- What holds of every lexeme that is read off a source. -/
structure Lexeme.Scanned (t : Lexeme) : Prop where
  name : t.kind = .ident → isName t.text
  numeral : t.kind = .number → IsNumeral t.text.toList
  value : t.value = Token.valueOf t.kind t.text.toList
  oneLine : t.kind ≠ .newline → OneLine t.text
  nonempty : t.kind ≠ .stop → t.text ≠ ""
  line : 0 < t.line

/-- All lexemes that are left are read off a source. -/
def Lexeme.AllScanned (ts : List Lexeme) : Prop := ∀ t ∈ ts, t.Scanned

namespace Token

theorem mem_unescape {c : Char} {cs : List Char} (h : c ∈ unescape cs) : c ∈ cs := by
  fun_induction unescape cs with
  | case1 => exact h
  | case2 => simp at h
  | case3 d cs ih =>
    rcases List.mem_cons.mp h with rfl | h
    · simp
    · simp [ih h]
  | case4 d cs _ _ ih =>
    rcases List.mem_cons.mp h with rfl | h
    · simp
    · simp [ih h]

/-- A token as the grammar sees it behind a gap. -/
def lexeme (t : Token) (gap : Gap) : Lexeme := ⟨t.kind, t.text, t.value, t.place.line, gap⟩

/-- A name holds no character that is neither in a word nor at its start. -/
theorem not_mem_of_isName {s : String} (h : isName s) {x : Char} (hstart : isWordStart x = false)
    (hpart : isWordPart x = false) : x ∉ s.toList := by
  unfold isName at h
  split at h
  next => cases h
  next c cs hs =>
    rw [Bool.and_eq_true, List.all_eq_true] at h
    rw [hs, List.mem_cons, not_or]
    exact ⟨(ne_of_class h.1 hstart).symm, fun hm => ne_of_class (h.2 _ hm) hpart rfl⟩

theorem oneLine_of_isName {s : String} (h : isName s) : OneLine s := not_mem_of_isName h rfl rfl

theorem isDigit_or_point {whole fraction : List Char} (hwhole : ∀ c ∈ whole, c.isDigit)
    (hfraction : IsFraction fraction) {c : Char} (hc : c ∈ whole ++ fraction) :
    c.isDigit ∨ c = '.' := by
  rcases List.mem_append.mp hc with hc | hc
  · exact .inl (hwhole c hc)
  · rcases hfraction with rfl | ⟨d, ds, rfl, hd, hds⟩
    · simp at hc
    · rcases List.mem_cons.mp hc with rfl | hc
      · exact .inr rfl
      · rcases List.mem_cons.mp hc with rfl | hc
        · exact .inl hd
        · exact .inl (hds c hc)

theorem isNumeral_no_newline {cs : List Char} (h : IsNumeral cs) : '\n' ∉ cs := by
  obtain ⟨d, whole, fraction, rfl, hd, hwhole, hfraction⟩ := h
  intro hm
  rcases List.mem_cons.mp hm with rfl | hm
  · exact absurd hd (by decide)
  · rcases isDigit_or_point hwhole hfraction hm with hdigit | hpoint
    · exact absurd hdigit (by decide)
    · exact absurd hpoint (by decide)

theorem ofChars_scanned {c : Char} {cs : List Char} {kind : Kind} {n : Nat} {p : Point} (gap : Gap)
    (hp : 0 < p.line) (h : Front.read c cs = .token kind n) :
    ((ofChars kind (c :: cs.take n) p).lexeme gap).Scanned := by
  have build (hname : kind = .ident → isName (String.ofList (c :: cs.take n)))
      (hnum : kind = .number → IsNumeral (c :: cs.take n))
      (hflat : kind ≠ .newline → '\n' ∉ c :: cs.take n) :
      ((ofChars kind (c :: cs.take n) p).lexeme gap).Scanned :=
    ⟨hname, fun hk => by simpa [ofChars, lexeme] using hnum hk, by simp [ofChars, lexeme],
      fun hk => by simpa [ofChars, lexeme, OneLine] using hflat hk,
      fun _ => by simp [ofChars, lexeme], hp⟩
  rcases Front.read_token_cases h with ⟨rfl, -, -⟩ | ⟨rfl, hc, hn⟩ | ⟨rfl, hc, rfl⟩ |
    ⟨rfl, hc, rfl⟩ | ⟨s, rfl, hs, rfl⟩
  · exact build (by simp) (by simp) (by simp)
  · have hq : c ≠ '\n' := by rcases hc with rfl | rfl <;> decide
    have hbody := Front.take_stringExtent_no_newline hq cs
    rw [hn] at hbody
    refine build (by simp) (by simp) (fun _ => ?_)
    simpa [hq.symm] using hbody
  · obtain ⟨whole, fraction, ht, hwhole, hfraction⟩ := Front.take_numberExtent cs
    have hnum : IsNumeral (c :: cs.take (Front.numberExtent cs)) :=
      ⟨c, whole, fraction, by rw [ht], hc, hwhole, hfraction⟩
    exact build (by simp) (fun _ => hnum) (fun _ => isNumeral_no_newline hnum)
  · have hprefix := List.prefix_iff_eq_take.mp (List.takeWhile_prefix (l := cs) isWordPart)
    have hname : isName (String.ofList (c :: cs.take (cs.takeWhile isWordPart).length)) := by
      simp only [isName, String.toList_ofList, ← hprefix, hc, Bool.true_and, List.all_eq_true]
      exact fun x hx => List.mem_takeWhile_imp hx
    refine build (fun _ => hname) (by simp) (fun _ => ?_)
    simpa [OneLine] using oneLine_of_isName hname
  · have htext : c :: cs.take (s.text.length - 1) = s.text.toList := by
      have hpos := s.length_text_pos
      have hfront := Symbol.take_atFront hs
      rwa [show s.text.length = s.text.length - 1 + 1 by omega, List.take_succ_cons] at hfront
    exact build (by simp) (by simp) (fun _ => by rw [htext]; exact s.oneLine_text)

theorem line_le_after (p : Point) (cs : List Char) : p.line ≤ (p.after cs).line := by
  induction cs generalizing p with
  | nil => exact le_rfl
  | cons c cs ih =>
    have hnext : p.line ≤ (p.next c).line := by
      unfold Point.next
      split <;> simp
    exact hnext.trans (ih (p.next c))

theorem scanFrom_scanned {p : Point} {cs : List Char} {t : Token} (gap : Gap) (hp : 0 < p.line)
    (h : .ok t ∈ scanFrom p cs) : (t.lexeme gap).Scanned := by
  fun_induction scanFrom p cs with
  | case1 p =>
    cases List.mem_singleton.mp h
    exact ⟨by simp [ofChars, lexeme], by simp [ofChars, lexeme], by simp [ofChars, lexeme],
      by simp [ofChars, lexeme, OneLine], by simp [ofChars, lexeme], hp⟩
  | case2 p c cs n hr ih => exact ih (hp.trans_le (line_le_after _ _)) h
  | case3 p c cs kind n hr ih =>
    rcases List.mem_cons.mp h with he | h
    · cases he
      exact ofChars_scanned gap hp hr
    · exact ih (hp.trans_le (line_le_after _ _)) h
  | case4 p c cs n hr => simp at h

/-- A source is tokenized if each of its pieces can be read. -/
theorem tokenize_eq_ok_iff {source : String} {tokens : List Token} :
    tokenize source = .ok tokens ↔ scan source = tokens.map .ok := by
  unfold tokenize
  generalize scan source = pieces
  induction pieces generalizing tokens with
  | nil =>
    cases tokens with
    | nil => simp [pure, Except.pure]
    | cons t ts => simp [pure, Except.pure]
  | cons piece pieces ih =>
    rw [List.mapM_cons]
    cases piece with
    | error e => cases tokens <;> simp [bind, Except.bind]
    | ok t =>
      cases hm : pieces.mapM id with
      | error e =>
        have hno : ∀ ts : List Token, pieces ≠ ts.map .ok := by
          intro ts hts
          exact absurd (hm.symm.trans (ih.mpr hts)) (by simp)
        cases tokens <;> simp [bind, Except.bind, hno]
      | ok ts =>
        have hts := ih.mp hm
        cases tokens with
        | nil => simp [bind, Except.bind, pure, Except.pure]
        | cons t' ts' =>
          have hinj : ts.map Except.ok = ts'.map (Except.ok (ε := Diagnostic)) ↔ ts = ts' :=
            (List.map_injective_iff.mpr fun _ _ h => by cases h; rfl).eq_iff
          simp [bind, Except.bind, pure, Except.pure, hts, hinj]

end Token

namespace Lexeme

theorem mem_arrange {before : Option Nat} {ts : List Token} {l : Lexeme}
    (h : l ∈ arrange before ts) : ∃ t ∈ ts, ∃ gap, l = t.lexeme gap := by
  induction ts generalizing before with
  | nil => simp [arrange] at h
  | cons t ts ih =>
    rcases List.mem_cons.mp h with rfl | h
    · exact ⟨t, by simp, _, rfl⟩
    · obtain ⟨t', ht', gap, rfl⟩ := ih h
      exact ⟨t', by simp [ht'], gap, rfl⟩

end Lexeme

theorem Input.body_subset (ts : List Token) : (Input.ofTokens ts).body ⊆ ts := by
  unfold Input.ofTokens
  split
  · exact List.takeWhile_subset _
  · split <;> simp

/-- Every lexeme of a tokenized source is spelled as its kind demands. -/
theorem lexemes_scanned {source : String} {tokens : List Token}
    (h : Token.tokenize source = .ok tokens) :
    Lexeme.AllScanned (Input.ofTokens tokens).lexemes := by
  intro l hl
  obtain ⟨t, ht, gap, rfl⟩ := Lexeme.mem_arrange hl
  refine @Token.scanFrom_scanned .start source.toList t gap (by decide) ?_
  have hscan := Token.tokenize_eq_ok_iff.mp h
  change .ok t ∈ Token.scan source
  rw [hscan]
  exact List.mem_map_of_mem (Input.body_subset tokens ht)

end Sigil
