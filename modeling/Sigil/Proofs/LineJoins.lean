import Sigil.Proofs.Readings

namespace Sigil

namespace Front

/-- A character that starts no escape is no backslash. -/
theorem ne_backslash {c : Char} {cs : List Char} (hlast : c = '\\' → cs = [] → False)
    (hmore : ∀ (d : Char) (ds : List Char), c = '\\' → cs = d :: ds → False) : c ≠ '\\' := by
  intro hc
  cases cs with
  | nil => exact hlast hc rfl
  | cons d ds => exact hmore d ds hc rfl

theorem stringExtent_append_newline {quote : Char} (hquote : quote ≠ '\n') (cs behind : List Char) :
    stringExtent quote (cs ++ '\n' :: behind) = stringExtent quote cs := by
  fun_induction stringExtent quote cs with
  | case1 => simp [stringExtent, Ne.symm hquote]
  | case2 => simp [stringExtent]
  | case3 cs => simp [stringExtent]
  | case4 c cs hc n closed he ih =>
    rw [he] at ih
    simp [stringExtent, hc, ih]
  | case5 cs hlast hmore =>
    have hslash := ne_backslash hlast hmore
    simp [stringExtent, hslash]
  | case6 cs _ _ hc => simp [stringExtent, hc]
  | case7 c cs hlast hmore hc hn n closed he ih =>
    have hslash := ne_backslash hlast hmore
    rw [he] at ih
    simp [stringExtent, hslash, hc, hn, ih]

/-- What stands behind a newline does not matter to what is read before it. -/
theorem read_append_newline (c : Char) (cs behind : List Char) :
    read c (cs ++ '\n' :: behind) = read c cs := by
  have hedge : AtEdge ('\n' :: behind) := atEdge_of_lineEnd (.inr rfl)
  by_cases hquote : c = '"' ∨ c = '\''
  · have hline : c ≠ '\n' := by rcases hquote with rfl | rfl <;> decide
    rw [read_of_quote hquote, read_of_quote hquote, stringExtent_append_newline hline]
  · by_cases hcomment : c = '/' ∧ cs.head? = some '/'
    · obtain ⟨rfl, hhead⟩ := hcomment
      obtain ⟨others, rfl⟩ := List.head?_eq_some_iff.mp hhead
      have hstop : ∀ d ∈ ('\n' :: behind).head?, decide (d ≠ '\n') = false := by
        intro d hd
        cases hd
        rfl
      rw [List.cons_append, read_comment, read_comment, ← List.cons_append,
        takeWhile_append_of_head hstop]
    · exact read_append_edge hedge hquote hcomment

theorem read_skipped_le {c : Char} {cs : List Char} {n : Nat} (h : read c cs = .skipped n) :
    n ≤ cs.length := by
  rcases read_skipped_cases h with ⟨_, rfl⟩ | ⟨_, _, _, rfl⟩
  · exact Nat.zero_le _
  · exact (List.takeWhile_prefix _).length_le

theorem stringExtent_le (quote : Char) (cs : List Char) :
    (stringExtent quote cs).1 ≤ cs.length := by
  fun_induction stringExtent quote cs with
  | case1 => simp
  | case2 => simp
  | case3 => simp
  | case4 c cs hc n closed he ih =>
    rw [he] at ih
    simp only [List.length_cons]
    omega
  | case5 => simp
  | case6 => simp
  | case7 c cs _ _ hc hn n closed he ih =>
    rw [he] at ih
    simp only [List.length_cons]
    omega

theorem read_unreadable_le {c : Char} {cs : List Char} {n : Nat} (h : read c cs = .unreadable n) :
    n ≤ cs.length := by
  by_cases hquote : c = '"' ∨ c = '\''
  · have hextent := stringExtent_le c cs
    rw [read_of_quote hquote] at h
    split at h
    next => cases h
    next m he =>
      cases h
      rw [he] at hextent
      exact hextent
  · -- Only a character that starts nothing is left.
    unfold read at h
    split at h
    next => cases h
    next =>
      split at h
      next => cases h
      next =>
        split at h
        next => cases h
        next =>
          split at h
          next => cases h
          next =>
            split at h
            next => cases h
            next =>
              split at h
              next => cases h
              next =>
                cases h
                exact Nat.zero_le _

end Front

/-- How far positions are moved: by bytes and by lines. Columns stay. -/
structure Shift where
  bytes : Nat
  lines : Nat

namespace Shift

def point (d : Shift) (p : Point) : Point := ⟨p.offset + d.bytes, p.line + d.lines, p.column⟩

def place (d : Shift) (x : Place) : Place :=
  ⟨⟨x.span.start + d.bytes, x.span.stop + d.bytes⟩, x.line + d.lines, x.column⟩

def token (d : Shift) (t : Token) : Token := { t with place := d.place t.place }

def diagnostic (d : Shift) (e : Diagnostic) : Diagnostic := { e with place := d.place e.place }

/-- The tokens of a source, or why there are none, where the source is moved. -/
def outcome (d : Shift) : Except Diagnostic (List Token) → Except Diagnostic (List Token)
  | .ok ts => .ok (ts.map d.token)
  | .error e => .error (d.diagnostic e)

theorem next_point (d : Shift) (p : Point) (c : Char) :
    (d.point p).next c = d.point (p.next c) := by
  by_cases hc : c = '\n'
  · subst c
    rw [Point.next_newline, Point.next_newline]
    simp only [point, Point.mk.injEq, and_true]
    omega
  · rw [Point.next_of_ne hc, Point.next_of_ne hc]
    simp only [point, Point.mk.injEq, and_true]
    omega

theorem after_point (d : Shift) (p : Point) (cs : List Char) :
    (d.point p).after cs = d.point (p.after cs) := by
  induction cs generalizing p with
  | nil => rfl
  | cons c cs ih =>
    have hnext := d.next_point p c
    change ((d.point p).next c).after cs = d.point ((p.next c).after cs)
    rw [hnext, ih]

theorem ofChars_point (d : Shift) (kind : Kind) (cs : List Char) (p : Point) :
    Token.ofChars kind cs (d.point p) = d.token (Token.ofChars kind cs p) := by
  unfold Token.ofChars
  rw [d.after_point]
  rfl

end Shift

namespace Token

/-- Tokens without the stop that ends them. -/
def withoutStop (ts : List Token) : List Token := ts.filter (·.kind ≠ .stop)

/-- The tokens from `p` on, or why there are none. -/
def tokenizeFrom (p : Point) (cs : List Char) : Except Diagnostic (List Token) :=
  (scanFrom p cs).mapM id

section Steps

variable {p : Point} {c : Char} {cs : List Char} {n : Nat}

theorem tokenizeFrom_nil (p : Point) : tokenizeFrom p [] = .ok [ofChars .stop [] p] := by
  unfold tokenizeFrom
  rw [scanFrom]
  rfl

theorem tokenizeFrom_skipped (h : Front.read c cs = .skipped n) :
    tokenizeFrom p (c :: cs) = tokenizeFrom (p.after (c :: cs.take n)) (cs.drop n) := by
  unfold tokenizeFrom
  rw [scanFrom, h]

theorem tokenizeFrom_token {kind : Kind} (h : Front.read c cs = .token kind n) :
    tokenizeFrom p (c :: cs) =
      (tokenizeFrom (p.after (c :: cs.take n)) (cs.drop n)).map
        (ofChars kind (c :: cs.take n) p :: ·) := by
  unfold tokenizeFrom
  rw [scanFrom, h]
  simp only [List.mapM_cons]
  cases (scanFrom (p.after (c :: cs.take n)) (cs.drop n)).mapM id <;> rfl

theorem tokenizeFrom_unreadable (h : Front.read c cs = .unreadable n) :
    tokenizeFrom p (c :: cs) =
      .error ⟨.unrecognizedCharacter c, .between p (p.after (c :: cs.take n))⟩ := by
  unfold tokenizeFrom
  rw [scanFrom, h]
  rfl

end Steps

/-- Scanning from a moved position moves all that comes of it. -/
theorem tokenizeFrom_point (d : Shift) (p : Point) (cs : List Char) :
    tokenizeFrom (d.point p) cs = d.outcome (tokenizeFrom p cs) := by
  fun_induction scanFrom p cs with
  | case1 p =>
    rw [tokenizeFrom_nil, tokenizeFrom_nil, d.ofChars_point]
    rfl
  | case2 p c cs n hr ih =>
    rw [tokenizeFrom_skipped hr, tokenizeFrom_skipped hr, d.after_point, ih]
  | case3 p c cs kind n hr ih =>
    rw [tokenizeFrom_token hr, tokenizeFrom_token hr, d.after_point, d.ofChars_point, ih]
    cases tokenizeFrom (p.after (c :: cs.take n)) (cs.drop n) <;> rfl
  | case4 p c cs n hr =>
    rw [tokenizeFrom_unreadable hr, tokenizeFrom_unreadable hr, d.after_point]
    rfl

/-- A newline ends what is scanned before it, and a scan starts anew behind it. -/
theorem tokenizeFrom_append_newline (p : Point) (cs behind : List Char) :
    tokenizeFrom p (cs ++ '\n' :: behind) =
      (tokenizeFrom p cs).bind fun front =>
        (tokenizeFrom (p.after (cs ++ ['\n'])) behind).map fun rest =>
          withoutStop front ++ ofChars .newline ['\n'] (p.after cs) :: rest := by
  -- A piece that is read off the front is the same with the newline and what follows it.
  have hpiece {c : Char} {cs : List Char} {n : Nat} (hn : n ≤ cs.length) :
      (cs ++ '\n' :: behind).take n = cs.take n ∧
        (cs ++ '\n' :: behind).drop n = cs.drop n ++ '\n' :: behind ∧
        ∀ p : Point, (p.after (c :: cs.take n)).after (cs.drop n) = p.after (c :: cs) := by
    refine ⟨List.take_append_of_le_length hn, List.drop_append_of_le_length hn, fun p => ?_⟩
    rw [← Point.after_append, List.cons_append, List.take_append_drop]
  fun_induction scanFrom p cs with
  | case1 p =>
    have hread : Front.read '\n' behind = .token .newline 0 := rfl
    rw [List.nil_append, tokenizeFrom_token hread, tokenizeFrom_nil]
    rfl
  | case2 p c cs n hr ih =>
    obtain ⟨htake, hdrop, hafter⟩ := hpiece (c := c) (Front.read_skipped_le hr)
    have hread := (Front.read_append_newline c cs behind).trans hr
    rw [Point.after_append, hafter] at ih
    rw [List.cons_append, tokenizeFrom_skipped hread, htake, hdrop, ih, tokenizeFrom_skipped hr,
      Point.after_append]
  | case3 p c cs kind n hr ih =>
    obtain ⟨htake, hdrop, hafter⟩ := hpiece (c := c) (Front.read_token_le hr)
    have hread := (Front.read_append_newline c cs behind).trans hr
    have hkind : (ofChars kind (c :: cs.take n) p).kind ≠ .stop := Front.read_token_ne_stop hr
    rw [Point.after_append, hafter] at ih
    rw [List.cons_append, tokenizeFrom_token hread, htake, hdrop, ih, tokenizeFrom_token hr,
      Point.after_append]
    cases tokenizeFrom (p.after (c :: cs.take n)) (cs.drop n) with
    | error e => rfl
    | ok front =>
      cases tokenizeFrom ((p.after (c :: cs)).after ['\n']) behind with
      | error e => rfl
      | ok rest =>
        have hkeep : withoutStop (ofChars kind (c :: cs.take n) p :: front) =
            ofChars kind (c :: cs.take n) p :: withoutStop front :=
          List.filter_cons_of_pos (by simpa using hkind)
        change Except.ok (ofChars kind (c :: cs.take n) p :: (withoutStop front ++ _)) =
          Except.ok (withoutStop (ofChars kind (c :: cs.take n) p :: front) ++ _)
        rw [hkeep]
        rfl
  | case4 p c cs n hr =>
    have hread := (Front.read_append_newline c cs behind).trans hr
    have htake : (cs ++ '\n' :: behind).take n = cs.take n :=
      List.take_append_of_le_length (Front.read_unreadable_le hr)
    rw [List.cons_append, tokenizeFrom_unreadable hread, tokenizeFrom_unreadable hr, htake]
    rfl

end Token

/-- The line behind a text and a newline starts as far from the start as the text and the newline
reach. -/
theorem Point.after_line (cs : List Char) :
    Point.start.after (cs ++ ['\n']) =
      (Shift.mk (byteLength cs + 1) (cs.count '\n' + 1)).point .start := by
  have hoffset : (Point.start.after cs).offset = byteLength cs := by
    rw [Point.offset_after]
    exact Nat.zero_add _
  have hline : (Point.start.after cs).line = 1 + cs.count '\n' := Point.line_after _ _
  rw [Point.after_append]
  change (Point.start.after cs).next '\n' = _
  rw [Point.next_newline, hoffset, hline]
  simp only [Shift.point, Point.start, Point.mk.injEq, and_true]
  omega

open Token in
/-- The tokens of a text, a newline and another text are those of the first without its stop, one
for the newline, and those of the other moved behind it. An error in the first is the error of the
whole, and one in the other is moved like its tokens. -/
theorem tokenize_append_line (a b : String) :
    tokenize (a ++ "\n" ++ b) =
      (tokenize a).bind fun front =>
        ((Shift.mk (byteLength a.toList + 1) (a.toList.count '\n' + 1)).outcome (tokenize b)).map
          fun behind =>
            withoutStop front ++
              ofChars .newline ['\n'] (Point.start.after a.toList) :: behind := by
  have hsource : (a ++ "\n" ++ b).toList = a.toList ++ '\n' :: b.toList := by simp
  have hmoved := tokenizeFrom_point (Shift.mk (byteLength a.toList + 1) (a.toList.count '\n' + 1))
    .start b.toList
  rw [← Point.after_line] at hmoved
  change tokenizeFrom .start (a ++ "\n" ++ b).toList = _
  rw [hsource, tokenizeFrom_append_newline, hmoved]
  rfl

end Sigil
