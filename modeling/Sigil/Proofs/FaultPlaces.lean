import Sigil.Proofs.Tiling
import Sigil.Proofs.Trees

namespace Sigil

/-- Whether a source is refused because a character of it cannot be read. -/
def Cause.isUnreadable : Cause → Bool
  | unrecognizedCharacter _ => true
  | _ => false

/-- A place whose span is in order and within the source, and whose line and column are those that
the source has at the start of the span. -/
structure Place.LiesIn (source : String) (place : Place) : Prop where
  ordered : place.span.start ≤ place.span.stop
  within : place.span.stop ≤ byteLength source.toList
  position : (LineIndex.ofText source).position place.span.start = (place.line, place.column)

/-- What is read between two points of a source lies in it. -/
theorem Place.liesIn_between {source : String} {front text behind : List Char}
    (h : source.toList = front ++ (text ++ behind)) :
    (Place.between (Point.start.after front)
      ((Point.start.after front).after text)).LiesIn source := by
  have hstart : (Point.start.after front).offset = byteLength front := by
    rw [Point.offset_after]
    exact Nat.zero_add _
  have hstop : ((Point.start.after front).after text).offset =
      byteLength front + byteLength text := by
    rw [Point.offset_after, hstart]
  have hlength : byteLength source.toList =
      byteLength front + (byteLength text + byteLength behind) := by
    rw [h, byteLength_append, byteLength_append]
  refine ⟨?_, ?_, ?_⟩
  · change (Point.start.after front).offset ≤ ((Point.start.after front).after text).offset
    omega
  · change ((Point.start.after front).after text).offset ≤ _
    omega
  · change (LineIndex.ofText source).position (Point.start.after front).offset = _
    rw [hstart, LineIndex.position_of_prefix h]
    rfl

namespace Token

theorem tiles_of_tokenize {source : String} {ts : List Token} (h : tokenize source = .ok ts) :
    Tiles [] source.toList ts :=
  tiles_of_scanFrom (tokenize_eq_ok_iff.mp h)

theorem liesIn_of_tokenize {source : String} {ts : List Token} (h : tokenize source = .ok ts)
    {t : Token} (ht : t ∈ ts) : t.place.LiesIn source := by
  obtain ⟨front, text, behind, hsource, _, htoken, _⟩ := (tiles_of_tokenize h).of_mem ht
  rw [htoken]
  exact Place.liesIn_between hsource

/-- What cannot be read starts with the character that is reported, and stands where it is said
to. -/
theorem error_of_scanFrom {before cs : List Char} {d : Diagnostic}
    (h : .error d ∈ scanFrom (Point.start.after before) cs) :
    ∃ front c text behind, before ++ cs = front ++ (c :: text ++ behind) ∧
      d = ⟨.unrecognizedCharacter c, .between (Point.start.after front)
        ((Point.start.after front).after (c :: text))⟩ := by
  generalize hp : Point.start.after before = p at h
  fun_induction scanFrom p cs generalizing before with
  | case1 p => cases List.mem_singleton.mp h
  | case2 p c cs n hr ih =>
    have hpoint : Point.start.after (before ++ c :: cs.take n) = p.after (c :: cs.take n) := by
      rw [Point.after_append, hp]
    have hrest := ih hpoint h
    rwa [List.append_assoc, List.cons_append, List.take_append_drop] at hrest
  | case3 p c cs kind n hr ih =>
    have hlater : .error d ∈ scanFrom (p.after (c :: cs.take n)) (cs.drop n) := by
      rcases List.mem_cons.mp h with hfirst | hlater
      · cases hfirst
      · exact hlater
    have hpoint : Point.start.after (before ++ c :: cs.take n) = p.after (c :: cs.take n) := by
      rw [Point.after_append, hp]
    have hrest := ih hpoint hlater
    rwa [List.append_assoc, List.cons_append, List.take_append_drop] at hrest
  | case4 p c cs n hr =>
    cases List.mem_singleton.mp h
    refine ⟨before, c, cs.take n, cs.drop n, ?_, by rw [hp]⟩
    rw [List.cons_append, List.take_append_drop]

theorem mem_of_mapM_error {ε α : Type} {pieces : List (Except ε α)} {e : ε}
    (h : pieces.mapM id = .error e) : .error e ∈ pieces := by
  induction pieces with
  | nil => cases h
  | cons piece pieces ih =>
    rw [List.mapM_cons] at h
    cases piece with
    | error e' =>
      cases h
      exact List.mem_cons_self
    | ok a =>
      cases hrest : pieces.mapM id with
      | error e' =>
        rw [hrest] at h
        cases h
        exact List.mem_cons_of_mem _ (ih hrest)
      | ok as =>
        rw [hrest] at h
        cases h

/-- A source that cannot be tokenized is refused where it cannot be read. -/
theorem liesIn_of_tokenize_error {source : String} {d : Diagnostic}
    (h : tokenize source = .error d) : d.place.LiesIn source ∧ d.cause.isUnreadable = true := by
  have hscan : .error d ∈ scanFrom (Point.start.after []) source.toList := mem_of_mapM_error h
  obtain ⟨front, c, text, behind, hsource, rfl⟩ := error_of_scanFrom hscan
  exact ⟨Place.liesIn_between hsource, rfl⟩

end Token

/-- Where tokens end with a stop, each place that is left to be read is that of a token. -/
theorem Input.place_mem {ts : List Token} (hend : ∃ t ∈ ts, t.isEnd = true) (left : Nat) :
    ∃ t ∈ ts, t.place = (Input.ofTokens ts).place left := by
  obtain ⟨stop, hfind⟩ : ∃ stop, ts.find? (·.isEnd) = some stop :=
    Option.isSome_iff_exists.mp (List.find?_isSome.mpr hend)
  have hinput : Input.ofTokens ts = ⟨ts.takeWhile (!·.isEnd), stop.place⟩ := by
    unfold Input.ofTokens
    rw [hfind]
  unfold Input.place
  cases hfront :
      ((Input.ofTokens ts).body.drop ((Input.ofTokens ts).body.length - left)).head? with
  | none =>
    refine ⟨stop, List.mem_of_find?_eq_some hfind, ?_⟩
    rw [hinput]
    rfl
  | some t =>
    have hbody : t ∈ (Input.ofTokens ts).body :=
      List.mem_of_mem_drop (List.mem_of_mem_head? hfront)
    exact ⟨t, Input.body_subset ts hbody, rfl⟩

theorem eq_error_of_map {ε α β : Type} {x : Except ε α} {f : α → β} {e : ε}
    (h : x.map f = .error e) : x = .error e := by
  cases x with
  | error e' => cases h; rfl
  | ok a => cases h

theorem Component.ofTokens_eq_error {name : String} {ts : List Token} {d : Diagnostic}
    (h : ofTokens name ts = .error d) :
    ∃ fault : Fault, d = fault.locate (Input.ofTokens ts) := by
  cases hr : ofLexemes name (Input.ofTokens ts).lexemes with
  | error fault =>
    simp only [ofTokens, hr, Except.mapError] at h
    cases h
    exact ⟨fault, rfl⟩
  | ok c => simp [ofTokens, hr, Except.mapError] at h

/-- A source is refused at a place that lies in it. Unless a character cannot be read, that is the
place of one of its tokens. -/
theorem ofSource_error_place {name source : String} {d : Diagnostic}
    (h : Component.ofSource name source = .error d) :
    d.place.LiesIn source ∧
      (d.cause.isUnreadable = false →
        ∃ ts, Token.tokenize source = .ok ts ∧ ∃ t ∈ ts, t.place = d.place) := by
  cases htokens : Token.tokenize source with
  | error e =>
    obtain ⟨hplace, hcause⟩ := Token.liesIn_of_tokenize_error htokens
    rw [Component.ofSource, htokens] at h
    cases h
    refine ⟨hplace, fun hread => ?_⟩
    rw [hcause] at hread
    cases hread
  | ok ts =>
    rw [Component.ofSource, htokens] at h
    obtain ⟨fault, rfl⟩ := Component.ofTokens_eq_error h
    have hend : ∃ t ∈ ts, t.isEnd = true := by
      obtain ⟨body, rfl, _⟩ := (Token.tiles_of_tokenize htokens).ends
      exact ⟨_, List.mem_append_right _ List.mem_cons_self, rfl⟩
    obtain ⟨t, ht, hplace⟩ := Input.place_mem hend fault.left
    have hlies := Token.liesIn_of_tokenize htokens ht
    rw [hplace] at hlies
    exact ⟨hlies, fun _ => ⟨ts, rfl, t, ht, hplace⟩⟩

/-- A closing tag on the second line, behind a character of two bytes, does not match. -/
theorem ofSource_error_place_mismatched :
    ∃ d, Component.ofSource "Card" "<p>'é'\n</q>" = .error d ∧
      d = ⟨.mismatchedTag "p" "q", ⟨⟨10, 11⟩, 2, 3⟩⟩ ∧ d.place.LiesIn "<p>'é'\n</q>" ∧
      ∃ ts, Token.tokenize "<p>'é'\n</q>" = .ok ts ∧ ∃ t ∈ ts, t.place = d.place := by
  have hread : (Component.ofSource "Card" "<p>'é'\n</q>").map (fun _ => ()) =
      .error ⟨.mismatchedTag "p" "q", ⟨⟨10, 11⟩, 2, 3⟩⟩ := by decide +kernel
  have herror := eq_error_of_map hread
  obtain ⟨hplace, htoken⟩ := ofSource_error_place herror
  exact ⟨_, herror, rfl, hplace, htoken rfl⟩

end Sigil
