import Sigil.Proofs.FaultPlaces
import Sigil.Proofs.SourceLayout

namespace Sigil

namespace Rule

/-- The coupling of a run that ends with its lexemes and one that finds the end of the input there,
with anything behind it. -/
def Coupling.barrier {tail : List Lexeme} (h : AtEnd tail) : Coupling id where
  Rel ts ts' := ts' = ts ++ tail
  Kept _ := True
  faults := True
  more := tail.length
  kept_of_suffix _ _ := trivial
  kept_of_faults _ _ := trivial
  front := by
    rintro ts _ _ rfl
    exact .append h ts
  second := by
    rintro ts _ _ _ hne rfl
    rw [List.tail_append_of_ne_nil hne]
    exact .append h ts.tail
  tail := by
    rintro ts _ hne _ rfl
    exact List.tail_append_of_ne_nil hne
  length_eq := by
    rintro ts _ _ rfl
    exact List.length_append
  length_lt_iff := by
    rintro ts _ us _ rfl rfl
    rw [List.length_append, List.length_append]
    omega

end Rule

/-- No rule reads on behind the end of the input. -/
theorem Component.ofLexemes_append_end (name : String) (ts : List Lexeme) {tail : List Lexeme}
    (h : Rule.AtEnd tail) :
    ofLexemes name (ts ++ tail) =
      (ofLexemes name ts).mapError fun e => ⟨e.cause, e.left + tail.length⟩ := by
  have hfollows : Rule.Follows (.barrier h) Rule.Anywhere Rule.Anything (renumber id)
      (Rule.unit name) (Rule.unit name) := Rule.follows_unit name
  have htracks := hfollows.tracks trivial (rfl : ts ++ tail = ts ++ tail)
  rw [ofLexemes_eq_map, ofLexemes_eq_map]
  cases hr : Rule.unit name ts with
  | error e =>
    rw [htracks.fault trivial hr]
    rfl
  | ok x =>
    obtain ⟨c, rest, hr', hview, _⟩ := htracks.value hr trivial
    rw [renumber_id, renumber_id] at hview
    rw [hr']
    exact congrArg Except.ok hview.symm

/-- Lexemes are arranged one behind the other: those of later tokens depend on the earlier ones only
through where the last of them stops. -/
theorem Lexeme.arrange_append (before : Option Nat) (ts us : List Token) :
    ∃ stop, arrange before (ts ++ us) = arrange before ts ++ arrange stop us := by
  induction ts generalizing before with
  | nil => exact ⟨before, rfl⟩
  | cons t ts ih =>
    obtain ⟨stop, hstop⟩ := ih (if t.kind = .newline then before else some t.place.span.stop)
    exact ⟨stop, congrArg (_ :: ·) hstop⟩

theorem Lexeme.atEnd_arrange {stop : Token} (h : stop.isEnd) (before : Option Nat)
    (behind : List Token) : Rule.AtEnd (arrange before (stop :: behind)) := by
  rintro _ ⟨⟩
  simpa [Token.isEnd] using h

/-- The place behind the last token, or the start of a source without tokens. -/
def Token.placeBehind (ts : List Token) : Place :=
  match ts.getLast? with
  | some t => ⟨.empty t.place.span.stop, t.place.line, t.place.column⟩
  | none => ⟨.empty 0, 1, 1⟩

/-- The stop that belongs behind tokens without one. -/
def Token.endOf (ts : List Token) : Token := ⟨.stop, "", .none, placeBehind ts⟩

namespace Input

/-- All tokens as they are, with the end behind the last. -/
def uncut (ts : List Token) : Input := ⟨ts, Token.placeBehind ts⟩

theorem ofTokens_eq_uncut {ts : List Token} (h : ∀ t ∈ ts, t.isEnd = false) :
    ofTokens ts = uncut ts := by
  have hfind : ts.find? (·.isEnd) = none := by simpa using h
  rw [ofTokens, hfind]
  unfold uncut Token.placeBehind
  dsimp only
  cases hlast : ts.getLast? with
  | none => rw [List.getLast?_eq_none_iff.mp hlast]
  | some t => rfl

/-- A place before the end is found whatever stands behind the end, and the end's own place is that
of its token. -/
theorem place_append_end (body behind : List Token) (stop : Token) (place : Place) (left : Nat) :
    Input.place ⟨body ++ stop :: behind, place⟩ (left + (stop :: behind).length) =
      Input.place ⟨body, stop.place⟩ left := by
  have hdrop : (body ++ stop :: behind).length - (left + (stop :: behind).length) =
      body.length - left := by
    rw [List.length_append]
    omega
  unfold Input.place
  rw [hdrop, List.drop_append_of_le_length (by omega)]
  cases body.drop (body.length - left) with
  | nil => rfl
  | cons t ts => rfl

end Input

namespace Component

/-- Reads a component off an input. -/
def ofInput (name : String) (input : Input) : Except Diagnostic Component :=
  (ofLexemes name input.lexemes).mapError (·.locate input)

/-- To cut an input at its end changes nothing about what is read, nor about where it fails. -/
theorem ofInput_append_end (name : String) (body behind : List Token) {stop : Token}
    (hstop : stop.isEnd) (place : Place) :
    ofInput name ⟨body ++ stop :: behind, place⟩ = ofInput name ⟨body, stop.place⟩ := by
  unfold ofInput Input.lexemes
  dsimp only
  obtain ⟨before, hsplit⟩ := Lexeme.arrange_append none body (stop :: behind)
  rw [hsplit, ofLexemes_append_end name _ (Lexeme.atEnd_arrange hstop before behind),
    Lexeme.length_arrange]
  cases ofLexemes name (Lexeme.arrange none body) with
  | ok c => rfl
  | error e =>
    exact congrArg (fun p => Except.error (Diagnostic.mk e.cause p))
      (Input.place_append_end body behind stop place e.left)

theorem ofInput_uncut (name : String) (ts : List Token) :
    ofInput name (.uncut ts) = ofTokens name ts := by
  cases hfind : ts.find? (·.isEnd) with
  | none =>
    have hbody : ∀ t ∈ ts, t.isEnd = false := by simpa using hfind
    exact congrArg (ofInput name) (Input.ofTokens_eq_uncut hbody).symm
  | some stop =>
    obtain ⟨hstop, body, behind, rfl, hbody⟩ := List.find?_eq_some_iff_append.mp hfind
    have hbody : ∀ t ∈ body, t.isEnd = false := by simpa using hbody
    have hcut := congrArg (ofInput name) (Input.ofTokens_append_end hstop hbody behind)
    exact (ofInput_append_end name body behind hstop _).trans hcut.symm

end Component

/-- The end of the input is a barrier. Tokens without a stop are read like the same tokens with a
stop behind them and anything behind that, and this is due to the grammar: to read all tokens is the
same as to cut them at their end first. -/
theorem reading_ends_at_stop (name : String) {ts : List Token} (h : ∀ t ∈ ts, t.kind ≠ .stop)
    (behind : List Token) :
    Component.ofTokens name (ts ++ [Token.endOf ts] ++ behind) = Component.ofTokens name ts ∧
      Component.ofInput name (.uncut (ts ++ [Token.endOf ts] ++ behind)) =
        Component.ofInput name (.uncut ts) ∧
      ∀ us, Component.ofInput name (.uncut us) = Component.ofTokens name us := by
  have hbody : ∀ t ∈ ts, t.isEnd = false := fun t ht => by simp [Token.isEnd, h t ht]
  have hinput : Input.ofTokens (ts ++ [Token.endOf ts] ++ behind) = Input.ofTokens ts := by
    rw [List.append_assoc, Input.ofTokens_eq_uncut hbody]
    exact Input.ofTokens_append_end rfl hbody behind
  have hread : Component.ofTokens name (ts ++ [Token.endOf ts] ++ behind) =
      Component.ofTokens name ts := congrArg (Component.ofInput name) hinput
  refine ⟨hread, ?_, Component.ofInput_uncut name⟩
  rw [Component.ofInput_uncut, Component.ofInput_uncut, hread]

/-- An angle whose tag has its name only behind the end of the input. -/
theorem reading_ends_at_stop_open_tag :
    let angle : Token := ⟨.symbol .langle, "<", .none, ⟨⟨0, 1⟩, 1, 1⟩⟩
    let name : Token := ⟨.ident, "p", .word "p", ⟨⟨1, 2⟩, 1, 2⟩⟩
    (∀ t ∈ [angle], t.kind ≠ .stop) ∧
      Component.ofTokens "C" ([angle] ++ [Token.endOf [angle]] ++ [name]) =
        Component.ofTokens "C" [angle] ∧
      Component.ofInput "C" (.uncut ([angle] ++ [Token.endOf [angle]] ++ [name])) =
        Component.ofInput "C" (.uncut [angle]) ∧
      Component.ofTokens "C" [angle] =
        .error ⟨.unexpectedToken "end of input" "tag name", ⟨⟨1, 1⟩, 1, 1⟩⟩ := by
  intro angle name
  have hkinds : ∀ t ∈ [angle], t.kind ≠ .stop := by simp [angle]
  obtain ⟨hread, huncut, _⟩ := reading_ends_at_stop "C" hkinds [name]
  have hfault : (Component.ofTokens "C" [angle]).map (fun _ => ()) =
      .error ⟨.unexpectedToken "end of input" "tag name", ⟨⟨1, 1⟩, 1, 1⟩⟩ := by decide +kernel
  exact ⟨hkinds, hread, huncut, eq_error_of_map hfault⟩

end Sigil
