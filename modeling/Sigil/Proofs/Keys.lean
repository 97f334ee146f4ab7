import Sigil.Proofs.Boundaries
import Sigil.Proofs.Escapes
import Sigil.Proofs.OutputLines

namespace Sigil

/-- What a character behind a backslash stands for in a literal of the output. -/
def escapeMeaning? (c : Char) : Option Char :=
  if c = '\'' ∨ c = '\\' then some c else if c = 'n' then some '\n' else none

def isLineBreak (c : Char) : Bool := c = '\n' ∨ c = '\r'

/-- The text that a single-quoted literal of the output stands for. A line break may not stand in
it. -/
def unquote (text : String) : Option String :=
  if text.toList.any isLineBreak then none
  else (readQuoted escapeMeaning? text).bind fun (value, rest) =>
    if rest = "" then some value else none

theorem any_isLineBreak_quote (s : String) :
    (quote s).toList.any isLineBreak ↔ '\r' ∈ s.toList := by
  have hchar (c : Char) : (quotedChar c).any isLineBreak ↔ c = '\r' := by
    unfold quotedChar
    split
    next hc => rw [hc]; decide
    next =>
      split
      next hc => rw [hc]; decide
      next =>
        split
        next hc => rw [hc]; decide
        next hc => simp [isLineBreak, hc]
  have hquote : isLineBreak '\'' = false := rfl
  simp [toList_quote, List.any_flatMap, hchar, hquote]

/-- A quoted text is read back, unless it has a carriage return. -/
theorem unquote_quote (s : String) :
    unquote (quote s) = if '\r' ∈ s.toList then none else some s := by
  have hescapes : HasEscapes escapeMeaning? := ⟨rfl, rfl, rfl⟩
  have hread := readQuoted_quote hescapes s ""
  rw [String.append_empty] at hread
  simp only [unquote, any_isLineBreak_quote, hread, Option.bind_some, if_pos]

/-- No literal stands for its own spelling. -/
theorem unquote_ne_self (s : String) : unquote s ≠ some s := by
  intro h
  unfold unquote at h
  split at h
  · cases h
  · obtain ⟨⟨value, rest⟩, hread, h⟩ := Option.bind_eq_some_iff.mp h
    have hlt := length_readQuoted hread
    obtain ⟨-, rfl⟩ : rest = "" ∧ value = s := by simpa using h
    exact Nat.lt_irrefl _ hlt

/-- A key is written as a word that is spelled like it, or as a literal that stands for it. -/
def FaithfulKey (text key : String) : Prop := (isName text ∧ text = key) ∨ unquote text = some key

instance (text key : String) : Decidable (FaithfulKey text key) :=
  inferInstanceAs (Decidable (_ ∨ _))

theorem faithfulKey_self_iff {key : String} : FaithfulKey key key ↔ isName key := by
  simp [FaithfulKey, unquote_ne_self]

theorem faithfulKey_quote_iff {key : String} :
    FaithfulKey (quote key) key ↔ '\r' ∉ key.toList := by
  have hname : isName (quote key) = false := by
    rw [isName, toList_quote]
    rfl
  simp [FaithfulKey, hname, unquote_quote]

/-- The two forms of a key in a source. -/
inductive KeyForm where
  | word
  | literal

/-- A word spells the key that it is, and a string the key that it stands for. -/
def Lexeme.SpellsKey (t : Lexeme) (key : String) : KeyForm → Prop
  | .word => t.kind = .ident ∧ t.text = key
  | .literal => t.kind = .string ∧ t.value = .text key

/-- Among the lexemes a key is spelled in one of the forms, with a colon behind. -/
def KeyIn (form : KeyForm) (ts : List Lexeme) (key : String) : Prop :=
  ∃ front t colon behind, ts = front ++ t :: colon :: behind ∧ t.SpellsKey key form ∧
    colon.kind = .symbol .colon

theorem KeyIn.of_suffix {form : KeyForm} {ts us : List Lexeme} {key : String}
    (h : KeyIn form ts key) (hs : ts <:+ us) : KeyIn form us key := by
  obtain ⟨front, t, colon, behind, rfl, ht, hcolon⟩ := h
  obtain ⟨before, rfl⟩ := hs
  exact ⟨before ++ front, t, colon, behind, (List.append_assoc _ _ _).symm, ht, hcolon⟩

theorem KeyIn.isName {ts : List Lexeme} {key : String} (h : KeyIn .word ts key)
    (hts : Lexeme.AllScanned ts) : isName key := by
  obtain ⟨front, t, colon, behind, rfl, ⟨hkind, rfl⟩, _⟩ := h
  exact (hts t (by simp)).name hkind

namespace Declaration

/-- The keyed entries that a declaration is written with. -/
def entries : Declaration → List KeyedEntry
  | .reducer r => r.actions
  | .handle x => x.methods
  | _ => []

/-- Every key of the declaration stands among the lexemes. -/
def KeysIn (ts : List Lexeme) (d : Declaration) : Prop :=
  ∀ e ∈ d.entries, ∃ form, KeyIn form ts e.key

theorem keysIn_of_no_entries {ts : List Lexeme} {d : Declaration} (h : d.entries = []) :
    d.KeysIn ts := by
  simp [KeysIn, h]

end Declaration

namespace Rule

open Sigil.Parser

section

variable {all : List Lexeme}

theorem key_eq_ok {ts rest : List Lexeme} {k : String} (hts : Lexeme.AllScanned ts)
    (h : key ts = .ok (k, rest)) : ∃ form t, ts = t :: rest ∧ t.SpellsKey k form := by
  unfold key at h
  rw [bind_of_ok (kind_apply ts)] at h
  cases ts with
  | nil => cases h
  | cons t us =>
    generalize hkind : kindAt 0 (t :: us) = k' at h
    change t.kind = k' at hkind
    split at h
    next =>
      rw [ident_cons hkind] at h
      cases h
      exact ⟨.word, t, rfl, hkind, rfl⟩
    next =>
      rw [bind_of_ok (take_cons_of_kind hkind)] at h
      cases h
      have hvalue := (hts t (by simp)).value
      rw [hkind] at hvalue
      refine ⟨.literal, t, rfl, hkind, ?_⟩
      rw [Lexeme.content, hvalue]
      rfl
    next => cases h

theorem yields_entryRound_keys (hall : Lexeme.AllScanned all) :
    Yields (· <:+ all) entryRound (Round.All fun e => ∃ form, KeyIn form all e.key) := by
  unfold entryRound
  refine yields_bind yields_skipNewlines fun _ _ => ?_
  refine yields_bind (yields_eat _) fun closed _ => ?_
  split
  · exact yields_pure trivial
  · intro ts r rest hts h
    -- The key and its colon are looked at together: the colon stands right behind.
    obtain ⟨k, mid, hkey, hmid⟩ := bind_eq_ok h
    obtain ⟨form, t, rfl, ht⟩ := key_eq_ok (fun u hu => hall u (hts.subset hu)) hkey
    obtain ⟨_, behind, hexpect, hrest⟩ := bind_eq_ok hmid
    obtain ⟨colon, rfl, hcolon⟩ := expect_eq_ok hexpect (by simp)
    have hin : KeyIn form all k := KeyIn.of_suffix ⟨[], t, colon, behind, rfl, ht, hcolon⟩ hts
    have hbehind : behind <:+ all :=
      ((List.suffix_cons colon behind).trans (List.suffix_cons t _)).trans hts
    refine yields_bind (I := (· <:+ all)) yields_skipNewlines (fun _ _ => ?_) hbehind hrest
    refine yields_bind (yields_of_uses follows_expression.usesOf) fun value _ => ?_
    refine yields_bind yields_skipNewlines fun _ _ => ?_
    exact yields_bind (yields_eat _) fun _ _ => yields_pure ⟨form, hin⟩

theorem yields_keyedBlock_keys (hall : Lexeme.AllScanned all) :
    Yields (· <:+ all) keyedBlock (fun es => ∀ e ∈ es, ∃ form, KeyIn form all e.key) := by
  unfold keyedBlock
  exact yields_bind (yields_expect _) fun _ _ => yields_many (yields_entryRound_keys hall)

theorem yields_annotation_within : Yields (· <:+ all) typeAnnotation (fun _ => True) :=
  yields_of_uses follows_typeAnnotation.usesOf

theorem yields_reducer_keys (hall : Lexeme.AllScanned all) (name : String) (line : Nat) :
    Yields (· <:+ all) (reducer name line) (fun r => Declaration.KeysIn all (.reducer r)) := by
  unfold reducer
  refine yields_bind yields_annotation_within fun type? _ => ?_
  refine yields_bind (yields_expect _) fun _ _ => ?_
  refine yields_bind (yields_expect _) fun _ _ => ?_
  refine yields_bind yields_skipNewlines fun _ _ => ?_
  refine yields_bind (yields_of_uses follows_expression.usesOf) fun initial _ => ?_
  refine yields_bind yields_skipNewlines fun _ _ => ?_
  refine yields_bind (yields_eat _) fun _ _ => ?_
  refine yields_bind yields_skipNewlines fun _ _ => ?_
  refine yields_bind yields_kind fun k _ => ?_
  refine yields_guard (yields_fail _) fun _ => ?_
  refine yields_bind (yields_keyedBlock_keys hall) fun actions hactions => ?_
  refine yields_bind yields_skipNewlines fun _ _ => ?_
  refine yields_bind (yields_eat _) fun _ _ => ?_
  refine yields_bind yields_skipNewlines fun _ _ => ?_
  exact yields_bind (yields_expect _) fun _ _ => yields_pure hactions

theorem yields_state_keys (hall : Lexeme.AllScanned all) (line : Nat) :
    Yields (· <:+ all) (state line) (Declaration.KeysIn all) := by
  have hident (expected : String) : Yields (· <:+ all) (ident expected) (fun _ => True) :=
    yields_of_uses (follows_ident expected).usesOf
  have hdefinition : Yields (· <:+ all) definition (fun _ => True) :=
    yields_of_uses follows_definition.usesOf
  unfold state
  refine yields_bind (hident _) fun name _ => ?_
  refine yields_bind (yields_eat _) fun modified _ => ?_
  split
  · refine yields_get fun here _ => ?_
    refine yields_bind (hident _) fun modifier _ => ?_
    split
    · exact yields_bind (yields_reducer_keys hall name line) fun r hr => yields_pure hr
    · exact yields_pure (Declaration.keysIn_of_no_entries rfl)
    · refine yields_bind yields_annotation_within fun type? _ => ?_
      exact yields_bind hdefinition fun e _ =>
        yields_pure (Declaration.keysIn_of_no_entries rfl)
    · have hoptimistic : Yields (· <:+ all) (optimistic name line) (fun _ => True) :=
        yields_of_uses (follows_optimistic name rfl).usesOf
      exact yields_bind hoptimistic fun o _ =>
        yields_pure (Declaration.keysIn_of_no_entries rfl)
    · exact yields_failAt _ _
  · refine yields_bind yields_annotation_within fun type? _ => ?_
    exact yields_bind hdefinition fun e _ =>
      yields_pure (Declaration.keysIn_of_no_entries rfl)

theorem yields_no_entries {α : Type} {rule : Rule α} {make : α → Declaration}
    (h : Uses Anything rule) (hmake : ∀ a, (make a).entries = []) :
    Yields (· <:+ all) (make <$> rule) (Declaration.KeysIn all) :=
  yields_map (yields_of_uses h) fun a _ => Declaration.keysIn_of_no_entries (hmake a)

theorem yields_declarationBody_keys (hall : Lexeme.AllScanned all) {line : Nat} {first : Lexeme}
    {body : Rule Declaration} (h : declarationBody? line first = some body) :
    Yields (· <:+ all) body (Declaration.KeysIn all) := by
  have hident (expected : String) : Yields (· <:+ all) (ident expected) (fun _ => True) :=
    yields_of_uses (follows_ident expected).usesOf
  have hfollows : Follows (.void id) Anywhere Anything (fun x => (Declaration.effect x).renumber id)
      (effect line) (effect line) := follows_effect fun _ _ => rfl
  have heffect : Uses Anything (effect line) := hfollows.usesOf
  unfold declarationBody? at h
  split at h
  · cases h; exact yields_no_entries (follows_prop rfl).usesOf fun _ => rfl
  · cases h; exact yields_state_keys hall line
  · cases h; exact yields_no_entries (follows_memo rfl).usesOf fun _ => rfl
  · cases h; exact yields_no_entries heffect fun _ => rfl
  · cases h; exact yields_no_entries heffect fun _ => rfl
  · cases h; exact yields_no_entries (follows_event rfl).usesOf fun _ => rfl
  · cases h; exact yields_no_entries (follows_callback rfl).usesOf fun _ => rfl
  · cases h
    refine yields_map ?_ fun _ => id
    unfold handle
    refine yields_bind (hident _) fun name _ => ?_
    refine yields_bind (yields_expect _) fun _ _ => ?_
    exact yields_bind (yields_keyedBlock_keys hall) fun methods hmethods => yields_pure hmethods
  · cases h; exact yields_no_entries (follows_ref rfl).usesOf fun _ => rfl
  · cases h; exact yields_no_entries (follows_context rfl).usesOf fun _ => rfl
  · cases h
    exact yields_bind (hident _) fun name _ => yields_pure (Declaration.keysIn_of_no_entries rfl)
  · split at h
    · cases h; exact yields_no_entries (follows_store rfl).usesOf fun _ => rfl
    · split at h
      · cases h; exact yields_no_entries (follows_action rfl).usesOf fun _ => rfl
      · cases h
  · cases h

theorem yields_declaration_keys (hall : Lexeme.AllScanned all) :
    Yields (· <:+ all) declaration (Declaration.KeysIn all) := by
  unfold declaration
  refine yields_get fun ts _ => ?_
  split
  next body hbody =>
    obtain ⟨first, _, hbody⟩ := Option.bind_eq_some_iff.mp hbody
    refine yields_bind yields_skip fun _ _ => ?_
    refine yields_bind (yields_declarationBody_keys hall hbody) fun d hd => ?_
    exact yields_bind yields_endStatement fun _ _ => yields_pure hd
  next => exact yields_fail _

/-- Every key of a component stands among the lexemes that it is read off. -/
theorem keysIn_of_unit {name : String} {rest : List Lexeme} {c : Component}
    (hall : Lexeme.AllScanned all) (h : unit name all = .ok (c, rest)) {d : Declaration}
    (hd : d ∈ c.declarations) : d.KeysIn all := by
  have hmarkup : Uses Anything markup := closes_markup.mono fun _ _ => trivial
  have hunit := yields_unit_of (yields_declaration_keys hall) (yields_of_uses hmarkup) name
  exact (hunit List.suffix_rfl h).2.2.1 d hd

end

end Rule

namespace Component

theorem methodLine_mem_outputLines (d : Dialect) {c : Component} {x : HandleDecl} {m : KeyedEntry}
    (hx : x ∈ c.handles) (hm : m ∈ x.methods) : c.methodLine m ∈ c.outputLines d := by
  have hlines : (Declaration.handle x).lines d c <:+: c.outputLines d :=
    lines_infix_outputLines d (by simp) hx
  have hmethod : c.methodLine m ∈ x.methods.map c.methodLine := List.mem_map_of_mem hm
  exact hlines.subset (List.mem_cons_of_mem _ (List.mem_append_left _ hmethod))

theorem actionLines_infix_outputLines (d : Dialect) {c : Component} {r : ReducerDecl}
    {a : KeyedEntry} (hr : r ∈ c.reducers) (ha : a ∈ r.actions) :
    actionLines a <:+: c.outputLines d := by
  have hreducer : actionLines a <:+: reducerLines d r :=
    (infix_flatMap_of_mem ha).trans ⟨_, _, rfl⟩
  have hall : reducerLines d r <:+: c.reducers.flatMap (reducerLines d) := infix_flatMap_of_mem hr
  refine (hreducer.trans hall).trans ?_
  simp only [outputLines, List.append_assoc]
  exact ⟨c.importLines, _, List.append_assoc _ _ _⟩

end Component

/-- How the keys of handles and reducers are written. A handle's key is written as it stands, which
is right only for a word; a reducer's key becomes a literal, which stands for it unless it has a
carriage return. Words in the source are always written faithfully. -/
theorem keys_faithful_iff (d : Dialect) {name source : String} {c : Component}
    (h : Component.ofSource name source = .ok c) :
    ∃ tokens, Token.tokenize source = .ok tokens ∧
      (∀ x ∈ c.handles, ∀ m ∈ x.methods,
        .unmapped ("    " ++ m.key ++ ": " ++ c.renderHandler [] m.value ++ ",") ∈
            c.outputLines d ∧
          ((KeyIn .word (Input.ofTokens tokens).lexemes m.key ∧ FaithfulKey m.key m.key) ∨
            KeyIn .literal (Input.ofTokens tokens).lexemes m.key ∧
              (FaithfulKey m.key m.key ↔ isName m.key))) ∧
      ∀ r ∈ c.reducers, ∀ a ∈ r.actions,
        [.unmapped ("    case " ++ quote a.key ++ ":"),
            .unmapped ("      return " ++ a.value.render [] ++ ";")] <:+: c.outputLines d ∧
          ((KeyIn .word (Input.ofTokens tokens).lexemes a.key ∧ FaithfulKey (quote a.key) a.key) ∨
            KeyIn .literal (Input.ofTokens tokens).lexemes a.key ∧
              (FaithfulKey (quote a.key) a.key ↔ '\r' ∉ a.key.toList)) := by
  obtain ⟨tokens, htokens, htree⟩ := Component.ofSource_eq_ok h
  obtain ⟨rest, hunit⟩ := Component.ofTokens_eq_ok htree
  have hscanned := lexemes_scanned htokens
  refine ⟨tokens, htokens, fun x hx m hm => ?_, fun r hr a ha => ?_⟩
  · refine ⟨Component.methodLine_mem_outputLines d hx hm, ?_⟩
    have hx : .handle x ∈ c.declarations := Component.mem_declarations.mpr hx
    have hkeys := Rule.keysIn_of_unit hscanned hunit hx
    obtain ⟨form, hkey⟩ := hkeys m hm
    cases form with
    | word => exact .inl ⟨hkey, faithfulKey_self_iff.mpr (hkey.isName hscanned)⟩
    | literal => exact .inr ⟨hkey, faithfulKey_self_iff⟩
  · refine ⟨Component.actionLines_infix_outputLines d hr ha, ?_⟩
    have hr : .reducer r ∈ c.declarations := Component.mem_declarations.mpr hr
    have hkeys := Rule.keysIn_of_unit hscanned hunit hr
    obtain ⟨form, hkey⟩ := hkeys a ha
    cases form with
    | word =>
      refine .inl ⟨hkey, faithfulKey_quote_iff.mpr ?_⟩
      exact Token.not_mem_of_isName (hkey.isName hscanned) rfl rfl
    | literal => exact .inr ⟨hkey, faithfulKey_quote_iff⟩

theorem keys_faithful_iff_quoted :
    ∃ c, Component.ofSource "C"
        "@n:reducer = \x7b0, \x7b\"it's\": n\x7d\x7d\n^api = \x7bgo: f\x7d\n<p></p>" = .ok c ∧
      .unmapped "    go: () => f," ∈ c.outputLines .plain ∧ FaithfulKey "go" "go" ∧
      [.unmapped "    case 'it\\'s':", .unmapped "      return n;"] <:+: c.outputLines .plain ∧
      FaithfulKey "'it\\'s'" "it's" := by
  have hread : ((Component.ofSource "C"
      "@n:reducer = \x7b0, \x7b\"it's\": n\x7d\x7d\n^api = \x7bgo: f\x7d\n<p></p>").toOption.bind
        fun c => c.handles[0]?.bind fun x => x.methods[0]?.bind fun m =>
          c.reducers[0]?.bind fun r => r.actions[0]?.map fun a =>
            (m.key, c.renderHandler [] m.value, a.key, a.value.render [])) =
      some ("go", "() => f", "it's", "n") := by decide +kernel
  obtain ⟨c, hc, hread⟩ := Option.bind_eq_some_iff.mp hread
  obtain ⟨x, hx, hread⟩ := Option.bind_eq_some_iff.mp hread
  obtain ⟨m, hm, hread⟩ := Option.bind_eq_some_iff.mp hread
  obtain ⟨r, hr, hread⟩ := Option.bind_eq_some_iff.mp hread
  obtain ⟨a, ha, hread⟩ := Option.map_eq_some_iff.mp hread
  simp only [Prod.mk.injEq] at hread
  obtain ⟨hmethod, hhandler, haction, hvalue⟩ := hread
  have hc := eq_ok_of_toOption hc
  obtain ⟨_, _, hhandles, hreducers⟩ := keys_faithful_iff .plain hc
  obtain ⟨hline, hword⟩ := hhandles x (List.mem_of_getElem? hx) m (List.mem_of_getElem? hm)
  obtain ⟨hlines, hliteral⟩ := hreducers r (List.mem_of_getElem? hr) a (List.mem_of_getElem? ha)
  rw [hmethod] at hline hword
  rw [hhandler] at hline
  rw [haction] at hlines hliteral
  rw [hvalue] at hlines
  refine ⟨c, hc, hline, ?_, hlines, ?_⟩
  · rcases hword with ⟨_, h⟩ | ⟨_, h⟩
    · exact h
    · exact h.mpr (by decide)
  · rcases hliteral with ⟨_, h⟩ | ⟨_, h⟩
    · exact h
    · exact h.mpr (by decide)

/-- A handle's key that is no word is written into the object as it stands. -/
theorem handle_key_not_faithful :
    ∃ c x m, Component.ofSource "Component" "^api = \x7b \"a-b\": go \x7d\n<p></p>" = .ok c ∧
      x ∈ c.handles ∧ m ∈ x.methods ∧ m.key = "a-b" ∧
      .unmapped "    a-b: () => go," ∈ c.outputLines .plain ∧ ¬ FaithfulKey "a-b" m.key := by
  have hread : ((Component.ofSource "Component"
      "^api = \x7b \"a-b\": go \x7d\n<p></p>").toOption.bind fun c =>
      c.handles[0]?.bind fun x => x.methods[0]?.map fun m =>
        (m.key, c.renderHandler [] m.value)) = some ("a-b", "() => go") := by decide +kernel
  obtain ⟨c, hc, hread⟩ := Option.bind_eq_some_iff.mp hread
  obtain ⟨x, hx, hread⟩ := Option.bind_eq_some_iff.mp hread
  obtain ⟨m, hm, hread⟩ := Option.map_eq_some_iff.mp hread
  simp only [Prod.mk.injEq] at hread
  obtain ⟨hkey, hvalue⟩ := hread
  have hx := List.mem_of_getElem? hx
  have hm := List.mem_of_getElem? hm
  have hline := Component.methodLine_mem_outputLines .plain hx hm
  rw [Component.methodLine, hkey, hvalue] at hline
  refine ⟨c, x, m, eq_ok_of_toOption hc, hx, hm, hkey, hline, ?_⟩
  rw [hkey, faithfulKey_self_iff]
  decide

end Sigil
