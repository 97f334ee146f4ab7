import Sigil.Proofs.Phrases
import Sigil.Proofs.Trees

namespace Sigil

/-- A type that is read off one line. -/
inductive TypeExpr.Spelled : TypeExpr → Prop where
  | simple {name : String} : OneLine name → Spelled (.simple name)
  | array {element : String} : OneLine element → Spelled (.array element)
  | union {members : List TypeExpr} : (∀ t ∈ members, Spelled t) → Spelled (.union members)
  | generic {name : String} {params : List TypeExpr} :
      OneLine name → (∀ t ∈ params, Spelled t) → Spelled (.generic name params)

/-- A key that is read off one line, with a value that is a phrase. -/
def KeyedEntry.Spelled (k : KeyedEntry) : Prop := OneLine k.key ∧ Phrase .whole k.value

namespace Declaration

/-- The line that a declaration starts on. -/
def line : Declaration → Nat
  | prop d => d.line
  | state d => d.line
  | reducer d => d.line
  | transition d => d.line
  | deferred d => d.line
  | optimistic d => d.line
  | memo d => d.line
  | effect d => d.line
  | layoutEffect d => d.line
  | event d => d.line
  | callback d => d.line
  | handle d => d.line
  | ref d => d.line
  | context d => d.line
  | id d => d.line
  | store d => d.line
  | action d => d.line

/-- The name, the type and the expressions of a declaration are spelled as they are read. -/
def Spelled : Declaration → Prop
  | prop d => isName d.name ∧ (∀ t ∈ d.type?, t.Spelled) ∧ ∀ e ∈ d.default?, Phrase .whole e
  | state d => isName d.name ∧ (∀ t ∈ d.type?, t.Spelled) ∧ Phrase .whole d.initial
  | reducer d =>
    isName d.name ∧ (∀ t ∈ d.type?, t.Spelled) ∧ Phrase .whole d.initial ∧
      ∀ a ∈ d.actions, a.Spelled
  | transition d => isName d.name
  | deferred d => isName d.name ∧ (∀ t ∈ d.type?, t.Spelled) ∧ Phrase .whole d.source
  | optimistic d =>
    isName d.name ∧ (∀ t ∈ d.type?, t.Spelled) ∧ Phrase .entry d.state ∧ Phrase .entry d.update
  | memo d => isName d.name ∧ (∀ t ∈ d.type?, t.Spelled) ∧ Phrase .whole d.value
  | effect d | layoutEffect d =>
    (∀ es ∈ d.deps?, ∀ e ∈ es, Phrase .entry e) ∧ Phrase .whole d.body
  | event d => isName d.name ∧ Phrase .whole d.handler
  | callback d => isName d.name ∧ Phrase .whole d.value
  | handle d => isName d.name ∧ ∀ m ∈ d.methods, m.Spelled
  | ref d => isName d.name ∧ (∀ t ∈ d.type?, t.Spelled) ∧ ∀ e ∈ d.initial?, Phrase .whole e
  | context d => isName d.name ∧ (∀ t ∈ d.type?, t.Spelled) ∧ isName d.source
  | id d => isName d.name
  | store d =>
    isName d.name ∧ (∀ t ∈ d.type?, t.Spelled) ∧ Phrase .entry d.subscribe ∧
      Phrase .entry d.snapshot ∧ ∀ e ∈ d.serverSnapshot?, Phrase .entry e
  | action d =>
    isName d.name ∧ (∀ t ∈ d.type?, t.Spelled) ∧ Phrase .entry d.action ∧ Phrase .entry d.initial

end Declaration

def AttributeValue.Spelled : AttributeValue → Prop
  | expr e => Phrase .whole e
  | text s => OneLine s
  | present => True
  | handler name => isName name
  | inlineHandler e => Phrase .whole e

def Attribute.Spelled (a : Attribute) : Prop := OneLine a.name ∧ a.value.Spelled

/-- A tree all of whose parts are spelled as they are read. -/
inductive Markup.Spelled : Markup → Prop where
  | element {e : Element Markup} :
      OneLine e.tag → (∀ a ∈ e.attributes, a.Spelled) → (∀ m ∈ e.children, Spelled m) →
      Spelled (.element e)
  | fragment {children : List Markup} {line : Nat} :
      (∀ m ∈ children, Spelled m) → Spelled (.fragment children line)
  | interpolation {e : Expr} : Phrase .whole e → Spelled (.interpolation e)
  | text {s : String} : OneLine s → Spelled (.text s)
  | each {binding : String} {itemType : Option TypeExpr} {source : Expr}
      {template : Element Markup} :
      isName binding → (∀ t ∈ itemType, t.Spelled) → Phrase .source source →
      Spelled (.element template) → Spelled (.each binding itemType source template)

theorem oneLine_intercalate {separator : String} (hs : OneLine separator) {parts : List String}
    (hparts : ∀ p ∈ parts, OneLine p) : OneLine (separator.intercalate parts) := by
  induction parts with
  | nil => simp [OneLine]
  | cons first others ih =>
    obtain ⟨hfirst, hothers⟩ := List.forall_mem_cons.mp hparts
    cases others with
    | nil => simpa using hfirst
    | cons second others =>
      rw [String.intercalate_cons_cons]
      exact oneLine_between hfirst hs (ih hothers)

namespace Rule

open Sigil.Parser

variable {type : Rule TypeExpr}

theorem yields_content (expected : String) :
    Yields Lexeme.AllScanned (take .string expected) (fun t => OneLine t.content) :=
  (yields_scanned .string expected).mono fun _ h => h.1.oneLine_content h.2

theorem yields_typeName : Yields Lexeme.AllScanned typeName OneLine := by
  unfold typeName
  refine yields_bind yields_kind fun k _ => ?_
  split
  · exact (yields_ident _).mono fun _ h => Token.oneLine_of_isName h
  · refine yields_bind (yields_content _) fun t ht => yields_pure ?_
    exact oneLine_between (by decide) ht (by decide)
  · exact yields_unexpected _

theorem yields_further {α : Type} {P : α → Prop} {item : Rule α} (separator : Symbol)
    (h : Yields Lexeme.AllScanned item P) :
    Yields Lexeme.AllScanned (further separator item) (Round.All P) := by
  unfold further
  refine yields_bind (yields_eat _) fun more _ => ?_
  split
  · exact yields_bind h fun a ha => yields_pure ha
  · exact yields_pure trivial

section

variable {Name : String → Prop} {Whole Member : TypeExpr → Prop}

theorem yields_typeParams (h : Yields Lexeme.AllScanned type Whole) :
    Yields Lexeme.AllScanned (typeParams type) (fun ts => ∀ t ∈ ts, Whole t) := by
  unfold typeParams
  refine yields_bind (yields_eat _) fun angle _ => ?_
  split
  · refine yields_bind h fun first hfirst => ?_
    refine yields_bind (yields_many (yields_further _ h)) fun others hothers => ?_
    refine yields_bind (yields_expect _) fun _ _ => yields_pure ?_
    exact List.forall_mem_cons.mpr ⟨hfirst, hothers⟩
  · exact yields_pure (by simp)

/-- What holds of names, of names with parameters and of arrays holds of the members of unions. -/
theorem yields_primaryType (hname : Yields Lexeme.AllScanned typeName Name)
    (h : Yields Lexeme.AllScanned type Whole) (hsimple : ∀ name, Name name → Member (.simple name))
    (hgeneric : ∀ name first others, Name name → (∀ t ∈ first :: others, Whole t) →
      Member (.generic name (first :: others)))
    (harray : ∀ t, Member t → Member (arrayOf t)) :
    Yields Lexeme.AllScanned (primaryType type) Member := by
  unfold primaryType
  refine yields_bind hname fun name hname => ?_
  refine yields_bind (yields_typeParams h) fun params hparams => ?_
  have hbase : Member (if params.isEmpty then .simple name else .generic name params) := by
    cases params with
    | nil => exact hsimple name hname
    | cons first others => exact hgeneric name first others hname hparams
  refine yields_get fun ts _ => ?_
  split
  · refine yields_bind yields_skip fun _ _ => ?_
    exact yields_bind yields_skip fun _ _ => yields_pure (harray _ hbase)
  · exact yields_pure hbase

theorem yields_unionType (h : Yields Lexeme.AllScanned (primaryType type) Member)
    (hwhole : ∀ t, Member t → Whole t)
    (hunion : ∀ first second others, (∀ t ∈ first :: second :: others, Member t) →
      Whole (.union (first :: second :: others))) :
    Yields Lexeme.AllScanned (unionType type) Whole := by
  unfold unionType
  refine yields_bind h fun first hfirst => ?_
  refine yields_bind (yields_many (yields_further _ h)) fun others hothers => ?_
  refine yields_pure ?_
  cases others with
  | nil => exact hwhole first hfirst
  | cons second others =>
    exact hunion first second others (List.forall_mem_cons.mpr ⟨hfirst, hothers⟩)

end

theorem spelled_arrayOf {t : TypeExpr} (h : t.Spelled) : (arrayOf t).Spelled := by
  have hgeneric : (TypeExpr.generic "Array" [t]).Spelled :=
    .generic (by decide) (List.forall_mem_singleton.mpr h)
  cases h with
  | simple hname => exact .array hname
  | array _ => exact hgeneric
  | union _ => exact hgeneric
  | generic _ _ => exact hgeneric

theorem yields_type : Yields Lexeme.AllScanned Rule.type TypeExpr.Spelled := by
  refine yields_nest (yields_unexpected _) fun part h => ?_
  have hmember : Yields Lexeme.AllScanned (primaryType part) TypeExpr.Spelled :=
    yields_primaryType yields_typeName h (fun _ => .simple) (fun _ _ _ => .generic)
      fun _ => spelled_arrayOf
  exact yields_unionType hmember (fun _ ht => ht) fun _ _ _ => .union

theorem yields_typeAnnotation :
    Yields Lexeme.AllScanned typeAnnotation (fun t? => ∀ t ∈ t?, t.Spelled) := by
  unfold typeAnnotation
  refine yields_bind (yields_eat _) fun annotated _ => ?_
  split
  · exact yields_bind yields_type fun t ht => yields_pure (by simpa using ht)
  · exact yields_pure (by simp)

theorem yields_defaultValue :
    Yields Lexeme.AllScanned defaultValue (fun e? => ∀ e ∈ e?, Phrase .whole e) := by
  unfold defaultValue
  refine yields_bind (yields_eat _) fun given _ => ?_
  split
  · exact yields_bind yields_expression fun e he => yields_pure (by simpa using he)
  · exact yields_pure (by simp)

theorem yields_definition : Yields Lexeme.AllScanned definition (Phrase .whole) := by
  unfold definition
  exact yields_bind (yields_expect _) fun _ _ => yields_expression

theorem yields_bracedPair :
    Yields Lexeme.AllScanned bracedPair (fun p => Phrase .entry p.1 ∧ Phrase .entry p.2) := by
  unfold bracedPair
  refine yields_get fun here _ => ?_
  refine yields_bind (yields_list yields_expression _ _) fun entries hentries => ?_
  split
  · exact yields_pure ⟨hentries _ (by simp), hentries _ (by simp)⟩
  · exact yields_failAt _ _

theorem yields_entryRound :
    Yields Lexeme.AllScanned entryRound (Round.All KeyedEntry.Spelled) := by
  have hkey : Yields Lexeme.AllScanned key OneLine := by
    unfold key
    refine yields_bind yields_kind fun k _ => ?_
    split
    · exact (yields_ident _).mono fun _ h => Token.oneLine_of_isName h
    · exact yields_bind (yields_content _) fun t ht => yields_pure ht
    · exact yields_unexpected _
  unfold entryRound
  refine yields_bind yields_skipNewlines fun _ _ => ?_
  refine yields_bind (yields_eat _) fun closed _ => ?_
  split
  · exact yields_pure trivial
  · refine yields_bind hkey fun key hkey => ?_
    refine yields_bind (yields_expect _) fun _ _ => ?_
    refine yields_bind yields_skipNewlines fun _ _ => ?_
    refine yields_bind yields_expression fun value hvalue => ?_
    refine yields_bind yields_skipNewlines fun _ _ => ?_
    exact yields_bind (yields_eat _) fun _ _ => yields_pure ⟨hkey, hvalue⟩

theorem yields_keyedBlock :
    Yields Lexeme.AllScanned keyedBlock (fun ks => ∀ k ∈ ks, k.Spelled) := by
  unfold keyedBlock
  exact yields_bind (yields_expect _) fun _ _ => yields_many yields_entryRound

/-- A rule for the declarations on a line reads what is spelled and starts there. -/
def YieldsDeclaration (line : Nat) (rule : Rule Declaration) : Prop :=
  Yields Lexeme.AllScanned rule (fun d => d.Spelled ∧ d.line = line)

theorem yieldsDeclaration_map {α : Type} {line : Nat} {rule : Rule α} {make : α → Declaration}
    (h : Yields Lexeme.AllScanned rule (fun a => (make a).Spelled ∧ (make a).line = line)) :
    YieldsDeclaration line (make <$> rule) :=
  yields_map h fun _ => id

theorem yields_prop (line : Nat) : YieldsDeclaration line (.prop <$> prop line) := by
  refine yieldsDeclaration_map ?_
  unfold prop
  refine yields_bind (yields_ident _) fun name hname => ?_
  refine yields_bind yields_typeAnnotation fun type? htype => ?_
  exact yields_bind yields_defaultValue fun e? he => yields_pure ⟨⟨hname, htype, he⟩, rfl⟩

theorem yields_reducer {name : String} (hname : isName name) (line : Nat) :
    Yields Lexeme.AllScanned (reducer name line)
      (fun d => Declaration.Spelled (.reducer d) ∧ d.line = line) := by
  unfold reducer
  refine yields_bind yields_typeAnnotation fun type? htype => ?_
  refine yields_bind (yields_expect _) fun _ _ => ?_
  refine yields_bind (yields_expect _) fun _ _ => ?_
  refine yields_bind yields_skipNewlines fun _ _ => ?_
  refine yields_bind yields_expression fun initial hinitial => ?_
  refine yields_bind yields_skipNewlines fun _ _ => ?_
  refine yields_bind (yields_eat _) fun _ _ => ?_
  refine yields_bind yields_skipNewlines fun _ _ => ?_
  refine yields_bind yields_kind fun k _ => ?_
  refine yields_guard (yields_fail _) fun _ => ?_
  refine yields_bind yields_keyedBlock fun actions hactions => ?_
  refine yields_bind yields_skipNewlines fun _ _ => ?_
  refine yields_bind (yields_eat _) fun _ _ => ?_
  refine yields_bind yields_skipNewlines fun _ _ => ?_
  refine yields_bind (yields_expect _) fun _ _ => ?_
  exact yields_pure ⟨⟨hname, htype, hinitial, hactions⟩, rfl⟩

theorem yields_optimistic {name : String} (hname : isName name) (line : Nat) :
    Yields Lexeme.AllScanned (optimistic name line)
      (fun d => Declaration.Spelled (.optimistic d) ∧ d.line = line) := by
  unfold optimistic
  refine yields_bind yields_typeAnnotation fun type? htype => ?_
  refine yields_bind (yields_expect _) fun _ _ => ?_
  refine yields_bind yields_bracedPair fun pair hpair => ?_
  exact yields_pure ⟨⟨hname, htype, hpair.1, hpair.2⟩, rfl⟩

theorem yields_state (line : Nat) : YieldsDeclaration line (state line) := by
  unfold state
  refine yields_bind (yields_ident _) fun name hname => ?_
  refine yields_bind (yields_eat _) fun modified _ => ?_
  split
  · refine yields_get fun here _ => ?_
    refine yields_bind (yields_ident _) fun modifier _ => ?_
    split
    · exact yields_bind (yields_reducer hname line) fun d hd => yields_pure hd
    · exact yields_pure ⟨hname, rfl⟩
    · refine yields_bind yields_typeAnnotation fun type? htype => ?_
      exact yields_bind yields_definition fun e he => yields_pure ⟨⟨hname, htype, he⟩, rfl⟩
    · exact yields_bind (yields_optimistic hname line) fun d hd => yields_pure hd
    · exact yields_failAt _ _
  · refine yields_bind yields_typeAnnotation fun type? htype => ?_
    exact yields_bind yields_definition fun e he => yields_pure ⟨⟨hname, htype, he⟩, rfl⟩

theorem yields_memo (line : Nat) : YieldsDeclaration line (.memo <$> memo line) := by
  refine yieldsDeclaration_map ?_
  unfold memo
  refine yields_bind (yields_ident _) fun name hname => ?_
  refine yields_bind yields_typeAnnotation fun type? htype => ?_
  exact yields_bind yields_definition fun e he => yields_pure ⟨⟨hname, htype, he⟩, rfl⟩

theorem yields_effect (line : Nat) :
    Yields Lexeme.AllScanned (effect line)
      (fun d => Declaration.Spelled (.effect d) ∧ d.line = line) := by
  have hdeps : Yields Lexeme.AllScanned explicitDeps
      (fun es? => ∀ es ∈ es?, ∀ e ∈ es, Phrase .entry e) := by
    unfold explicitDeps
    refine yields_bind yields_kind fun k _ => ?_
    split
    · exact yields_bind (yields_list yields_expression _ _) fun es hes =>
        yields_pure (by simpa using hes)
    · exact yields_pure (by simp)
  unfold effect
  refine yields_bind hdeps fun deps? hdeps => ?_
  exact yields_bind yields_expression fun e he => yields_pure ⟨⟨hdeps, he⟩, rfl⟩

theorem yields_event (line : Nat) : YieldsDeclaration line (.event <$> event line) := by
  refine yieldsDeclaration_map ?_
  unfold event
  refine yields_bind (yields_ident _) fun name hname => ?_
  exact yields_bind yields_definition fun e he => yields_pure ⟨⟨hname, he⟩, rfl⟩

theorem yields_callback (line : Nat) : YieldsDeclaration line (.callback <$> callback line) := by
  refine yieldsDeclaration_map ?_
  unfold callback
  refine yields_bind (yields_ident _) fun name hname => ?_
  exact yields_bind yields_definition fun e he => yields_pure ⟨⟨hname, he⟩, rfl⟩

theorem yields_handle (line : Nat) : YieldsDeclaration line (.handle <$> handle line) := by
  refine yieldsDeclaration_map ?_
  unfold handle
  refine yields_bind (yields_ident _) fun name hname => ?_
  refine yields_bind (yields_expect _) fun _ _ => ?_
  exact yields_bind yields_keyedBlock fun ms hms => yields_pure ⟨⟨hname, hms⟩, rfl⟩

theorem yields_ref (line : Nat) : YieldsDeclaration line (.ref <$> ref line) := by
  refine yieldsDeclaration_map ?_
  unfold ref
  refine yields_bind (yields_ident _) fun name hname => ?_
  refine yields_bind yields_typeAnnotation fun type? htype => ?_
  exact yields_bind yields_defaultValue fun e? he => yields_pure ⟨⟨hname, htype, he⟩, rfl⟩

theorem yields_context (line : Nat) : YieldsDeclaration line (.context <$> context line) := by
  refine yieldsDeclaration_map ?_
  unfold context
  refine yields_bind (yields_ident _) fun name hname => ?_
  refine yields_bind yields_typeAnnotation fun type? htype => ?_
  refine yields_bind (yields_expect _) fun _ _ => ?_
  exact yields_bind (yields_ident _) fun s hs => yields_pure ⟨⟨hname, htype, hs⟩, rfl⟩

theorem yields_store (line : Nat) : YieldsDeclaration line (.store <$> store line) := by
  refine yieldsDeclaration_map ?_
  unfold store
  refine yields_bind (yields_ident _) fun name hname => ?_
  refine yields_bind yields_typeAnnotation fun type? htype => ?_
  refine yields_bind (yields_expect _) fun _ _ => ?_
  refine yields_get fun here _ => ?_
  refine yields_bind (yields_list yields_expression _ _) fun entries hentries => ?_
  split
  · exact yields_pure ⟨⟨hname, htype, hentries _ (by simp), hentries _ (by simp), by simp⟩, rfl⟩
  · refine yields_pure ⟨⟨hname, htype, hentries _ (by simp), hentries _ (by simp), ?_⟩, rfl⟩
    simpa using hentries _ (by simp)
  · exact yields_failAt _ _

theorem yields_action (line : Nat) : YieldsDeclaration line (.action <$> action line) := by
  refine yieldsDeclaration_map ?_
  unfold action
  refine yields_bind (yields_ident _) fun name hname => ?_
  refine yields_bind yields_typeAnnotation fun type? htype => ?_
  refine yields_bind (yields_expect _) fun _ _ => ?_
  refine yields_bind yields_bracedPair fun pair hpair => ?_
  exact yields_pure ⟨⟨hname, htype, hpair.1, hpair.2⟩, rfl⟩

theorem yields_declarationBody {line : Nat} {first : Lexeme} {body : Rule Declaration}
    (h : declarationBody? line first = some body) : YieldsDeclaration line body := by
  unfold declarationBody? at h
  split at h
  · cases h; exact yields_prop line
  · cases h; exact yields_state line
  · cases h; exact yields_memo line
  · cases h; exact yieldsDeclaration_map (yields_effect line)
  · cases h; exact yieldsDeclaration_map (yields_effect line)
  · cases h; exact yields_event line
  · cases h; exact yields_callback line
  · cases h; exact yields_handle line
  · cases h; exact yields_ref line
  · cases h; exact yields_context line
  · cases h; exact yields_bind (yields_ident _) fun name hname => yields_pure ⟨hname, rfl⟩
  · split at h
    · cases h; exact yields_store line
    · split at h
      · cases h; exact yields_action line
      · cases h
  · cases h

/-- A declaration is spelled as it is read, and starts on a line of the source. -/
theorem yields_declaration :
    Yields Lexeme.AllScanned declaration (fun d => d.Spelled ∧ 0 < d.line) := by
  unfold declaration
  refine yields_get fun ts hts => ?_
  split
  next body hbody =>
    obtain ⟨first, hfirst, hbody⟩ := Option.bind_eq_some_iff.mp hbody
    have hline := (hts first (List.mem_of_mem_head? hfirst)).line
    refine yields_bind yields_skip fun _ _ => ?_
    refine yields_bind (yields_declarationBody hbody) fun d hd => ?_
    exact yields_bind yields_endStatement fun _ _ => yields_pure ⟨hd.1, hd.2 ▸ hline⟩
  next => exact yields_fail _

theorem yields_namePartRound : Yields Lexeme.AllScanned namePartRound (Round.All OneLine) := by
  unfold namePartRound
  refine yields_get fun ts hts => ?_
  split
  next hyphen part rest =>
    have hrest : Lexeme.AllScanned rest := fun t ht => hts t (by simp [ht])
    split
    next hjoined =>
      have hpart := (hts part (by simp)).oneLine (by simp [hjoined.2.2.1])
      exact yields_bind (yields_set hrest) fun _ _ => yields_pure hpart
    next => exact yields_pure trivial
  next => exact yields_pure trivial

theorem yields_hyphenated (expected : String) :
    Yields Lexeme.AllScanned (hyphenated expected) OneLine := by
  unfold hyphenated
  refine yields_bind (yields_ident _) fun first hfirst => ?_
  refine yields_bind (yields_many yields_namePartRound) fun parts hparts => yields_pure ?_
  exact oneLine_intercalate (by decide)
    (List.forall_mem_cons.mpr ⟨Token.oneLine_of_isName hfirst, hparts⟩)

theorem yields_eventAttribute :
    Yields Lexeme.AllScanned eventAttribute Attribute.Spelled := by
  unfold eventAttribute
  refine yields_bind yields_skip fun _ _ => ?_
  refine yields_bind (yields_hyphenated _) fun name hname => ?_
  refine yields_bind (yields_expect _) fun _ _ => ?_
  refine yields_bind yields_kind fun k _ => ?_
  split
  · exact yields_bind yields_braced fun e he => yields_pure ⟨hname, he⟩
  · exact yields_bind (yields_ident _) fun handler hhandler => yields_pure ⟨hname, hhandler⟩

theorem yields_plainAttribute :
    Yields Lexeme.AllScanned plainAttribute Attribute.Spelled := by
  unfold plainAttribute
  refine yields_bind (yields_hyphenated _) fun name hname => ?_
  refine yields_bind (yields_eat _) fun given _ => ?_
  split
  · refine yields_bind yields_kind fun k _ => ?_
    split
    · exact yields_bind yields_braced fun e he => yields_pure ⟨hname, he⟩
    · exact yields_bind (yields_content _) fun t ht => yields_pure ⟨hname, ht⟩
    · exact yields_unexpected _
  · exact yields_pure ⟨hname, trivial⟩

theorem yields_attributeRound :
    Yields Lexeme.AllScanned attributeRound (Round.All Attribute.Spelled) := by
  unfold attributeRound
  refine yields_bind yields_skipNewlines fun _ _ => ?_
  refine yields_bind yields_kind fun k _ => ?_
  split
  · exact yields_pure trivial
  · exact yields_pure trivial
  · exact yields_bind yields_eventAttribute fun a ha => yields_pure ha
  · exact yields_bind yields_plainAttribute fun a ha => yields_pure ha
  · exact yields_unexpected _

theorem yields_textRound :
    Yields Lexeme.AllScanned textRound (Round.All fun t => OneLine t.text) := by
  unfold textRound
  refine yields_get fun ts hts => ?_
  have hdropped : Lexeme.AllScanned (ts.dropWhile (·.kind = .newline)) :=
    SuffixClosed.of_suffix (List.dropWhile_suffix _) hts
  split
  next t rest heq =>
    rw [heq] at hdropped
    obtain ⟨ht, hrest⟩ := List.forall_mem_cons.mp hdropped
    split
    next htext =>
      have hkind : t.kind ≠ .newline := by
        intro hk
        simp [hk, isText] at htext
      exact yields_bind (yields_set hrest) fun _ _ => yields_pure (ht.oneLine hkind)
    next => exact yields_pure trivial
  next => exact yields_pure trivial

theorem oneLine_blankBefore (t : Lexeme) : OneLine (blankBefore t) := by
  unfold blankBefore
  split <;> decide

theorem oneLine_blankAtFront (ts : List Lexeme) : OneLine (blankAtFront ts) := by
  unfold blankAtFront
  split
  next => decide
  next t _ =>
    split
    · decide
    · exact oneLine_blankBefore t

theorem oneLine_joinText {ts : List Lexeme} (h : ∀ t ∈ ts, OneLine t.text) :
    OneLine (joinText ts) := by
  cases ts with
  | nil => decide
  | cons t ts =>
    obtain ⟨ht, hts⟩ := List.forall_mem_cons.mp h
    change OneLine (ts.foldl (fun s t => s ++ blankBefore t ++ t.text) t.text)
    refine List.foldlRecOn ts _ ht fun s hs t ht => ?_
    exact oneLine_between hs (oneLine_blankBefore t) (hts t ht)

theorem yields_textRun (startsLine : Bool) :
    Yields Lexeme.AllScanned (textRun startsLine) Markup.Spelled := by
  unfold textRun
  refine yields_get fun before _ => ?_
  refine yields_bind (yields_many yields_textRound) fun run hrun => ?_
  refine yields_get fun behind _ => yields_pure (.text ?_)
  have hleading : OneLine (if startsLine then "" else blankAtFront before) := by
    split
    · decide
    · exact oneLine_blankAtFront before
  exact oneLine_between hleading (oneLine_joinText hrun) (oneLine_blankAtFront behind)

theorem spelled_inherited :
    Inherited Lexeme.AllScanned OneLine Attribute.Spelled (fun s => isName s)
      (fun t? => ∀ t ∈ t?, t.Spelled) (Phrase .source) (fun _ => Markup.Spelled)
      (fun _ ms => ∀ m ∈ ms, m.Spelled) where
  name := yields_hyphenated
  attr := yields_attributeRound
  siblings parent hnode := yields_many (yields_childRound hnode yields_textRun
    (yields_braced.mono fun _ => .interpolation) parent)
  ident := yields_ident
  type? := yields_typeAnnotation
  source h := yields_memberChain yields_expression rfl (.source h)
  childless htag hattributes := .element htag hattributes (by simp)
  element htag hattributes hchildren := .element htag hattributes hchildren
  fragment := .fragment
  each hbinding htype hsource htemplate _ := .each hbinding htype hsource htemplate

theorem yields_markup :
    Yields Lexeme.AllScanned markup
      (fun m => m.Spelled ∧ ∃ line, m.line? = some line ∧ 0 < line) := by
  intro ts m rest hts hr
  obtain ⟨hrest, hm⟩ := spelled_inherited.yields_markup hts hr
  obtain ⟨t, ht, hline⟩ := markup_line hr
  exact ⟨hrest, hm, t.line, hline, (hts t (List.mem_of_mem_head? ht)).line⟩

end Rule

namespace Component

/-- All declarations of a component, kind by kind. -/
def declarations (c : Component) : List Declaration :=
  c.props.map .prop ++ c.states.map .state ++ c.reducers.map .reducer ++
    c.transitions.map .transition ++ c.deferreds.map .deferred ++ c.optimistics.map .optimistic ++
    c.memos.map .memo ++ c.effects.map .effect ++ c.layoutEffects.map .layoutEffect ++
    c.events.map .event ++ c.callbacks.map .callback ++ c.handles.map .handle ++ c.refs.map .ref ++
    c.contexts.map .context ++ c.ids.map .id ++ c.stores.map .store ++ c.actions.map .action

/-- Whether a declaration is among those of its kind. -/
def Declares (c : Component) : Declaration → Prop
  | .prop d => d ∈ c.props
  | .state d => d ∈ c.states
  | .reducer d => d ∈ c.reducers
  | .transition d => d ∈ c.transitions
  | .deferred d => d ∈ c.deferreds
  | .optimistic d => d ∈ c.optimistics
  | .memo d => d ∈ c.memos
  | .effect d => d ∈ c.effects
  | .layoutEffect d => d ∈ c.layoutEffects
  | .event d => d ∈ c.events
  | .callback d => d ∈ c.callbacks
  | .handle d => d ∈ c.handles
  | .ref d => d ∈ c.refs
  | .context d => d ∈ c.contexts
  | .id d => d ∈ c.ids
  | .store d => d ∈ c.stores
  | .action d => d ∈ c.actions

theorem mem_declarations {c : Component} {x : Declaration} :
    x ∈ c.declarations ↔ c.Declares x := by
  -- The equation of so long a list is costly to generate, so it is not used.
  delta declarations
  cases x
  all_goals
    simp only [List.mem_append, List.mem_map, reduceCtorEq, and_false, exists_false, false_or,
      or_false, exists_eq_right, Declaration.prop.injEq, Declaration.state.injEq,
      Declaration.reducer.injEq, Declaration.transition.injEq, Declaration.deferred.injEq,
      Declaration.optimistic.injEq, Declaration.memo.injEq, Declaration.effect.injEq,
      Declaration.layoutEffect.injEq, Declaration.event.injEq, Declaration.callback.injEq,
      Declaration.handle.injEq, Declaration.ref.injEq, Declaration.context.injEq,
      Declaration.id.injEq, Declaration.store.injEq, Declaration.action.injEq]
    exact Iff.rfl

theorem mem_filterMap_of_partial_inverse {α : Type} {f : Declaration → Option α}
    {g : α → Declaration} (h : ∀ d a, f d = some a ↔ d = g a) {ds : List Declaration} {a : α} :
    a ∈ ds.filterMap f ↔ g a ∈ ds := by
  simp [List.mem_filterMap, h]

/-- A component has the declarations that it is made from, and no others. -/
theorem mem_declarations_ofDeclarations {name : String} {ds : List Declaration} {m : Markup}
    {d : Declaration} : d ∈ (ofDeclarations name ds m).declarations ↔ d ∈ ds := by
  rw [mem_declarations]
  cases d
  all_goals
    refine mem_filterMap_of_partial_inverse fun d a => ?_
    split
    next => simp
    next hother => exact ⟨nofun, fun h => (hother a h).elim⟩

/-- A component whose parts are spelled as they are read, each from a line of the source. -/
structure Spelled (c : Component) : Prop where
  declaration {d : Declaration} : d ∈ c.declarations → d.Spelled
  line_pos {d : Declaration} : d ∈ c.declarations → 0 < d.line
  markup : c.markup.Spelled
  root : ∃ line, c.markup.line? = some line ∧ 0 < line

end Component

namespace Rule

open Sigil.Parser

section

variable {I : List Lexeme → Prop} [SuffixClosed I] {P : Declaration → Prop}

theorem yields_leadingRound (h : Yields I declaration P) :
    Yields I leadingRound (Round.All P) := by
  unfold leadingRound
  refine yields_bind yields_skipNewlines fun _ _ => ?_
  refine yields_bind yields_kind fun k _ => ?_
  split
  · exact yields_pure trivial
  · exact yields_pure trivial
  · exact yields_bind h fun d hd => yields_pure hd

theorem yields_trailingRound (h : Yields I declaration P) :
    Yields I trailingRound (Round.All P) := by
  unfold trailingRound
  refine yields_bind yields_skipNewlines fun _ _ => ?_
  refine yields_bind yields_kind fun k _ => ?_
  split
  · exact yields_pure trivial
  · exact yields_fail _
  · exact yields_bind h fun d hd => yields_pure hd

/-- What holds of every declaration and of the markup that can be read holds of those of a unit. -/
theorem yields_unit_of {Q : Markup → Prop} (hdeclaration : Yields I declaration P)
    (hmarkup : Yields I markup Q) (name : String) :
    Yields I (unit name) (fun c => c.name = name ∧ (∀ d ∈ c.declarations, P d) ∧ Q c.markup) := by
  unfold unit
  refine yields_bind (yields_many (yields_leadingRound hdeclaration)) fun leading hleading => ?_
  refine yields_bind yields_kind fun k _ => ?_
  refine yields_guard (yields_fail _) fun _ => ?_
  refine yields_bind hmarkup fun m hm => ?_
  refine yields_bind yields_endStatement fun _ _ => ?_
  refine yields_bind (yields_many (yields_trailingRound hdeclaration)) fun trailing htrailing => ?_
  refine yields_pure ⟨rfl, fun d hd => ?_, hm⟩
  rcases List.mem_append.mp (Component.mem_declarations_ofDeclarations.mp hd) with hd | hd
  · exact hleading d hd
  · exact htrailing d hd

end

theorem yields_unit (name : String) :
    Yields Lexeme.AllScanned (unit name) (fun c => c.name = name ∧ c.Spelled) := by
  refine (yields_unit_of yields_declaration yields_markup name).mono ?_
  rintro c ⟨hname, hdeclarations, hmarkup, hroot⟩
  exact ⟨hname, fun hd => (hdeclarations _ hd).1, fun hd => (hdeclarations _ hd).2, hmarkup, hroot⟩

end Rule

/-- A component that is read off a source has the name it is given and is spelled as it is read. -/
theorem Component.spelled_of_ofSource {name source : String} {c : Component}
    (h : ofSource name source = .ok c) : c.name = name ∧ c.Spelled := by
  obtain ⟨tokens, htokens, h⟩ := ofSource_eq_ok h
  obtain ⟨rest, h⟩ := ofTokens_eq_ok h
  exact (Rule.yields_unit name (lexemes_scanned htokens) h).2

end Sigil
