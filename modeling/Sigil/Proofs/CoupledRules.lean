import Sigil.Grammar.Unit
import Sigil.Proofs.TwoRuns

namespace Sigil

namespace Rule

open Sigil.Parser

section

variable {f : Nat → Nat} {C : Coupling f} {At : List Lexeme → Prop} {Used : List Lexeme → Prop}

/-- One lexeme that can stand before an angle. -/
def OneWord (x : List Lexeme) : Prop :=
  ∃ t : Lexeme, x = [t] ∧ t.kind ≠ .newline ∧ t.kind ≠ .symbol .langle

/-- What can be used up behind a word. -/
def BehindWord (Used : List Lexeme → Prop) (x : List Lexeme) : Prop :=
  ∀ t : Lexeme, t.kind ≠ .newline → t.kind ≠ .symbol .langle → Used (t :: x)

theorem oneWord_of_kind {t : Lexeme} (h : t.kind = .ident ∨ t.kind = .string) : OneWord [t] := by
  refine ⟨t, rfl, ?_, ?_⟩
  all_goals
    obtain h | h := h
    all_goals
      rw [h]
      nofun

theorem follows_typeName : Follows C At OneWord id typeName typeName := by
  have htake {k : Kind} (hk : k = .ident ∨ k = .string) :
      Follows C (AtKind k) OneWord (Lexeme.seen f) (take k "type") (take k "type") :=
    follows_take (by rcases hk with rfl | rfl <;> nofun) (fun t ht => oneWord_of_kind (ht ▸ hk)) _
  have hreturn {s s' : String} (h : s = s') : Follows C Anywhere (· = []) id (pure s) (pure s') :=
    follows_pureOf rfl h
  have happend (x y : List Lexeme) (hx : OneWord x) (hy : y = []) : OneWord (x ++ y) := by
    rwa [hy, List.append_nil]
  refine follows_kind fun k => ?_
  split
  · exact follows_bindOf (htake (.inl rfl)) (fun t t' h => hreturn (Lexeme.text_eq_of_seen h))
      happend
  · refine follows_bindOf (htake (.inr rfl)) (fun t t' h => hreturn ?_) happend
    rw [Lexeme.content_eq_of_seen h]
  · exact follows_unexpected _

variable [Unopened Used]

theorem follows_further {α β : Type} {view : α → β} {separator : Symbol} {item item' : Rule α}
    (hs : separator ≠ .langle) (h : Follows C Anywhere Used view item item') :
    Follows C At Used (Round.map view) (further separator item) (further separator item') := by
  have hk : Kind.symbol separator ≠ .symbol .langle := fun heq => hs (Kind.symbol.inj heq)
  refine follows_bind (follows_eat hk) fun more =>
    follows_ite Iff.rfl (fun _ => ?_) fun _ => follows_pure rfl
  exact follows_bindView h fun a a' ha => follows_pure (congrArg Round.more ha)

/-- An angle opens parameters only behind the name that they belong to. -/
theorem follows_typeParams {type type' : Rule TypeExpr}
    (h : Follows C Anywhere Used id type type') :
    Follows C At (BehindWord Used) id (typeParams type) (typeParams type') := by
  have heat : Follows C At (fun x => x = [] ∨ ∃ t, x = [t]) id (eat (.symbol .langle))
      (eat (.symbol .langle)) :=
    follows_eatOf (.inl rfl) fun t _ => .inr ⟨t, rfl⟩
  refine follows_bindOf heat (fun eaten _ heq => ?_) fun x y hx (hy : Used y) t hn ha => ?_
  · cases heq
    refine follows_ite Iff.rfl (fun _ => ?_) fun _ => follows_pure rfl
    refine follows_bind h fun first => ?_
    refine follows_bind (follows_manyOf (follows_further nofun h)) fun others => ?_
    exact follows_bind (follows_expect nofun) fun _ => follows_pure rfl
  · obtain rfl | ⟨angle, rfl⟩ := hx
    · exact Unopened.append (Unopened.single ha) hy
    · exact Unopened.append (x := [t, angle]) (Unopened.angle hn ha) hy

/-- Where two brackets stand, the two lexemes that are skipped are brackets. -/
theorem follows_brackets {α β : Type} {view : α → β} (a : α) :
    Follows C (fun ts => kindAt 0 ts = .symbol .lbracket ∧ kindAt 1 ts = .symbol .rbracket) Used
      view (do skip; skip; return a) (do skip; skip; return a) where
  uses ts b rest hat hr := by
    cases hr
    match ts, hat with
    | t :: u :: rest, hat =>
      have ht : t.kind ≠ .symbol .langle := by
        rw [show t.kind = _ from hat.1]
        nofun
      have hu : u.kind ≠ .symbol .langle := by
        rw [show u.kind = _ from hat.2]
        nofun
      exact ⟨[t] ++ [u], rfl, Unopened.append (Unopened.single ht) (Unopened.single hu)⟩
  tracks ts ts' hat hrel := by
    rw [kindAt_succ] at hat
    have hfirst : ts ≠ [] := ne_nil_of_kindAt (hat.1 ▸ nofun)
    have hsecond : ts.tail ≠ [] := ne_nil_of_kindAt (hat.2 ▸ nofun)
    have hboth : Follows C (· = ts) Anything view (do skip; skip; return a)
        (do skip; skip; return a) := by
      refine follows_bindMid (fun _ => (· = ts.tail)) (follows_skipOf hfirst)
        (fun us b rest hus hr => ?_)
        fun _ _ _ => follows_bind (follows_skipOf hsecond) fun _ => follows_pure rfl
      cases hr
      rw [hus]
    exact hboth.tracks rfl hrel

theorem follows_primaryType {type type' : Rule TypeExpr}
    (h : Follows C Anywhere Used id type type') :
    Follows C At Used id (primaryType type) (primaryType type') := by
  refine follows_bindOf follows_typeName (fun name _ heq => ?_)
    fun x y hx (hy : BehindWord Used y) => ?_
  · cases heq
    refine follows_bindOf (follows_typeParams h) (fun params _ heq => ?_)
      fun x y hx (hy : Used y) t hn ha => ?_
    · cases heq
      refine follows_get fun ts ts' _ hagree => follows_ite ?_ (fun hk => ?_) fun _ => ?_
      · rw [← hagree.front.kindAt_eq]
        refine and_congr_right fun hk => ?_
        rw [hagree.kindAt_one (hk ▸ nofun) (hk ▸ nofun)]
      · exact (follows_brackets _).within fun us hus => hus ▸ hk
      · exact follows_pure rfl
    · exact Unopened.append (x := t :: x) (hx t hn ha) hy
  · obtain ⟨t, rfl, hn, ha⟩ := hx
    exact hy t hn ha

theorem follows_type : Follows C At Used id type type := by
  refine Follows.here (follows_nest (fun _ => follows_unexpected _) fun C part part' h => ?_)
  refine follows_bind (follows_primaryType h) fun first => ?_
  refine follows_bind (follows_manyOf (follows_further nofun (follows_primaryType h)))
    fun others => ?_
  exact follows_pure rfl

theorem follows_typeAnnotation : Follows C At Used id typeAnnotation typeAnnotation := by
  refine follows_bind (follows_eat nofun) fun annotated =>
    follows_ite Iff.rfl (fun _ => ?_) fun _ => follows_pure rfl
  exact follows_bind follows_type fun t => follows_pure rfl

section

variable {expr expr' : Rule Expr}

theorem follows_listItem (h : Follows C Anywhere Used id expr expr') :
    Follows C At Used id (listItem expr) (listItem expr') := by
  refine follows_bind (follows_eat nofun) fun spread =>
    follows_ite Iff.rfl (fun _ => ?_) fun _ => h.here
  exact follows_bind h fun e => follows_pure rfl

theorem follows_listRound (h : Follows C Anywhere Used id expr expr') {close : Symbol}
    (hclose : close ≠ .langle) :
    Follows C At Used (Round.map id) (listRound expr close) (listRound expr' close) := by
  have hk : Kind.symbol close ≠ .symbol .langle := fun heq => hclose (Kind.symbol.inj heq)
  refine follows_bind follows_skipNewlines fun _ => ?_
  refine follows_bind (follows_eat hk) fun closed =>
    follows_ite Iff.rfl (fun _ => follows_pure rfl) fun _ => ?_
  refine follows_bind (follows_listItem h) fun item => ?_
  refine follows_bind follows_skipNewlines fun _ => ?_
  refine follows_bind (follows_eat nofun) fun more =>
    follows_ite Iff.rfl (fun _ => follows_pure rfl) fun _ => ?_
  exact follows_bind (follows_expect hk) fun _ => follows_pure rfl

theorem follows_list (h : Follows C Anywhere Used id expr expr') {opening close : Symbol}
    (hopening : opening ≠ .langle) (hclose : close ≠ .langle) :
    Follows C At Used id (list expr opening close) (list expr' opening close) := by
  have hk : Kind.symbol opening ≠ .symbol .langle := fun heq => hopening (Kind.symbol.inj heq)
  refine follows_bind (follows_expect hk) fun _ => ?_
  exact follows_manyOf (follows_listRound h hclose)

theorem follows_suffixRound (h : Follows C Anywhere Used id expr expr') :
    Follows C At Used (Round.map id) (suffixRound expr) (suffixRound expr') := by
  refine follows_bind (follows_eat nofun) fun dotted =>
    follows_ite Iff.rfl (fun _ => ?_) fun _ => follows_pure rfl
  refine follows_bind (follows_ident _) fun name => ?_
  refine follows_kind fun k => follows_ite Iff.rfl (fun _ => ?_) fun _ => follows_pure rfl
  exact follows_bind (follows_list h nofun nofun) fun args => follows_pure rfl

theorem follows_memberChain (h : Follows C Anywhere Used id expr expr') (object : Expr) :
    Follows C At Used id (memberChain expr object) (memberChain expr' object) :=
  follows_bind (follows_manyOf (follows_suffixRound h)) fun _ => follows_pure rfl

theorem follows_operation (h : Follows C Anywhere Used id expr expr') (left : Expr) :
    Follows C At Used id (operation expr left) (operation expr' left) := by
  refine follows_kind fun k => ?_
  split
  next op hop =>
    have hk : k ≠ .symbol .langle := by
      rintro rfl
      cases hop
    have hstop : k ≠ .stop := by
      rintro rfl
      cases hop
    refine follows_bind (follows_skipAt hk hstop) fun _ => ?_
    exact follows_bind h fun e => follows_pure rfl
  next => exact follows_pure rfl

theorem follows_identExpr (h : Follows C Anywhere Used id expr expr') :
    Follows C At Used id (identExpr expr) (identExpr expr') := by
  refine follows_bind (follows_ident _) fun name => ?_
  split
  next => exact follows_operation h _
  next =>
    refine follows_kind fun k => ?_
    split
    · refine follows_bind (follows_skipAt nofun nofun) fun _ => ?_
      exact follows_bind h fun e => follows_pure rfl
    · exact follows_bind (follows_skipAt nofun nofun) fun _ => follows_pure rfl
    · exact follows_bind (follows_skipAt nofun nofun) fun _ => follows_pure rfl
    · refine follows_bind (follows_skipAt nofun nofun) fun _ => ?_
      exact follows_bind h fun e => follows_pure rfl
    · refine follows_bind (follows_list h nofun nofun) fun args => ?_
      exact follows_bind (follows_memberChain h _) fun e => follows_operation h e
    · exact follows_bind (follows_memberChain h _) fun e => follows_operation h e

theorem follows_paramRound : Follows C At Used (Round.map id) paramRound paramRound := by
  refine follows_bind (follows_ident _) fun param => ?_
  refine follows_bind (follows_eat nofun) fun more =>
    follows_ite Iff.rfl (fun _ => follows_pure rfl) fun _ => ?_
  exact follows_bind (follows_expect nofun) fun _ => follows_pure rfl

theorem follows_params : Follows C At Used id params params := by
  refine follows_bind (follows_expect nofun) fun _ => ?_
  refine follows_bind (follows_eat nofun) fun closed =>
    follows_ite Iff.rfl (fun _ => follows_pure rfl) fun _ => ?_
  exact follows_manyOf follows_paramRound

theorem follows_arrowExpr (h : Follows C Anywhere Used id expr expr') :
    Follows C At Used id (arrowExpr expr) (arrowExpr expr') := by
  refine follows_bind follows_params fun params => ?_
  refine follows_bind (follows_expect nofun) fun _ => ?_
  exact follows_bind h fun e => follows_pure rfl

theorem follows_takeAs (k : Kind) (hk : k ≠ .symbol .langle) (hstop : k ≠ .stop)
    (expected : String) :
    Follows C At Used (fun t : Lexeme => (t.text, t.content)) (take k expected)
      (take k expected) := by
  have htake : Follows C At Used (Lexeme.seen f) (take k expected) (take k expected) :=
    follows_take hstop (fun t ht => Unopened.single (ht ▸ hk)) expected
  refine ⟨htake.uses, fun ts ts' hat hrel => ⟨fun t rest hr hkept => ?_, ?_⟩⟩
  · obtain ⟨t', rest', hr', hseen, hrel'⟩ := (htake.tracks hat hrel).value hr hkept
    exact ⟨t', rest', hr',
      Prod.ext (Lexeme.text_eq_of_seen hseen) (Lexeme.content_eq_of_seen hseen), hrel'⟩
  · exact (htake.tracks hat hrel).fault

theorem follows_expressionStep (h : Follows C Anywhere Used id expr expr') :
    Follows C At Used id (expressionStep expr) (expressionStep expr') := by
  refine follows_kind fun k => ?_
  split
  · refine follows_bindView (follows_takeAs .string nofun nofun _) fun t t' ht => ?_
    rw [show t.content = t'.content from congrArg Prod.snd ht]
    exact follows_operation h _
  · refine follows_bindView (follows_takeAs .number nofun nofun _) fun t t' ht => ?_
    rw [show t.text = t'.text from congrArg Prod.fst ht]
    exact follows_operation h _
  · refine follows_get fun ts ts' hk hagree => follows_ite ?_ (fun _ => ?_) fun _ => ?_
    · rw [hagree.kindAt_one (hk ▸ nofun) (hk ▸ nofun)]
    · have hskip : Follows C (· = ts) Used id skip skip :=
        (follows_skipAt (k := .symbol .minus) nofun nofun).within fun us hus => hus ▸ hk
      refine follows_bind hskip fun _ => ?_
      refine follows_bindView (follows_takeAs .number nofun nofun _) fun t t' ht => ?_
      rw [show t.text = t'.text from congrArg Prod.fst ht]
      exact follows_operation h _
    · exact follows_unexpected _
  · exact follows_identExpr h
  · refine follows_bind (follows_list h nofun nofun) fun elements => ?_
    exact follows_bind (follows_memberChain h _) fun e => follows_operation h e
  · exact follows_arrowExpr h
  · exact follows_unexpected _

end

theorem follows_expression : Follows C At Used id expression expression :=
  Follows.here
    (follows_nest (fun _ => follows_unexpected _) fun _ _ _ h => follows_expressionStep h)

theorem follows_braced : Follows C At Used id braced braced := by
  refine follows_bind (follows_expect nofun) fun _ => ?_
  refine follows_bind follows_skipNewlines fun _ => ?_
  refine follows_bind follows_expression fun e => ?_
  refine follows_bind follows_skipNewlines fun _ => ?_
  exact follows_bind (follows_expect nofun) fun _ => follows_pure rfl

theorem follows_key : Follows C At Used id key key := by
  refine follows_kind fun k => ?_
  split
  · exact follows_ident _
  · refine follows_bindView (follows_takeAs .string nofun nofun _) fun t t' ht => follows_pure ?_
    exact congrArg Prod.snd ht
  · exact follows_unexpected _

theorem follows_keyedBlock : Follows C At Used id keyedBlock keyedBlock := by
  have hround : Follows C Anywhere Used (Round.map id) entryRound entryRound := by
    refine follows_bind follows_skipNewlines fun _ => ?_
    refine follows_bind (follows_eat nofun) fun closed =>
      follows_ite Iff.rfl (fun _ => follows_pure rfl) fun _ => ?_
    refine follows_bind follows_key fun key => ?_
    refine follows_bind (follows_expect nofun) fun _ => ?_
    refine follows_bind follows_skipNewlines fun _ => ?_
    refine follows_bind follows_expression fun value => ?_
    refine follows_bind follows_skipNewlines fun _ => ?_
    exact follows_bind (follows_eat nofun) fun _ => follows_pure rfl
  exact follows_bind (follows_expect nofun) fun _ => follows_manyOf hround

theorem follows_defaultValue : Follows C At Used id defaultValue defaultValue := by
  refine follows_bind (follows_eat nofun) fun given =>
    follows_ite Iff.rfl (fun _ => ?_) fun _ => follows_pure rfl
  exact follows_bind follows_expression fun e => follows_pure rfl

theorem follows_definition : Follows C At Used id definition definition :=
  follows_bind (follows_expect nofun) fun _ => follows_expression

theorem follows_bracedPair : Follows C At Used id bracedPair bracedPair := by
  refine follows_get fun ts ts' _ hagree => ?_
  refine follows_bind (follows_list follows_expression nofun nofun) fun entries => ?_
  split
  · exact follows_pure rfl
  · exact follows_failAt hagree.length _

section

variable {line line' : Nat}

theorem follows_prop (h : f line = f line') :
    Follows C At Used (fun d => (Declaration.prop d).renumber f) (prop line) (prop line') := by
  refine follows_bind (follows_ident _) fun name => ?_
  refine follows_bind follows_typeAnnotation fun type? => ?_
  refine follows_bind follows_defaultValue fun value? => follows_pure ?_
  simp only [Declaration.renumber, h]

theorem follows_reducer (name : String) (h : f line = f line') :
    Follows C At Used (fun d => (Declaration.reducer d).renumber f) (reducer name line)
      (reducer name line') := by
  refine follows_bind follows_typeAnnotation fun type? => ?_
  refine follows_bind (follows_expect nofun) fun _ => ?_
  refine follows_bind (follows_expect nofun) fun _ => ?_
  refine follows_bind follows_skipNewlines fun _ => ?_
  refine follows_bind follows_expression fun initial => ?_
  refine follows_bind follows_skipNewlines fun _ => ?_
  refine follows_bind (follows_eat nofun) fun _ => ?_
  refine follows_bind follows_skipNewlines fun _ => ?_
  refine follows_kind fun k => follows_ite Iff.rfl (fun _ => ?_) fun _ => follows_fail_bind _
  refine follows_bind follows_keyedBlock fun actions => ?_
  refine follows_bind follows_skipNewlines fun _ => ?_
  refine follows_bind (follows_eat nofun) fun _ => ?_
  refine follows_bind follows_skipNewlines fun _ => ?_
  refine follows_bind (follows_expect nofun) fun _ => follows_pure ?_
  simp only [Declaration.renumber, h]

theorem follows_optimistic (name : String) (h : f line = f line') :
    Follows C At Used (fun d => (Declaration.optimistic d).renumber f) (optimistic name line)
      (optimistic name line') := by
  refine follows_bind follows_typeAnnotation fun type? => ?_
  refine follows_bind (follows_expect nofun) fun _ => ?_
  refine follows_bind follows_bracedPair fun pair => follows_pure ?_
  simp only [Declaration.renumber, h]

theorem follows_state (h : f line = f line') :
    Follows C At Used (Declaration.renumber f) (state line) (state line') := by
  refine follows_bind (follows_ident _) fun name => ?_
  refine follows_bind (follows_eat nofun) fun modified =>
    follows_ite Iff.rfl (fun _ => ?_) fun _ => ?_
  · refine follows_get fun ts ts' _ hagree => ?_
    refine follows_bind (follows_ident _) fun modifier => ?_
    split
    · exact follows_map (follows_reducer name h) fun _ _ heq => heq
    · exact follows_pure (by simp only [Declaration.renumber, h])
    · refine follows_bind follows_typeAnnotation fun type? => ?_
      refine follows_bind follows_definition fun e => follows_pure ?_
      simp only [Declaration.renumber, h]
    · exact follows_map (follows_optimistic name h) fun _ _ heq => heq
    · exact follows_failAt hagree.length _
  · refine follows_bind follows_typeAnnotation fun type? => ?_
    refine follows_bind follows_definition fun e => follows_pure ?_
    simp only [Declaration.renumber, h]

theorem follows_memo (h : f line = f line') :
    Follows C At Used (fun d => (Declaration.memo d).renumber f) (memo line) (memo line') := by
  refine follows_bind (follows_ident _) fun name => ?_
  refine follows_bind follows_typeAnnotation fun type? => ?_
  refine follows_bind follows_definition fun e => follows_pure ?_
  simp only [Declaration.renumber, h]

/-- Both kinds of effect are read in the same way. -/
theorem follows_effect {wrap : EffectDecl → Declaration}
    (hwrap : ∀ deps? body, (wrap ⟨deps?, body, line⟩).renumber f =
      (wrap ⟨deps?, body, line'⟩).renumber f) :
    Follows C At Used (fun d => (wrap d).renumber f) (effect line) (effect line') := by
  have hdeps : Follows C At Used id explicitDeps explicitDeps := by
    refine follows_kind fun k => follows_ite Iff.rfl (fun _ => ?_) fun _ => follows_pure rfl
    exact follows_bind (follows_list follows_expression nofun nofun) fun deps => follows_pure rfl
  refine follows_bind hdeps fun deps? => ?_
  exact follows_bind follows_expression fun body => follows_pure (hwrap deps? body)

theorem follows_event (h : f line = f line') :
    Follows C At Used (fun d => (Declaration.event d).renumber f) (event line) (event line') := by
  refine follows_bind (follows_ident _) fun name => ?_
  refine follows_bind follows_definition fun e => follows_pure ?_
  simp only [Declaration.renumber, h]

theorem follows_callback (h : f line = f line') :
    Follows C At Used (fun d => (Declaration.callback d).renumber f) (callback line)
      (callback line') := by
  refine follows_bind (follows_ident _) fun name => ?_
  refine follows_bind follows_definition fun e => follows_pure ?_
  simp only [Declaration.renumber, h]

theorem follows_handle (h : f line = f line') :
    Follows C At Used (fun d => (Declaration.handle d).renumber f) (handle line)
      (handle line') := by
  refine follows_bind (follows_ident _) fun name => ?_
  refine follows_bind (follows_expect nofun) fun _ => ?_
  refine follows_bind follows_keyedBlock fun methods => follows_pure ?_
  simp only [Declaration.renumber, h]

theorem follows_ref (h : f line = f line') :
    Follows C At Used (fun d => (Declaration.ref d).renumber f) (ref line) (ref line') := by
  refine follows_bind (follows_ident _) fun name => ?_
  refine follows_bind follows_typeAnnotation fun type? => ?_
  refine follows_bind follows_defaultValue fun value? => follows_pure ?_
  simp only [Declaration.renumber, h]

theorem follows_context (h : f line = f line') :
    Follows C At Used (fun d => (Declaration.context d).renumber f) (context line)
      (context line') := by
  refine follows_bind (follows_ident _) fun name => ?_
  refine follows_bind follows_typeAnnotation fun type? => ?_
  refine follows_bind (follows_expect nofun) fun _ => ?_
  refine follows_bind (follows_ident _) fun object => follows_pure ?_
  simp only [Declaration.renumber, h]

theorem follows_store (h : f line = f line') :
    Follows C At Used (fun d => (Declaration.store d).renumber f) (store line) (store line') := by
  refine follows_bind (follows_ident _) fun name => ?_
  refine follows_bind follows_typeAnnotation fun type? => ?_
  refine follows_bind (follows_expect nofun) fun _ => ?_
  refine follows_get fun ts ts' _ hagree => ?_
  refine follows_bind (follows_list follows_expression nofun nofun) fun entries => ?_
  split
  · exact follows_pure (by simp only [Declaration.renumber, h])
  · exact follows_pure (by simp only [Declaration.renumber, h])
  · exact follows_failAt hagree.length _

theorem follows_action (h : f line = f line') :
    Follows C At Used (fun d => (Declaration.action d).renumber f) (action line)
      (action line') := by
  refine follows_bind (follows_ident _) fun name => ?_
  refine follows_bind follows_typeAnnotation fun type? => ?_
  refine follows_bind (follows_expect nofun) fun _ => ?_
  refine follows_bind follows_bracedPair fun pair => follows_pure ?_
  simp only [Declaration.renumber, h]

end

/-- Lexemes that look alike start declarations that are read alike, or none. -/
theorem follows_declarationBody (C : Coupling f) (Used : List Lexeme → Prop) [Unopened Used]
    {t t' : Lexeme} (h : t.seen f = t'.seen f) :
    (declarationBody? t.line t = none ∧ declarationBody? t'.line t' = none) ∨
      ∃ body body', declarationBody? t.line t = some body ∧
        declarationBody? t'.line t' = some body' ∧ t.kind ≠ .symbol .langle ∧
        Follows C Anywhere Used (Declaration.renumber f) body body' := by
  have hline := Lexeme.line_eq_of_seen h
  have hid : Follows C Anywhere Used (Declaration.renumber f)
      (do return .id ⟨← ident "id name", t.line⟩) (do return .id ⟨← ident "id name", t'.line⟩) :=
    follows_bind (follows_ident _) fun name =>
      follows_pure (by simp only [Declaration.renumber, hline])
  unfold declarationBody?
  rw [← Lexeme.kind_eq_of_seen h, ← Lexeme.isWord_eq_of_seen h]
  split
  next hk => exact .inr ⟨_, _, rfl, rfl, hk ▸ nofun, follows_map (follows_prop hline) fun _ _ => id⟩
  next hk => exact .inr ⟨_, _, rfl, rfl, hk ▸ nofun, follows_state hline⟩
  next hk => exact .inr ⟨_, _, rfl, rfl, hk ▸ nofun, follows_map (follows_memo hline) fun _ _ => id⟩
  next hk =>
    refine .inr ⟨_, _, rfl, rfl, hk ▸ nofun, follows_map (follows_effect ?_) fun _ _ => id⟩
    simp only [Declaration.renumber, hline, implies_true]
  next hk =>
    refine .inr ⟨_, _, rfl, rfl, hk ▸ nofun, follows_map (follows_effect ?_) fun _ _ => id⟩
    simp only [Declaration.renumber, hline, implies_true]
  next hk =>
    exact .inr ⟨_, _, rfl, rfl, hk ▸ nofun, follows_map (follows_event hline) fun _ _ => id⟩
  next hk =>
    exact .inr ⟨_, _, rfl, rfl, hk ▸ nofun, follows_map (follows_callback hline) fun _ _ => id⟩
  next hk =>
    exact .inr ⟨_, _, rfl, rfl, hk ▸ nofun, follows_map (follows_handle hline) fun _ _ => id⟩
  next hk => exact .inr ⟨_, _, rfl, rfl, hk ▸ nofun, follows_map (follows_ref hline) fun _ _ => id⟩
  next hk =>
    exact .inr ⟨_, _, rfl, rfl, hk ▸ nofun, follows_map (follows_context hline) fun _ _ => id⟩
  next hk => exact .inr ⟨_, _, rfl, rfl, hk ▸ nofun, hid⟩
  next hk =>
    -- Two words start declarations as well.
    split
    · exact .inr ⟨_, _, rfl, rfl, hk ▸ nofun, follows_map (follows_store hline) fun _ _ => id⟩
    · split
      · exact .inr ⟨_, _, rfl, rfl, hk ▸ nofun, follows_map (follows_action hline) fun _ _ => id⟩
      · exact .inl ⟨rfl, rfl⟩
  next => exact .inl ⟨rfl, rfl⟩

theorem AtEnd.declarationBody_eq_none {ts : List Lexeme} (h : AtEnd ts) :
    (ts.head?.bind fun t => declarationBody? t.line t) = none := by
  cases ts with
  | nil => rfl
  | cons t us =>
    change declarationBody? t.line t = none
    rw [declarationBody?, (h t rfl).1]

/-- A declaration goes no further than to the end of its statement. -/
theorem follows_declaration :
    Follows C At Used (Declaration.renumber f) declaration declaration := by
  refine follows_get fun ts ts' _ hagree => ?_
  obtain ⟨rfl, hend⟩ | ⟨t, us, t', us', rfl, rfl, hseen⟩ := hagree.front.cases
  · rw [hend.declarationBody_eq_none, hend.found_eq]
    exact follows_fail _
  · obtain ⟨hbody, hbody'⟩ | ⟨body, body', hbody, hbody', hk, hfollows⟩ :=
      follows_declarationBody C Used hseen
    · simp only [List.head?_cons, Option.bind_some, hbody, hbody', hagree.front.found_eq]
      exact follows_fail _
    · simp only [List.head?_cons, Option.bind_some, hbody, hbody']
      have hskip : Follows C (· = t :: us) Used id skip skip :=
        follows_skip (fun vs hvs => by simp [hvs]) fun v vs hvs => by
          cases hvs
          exact Unopened.single hk
      refine follows_bind hskip fun _ => ?_
      refine follows_bindView hfollows fun d d' hd => ?_
      exact follows_bind follows_endStatement fun _ => follows_pure hd

end

end Rule

end Sigil
