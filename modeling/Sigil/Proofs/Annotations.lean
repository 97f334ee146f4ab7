import Mathlib.Data.List.Forall2
import Sigil.Markup.Layout
import Sigil.Proofs.Parts

namespace Sigil

/-- What only the typed output has: a type behind a colon, or the type argument of a call. -/
inductive Annotation : String → Prop where
  | type (t : Option TypeExpr) : Annotation (": " ++ TypeExpr.renderOrAny t)
  | argument (t : TypeExpr) : Annotation ("<" ++ t.render ++ ">")
  | props (name : String) : Annotation (": " ++ name ++ "Props")
  | action : Annotation ": \x7b type: string; payload?: any \x7d"
  | change (tag : String) : Annotation (": React.ChangeEvent<" ++ elementInterface tag ++ ">")
  | index : Annotation ": number"

/-- The second text is the first with annotations put in. -/
inductive Annotated : String → String → Prop where
  | refl (s : String) : Annotated s s
  | insert {t : String} : Annotation t → Annotated "" t
  | append {s s' t t' : String} : Annotated s s' → Annotated t t' → Annotated (s ++ t) (s' ++ t')

theorem Annotated.annotate {s s' t : String} (h : Annotated s s') (ht : Annotation t) :
    Annotated s (s' ++ t) := by
  simpa using h.append (.insert ht)

theorem annotated_typeArgs (type? : Option TypeExpr) :
    Annotated (Dialect.plain.typeArgs type?) (Dialect.typed.typeArgs type?) := by
  cases type? with
  | none => exact .refl ""
  | some t => exact .insert (.argument t)

theorem annotated_eachParams (type? : Option TypeExpr) :
    Annotated (Dialect.plain.eachParams type?) (Dialect.typed.eachParams type?) := by
  cases type? with
  | none => exact .refl _
  | some t =>
    have hitem := (Annotated.refl ("(" ++ Names.item)).annotate (.type (some t))
    have hindex := (hitem.append (.refl (", " ++ Names.index))).annotate .index
    have hclose : ": number)" = ": number" ++ ")" := by simp
    change Annotated ("(" ++ Names.item ++ ", " ++ Names.index ++ ")")
      ("(" ++ Names.item ++ ": " ++ TypeExpr.renderOrAny (some t) ++ ", " ++ Names.index ++
        ": number)")
    rw [hclose]
    simpa only [String.append_assoc] using hindex.append (.refl ")")

theorem annotated_changeParam (tag : String) :
    Annotated (Dialect.plain.changeParam tag) (Dialect.typed.changeParam tag) := by
  have hcolon : "e: React.ChangeEvent<" = "e" ++ ": React.ChangeEvent<" := by simp
  change Annotated "e" ("e: React.ChangeEvent<" ++ elementInterface tag ++ ">")
  rw [hcolon]
  simpa only [String.append_assoc] using (Annotated.refl "e").annotate (.change tag)

theorem annotated_reducerSignature (r : ReducerDecl) :
    Annotated (Dialect.plain.reducerSignature r) (Dialect.typed.reducerSignature r) := by
  have hstate := (Annotated.refl ("function " ++ Names.reducerFunction r.name ++ "(state")).annotate
    (.type r.type?)
  have haction := (hstate.append (.refl ", action")).annotate .action
  have hresult := (haction.append (.refl ")")).annotate (.type r.type?)
  have hparams : "(state, action) \x7b" = "(state" ++ ", action" ++ ")" ++ " \x7b" := by simp
  have hcolon : "(state: " = "(state" ++ ": " := by simp
  have hpayload : ", action: \x7b type: string; payload?: any \x7d): " =
      ", action" ++ ": \x7b type: string; payload?: any \x7d" ++ ")" ++ ": " := by simp
  change Annotated ("function " ++ Names.reducerFunction r.name ++ "(state, action) \x7b")
    ("function " ++ Names.reducerFunction r.name ++ "(state: " ++ TypeExpr.renderOrAny r.type? ++
      ", action: \x7b type: string; payload?: any \x7d): " ++ TypeExpr.renderOrAny r.type? ++
      " \x7b")
  rw [hparams, hcolon, hpayload]
  simpa only [String.append_assoc] using hresult.append (.refl " \x7b")

/-- A relation of texts that is kept when texts are put together. -/
structure Additive (R : String → String → Prop) : Prop where
  refl (s : String) : R s s
  append {s s' t t' : String} : R s s' → R t t' → R (s ++ t) (s' ++ t')

theorem additive_annotated : Additive Annotated := ⟨.refl, .append⟩

theorem additive_eq : Additive Eq := ⟨fun _ => rfl, fun h h' => congrArg₂ (· ++ ·) h h'⟩

namespace Additive

variable {R : String → String → Prop} (hR : Additive R) {s s' : String}
include hR

theorem before (h : R s s') (t : String) : R (s ++ t) (s' ++ t) := hR.append h (hR.refl t)

theorem behind (t : String) (h : R s s') : R (t ++ s) (t ++ s') := hR.append (hR.refl t) h

theorem joinWith {separator : String} {ss ss' : List String} (h : List.Forall₂ R ss ss') :
    R (joinWith separator ss) (joinWith separator ss') := by
  induction h with
  | nil => exact hR.refl ""
  | @cons s s' ss ss' hs hss ih =>
    cases hss with
    | nil => exact hs
    | cons ht hts => exact hR.append (hR.before hs separator) ih

theorem forall₂_refl (ss : List String) : List.Forall₂ R ss ss :=
  List.forall₂_same.mpr fun s _ => hR.refl s

end Additive

/-- Whether an attribute binds the value of its element to a name. -/
def Attribute.isBound (a : Attribute) : Bool :=
  match a.value with
  | .expr (.ident _) => a.name = "val"
  | _ => false

/-- The attributes of a tree, those of its parts left out. -/
def Markup.attributes : Markup → List Attribute
  | element e => e.attributes
  | _ => []

/-- A relation holds between the texts in which the dialects differ on a tree, those of its parts
left out. -/
structure Markup.Bridge (R : String → String → Prop) (m : Markup) : Prop where
  each : R (Dialect.plain.eachParams m.type?) (Dialect.typed.eachParams m.type?)
  bound {a : Attribute} (tag : String) : a ∈ m.attributes → a.isBound →
    R (Dialect.plain.changeParam tag) (Dialect.typed.changeParam tag)

section

variable {R : String → String → Prop} (hR : Additive R) (c : Component)
include hR

theorem Attribute.render_bridge (items : List String) (tag : String) {a : Attribute} (h : a.isBound →
      R (Dialect.plain.changeParam tag) (Dialect.typed.changeParam tag)) :
    R (a.render .plain c items tag) (a.render .typed c items tag) := by
  unfold Attribute.render
  split
  next => exact hR.refl _
  next => exact hR.refl _
  next e hvalue =>
    split
    next hname =>
      split
      next name =>
        have hparam := h (by simp [isBound, hvalue, hname])
        have hhandler := hR.before (hR.before (hR.behind "(" hparam) ") => ")
          (Names.setter name)
        exact hR.behind _ (hR.before (hR.behind _ (hR.before hhandler _)) _)
      next => exact hR.refl _
    next => exact hR.refl _
  next => exact hR.refl _
  next => exact hR.refl _

theorem openTag_bridge (items : List String) (keyed : Bool) (tag : String) {attributes : List Attribute}
    (h : ∀ a ∈ attributes, a.isBound →
      R (Dialect.plain.changeParam tag) (Dialect.typed.changeParam tag)) :
    R (openTag .plain c items keyed tag attributes) (openTag .typed c items keyed tag attributes) := by
  unfold openTag
  refine hR.behind _ (hR.joinWith ?_)
  rw [List.forall₂_map_left_iff, List.forall₂_map_right_iff, List.forall₂_same]
  exact fun a ha => hR.behind " " (Attribute.render_bridge hR c items tag (h a ha))

theorem loopHead_bridge (items : List String) {itemType : Option TypeExpr} (source : Expr)
    (h : R (Dialect.plain.eachParams itemType) (Dialect.typed.eachParams itemType)) :
    R (loopHead .plain items itemType source) (loopHead .typed items itemType source) :=
  hR.before (hR.behind _ h) _

namespace Markup

mutual

theorem inline_bridge (items : List String) (m : Markup)
    (h : ∀ n, Within parts m n → n.Bridge R) :
    R (inline .plain c items m) (inline .typed c items m) := by
  have hparts : ∀ n ∈ m.parts, ∀ n', Within parts n n' → n'.Bridge R :=
    fun n hn n' hn' => h n' (.head hn hn')
  cases m with
  | element e =>
    rw [inline, inline]
    exact inlineElement_bridge items false e h
  | fragment children line =>
    rw [inline, inline]
    exact hR.before (hR.behind _ (inlineAll_bridge items children hparts)) _
  | interpolation e => exact hR.refl _
  | text s => exact hR.refl _
  | each binding itemType source template =>
    have hhead := loopHead_bridge hR items source (h _ .refl).each
    have htemplate := inlineElement_bridge (items ++ [binding]) true template
      (hparts (.element template) (List.mem_singleton.mpr rfl))
    rw [inline, inline]
    exact hR.before (hR.append hhead htemplate) _

theorem inlineElement_bridge (items : List String) (keyed : Bool) (e : Element Markup)
    (h : ∀ n, Within parts (.element e) n → n.Bridge R) :
    R (inlineElement .plain c items keyed e) (inlineElement .typed c items keyed e) := by
  have hparts : ∀ n ∈ e.children, ∀ n', Within parts n n' → n'.Bridge R :=
    fun n hn n' hn' => h n' (.head hn hn')
  have htag := fun a ha => (h _ .refl).bound (a := a) (Names.tag e.tag) ha
  cases e with
  | mk tag attributes children selfClosing line =>
    have hopen := openTag_bridge hR c items keyed (Names.tag tag) htag
    have hchildren := inlineAll_bridge items children hparts
    rw [inlineElement, inlineElement]
    split
    · exact hR.before hopen _
    · exact hR.before (hR.before (hR.before (hR.append (hR.before hopen _) hchildren) _) _) _

theorem inlineAll_bridge (items : List String) (ms : List Markup)
    (h : ∀ m ∈ ms, ∀ n, Within parts m n → n.Bridge R) :
    R (inlineAll .plain c items ms) (inlineAll .typed c items ms) := by
  cases ms with
  | nil => exact hR.refl _
  | cons m ms =>
    obtain ⟨hm, hms⟩ := List.forall_mem_cons.mp h
    rw [inlineAll, inlineAll]
    exact hR.append (inline_bridge items m hm) (inlineAll_bridge items ms hms)

end

mutual

theorem block_bridge (depth : Nat) (items : List String) (m : Markup)
    (h : ∀ n, Within parts m n → n.Bridge R) :
    List.Forall₂ R (block .plain c depth items m) (block .typed c depth items m) := by
  have hparts : ∀ n ∈ m.parts, ∀ n', Within parts n n' → n'.Bridge R :=
    fun n hn n' hn' => h n' (.head hn hn')
  have hinline := hR.behind (indent depth) (inline_bridge hR c items m h)
  cases m with
  | element e =>
    rw [block, block]
    exact blockElement_bridge depth items false e h
  | fragment children line =>
    rw [block, block]
    split
    · have hchildren := blockAll_bridge (depth + 1) items children hparts
      exact List.rel_append (.cons (hR.refl _) hchildren) (.cons (hR.refl _) .nil)
    · exact .cons hinline .nil
  | interpolation e => exact .cons (hR.refl _) .nil
  | text s => exact .cons (hR.refl _) .nil
  | each binding itemType source template =>
    have hhead := hR.behind (indent depth) (loopHead_bridge hR items source (h _ .refl).each)
    have htemplate := hparts (.element template) (List.mem_singleton.mpr rfl)
    rw [block, block]
    split
    · have hinner := inlineElement_bridge hR c (items ++ [binding]) true template htemplate
      exact .cons (hR.before (hR.append hhead hinner) _) .nil
    · have hinner := blockElement_bridge (depth + 1) (items ++ [binding]) true template htemplate
      exact List.rel_append (.cons (hR.before hhead _) hinner) (.cons (hR.refl _) .nil)

theorem blockElement_bridge (depth : Nat) (items : List String) (keyed : Bool) (e : Element Markup)
    (h : ∀ n, Within parts (.element e) n → n.Bridge R) :
    List.Forall₂ R (blockElement .plain c depth items keyed e)
      (blockElement .typed c depth items keyed e) := by
  have hparts : ∀ n ∈ e.children, ∀ n', Within parts n n' → n'.Bridge R :=
    fun n hn n' hn' => h n' (.head hn hn')
  have htag := fun a ha => (h _ .refl).bound (a := a) (Names.tag e.tag) ha
  have hinline := inlineElement_bridge hR c items keyed e h
  cases e with
  | mk tag attributes children selfClosing line =>
    have hopen := openTag_bridge hR c items keyed (Names.tag tag) htag
    have hchildren := blockAll_bridge (depth + 1) items children hparts
    rw [blockElement, blockElement]
    split
    · exact .cons (hR.behind _ hinline) .nil
    · exact List.rel_append (.cons (hR.before (hR.behind _ hopen) _) hchildren)
        (.cons (hR.refl _) .nil)

theorem blockAll_bridge (depth : Nat) (items : List String) (ms : List Markup)
    (h : ∀ m ∈ ms, ∀ n, Within parts m n → n.Bridge R) :
    List.Forall₂ R (blockAll .plain c depth items ms) (blockAll .typed c depth items ms) := by
  cases ms with
  | nil => exact hR.forall₂_refl []
  | cons m ms =>
    obtain ⟨hm, hms⟩ := List.forall_mem_cons.mp h
    rw [blockAll, blockAll]
    exact List.rel_append (block_bridge depth items m hm) (blockAll_bridge depth items ms hms)

end

end Markup

end

end Sigil
