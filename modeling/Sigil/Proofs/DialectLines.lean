import Sigil.Proofs.Annotations
import Sigil.Proofs.PositionMaps
import Sigil.Proofs.WellFormed

namespace Sigil

/-- A text that is found again as a line among others: it has no newline and does not end in a
carriage return, which would be taken for the line's end. -/
def IsLine (s : String) : Prop := OneLine s ∧ s.toList.getLast?.any (· ≠ '\r') = true

instance (s : String) : Decidable (IsLine s) := inferInstanceAs (Decidable (_ ∧ _))

theorem IsLine.behind {s t : String} (hs : OneLine s) (ht : IsLine t) : IsLine (s ++ t) := by
  obtain ⟨c, hc, hne⟩ := (Option.any_eq_true _ _).mp ht.2
  refine ⟨oneLine_append.mpr ⟨hs, ht.1⟩, ?_⟩
  rw [String.toList_append, List.getLast?_append, hc]
  exact hne

theorem linesOf_line {line : List Char} (hline : '\n' ∉ line)
    (hend : line.getLast?.any (· ≠ '\r') = true) :
    linesOf line = [line] ∧ ∀ rest, linesOf (line ++ '\n' :: rest) = line :: linesOf rest := by
  induction line with
  | nil => cases hend
  | cons c line ih =>
    rw [List.mem_cons, not_or] at hline
    have hnewline : c = '\n' → False := fun hc => hline.1 hc.symm
    cases line with
    | nil =>
      have hreturn : c ≠ '\r' := by simpa using hend
      refine ⟨linesOf.eq_4 _ _ hnewline (by simp), fun rest => ?_⟩
      exact linesOf.eq_4 _ _ hnewline fun _ hc => absurd hc hreturn
    | cons c' line =>
      obtain ⟨hlast, hmore⟩ := ih hline.2 (by simpa using hend)
      have hnext : ∀ behind more, c = '\r' → c' :: line ++ behind = '\n' :: more → False := by
        intro behind more _ h
        exact hline.2 (by simp [(List.cons.inj h).1])
      constructor
      · rw [linesOf.eq_4 _ _ hnewline (by simpa using hnext []), hlast]
      · intro rest
        rw [List.cons_append, linesOf.eq_4 _ _ hnewline (hnext _), hmore]

/-- Lines that are put one below the other are found again. -/
theorem splitLines_lines {ls : List String} (h : ∀ l ∈ ls, IsLine l) :
    splitLines (joinWith "\n" ls) = ls := by
  have hlines : linesOf (joinWith "\n" ls).toList = ls.map String.toList := by
    induction ls with
    | nil => rfl
    | cons l ls ih =>
      obtain ⟨hl, hls⟩ := List.forall_mem_cons.mp h
      obtain ⟨hlast, hmore⟩ := linesOf_line hl.1 hl.2
      cases ls with
      | nil => exact hlast
      | cons l' ls =>
        have hjoined : (joinWith "\n" (l :: l' :: ls)).toList =
            l.toList ++ '\n' :: (joinWith "\n" (l' :: ls)).toList := by simp [joinWith]
        rw [hjoined, hmore, ih hls]
        rfl
  rw [splitLines, hlines, List.map_map]
  simp [Function.comp_def]

namespace Markup

theorem inlineElement_isLine (d : Dialect) (c : Component) (items : List String) (keyed : Bool)
    {e : Element Markup} (h : Markup.Spelled (.element e)) :
    IsLine (inlineElement d c items keyed e) := by
  refine ⟨oneLine_inlineElement d c items keyed e h, ?_⟩
  rw [inlineElement_angle]
  decide

theorem inline_isLine (d : Dialect) (c : Component) (items : List String) {m : Markup}
    (h : m.Spelled) (htext : m.isText = false) : IsLine (inline d c items m) := by
  refine ⟨oneLine_inline d c items m h, ?_⟩
  cases m with
  | element e =>
    rw [inline]
    exact (inlineElement_isLine d c items false h).2
  | text s => cases htext
  | interpolation e =>
    rw [inline, inBraces, String.toList_append, List.getLast?_append]
    rfl
  | _ =>
    rw [inline, String.toList_append, List.getLast?_append]
    rfl

theorem isText_of_useBlock {ms : List Markup} (h : useBlock ms) : ∀ m ∈ ms, m.isText = false := by
  rw [useBlock, Bool.and_eq_true, Bool.not_eq_true', List.any_eq_false] at h
  exact fun m hm => Bool.eq_false_iff.mpr (h.2 m hm)

theorem useBlock_of_not_onOneLine {e : Element Markup} (h : ¬ onOneLine e) : useBlock e.children := by
  cases hblock : useBlock e.children with
  | true => rfl
  | false => simp [onOneLine, hblock] at h

mutual

/-- A tree that is no text is written in lines that are found again. -/
theorem block_isLine (d : Dialect) (c : Component) (depth : Nat) (items : List String) (m : Markup)
    (h : m.Spelled) (htext : m.isText = false) : ∀ l ∈ block d c depth items m, IsLine l := by
  have hindent := oneLine_indent depth
  have hinline := IsLine.behind hindent (inline_isLine d c items h htext)
  cases m with
  | element e =>
    rw [block]
    exact blockElement_isLine d c depth items false e h
  | fragment children line =>
    rw [block]
    split
    next hblock =>
      cases h with
      | fragment hchildren =>
        have hinner := blockAll_isLine d c (depth + 1) items children hchildren
          (isText_of_useBlock hblock)
        simp only [List.forall_mem_append, List.forall_mem_singleton]
        exact ⟨⟨.behind hindent (by decide), hinner⟩, .behind hindent (by decide)⟩
    next => exact List.forall_mem_singleton.mpr hinline
  | interpolation e => exact List.forall_mem_singleton.mpr hinline
  | text s => cases htext
  | each binding itemType source template =>
    cases h with
    | each _ htype hsource htemplate =>
      have hhead : OneLine (indent depth ++ loopHead d items itemType source) :=
        oneLine_append.mpr ⟨hindent, oneLine_loopHead d items htype hsource⟩
      rw [block]
      split
      · have htemplate := oneLine_inlineElement d c (items ++ [binding]) true template htemplate
        refine List.forall_mem_singleton.mpr (.behind ?_ (by decide))
        exact oneLine_append.mpr ⟨hhead, htemplate⟩
      · have hinner := blockElement_isLine d c (depth + 1) (items ++ [binding]) true template
          htemplate
        simp only [List.forall_mem_append, List.forall_mem_singleton]
        exact ⟨⟨.behind hhead (by decide), hinner⟩, .behind hindent (by decide)⟩

theorem blockElement_isLine (d : Dialect) (c : Component) (depth : Nat) (items : List String)
    (keyed : Bool) (e : Element Markup) (h : Markup.Spelled (.element e)) :
    ∀ l ∈ blockElement d c depth items keyed e, IsLine l := by
  have hindent := oneLine_indent depth
  have hinline := IsLine.behind hindent (inlineElement_isLine d c items keyed h)
  cases e with
  | mk tag attributes children selfClosing line =>
    cases h with
    | element htag hattributes hchildren =>
      have htag := Names.oneLine_tag htag
      have hopen := oneLine_openTag d c items keyed htag hattributes
      rw [blockElement]
      split
      · exact List.forall_mem_singleton.mpr hinline
      next hblock =>
        have hinner := blockAll_isLine d c (depth + 1) items children hchildren
          (isText_of_useBlock (useBlock_of_not_onOneLine hblock))
        simp only [List.forall_mem_append, List.forall_mem_singleton]
        refine ⟨⟨.behind (oneLine_append.mpr ⟨hindent, hopen⟩) (by decide), hinner⟩, ?_⟩
        refine .behind (oneLine_append.mpr ⟨?_, htag⟩) (by decide)
        exact oneLine_append.mpr ⟨hindent, by decide⟩

theorem blockAll_isLine (d : Dialect) (c : Component) (depth : Nat) (items : List String)
    (ms : List Markup) (h : ∀ m ∈ ms, m.Spelled) (htext : ∀ m ∈ ms, m.isText = false) :
    ∀ l ∈ blockAll d c depth items ms, IsLine l := by
  cases ms with
  | nil => exact fun l hl => by cases hl
  | cons m ms =>
    obtain ⟨hm, hms⟩ := List.forall_mem_cons.mp h
    obtain ⟨hmtext, hmstext⟩ := List.forall_mem_cons.mp htext
    rw [blockAll, List.forall_mem_append]
    exact ⟨block_isLine d c depth items m hm hmtext,
      blockAll_isLine d c depth items ms hms hmstext⟩

end

end Markup

namespace OutputLine

/-- Two lines for the same line of the source, or both for none, whose texts are related. -/
def Aligned (R : String → String → Prop) (l l' : OutputLine) : Prop :=
  R l.text l'.text ∧ l.origin = l'.origin

variable {R : String → String → Prop}

theorem aligned_mapped {s s' : String} (h : R s s') (line : Nat) :
    Aligned R (mapped s line) (mapped s' line) := ⟨h, rfl⟩

theorem aligned_refl (hR : Additive R) (ls : List OutputLine) : List.Forall₂ (Aligned R) ls ls :=
  List.forall₂_same.mpr fun l _ => ⟨hR.refl l.text, rfl⟩

theorem aligned_flatMap {α : Type} {f g : α → List OutputLine} {as : List α}
    (h : ∀ a ∈ as, List.Forall₂ (Aligned R) (f a) (g a)) :
    List.Forall₂ (Aligned R) (as.flatMap f) (as.flatMap g) := by
  induction as with
  | nil => exact .nil
  | cons a as ih =>
    obtain ⟨ha, has⟩ := List.forall_mem_cons.mp h
    exact List.rel_append ha (ih has)

theorem aligned_block {origin : Option Nat} {ss ss' : List String} (h : List.Forall₂ R ss ss') :
    List.Forall₂ (Aligned R) (OutputLine.block origin ss) (OutputLine.block origin ss') := by
  cases h with
  | nil => exact .nil
  | cons hs hss =>
    refine .cons ⟨hs, rfl⟩ ?_
    rw [List.forall₂_map_left_iff, List.forall₂_map_right_iff]
    exact hss.imp fun _ _ h => ⟨h, rfl⟩

/-- Aligned lines are mapped alike. -/
theorem numbered_aligned {ls ls' : List OutputLine} (h : List.Forall₂ (Aligned R) ls ls')
    (start : Nat) : numbered start ls = numbered start ls' := by
  induction h generalizing start with
  | nil => rfl
  | cons hl _ ih => rw [numbered_cons, numbered_cons, hl.2, ih]

theorem numbered_append (start : Nat) (ls ls' : List OutputLine) :
    numbered start (ls ++ ls') = numbered start ls ++ numbered (start + ls.length) ls' := by
  unfold numbered
  rw [List.zipIdx_append, List.filterMap_append]

/-- Lines that stand further down have larger numbers, and nothing else changes. -/
theorem numbered_shift (shift start : Nat) (ls : List OutputLine) :
    numbered (start + shift) ls = (numbered start ls).map fun e => (e.1 + shift, e.2) := by
  induction ls generalizing start with
  | nil => rfl
  | cons l ls ih =>
    rw [numbered_cons, numbered_cons, List.map_append, Nat.add_right_comm, ih]
    cases l.origin <;> rfl

/-- Lines for something each are numbered in their order, here from `base + start` on. -/
theorem numbered_mapped {α : Type} (text : α → String) (line : α → Nat) (base start : Nat)
    (as : List α) : numbered (base + start) (as.map fun a => mapped (text a) (line a)) =
      (as.zipIdx start).map fun p => (base + p.2, line p.1) := by
  induction as generalizing start with
  | nil => rfl
  | cons a as ih =>
    rw [List.map_cons, numbered_cons, Nat.add_assoc, ih, List.zipIdx_cons, List.map_cons]
    rfl

theorem texts_aligned {ls ls' : List OutputLine} (h : List.Forall₂ (Aligned R) ls ls') :
    List.Forall₂ R (ls.map (·.text)) (ls'.map (·.text)) := by
  rw [List.forall₂_map_left_iff, List.forall₂_map_right_iff]
  exact h.imp fun _ _ h => h.1

end OutputLine

/-- A relation holds between the texts in which the dialects differ on a component, the interface of
its props left out. -/
structure Component.Bridge (R : String → String → Prop) (c : Component) : Prop where
  typeArgs {x : Declaration} : x ∈ c.declarations →
    R (Dialect.plain.typeArgs x.type?) (Dialect.typed.typeArgs x.type?)
  reducer {r : ReducerDecl} : r ∈ c.reducers →
    R (Dialect.plain.reducerSignature r) (Dialect.typed.reducerSignature r)
  props : c.props ≠ [] →
    R (Dialect.plain.propsAnnotation c.name) (Dialect.typed.propsAnnotation c.name)
  markup {m : Markup} : c.HasTree m → m.Bridge R

namespace Component

open OutputLine

/-- The lines of the output before the interface of the props. -/
def leadingLines (d : Dialect) (c : Component) : List OutputLine :=
  c.importLines ++ c.reducers.flatMap (reducerLines d)

/-- The lines of the output behind the interface of the props. -/
def closingLines (d : Dialect) (c : Component) : List OutputLine :=
  c.functionLines d ++ [unmapped ("export default " ++ c.name ++ ";")]

theorem outputLines_eq (d : Dialect) (c : Component) :
    c.outputLines d = c.leadingLines d ++ c.interfaceLines d ++ c.closingLines d :=
  List.append_assoc _ _ _

theorem outputLines_plain (c : Component) :
    c.outputLines .plain = c.leadingLines .plain ++ c.closingLines .plain := by
  have hinterface : c.interfaceLines .plain = [] := if_pos (.inl rfl)
  rw [outputLines_eq, hinterface, List.append_nil]

/-- The lines of a component's tree are found again when they are put one below the other. -/
theorem splitLines_block {d : Dialect} {c : Component} (h : c.Spelled) :
    splitLines (joinWith "\n" (Markup.block d c 2 [] c.markup)) =
      Markup.block d c 2 [] c.markup :=
  splitLines_lines (Markup.block_isLine d c 2 [] c.markup h.markup h.root_isText)

section

variable {R : String → String → Prop} (hR : Additive R) {c : Component}
include hR

theorem reducerLines_bridge (h : c.Bridge R) :
    List.Forall₂ (Aligned R) (c.reducers.flatMap (reducerLines .plain))
      (c.reducers.flatMap (reducerLines .typed)) := by
  refine aligned_flatMap fun r hr => ?_
  exact .cons (aligned_mapped (h.reducer hr) r.line) (aligned_refl hR _)

theorem hookConstant_bridge {typeArgs typeArgs' : String} (h : R typeArgs typeArgs')
    (names : List String) (hook : String) (args : List String) (line : Nat) :
    R (hookConstant names hook typeArgs args line).text
      (hookConstant names hook typeArgs' args line).text := by
  have hcall : R (hook ++ typeArgs ++ "(" ++ joinWith ", " args ++ ")")
      (hook ++ typeArgs' ++ "(" ++ joinWith ", " args ++ ")") :=
    hR.before (hR.before (hR.before (hR.behind _ h) _) _) _
  exact hR.before (hR.behind _ hcall) _

theorem headline_bridge (h : c.Bridge R) {x : Declaration} (hx : x ∈ c.declarations) :
    R (x.headline .plain c) (x.headline .typed c) := by
  have htype := h.typeArgs hx
  cases x with
  | state x | deferred x | optimistic x | store x | action x | context x | ref x | memo x =>
    exact hookConstant_bridge hR htype _ _ _ x.line
  | _ => exact hR.refl _

theorem declarationLines_bridge (h : c.Bridge R) :
    List.Forall₂ (Aligned R) (c.declarationLines .plain) (c.declarationLines .typed) := by
  rw [declarationLines_eq, declarationLines_eq]
  refine aligned_flatMap fun x hx => ?_
  have hheadline := headline_bridge hR h (mem_declarations_iff.mpr (.inr hx))
  exact .cons (aligned_mapped hheadline x.line) (aligned_refl hR _)

theorem signatureLine_bridge (h : c.Bridge R) :
    Aligned R (c.signatureLine .plain) (c.signatureLine .typed) := by
  have hparams : R (c.signatureParams .plain) (c.signatureParams .typed) := by
    unfold signatureParams
    split
    next => exact hR.refl _
    next hprops => exact hR.behind _ (h.props hprops)
  exact ⟨hR.before (hR.behind _ hparams) _, rfl⟩

theorem markupLines_bridge (h : c.Bridge R) (hspelled : c.Spelled) :
    List.Forall₂ (Aligned R) (c.markupLines .plain) (c.markupLines .typed) := by
  rw [markupLines, markupLines, splitLines_block hspelled, splitLines_block hspelled]
  exact aligned_block (Markup.block_bridge hR c 2 [] c.markup fun n hn => h.markup hn)

theorem functionLines_bridge (h : c.Bridge R) (hspelled : c.Spelled) :
    List.Forall₂ (Aligned R) (c.functionLines .plain) (c.functionLines .typed) := by
  have hdeclarations := declarationLines_bridge hR h
  have hempty : (c.declarationLines .plain).isEmpty = (c.declarationLines .typed).isEmpty := by
    generalize c.declarationLines .plain = ls, c.declarationLines .typed = ls' at hdeclarations
    cases hdeclarations <;> rfl
  have hsignature : List.Forall₂ (Aligned R) [c.signatureLine .plain] [c.signatureLine .typed] :=
    .cons (signatureLine_bridge hR h) .nil
  rw [functionLines, functionLines, hempty]
  refine List.rel_append (List.rel_append (List.rel_append (List.rel_append (List.rel_append
    hsignature hdeclarations) (aligned_refl hR _)) (aligned_refl hR _)) ?_) (aligned_refl hR _)
  exact markupLines_bridge hR h hspelled

theorem leadingLines_bridge (h : c.Bridge R) :
    List.Forall₂ (Aligned R) (c.leadingLines .plain) (c.leadingLines .typed) :=
  List.rel_append (aligned_refl hR _) (reducerLines_bridge hR h)

theorem closingLines_bridge (h : c.Bridge R) (hspelled : c.Spelled) :
    List.Forall₂ (Aligned R) (c.closingLines .plain) (c.closingLines .typed) :=
  List.rel_append (functionLines_bridge hR h hspelled) (aligned_refl hR _)

end

variable {c : Component}

/-- What the typed dialect writes differently are annotations. -/
theorem bridge_annotated (c : Component) : c.Bridge Annotated where
  typeArgs {x} _ := annotated_typeArgs x.type?
  reducer {r} _ := annotated_reducerSignature r
  props _ := .insert (.props c.name)
  markup {m} _ := ⟨annotated_eachParams m.type?, fun tag _ _ => annotated_changeParam tag⟩

/-- Nothing in a component is written differently with types: there are no props and no reducers,
nothing has a type, and no value is bound to a name. -/
structure Untyped (c : Component) : Prop where
  props : c.props = []
  reducers : c.reducers = []
  declaration {x : Declaration} : x ∈ c.declarations → x.type? = none
  tree {m : Markup} : c.HasTree m → m.type? = none ∧ ∀ a ∈ m.attributes, a.isBound = false

theorem Untyped.bridge (h : c.Untyped) : c.Bridge Eq where
  typeArgs hx := by rw [h.declaration hx]; rfl
  reducer hr := by rw [h.reducers] at hr; cases hr
  props hprops := absurd h.props hprops
  markup hm := by
    obtain ⟨htype, hbound⟩ := h.tree hm
    refine ⟨by rw [htype]; rfl, fun tag ha hisBound => ?_⟩
    rw [hbound _ ha] at hisBound
    cases hisBound

/-- The block that only the typed output has: the interface of the props, and a blank line. -/
def interfaceBlock (c : Component) : List String :=
  if c.props = [] then []
  else
    ["interface " ++ c.name ++ "Props \x7b"] ++ c.props.map Dialect.propField ++ ["\x7d", ""]

theorem length_interfaceBlock (c : Component) :
    c.interfaceBlock.length = if c.props = [] then 0 else c.props.length + 3 := by
  unfold interfaceBlock
  split
  · rfl
  · simp

theorem texts_interfaceLines (c : Component) :
    (c.interfaceLines .typed).map (·.text) = c.interfaceBlock := by
  unfold interfaceLines interfaceBlock
  simp only [reduceCtorEq, false_or]
  split
  · rfl
  · simp [unmapped, mapped, blank]

/-- The field of the prop with the number `i` stands on line `i + 1` of the block. -/
theorem numbered_interfaceLines (c : Component) (base : Nat) :
    numbered (base + 1) (c.interfaceLines .typed) =
      (c.props.zipIdx 2).map fun p => (base + p.2, p.1.line) := by
  have hfields := numbered_mapped Dialect.propField (·.line) base 2 c.props
  unfold interfaceLines
  simp only [reduceCtorEq, false_or]
  split
  next h => rw [h]; rfl
  next =>
    rw [List.append_assoc, List.singleton_append, numbered_cons, numbered_append]
    exact (List.append_nil _).trans hfields

/-- The mappings of the typed output are those of the plain one, with the fields of the interface
between them and all that is behind the interface further down. -/
theorem lineMappings_typed (hspelled : c.Spelled) :
    ∃ early late, c.lineMappings .plain = early ++ late ∧
      (∀ e ∈ early, e.1 ≤ (c.leadingLines .plain).length) ∧
      (∀ e ∈ late, (c.leadingLines .plain).length < e.1) ∧
      c.lineMappings .typed = early ++
        (c.props.zipIdx 2).map (fun p => ((c.leadingLines .plain).length + p.2, p.1.line)) ++
        late.map fun e => (e.1 + c.interfaceBlock.length, e.2) := by
  have hleading := leadingLines_bridge additive_annotated (bridge_annotated c)
  have hclosing := closingLines_bridge additive_annotated (bridge_annotated c) hspelled
  have hlength := hleading.length_eq
  have hblock : (c.interfaceLines .typed).length = c.interfaceBlock.length := by
    rw [← texts_interfaceLines, List.length_map]
  have hfields := c.numbered_interfaceLines (c.leadingLines .plain).length
  have hlater := numbered_shift c.interfaceBlock.length (1 + (c.leadingLines .plain).length)
    (c.closingLines .plain)
  refine ⟨numbered 1 (c.leadingLines .plain),
    numbered (1 + (c.leadingLines .plain).length) (c.closingLines .plain), ?_, ?_, ?_, ?_⟩
  · rw [← numbered_append, ← outputLines_plain]
    rfl
  · intro e he
    have hbounds := numbered_bounds he
    omega
  · intro e he
    have hbounds := numbered_bounds he
    omega
  · change numbered 1 (c.outputLines .typed) = _
    rw [outputLines_eq, numbered_append, numbered_append, ← numbered_aligned hleading,
      ← numbered_aligned hclosing, List.length_append, hblock, ← hlength, ← Nat.add_assoc, hlater,
      Nat.add_comm 1, hfields]

/-- What has no types is written in the same way by both dialects. -/
theorem Untyped.code_eq (h : c.Untyped) (hspelled : c.Spelled) : c.code .typed = c.code .plain := by
  have heq : ∀ l l' : OutputLine, Aligned Eq l l' → l = l' := by
    rintro ⟨text, origin⟩ ⟨text', origin'⟩ ⟨htext, horigin⟩
    simp_all
  have hleading := (leadingLines_bridge additive_eq h.bridge).imp heq
  have hclosing := (closingLines_bridge additive_eq h.bridge hspelled).imp heq
  rw [List.forall₂_eq_eq_eq] at hleading hclosing
  have hinterface : c.interfaceLines .typed = [] := if_pos (.inr h.props)
  rw [code, code, outputLines_plain, outputLines_eq, hinterface, List.append_nil, hleading,
    hclosing]

end Component

/-- The two outputs of a component correspond line by line. The lines of the typed one are those of
the plain one with annotations put in, and the interface of the props stands in one block before the
line of the function. What is mapped is mapped alike, behind the block by the length of the block
further down, and the fields of the block are mapped in addition. Where nothing has a type, the two
outputs are the same. -/
theorem ofSource_dialect_lines {name source : String} {c : Component} (hname : OneLine name)
    (h : Component.ofSource name source = .ok c) :
    ∃ (before before' after after' : List String) (early late : List (Nat × Nat)),
      (c.code .plain).toList.splitOn '\n' = (before ++ after).map String.toList ++ [[]] ∧
      (c.code .typed).toList.splitOn '\n' =
        (before' ++ c.interfaceBlock ++ after').map String.toList ++ [[]] ∧
      List.Forall₂ Annotated before before' ∧ List.Forall₂ Annotated after after' ∧
      after.head? = some ("function " ++ name ++ "(" ++ c.signatureParams .plain ++ ") \x7b") ∧
      c.interfaceBlock.length = (if c.props = [] then 0 else c.props.length + 3) ∧
      c.lineMappings .plain = early ++ late ∧
      (∀ e ∈ early, e.1 ≤ before.length) ∧ (∀ e ∈ late, before.length < e.1) ∧
      c.lineMappings .typed = early ++
        (c.props.zipIdx 2).map (fun p => (before.length + p.2, p.1.line)) ++
        late.map (fun e => (e.1 + c.interfaceBlock.length, e.2)) ∧
      (c.Untyped → c.code .typed = c.code .plain) := by
  obtain ⟨hcname, hspelled⟩ := Component.spelled_of_ofSource h
  have hline : OneLine c.name := hcname ▸ hname
  obtain ⟨early, late, hplain, hearly, hlate, htyped⟩ := Component.lineMappings_typed hspelled
  have hbridge := Component.bridge_annotated c
  have hleading := OutputLine.texts_aligned
    (Component.leadingLines_bridge additive_annotated hbridge)
  have hclosing := OutputLine.texts_aligned
    (Component.closingLines_bridge additive_annotated hbridge hspelled)
  have hsplit (d : Dialect) : (c.code d).toList.splitOn '\n' =
      ((c.outputLines d).map (·.text)).map String.toList ++ [[]] := by
    rw [List.map_map]
    exact OutputLine.splitOn_written (Component.oneLine_outputLines d hline hspelled)
  have hlength : ((c.leadingLines .plain).map (·.text)).length = (c.leadingLines .plain).length :=
    List.length_map _
  refine ⟨(c.leadingLines .plain).map (·.text), (c.leadingLines .typed).map (·.text),
    (c.closingLines .plain).map (·.text), (c.closingLines .typed).map (·.text), early, late,
    ?_, ?_, hleading, hclosing, ?_, c.length_interfaceBlock, hplain, ?_, ?_, ?_,
    fun huntyped => huntyped.code_eq hspelled⟩
  · rw [hsplit, Component.outputLines_plain, List.map_append]
  · rw [hsplit, Component.outputLines_eq, ← Component.texts_interfaceLines]
    simp only [List.map_append]
  · rw [← hcname]
    rfl
  · rwa [hlength]
  · rwa [hlength]
  · rwa [hlength]

theorem ofSource_dialect_lines_form :
    ∃ c before before' after after', OneLine "Form" ∧
      Component.ofSource "Form" ("$a::str\n$b = 1\n@xs::num[] = []\n@n = 0\n<ul>" ++
        "<each x::num in xs><li>\x7bx\x7d</li></each><input val=\x7bn\x7d /></ul>") = .ok c ∧
      c.interfaceBlock = ["interface FormProps \x7b", "  a: string;", "  b?: any;", "\x7d", ""] ∧
      (c.code .plain).toList.splitOn '\n' = (before ++ after).map String.toList ++ [[]] ∧
      (c.code .typed).toList.splitOn '\n' =
        (before' ++ c.interfaceBlock ++ after').map String.toList ++ [[]] ∧
      List.Forall₂ Annotated before before' ∧ List.Forall₂ Annotated after after' ∧
      after.head? = some "function Form(\x7b a, b = 1 \x7d) \x7b" := by
  have hread : ((Component.ofSource "Form" ("$a::str\n$b = 1\n@xs::num[] = []\n@n = 0\n<ul>" ++
      "<each x::num in xs><li>\x7bx\x7d</li></each><input val=\x7bn\x7d /></ul>")).toOption.map
        fun c => (c.interfaceBlock, c.signatureParams .plain)) =
      some (["interface FormProps \x7b", "  a: string;", "  b?: any;", "\x7d", ""],
        "\x7b a, b = 1 \x7d") := by
    decide +kernel
  obtain ⟨c, hc, hfacts⟩ := Option.map_eq_some_iff.mp hread
  obtain ⟨hblock, hparams⟩ := Prod.mk.inj hfacts
  have hsource := eq_ok_of_toOption hc
  obtain ⟨before, before', after, after', _, _, hplain, htyped, hbefore, hafter, hhead, _⟩ :=
    ofSource_dialect_lines (by decide) hsource
  rw [hparams] at hhead
  exact ⟨c, before, before', after, after', by decide, hsource, hblock, hplain, htyped, hbefore,
    hafter, hhead⟩

end Sigil
