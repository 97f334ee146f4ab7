import Sigil.Proofs.DialectLines
import Sigil.Proofs.LineIndependence

namespace Sigil

/-- What is written of a tree, cut into what stands for tags, for code and for the text of a text
node, and the parentheses around what a loop repeats. -/
inductive Snippet where
  | tag (s : String)
  | code (s : String)
  | text (s : String)
  | parenOpen
  | parenClose
deriving DecidableEq, Repr

namespace Snippet

def write : Snippet → String
  | tag s => s
  | code s => s
  | text s => escapeText s
  | parenOpen => "("
  | parenClose => ")"

def isParen : Snippet → Bool
  | parenOpen => true
  | parenClose => true
  | _ => false

def text? : Snippet → Option String
  | text s => some s
  | _ => none

/-- Snippets one behind the other. -/
def writeAll : List Snippet → String
  | [] => ""
  | s :: ss => s.write ++ writeAll ss

@[simp] theorem writeAll_append (ss ss' : List Snippet) :
    writeAll (ss ++ ss') = writeAll ss ++ writeAll ss' := by
  induction ss with
  | nil => simp [writeAll]
  | cons s ss ih => rw [List.cons_append, writeAll, writeAll, ih, String.append_assoc]

/-- What is found in one list behind another is found in the first or in the second. -/
theorem split_append {ss ss' front behind : List Snippet} {s : Snippet}
    (h : ss ++ ss' = front ++ s :: behind) :
    (∃ behind', ss = front ++ s :: behind' ∧ behind = behind' ++ ss') ∨
      ∃ front', front = ss ++ front' ∧ ss' = front' ++ s :: behind := by
  rcases List.append_eq_append_iff.mp h with ⟨front', rfl, hss'⟩ | ⟨mid, rfl, hmid⟩
  · exact .inr ⟨front', rfl, hss'⟩
  · rcases List.cons_eq_append_iff.mp hmid with ⟨rfl, hss'⟩ | ⟨behind', rfl, rfl⟩
    · exact .inr ⟨[], by simp, hss'⟩
    · exact .inl ⟨behind', rfl, rfl⟩

/-- What is found between two snippets that it differs from is found in what they are around. -/
theorem split_between {first last s : Snippet} {inner front behind : List Snippet}
    (hfirst : first ≠ s) (hlast : last ≠ s)
    (h : first :: (inner ++ [last]) = front ++ s :: behind) :
    ∃ front' behind', front = first :: front' ∧ behind = behind' ++ [last] ∧
      inner = front' ++ s :: behind' := by
  rw [← List.cons_append] at h
  rcases split_append h with ⟨behind, hstart, rfl⟩ | ⟨front, rfl, hend⟩
  · cases front with
    | nil => exact absurd (List.cons.inj hstart).1 hfirst
    | cons x front =>
      obtain ⟨rfl, hinner⟩ := List.cons.inj hstart
      exact ⟨front, behind, rfl, rfl, hinner⟩
  · have hs : s ∈ [last] := by simp [hend]
    exact absurd (List.mem_singleton.mp hs).symm hlast

end Snippet

/-- A line of the output: how far it is indented, and what stands on it. -/
structure Row where
  depth : Nat
  snippets : List Snippet

def Row.line (r : Row) : String := indent r.depth ++ Snippet.writeAll r.snippets

namespace Markup

mutual

/-- What is written of a tree, the indentation left out. Only what is `spread` over lines has
parentheses, around each template that has more than one line. -/
def snippets (spread : Bool) (d : Dialect) (c : Component) (items : List String) :
    Markup → List Snippet
  | element e => elementSnippets spread d c items false e
  | fragment children _ =>
    .tag "<>" :: (allSnippets (spread && useBlock children) d c items children ++ [.tag "</>"])
  | interpolation e => [.code (inBraces (e.render items))]
  | text s => [.text s]
  | each binding itemType source template =>
    let inner := elementSnippets spread d c (items ++ [binding]) true template
    .code (loopHead d items itemType source) ::
      ((if spread && !onOneLine template then .parenOpen :: (inner ++ [.parenClose]) else inner) ++
        [.code ")\x7d"])

def elementSnippets (spread : Bool) (d : Dialect) (c : Component) (items : List String)
    (keyed : Bool) : Element Markup → List Snippet
  | ⟨tag, attributes, children, selfClosing, _⟩ =>
    let opening := openTag d c items keyed (Names.tag tag) attributes
    if selfClosing then [.tag (opening ++ " />")]
    else
      .tag (opening ++ ">") :: (allSnippets (spread && useBlock children) d c items children ++
        [.tag ("</" ++ Names.tag tag ++ ">")])

def allSnippets (spread : Bool) (d : Dialect) (c : Component) (items : List String) :
    List Markup → List Snippet
  | [] => []
  | m :: ms => snippets spread d c items m ++ allSnippets spread d c items ms

end

mutual

/-- The rows of a tree at `depth`: those of its tags and of its loops there, those of its children
and of its templates one step further in. -/
def rows (d : Dialect) (c : Component) (depth : Nat) (items : List String) : Markup → List Row
  | element e => elementRows d c depth items false e
  | fragment children line =>
    if useBlock children then
      [⟨depth, [.tag "<>"]⟩] ++ allRows d c (depth + 1) items children ++ [⟨depth, [.tag "</>"]⟩]
    else [⟨depth, snippets false d c items (fragment children line)⟩]
  | each binding itemType source template =>
    if onOneLine template then
      [⟨depth, snippets false d c items (each binding itemType source template)⟩]
    else
      [⟨depth, [.code (loopHead d items itemType source), .parenOpen]⟩] ++
        elementRows d c (depth + 1) (items ++ [binding]) true template ++
        [⟨depth, [.parenClose, .code ")\x7d"]⟩]
  | m => [⟨depth, snippets false d c items m⟩]

def elementRows (d : Dialect) (c : Component) (depth : Nat) (items : List String) (keyed : Bool) :
    Element Markup → List Row
  | ⟨tag, attributes, children, selfClosing, line⟩ =>
    if onOneLine ⟨tag, attributes, children, selfClosing, line⟩ then
      [⟨depth, elementSnippets false d c items keyed
        ⟨tag, attributes, children, selfClosing, line⟩⟩]
    else
      [⟨depth, [.tag (openTag d c items keyed (Names.tag tag) attributes ++ ">")]⟩] ++
        allRows d c (depth + 1) items children ++
        [⟨depth, [.tag ("</" ++ Names.tag tag ++ ">")]⟩]

def allRows (d : Dialect) (c : Component) (depth : Nat) (items : List String) :
    List Markup → List Row
  | [] => []
  | m :: ms => rows d c depth items m ++ allRows d c depth items ms

end

mutual

theorem inline_eq_writeAll (d : Dialect) (c : Component) (items : List String) (m : Markup) :
    inline d c items m = Snippet.writeAll (snippets false d c items m) := by
  cases m with
  | element e =>
    rw [inline, snippets]
    exact inlineElement_eq_writeAll d c items false e
  | fragment children line =>
    rw [inline, snippets, inlineAll_eq_writeAll d c items children]
    simp [Snippet.writeAll, Snippet.write, String.append_assoc]
  | interpolation e => simp [inline, snippets, Snippet.writeAll, Snippet.write]
  | text s => simp [inline, snippets, Snippet.writeAll, Snippet.write]
  | each binding itemType source template =>
    rw [inline, snippets, inlineElement_eq_writeAll d c (items ++ [binding]) true template]
    simp [Snippet.writeAll, Snippet.write, String.append_assoc]

theorem inlineElement_eq_writeAll (d : Dialect) (c : Component) (items : List String)
    (keyed : Bool) (e : Element Markup) :
    inlineElement d c items keyed e =
      Snippet.writeAll (elementSnippets false d c items keyed e) := by
  cases e with
  | mk tag attributes children selfClosing line =>
    rw [inlineElement, elementSnippets, inlineAll_eq_writeAll d c items children]
    cases selfClosing <;> simp [Snippet.writeAll, Snippet.write, String.append_assoc]

theorem inlineAll_eq_writeAll (d : Dialect) (c : Component) (items : List String)
    (ms : List Markup) :
    inlineAll d c items ms = Snippet.writeAll (allSnippets false d c items ms) := by
  cases ms with
  | nil => rfl
  | cons m ms =>
    rw [inlineAll, allSnippets, Snippet.writeAll_append, inline_eq_writeAll d c items m,
      inlineAll_eq_writeAll d c items ms]

end

mutual

/-- The lines of a tree are its rows, each at its depth. -/
theorem block_eq_rows (d : Dialect) (c : Component) (depth : Nat) (items : List String)
    (m : Markup) : block d c depth items m = (rows d c depth items m).map Row.line := by
  cases m with
  | element e =>
    rw [block, rows]
    exact blockElement_eq_rows d c depth items false e
  | fragment children line =>
    rw [block, rows, inline_eq_writeAll, blockAll_eq_rows d c (depth + 1) items children]
    split <;> simp [Row.line, Snippet.writeAll, Snippet.write]
  | interpolation e =>
    exact congrArg (fun s => [indent depth ++ s]) (inline_eq_writeAll d c items (interpolation e))
  | text s =>
    exact congrArg (fun s => [indent depth ++ s]) (inline_eq_writeAll d c items (text s))
  | each binding itemType source template =>
    have hinner := blockElement_eq_rows d c (depth + 1) (items ++ [binding]) true template
    have hinline := inline_eq_writeAll d c items (each binding itemType source template)
    rw [inline] at hinline
    rw [block, rows, hinner]
    split
    · simp [Row.line, ← hinline, String.append_assoc]
    · simp [Row.line, Snippet.writeAll, Snippet.write, String.append_assoc]

theorem blockElement_eq_rows (d : Dialect) (c : Component) (depth : Nat) (items : List String)
    (keyed : Bool) (e : Element Markup) :
    blockElement d c depth items keyed e = (elementRows d c depth items keyed e).map Row.line := by
  cases e with
  | mk tag attributes children selfClosing line =>
    rw [blockElement, elementRows, inlineElement_eq_writeAll,
      blockAll_eq_rows d c (depth + 1) items children]
    split <;> simp [Row.line, Snippet.writeAll, Snippet.write, String.append_assoc]

theorem blockAll_eq_rows (d : Dialect) (c : Component) (depth : Nat) (items : List String)
    (ms : List Markup) :
    blockAll d c depth items ms = (allRows d c depth items ms).map Row.line := by
  cases ms with
  | nil => rfl
  | cons m ms =>
    rw [blockAll, allRows, List.map_append, block_eq_rows d c depth items m,
      blockAll_eq_rows d c depth items ms]

end

theorem elementSnippets_onOneLine {e : Element Markup} (h : onOneLine e) (spread : Bool)
    (d : Dialect) (c : Component) (items : List String) (keyed : Bool) :
    elementSnippets spread d c items keyed e = elementSnippets false d c items keyed e := by
  cases e with
  | mk tag attributes children selfClosing line =>
    rw [elementSnippets, elementSnippets]
    cases selfClosing with
    | true => rfl
    | false =>
      have hblock : useBlock children = false := by simpa [onOneLine] using h
      rw [hblock, Bool.and_false, Bool.and_false]

mutual

/-- The rows of a tree, one behind the other, are the tree spread over lines. -/
theorem flatMap_rows (d : Dialect) (c : Component) (depth : Nat) (items : List String)
    (m : Markup) : (rows d c depth items m).flatMap (·.snippets) = snippets true d c items m := by
  cases m with
  | element e =>
    rw [rows, snippets]
    exact flatMap_elementRows d c depth items false e
  | fragment children line =>
    have hinner := flatMap_allRows d c (depth + 1) items children
    rw [rows]
    split
    next hblock => simp [snippets, hblock, hinner]
    next hblock => simp [snippets, hblock]
  | interpolation e => rfl
  | text s => rfl
  | each binding itemType source template =>
    have hinner := flatMap_elementRows d c (depth + 1) (items ++ [binding]) true template
    rw [rows]
    split
    next hline =>
      have hsame := elementSnippets_onOneLine hline true d c (items ++ [binding]) true
      simp [snippets, hline, hsame]
    next hline => simp [snippets, hline, hinner]

theorem flatMap_elementRows (d : Dialect) (c : Component) (depth : Nat) (items : List String)
    (keyed : Bool) (e : Element Markup) :
    (elementRows d c depth items keyed e).flatMap (·.snippets) =
      elementSnippets true d c items keyed e := by
  cases e with
  | mk tag attributes children selfClosing line =>
    have hinner := flatMap_allRows d c (depth + 1) items children
    rw [elementRows]
    split
    next hline =>
      rw [elementSnippets_onOneLine hline true]
      exact List.flatMap_singleton _ _
    next hline =>
      have hblock := useBlock_of_not_onOneLine hline
      have hself : selfClosing = false := by simp_all [onOneLine]
      simp_all [elementSnippets]

theorem flatMap_allRows (d : Dialect) (c : Component) (depth : Nat) (items : List String)
    (ms : List Markup) :
    (allRows d c depth items ms).flatMap (·.snippets) = allSnippets true d c items ms := by
  cases ms with
  | nil => rfl
  | cons m ms =>
    rw [allRows, allSnippets, List.flatMap_append, flatMap_rows d c depth items m,
      flatMap_allRows d c depth items ms]

end

mutual

/-- Without its parentheses a tree that is spread over lines is the tree on one line. -/
theorem filter_snippets (spread : Bool) (d : Dialect) (c : Component) (items : List String)
    (m : Markup) :
    (snippets spread d c items m).filter (!·.isParen) = snippets false d c items m := by
  cases m with
  | element e =>
    rw [snippets, snippets]
    exact filter_elementSnippets spread d c items false e
  | fragment children line =>
    have hinner := filter_allSnippets (spread && useBlock children) d c items children
    simpa [snippets, Snippet.isParen] using hinner
  | interpolation e => rfl
  | text s => rfl
  | each binding itemType source template =>
    have hinner := filter_elementSnippets spread d c (items ++ [binding]) true template
    rw [snippets, snippets]
    split <;> simpa [Snippet.isParen] using hinner

theorem filter_elementSnippets (spread : Bool) (d : Dialect) (c : Component) (items : List String)
    (keyed : Bool) (e : Element Markup) :
    (elementSnippets spread d c items keyed e).filter (!·.isParen) =
      elementSnippets false d c items keyed e := by
  cases e with
  | mk tag attributes children selfClosing line =>
    have hinner := filter_allSnippets (spread && useBlock children) d c items children
    rw [elementSnippets, elementSnippets]
    cases selfClosing with
    | true => rfl
    | false => simpa [Snippet.isParen] using hinner

theorem filter_allSnippets (spread : Bool) (d : Dialect) (c : Component) (items : List String)
    (ms : List Markup) :
    (allSnippets spread d c items ms).filter (!·.isParen) = allSnippets false d c items ms := by
  cases ms with
  | nil => rfl
  | cons m ms =>
    rw [allSnippets, allSnippets, List.filter_append, filter_snippets spread d c items m,
      filter_allSnippets spread d c items ms]

end

theorem length_blockElement (d : Dialect) (c : Component) (depth : Nat) (items : List String)
    (keyed : Bool) (e : Element Markup) :
    (blockElement d c depth items keyed e).length = 1 ↔ onOneLine e := by
  cases e with
  | mk tag attributes children selfClosing line =>
    rw [blockElement]
    split
    next hline => simp [hline]
    next hline => simp [hline]

mutual

/-- The texts of the text nodes of a tree, in their order. -/
def textNodes : Markup → List String
  | element e => elementTextNodes e
  | fragment children _ => allTextNodes children
  | interpolation _ => []
  | text s => [s]
  | each _ _ _ template => elementTextNodes template

def elementTextNodes : Element Markup → List String
  | ⟨_, _, children, _, _⟩ => allTextNodes children

def allTextNodes : List Markup → List String
  | [] => []
  | m :: ms => textNodes m ++ allTextNodes ms

end

/-- No element within a tree is without a closing tag and has children all the same. -/
def Childless (m : Markup) : Prop :=
  ∀ e, Within parts m (.element e) → e.selfClosing → e.children = []

theorem Childless.part {m n : Markup} (h : m.Childless) (hn : n ∈ m.parts) : n.Childless :=
  fun e he => h e (.head hn he)

mutual

/-- Each text node is written once, in its place among the others. -/
theorem texts_snippets (spread : Bool) (d : Dialect) (c : Component) (items : List String)
    (m : Markup) (h : m.Childless) :
    (snippets spread d c items m).filterMap Snippet.text? = m.textNodes := by
  cases m with
  | element e =>
    rw [snippets, textNodes]
    exact texts_elementSnippets spread d c items false e h
  | fragment children line =>
    have hinner := texts_allSnippets (spread && useBlock children) d c items children
      fun n hn => h.part hn
    simpa [snippets, textNodes, List.filterMap_cons, Snippet.text?] using hinner
  | interpolation e => rfl
  | text s => rfl
  | each binding itemType source template =>
    have hinner := texts_elementSnippets spread d c (items ++ [binding]) true template
      (h.part (List.mem_singleton_self _))
    rw [snippets, textNodes]
    split <;> simpa [List.filterMap_cons, Snippet.text?] using hinner

theorem texts_elementSnippets (spread : Bool) (d : Dialect) (c : Component) (items : List String)
    (keyed : Bool) (e : Element Markup) (h : Childless (.element e)) :
    (elementSnippets spread d c items keyed e).filterMap Snippet.text? = elementTextNodes e := by
  cases e with
  | mk tag attributes children selfClosing line =>
    have hinner := texts_allSnippets (spread && useBlock children) d c items children
      fun n hn => h.part hn
    rw [elementSnippets, elementTextNodes]
    cases selfClosing with
    | true =>
      obtain rfl : children = [] := h _ .refl rfl
      rfl
    | false => simpa [List.filterMap_cons, Snippet.text?] using hinner

theorem texts_allSnippets (spread : Bool) (d : Dialect) (c : Component) (items : List String)
    (ms : List Markup) (h : ∀ m ∈ ms, m.Childless) :
    (allSnippets spread d c items ms).filterMap Snippet.text? = allTextNodes ms := by
  cases ms with
  | nil => rfl
  | cons m ms =>
    obtain ⟨hm, hms⟩ := List.forall_mem_cons.mp h
    rw [allSnippets, allTextNodes, List.filterMap_append, texts_snippets spread d c items m hm,
      texts_allSnippets spread d c items ms hms]

end

/-- The tags around the children of an element or a fragment. -/
def tags? (d : Dialect) (c : Component) (items : List String) (keyed : Bool) :
    Markup → Option (String × String)
  | element e =>
    if e.selfClosing then none
    else some (openTag d c items keyed (Names.tag e.tag) e.attributes ++ ">",
      "</" ++ Names.tag e.tag ++ ">")
  | fragment _ _ => some ("<>", "</>")
  | _ => none

/-- A text stands between the tags of its parent within a tree, with the siblings before it in front
of it and those after it behind it. -/
inductive Flanked (d : Dialect) (c : Component) (m : Markup) (s : String) :
    List Snippet → List Snippet → Prop where
  | mk {parent : Markup} {before after : List Markup} {items : List String} {keyed : Bool}
      {opening closing : String} (front behind : List Snippet) :
      Within parts m parent → parent.parts = before ++ text s :: after →
      parent.tags? d c items keyed = some (opening, closing) →
      Flanked d c m s (front ++ .tag opening :: allSnippets false d c items before)
        (allSnippets false d c items after ++ .tag closing :: behind)

section

variable {d : Dialect} {c : Component} {s : String} {front behind : List Snippet}

/-- What is flanked within a part is flanked within the whole, whatever is written around it. -/
theorem Flanked.widen {m n : Markup} (hn : n ∈ m.parts) (h : Flanked d c n s front behind)
    (front' behind' : List Snippet) : Flanked d c m s (front' ++ front) (behind ++ behind') := by
  cases h with
  | mk front behind hparent hparts htags =>
    have hwide := Flanked.mk (front' ++ front) (behind ++ behind') (.head hn hparent) hparts htags
    simpa using hwide

/-- A text that is written by a tree: the tree is that text, or has it between tags. -/
def Placed (d : Dialect) (c : Component) (m : Markup) (s : String) (front behind : List Snippet) :
    Prop := (m = .text s ∧ front = [] ∧ behind = []) ∨ Flanked d c m s front behind

/-- A text that is written by one of some siblings, the others in front of it and behind it. -/
def PlacedAmong (d : Dialect) (c : Component) (items : List String) (ms : List Markup) (s : String)
    (front behind : List Snippet) : Prop :=
  ∃ before n after front' behind', ms = before ++ n :: after ∧
    front = allSnippets false d c items before ++ front' ∧
    behind = behind' ++ allSnippets false d c items after ∧ Placed d c n s front' behind'

theorem Placed.flanked {m : Markup} (h : Placed d c m s front behind) (htext : m.isText = false) :
    Flanked d c m s front behind := by
  rcases h with ⟨rfl, _⟩ | h
  · cases htext
  · exact h

/-- A text found between the tags of a tree is one of its children or flanked within one. -/
theorem flanked_of_children {m : Markup} {items : List String} {keyed : Bool}
    {opening closing : String} (htags : m.tags? d c items keyed = some (opening, closing))
    (h : .tag opening :: (allSnippets false d c items m.parts ++ [.tag closing]) =
      front ++ .text s :: behind)
    (hchildren : ∀ {front behind},
      allSnippets false d c items m.parts = front ++ .text s :: behind →
      PlacedAmong d c items m.parts s front behind) :
    Flanked d c m s front behind := by
  obtain ⟨front, behind, rfl, rfl, hinner⟩ := Snippet.split_between (by simp) (by simp) h
  obtain ⟨before, n, after, front, behind, hparts, rfl, rfl, hplaced⟩ := hchildren hinner
  rcases hplaced with ⟨rfl, rfl, rfl⟩ | hflanked
  · simpa using Flanked.mk [] [] .refl hparts htags
  · have hn : n ∈ m.parts := by simp [hparts]
    simpa using hflanked.widen hn (.tag opening :: allSnippets false d c items before)
      (allSnippets false d c items after ++ [.tag closing])

mutual

/-- A text written by a tree on one line is the tree or between the tags of its parent. -/
theorem placed_snippets (items : List String) (m : Markup) {front behind : List Snippet}
    (h : snippets false d c items m = front ++ .text s :: behind) :
    Placed d c m s front behind := by
  cases m with
  | element e =>
    rw [snippets] at h
    exact .inr (flanked_elementSnippets items false e h)
  | fragment children line =>
    rw [snippets, Bool.false_and] at h
    have htags : tags? d c items false (fragment children line) = some ("<>", "</>") := rfl
    exact .inr (flanked_of_children htags h (placed_allSnippets items children))
  | interpolation e => simp [snippets, List.cons_eq_append_iff] at h
  | text t =>
    cases front with
    | nil =>
      obtain ⟨ht, hbehind⟩ := List.cons.inj h
      exact .inl ⟨congrArg Markup.text (Snippet.text.inj ht), rfl, hbehind.symm⟩
    | cons x front => simp [snippets] at h
  | each binding itemType source template =>
    rw [snippets] at h
    obtain ⟨front, behind, rfl, rfl, hinner⟩ := Snippet.split_between (by simp) (by simp) h
    have hflanked := flanked_elementSnippets (items ++ [binding]) true template hinner
    exact .inr (hflanked.widen (List.mem_singleton_self _) [_] [_])

theorem flanked_elementSnippets (items : List String) (keyed : Bool) (e : Element Markup)
    {front behind : List Snippet}
    (h : elementSnippets false d c items keyed e = front ++ .text s :: behind) :
    Flanked d c (.element e) s front behind := by
  cases e with
  | mk tag attributes children selfClosing line =>
    rw [elementSnippets] at h
    cases selfClosing with
    | true => simp [List.cons_eq_append_iff] at h
    | false =>
      have htags : tags? d c items keyed (element ⟨tag, attributes, children, false, line⟩) =
        some (openTag d c items keyed (Names.tag tag) attributes ++ ">",
          "</" ++ Names.tag tag ++ ">") := rfl
      exact flanked_of_children htags h (placed_allSnippets items children)

theorem placed_allSnippets (items : List String) (ms : List Markup) {front behind : List Snippet}
    (h : allSnippets false d c items ms = front ++ .text s :: behind) :
    PlacedAmong d c items ms s front behind := by
  cases ms with
  | nil => simp [allSnippets] at h
  | cons m ms =>
    rw [allSnippets] at h
    rcases Snippet.split_append h with ⟨behind, hm, rfl⟩ | ⟨front, rfl, hms⟩
    · exact ⟨[], m, ms, front, behind, rfl, rfl, rfl, placed_snippets items m hm⟩
    · obtain ⟨before, n, after, front, behind, rfl, rfl, rfl, hn⟩ :=
        placed_allSnippets items ms hms
      exact ⟨m :: before, n, after, front, behind, rfl, by simp [allSnippets], rfl, hn⟩

end

mutual

/-- A text on a row of a tree that is no text has the tags of its parent on that row. -/
theorem flanked_rows (depth : Nat) (items : List String) (m : Markup) (htext : m.isText = false)
    {r : Row} (hr : r ∈ rows d c depth items m) (h : r.snippets = front ++ .text s :: behind) :
    Flanked d c m s front behind := by
  cases m with
  | element e =>
    rw [rows] at hr
    exact flanked_elementRows depth items false e hr h
  | fragment children line =>
    rw [rows] at hr
    split at hr
    next hblock =>
      simp only [List.mem_append, List.mem_singleton] at hr
      rcases hr with (rfl | hr) | rfl
      · simp [List.cons_eq_append_iff] at h
      -- A child with rows of its own is no text, so what is known of `m` is known of the child.
      · obtain ⟨n, hn, hflanked⟩ := flanked_allRows (depth + 1) items children
          (isText_of_useBlock hblock) hr h
        simpa using hflanked.widen (m := .fragment children line) hn [] []
      · simp [List.cons_eq_append_iff] at h
    next =>
      obtain rfl := List.mem_singleton.mp hr
      exact (placed_snippets items _ h).flanked htext
  | interpolation e =>
    obtain rfl := List.mem_singleton.mp hr
    exact (placed_snippets items (interpolation e) h).flanked htext
  | text s => cases htext
  | each binding itemType source template =>
    rw [rows] at hr
    split at hr
    next =>
      obtain rfl := List.mem_singleton.mp hr
      exact (placed_snippets items _ h).flanked htext
    next =>
      simp only [List.mem_append, List.mem_singleton] at hr
      rcases hr with (rfl | hr) | rfl
      · simp [List.cons_eq_append_iff] at h
      · have hflanked := flanked_elementRows (depth + 1) (items ++ [binding]) true template hr h
        simpa using hflanked.widen (m := .each binding itemType source template)
          (List.mem_singleton_self _) [] []
      · simp [List.cons_eq_append_iff] at h

theorem flanked_elementRows (depth : Nat) (items : List String) (keyed : Bool) (e : Element Markup)
    {r : Row} (hr : r ∈ elementRows d c depth items keyed e)
    (h : r.snippets = front ++ .text s :: behind) : Flanked d c (.element e) s front behind := by
  cases e with
  | mk tag attributes children selfClosing line =>
    rw [elementRows] at hr
    split at hr
    next =>
      obtain rfl := List.mem_singleton.mp hr
      exact flanked_elementSnippets items keyed _ h
    next hline =>
      simp only [List.mem_append, List.mem_singleton] at hr
      rcases hr with (rfl | hr) | rfl
      · simp [List.cons_eq_append_iff] at h
      · obtain ⟨n, hn, hflanked⟩ := flanked_allRows (depth + 1) items children
          (isText_of_useBlock (useBlock_of_not_onOneLine hline)) hr h
        simpa using hflanked.widen
          (m := .element ⟨tag, attributes, children, selfClosing, line⟩) hn [] []
      · simp [List.cons_eq_append_iff] at h

theorem flanked_allRows (depth : Nat) (items : List String) (ms : List Markup)
    (htext : ∀ m ∈ ms, m.isText = false) {r : Row} (hr : r ∈ allRows d c depth items ms)
    (h : r.snippets = front ++ .text s :: behind) : ∃ n ∈ ms, Flanked d c n s front behind := by
  cases ms with
  | nil => cases hr
  | cons m ms =>
    obtain ⟨hm, hms⟩ := List.forall_mem_cons.mp htext
    rw [allRows, List.mem_append] at hr
    rcases hr with hr | hr
    · exact ⟨m, List.mem_cons_self, flanked_rows depth items m hm hr h⟩
    · obtain ⟨n, hn, hflanked⟩ := flanked_allRows depth items ms hms hr h
      exact ⟨n, List.mem_cons_of_mem m hn, hflanked⟩

end

end

/-- The two layouts of a tree say the same: its lines are rows, each indented by the depth of what
it was written for. The rows without indentation, one behind the other, are the tree on one line
with parentheses around each template of more than one line. -/
structure LaidOut (d : Dialect) (c : Component) (depth : Nat) (items : List String) (m : Markup) :
    Prop where
  block : block d c depth items m = (rows d c depth items m).map Row.line
  joined : (rows d c depth items m).flatMap (·.snippets) = snippets true d c items m
  bare : (snippets true d c items m).filter (!·.isParen) = snippets false d c items m
  inline : inline d c items m = Snippet.writeAll (snippets false d c items m)

theorem laidOut (d : Dialect) (c : Component) (depth : Nat) (items : List String) (m : Markup) :
    LaidOut d c depth items m where
  block := block_eq_rows d c depth items m
  joined := flatMap_rows d c depth items m
  bare := filter_snippets true d c items m
  inline := inline_eq_writeAll d c items m

end Markup

namespace Component

/-- Where the texts of a component's tree are in the output: each is written once, and on its line
between the tags of its parent. -/
structure TextsInside (d : Dialect) (c : Component) : Prop where
  lines : (c.markupLines d).map (·.text) = (c.markup.rows d c 2 []).map Row.line
  texts : ((c.markup.rows d c 2 []).flatMap (·.snippets)).filterMap Snippet.text? =
    c.markup.textNodes
  flanked {r : Row} {front behind : List Snippet} {s : String} : r ∈ c.markup.rows d c 2 [] →
    r.snippets = front ++ .text s :: behind → c.markup.Flanked d c s front behind

theorem textsInside_of_ofSource {name source : String} {c : Component}
    (h : Component.ofSource name source = .ok c) (d : Dialect) : c.TextsInside d := by
  obtain ⟨_, hspelled⟩ := spelled_of_ofSource h
  constructor
  · rw [markupLines, texts_block, splitLines_block hspelled, Markup.block_eq_rows]
  · rw [Markup.flatMap_rows]
    exact Markup.texts_snippets true d c [] c.markup fun e he =>
      (tidy_of_ofSource h _ he).childless rfl
  · exact fun hr hsplit => Markup.flanked_rows 2 [] c.markup hspelled.root_isText hr hsplit

end Component

/-- The two layouts of a tree agree but for the indentation and the parentheses around templates of
more than one line, and in a component that is read off a source each text is between the tags of
its parent. -/
theorem layouts_agree :
    (∀ (d : Dialect) (c : Component) (depth : Nat) (items : List String) (m : Markup),
      m.LaidOut d c depth items) ∧
    (∀ (d : Dialect) (c : Component) (depth : Nat) (items : List String) (keyed : Bool)
      (e : Element Markup),
      (Markup.blockElement d c depth items keyed e).length = 1 ↔ Markup.onOneLine e) ∧
    ∀ (name source : String) (c : Component), Component.ofSource name source = .ok c →
      ∀ d, c.TextsInside d :=
  ⟨Markup.laidOut, Markup.length_blockElement,
    fun _ _ _ h d => Component.textsInside_of_ofSource h d⟩

/-- A template of three lines is in parentheses; the text in it is on one line with its parent. -/
theorem layouts_agree_list :
    ∃ c, Component.ofSource "Rows"
        "<ul><each x in xs><li><b>No. \x7bx\x7d</b></li></each></ul>" = .ok c ∧
      (c.markupLines .plain).map (·.text) =
        ["    <ul>",
          "      \x7bxs.map((__item, __index) => (",
          "        <li key=\x7b__index\x7d>",
          "          <b>No. \x7b__item\x7d</b>",
          "        </li>",
          "      ))\x7d",
          "    </ul>"] ∧
      c.markup.textNodes = ["No. "] ∧ c.TextsInside .plain ∧ c.markup.LaidOut .plain c 2 [] := by
  have hread : ((Component.ofSource "Rows"
      "<ul><each x in xs><li><b>No. \x7bx\x7d</b></li></each></ul>").toOption.map fun c =>
      ((c.markupLines .plain).map (·.text), c.markup.textNodes)) =
      some (["    <ul>", "      \x7bxs.map((__item, __index) => (",
        "        <li key=\x7b__index\x7d>", "          <b>No. \x7b__item\x7d</b>",
        "        </li>", "      ))\x7d", "    </ul>"], ["No. "]) := by
    decide +kernel
  obtain ⟨c, hc, hread⟩ := Option.map_eq_some_iff.mp hread
  obtain ⟨hlines, htexts⟩ := Prod.mk.inj hread
  have hsource := eq_ok_of_toOption hc
  exact ⟨c, hsource, hlines, htexts, layouts_agree.2.2 "Rows" _ c hsource .plain,
    layouts_agree.1 .plain c 2 [] c.markup⟩

end Sigil
