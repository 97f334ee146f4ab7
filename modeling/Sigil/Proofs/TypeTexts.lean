import Mathlib.Data.List.Chain
import Sigil.Proofs.LineTexts
import Sigil.Proofs.Readings

namespace Sigil

namespace TypeExpr

mutual

/-- The names in a type, in the order in which they are written. -/
def names : TypeExpr → List String
  | simple name => [name]
  | array element => [element]
  | union members => namesAll members
  | generic name params => name :: namesAll params

def namesAll : List TypeExpr → List String
  | [] => []
  | t :: ts => t.names ++ namesAll ts

end

mutual

/-- The type with every name in its spelling of the output. -/
def respelled : TypeExpr → TypeExpr
  | simple name => simple (typeName name)
  | array element => array (typeName element)
  | union members => union (respelledAll members)
  | generic name params => generic (typeName name) (respelledAll params)

def respelledAll : List TypeExpr → List TypeExpr
  | [] => []
  | t :: ts => t.respelled :: respelledAll ts

end

theorem namesAll_eq_flatMap (ts : List TypeExpr) : namesAll ts = ts.flatMap names := by
  induction ts with
  | nil => rfl
  | cons t ts ih => rw [namesAll, ih, List.flatMap_cons]

theorem respelledAll_eq_map (ts : List TypeExpr) : respelledAll ts = ts.map respelled := by
  induction ts with
  | nil => rfl
  | cons t ts ih => rw [respelledAll, ih, List.map_cons]

end TypeExpr

/-- Whether a name of a type holds neither a single quote nor a backslash between its ends. A
literal has its quotes there, and an identifier holds none anyway. -/
def isPlain (name : String) : Bool :=
  (name.toList.drop 1).dropLast.all fun c => c ≠ '\'' ∧ c ≠ '\\'

/-- What can name a type: an identifier, or the text of a literal in single quotes. -/
inductive NamesType : String → Prop where
  | ident {name : String} : isName name → NamesType name
  | literal {content : String} : OneLine content → NamesType ("'" ++ content ++ "'")

/-- The types that are read. A member of a union, unlike the whole of a type, is no union. -/
inductive TypePhrase (Name : String → Prop) : (isMember : Bool) → TypeExpr → Prop where
  | simple {name : String} : Name name → TypePhrase Name true (.simple name)
  | array {element : String} : Name element → TypePhrase Name true (.array element)
  | generic {name : String} {first : TypeExpr} {others : List TypeExpr} :
      Name name → (∀ t ∈ first :: others, TypePhrase Name false t) →
      TypePhrase Name true (.generic name (first :: others))
  | whole {t : TypeExpr} : TypePhrase Name true t → TypePhrase Name false t
  | union {first second : TypeExpr} {others : List TypeExpr} :
      (∀ t ∈ first :: second :: others, TypePhrase Name true t) →
      TypePhrase Name false (.union (first :: second :: others))

/-- What a type is written with. -/
inductive Mark where
  | name (s : String)
  | bar
  | comma
  | brackets
  | opening
  | closing

namespace Mark

def text : Mark → String
  | name s => s
  | bar => " | "
  | comma => ", "
  | brackets => "[]"
  | opening => "<"
  | closing => ">"

/-- The tokens of a mark. -/
def pieces : Mark → List Piece
  | name s => [if s.toList.head? = some '\'' then ⟨.string, s⟩ else .word s]
  | bar => [.symbol .pipe]
  | comma => [.symbol .comma]
  | brackets => [.symbol .lbracket, .symbol .rbracket]
  | opening => [.symbol .langle]
  | closing => [.symbol .rangle]

def name? : Mark → Option String
  | name s => some s
  | _ => none

/-- Lists of marks with a mark between each two. -/
def separated (m : Mark) : List (List Mark) → List Mark
  | [] => []
  | first :: others => first ++ others.flatMap (m :: ·)

end Mark

namespace TypeExpr

open Mark

mutual

/-- The marks that a type is written with. -/
def marks : TypeExpr → List Mark
  | simple s => [name s]
  | array s => [name s, brackets]
  | union members => separated bar (marksAll members)
  | generic s params => name s :: opening :: (separated comma (marksAll params) ++ [closing])

def marksAll : List TypeExpr → List (List Mark)
  | [] => []
  | t :: ts => t.marks :: marksAll ts

end

theorem marksAll_eq_map (ts : List TypeExpr) : marksAll ts = ts.map marks := by
  induction ts with
  | nil => rfl
  | cons t ts ih => rw [marksAll, ih, List.map_cons]

end TypeExpr

/-- The text of marks in a row. -/
def Mark.textAll (ms : List Mark) : List Char := ms.flatMap (·.text.toList)

namespace TypePhrase

open Mark TypeExpr

variable {Name Name' : String → Prop} {isMember : Bool} {t : TypeExpr}

theorem mono (h : TypePhrase Name isMember t) (hname : ∀ s ∈ t.names, Name s → Name' s) :
    TypePhrase Name' isMember t := by
  induction h with
  | simple hs => exact .simple (hname _ (by simp [names]) hs)
  | array hs => exact .array (hname _ (by simp [names]) hs)
  | generic hs _ ih =>
    rw [names, namesAll_eq_flatMap] at hname
    refine .generic (hname _ List.mem_cons_self hs) fun t ht => ih t ht fun s hs => ?_
    exact hname s (List.mem_cons_of_mem _ (List.mem_flatMap.mpr ⟨t, ht, hs⟩))
  | whole _ ih => exact .whole (ih hname)
  | union _ ih =>
    rw [names, namesAll_eq_flatMap] at hname
    refine .union fun t ht => ih t ht fun s hs => ?_
    exact hname s (List.mem_flatMap.mpr ⟨t, ht, hs⟩)

theorem name_of_mem (h : TypePhrase Name isMember t) : ∀ s ∈ t.names, Name s := by
  induction h with
  | simple hs => simpa [names] using hs
  | array hs => simpa [names] using hs
  | generic hs _ ih =>
    rw [names, namesAll_eq_flatMap]
    refine List.forall_mem_cons.mpr ⟨hs, fun s hs => ?_⟩
    obtain ⟨t, ht, hs⟩ := List.mem_flatMap.mp hs
    exact ih t ht s hs
  | whole _ ih => exact ih
  | union _ ih =>
    rw [names, namesAll_eq_flatMap]
    intro s hs
    obtain ⟨t, ht, hs⟩ := List.mem_flatMap.mp hs
    exact ih t ht s hs

theorem respelled (h : TypePhrase Name isMember t) (hname : ∀ s, Name s → Name' (typeName s)) :
    TypePhrase Name' isMember t.respelled := by
  induction h with
  | simple hs => exact .simple (hname _ hs)
  | array hs => exact .array (hname _ hs)
  | generic hs _ ih =>
    rw [TypeExpr.respelled, respelledAll_eq_map]
    exact .generic (hname _ hs) (List.forall_mem_map.mpr ih)
  | whole _ ih => exact .whole ih
  | union _ ih =>
    rw [TypeExpr.respelled, respelledAll_eq_map]
    exact .union (List.forall_mem_map.mpr ih)

theorem names_respelled (h : TypePhrase Name isMember t) :
    t.respelled.names = t.names.map typeName := by
  have hall {ts : List TypeExpr} (ih : ∀ t ∈ ts, t.respelled.names = t.names.map typeName) :
      namesAll (respelledAll ts) = (namesAll ts).map typeName := by
    rw [respelledAll_eq_map, namesAll_eq_flatMap, namesAll_eq_flatMap, List.flatMap_map,
      List.map_flatMap]
    exact List.flatMap_congr ih
  induction h with
  | simple _ => rfl
  | array _ => rfl
  | generic _ _ ih => rw [TypeExpr.respelled, names, names, hall ih, List.map_cons]
  | whole _ ih => exact ih
  | union _ ih => rw [TypeExpr.respelled, names, names, hall ih]

theorem filterMap_separated (m : Mark) (hm : m.name? = none) (mss : List (List Mark)) :
    (separated m mss).filterMap name? = mss.flatMap (·.filterMap name?) := by
  cases mss with
  | nil => rfl
  | cons ms mss =>
    rw [separated, List.filterMap_append, List.flatMap_cons, List.filterMap_flatMap]
    congr 1
    refine List.flatMap_congr fun ms _ => ?_
    rw [List.filterMap_cons_none hm]

theorem names_marks (h : TypePhrase Name isMember t) : t.marks.filterMap name? = t.names := by
  have hall {m : Mark} (hm : m.name? = none) {ts : List TypeExpr}
      (ih : ∀ t ∈ ts, t.marks.filterMap name? = t.names) :
      (separated m (marksAll ts)).filterMap name? = namesAll ts := by
    rw [filterMap_separated m hm, marksAll_eq_map, namesAll_eq_flatMap, List.flatMap_map]
    exact List.flatMap_congr ih
  induction h with
  | simple _ => rfl
  | array _ => rfl
  | generic _ _ ih =>
    rw [marks, names, ← hall (m := comma) rfl ih]
    change _ :: List.filterMap name? (_ ++ [closing]) = _
    rw [List.filterMap_append]
    exact congrArg _ (List.append_nil _)
  | whole _ ih => exact ih
  | union _ ih => rw [marks, names, hall rfl ih]

theorem separated_cons_cons (m : Mark) (first second : List Mark) (others : List (List Mark)) :
    separated m (first :: second :: others) = first ++ m :: separated m (second :: others) := rfl

theorem toList_joinWith (m : Mark) {ss : List String} {mss : List (List Mark)}
    (h : List.Forall₂ (fun s ms => s.toList = textAll ms) ss mss) :
    (joinWith m.text ss).toList = textAll (separated m mss) := by
  induction h with
  | nil => rfl
  | @cons s ms ss mss hs hss ih =>
    cases hss with
    | nil => simpa [joinWith, separated] using hs
    | @cons s' ms' ss mss _ _ =>
      rw [joinWith, String.toList_append, String.toList_append, hs, ih, separated_cons_cons]
      · simp [textAll]
      · simp

theorem toList_render (h : TypePhrase Name isMember t) :
    t.render.toList = textAll t.respelled.marks := by
  have hall (m : Mark) {ts : List TypeExpr}
      (ih : ∀ t ∈ ts, t.render.toList = textAll t.respelled.marks) :
      (joinWith m.text (renderAll ts)).toList =
        textAll (separated m (marksAll (respelledAll ts))) := by
    refine toList_joinWith m ?_
    rw [renderAll_eq_map, respelledAll_eq_map, marksAll_eq_map, List.map_map,
      List.forall₂_map_left_iff, List.forall₂_map_right_iff]
    exact List.forall₂_same.mpr ih
  induction h with
  | simple _ => simp [render, TypeExpr.respelled, marks, textAll, Mark.text]
  | array _ => simp [render, TypeExpr.respelled, marks, textAll, Mark.text]
  | generic _ _ ih =>
    have hparams := hall comma ih
    change (joinWith ", " _).toList = _ at hparams
    rw [render, TypeExpr.respelled, marks, String.toList_append, String.toList_append, hparams]
    simp [textAll, Mark.text]
  | whole _ ih => exact ih
  | union _ ih => exact hall bar ih

end TypePhrase

/-- At most one of two marks is a name. -/
def Mark.Apart (a b : Mark) : Prop := a.name? = none ∨ b.name? = none

section

open Mark

theorem isChain_append_mark {m : Mark} (hm : m.name? = none) {front back : List Mark}
    (hfront : front.IsChain Apart) (hback : back.IsChain Apart) :
    (front ++ m :: back).IsChain Apart := by
  refine List.isChain_append.mpr ⟨hfront, List.isChain_cons.mpr ⟨fun _ _ => .inl hm, hback⟩, ?_⟩
  intro a _ b hb
  cases hb
  exact .inr hm

theorem isChain_separated {m : Mark} (hm : m.name? = none) {mss : List (List Mark)}
    (h : ∀ ms ∈ mss, ms.IsChain Apart) : (separated m mss).IsChain Apart := by
  induction mss with
  | nil => exact .nil
  | cons first others ih =>
    obtain ⟨hfirst, hothers⟩ := List.forall_mem_cons.mp h
    cases others with
    | nil => simpa [separated] using hfirst
    | cons second others =>
      rw [TypePhrase.separated_cons_cons]
      exact isChain_append_mark hm hfirst (ih hothers)

/-- Between two names in a type something else is written. -/
theorem TypePhrase.isChain_marks {Name : String → Prop} {isMember : Bool} {t : TypeExpr}
    (h : TypePhrase Name isMember t) : t.marks.IsChain Apart := by
  have hall {m : Mark} (hm : m.name? = none) {ts : List TypeExpr}
      (ih : ∀ t ∈ ts, t.marks.IsChain Apart) :
      (separated m (TypeExpr.marksAll ts)).IsChain Apart := by
    rw [TypeExpr.marksAll_eq_map]
    exact isChain_separated hm (List.forall_mem_map.mpr ih)
  induction h with
  | simple _ => exact .singleton _
  | array _ => exact List.isChain_pair.mpr (.inr rfl)
  | generic _ _ ih =>
    have hparams := isChain_append_mark (m := closing) rfl (hall (m := comma) rfl ih) .nil
    exact isChain_append_mark (m := opening) rfl (.singleton (name _)) hparams
  | whole _ ih => exact ih
  | union _ ih => exact hall rfl ih

end

theorem toList_literal (content : String) :
    ("'" ++ content ++ "'").toList = '\'' :: (content.toList ++ ['\'']) := by
  simp

theorem isPlain_literal (content : String) :
    isPlain ("'" ++ content ++ "'") = true ↔ ∀ c ∈ content.toList, c ≠ '\'' ∧ c ≠ '\\' := by
  unfold isPlain
  rw [toList_literal, List.drop_one, List.tail_cons, List.dropLast_concat, List.all_eq_true]
  simp

theorem isPlain_of_isName {name : String} (h : isName name) : isPlain name = true := by
  unfold isName at h
  unfold isPlain
  split at h
  next => cases h
  next c cs hs =>
    rw [Bool.and_eq_true, List.all_eq_true] at h
    rw [hs, List.drop_one, List.tail_cons, List.all_eq_true]
    intro d hd
    have hd := h.2 d (List.mem_of_mem_dropLast hd)
    simpa using ⟨ne_of_class hd rfl, ne_of_class hd rfl⟩

theorem quoted_of_plain {cs : List Char} (hplain : ∀ c ∈ cs, c ≠ '\'' ∧ c ≠ '\\')
    (hline : '\n' ∉ cs) : Quoted '\'' cs := by
  induction cs with
  | nil => exact .nil
  | cons c cs ih =>
    obtain ⟨hc, hcs⟩ := List.forall_mem_cons.mp hplain
    rw [List.mem_cons, not_or] at hline
    exact .plain hc.1 hc.2 (Ne.symm hline.1) (ih hcs hline.2)

theorem unescape_of_plain {cs : List Char} (h : '\\' ∉ cs) : Token.unescape cs = cs := by
  induction cs with
  | nil => rfl
  | cons c cs ih =>
    rw [List.mem_cons, not_or] at h
    have hc := Ne.symm h.1
    rw [Token.unescape, ih h.2] <;> simp [hc]

namespace Scans

variable {c : Char} {cs rest : List Char} {ps : List Piece}

theorem skip_iff {n : Nat} (h : Front.read c cs = .skipped n) :
    Scans (c :: cs) ps ↔ Scans (cs.drop n) ps := by
  refine ⟨fun hs => ?_, .skip h⟩
  cases hs with
  | skip h' hs =>
    rw [h] at h'
    cases h'
    exact hs
  | token h' hs =>
    rw [h] at h'
    cases h'

theorem token_append_iff {kind : Kind}
    (h : Front.read c (cs ++ rest) = .token kind cs.length) :
    Scans (c :: (cs ++ rest)) ps ↔
      ∃ qs, ps = ⟨kind, String.ofList (c :: cs)⟩ :: qs ∧ Scans rest qs := by
  refine ⟨fun hs => ?_, ?_⟩
  · cases hs with
    | skip h' hs =>
      rw [h] at h'
      cases h'
    | token h' hs =>
      rw [h] at h'
      cases h'
      rw [List.drop_left] at hs
      rw [List.take_left]
      exact ⟨_, rfl, hs⟩
  · rintro ⟨qs, rfl, hs⟩
    exact token_append h hs

theorem symbol_iff {s : Symbol} (h : Front.read c rest = .token (.symbol s) 0)
    (hs : s.text = String.ofList [c]) :
    Scans (c :: rest) ps ↔ ∃ qs, ps = .symbol s :: qs ∧ Scans rest qs := by
  have htoken : Scans (c :: ([] ++ rest)) ps ↔ _ := token_append_iff h
  rw [← hs] at htoken
  exact htoken

end Scans

/-- A name that is read again as it is written. -/
def Rereadable (name : String) : Prop := NamesType name ∧ isPlain name = true

namespace Mark

variable {rest : List Char} {ps : List Piece}

theorem scans_ident_iff {s : String} (hs : isName s)
    (hrest : ∀ c ∈ rest.head?, isWordPart c = false) :
    Scans (s.toList ++ rest) ps ↔ ∃ qs, ps = .word s :: qs ∧ Scans rest qs := by
  unfold isName at hs
  split at hs
  next => cases hs
  next c cs htext =>
    rw [Bool.and_eq_true, List.all_eq_true] at hs
    have hread := Front.read_of_isWordStart hs.1 (cs ++ rest)
    rw [Front.takeWhile_append_of_stop hs.2 hrest] at hread
    have hiff : Scans (c :: (cs ++ rest)) ps ↔ _ := Scans.token_append_iff hread
    rwa [← htext, String.ofList_toList, ← List.cons_append, ← htext] at hiff

theorem scans_literal_iff {content : String} (hline : OneLine content)
    (hplain : ∀ c ∈ content.toList, c ≠ '\'' ∧ c ≠ '\\') :
    Scans (("'" ++ content ++ "'").toList ++ rest) ps ↔
      ∃ qs, ps = ⟨.string, "'" ++ content ++ "'"⟩ :: qs ∧ Scans rest qs := by
  have hextent := Front.stringExtent_of_quoted (by decide) (quoted_of_plain hplain hline) rest
  have hread : Front.read '\'' (content.toList ++ ['\''] ++ rest) =
      .token .string (content.toList ++ ['\'']).length := by
    rw [Front.read_of_quote (.inr rfl), List.append_assoc, List.singleton_append, hextent,
      List.length_append]
    rfl
  have hiff : Scans ('\'' :: (content.toList ++ ['\''] ++ rest)) ps ↔ _ :=
    Scans.token_append_iff hread
  rwa [← toList_literal, String.ofList_toList, ← List.cons_append, ← toList_literal] at hiff

theorem pieces_ident {s : String} (hs : isName s) : (name s).pieces = [.word s] := by
  rw [pieces, if_neg]
  unfold isName at hs
  split at hs
  next => cases hs
  next c cs htext =>
    rw [Bool.and_eq_true] at hs
    rw [htext]
    exact fun h => ne_of_class hs.1 rfl (Option.some.inj h)

theorem pieces_literal (content : String) :
    (name ("'" ++ content ++ "'")).pieces = [⟨.string, "'" ++ content ++ "'"⟩] := by
  rw [pieces, if_pos]
  rw [toList_literal]
  rfl

/-- A mark is read as its tokens, whatever is read behind it. -/
theorem scans_iff (m : Mark) (hname : ∀ s ∈ m.name?, Rereadable s)
    (hrest : m.name? ≠ none → ∀ c ∈ rest.head?, isWordPart c = false) :
    Scans (m.text.toList ++ rest) ps ↔ ∃ qs, ps = m.pieces ++ qs ∧ Scans rest qs := by
  cases m with
  | name s =>
    obtain ⟨hs, hplain⟩ := hname s rfl
    cases hs with
    | ident hs =>
      rw [pieces_ident hs]
      exact scans_ident_iff hs (hrest (by simp [name?]))
    | @literal content hline =>
      rw [pieces_literal]
      exact scans_literal_iff hline ((isPlain_literal content).mp hplain)
  | bar =>
    change Scans (' ' :: '|' :: ' ' :: rest) ps ↔ _
    rw [Scans.skip_iff (n := 0) rfl, List.drop_zero, Scans.symbol_iff (s := .pipe) rfl rfl]
    exact exists_congr fun qs => and_congr_right fun _ => Scans.skip_iff (n := 0) rfl
  | comma =>
    change Scans (',' :: ' ' :: rest) ps ↔ _
    rw [Scans.symbol_iff (s := .comma) rfl rfl]
    exact exists_congr fun qs => and_congr_right fun _ => Scans.skip_iff (n := 0) rfl
  | brackets =>
    change Scans ('[' :: ']' :: rest) ps ↔ _
    rw [Scans.symbol_iff (s := .lbracket) rfl rfl]
    simp only [Scans.symbol_iff (c := ']') (s := .rbracket) rfl rfl]
    refine ⟨?_, ?_⟩
    · rintro ⟨_, rfl, qs, rfl, hqs⟩
      exact ⟨qs, rfl, hqs⟩
    · rintro ⟨qs, rfl, hqs⟩
      exact ⟨_, rfl, qs, rfl, hqs⟩
  | opening => exact Scans.symbol_iff rfl rfl
  | closing => exact Scans.symbol_iff rfl rfl

/-- What is written behind a name of a type is no part of a word. -/
theorem noWord_textAll {m : Mark} {ms : List Mark} (h : (m :: ms).IsChain Apart)
    (hm : m.name? ≠ none) (hrest : ∀ c ∈ rest.head?, isWordPart c = false) :
    ∀ c ∈ (textAll ms ++ rest).head?, isWordPart c = false := by
  cases ms with
  | nil => exact hrest
  | cons next ms =>
    have hnext : next.name? = none := (List.isChain_cons_cons.mp h).1.resolve_left hm
    intro c hc
    cases next with
    | name s => cases hnext
    | bar | comma | brackets | opening | closing => cases hc; rfl

/-- Marks are read as their tokens, whatever is read behind them. -/
theorem scansAll_iff {ms : List Mark} (hchain : ms.IsChain Apart)
    (hnames : ∀ s ∈ ms.filterMap name?, Rereadable s)
    (hrest : ∀ c ∈ rest.head?, isWordPart c = false) :
    Scans (textAll ms ++ rest) ps ↔ ∃ qs, ps = ms.flatMap pieces ++ qs ∧ Scans rest qs := by
  induction ms generalizing ps with
  | nil => simp [textAll]
  | cons m ms ih =>
    have hm : ∀ s ∈ m.name?, Rereadable s := fun s hs =>
      hnames s (List.mem_filterMap.mpr ⟨m, List.mem_cons_self, hs⟩)
    have hms : ∀ s ∈ ms.filterMap name?, Rereadable s := by
      intro s hs
      obtain ⟨m', hm', hs⟩ := List.mem_filterMap.mp hs
      exact hnames s (List.mem_filterMap.mpr ⟨m', List.mem_cons_of_mem m hm', hs⟩)
    have htail := List.IsChain.tail hchain
    have htext : textAll (m :: ms) ++ rest = m.text.toList ++ (textAll ms ++ rest) := by
      rw [textAll, List.flatMap_cons, List.append_assoc]
      rfl
    rw [htext, scans_iff m hm (fun hname => noWord_textAll hchain hname hrest)]
    simp only [ih htail hms, List.flatMap_cons]
    refine ⟨?_, ?_⟩
    · rintro ⟨_, rfl, qs, rfl, hqs⟩
      exact ⟨qs, (List.append_assoc _ _ _).symm, hqs⟩
    · rintro ⟨qs, rfl, hqs⟩
      exact ⟨_, List.append_assoc _ _ _, qs, rfl, hqs⟩

end Mark

section

variable {quote : Char} {body rest : List Char}

/-- Backslashes before a quoted text are not made up for when it is unescaped. -/
theorem not_prefix_of_slashes (hquote : quote ≠ '\\') (h : Quoted quote body)
    (slashes : List Char) (hslashes : ∀ c ∈ slashes, c = '\\') (hne : slashes ≠ []) :
    ¬ slashes ++ body ++ [quote] <+: Token.unescape body ++ quote :: rest := by
  induction h generalizing slashes with
  | nil =>
    intro hfront
    obtain ⟨c, more, rfl⟩ := List.exists_cons_of_ne_nil hne
    have hc := (List.cons_prefix_cons.mp hfront).1
    exact hquote (hc ▸ hslashes c List.mem_cons_self)
  | @plain c cs _ hslash _ _ _ =>
    intro hfront
    obtain ⟨d, more, rfl⟩ := List.exists_cons_of_ne_nil hne
    rw [Token.unescape] at hfront
    · have hd := (List.cons_prefix_cons.mp hfront).1
      exact hslash (hd ▸ hslashes d List.mem_cons_self)
    · simp [hslash]
    · simp [hslash]
  | @escaped c cs _ _ ih =>
    intro hfront
    obtain ⟨d, more, rfl⟩ := List.exists_cons_of_ne_nil hne
    obtain ⟨rfl, hmore⟩ := List.forall_mem_cons.mp hslashes
    rw [Token.unescape] at hfront
    obtain ⟨rfl, hfront⟩ := List.cons_prefix_cons.mp hfront
    -- Both characters of the escape are backslashes, which join those before them.
    refine ih (more ++ ['\\', '\\']) ?_ (by simp) ?_
    · exact List.forall_mem_append.mpr ⟨hmore, by simp⟩
    · simpa using hfront

/-- A quoted text that stands where its own content is written in quotes holds no escapes. -/
theorem plain_of_prefix_unescape (hquote : quote ≠ '\\') (h : Quoted quote body)
    (hfront : body ++ [quote] <+: Token.unescape body ++ quote :: rest) :
    Token.unescape body = body ∧ ∀ c ∈ body, c ≠ quote ∧ c ≠ '\\' := by
  induction h with
  | nil => simp [Token.unescape]
  | @plain c cs hc hslash _ _ ih =>
    have hunescape : Token.unescape (c :: cs) = c :: Token.unescape cs := by
      rw [Token.unescape] <;> simp [hslash]
    rw [hunescape] at hfront ⊢
    obtain ⟨hcs, hplain⟩ := ih (List.cons_prefix_cons.mp hfront).2
    exact ⟨congrArg _ hcs, List.forall_mem_cons.mpr ⟨⟨hc, hslash⟩, hplain⟩⟩
  | @escaped c cs _ hcs _ =>
    rw [Token.unescape, List.cons_append] at hfront
    obtain ⟨rfl, hfront⟩ := List.cons_prefix_cons.mp hfront
    exact absurd hfront (not_prefix_of_slashes hquote hcs ['\\'] (by simp) (by simp))

end

/-- What starts with a quote is read as a string that goes up to another one. -/
theorem Scans.quote_cases {cs : List Char} {ps : List Piece} (h : Scans ('\'' :: cs) ps) :
    ∃ body qs, Quoted '\'' body ∧ body ++ ['\''] <+: cs ∧
      ps = ⟨.string, String.ofList ('\'' :: (body ++ ['\'']))⟩ :: qs := by
  cases h with
  | skip hread _ =>
    rw [Front.read_of_quote (.inr rfl)] at hread
    split at hread <;> cases hread
  | @token _ _ kind n qs hread _ =>
    rw [Front.read_of_quote (.inr rfl)] at hread
    split at hread
    next m hextent =>
      cases hread
      obtain ⟨body, hbody, htake⟩ := Front.quoted_of_stringExtent hextent
      exact ⟨body, qs, hbody, htake ▸ List.take_prefix _ _, by rw [htake]⟩
    next => cases hread

end Sigil
