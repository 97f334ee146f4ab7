import Mathlib.Data.List.Forall2
import Sigil.Expr.Render
import Sigil.Proofs.Phrases

namespace Sigil

/-- A token apart from its place. -/
structure Piece where
  kind : Kind
  text : String
deriving DecidableEq, Repr

namespace Piece

def symbol (s : Symbol) : Piece := ⟨.symbol s, s.text⟩

def word (s : String) : Piece := ⟨.ident, s⟩

/-- Lists of pieces with a comma between each two. -/
def commaSeparated : List (List Piece) → List Piece
  | [] => []
  | [ps] => ps
  | ps :: others => ps ++ symbol .comma :: commaSeparated others

theorem commaSeparated_cons_cons (ps qs : List Piece) (others : List (List Piece)) :
    commaSeparated (ps :: qs :: others) = ps ++ symbol .comma :: commaSeparated (qs :: others) :=
  rfl

end Piece

def BinaryOp.symbol : BinaryOp → Symbol
  | add => .plus
  | sub => .minus
  | mul => .star
  | div => .slash

def UpdateOp.symbol : UpdateOp → Symbol
  | increment => .plusPlus
  | decrement => .minusMinus
  | addAssign => .plusEq

theorem BinaryOp.symbol_text (op : BinaryOp) : op.symbol.text = op.text := by
  cases op <;> rfl

theorem UpdateOp.symbol_text (op : UpdateOp) : op.symbol.text = op.text := by
  cases op <;> rfl

open Piece in
/-- The tokens of a literal. The minus sign of a number is one of its own. -/
def Literal.pieces : Literal → List Piece
  | string s => [⟨.string, quote s⟩]
  | number s =>
    match s.toList with
    | '-' :: ds => [symbol .minus, ⟨.number, String.ofList ds⟩]
    | _ => [⟨.number, s⟩]
  | boolean b => [word (if b then "true" else "false")]
  | null => [word "null"]
  | undefined => [word "undefined"]

namespace Expr

open Piece

mutual

/-- The tokens of an expression. -/
def pieces : Expr → List Piece
  | literal l => l.pieces
  | ident name => [word name]
  | binary op left right => left.pieces ++ symbol op.symbol :: right.pieces
  | update target op none => [word target, symbol op.symbol]
  | update target op (some value) => word target :: symbol op.symbol :: value.pieces
  | member object property => object.pieces ++ [symbol .dot, word property]
  | method object name args =>
    object.pieces ++ symbol .dot :: word name :: symbol .lparen ::
      (commaSeparated (piecesAll args) ++ [symbol .rparen])
  | call callee args =>
    word callee :: symbol .lparen :: (commaSeparated (piecesAll args) ++ [symbol .rparen])
  | arrow params body =>
    symbol .lparen :: (commaSeparated (params.map fun p => [word p]) ++
      symbol .rparen :: symbol .fatArrow :: body.pieces)
  | array elements =>
    symbol .lbracket :: (commaSeparated (piecesAll elements) ++ [symbol .rbracket])
  | spread inner => symbol .ellipsis :: inner.pieces

def piecesAll : List Expr → List (List Piece)
  | [] => []
  | e :: es => e.pieces :: piecesAll es

end

end Expr

/-- The tokens that characters are read as, whatever their place. -/
inductive Scans : List Char → List Piece → Prop where
  | nil : Scans [] []
  | skip {c : Char} {cs : List Char} {n : Nat} {ps : List Piece} :
      Front.read c cs = .skipped n → Scans (cs.drop n) ps → Scans (c :: cs) ps
  | token {c : Char} {cs : List Char} {kind : Kind} {n : Nat} {ps : List Piece} :
      Front.read c cs = .token kind n → Scans (cs.drop n) ps →
      Scans (c :: cs) (⟨kind, String.ofList (c :: cs.take n)⟩ :: ps)

namespace Front

theorem isBlank_of_isWordPart {c : Char} (h : isWordPart c) : isBlank c = false := by
  by_contra hb
  simp only [isBlank, Bool.not_eq_false, Bool.or_eq_true, beq_iff_eq] at hb
  rcases hb with (rfl | rfl) | rfl <;> exact absurd h (by decide)

theorem isWordPart_of_isDigit {c : Char} (h : c.isDigit) : isWordPart c := by
  simp [isWordPart, Char.isAlphanum, h]

theorem isWordPart_of_isWordStart {c : Char} (h : isWordStart c) : isWordPart c := by
  simp only [isWordStart, Bool.or_eq_true] at h
  rcases h with h | h <;> simp [isWordPart, Char.isAlphanum, h]

theorem not_isDigit_of_isWordStart {c : Char} (h : isWordStart c) : c.isDigit = false := by
  by_contra hd
  delta isWordStart Char.isAlpha Char.isUpper Char.isLower at h
  simp only [Char.isDigit, Bool.not_eq_false, Bool.or_eq_true, Bool.and_eq_true,
    decide_eq_true_eq, beq_iff_eq, ge_iff_le, UInt32.le_iff_toNat_le] at h hd
  have hnine : '9'.val.toNat = 57 := rfl
  have hupper : 'A'.val.toNat = 65 := rfl
  have hlower : 'a'.val.toNat = 97 := rfl
  rcases h with (h | h) | rfl
  · omega
  · omega
  · exact absurd hd (by decide)

/-- A character of a word starts neither a comment nor a line nor a string. -/
theorem isWordPart_ne {c : Char} (h : isWordPart c) :
    c ≠ '/' ∧ c ≠ '\n' ∧ ¬ (c = '"' ∨ c = '\'') := by
  refine ⟨ne_of_class h rfl, ne_of_class h rfl, ?_⟩
  exact not_or.mpr ⟨ne_of_class h rfl, ne_of_class h rfl⟩

theorem read_of_isDigit {c : Char} (h : c.isDigit) (cs : List Char) :
    read c cs = .token .number (numberExtent cs) := by
  have hw := isWordPart_of_isDigit h
  obtain ⟨hslash, hnewline, hquote⟩ := isWordPart_ne hw
  simp [read, isBlank_of_isWordPart hw, hslash, hnewline, hquote, h]

theorem read_of_isWordStart {c : Char} (h : isWordStart c) (cs : List Char) :
    read c cs = .token .ident (cs.takeWhile isWordPart).length := by
  have hw := isWordPart_of_isWordStart h
  obtain ⟨hslash, hnewline, hquote⟩ := isWordPart_ne hw
  simp [read, isBlank_of_isWordPart hw, hslash, hnewline, hquote, not_isDigit_of_isWordStart h, h]

theorem read_blank (cs : List Char) : read ' ' cs = .skipped 0 := rfl

theorem takeWhile_append_of_stop {p : Char → Bool} {cs rest : List Char} (hcs : ∀ c ∈ cs, p c)
    (hrest : ∀ c ∈ rest.head?, p c = false) : (cs ++ rest).takeWhile p = cs := by
  rw [List.takeWhile_append_of_pos hcs]
  cases rest with
  | nil => simp
  | cons c rest => simp [hrest c (by simp)]

theorem dropWhile_append_of_stop {p : Char → Bool} {cs rest : List Char} (hcs : ∀ c ∈ cs, p c)
    (hrest : ∀ c ∈ rest.head?, p c = false) : (cs ++ rest).dropWhile p = rest := by
  rw [List.dropWhile_append_of_pos hcs]
  cases rest with
  | nil => rfl
  | cons c rest => simp [hrest c (by simp)]

/-- The digits of a number end where neither a digit nor a point follows. -/
theorem numberExtent_append {whole fraction rest : List Char} (hwhole : ∀ c ∈ whole, c.isDigit)
    (hfraction : IsFraction fraction) (hrest : ∀ c ∈ rest.head?, c.isDigit = false ∧ c ≠ '.') :
    numberExtent (whole ++ fraction ++ rest) = (whole ++ fraction).length := by
  have hdigit : ∀ c ∈ rest.head?, c.isDigit = false := fun c hc => (hrest c hc).1
  rcases hfraction with rfl | ⟨d, ds, rfl, hd, hds⟩
  · rw [List.append_nil]
    unfold numberExtent
    rw [takeWhile_append_of_stop hwhole hdigit, dropWhile_append_of_stop hwhole hdigit]
    split
    next d rest => exact absurd rfl (hrest '.' (by simp)).2
    next => rfl
  · have hpoint : ∀ c ∈ ('.' :: d :: ds ++ rest).head?, c.isDigit = false := by
      intro c hc
      cases hc
      rfl
    unfold numberExtent
    rw [List.append_assoc, takeWhile_append_of_stop hwhole hpoint,
      dropWhile_append_of_stop hwhole hpoint]
    simp only [List.cons_append, hd, ↓reduceIte, takeWhile_append_of_stop hds hdigit,
      List.length_append, List.length_cons]
    omega

theorem stringExtent_quoted (cs rest : List Char) :
    stringExtent '\'' (cs.flatMap quotedChar ++ '\'' :: rest) =
      ((cs.flatMap quotedChar).length + 1, true) := by
  induction cs with
  | nil => rfl
  | cons c cs ih =>
    rw [List.flatMap_cons, List.append_assoc]
    by_cases hquote : c = '\''
    · subst c
      simp [quotedChar, stringExtent, ih]
    · by_cases hslash : c = '\\'
      · subst c
        simp [quotedChar, stringExtent, ih]
      · by_cases hline : c = '\n'
        · subst c
          simp [quotedChar, stringExtent, ih]
        · simp [quotedChar, stringExtent, ih, hquote, hslash, hline]

end Front

theorem Token.unescape_quoted {cs : List Char} (h : '\n' ∉ cs) :
    unescape (cs.flatMap quotedChar) = cs := by
  induction cs with
  | nil => rfl
  | cons c cs ih =>
    have hc : c ≠ '\n' := fun hc => h (by simp [hc])
    have hcs := ih fun hm => h (by simp [hm])
    rw [List.flatMap_cons]
    by_cases hquote : c = '\''
    · simp [quotedChar, unescape, hquote, hcs]
    · by_cases hslash : c = '\\'
      · simp [quotedChar, unescape, hslash, hcs]
      · simp [quotedChar, unescape, hquote, hslash, hc, hcs]

theorem toList_quote (s : String) :
    (quote s).toList = '\'' :: (s.toList.flatMap quotedChar ++ ['\'']) := by
  simp [quote]

namespace Scans

theorem blank {cs : List Char} {ps : List Piece} (h : Scans cs ps) : Scans (' ' :: cs) ps :=
  .skip (Front.read_blank cs) h

theorem token_append {c : Char} {cs rest : List Char} {kind : Kind} {ps : List Piece}
    (hread : Front.read c (cs ++ rest) = .token kind cs.length) (h : Scans rest ps) :
    Scans (c :: (cs ++ rest)) (⟨kind, String.ofList (c :: cs)⟩ :: ps) := by
  have hdrop : (cs ++ rest).drop cs.length = rest := List.drop_left
  have htake : (cs ++ rest).take cs.length = cs := List.take_left
  have htoken := Scans.token hread (hdrop.symm ▸ h)
  rwa [htake] at htoken

theorem word {name : String} {rest : List Char} {ps : List Piece} (hname : isName name)
    (hrest : ∀ c ∈ rest.head?, isWordPart c = false) (h : Scans rest ps) :
    Scans (name.toList ++ rest) (.word name :: ps) := by
  unfold isName at hname
  split at hname
  next => cases hname
  next c cs hs =>
    rw [Bool.and_eq_true, List.all_eq_true] at hname
    have hread := Front.read_of_isWordStart hname.1 (cs ++ rest)
    rw [Front.takeWhile_append_of_stop hname.2 hrest] at hread
    have htoken := token_append hread h
    rwa [← hs, String.ofList_toList, ← List.cons_append, ← hs] at htoken

theorem numeral {cs rest : List Char} {ps : List Piece} (hcs : IsNumeral cs)
    (hrest : ∀ c ∈ rest.head?, isWordPart c = false ∧ c ≠ '.') (h : Scans rest ps) :
    Scans (cs ++ rest) (⟨.number, String.ofList cs⟩ :: ps) := by
  obtain ⟨d, whole, fraction, rfl, hd, hwhole, hfraction⟩ := hcs
  have hstop : ∀ c ∈ rest.head?, c.isDigit = false ∧ c ≠ '.' := by
    intro c hc
    refine ⟨?_, (hrest c hc).2⟩
    by_contra hdigit
    rw [Bool.not_eq_false] at hdigit
    exact absurd (Front.isWordPart_of_isDigit hdigit) (by simp [(hrest c hc).1])
  have hread := Front.read_of_isDigit hd (whole ++ fraction ++ rest)
  rw [Front.numberExtent_append hwhole hfraction hstop] at hread
  exact token_append hread h

theorem quote (s : String) {rest : List Char} {ps : List Piece} (h : Scans rest ps) :
    Scans ((Sigil.quote s).toList ++ rest) (⟨.string, Sigil.quote s⟩ :: ps) := by
  have hread : Front.read '\'' ((s.toList.flatMap quotedChar ++ ['\'']) ++ rest) =
      .token .string (s.toList.flatMap quotedChar ++ ['\'']).length := by
    have hextent := Front.stringExtent_quoted s.toList rest
    rw [List.append_assoc, List.singleton_append]
    simp [Front.read, isBlank, hextent]
  have htoken := token_append hread h
  rwa [← toList_quote, String.ofList_toList, ← List.cons_append, ← toList_quote] at htoken

end Scans

/-- What the first character of a symbol is not. -/
theorem Symbol.text_eq_cons (s : Symbol) :
    ∃ c cs, s.text.toList = c :: cs ∧ isBlank c = false ∧ c ≠ '\n' ∧ ¬ (c = '"' ∨ c = '\'') ∧
      c.isDigit = false ∧ isWordStart c = false ∧ (c = '/' → s = .slash) := by
  cases s <;> exact ⟨_, _, rfl, by decide⟩

/-- A symbol at the front is the token there, unless a comment starts. -/
theorem Front.read_of_atFront {s : Symbol} {c : Char} {cs : List Char}
    (h : Symbol.atFront? (c :: cs) = some s) (hcomment : ¬ (c = '/' ∧ cs.head? = some '/')) :
    read c cs = .token (.symbol s) (s.text.length - 1) := by
  obtain ⟨d, ds, hs, hblank, hline, hquote, hdigit, hword, _⟩ := s.text_eq_cons
  have hfound := List.find?_some h
  have hfront := List.isPrefixOf_iff_prefix.mp hfound
  rw [hs] at hfront
  obtain rfl := (List.cons_prefix_cons.mp hfront).1
  unfold read
  rw [if_neg (by simp [hblank]), if_neg hcomment, if_neg hline, if_neg hquote,
    if_neg (by simp [hdigit]), if_neg (by simp [hword]), h]

theorem Scans.symbol {s : Symbol} {rest : List Char} {ps : List Piece}
    (hfront : Symbol.atFront? (s.text.toList ++ rest) = some s)
    (hcomment : s = .slash → rest.head? ≠ some '/') (h : Scans rest ps) :
    Scans (s.text.toList ++ rest) (.symbol s :: ps) := by
  obtain ⟨c, cs, hs, _, _, _, _, _, hslash⟩ := s.text_eq_cons
  rw [hs, List.cons_append] at hfront
  have hlength : s.text.length - 1 = cs.length := by
    rw [← String.length_toList, hs]
    simp
  have hnot : ¬ (c = '/' ∧ (cs ++ rest).head? = some '/') := by
    rintro ⟨rfl, hhead⟩
    have hself := hslash rfl
    subst s
    have hcs : cs = [] := by simpa [Symbol.text] using hs.symm
    subst cs
    exact hcomment rfl (by simpa using hhead)
  have hread := Front.read_of_atFront hfront hnot
  rw [hlength] at hread
  have htoken := Scans.token_append hread h
  rwa [← hs, String.ofList_toList, ← List.cons_append, ← hs] at htoken

/-- Whether a text in the role ends before `rest`: no word goes on there, and a point only behind an
object. -/
def Role.EndsBefore (role : Role) (rest : List Char) : Prop :=
  ∀ c ∈ rest.head?, isWordPart c = false ∧ (role.isObject ∨ c ≠ '.')

/-- The text is read as the pieces wherever it stands before something that ends it. -/
def Spells (role : Role) (text : String) (ps : List Piece) : Prop :=
  ∀ rest qs, role.EndsBefore rest → Scans rest qs → Scans (text.toList ++ rest) (ps ++ qs)

theorem Role.endsBefore_cons {c : Char} (role : Role) (rest : List Char)
    (hc : isWordPart c = false ∧ c ≠ '.') : role.EndsBefore (c :: rest) := by
  intro d hd
  cases hd
  exact ⟨hc.1, .inr hc.2⟩

theorem noWord_cons {c : Char} (hc : isWordPart c = false) (rest : List Char) :
    ∀ d ∈ (c :: rest).head?, isWordPart d = false := by
  intro d hd
  cases hd
  exact hc

theorem Role.EndsBefore.noWord {role : Role} {rest : List Char} (h : role.EndsBefore rest) :
    ∀ c ∈ rest.head?, isWordPart c = false :=
  fun c hc => (h c hc).1

theorem spells_word {role : Role} {name : String} (h : isName name) :
    Spells role name [.word name] :=
  fun _ _ hrest hscan => .word h hrest.noWord hscan

theorem spells_joinWith {texts : List String} {pss : List (List Piece)}
    (h : List.Forall₂ (Spells .entry) texts pss) :
    Spells .entry (joinWith ", " texts) (Piece.commaSeparated pss) := by
  induction h with
  | nil => exact fun rest qs _ hscan => hscan
  | @cons text ps texts pss hfirst hothers ih =>
    cases hothers with
    | nil => exact hfirst
    | @cons text' ps' texts pss _ _ =>
      intro rest qs hrest hscan
      have hcomma : Scans (',' :: ' ' :: ((joinWith ", " (text' :: texts)).toList ++ rest))
          (.symbol .comma :: (Piece.commaSeparated (ps' :: pss) ++ qs)) :=
        Scans.symbol (s := .comma) rfl (by simp) (ih rest qs hrest hscan).blank
      have hall := hfirst _ _ (Role.endsBefore_cons _ _ (by decide)) hcomma
      simpa [joinWith, Piece.commaSeparated] using hall

theorem spells_params {params : List String} (h : ∀ p ∈ params, isName p) :
    Spells .entry (joinWith ", " params)
      (Piece.commaSeparated (params.map fun p => [Piece.word p])) := by
  refine spells_joinWith ?_
  rw [List.forall₂_map_right_iff, List.forall₂_same]
  exact fun p hp => spells_word (h p hp)

theorem spells_entries {es : List Expr} (h : ∀ e ∈ es, Spells .entry (e.render []) e.pieces) :
    Spells .entry (joinWith ", " (Expr.renderAll [] es))
      (Piece.commaSeparated (Expr.piecesAll es)) := by
  refine spells_joinWith ?_
  induction es with
  | nil => exact .nil
  | cons e es ih =>
    obtain ⟨hfirst, hothers⟩ := List.forall_mem_cons.mp h
    exact .cons hfirst (ih hothers)

theorem Literal.pieces_minus {s : String} {ds : List Char} (hs : s.toList = '-' :: ds) :
    (number s).pieces = [.symbol .minus, ⟨.number, String.ofList ds⟩] := by
  simp [pieces, hs]

theorem Literal.pieces_numeral {s : String} (h : IsNumeral s.toList) :
    (number s).pieces = [⟨.number, s⟩] := by
  obtain ⟨d, whole, fraction, hs, hd, -, -⟩ := h
  have hminus : d ≠ '-' := ne_of_class hd rfl
  simp [pieces, hs, hminus]

theorem Literal.spells {l : Literal} (h : l.Spelled) : Spells .operand l.render l.pieces := by
  intro rest qs hrest hscan
  have hnumber : ∀ c ∈ rest.head?, isWordPart c = false ∧ c ≠ '.' :=
    fun c hc => (hrest c hc).imp_right fun hc => hc.resolve_left (by decide)
  cases l with
  | string s => exact .quote s hscan
  | number s =>
    rcases h with h | ⟨ds, hs, h⟩
    · rw [Literal.pieces_numeral h]
      have htoken := Scans.numeral h hnumber hscan
      rwa [String.ofList_toList] at htoken
    · have htoken := Scans.numeral h hnumber hscan
      have hfront : Symbol.atFront? (Symbol.minus.text.toList ++ (ds ++ rest)) = some .minus := by
        obtain ⟨d, whole, fraction, rfl, hd, -, -⟩ := h
        have hminus : '-' ≠ d := (ne_of_class hd rfl).symm
        simp [Symbol.atFront?, Symbol.all, Symbol.text, hminus]
      have hall := Scans.symbol hfront (by simp) htoken
      rw [Literal.pieces_minus hs]
      simpa [Literal.render, hs, Symbol.text] using hall
  | boolean b => cases b <;> exact spells_word (by decide) rest qs hrest hscan
  | null => exact spells_word (by decide) rest qs hrest hscan
  | undefined => exact spells_word (by decide) rest qs hrest hscan

theorem BinaryOp.atFront (op : BinaryOp) (rest : List Char) :
    Symbol.atFront? (op.symbol.text.toList ++ ' ' :: rest) = some op.symbol := by
  cases op <;> rfl

theorem UpdateOp.atFront (op : UpdateOp) (rest : List Char) :
    Symbol.atFront? (op.symbol.text.toList ++ rest) = some op.symbol := by
  cases op <;> rfl

theorem UpdateOp.symbol_ne_slash (op : UpdateOp) : op.symbol ≠ .slash := by
  cases op <;> decide

/-- A dot before a name is read as itself. -/
theorem Scans.dot {name : String} {rest : List Char} {ps : List Piece} (hname : isName name)
    (h : Scans (name.toList ++ rest) ps) :
    Scans ('.' :: (name.toList ++ rest)) (.symbol .dot :: ps) := by
  refine Scans.symbol (s := .dot) ?_ (by simp) h
  unfold isName at hname
  split at hname
  next => cases hname
  next c cs hs =>
    rw [Bool.and_eq_true] at hname
    have hdot : '.' ≠ c := (ne_of_class hname.1 rfl).symm
    simp [Symbol.atFront?, Symbol.all, Symbol.text, hs, hdot]

/-- What stands in parentheses behind a name. -/
theorem spells_arguments {es : List Expr} (h : ∀ e ∈ es, Spells .entry (e.render []) e.pieces)
    {rest : List Char} {qs : List Piece} (hscan : Scans rest qs) :
    Scans ('(' :: ((joinWith ", " (Expr.renderAll [] es)).toList ++ ')' :: rest))
      (.symbol .lparen :: (Piece.commaSeparated (Expr.piecesAll es) ++ .symbol .rparen :: qs)) := by
  have hclose : Scans (')' :: rest) (.symbol .rparen :: qs) :=
    Scans.symbol (s := .rparen) rfl (by simp) hscan
  have hinner := spells_entries h _ _ (Role.endsBefore_cons _ _ (by decide)) hclose
  exact Scans.symbol (s := .lparen) rfl (by simp) hinner

theorem isVariable_isName {s : String} (h : isVariable s) : isName s := by
  rw [isVariable, Bool.and_eq_true] at h
  exact h.1

theorem Phrase.spells {role : Role} {e : Expr} (h : Phrase role e) :
    Spells role (e.render []) e.pieces := by
  -- What follows the text is general in `Spells`: each form puts its own last token before it.
  induction h with
  | source hname => exact spells_word hname
  | ident hname => exact spells_word (isVariable_isName hname)
  | @call callee args hname _ ih =>
    intro rest qs hrest hscan
    have hargs := spells_arguments ih hscan
    have hall := Scans.word (isVariable_isName hname) (noWord_cons rfl _) hargs
    simpa [Expr.render, Expr.pieces, renderName] using hall
  | @array elements _ ih =>
    intro rest qs hrest hscan
    have hclose : Scans (']' :: rest) (.symbol .rbracket :: qs) :=
      Scans.symbol (s := .rbracket) rfl (by simp) hscan
    have hinner := spells_entries ih _ _ (Role.endsBefore_cons _ _ (by decide)) hclose
    have hall : Scans ('[' :: ((joinWith ", " (Expr.renderAll [] elements)).toList ++ ']' :: rest))
        (.symbol .lbracket :: (Piece.commaSeparated (Expr.piecesAll elements) ++
          .symbol .rbracket :: qs)) :=
      Scans.symbol (s := .lbracket) rfl (by simp) hinner
    simpa [Expr.render, Expr.pieces] using hall
  | @member role object property hrole _ hname ih =>
    intro rest qs hrest hscan
    have hproperty := Scans.dot hname (Scans.word hname hrest.noWord hscan)
    have hdot : role.EndsBefore ('.' :: (property.toList ++ rest)) := by
      intro c hc
      cases hc
      exact ⟨by decide, .inl hrole⟩
    have hall := ih _ _ hdot hproperty
    simpa [Expr.render, Expr.pieces] using hall
  | @method role object name args hrole _ hname _ ih ihargs =>
    intro rest qs hrest hscan
    have hargs := spells_arguments ihargs hscan
    have hname' := Scans.dot hname (Scans.word hname (noWord_cons rfl _) hargs)
    have hdot : role.EndsBefore ('.' :: (name.toList ++
        '(' :: ((joinWith ", " (Expr.renderAll [] args)).toList ++ ')' :: rest))) := by
      intro c hc
      cases hc
      exact ⟨by decide, .inl hrole⟩
    have hall := ih _ _ hdot hname'
    simpa [Expr.render, Expr.pieces] using hall
  | chain _ ih => exact fun rest qs hrest => ih rest qs fun c hc => ⟨(hrest c hc).1, .inl rfl⟩
  | literal hl => exact Literal.spells hl
  | operand _ ih => exact ih
  | @binary op left right _ _ ihl ihr =>
    intro rest qs hrest hscan
    have hright := (ihr rest qs hrest hscan).blank
    have hop := (Scans.symbol (op.atFront _) (by simp) hright).blank
    have hall := ihl _ _ (Role.endsBefore_cons _ _ (by decide)) hop
    simpa [Expr.render, Expr.pieces, op.symbol_text] using hall
  | @step target op hname _ =>
    intro rest qs hrest hscan
    have hop := Scans.symbol (op.atFront rest) (fun h => absurd h op.symbol_ne_slash) hscan
    have hend : ∀ c ∈ (op.symbol.text.toList ++ rest).head?, isWordPart c = false := by
      cases op <;> exact noWord_cons rfl _
    have hall := Scans.word (isVariable_isName hname) hend hop
    simpa [Expr.render, Expr.pieces, renderName, op.symbol_text] using hall
  | @assign target value hname _ ih =>
    intro rest qs hrest hscan
    have hvalue := (ih rest qs hrest hscan).blank
    have hop := Scans.symbol (UpdateOp.addAssign.atFront _) (by simp [UpdateOp.symbol]) hvalue
    have hall := Scans.word (isVariable_isName hname) (noWord_cons rfl _) hop.blank
    simpa [Expr.render, Expr.pieces, renderName, UpdateOp.symbol_text] using hall
  | @arrow params body hparams _ ih =>
    intro rest qs hrest hscan
    have hbody := (ih rest qs hrest hscan).blank
    have harrow : Scans (' ' :: '=' :: '>' :: ' ' :: ((body.render []).toList ++ rest))
        (.symbol .fatArrow :: (body.pieces ++ qs)) :=
      (Scans.symbol (s := .fatArrow) rfl (by simp) hbody).blank
    have hclose : Scans (')' :: ' ' :: '=' :: '>' :: ' ' :: ((body.render []).toList ++ rest))
        (.symbol .rparen :: .symbol .fatArrow :: (body.pieces ++ qs)) :=
      Scans.symbol (s := .rparen) rfl (by simp) harrow
    have hinner := spells_params hparams _ _ (Role.endsBefore_cons _ _ (by decide)) hclose
    have hall : Scans ('(' :: ((joinWith ", " params).toList ++
          ')' :: ' ' :: '=' :: '>' :: ' ' :: ((body.render []).toList ++ rest)))
        (.symbol .lparen :: (Piece.commaSeparated (params.map fun p => [Piece.word p]) ++
          .symbol .rparen :: .symbol .fatArrow :: (body.pieces ++ qs))) :=
      Scans.symbol (s := .lparen) rfl (by simp) hinner
    simpa [Expr.render, Expr.pieces, renderParams, shadow] using hall
  | whole _ ih => exact ih
  | @spread e _ ih =>
    intro rest qs hrest hscan
    have hall : Scans ('.' :: '.' :: '.' :: ((e.render []).toList ++ rest))
        (.symbol .ellipsis :: (e.pieces ++ qs)) :=
      Scans.symbol (s := .ellipsis) rfl (by simp) (ih rest qs hrest hscan)
    simpa [Expr.render, Expr.pieces] using hall

end Sigil
