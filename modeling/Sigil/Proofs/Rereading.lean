import Sigil.Proofs.Pieces

namespace Sigil

def Token.piece (t : Token) : Piece := ⟨t.kind, t.text⟩

def Lexeme.piece (t : Lexeme) : Piece := ⟨t.kind, t.text⟩

theorem Front.read_token_ne_stop {c : Char} {cs : List Char} {kind : Kind} {n : Nat}
    (h : read c cs = .token kind n) : kind ≠ .stop := by
  rcases read_token_cases h with ⟨rfl, -⟩ | ⟨rfl, -⟩ | ⟨rfl, -⟩ | ⟨rfl, -⟩ | ⟨s, rfl, -⟩ <;> simp

/-- Characters that are read as pieces are scanned into tokens of those pieces and a stop. -/
theorem Scans.scanFrom {cs : List Char} {ps : List Piece} (h : Scans cs ps) (p : Point) :
    ∃ body stop, Token.scanFrom p cs = (body ++ [stop]).map .ok ∧ body.map Token.piece = ps ∧
      stop.isEnd ∧ ∀ t ∈ body, t.isEnd = false := by
  induction h generalizing p with
  | nil => exact ⟨[], .ofChars .stop [] p, by rw [Token.scanFrom]; rfl, rfl, rfl, by simp⟩
  | @skip c cs n ps hread _ ih =>
    obtain ⟨body, stop, hscan, hbody, hstop, hends⟩ := ih (p.after (c :: cs.take n))
    refine ⟨body, stop, ?_, hbody, hstop, hends⟩
    rw [Token.scanFrom, hread]
    exact hscan
  | @token c cs kind n ps hread _ ih =>
    obtain ⟨body, stop, hscan, hbody, hstop, hends⟩ := ih (p.after (c :: cs.take n))
    refine ⟨.ofChars kind (c :: cs.take n) p :: body, stop, ?_, ?_, hstop, ?_⟩
    · rw [Token.scanFrom, hread]
      simp [hscan]
    · simp [Token.piece, Token.ofChars, hbody]
    · intro t ht
      rcases List.mem_cons.mp ht with rfl | ht
      · simp [Token.isEnd, Token.ofChars, Front.read_token_ne_stop hread]
      · exact hends t ht

/-- Tokens are cut at the first that ends them, whatever stands behind it. -/
theorem Input.ofTokens_append_end {body : List Token} {stop : Token} (hstop : stop.isEnd)
    (hbody : ∀ t ∈ body, t.isEnd = false) (behind : List Token) :
    Input.ofTokens (body ++ stop :: behind) = ⟨body, stop.place⟩ := by
  have hfind : (body ++ stop :: behind).find? (·.isEnd) = some stop := by
    have hnone : body.find? (·.isEnd) = none := by simpa using hbody
    simp [List.find?_append, hnone, hstop]
  have htake : (body ++ stop :: behind).takeWhile (!·.isEnd) = body := by
    rw [List.takeWhile_append_of_pos (by simpa using hbody)]
    simp [hstop]
  simp [Input.ofTokens, hfind, htake]

theorem Input.ofTokens_append_stop {body : List Token} {stop : Token} (hstop : stop.isEnd)
    (hbody : ∀ t ∈ body, t.isEnd = false) :
    Input.ofTokens (body ++ [stop]) = ⟨body, stop.place⟩ :=
  ofTokens_append_end hstop hbody []

theorem Lexeme.arrange_piece (before : Option Nat) (ts : List Token) :
    (arrange before ts).map Lexeme.piece = ts.map Token.piece := by
  induction ts generalizing before with
  | nil => rfl
  | cons t ts ih => simp [arrange, ih, Lexeme.piece, Token.piece]

/-- A text that is read as pieces is tokenized into them, with nothing behind them but a stop. -/
theorem Scans.tokenize {s : String} {ps : List Piece} (h : Scans s.toList ps) :
    ∃ body stop, Token.tokenize s = .ok (body ++ [stop]) ∧ stop.isEnd ∧
      (Input.ofTokens (body ++ [stop])).body = body ∧
      (Input.ofTokens (body ++ [stop])).lexemes.map Lexeme.piece = ps := by
  obtain ⟨body, stop, hscan, hbody, hstop, hends⟩ := h.scanFrom .start
  have hinput := Input.ofTokens_append_stop hstop hends
  refine ⟨body, stop, Token.tokenize_eq_ok_iff.mpr hscan, hstop, by rw [hinput], ?_⟩
  rw [hinput, Input.lexemes, Lexeme.arrange_piece, hbody]

/-- The lexemes have the spellings of the pieces, and the values that go with them. -/
structure ReadAs (ts : List Lexeme) (ps : List Piece) : Prop where
  pieces : ts.map Lexeme.piece = ps
  values : ∀ t ∈ ts, t.value = Token.valueOf t.kind t.text.toList

namespace ReadAs

theorem nil {ts : List Lexeme} (h : ReadAs ts []) : ts = [] :=
  List.map_eq_nil_iff.mp h.pieces

theorem cons {ts : List Lexeme} {p : Piece} {ps : List Piece} (h : ReadAs ts (p :: ps)) :
    ∃ t others, ts = t :: others ∧ t.kind = p.kind ∧ t.text = p.text ∧
      t.value = Token.valueOf t.kind t.text.toList ∧ ReadAs others ps := by
  obtain ⟨t, others, rfl, hp, hps⟩ := List.map_eq_cons_iff.mp h.pieces
  obtain ⟨hvalue, hvalues⟩ := List.forall_mem_cons.mp h.values
  exact ⟨t, others, rfl, congrArg Piece.kind hp, congrArg Piece.text hp, hvalue, hps, hvalues⟩

theorem symbol {ts : List Lexeme} {s : Symbol} {ps : List Piece}
    (h : ReadAs ts (.symbol s :: ps)) :
    ∃ t others, ts = t :: others ∧ t.kind = .symbol s ∧ ReadAs others ps := by
  obtain ⟨t, others, rfl, hk, -, -, ho⟩ := h.cons
  exact ⟨t, others, rfl, hk, ho⟩

theorem word {ts : List Lexeme} {w : String} {ps : List Piece} (h : ReadAs ts (.word w :: ps)) :
    ∃ t others, ts = t :: others ∧ t.kind = .ident ∧ t.text = w ∧ ReadAs others ps := by
  obtain ⟨t, others, rfl, hk, ht, -, ho⟩ := h.cons
  exact ⟨t, others, rfl, hk, ht, ho⟩

/-- What stands before a last symbol. -/
theorem enclosed {ts : List Lexeme} {s : Symbol} {ps : List Piece}
    (h : ReadAs ts (ps ++ [.symbol s])) :
    ∃ inner t, ts = inner ++ [t] ∧ ReadAs inner ps ∧ t.kind = .symbol s := by
  obtain ⟨inner, back, hts, hinner, hback⟩ := List.map_eq_append_iff.mp h.pieces
  obtain ⟨t, rfl, ht⟩ := List.map_eq_singleton_iff.mp hback
  subst ts
  refine ⟨inner, t, rfl, ⟨hinner, fun x hx => h.values x (by simp [hx])⟩, congrArg Piece.kind ht⟩

theorem append {ts : List Lexeme} {ps qs : List Piece} (h : ReadAs ts (ps ++ qs)) :
    ∃ front back, ts = front ++ back ∧ ReadAs front ps ∧ ReadAs back qs := by
  obtain ⟨front, back, rfl, hps, hqs⟩ := List.map_eq_append_iff.mp h.pieces
  obtain ⟨hfront, hback⟩ := List.forall_mem_append.mp h.values
  exact ⟨front, back, rfl, ⟨hps, hfront⟩, hqs, hback⟩

theorem singleton {ts : List Lexeme} {p : Piece} (h : ReadAs ts [p]) :
    ∃ t, ts = [t] ∧ t.kind = p.kind ∧ t.text = p.text ∧
      t.value = Token.valueOf t.kind t.text.toList := by
  obtain ⟨t, others, rfl, hk, ht, hv, ho⟩ := h.cons
  exact ⟨t, by rw [ho.nil], hk, ht, hv⟩

end ReadAs

/-- The kinds that an expression starts with. -/
def Kind.opensExpr : Kind → Bool
  | .string | .number | .ident | .symbol .minus | .symbol .lbracket | .symbol .lparen => true
  | _ => false

/-- The kinds that an expression ends before. -/
def Kind.closesExpr : Kind → Bool
  | .stop | .symbol .comma | .symbol .rparen | .symbol .rbracket => true
  | _ => false

theorem Literal.pieces_eq_cons (l : Literal) :
    ∃ p ps, l.pieces = p :: ps ∧ p.kind.opensExpr := by
  unfold Literal.pieces
  split
  · exact ⟨_, _, rfl, rfl⟩
  · split <;> exact ⟨_, _, rfl, rfl⟩
  · exact ⟨_, _, rfl, rfl⟩
  · exact ⟨_, _, rfl, rfl⟩
  · exact ⟨_, _, rfl, rfl⟩

theorem Phrase.pieces_eq_cons {role : Role} {e : Expr} (h : Phrase role e) (hrole : role ≠ .entry) :
    ∃ p ps, e.pieces = p :: ps ∧ p.kind.opensExpr := by
  induction h with
  | source _ => exact ⟨_, _, rfl, rfl⟩
  | ident _ => exact ⟨_, _, rfl, rfl⟩
  | call _ _ _ => exact ⟨_, _, by rw [Expr.pieces], rfl⟩
  | array _ _ => exact ⟨_, _, by rw [Expr.pieces], rfl⟩
  | member _ _ _ ih =>
    obtain ⟨p, ps, hp, hk⟩ := ih hrole
    exact ⟨p, _, by rw [Expr.pieces, hp, List.cons_append], hk⟩
  | method _ _ _ _ ih _ =>
    obtain ⟨p, ps, hp, hk⟩ := ih hrole
    exact ⟨p, _, by rw [Expr.pieces, hp, List.cons_append], hk⟩
  | chain _ ih => exact ih (by simp)
  | @literal l _ => exact l.pieces_eq_cons
  | operand _ ih => exact ih (by simp)
  | binary _ _ ihl _ =>
    obtain ⟨p, ps, hp, hk⟩ := ihl (by simp)
    exact ⟨p, _, by rw [Expr.pieces, hp, List.cons_append], hk⟩
  | step _ _ => exact ⟨_, _, by rw [Expr.pieces], rfl⟩
  | assign _ _ _ => exact ⟨_, _, by rw [Expr.pieces], rfl⟩
  | arrow _ _ _ => exact ⟨_, _, by rw [Expr.pieces], rfl⟩
  | whole _ _ => exact absurd rfl hrole
  | spread _ _ => exact absurd rfl hrole

namespace Rule

open Sigil.Parser

/-- The rule reads back every expression whose lexemes, with all behind them, are fewer than `n`. -/
def Rereads (part : Rule Expr) (n : Nat) : Prop :=
  ∀ ⦃e ts rest⦄, Phrase .whole e → ReadAs ts e.pieces → (kindAt 0 rest).closesExpr →
    (ts ++ rest).length < n → part (ts ++ rest) = .ok (e, rest)

variable {part : Rule Expr} {n : Nat} {e : Expr} {ts rest : List Lexeme}

theorem kindAt_of_readAs {p : Piece} {ps : List Piece} (rest : List Lexeme)
    (h : ReadAs ts (p :: ps)) : kindAt 0 (ts ++ rest) = p.kind := by
  obtain ⟨t, others, rfl, hk, -⟩ := h.cons
  exact hk

theorem opensExpr_of_phrase (rest : List Lexeme) (h : Phrase .whole e) (hts : ReadAs ts e.pieces) :
    (kindAt 0 (ts ++ rest)).opensExpr := by
  obtain ⟨p, ps, hp, hk⟩ := h.pieces_eq_cons (by simp)
  rw [hp] at hts
  rwa [kindAt_of_readAs rest hts]

theorem entry_kind (rest : List Lexeme) (h : Phrase .entry e) (hts : ReadAs ts e.pieces) :
    (kindAt 0 (ts ++ rest)).opensExpr ∨ kindAt 0 (ts ++ rest) = .symbol .ellipsis := by
  rcases h.entry_cases with h | ⟨inner, rfl, h⟩
  · exact .inl (opensExpr_of_phrase rest h hts)
  · rw [Expr.pieces] at hts
    exact .inr (kindAt_of_readAs rest hts)

theorem listItem_reread (hpart : Rereads part n) (h : Phrase .entry e) (hts : ReadAs ts e.pieces)
    (hrest : (kindAt 0 rest).closesExpr) (hlen : (ts ++ rest).length < n) :
    listItem part (ts ++ rest) = .ok (e, rest) := by
  unfold listItem
  rcases h.entry_cases with h | ⟨inner, rfl, hinner⟩
  · have hopen := opensExpr_of_phrase rest h hts
    have hspread : kindAt 0 (ts ++ rest) ≠ .symbol .ellipsis := ne_of_class hopen rfl
    rw [bind_of_ok (eat_of_ne hspread)]
    exact hpart h hts hrest hlen
  · rw [Expr.pieces] at hts
    obtain ⟨t, others, rfl, ht, hothers⟩ := hts.symbol
    rw [List.cons_append, List.length_cons] at hlen
    rw [List.cons_append, bind_of_ok (eat_cons ht)]
    simp only [↓reduceIte]
    rw [bind_of_ok (hpart hinner hothers hrest (by omega))]
    rfl

/-- Whether a list ends with the symbol. -/
def closesList (close : Symbol) : Prop := close = .rparen ∨ close = .rbracket

theorem closesExpr_of_closesList {close : Symbol} {t : Lexeme} (rest : List Lexeme)
    (hclose : closesList close) (ht : t.kind = .symbol close) :
    (kindAt 0 (t :: rest)).closesExpr := by
  change t.kind.closesExpr
  rw [ht]
  rcases hclose with rfl | rfl <;> rfl

/-- A round of a list reads its next entry and looks at what follows it. -/
theorem listRound_reread {close : Symbol} (hpart : Rereads part n) (hclose : closesList close)
    (h : Phrase .entry e) (hts : ReadAs ts e.pieces) (hrest : (kindAt 0 rest).closesExpr)
    (hlen : (ts ++ rest).length < n) :
    listRound part close (ts ++ rest) =
      (do
        if ← eat (.symbol .comma) then return .more e
        expect (.symbol close)
        return .last e : Rule (Round Expr)) rest := by
  have hkind := entry_kind rest h hts
  have hline : kindAt 0 (ts ++ rest) ≠ .newline := by
    intro hk
    simp [hk, Kind.opensExpr] at hkind
  have hmore : kindAt 0 (ts ++ rest) ≠ .symbol close := by
    intro hk
    rcases hclose with rfl | rfl <;> simp [hk, Kind.opensExpr] at hkind
  have hend : kindAt 0 rest ≠ .newline := ne_of_class hrest rfl
  unfold listRound
  rw [bind_of_ok (skipNewlines_of_ne hline), bind_of_ok (eat_of_ne hmore)]
  simp only [Bool.false_eq_true, ↓reduceIte]
  rw [bind_of_ok (listItem_reread hpart h hts hrest hlen), bind_of_ok (skipNewlines_of_ne hend)]

theorem listRounds_reread {close : Symbol} {es : List Expr} {t : Lexeme} (hpart : Rereads part n)
    (hclose : closesList close) (hes : ∀ e ∈ es, Phrase .entry e)
    (hts : ReadAs ts (Piece.commaSeparated (Expr.piecesAll es))) (ht : t.kind = .symbol close)
    (hlen : (ts ++ t :: rest).length < n) :
    many (listRound part close) (ts ++ t :: rest) = .ok (es, rest) := by
  have hend := closesExpr_of_closesList rest hclose ht
  induction es generalizing ts with
  | nil =>
    rw [Expr.piecesAll, Piece.commaSeparated] at hts
    cases hts.nil
    have hline : kindAt 0 (t :: rest) ≠ .newline := ne_of_class hend rfl
    refine many_of_stop ?_
    unfold listRound
    rw [List.nil_append, bind_of_ok (skipNewlines_of_ne hline), bind_of_ok (eat_cons ht)]
    rfl
  | cons e es ih =>
    obtain ⟨he, hothers⟩ := List.forall_mem_cons.mp hes
    -- Only the last entry is followed by the closing symbol, the others by a comma.
    cases es with
    | nil =>
      have hround := listRound_reread hpart hclose he hts hend hlen
      have hcomma : kindAt 0 (t :: rest) ≠ .symbol .comma := by
        change t.kind ≠ _
        rw [ht]
        rcases hclose with rfl | rfl <;> simp
      rw [bind_of_ok (eat_of_ne hcomma)] at hround
      simp only [Bool.false_eq_true, ↓reduceIte] at hround
      rw [bind_of_ok (expect_cons ht)] at hround
      exact many_of_last hround
    | cons e' es =>
      rw [Expr.piecesAll, Expr.piecesAll, Piece.commaSeparated_cons_cons, ← Expr.piecesAll] at hts
      obtain ⟨front, back, rfl, hfront, hback⟩ := hts.append
      obtain ⟨comma, others, rfl, hk, hrestAs⟩ := hback.symbol
      have hcomma : (kindAt 0 (comma :: (others ++ t :: rest))).closesExpr := by
        change comma.kind.closesExpr
        rw [hk]
        rfl
      rw [List.append_assoc, List.cons_append] at hlen ⊢
      have hround := listRound_reread hpart hclose he hfront hcomma hlen
      rw [bind_of_ok (eat_cons hk)] at hround
      have hshorter : (others ++ t :: rest).length <
          (front ++ comma :: (others ++ t :: rest)).length := by
        simp only [List.length_append, List.length_cons]
        omega
      exact many_of_more hround hshorter (ih hothers hrestAs (by omega))

/-- A list is read back with the symbols around it. -/
theorem list_reread {opening close : Symbol} {es : List Expr} (hpart : Rereads part n)
    (hclose : closesList close) (hes : ∀ e ∈ es, Phrase .entry e)
    (hts : ReadAs ts
      (.symbol opening :: (Piece.commaSeparated (Expr.piecesAll es) ++ [.symbol close])))
    (hlen : (ts ++ rest).length ≤ n) : list part opening close (ts ++ rest) = .ok (es, rest) := by
  obtain ⟨first, _, rfl, hfirst, hopened⟩ := hts.symbol
  obtain ⟨inner, last, rfl, hinner, hlast⟩ := hopened.enclosed
  have htail : first :: (inner ++ [last]) ++ rest = first :: (inner ++ last :: rest) := by simp
  rw [htail] at hlen ⊢
  unfold list
  rw [bind_of_ok (expect_cons hfirst)]
  exact listRounds_reread hpart hclose hes hinner hlast hlen

end Rule

namespace Suffix

open Piece

/-- The tokens of a dot and what follows it. -/
def pieces : Suffix → List Piece
  | member property => [symbol .dot, word property]
  | method name args =>
    symbol .dot :: word name :: symbol .lparen ::
      (commaSeparated (Expr.piecesAll args) ++ [symbol .rparen])

theorem pieces_eq_cons (s : Suffix) : ∃ ps, s.pieces = symbol .dot :: ps := by
  cases s <;> exact ⟨_, rfl⟩

theorem pieces_apply (object : Expr) (s : Suffix) :
    (s.apply object).pieces = object.pieces ++ s.pieces := by
  cases s <;> simp [apply, pieces, Expr.pieces]

end Suffix

/-- What members are read off: a variable, a call or an array. -/
inductive Phrase.Base : Expr → Prop where
  | ident {name : String} : isVariable name → Base (.ident name)
  | call {callee : String} {args : List Expr} :
      isVariable callee → (∀ e ∈ args, Phrase .entry e) → Base (.call callee args)
  | array {elements : List Expr} : (∀ e ∈ elements, Phrase .entry e) → Base (.array elements)

/-- The expression is a base with suffixes behind it, in its tokens too. -/
def Phrase.IsChain (e : Expr) : Prop :=
  ∃ (base : Expr) (suffixes : List Suffix), Phrase.Base base ∧ (∀ s ∈ suffixes, s.Spelled) ∧
    e = suffixes.foldl Suffix.apply base ∧
    e.pieces = base.pieces ++ suffixes.flatMap Suffix.pieces

theorem Phrase.Base.isChain {e : Expr} (h : Phrase.Base e) : Phrase.IsChain e :=
  ⟨e, [], h, by simp, rfl, by simp⟩

theorem Phrase.IsChain.apply {object : Expr} {s : Suffix} (ho : Phrase.IsChain object)
    (hs : s.Spelled) : Phrase.IsChain (s.apply object) := by
  obtain ⟨base, suffixes, hbase, hall, he, hp⟩ := ho
  refine ⟨base, suffixes ++ [s], hbase, ?_, by simp [← he], ?_⟩
  · exact List.forall_mem_append.mpr ⟨hall, List.forall_mem_singleton.mpr hs⟩
  · rw [s.pieces_apply, hp]
    simp

theorem Phrase.isChain {e : Expr} (h : Phrase .chain e) : Phrase.IsChain e := by
  generalize hr : Role.chain = role at h
  induction h with
  | ident hname => exact Base.isChain (.ident hname)
  | call hname hargs _ => exact Base.isChain (.call hname hargs)
  | array hes _ => exact Base.isChain (.array hes)
  | @member role object property _ _ hname ih => exact (ih hr).apply (s := .member property) hname
  | @method role object name args _ _ hname hargs ih _ =>
    exact (ih hr).apply (s := .method name args) ⟨hname, hargs⟩
  | source | chain | literal | operand | binary | step | assign | arrow | whole | spread => cases hr

namespace Rule

open Sigil.Parser

variable {part : Rule Expr} {n : Nat} {e : Expr} {ts rest : List Lexeme}

theorem suffixRound_reread {s : Suffix} (hpart : Rereads part n) (hs : s.Spelled)
    (hts : ReadAs ts s.pieces) (hrest : kindAt 0 rest ≠ .symbol .lparen)
    (hlen : (ts ++ rest).length ≤ n) : suffixRound part (ts ++ rest) = .ok (.more s, rest) := by
  unfold suffixRound
  cases s with
  | member property =>
    obtain ⟨dot, _, rfl, hdot, hdotted⟩ := hts.symbol
    obtain ⟨name, _, rfl, hk, rfl, hname⟩ := hdotted.word
    cases hname.nil
    change (eat (.symbol .dot) >>= _) (dot :: name :: rest) = _
    rw [bind_of_ok (eat_cons hdot)]
    simp only [↓reduceIte]
    rw [bind_of_ok (ident_cons hk), bind_of_ok (kind_apply rest), if_neg hrest]
    rfl
  | method method args =>
    obtain ⟨dot, _, rfl, hdot, hdotted⟩ := hts.symbol
    obtain ⟨name, others, rfl, hk, rfl, hname⟩ := hdotted.word
    change (dot :: name :: (others ++ rest)).length ≤ n at hlen
    simp only [List.length_cons] at hlen
    have hparen : kindAt 0 (others ++ rest) = .symbol .lparen := kindAt_of_readAs rest hname
    have hargs : list part .lparen .rparen (others ++ rest) = .ok (args, rest) :=
      list_reread hpart (.inl rfl) hs.2 hname (by omega)
    change (eat (.symbol .dot) >>= _) (dot :: name :: (others ++ rest)) = _
    rw [bind_of_ok (eat_cons hdot)]
    simp only [↓reduceIte]
    rw [bind_of_ok (ident_cons hk), bind_of_ok (kind_apply _), if_pos hparen, bind_of_ok hargs]
    rfl

/-- Suffixes are read back up to what is none of them. -/
theorem suffixRounds_reread {suffixes : List Suffix} (hpart : Rereads part n)
    (hs : ∀ s ∈ suffixes, s.Spelled) (hts : ReadAs ts (suffixes.flatMap Suffix.pieces))
    (hdot : kindAt 0 rest ≠ .symbol .dot) (hparen : kindAt 0 rest ≠ .symbol .lparen)
    (hlen : (ts ++ rest).length ≤ n) :
    many (suffixRound part) (ts ++ rest) = .ok (suffixes, rest) := by
  induction suffixes generalizing ts with
  | nil =>
    cases hts.nil
    refine many_of_stop ?_
    unfold suffixRound
    rw [List.nil_append, bind_of_ok (eat_of_ne hdot)]
    rfl
  | cons s suffixes ih =>
    obtain ⟨hfirst, hothers⟩ := List.forall_mem_cons.mp hs
    rw [List.flatMap_cons] at hts
    obtain ⟨front, back, rfl, hfront, hback⟩ := hts.append
    have hnext : kindAt 0 (back ++ rest) ≠ .symbol .lparen := by
      cases suffixes with
      | nil =>
        cases hback.nil
        exact hparen
      | cons s' suffixes =>
        obtain ⟨ps, hps⟩ := s'.pieces_eq_cons
        rw [List.flatMap_cons, hps] at hback
        rw [kindAt_of_readAs rest hback]
        decide
    rw [List.append_assoc] at hlen ⊢
    have hround := suffixRound_reread hpart hfirst hfront hnext hlen
    obtain ⟨ps, hps⟩ := s.pieces_eq_cons
    rw [hps] at hfront
    obtain ⟨t, others, rfl, -⟩ := hfront.symbol
    simp only [List.cons_append, List.length_cons, List.length_append] at hlen
    refine many_of_more hround ?_ (ih hothers hback ?_)
    · simp only [List.cons_append, List.length_cons, List.length_append]
      omega
    · simp only [List.length_append]
      omega

end Rule

/-- The kinds that an operand ends before: an operator, or what ends the whole expression. -/
def Kind.closesOperand (k : Kind) : Bool := k.closesExpr || k.isArithmetic

theorem Kind.closesOperand_of_closesExpr {k : Kind} (h : k.closesExpr) : k.closesOperand := by
  simp [closesOperand, h]

theorem BinaryOp.closesOperand_symbol (op : BinaryOp) : (Kind.symbol op.symbol).closesOperand := by
  cases op <;> rfl

namespace Rule

open Sigil.Parser

variable {part : Rule Expr} {n : Nat} {e : Expr} {ts rest : List Lexeme} {t : Lexeme}

theorem expressionStep_string (hk : t.kind = .string) :
    expressionStep part (t :: ts) = operation part (.literal (.string t.content)) ts := by
  have hkind : kindAt 0 (t :: ts) = .string := hk
  unfold expressionStep
  rw [bind_of_ok (kind_apply _), hkind]
  dsimp only
  rw [bind_of_ok (take_cons_of_kind hk)]

theorem expressionStep_number (hk : t.kind = .number) :
    expressionStep part (t :: ts) = operation part (.literal (.number t.text)) ts := by
  have hkind : kindAt 0 (t :: ts) = .number := hk
  unfold expressionStep
  rw [bind_of_ok (kind_apply _), hkind]
  dsimp only
  rw [bind_of_ok (take_cons_of_kind hk)]

theorem expressionStep_minus {t' : Lexeme} (hk : t.kind = .symbol .minus)
    (hk' : t'.kind = .number) :
    expressionStep part (t :: t' :: ts) =
      operation part (.literal (.number ("-" ++ t'.text))) ts := by
  have hkind : kindAt 0 (t :: t' :: ts) = .symbol .minus := hk
  have hnumber : kindAt 1 (t :: t' :: ts) = .number := hk'
  unfold expressionStep
  rw [bind_of_ok (kind_apply _), hkind]
  dsimp only
  rw [get_bind_apply, if_pos hnumber, bind_of_ok (skip_apply _), List.tail_cons,
    bind_of_ok (take_cons_of_kind hk')]

theorem expressionStep_ident (hk : t.kind = .ident) :
    expressionStep part (t :: ts) = identExpr part (t :: ts) := by
  have hkind : kindAt 0 (t :: ts) = .ident := hk
  unfold expressionStep
  rw [bind_of_ok (kind_apply _), hkind]

theorem expressionStep_lbracket {es : List Expr} (hkind : kindAt 0 ts = .symbol .lbracket)
    (hlist : list part .lbracket .rbracket ts = .ok (es, rest)) :
    expressionStep part ts = (memberChain part (.array es) >>= operation part) rest := by
  unfold expressionStep
  rw [bind_of_ok (kind_apply _), hkind]
  dsimp only
  rw [bind_of_ok hlist]

theorem expressionStep_lparen (hk : t.kind = .symbol .lparen) :
    expressionStep part (t :: ts) = arrowExpr part (t :: ts) := by
  have hkind : kindAt 0 (t :: ts) = .symbol .lparen := hk
  unfold expressionStep
  rw [bind_of_ok (kind_apply _), hkind]

theorem identExpr_literal {l : Literal} (hk : t.kind = .ident) (hl : literalWord? t.text = some l) :
    identExpr part (t :: ts) = operation part (.literal l) ts := by
  unfold identExpr
  rw [bind_of_ok (ident_cons hk), hl]

section Variables

variable (hk : t.kind = .ident) (hv : isVariable t.text)

include hv in
theorem literalWord_of_isVariable : literalWord? t.text = none := by
  rw [isVariable, Bool.and_eq_true] at hv
  exact Option.isNone_iff_eq_none.mp hv.2

include hk hv

theorem identExpr_update {op : UpdateOp} (hop : op ≠ .addAssign)
    (hkind : kindAt 0 ts = .symbol op.symbol) :
    identExpr part (t :: ts) = .ok (.update t.text op none, ts.tail) := by
  unfold identExpr
  rw [bind_of_ok (ident_cons hk), literalWord_of_isVariable hv]
  dsimp only
  rw [bind_of_ok (kind_apply _), hkind]
  cases op with
  | increment => rfl
  | decrement => rfl
  | addAssign => exact absurd rfl hop

theorem identExpr_assign {value : Expr} (hkind : kindAt 0 ts = .symbol .plusEq)
    (hvalue : part ts.tail = .ok (value, rest)) :
    identExpr part (t :: ts) = .ok (.update t.text .addAssign (some value), rest) := by
  unfold identExpr
  rw [bind_of_ok (ident_cons hk), literalWord_of_isVariable hv]
  dsimp only
  rw [bind_of_ok (kind_apply _), hkind]
  dsimp only
  rw [bind_of_ok (skip_apply _), bind_of_ok hvalue]
  rfl

theorem identExpr_call {args : List Expr} (hkind : kindAt 0 ts = .symbol .lparen)
    (hargs : list part .lparen .rparen ts = .ok (args, rest)) :
    identExpr part (t :: ts) = (memberChain part (.call t.text args) >>= operation part) rest := by
  unfold identExpr
  rw [bind_of_ok (ident_cons hk), literalWord_of_isVariable hv]
  dsimp only
  rw [bind_of_ok (kind_apply _), hkind]
  dsimp only
  rw [bind_of_ok hargs]

theorem identExpr_ident (hkind : kindAt 0 ts = .symbol .dot ∨ (kindAt 0 ts).closesOperand) :
    identExpr part (t :: ts) = (memberChain part (.ident t.text) >>= operation part) ts := by
  unfold identExpr
  rw [bind_of_ok (ident_cons hk), literalWord_of_isVariable hv]
  dsimp only
  rw [bind_of_ok (kind_apply _)]
  generalize kindAt 0 ts = k at hkind
  split
  · exact absurd hkind (by decide)
  · exact absurd hkind (by decide)
  · exact absurd hkind (by decide)
  · exact absurd hkind (by decide)
  · exact absurd hkind (by decide)
  · rfl

end Variables

/-- Members are read back behind whatever they are read off. -/
theorem memberChain_reread {base : Expr} {suffixes : List Suffix} (hpart : Rereads part n)
    (hs : ∀ s ∈ suffixes, s.Spelled) (hts : ReadAs ts (suffixes.flatMap Suffix.pieces))
    (hrest : (kindAt 0 rest).closesOperand) (hlen : (ts ++ rest).length ≤ n) :
    (memberChain part base >>= operation part) (ts ++ rest) =
      operation part (suffixes.foldl Suffix.apply base) rest := by
  have hdot : kindAt 0 rest ≠ .symbol .dot := ne_of_class hrest rfl
  have hparen : kindAt 0 rest ≠ .symbol .lparen := ne_of_class hrest rfl
  have hmany := suffixRounds_reread hpart hs hts hdot hparen hlen
  have hchain : memberChain part base (ts ++ rest) =
      .ok (suffixes.foldl Suffix.apply base, rest) := by
    unfold memberChain
    rw [bind_of_ok hmany]
    rfl
  rw [bind_of_ok hchain]

theorem suffixes_kind {suffixes : List Suffix} (hts : ReadAs ts (suffixes.flatMap Suffix.pieces))
    (hrest : (kindAt 0 rest).closesOperand) :
    kindAt 0 (ts ++ rest) = .symbol .dot ∨ (kindAt 0 (ts ++ rest)).closesOperand := by
  cases suffixes with
  | nil =>
    cases hts.nil
    exact .inr hrest
  | cons s suffixes =>
    obtain ⟨ps, hps⟩ := s.pieces_eq_cons
    rw [List.flatMap_cons, hps] at hts
    exact .inl (kindAt_of_readAs rest hts)

theorem content_of_quote {s : String} (hs : OneLine s) (hk : t.kind = .string)
    (ht : t.text = quote s) (hv : t.value = Token.valueOf t.kind t.text.toList) :
    t.content = s := by
  have hinner : ((quote s).toList.drop 1).dropLast = s.toList.flatMap quotedChar := by
    simp [quote]
  rw [hk, ht, Token.valueOf, hinner, Token.unescape_quoted hs, String.ofList_toList] at hv
  simp [Lexeme.content, hv]

theorem word_reread {l : Literal} {w : String} (hl : literalWord? w = some l)
    (hts : ReadAs ts [.word w]) :
    expressionStep part (ts ++ rest) = operation part (.literal l) rest := by
  obtain ⟨t, others, rfl, hk, rfl, hothers⟩ := hts.word
  cases hothers.nil
  rw [List.singleton_append, expressionStep_ident hk, identExpr_literal hk hl]

theorem literal_reread {l : Literal} (h : l.Spelled) (hts : ReadAs ts l.pieces) :
    expressionStep part (ts ++ rest) = operation part (.literal l) rest := by
  cases l with
  | string s =>
    obtain ⟨t, rfl, hk, ht, hv⟩ := hts.singleton
    rw [List.singleton_append, expressionStep_string hk, content_of_quote h hk ht hv]
  | number s =>
    rcases h with h | ⟨ds, hs, -⟩
    · rw [Literal.pieces_numeral h] at hts
      obtain ⟨digits, rfl, hk, ht, -⟩ := hts.singleton
      rw [List.singleton_append, expressionStep_number hk, ht]
    · rw [Literal.pieces_minus hs] at hts
      obtain ⟨minus, others, rfl, hminus, hothers⟩ := hts.symbol
      obtain ⟨digits, rfl, hk, ht, -⟩ := hothers.singleton
      have hspelling : "-" ++ digits.text = s := by
        rw [ht, ← String.toList_inj, hs]
        simp
      change expressionStep part (minus :: digits :: rest) = _
      rw [expressionStep_minus hminus hk, hspelling]
  | boolean b => cases b <;> exact word_reread rfl hts
  | null => exact word_reread rfl hts
  | undefined => exact word_reread rfl hts

theorem chain_reread (hpart : Rereads part n) (h : Phrase .chain e) (hts : ReadAs ts e.pieces)
    (hrest : (kindAt 0 rest).closesOperand) (hlen : (ts ++ rest).length ≤ n) :
    expressionStep part (ts ++ rest) = operation part e rest := by
  obtain ⟨base, suffixes, hbase, hs, he, hp⟩ := h.isChain
  rw [hp] at hts
  obtain ⟨front, back, rfl, hfront, hback⟩ := hts.append
  rw [List.append_assoc] at hlen ⊢
  have hchain : ∀ base, (memberChain part base >>= operation part) (back ++ rest) =
      operation part (suffixes.foldl Suffix.apply base) rest := by
    intro base
    refine memberChain_reread hpart hs hback hrest ?_
    rw [List.length_append] at hlen
    omega
  rw [he]
  cases hbase with
  | ident hname =>
    obtain ⟨t, others, rfl, hk, rfl, hothers⟩ := hfront.word
    cases hothers.nil
    rw [List.singleton_append, expressionStep_ident hk,
      identExpr_ident hk hname (suffixes_kind hback hrest), hchain]
  | @call callee args hname hargs =>
    rw [Expr.pieces] at hfront
    obtain ⟨t, others, rfl, hk, rfl, hothers⟩ := hfront.word
    rw [List.cons_append, List.length_cons] at hlen
    have hparen : kindAt 0 (others ++ (back ++ rest)) = .symbol .lparen :=
      kindAt_of_readAs _ hothers
    have hlist : list part .lparen .rparen (others ++ (back ++ rest)) = .ok (args, back ++ rest) :=
      list_reread hpart (.inl rfl) hargs hothers (by omega)
    rw [List.cons_append, expressionStep_ident hk, identExpr_call hk hname hparen hlist, hchain]
  | @array elements helements =>
    rw [Expr.pieces] at hfront
    have hbracket : kindAt 0 (front ++ (back ++ rest)) = .symbol .lbracket :=
      kindAt_of_readAs _ hfront
    have hlist : list part .lbracket .rbracket (front ++ (back ++ rest)) =
        .ok (elements, back ++ rest) :=
      list_reread hpart (.inr rfl) helements hfront hlen
    rw [expressionStep_lbracket hbracket hlist, hchain]

theorem operand_reread (hpart : Rereads part n) (h : Phrase .operand e) (hts : ReadAs ts e.pieces)
    (hrest : (kindAt 0 rest).closesOperand) (hlen : (ts ++ rest).length ≤ n) :
    expressionStep part (ts ++ rest) = operation part e rest := by
  rcases h.operand_cases with h | ⟨l, rfl, hl⟩
  · exact chain_reread hpart h hts hrest hlen
  · exact literal_reread hl hts

theorem paramRounds_reread {params : List String} (hparams : params ≠ [])
    (hts : ReadAs ts (Piece.commaSeparated (params.map fun p => [Piece.word p])))
    (ht : t.kind = .symbol .rparen) :
    many paramRound (ts ++ t :: rest) = .ok (params, rest) := by
  induction params generalizing ts with
  | nil => exact absurd rfl hparams
  | cons p params ih =>
    cases params with
    | nil =>
      obtain ⟨name, others, rfl, hk, rfl, hothers⟩ := hts.word
      cases hothers.nil
      have hcomma : kindAt 0 (t :: rest) ≠ .symbol .comma := by
        change t.kind ≠ _
        rw [ht]
        simp
      refine many_of_last ?_
      unfold paramRound
      rw [List.singleton_append, bind_of_ok (ident_cons hk), bind_of_ok (eat_of_ne hcomma)]
      simp only [Bool.false_eq_true, ↓reduceIte]
      rw [bind_of_ok (expect_cons ht)]
      rfl
    | cons p' params =>
      rw [List.map_cons, List.map_cons, Piece.commaSeparated_cons_cons] at hts
      obtain ⟨name, _, rfl, hk, rfl, hname⟩ := hts.word
      obtain ⟨comma, others, rfl, hcomma, hothers⟩ := hname.symbol
      have hround : paramRound (name :: comma :: (others ++ t :: rest)) =
          .ok (.more name.text, others ++ t :: rest) := by
        unfold paramRound
        rw [bind_of_ok (ident_cons hk), bind_of_ok (eat_cons hcomma)]
        rfl
      refine many_of_more hround ?_ (ih (by simp) hothers)
      simp only [List.cons_append, List.length_cons]
      omega

theorem params_reread {params : List String} {t' : Lexeme} (ht : t.kind = .symbol .lparen)
    (hts : ReadAs ts (Piece.commaSeparated (params.map fun p => [Piece.word p])))
    (ht' : t'.kind = .symbol .rparen) :
    Rule.params (t :: (ts ++ t' :: rest)) = .ok (params, rest) := by
  unfold Rule.params
  rw [bind_of_ok (expect_cons ht)]
  cases params with
  | nil =>
    cases hts.nil
    rw [List.nil_append, bind_of_ok (eat_cons ht')]
    rfl
  | cons p params =>
    have hname : kindAt 0 (ts ++ t' :: rest) ≠ .symbol .rparen := by
      obtain ⟨ps, hps⟩ : ∃ ps, Piece.commaSeparated ((p :: params).map fun p => [Piece.word p]) =
          .word p :: ps := by
        cases params with
        | nil => exact ⟨_, rfl⟩
        | cons p' params => exact ⟨_, rfl⟩
      rw [hps] at hts
      rw [kindAt_of_readAs _ hts]
      simp [Piece.word]
    rw [bind_of_ok (eat_of_ne hname)]
    exact paramRounds_reread (by simp) hts ht'

theorem arrow_reread {params : List String} {body : Expr} (hpart : Rereads part n)
    (hbody : Phrase .whole body) (hts : ReadAs ts (Expr.arrow params body).pieces)
    (hrest : (kindAt 0 rest).closesExpr) (hlen : (ts ++ rest).length ≤ n) :
    expressionStep part (ts ++ rest) = .ok (.arrow params body, rest) := by
  rw [Expr.pieces] at hts
  obtain ⟨opening, others, rfl, hopening, hothers⟩ := hts.symbol
  obtain ⟨inner, others, rfl, hinner, hothers⟩ := hothers.append
  obtain ⟨closing, others, rfl, hclosing, hothers⟩ := hothers.symbol
  obtain ⟨arrow, others, rfl, harrow, hothers⟩ := hothers.symbol
  have htail : opening :: (inner ++ closing :: arrow :: others) ++ rest =
      opening :: (inner ++ closing :: arrow :: (others ++ rest)) := by simp
  rw [htail] at hlen ⊢
  simp only [List.length_cons, List.length_append] at hlen
  have hshort : (others ++ rest).length < n := by
    rw [List.length_append]
    omega
  rw [expressionStep_lparen hopening]
  unfold arrowExpr
  rw [bind_of_ok (params_reread hopening hinner hclosing), bind_of_ok (expect_cons harrow),
    bind_of_ok (hpart hbody hothers hrest hshort)]
  rfl

theorem operation_of_closesExpr (hrest : (kindAt 0 rest).closesExpr) :
    operation part e rest = .ok (e, rest) := by
  unfold operation
  rw [bind_of_ok (kind_apply rest)]
  generalize kindAt 0 rest = k at hrest
  have hnone : binaryOp? k = none := by
    unfold binaryOp?
    split
    · exact absurd hrest (by decide)
    · exact absurd hrest (by decide)
    · exact absurd hrest (by decide)
    · exact absurd hrest (by decide)
    · rfl
  rw [hnone]
  rfl

theorem operation_of_symbol {op : BinaryOp} {right : Expr} (hk : t.kind = .symbol op.symbol)
    (hright : part ts = .ok (right, rest)) :
    operation part e (t :: ts) = .ok (.binary op e right, rest) := by
  have hop : binaryOp? (kindAt 0 (t :: ts)) = some op := by
    change binaryOp? t.kind = _
    rw [hk]
    cases op <;> rfl
  unfold operation
  rw [bind_of_ok (kind_apply _), hop]
  dsimp only
  rw [bind_of_ok (skip_apply _), List.tail_cons, bind_of_ok hright]
  rfl

/-- One step of the rule reads an expression back if its parts are. -/
theorem expressionStep_reread (hpart : Rereads part n) (h : Phrase .whole e)
    (hts : ReadAs ts e.pieces) (hrest : (kindAt 0 rest).closesExpr)
    (hlen : (ts ++ rest).length ≤ n) : expressionStep part (ts ++ rest) = .ok (e, rest) := by
  cases h with
  | member hrole | method hrole => exact absurd hrole (by decide)
  | operand h =>
    rw [operand_reread hpart h hts (Kind.closesOperand_of_closesExpr hrest) hlen]
    exact operation_of_closesExpr hrest
  | @binary op left right hleft hright =>
    rw [Expr.pieces] at hts
    obtain ⟨front, _, rfl, hfront, hback⟩ := hts.append
    obtain ⟨t, others, rfl, hk, hothers⟩ := hback.symbol
    rw [List.append_assoc, List.cons_append] at hlen ⊢
    have hop : (kindAt 0 (t :: (others ++ rest))).closesOperand := by
      change t.kind.closesOperand
      rw [hk]
      exact op.closesOperand_symbol
    rw [operand_reread hpart hleft hfront hop hlen]
    rw [List.length_append, List.length_cons] at hlen
    exact operation_of_symbol hk (hpart hright hothers hrest (by omega))
  | @step target op hname hop =>
    rw [Expr.pieces] at hts
    obtain ⟨t, _, rfl, hk, rfl, hback⟩ := hts.word
    obtain ⟨t', _, rfl, hk', hnil⟩ := hback.symbol
    cases hnil.nil
    have hkind : kindAt 0 (t' :: rest) = .symbol op.symbol := hk'
    change expressionStep part (t :: t' :: rest) = _
    rw [expressionStep_ident hk, identExpr_update hk hname hop hkind]
    rfl
  | @assign target value hname hvalue =>
    rw [Expr.pieces] at hts
    obtain ⟨t, _, rfl, hk, rfl, hback⟩ := hts.word
    obtain ⟨t', others, rfl, hk', hothers⟩ := hback.symbol
    have hkind : kindAt 0 (t' :: (others ++ rest)) = .symbol .plusEq := hk'
    change expressionStep part (t :: t' :: (others ++ rest)) = _
    simp only [List.cons_append, List.length_cons] at hlen
    have hread := hpart hvalue hothers hrest (by omega)
    rw [expressionStep_ident hk, identExpr_assign hk hname hkind hread]
  | @arrow params body _ hbody => exact arrow_reread hpart hbody hts hrest hlen

theorem rereads_expression (n : Nat) : Rereads expression n := by
  -- The bound goes down with what is left, as the recursion of the rule itself does.
  induction n using Nat.strong_induction_on with
  | _ n ih =>
    intro e ts rest h hts hrest hlen
    change nestFrom _ _ () (ts ++ rest) = _
    rw [nestFrom]
    refine expressionStep_reread ?_ h hts hrest le_rfl
    intro e' ts' rest' h' hts' hrest' hlen'
    dsimp only
    rw [if_pos hlen']
    exact ih _ hlen h' hts' hrest' hlen'

/-- An expression is read back from lexemes with its pieces. -/
theorem expression_reread (h : Phrase .whole e) (hts : ReadAs ts e.pieces) :
    expression ts = .ok (e, []) := by
  have hread : expression (ts ++ []) = .ok (e, []) :=
    rereads_expression (ts.length + 1) h hts rfl (by simp)
  rwa [List.append_nil] at hread

end Rule

/-- The text is tokenized, and all of its tokens before the stop are read as one expression. -/
def RereadAs (text : String) (e : Expr) : Prop :=
  ∃ body stop, Token.tokenize text = .ok (body ++ [stop]) ∧ stop.isEnd ∧
    (Input.ofTokens (body ++ [stop])).body = body ∧
    Rule.expression (Input.ofTokens (body ++ [stop])).lexemes = .ok (e, [])

theorem Phrase.rereadAs {e : Expr} (h : Phrase .whole e) : RereadAs (e.render []) e := by
  have hscan : Scans ((e.render []).toList ++ []) (e.pieces ++ []) :=
    h.spells [] [] (by simp [Role.EndsBefore]) .nil
  rw [List.append_nil, List.append_nil] at hscan
  obtain ⟨body, stop, htokens, hstop, hbody, hpieces⟩ := hscan.tokenize
  refine ⟨body, stop, htokens, hstop, hbody, Rule.expression_reread h ⟨hpieces, ?_⟩⟩
  exact fun t ht => (lexemes_scanned htokens t ht).value

/-- Whatever is read as an expression anywhere in a source is read back from its text. -/
theorem expression_render_rereadAs {source : String} {tokens : List Token} {ts rest : List Lexeme}
    {e : Expr} (htokens : Token.tokenize source = .ok tokens)
    (hts : ts <:+ (Input.ofTokens tokens).lexemes) (hread : Rule.expression ts = .ok (e, rest)) :
    RereadAs (e.render []) e := by
  have hscanned : Lexeme.AllScanned ts := fun t ht => lexemes_scanned htokens t (hts.subset ht)
  exact (Rule.yields_expression hscanned hread).2.rereadAs

theorem expression_render_rereadAs_memo :
    ∃ tokens rest e, Token.tokenize "% t = x => f(\"it's\", ...xs).y - -5" = .ok tokens ∧
      Rule.expression ((Input.ofTokens tokens).lexemes.drop 3) = .ok (e, rest) ∧
      e.render [] = "(x) => f('it\\'s', ...xs).y - -5" ∧ RereadAs (e.render []) e := by
  have hrun : ((Token.tokenize "% t = x => f(\"it's\", ...xs).y - -5").toOption.bind fun tokens =>
      (Rule.expression ((Input.ofTokens tokens).lexemes.drop 3)).toOption.bind fun read =>
        some (read.1.render [])) = some "(x) => f('it\\'s', ...xs).y - -5" := by
    decide +kernel
  obtain ⟨tokens, htokens, hrun⟩ := Option.bind_eq_some_iff.1 hrun
  obtain ⟨⟨e, rest⟩, hread, hrender⟩ := Option.bind_eq_some_iff.1 hrun
  have htokens := eq_ok_of_toOption htokens
  have hread := eq_ok_of_toOption hread
  refine ⟨tokens, rest, e, htokens, hread, Option.some.inj hrender, ?_⟩
  exact expression_render_rereadAs htokens (List.drop_suffix 3 _) hread

end Sigil
