import Sigil.Proofs.TypeTexts

namespace Sigil

namespace Rule

open Sigil.Parser

theorem yields_typeName_namesType : Yields Lexeme.AllScanned typeName NamesType := by
  unfold typeName
  refine yields_bind yields_kind fun k _ => ?_
  split
  · exact (yields_ident _).mono fun _ h => .ident h
  · exact yields_bind (yields_content _) fun t ht => yields_pure (.literal ht)
  · exact yields_unexpected _

theorem phrase_arrayOf {Name : String → Prop} (harray : Name "Array") {t : TypeExpr}
    (h : TypePhrase Name true t) : TypePhrase Name true (arrayOf t) := by
  have hgeneric : TypePhrase Name true (.generic "Array" [t]) :=
    .generic harray (List.forall_mem_singleton.mpr (.whole h))
  cases h with
  | simple hname => exact .array hname
  | array _ => exact hgeneric
  | generic _ _ => exact hgeneric

/-- What is read as a type has names of types and no unions among the members of its unions. -/
theorem yields_type_phrase : Yields Lexeme.AllScanned type (TypePhrase NamesType false) := by
  refine yields_nest (yields_unexpected _) fun part h => ?_
  have hmember : Yields Lexeme.AllScanned (primaryType part) (TypePhrase NamesType true) :=
    yields_primaryType yields_typeName_namesType h (fun _ => .simple) (fun _ _ _ => .generic)
      fun _ => phrase_arrayOf (.ident (by decide))
  exact yields_unionType hmember (fun _ => .whole) fun _ _ _ => .union

end Rule

/-- The name that a token gives to a type. -/
def Piece.typeName? (p : Piece) : Option String :=
  match p.kind with
  | .ident => some p.text
  | .string =>
    some ("'" ++ String.ofList (Token.unescape (p.text.toList.drop 1).dropLast) ++ "'")
  | _ => none

/-- A name that can be read again is given by the token that it is written as. -/
theorem Mark.pieces_name {s : String} (hs : Rereadable s) :
    ∃ p, (name s).pieces = [p] ∧ p.typeName? = some s := by
  obtain ⟨hname, hplain⟩ := hs
  cases hname with
  | ident hs => exact ⟨.word s, pieces_ident hs, rfl⟩
  | @literal content _ =>
    refine ⟨_, pieces_literal content, ?_⟩
    have hslash : '\\' ∉ content.toList := fun hmem =>
      ((isPlain_literal content).mp hplain _ hmem).2 rfl
    change some ("'" ++ String.ofList (Token.unescape
      (("'" ++ content ++ "'").toList.drop 1).dropLast) ++ "'") = _
    rw [toList_literal, List.drop_one, List.tail_cons, List.dropLast_concat,
      unescape_of_plain hslash, String.ofList_toList]

/-- What can stand behind a type. -/
def Kind.closesType : Kind → Bool
  | .stop | .symbol .comma | .symbol .rangle => true
  | _ => false

/-- What can stand behind a member of a union. -/
def Kind.closesMember : Kind → Bool
  | .symbol .pipe => true
  | k => k.closesType

namespace TypeExpr

/-- The tokens of a type. -/
def pieces (t : TypeExpr) : List Piece := t.marks.flatMap Mark.pieces

/-- The tokens of types with a separator before each of them. -/
def furtherPieces (separator : Symbol) (others : List TypeExpr) : List Piece :=
  others.flatMap fun u => .symbol separator :: u.pieces

theorem flatMap_separated {m : Mark} {separator : Symbol} (hm : m.pieces = [.symbol separator])
    (first : TypeExpr) (others : List TypeExpr) :
    (Mark.separated m (marksAll (first :: others))).flatMap Mark.pieces =
      first.pieces ++ furtherPieces separator others := by
  rw [marksAll_eq_map, List.map_cons, Mark.separated, List.flatMap_append, List.flatMap_map,
    List.flatMap_assoc, furtherPieces, pieces]
  congr 1
  refine List.flatMap_congr fun u _ => ?_
  rw [List.flatMap_cons, hm]
  rfl

theorem pieces_union (first : TypeExpr) (others : List TypeExpr) :
    (union (first :: others)).pieces = first.pieces ++ furtherPieces .pipe others := by
  rw [pieces, marks, flatMap_separated rfl]

theorem pieces_generic (s : String) (first : TypeExpr) (others : List TypeExpr) :
    (generic s (first :: others)).pieces = (Mark.name s).pieces ++ .symbol .langle ::
      (first.pieces ++ furtherPieces .comma others ++ [.symbol .rangle]) := by
  rw [pieces, marks, List.flatMap_cons, List.flatMap_cons, List.flatMap_append,
    flatMap_separated rfl]
  rfl

end TypeExpr

namespace Rule

open Sigil.Parser TypeExpr

variable {ts rest : List Lexeme} {n : Nat}

theorem typeName_of_some {t : Lexeme} {s : String}
    (hvalue : t.value = Token.valueOf t.kind t.text.toList) (h : t.piece.typeName? = some s) :
    typeName (t :: rest) = .ok (s, rest) := by
  unfold Piece.typeName? at h
  split at h
  next hk =>
    have hkind : kindAt 0 (t :: rest) = .ident := hk
    cases h
    unfold typeName
    rw [bind_of_ok (kind_apply _), hkind]
    exact ident_cons hk
  next hk =>
    have hkind : kindAt 0 (t :: rest) = .string := hk
    have hstring : t.kind = .string := hk
    have hcontent : t.content = String.ofList (Token.unescape (t.text.toList.drop 1).dropLast) := by
      rw [Lexeme.content, hvalue, hstring]
      rfl
    cases h
    unfold typeName
    rw [bind_of_ok (kind_apply _), hkind]
    dsimp only
    rw [bind_of_ok (take_cons_of_kind hstring), hcontent]
    rfl
  next => cases h

/-- A type's name is read off one token, which gives it. -/
theorem typeName_eq_ok (hts : ∀ t ∈ ts, t.value = Token.valueOf t.kind t.text.toList)
    {s : String} (h : typeName ts = .ok (s, rest)) :
    ∃ t, ts = t :: rest ∧ t.piece.typeName? = some s := by
  cases ts with
  | nil => cases h
  | cons t ts =>
    cases hname : t.piece.typeName? with
    | some name =>
      rw [typeName_of_some (hts t List.mem_cons_self) hname] at h
      cases h
      exact ⟨t, rfl, hname⟩
    | none =>
      unfold typeName at h
      rw [bind_of_ok (kind_apply _)] at h
      generalize hk : kindAt 0 (t :: ts) = k at h
      change t.piece.kind = k at hk
      unfold Piece.typeName? at hname
      rw [hk] at hname
      split at h
      next => cases hname
      next => cases hname
      next => cases h

section

variable {item : Rule TypeExpr} {P : TypeExpr → Prop} {separator : Symbol} {closes : Kind → Bool}

/-- A rule that reads the types with a property before a separator or before what closes a list. -/
def ReadsItems (item : Rule TypeExpr) (P : TypeExpr → Prop) (separator : Symbol)
    (closes : Kind → Bool) (n : Nat) : Prop :=
  ∀ ⦃u us rest⦄, P u → ReadAs us u.pieces →
    (kindAt 0 rest = .symbol separator ∨ closes (kindAt 0 rest) = true) →
    (us ++ rest).length < n → item (us ++ rest) = .ok (u, rest)

theorem kindAt_further {others : List TypeExpr} (hts : ReadAs ts (furtherPieces separator others))
    (hrest : closes (kindAt 0 rest) = true) :
    kindAt 0 (ts ++ rest) = .symbol separator ∨ closes (kindAt 0 (ts ++ rest)) = true := by
  cases others with
  | nil =>
    rw [hts.nil]
    exact .inr hrest
  | cons u others =>
    rw [furtherPieces, List.flatMap_cons, List.cons_append] at hts
    obtain ⟨t, _, rfl, hk, _⟩ := hts.symbol
    exact .inl hk

/-- Items with a separator before each of them are read one by one up to what closes the list. -/
theorem further_reread (hitem : ReadsItems item P separator closes n)
    (hcloses : closes (.symbol separator) = false) {others : List TypeExpr}
    (hothers : ∀ u ∈ others, P u) (hts : ReadAs ts (furtherPieces separator others))
    (hrest : closes (kindAt 0 rest) = true) (hlen : (ts ++ rest).length ≤ n) :
    many (further separator item) (ts ++ rest) = .ok (others, rest) := by
  induction others generalizing ts with
  | nil =>
    rw [hts.nil]
    refine many_of_stop ?_
    unfold further
    rw [List.nil_append, bind_of_ok (eat_of_ne ?_)]
    · rfl
    · intro hk
      rw [hk, hcloses] at hrest
      cases hrest
  | cons u others ih =>
    obtain ⟨hu, hothers⟩ := List.forall_mem_cons.mp hothers
    rw [furtherPieces, List.flatMap_cons, List.cons_append] at hts
    obtain ⟨t, back, rfl, hk, hback⟩ := hts.symbol
    obtain ⟨us, more, rfl, hus, hmore⟩ := hback.append
    rw [List.cons_append, List.append_assoc, List.length_cons] at hlen
    have hread := hitem hu hus (kindAt_further hmore hrest) (by omega)
    have hround : further separator item (t :: (us ++ (more ++ rest))) =
        .ok (.more u, more ++ rest) := by
      unfold further
      rw [bind_of_ok (eat_cons hk)]
      simp only [↓reduceIte]
      rw [bind_of_ok hread]
      rfl
    rw [List.length_append] at hlen
    rw [List.cons_append, List.append_assoc]
    refine many_of_more hround ?_ (ih hothers hmore (by omega))
    simp only [List.length_cons, List.length_append]
    omega

/-- Items with a separator between each two are read as the first one and the others. -/
theorem items_reread (hitem : ReadsItems item P separator closes n)
    (hcloses : closes (.symbol separator) = false) {first : TypeExpr} {others : List TypeExpr}
    (h : ∀ u ∈ first :: others, P u)
    (hts : ReadAs ts (first.pieces ++ furtherPieces separator others))
    (hrest : closes (kindAt 0 rest) = true) (hlen : (ts ++ rest).length < n) :
    ∃ mid, item (ts ++ rest) = .ok (first, mid) ∧
      many (further separator item) mid = .ok (others, rest) := by
  obtain ⟨hfirst, hothers⟩ := List.forall_mem_cons.mp h
  obtain ⟨us, more, rfl, hus, hmore⟩ := hts.append
  rw [List.append_assoc] at hlen ⊢
  refine ⟨more ++ rest, hitem hfirst hus (kindAt_further hmore hrest) hlen, ?_⟩
  refine further_reread hitem hcloses hothers hmore hrest ?_
  rw [List.length_append] at hlen
  omega

end

/-- The rule reads every type that is written with fewer than `n` lexemes left. -/
def RereadsType (part : Rule TypeExpr) (n : Nat) : Prop :=
  ∀ ⦃t ts rest⦄, TypePhrase Rereadable false t → ReadAs ts t.pieces →
    (kindAt 0 rest).closesType = true → (ts ++ rest).length < n → part (ts ++ rest) = .ok (t, rest)

section

variable {part : Rule TypeExpr} {t : TypeExpr}

theorem typeName_reread {s : String} {ps : List Piece} (hs : Rereadable s)
    (hts : ReadAs ts ((Mark.name s).pieces ++ ps)) :
    ∃ t back, ts = t :: back ∧ ReadAs back ps ∧
      ∀ rest, typeName (t :: rest) = .ok (s, rest) := by
  obtain ⟨p, hp, hname⟩ := Mark.pieces_name hs
  rw [hp] at hts
  obtain ⟨t, back, rfl, hk, htext, hvalue, hback⟩ := hts.cons
  have hpiece : t.piece = p := by rw [Lexeme.piece, hk, htext]
  exact ⟨t, back, rfl, hback, fun rest => typeName_of_some hvalue (hpiece ▸ hname)⟩

theorem typeParams_of_ne (h : kindAt 0 ts ≠ .symbol .langle) :
    typeParams part ts = .ok ([], ts) := by
  unfold typeParams
  rw [bind_of_ok (eat_of_ne h)]
  rfl

theorem typeParams_reread (hpart : RereadsType part n) {first : TypeExpr} {others : List TypeExpr}
    (h : ∀ t ∈ first :: others, TypePhrase Rereadable false t)
    (hts : ReadAs ts (.symbol .langle ::
      (first.pieces ++ furtherPieces .comma others ++ [.symbol .rangle])))
    (hlen : (ts ++ rest).length ≤ n) :
    typeParams part (ts ++ rest) = .ok (first :: others, rest) := by
  obtain ⟨angle, _, rfl, hangle, hinner⟩ := hts.symbol
  obtain ⟨inner, close, rfl, hinner, hclose⟩ := hinner.enclosed
  rw [List.cons_append, List.append_assoc, List.singleton_append, List.length_cons] at hlen
  have hitem : ReadsItems part (TypePhrase Rereadable false) .comma
      (fun k => decide (k = .symbol .rangle)) n := by
    intro u us rest hu hus hrest
    refine hpart hu hus ?_
    rcases hrest with hk | hk
    · rw [hk]
      rfl
    · rw [of_decide_eq_true hk]
      rfl
  have hrangle : kindAt 0 (close :: rest) = .symbol .rangle := hclose
  obtain ⟨mid, hfirst, hothers⟩ :=
    items_reread hitem rfl h hinner (decide_eq_true hrangle) (by omega)
  unfold typeParams
  rw [List.cons_append, List.append_assoc, List.singleton_append, bind_of_ok (eat_cons hangle)]
  simp only [↓reduceIte]
  rw [bind_of_ok hfirst, bind_of_ok hothers, bind_of_ok (expect_cons hclose)]
  rfl

theorem primaryType_reread (hpart : RereadsType part n) (h : TypePhrase Rereadable true t)
    (hts : ReadAs ts t.pieces) (hrest : (kindAt 0 rest).closesMember = true)
    (hlen : (ts ++ rest).length ≤ n) : primaryType part (ts ++ rest) = .ok (t, rest) := by
  have hne {s : Symbol} (hs : (Kind.symbol s).closesMember = false) :
      kindAt 0 rest ≠ .symbol s := by
    intro hk
    rw [hk, hs] at hrest
    cases hrest
  have hnoArray : ¬ (kindAt 0 rest = .symbol .lbracket ∧ kindAt 1 rest = .symbol .rbracket) :=
    fun hk => hne rfl hk.1
  cases h with
  | simple hs =>
    obtain ⟨t, back, rfl, hback, hname⟩ := typeName_reread hs hts
    rw [hback.nil] at hlen ⊢
    unfold primaryType
    rw [List.singleton_append, bind_of_ok (hname rest), bind_of_ok (typeParams_of_ne (hne rfl)),
      get_bind_apply, if_neg hnoArray]
    rfl
  | array hs =>
    obtain ⟨t, back, rfl, hback, hname⟩ := typeName_reread hs hts
    obtain ⟨lbracket, _, rfl, hl, hback⟩ := hback.symbol
    obtain ⟨rbracket, _, rfl, hr, hback⟩ := hback.symbol
    have hangle : kindAt 0 (lbracket :: rbracket :: rest) ≠ .symbol .langle := by
      change lbracket.kind ≠ _
      simp [hl]
    have harray : kindAt 0 (lbracket :: rbracket :: rest) = .symbol .lbracket ∧
        kindAt 1 (lbracket :: rbracket :: rest) = .symbol .rbracket := ⟨hl, hr⟩
    rw [hback.nil]
    change primaryType part (t :: lbracket :: rbracket :: rest) = _
    unfold primaryType
    rw [bind_of_ok (hname _), bind_of_ok (typeParams_of_ne hangle), get_bind_apply,
      if_pos harray, bind_of_ok (skip_apply _), List.tail_cons, bind_of_ok (skip_apply _),
      List.tail_cons]
    rfl
  | generic hs hparams =>
    rw [pieces_generic] at hts
    obtain ⟨t, back, rfl, hback, hname⟩ := typeName_reread hs hts
    rw [List.cons_append, List.length_cons] at hlen
    unfold primaryType
    rw [List.cons_append, bind_of_ok (hname _),
      bind_of_ok (typeParams_reread hpart hparams hback (by omega)), get_bind_apply,
      if_neg hnoArray]
    rfl

theorem unionType_reread (hpart : RereadsType part n) (h : TypePhrase Rereadable false t)
    (hts : ReadAs ts t.pieces) (hrest : (kindAt 0 rest).closesType = true)
    (hlen : (ts ++ rest).length ≤ n) : unionType part (ts ++ rest) = .ok (t, rest) := by
  have hitem : ReadsItems (primaryType part) (TypePhrase Rereadable true) .pipe
      Kind.closesType (n + 1) := by
    intro u us rest hu hus hrest hlen
    refine primaryType_reread hpart hu hus ?_ (by omega)
    rcases hrest with hk | hk
    · rw [hk]
      rfl
    · unfold Kind.closesMember
      split
      · rfl
      · exact hk
  -- A type that is no union is the only one of its members.
  obtain ⟨first, others, hmembers, hpieces, rfl⟩ : ∃ first others,
      (∀ u ∈ first :: others, TypePhrase Rereadable true u) ∧
      t.pieces = first.pieces ++ furtherPieces .pipe others ∧
      t = if others.isEmpty then first else .union (first :: others) := by
    cases h with
    | whole h => exact ⟨t, [], by simpa using h, by simp [furtherPieces], rfl⟩
    | union h => exact ⟨_, _, h, pieces_union _ _, rfl⟩
  rw [hpieces] at hts
  obtain ⟨mid, hfirst, hothers⟩ := items_reread hitem rfl hmembers hts hrest (by omega)
  unfold unionType
  rw [bind_of_ok hfirst, bind_of_ok hothers]
  rfl

theorem rereads_type (n : Nat) : RereadsType type n := by
  induction n using Nat.strong_induction_on with
  | _ n ih =>
    intro t ts rest h hts hrest hlen
    change nestFrom _ _ () (ts ++ rest) = _
    rw [nestFrom]
    refine unionType_reread ?_ h hts hrest le_rfl
    intro t' ts' rest' h' hts' hrest' hlen'
    dsimp only
    rw [if_pos hlen']
    exact ih _ hlen h' hts' hrest' hlen'

end

end Rule

end Sigil
