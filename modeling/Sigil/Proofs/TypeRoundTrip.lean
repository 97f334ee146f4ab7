import Sigil.Proofs.TypeRereading

namespace Sigil

/-- The names of types without that of arrays, which brackets give as well. -/
def ownNames (names : List String) : List String := names.filter (· ≠ "Array")

theorem ownNames_append (xs ys : List String) :
    ownNames (xs ++ ys) = ownNames xs ++ ownNames ys := List.filter_append xs ys

namespace TypeExpr

/-- The names in a type, arrays apart. -/
def told (t : TypeExpr) : List String := ownNames t.names

theorem ownNames_namesAll (ts : List TypeExpr) : ownNames (namesAll ts) = ts.flatMap told := by
  rw [namesAll_eq_flatMap]
  exact List.filter_flatMap

theorem told_generic (name : String) (params : List TypeExpr) :
    (generic name params).told = ownNames [name] ++ params.flatMap told := by
  rw [told, names, ← List.singleton_append, ownNames_append, ownNames_namesAll]

theorem told_arrayOf (t : TypeExpr) : (Rule.arrayOf t).told = t.told := by
  have hgeneric : (generic "Array" [t]).told = t.told := by
    rw [told_generic, List.flatMap_singleton]
    rfl
  cases t with
  | simple => rfl
  | array | union | generic => exact hgeneric

end TypeExpr

namespace Lexeme

/-- The names that lexemes give to types, arrays apart. -/
def namesIn (ts : List Lexeme) : List String :=
  ownNames ((ts.map piece).filterMap Piece.typeName?)

variable {t : Lexeme} (ts : List Lexeme)

theorem namesIn_cons_of_some {s : String} (h : t.piece.typeName? = some s) :
    namesIn (t :: ts) = ownNames [s] ++ namesIn ts := by
  rw [namesIn, List.map_cons, List.filterMap_cons_some h, ← List.singleton_append,
    ownNames_append, namesIn]

theorem namesIn_cons_symbol {s : Symbol} (h : t.kind = .symbol s) :
    namesIn (t :: ts) = namesIn ts := by
  have hnone : t.piece.typeName? = none := by
    unfold Piece.typeName? piece
    rw [h]
  rw [namesIn, List.map_cons, List.filterMap_cons_none hnone, namesIn]

end Lexeme

namespace Rule

open Sigil.Parser TypeExpr Lexeme

section

variable {α : Type} {f : α → List String} {ts rest : List Lexeme}

/-- What the rule reads has the names that the lexemes it uses up give. -/
def Tells (f : α → List String) (p : Rule α) : Prop :=
  ∀ ⦃ts a rest⦄, AllScanned ts → p ts = .ok (a, rest) →
    AllScanned rest ∧ namesIn ts = f a ++ namesIn rest

def toldRound (f : α → List String) : Round α → List String
  | .stop => []
  | .last a | .more a => f a

theorem namesIn_of_typeName {s : String} (hts : AllScanned ts)
    (hr : typeName ts = .ok (s, rest)) :
    AllScanned rest ∧ namesIn ts = ownNames [s] ++ namesIn rest := by
  obtain ⟨t, rfl, hs⟩ := typeName_eq_ok (fun t ht => (hts t ht).value) hr
  exact ⟨(List.forall_mem_cons.mp hts).2, namesIn_cons_of_some rest hs⟩

theorem namesIn_of_eat {s : Symbol} {eaten : Bool} (hts : AllScanned ts)
    (hr : eat (.symbol s) ts = .ok (eaten, rest)) :
    AllScanned rest ∧ namesIn ts = namesIn rest := by
  by_cases hk : kindAt 0 ts = .symbol s
  · cases ts with
    | nil => cases hk
    | cons t ts =>
      rw [eat_cons hk] at hr
      cases hr
      exact ⟨(List.forall_mem_cons.mp hts).2, namesIn_cons_symbol _ hk⟩
  · rw [eat_of_ne hk] at hr
    cases hr
    exact ⟨hts, rfl⟩

theorem namesIn_of_expect {s : Symbol} (hts : AllScanned ts)
    (hr : expect (.symbol s) ts = .ok ((), rest)) :
    AllScanned rest ∧ namesIn ts = namesIn rest := by
  unfold expect at hr
  obtain ⟨eaten, mid, heat, hr⟩ := bind_eq_ok hr
  cases eaten with
  | true =>
    cases hr
    exact namesIn_of_eat hts heat
  | false => cases hr

theorem tells_further {item : Rule α} (separator : Symbol) (h : Tells f item) :
    Tells (toldRound f) (further separator item) := by
  intro ts r rest hts hr
  unfold further at hr
  obtain ⟨eaten, mid, heat, hr⟩ := bind_eq_ok hr
  obtain ⟨hmid, hnames⟩ := namesIn_of_eat hts heat
  cases eaten with
  | true =>
    obtain ⟨a, back, hitem, hr⟩ := bind_eq_ok hr
    cases hr
    rw [hnames]
    exact h hmid hitem
  | false =>
    cases hr
    exact ⟨hmid, hnames⟩

theorem tells_many {round : Rule (Round α)} (h : Tells (toldRound f) round) :
    Tells (List.flatMap f) (many round) := by
  intro ts as rest hts hr
  change manyFrom round ts = .ok (as, rest) at hr
  fun_induction manyFrom round ts generalizing as rest with
  | case1 ts e he => cases hr
  | case2 ts mid hm =>
    cases hr
    exact h hts hm
  | case3 ts a mid hm =>
    cases hr
    rw [List.flatMap_singleton]
    exact h hts hm
  | case4 ts a mid hm hlt e he ih => cases hr
  | case5 ts a mid hm hlt others final he ih =>
    cases hr
    obtain ⟨hmid, hnames⟩ := h hts hm
    obtain ⟨hfinal, hothers⟩ := ih hmid he
    refine ⟨hfinal, ?_⟩
    rw [hnames, hothers, List.flatMap_cons, List.append_assoc]
    rfl
  | case6 ts a mid hm hlt =>
    cases hr
    rw [List.flatMap_singleton]
    exact h hts hm

end

variable {part : Rule TypeExpr}

theorem tells_typeParams (h : Tells told part) :
    Tells (List.flatMap told) (typeParams part) := by
  intro ts params rest hts hr
  unfold typeParams at hr
  obtain ⟨eaten, inner, heat, hr⟩ := bind_eq_ok hr
  obtain ⟨hinner, hnames⟩ := namesIn_of_eat hts heat
  cases eaten with
  | true =>
    obtain ⟨first, mid, hfirst, hr⟩ := bind_eq_ok hr
    obtain ⟨others, close, hothers, hr⟩ := bind_eq_ok hr
    obtain ⟨_, _, hexpect, hr⟩ := bind_eq_ok hr
    cases hr
    obtain ⟨hmid, hfirst⟩ := h hinner hfirst
    obtain ⟨hclose, hothers⟩ := tells_many (tells_further .comma h) hmid hothers
    obtain ⟨hrest, hexpect⟩ := namesIn_of_expect hclose hexpect
    refine ⟨hrest, ?_⟩
    rw [hnames, hfirst, hothers, hexpect, List.flatMap_cons, List.append_assoc]
  | false =>
    cases hr
    exact ⟨hinner, hnames⟩

theorem tells_primaryType (h : Tells told part) : Tells told (primaryType part) := by
  intro ts t rest hts hr
  unfold primaryType at hr
  obtain ⟨name, mid, hname, hr⟩ := bind_eq_ok hr
  obtain ⟨params, back, hparams, hr⟩ := bind_eq_ok hr
  obtain ⟨hmid, hname⟩ := namesIn_of_typeName hts hname
  obtain ⟨hback, hparams⟩ := tells_typeParams h hmid hparams
  have hbase : namesIn ts =
      (if params.isEmpty then simple name else generic name params).told ++ namesIn back := by
    rw [hname, hparams, ← List.append_assoc]
    cases params with
    | nil => exact congrArg (· ++ _) (List.append_nil _)
    | cons first others => exact congrArg (· ++ _) (told_generic name (first :: others)).symm
  rw [get_bind_apply] at hr
  split at hr
  next hbrackets =>
    rcases back with _ | ⟨lbracket, _ | ⟨rbracket, back⟩⟩
    · cases hbrackets.1
    · cases hbrackets.2
    rw [bind_of_ok (skip_apply _), bind_of_ok (skip_apply _)] at hr
    cases hr
    rw [told_arrayOf, hbase, namesIn_cons_symbol _ hbrackets.1, namesIn_cons_symbol _ hbrackets.2]
    exact ⟨(List.forall_mem_cons.mp (List.forall_mem_cons.mp hback).2).2, rfl⟩
  next =>
    cases hr
    exact ⟨hback, hbase⟩

theorem tells_unionType (h : Tells told part) : Tells told (unionType part) := by
  intro ts t rest hts hr
  unfold unionType at hr
  obtain ⟨first, mid, hfirst, hr⟩ := bind_eq_ok hr
  obtain ⟨others, back, hothers, hr⟩ := bind_eq_ok hr
  have hmember := tells_primaryType h
  obtain ⟨hmid, hfirst⟩ := hmember hts hfirst
  obtain ⟨hback, hothers⟩ := tells_many (tells_further .pipe hmember) hmid hothers
  cases hr
  refine ⟨hback, ?_⟩
  rw [hfirst, hothers, ← List.append_assoc]
  congr 1
  cases others with
  | nil => exact List.append_nil _
  | cons second others => exact (ownNames_namesAll (first :: second :: others)).symm

/-- A type has the names that its tokens give, in their order. -/
theorem tells_type : Tells told type := by
  intro ts t rest hts hr
  refine nestWith_of_step
    (Q := fun _ ts t rest => AllScanned ts → AllScanned rest ∧ namesIn ts = told t ++ namesIn rest)
    ?_ ?_ hr hts
  · exact fun _ _ _ _ hr => nomatch hr
  · intro part hpart b ts t rest hr hts
    exact tells_unionType (fun ts t rest hts hr => hpart () ts t rest hr hts) hts hr

end Rule

section

variable {s : String}

/-- Only identifiers are spelled differently, and by identifiers. -/
theorem typeName_cases (s : String) : typeName s = s ∨ isName s ∧ isName (typeName s) := by
  have htable : ∀ entry ∈ typeNames, isName entry.1 ∧ isName entry.2 := by decide
  unfold typeName
  cases h : typeNames.lookup s with
  | none => exact .inl rfl
  | some spelling =>
    obtain ⟨before, behind, hentries, -⟩ := List.lookup_eq_some_iff.mp h
    exact .inr (htable (s, spelling) (by simp [hentries]))

theorem NamesType.typeName (h : NamesType s) : NamesType (typeName s) := by
  rcases typeName_cases s with hs | ⟨-, hs⟩
  · rwa [hs]
  · exact .ident hs

theorem isPlain_typeName (s : String) : isPlain (typeName s) = isPlain s := by
  rcases typeName_cases s with hs | ⟨hname, hs⟩
  · rw [hs]
  · rw [isPlain_of_isName hname, isPlain_of_isName hs]

end

/-- Read on its own, the text is that of the type and of nothing more. -/
def TypeReread (text : String) (t : TypeExpr) : Prop :=
  ∃ body stop, Token.tokenize text = .ok (body ++ [stop]) ∧ stop.isEnd ∧
    (Input.ofTokens (body ++ [stop])).body = body ∧
    Rule.type (Input.ofTokens (body ++ [stop])).lexemes = .ok (t, [])

section

open Mark

variable {t : TypeExpr} {text : String}

/-- What is written with plain literals only is read back. -/
theorem TypePhrase.typeReread (h : TypePhrase Rereadable false t)
    (htext : text.toList = textAll t.marks) : TypeReread text t := by
  have hnames : ∀ s ∈ t.marks.filterMap name?, Rereadable s := by
    rw [h.names_marks]
    exact h.name_of_mem
  have hscan : Scans (textAll t.marks ++ []) (t.pieces ++ []) :=
    (scansAll_iff h.isChain_marks hnames (by simp)).mpr ⟨[], rfl, .nil⟩
  rw [List.append_nil, List.append_nil, ← htext] at hscan
  obtain ⟨body, stop, htokens, hstop, hbody, hpieces⟩ := hscan.tokenize
  refine ⟨body, stop, htokens, hstop, hbody, ?_⟩
  have hreadAs : ReadAs (Input.ofTokens (body ++ [stop])).lexemes t.pieces :=
    ⟨hpieces, fun l hl => (lexemes_scanned htokens l hl).value⟩
  have hread : Rule.type ((Input.ofTokens (body ++ [stop])).lexemes ++ []) = .ok (t, []) :=
    Rule.rereads_type _ h hreadAs rfl (Nat.lt_succ_self _)
  rwa [List.append_nil] at hread

theorem Reads.scans {s e : Standing} {cs : List Char} {ls : List Lexeme} (h : Reads s cs ls e) :
    Scans cs (ls.map Lexeme.piece) := by
  induction h with
  | nil => exact .nil
  | skip hread _ ih => exact .skip hread ih
  | token hread _ ih => exact .token hread ih

/-- The tokens of marks give the names among them. -/
theorem Mark.filterMap_pieces {ms : List Mark} (h : ∀ s ∈ ms.filterMap name?, Rereadable s) :
    (ms.flatMap pieces).filterMap Piece.typeName? = ms.filterMap name? := by
  induction ms with
  | nil => rfl
  | cons m ms ih =>
    rw [List.flatMap_cons, List.filterMap_append]
    cases m with
    | name s =>
      obtain ⟨hs, hms⟩ := List.forall_mem_cons.mp h
      obtain ⟨p, hp, hname⟩ := pieces_name hs
      rw [hp, ih hms, List.filterMap_cons_some hname]
      rfl
    | bar | comma | brackets | opening | closing => exact ih h

theorem literal_inj {a b : String} (h : "'" ++ a ++ "'" = "'" ++ b ++ "'") : a = b := by
  have hchars := congrArg String.toList h
  rw [toList_literal, toList_literal, List.cons_inj_right, List.append_left_inj] at hchars
  exact String.toList_inj.mp hchars

theorem ownNames_literal (content : String) (names : List String) :
    ownNames (("'" ++ content ++ "'") :: names) = ("'" ++ content ++ "'") :: ownNames names := by
  refine List.filter_cons_of_pos (decide_eq_true fun h => ?_)
  have hchars := congrArg (fun s => s.toList.head?) h
  rw [toList_literal] at hchars
  cases hchars

/-- A literal is read as it is written only if it holds neither a quote nor a backslash. -/
theorem plain_of_literal_told {before behind : List Mark} {content : String} {ps : List Piece}
    (hbefore : ∀ s ∈ before.filterMap name?, Rereadable s) (hchain : before.IsChain Apart)
    (hscan : Scans (textAll (before ++ name ("'" ++ content ++ "'") :: behind)) ps)
    (htold : ownNames (ps.filterMap Piece.typeName?) = ownNames
      ((before ++ name ("'" ++ content ++ "'") :: behind).filterMap name?)) :
    ∀ c ∈ content.toList, c ≠ '\'' ∧ c ≠ '\\' := by
  have htext : textAll (before ++ name ("'" ++ content ++ "'") :: behind) =
      textAll before ++ '\'' :: (content.toList ++ '\'' :: textAll behind) := by
    rw [textAll, List.flatMap_append, List.flatMap_cons, text, toList_literal, textAll, textAll]
    simp
  have hquote : ∀ c ∈ ('\'' :: (content.toList ++ '\'' :: textAll behind)).head?,
      isWordPart c = false := by
    intro c hc
    cases hc
    rfl
  rw [htext] at hscan
  obtain ⟨_, hps, hliteral⟩ := (scansAll_iff hchain hbefore hquote).mp hscan
  obtain ⟨body, qs, hbody, hfront, rfl⟩ := hliteral.quote_cases
  have hgiven : Piece.typeName? ⟨.string, String.ofList ('\'' :: (body ++ ['\'']))⟩ =
      some ("'" ++ String.ofList (Token.unescape body) ++ "'") := by
    change some ("'" ++ String.ofList (Token.unescape ((String.ofList
      ('\'' :: (body ++ ['\'']))).toList.drop 1).dropLast) ++ "'") = _
    rw [String.toList_ofList, List.drop_one, List.tail_cons, List.dropLast_concat]
  -- The names before the literal agree, so the next one that is read is the literal.
  rw [hps, List.filterMap_append, filterMap_pieces hbefore, List.filterMap_cons_some hgiven,
    List.filterMap_append, List.filterMap_cons_some (f := name?) rfl, ownNames_append,
    ownNames_append, ownNames_literal, ownNames_literal, List.append_cancel_left_eq,
    List.cons.injEq] at htold
  have hcontent : content.toList = Token.unescape body := by
    rw [← literal_inj htold.1, String.toList_ofList]
  rw [hcontent] at hfront ⊢
  obtain ⟨hsame, hplain⟩ := plain_of_prefix_unescape (by decide) hbody hfront
  rwa [hsame]

/-- Of the literals in what is read back none holds a quote or a backslash. -/
theorem TypePhrase.plain_of_typeReread (h : TypePhrase NamesType false t)
    (htext : text.toList = textAll t.marks) (hread : TypeReread text t) :
    ∀ s ∈ t.names, isPlain s = true := by
  obtain ⟨body, stop, htokens, -, -, htype⟩ := hread
  obtain ⟨e, hreads, -⟩ := Reads.of_tokenize htokens
  have hscan := hreads.scans
  rw [htext] at hscan
  have htold := (Rule.tells_type (lexemes_scanned htokens) htype).2
  have hnames := h.name_of_mem
  have hchain := h.isChain_marks
  change ownNames (_ : List String) = TypeExpr.told t ++ [] at htold
  rw [List.append_nil, TypeExpr.told] at htold
  rw [← h.names_marks] at htold hnames ⊢
  -- The names before the first that is not plain are read as they are written.
  cases hfind : t.marks.find? (fun m => m.name?.any (!isPlain ·)) with
  | none =>
    intro s hs
    obtain ⟨m, hm, hname⟩ := List.mem_filterMap.mp hs
    simpa [hname] using List.find?_eq_none.mp hfind m hm
  | some m =>
    obtain ⟨hm, before, behind, hmarks, hbefore⟩ := List.find?_eq_some_iff_append.mp hfind
    rw [hmarks] at hscan htold hnames hchain
    have hrereadable : ∀ s ∈ before.filterMap name?, Rereadable s := by
      intro s hs
      obtain ⟨m, hmem, hname⟩ := List.mem_filterMap.mp hs
      refine ⟨hnames s (List.mem_filterMap.mpr ⟨m, List.mem_append_left _ hmem, hname⟩), ?_⟩
      simpa [hname] using hbefore m hmem
    cases m with
    | bar | comma | brackets | opening | closing => cases hm
    | name s =>
      have hplain : isPlain s ≠ true := by simpa [name?] using hm
      cases hnames s (by simp [name?]) with
      | ident hs => exact absurd (isPlain_of_isName hs) hplain
      | @literal content _ =>
        refine absurd ((isPlain_literal content).mpr ?_) hplain
        exact plain_of_literal_told hrereadable (List.isChain_append.mp hchain).1 hscan htold

end

/-- A type that is read anywhere in a source is read back from its text, with its names in the
spelling of the output, exactly if none of its literals holds a single quote or a backslash. -/
theorem type_render_reread_iff {source : String} {tokens : List Token} {ts rest : List Lexeme}
    {t : TypeExpr} (htokens : Token.tokenize source = .ok tokens)
    (hts : ts <:+ (Input.ofTokens tokens).lexemes) (hread : Rule.type ts = .ok (t, rest)) :
    TypeReread t.render t.respelled ↔ ∀ name ∈ t.names, isPlain name = true := by
  have hscanned : Lexeme.AllScanned ts := fun l hl => lexemes_scanned htokens l (hts.subset hl)
  have h := (Rule.yields_type_phrase hscanned hread).2
  have hrespelled : TypePhrase NamesType false t.respelled :=
    h.respelled fun _ hname => hname.typeName
  have hplain : (∀ name ∈ t.respelled.names, isPlain name = true) ↔
      ∀ name ∈ t.names, isPlain name = true := by
    rw [h.names_respelled, List.forall_mem_map]
    simp only [isPlain_typeName]
  rw [← hplain]
  refine ⟨hrespelled.plain_of_typeReread h.toList_render, fun hnames => ?_⟩
  exact (hrespelled.mono fun s hs hname => ⟨hname, hnames s hs⟩).typeReread h.toList_render

theorem type_render_reread_nested :
    ∃ tokens rest t,
      Token.tokenize "$p::Map<str, \"a b\"[]> | Row<int | \"\">[] | bool[]" = .ok tokens ∧
      Rule.type ((Input.ofTokens tokens).lexemes.drop 3) = .ok (t, rest) ∧
      t.render = "Map<string, 'a b'[]> | Array<Row<number | ''>> | boolean[]" ∧
      TypeReread t.render t.respelled := by
  have hrun : ((Token.tokenize "$p::Map<str, \"a b\"[]> | Row<int | \"\">[] | bool[]").toOption.bind
      fun tokens => (Rule.type ((Input.ofTokens tokens).lexemes.drop 3)).toOption.bind fun read =>
        some (read.1.render, read.1.names.all isPlain)) =
      some ("Map<string, 'a b'[]> | Array<Row<number | ''>> | boolean[]", true) := by
    decide +kernel
  obtain ⟨tokens, htokens, hrun⟩ := Option.bind_eq_some_iff.1 hrun
  obtain ⟨⟨t, rest⟩, hread, hrender⟩ := Option.bind_eq_some_iff.1 hrun
  have htokens := eq_ok_of_toOption htokens
  have hread := eq_ok_of_toOption hread
  obtain ⟨hrender, hplain⟩ := Prod.mk.inj (Option.some.inj hrender)
  refine ⟨tokens, rest, t, htokens, hread, hrender, ?_⟩
  exact (type_render_reread_iff htokens (List.drop_suffix 3 _) hread).mpr
    (List.all_eq_true.mp hplain)

/-- The text of a literal type with a quote in it is no text of any type. -/
theorem type_render_not_reread_quote :
    ∃ tokens rest t, Token.tokenize "$p::\"it's\"" = .ok tokens ∧
      Rule.type ((Input.ofTokens tokens).lexemes.drop 3) = .ok (t, rest) ∧
      t.render = "'it's'" ∧ ∀ u, ¬ TypeReread t.render u := by
  have hrun : ((Token.tokenize "$p::\"it's\"").toOption.bind fun tokens =>
      (Rule.type ((Input.ofTokens tokens).lexemes.drop 3)).toOption.bind fun read =>
        some read.1.render) = some "'it's'" := by
    decide +kernel
  obtain ⟨tokens, htokens, hrun⟩ := Option.bind_eq_some_iff.1 hrun
  obtain ⟨⟨t, rest⟩, hread, hrender⟩ := Option.bind_eq_some_iff.1 hrun
  refine ⟨tokens, rest, t, eq_ok_of_toOption htokens, eq_ok_of_toOption hread,
    Option.some.inj hrender, ?_⟩
  rintro u ⟨body, stop, hretokens, -⟩
  have hfails : (Token.tokenize "'it's'").toOption = none := by decide +kernel
  rw [Option.some.inj hrender] at hretokens
  rw [hretokens] at hfails
  cases hfails

end Sigil
