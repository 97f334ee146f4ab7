import Sigil.Proofs.LineTexts

namespace Sigil

/-- What a character behind a backslash stands for: a line feed if it is an `n`, or else itself. -/
def escapeValue (c : Char) : Option Char := some (if c = 'n' then '\n' else c)

/-- Reads the text of a literal up to its closing quote, and what stands behind it. What a character
behind a backslash stands for, if it may stand there, is given by `escape`. -/
def readToQuote (escape : Char → Option Char) : List Char → Option (List Char × List Char)
  | [] => none
  | ['\\'] => none
  | '\\' :: c :: cs =>
    (escape c).bind fun value => (readToQuote escape cs).map (Prod.map (value :: ·) id)
  | c :: cs =>
    if c = '\'' then some ([], cs) else (readToQuote escape cs).map (Prod.map (c :: ·) id)

/-- The text of the single-quoted literal in front, and what stands behind the literal. -/
def readQuoted (escape : Char → Option Char) (text : String) : Option (String × String) :=
  match text.toList with
  | '\'' :: cs => (readToQuote escape cs).map (Prod.map String.ofList String.ofList)
  | _ => none

/-- Reads what stands between tags: a character in a literal of its own stands for itself, and no
other character of markup may occur. -/
def readMarkupText : List Char → Option (List Char)
  | [] => some []
  | '{' :: '\'' :: c :: '\'' :: '}' :: cs => (readMarkupText cs).map (c :: ·)
  | c :: cs =>
    if c = '{' ∨ c = '}' ∨ c = '<' ∨ c = '>' then none else (readMarkupText cs).map (c :: ·)

/-- The text that is written between tags, if it is one. -/
def readBetweenTags (text : String) : Option String :=
  (readMarkupText text.toList).map String.ofList

section Literals

variable {escape : Char → Option Char}

/-- The escapes that literals are written with mean what they are written for. -/
structure HasEscapes (escape : Char → Option Char) : Prop where
  quote : escape '\'' = some '\''
  slash : escape '\\' = some '\\'
  newline : escape 'n' = some '\n'

theorem readToQuote_escape {c value : Char} (h : escape c = some value) (cs : List Char) :
    readToQuote escape ('\\' :: c :: cs) =
      (readToQuote escape cs).map (Prod.map (value :: ·) id) := by
  rw [readToQuote, h, Option.bind_some]

theorem readToQuote_plain {c : Char} (hquote : c ≠ '\'') (hslash : c ≠ '\\') (cs : List Char) :
    readToQuote escape (c :: cs) = (readToQuote escape cs).map (Prod.map (c :: ·) id) := by
  rw [readToQuote, if_neg hquote] <;> simp [hslash]

/-- The spelling of one character is read as that character, wherever the literal goes on. -/
theorem readToQuote_quotedChar (h : HasEscapes escape) (c : Char) (cs : List Char) :
    readToQuote escape (quotedChar c ++ cs) =
      (readToQuote escape cs).map (Prod.map (c :: ·) id) := by
  unfold quotedChar
  split
  next hc =>
    subst hc
    exact readToQuote_escape h.quote cs
  next hquote =>
    split
    next hc =>
      subst hc
      exact readToQuote_escape h.slash cs
    next hslash =>
      split
      next hc =>
        subst hc
        exact readToQuote_escape h.newline cs
      next => exact readToQuote_plain hquote hslash cs

theorem readToQuote_quoted (h : HasEscapes escape) (cs rest : List Char) :
    readToQuote escape (cs.flatMap quotedChar ++ '\'' :: rest) = some (cs, rest) := by
  induction cs with
  | nil => rfl
  | cons c cs ih =>
    rw [List.flatMap_cons, List.append_assoc, readToQuote_quotedChar h, ih]
    rfl

theorem readQuoted_quote (h : HasEscapes escape) (v r : String) :
    readQuoted escape (quote v ++ r) = some (v, r) := by
  have htext : (quote v ++ r).toList =
      '\'' :: (v.toList.flatMap quotedChar ++ '\'' :: r.toList) := by
    rw [String.toList_append, toList_quote]
    simp
  rw [readQuoted, htext]
  change (readToQuote escape _).map _ = _
  rw [readToQuote_quoted h]
  simp

theorem length_readToQuote {cs content rest : List Char}
    (h : readToQuote escape cs = some (content, rest)) : content.length < cs.length := by
  fun_induction readToQuote escape cs generalizing content with
  | case1 | case2 => cases h
  | case3 c cs ih =>
    obtain ⟨value, -, h⟩ := Option.bind_eq_some_iff.mp h
    obtain ⟨found, hfound, heq⟩ := Option.map_eq_some_iff.mp h
    obtain ⟨rfl, rfl⟩ := Prod.mk.inj heq
    have hlt := ih hfound
    simp only [List.length_cons]
    omega
  | case4 => cases h; simp
  | case5 c cs _ _ _ ih =>
    obtain ⟨found, hfound, heq⟩ := Option.map_eq_some_iff.mp h
    obtain ⟨rfl, rfl⟩ := Prod.mk.inj heq
    simpa using ih hfound

/-- A literal is longer than the text that it stands for. -/
theorem length_readQuoted {text v r : String} (h : readQuoted escape text = some (v, r)) :
    v.length < text.length := by
  unfold readQuoted at h
  split at h
  next cs hcs =>
    obtain ⟨found, hfound, heq⟩ := Option.map_eq_some_iff.mp h
    obtain ⟨rfl, rfl⟩ := Prod.mk.inj heq
    have hlt := length_readToQuote hfound
    have hlength : text.length = cs.length + 1 := by rw [← String.length_toList, hcs]; rfl
    rw [String.length_ofList]
    omega
  next => cases h

end Literals

theorem readMarkupText_escapedChar (c : Char) (cs : List Char) :
    readMarkupText (escapedChar c ++ cs) = (readMarkupText cs).map (c :: ·) := by
  unfold escapedChar
  split
  next => rfl
  next h =>
    rw [List.singleton_append, readMarkupText, if_neg h]
    -- Only an opening brace could start a literal here.
    rintro d ds rfl
    exact absurd (.inl rfl) h

theorem readMarkupText_escaped (cs : List Char) :
    readMarkupText (cs.flatMap escapedChar) = some cs := by
  induction cs with
  | nil => rfl
  | cons c cs ih =>
    rw [List.flatMap_cons, readMarkupText_escapedChar, ih]
    rfl

theorem readBetweenTags_escapeText (t : String) : readBetweenTags (escapeText t) = some t := by
  rw [readBetweenTags, escapeText, String.toList_ofList, readMarkupText_escaped]
  simp

/-- A literal is read as the text it was made from, whatever stands behind it, and stays on its
line; what is written between tags is read as the text that was to stand there. -/
theorem written_texts_readable (v r t : String) :
    readQuoted escapeValue (quote v ++ r) = some (v, r) ∧ OneLine (quote v) ∧
      readBetweenTags (escapeText t) = some t := by
  have hescapes : HasEscapes escapeValue := ⟨rfl, rfl, rfl⟩
  exact ⟨readQuoted_quote hescapes v r, oneLine_quote v, readBetweenTags_escapeText t⟩

end Sigil
