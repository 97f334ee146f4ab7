import Mathlib.Data.List.Infix
import Sigil.Json.Comments

namespace Sigil

namespace Json

/-- What can stand between the quotes of a string: each quote and each backslash in it stands
behind a backslash. -/
inductive Escaped : List Char → Prop where
  | nil : Escaped []
  | plain {c : Char} {cs : List Char} : c ≠ '"' → c ≠ '\\' → Escaped cs → Escaped (c :: cs)
  | escape (c : Char) {cs : List Char} : Escaped cs → Escaped ('\\' :: c :: cs)

/-- A part of a commented document. -/
inductive Segment where
  | quoted (body : List Char)
  | lineComment (body : List Char)
  | blockComment (body : List Char)
  | other (c : Char)
deriving DecidableEq, Repr

namespace Segment

def text : Segment → List Char
  | quoted body => '"' :: body ++ ['"']
  | lineComment body => '/' :: '/' :: body
  | blockComment body => '/' :: '*' :: body ++ ['*', '/']
  | other c => [c]

def isComment : Segment → Bool
  | lineComment _ | blockComment _ => true
  | quoted _ | other _ => false

/-- Whether a segment can stand before `behind`: a string is complete, a line comment goes on to
the end of its line, a block comment to the first mark that closes it, and no other character opens
a string or a comment. -/
def Fits (behind : List Char) : Segment → Prop
  | quoted body => Escaped body
  | lineComment body => '\n' ∉ body ∧ (behind = [] ∨ behind.head? = some '\n')
  | blockComment body => ¬ ['*', '/'] <:+: body
  | other c =>
    c ≠ '"' ∧ ¬ (c = '/' ∧ (behind.head? = some '/' ∨ behind.head? = some '*'))

end Segment

/-- The document that segments make up. -/
def documentOf (ss : List Segment) : List Char := ss.flatMap Segment.text

/-- Segments that each fit before those behind them. -/
def Segmented : List Segment → Prop
  | [] => True
  | s :: ss => s.Fits (documentOf ss) ∧ Segmented ss

/-- A character that opens neither a string nor a comment is kept. -/
theorem stripFrom_other {c : Char} {rest : List Char} (h : (Segment.other c).Fits rest) :
    stripFrom .code (c :: rest) = c :: stripFrom .code rest := by
  obtain ⟨hquote, hopens⟩ := h
  rw [stripFrom]
  · exact fun behind hc hrest => hopens ⟨hc, .inl (by rw [hrest, List.head?_cons])⟩
  · exact fun behind hc hrest => hopens ⟨hc, .inr (by rw [hrest, List.head?_cons])⟩
  · exact hquote

/-- A string is kept up to its closing quote. -/
theorem stripFrom_escaped {body : List Char} (h : Escaped body) (rest : List Char) :
    stripFrom .string (body ++ '"' :: rest) = body ++ '"' :: stripFrom .code rest := by
  induction h with
  | nil => rfl
  | @plain c cs hquote hslash _ ih =>
    rw [List.cons_append, List.cons_append, ← ih]
    rw [stripFrom]
    · exact fun _ _ hc _ => hslash hc
    · exact hquote
  | @escape c cs _ ih =>
    rw [List.cons_append, List.cons_append, List.cons_append, List.cons_append, ← ih]
    rfl

/-- A line comment goes as far as its line. -/
theorem stripFrom_line {body rest : List Char} (hbody : '\n' ∉ body)
    (hrest : rest = [] ∨ rest.head? = some '\n') :
    stripFrom .lineComment (body ++ rest) = stripFrom .code rest := by
  induction body with
  | nil =>
    rcases hrest with rfl | hhead
    · rw [List.nil_append, stripFrom, stripFrom]
    · obtain ⟨behind, rfl⟩ := List.head?_eq_some_iff.mp hhead
      have hfits : (Segment.other '\n').Fits behind :=
        ⟨by decide, fun h => absurd h.1 (by decide)⟩
      exact (stripFrom_other hfits).symm
  | cons c cs ih =>
    obtain ⟨hc, hcs⟩ := not_or.mp fun h => hbody (List.mem_cons.mpr h)
    rw [List.cons_append, stripFrom, ih hcs]
    exact fun h => hc h.symm

/-- A block comment goes as far as the first mark that closes it. -/
theorem stripFrom_block {body : List Char} (h : ¬ ['*', '/'] <:+: body) (rest : List Char) :
    stripFrom .blockComment (body ++ '*' :: '/' :: rest) = stripFrom .code rest := by
  induction body with
  | nil => rfl
  | cons c cs ih =>
    have hcs : ¬ ['*', '/'] <:+: cs :=
      fun hmark => h (hmark.trans (List.suffix_cons c cs).isInfix)
    rw [List.cons_append, stripFrom, ih hcs]
    intro behind hc hbehind
    -- The closing mark would start at `c`: behind it stands `cs` or the star of the last mark.
    cases cs with
    | nil => cases hbehind
    | cons next cs =>
      obtain ⟨hnext, -⟩ := List.cons.inj hbehind
      subst hc hnext
      exact h ⟨[], cs, rfl⟩

/-- Stripping keeps a segment whole or drops it whole. -/
theorem stripFrom_segment {s : Segment} {rest : List Char} (h : s.Fits rest) :
    stripFrom .code (s.text ++ rest) =
      (if s.isComment then [] else s.text) ++ stripFrom .code rest := by
  cases s with
  | quoted body =>
    have htext : (Segment.quoted body).text ++ rest = '"' :: (body ++ '"' :: rest) := by
      simp [Segment.text]
    rw [htext, stripFrom, stripFrom_escaped h]
    simp [Segment.text, Segment.isComment]
  | lineComment body => exact stripFrom_line h.1 h.2
  | blockComment body =>
    have htext : (Segment.blockComment body).text ++ rest =
        '/' :: '*' :: (body ++ '*' :: '/' :: rest) := by
      simp [Segment.text]
    rw [htext, stripFrom, stripFrom_block h]
    rfl
  | other c => exact stripFrom_other h

theorem stripComments_documentOf {ss : List Segment} (h : Segmented ss) :
    stripComments (documentOf ss) = documentOf (ss.filter (!·.isComment)) := by
  induction ss with
  | nil => rfl
  | cons s ss ih =>
    obtain ⟨hs, hss⟩ := h
    have hcons : documentOf (s :: ss) = s.text ++ documentOf ss := List.flatMap_cons
    rw [hcons]
    refine (stripFrom_segment hs).trans ?_
    have hrest : stripFrom .code (documentOf ss) = documentOf (ss.filter (!·.isComment)) := ih hss
    rw [hrest, List.filter_cons]
    by_cases hcomment : s.isComment
    · simp [hcomment]
    · simp [hcomment, documentOf]

/-- Where what is kept of a text is read again: behind a comment, in the code. -/
def Setting.resumed : Setting → Setting
  | .string => .string
  | .code | .lineComment | .blockComment => .code

/-- A text that opens no comment is kept from its first character on. -/
theorem head?_stripFrom {rest : List Char} (h : rest.head? ≠ some '/') :
    (stripFrom .code rest).head? = rest.head? := by
  cases rest with
  | nil => rw [stripFrom]
  | cons c rest =>
    have hc : c ≠ '/' := fun hc => h (congrArg some hc)
    by_cases hquote : c = '"'
    · subst hquote
      rw [stripFrom]
      rfl
    · rw [stripFrom_other ⟨hquote, fun hopens => hc hopens.1⟩]
      rfl

/-- What is kept reads as before. A slash that is kept in the code has no slash and no star behind
it, and none comes there: what follows it is no comment. -/
theorem stripFrom_resumed (setting : Setting) (text : List Char) :
    stripFrom setting.resumed (stripFrom setting text) = stripFrom setting text := by
  fun_induction stripFrom setting text with
  | case1 setting => cases setting <;> rfl
  | case2 rest ih => exact ih
  | case3 rest ih => exact ih
  | case4 rest ih => exact congrArg ('"' :: ·) ih
  | case5 c rest hline hblock hquote ih =>
    have hfits : (Segment.other c).Fits (stripFrom .code rest) := by
      refine ⟨hquote, fun ⟨hc, hhead⟩ => ?_⟩
      have hslash : rest.head? ≠ some '/' := fun hrest => by
        obtain ⟨behind, hbehind⟩ := List.head?_eq_some_iff.mp hrest
        exact hline behind hc hbehind
      rw [head?_stripFrom hslash] at hhead
      rcases hhead with hrest | hrest
      · exact hslash hrest
      · obtain ⟨behind, hbehind⟩ := List.head?_eq_some_iff.mp hrest
        exact hblock behind hc hbehind
    exact (stripFrom_other hfits).trans (congrArg _ ih)
  | case6 c rest ih => exact congrArg ('\\' :: c :: ·) ih
  | case7 rest ih => exact congrArg ('"' :: ·) ih
  | case8 c rest hescape hquote ih =>
    have hplain : stripFrom .string (c :: stripFrom .string rest) =
        c :: stripFrom .string (stripFrom .string rest) := by
      rw [stripFrom]
      · -- A lone backslash is the last character of the text, so nothing is kept behind it.
        intro next behind hc hkept
        cases rest with
        | nil => cases hkept
        | cons first others => exact hescape first others hc rfl
      · exact hquote
    exact hplain.trans (congrArg _ ih)
  | case9 rest ih =>
    have hfits : (Segment.other '\n').Fits (stripFrom .code rest) :=
      ⟨by decide, fun h => absurd h.1 (by decide)⟩
    exact (stripFrom_other hfits).trans (congrArg _ ih)
  | case10 c rest hline ih => exact ih
  | case11 rest ih => exact ih
  | case12 c rest hblock ih => exact ih

end Json

/-- Of a document that is cut into segments, stripping leaves those that are no comments, as they
are. Of no document does it leave a comment that could be stripped again. -/
theorem stripComments_exact :
    (∀ ss : List Json.Segment, Json.Segmented ss →
      Json.stripComments (Json.documentOf ss) =
        Json.documentOf (ss.filter (!·.isComment))) ∧
      ∀ text : List Char,
        Json.stripComments (Json.stripComments text) = Json.stripComments text :=
  ⟨fun _ h => Json.stripComments_documentOf h, Json.stripFrom_resumed .code⟩

/-- Marks of comments inside a string, and quotes and slashes inside comments, are not taken for
more than they are. -/
theorem stripComments_exact_nested :
    Json.Segmented [.other '/', .quoted ['/', '\\', '"', '*'], .blockComment ['/', '"', '*'],
        .lineComment ['"', '/', '*'], .other '\n', .other '*', .other '/'] ∧
      Json.stripComments "/\"/\\\"*\"/*/\"**///\"/*\n*/".toList = "/\"/\\\"*\"\n*/".toList := by
  have hstring : Json.Escaped ['/', '\\', '"', '*'] :=
    .plain (by decide) (by decide) (.escape '"' (.plain (by decide) (by decide) .nil))
  have hblock : ¬ ['*', '/'] <:+: ['/', '"', '*'] := by decide
  have hsegmented : Json.Segmented [.other '/', .quoted ['/', '\\', '"', '*'],
      .blockComment ['/', '"', '*'], .lineComment ['"', '/', '*'], .other '\n', .other '*',
      .other '/'] := by
    simp [Json.Segmented, Json.Segment.Fits, Json.documentOf, Json.Segment.text, hstring,
      hblock]
  exact ⟨hsegmented, stripComments_exact.1 _ hsegmented⟩

end Sigil
