import Sigil.Compile
import Sigil.Proofs.OutputLines
import Sigil.Proofs.StatementLines

namespace Sigil

/-- Whether some character of a text can be seen. -/
def isVisible (s : String) : Bool := s.toList.any fun c => 33 ≤ c.toNat && c.toNat ≤ 126

theorem isVisible_append_right {s t : String} (h : isVisible t) : isVisible (s ++ t) := by
  unfold isVisible at h ⊢
  rw [String.toList_append, List.any_append, h, Bool.or_true]

namespace PositionMap

/-- An entry behind all others is put at the end. -/
theorem insertEntry_of_lt {g o : Nat} {entries : List (Nat × Nat)} (h : ∀ e ∈ entries, e.1 < g) :
    insertEntry g o entries = entries ++ [(g, o)] := by
  induction entries with
  | nil => rfl
  | cons e entries ih =>
    obtain ⟨hfirst, hothers⟩ := List.forall_mem_cons.mp h
    have hlt : ¬ g < e.1 := by omega
    have hne : g ≠ e.1 := by omega
    rw [insertEntry, if_neg hlt, if_neg hne, ih hothers, List.cons_append]

/-- Mappings whose generated lines go up are all kept, in their order. -/
theorem entries_ofMappings {file source : String} {mappings : List (Nat × Nat)}
    (hsorted : mappings.Pairwise (·.1 < ·.1)) (hpos : ∀ m ∈ mappings, 0 < m.1 ∧ 0 < m.2) :
    (ofMappings file source mappings).entries = mappings := by
  -- What is in the map so far lies before all that is still to be added.
  have hfold (map : PositionMap) (rest : List (Nat × Nat))
      (hsorted : (map.entries ++ rest).Pairwise (·.1 < ·.1))
      (hpos : ∀ m ∈ rest, 0 < m.1 ∧ 0 < m.2) :
      (rest.foldl (fun map m => map.addMapping m.1 m.2) map).entries = map.entries ++ rest := by
    induction rest generalizing map with
    | nil => simp
    | cons m rest ih =>
      obtain ⟨hm, hrest⟩ := List.forall_mem_cons.mp hpos
      have hbefore : ∀ e ∈ map.entries, e.1 < m.1 := by
        intro e he
        exact (List.pairwise_append.mp hsorted).2.2 e he m (by simp)
      have hentries : (map.addMapping m.1 m.2).entries = map.entries ++ [m] := by
        have hzero : ¬ (m.1 = 0 ∨ m.2 = 0) := by omega
        rw [addMapping, if_neg hzero]
        exact insertEntry_of_lt hbefore
      rw [List.foldl_cons, ih _ ?_ hrest, hentries, List.append_assoc, List.singleton_append]
      rwa [hentries, List.append_assoc, List.singleton_append]
  exact hfold ⟨file, source, []⟩ mappings hsorted hpos

end PositionMap

namespace OutputLine

/-- The lines that were written for a line of the source, with that line. -/
def origins (ls : List OutputLine) : List (String × Nat) :=
  ls.filterMap fun l => l.origin.map (l.text, ·)

/-- The numbers of those lines, counted from `start`, with the lines of the source. -/
def numbered (start : Nat) (ls : List OutputLine) : List (Nat × Nat) :=
  (ls.zipIdx start).filterMap fun (l, n) => l.origin.map (n, ·)

theorem numbered_cons (start : Nat) (l : OutputLine) (ls : List OutputLine) :
    numbered start (l :: ls) = (l.origin.map (start, ·)).toList ++ numbered (start + 1) ls := by
  unfold numbered
  rw [List.zipIdx_cons, List.filterMap_cons]
  dsimp only
  cases l.origin <;> rfl

theorem numbered_bounds {start : Nat} {ls : List OutputLine} {e : Nat × Nat}
    (h : e ∈ numbered start ls) : start ≤ e.1 ∧ e.1 < start + ls.length := by
  induction ls generalizing start with
  | nil => cases h
  | cons l ls ih =>
    rw [numbered_cons, List.mem_append] at h
    rw [List.length_cons]
    rcases h with h | h
    · obtain ⟨o, _, rfl⟩ := Option.map_eq_some_iff.mp (Option.mem_toList.mp h)
      exact ⟨Nat.le_refl start, by omega⟩
    · have hbounds := ih h
      omega

theorem numbered_sorted (start : Nat) (ls : List OutputLine) :
    (numbered start ls).Pairwise (·.1 < ·.1) := by
  induction ls generalizing start with
  | nil => exact .nil
  | cons l ls ih =>
    rw [numbered_cons, List.pairwise_append]
    refine ⟨?_, ih (start + 1), fun a ha b hb => ?_⟩
    · cases l.origin <;> simp
    · obtain ⟨o, _, rfl⟩ := Option.map_eq_some_iff.mp (Option.mem_toList.mp ha)
      have hbounds := numbered_bounds hb
      exact Nat.lt_of_succ_le hbounds.1

/-- At its number each of those lines is found. -/
theorem numbered_found (before ls : List OutputLine) :
    (numbered (before.length + 1) ls).map
        (fun e => (((before ++ ls).map (·.text))[e.1 - 1]?, e.2)) =
      (origins ls).map fun l => (some l.1, l.2) := by
  induction ls generalizing before with
  | nil => rfl
  | cons l ls ih =>
    have hothers := ih (before ++ [l])
    rw [List.length_append, List.length_singleton, List.append_assoc, List.singleton_append]
      at hothers
    rw [numbered_cons, List.map_append, hothers]
    unfold origins
    rw [List.filterMap_cons]
    cases l.origin with
    | none => rfl
    | some o => simp

theorem origins_append (ls ls' : List OutputLine) :
    origins (ls ++ ls') = origins ls ++ origins ls' :=
  List.filterMap_append

theorem origins_mapped {α : Type} (text : α → String) (line : α → Nat) (as : List α) :
    origins (as.map fun a => mapped (text a) (line a)) = as.map fun a => (text a, line a) := by
  induction as with
  | nil => rfl
  | cons a as ih => simp [origins, mapped]

theorem origins_unmapped {ls : List OutputLine} (h : ∀ l ∈ ls, l.origin = none) :
    origins ls = [] := by
  rw [origins, List.filterMap_eq_nil_iff]
  intro l hl
  rw [h l hl]
  rfl

theorem origins_flatMap {α : Type} (text : α → String) (line : α → Nat)
    {further : α → List OutputLine} (h : ∀ a, ∀ l ∈ further a, l.origin = none) (as : List α) :
    origins (as.flatMap fun a => mapped (text a) (line a) :: further a) =
      as.map fun a => (text a, line a) := by
  induction as with
  | nil => rfl
  | cons a as ih =>
    have hfirst : origins (mapped (text a) (line a) :: further a) = [(text a, line a)] := by
      have hfurther := origins_unmapped (h a)
      unfold origins at hfurther ⊢
      rw [List.filterMap_cons, hfurther]
      rfl
    rw [List.flatMap_cons, origins_append, hfirst, ih, List.map_cons, List.singleton_append]

/-- The text of lines, each with its newline. -/
def written (ls : List OutputLine) : String := joinWith "" (ls.map (·.text ++ "\n"))

theorem written_cons (l : OutputLine) (ls : List OutputLine) :
    (written (l :: ls)).toList = l.text.toList ++ '\n' :: (written ls).toList := by
  cases ls with
  | nil => simp [written, joinWith]
  | cons l' ls => simp [written, joinWith]

theorem splitOn_written {ls : List OutputLine} (h : AllOneLine ls) :
    (written ls).toList.splitOn '\n' = ls.map (·.text.toList) ++ [[]] := by
  induction ls with
  | nil => decide
  | cons l ls ih =>
    obtain ⟨hl, hls⟩ := allOneLine_cons.mp h
    rw [written_cons, List.splitOn_append_cons_self_of_not_mem hl, ih hls, List.map_cons,
      List.cons_append]

theorem count_written {ls : List OutputLine} (h : AllOneLine ls) :
    (written ls).toList.count '\n' = ls.length := by
  induction ls with
  | nil => decide
  | cons l ls ih =>
    obtain ⟨hl, hls⟩ := allOneLine_cons.mp h
    rw [written_cons, List.count_append, List.count_eq_zero.mpr hl, List.count_cons_self, ih hls,
      List.length_cons, Nat.zero_add]

end OutputLine

/-- A line that ends in an angle is the first line of a text that goes on with a newline, if it does
go on. -/
theorem linesOf_of_angle {lead rest : List Char} (h : '\n' ∉ lead)
    (hrest : ∀ c ∈ rest.head?, c = '\n') :
    ∃ others, linesOf (lead ++ '>' :: rest) = (lead ++ ['>']) :: others := by
  induction lead with
  | nil =>
    cases rest with
    | nil => exact ⟨[], rfl⟩
    | cons c rest =>
      obtain rfl : c = '\n' := hrest c rfl
      exact ⟨linesOf rest, rfl⟩
  | cons c lead ih =>
    rw [List.mem_cons, not_or] at h
    obtain ⟨others, hothers⟩ := ih h.2
    refine ⟨others, ?_⟩
    -- A carriage return belongs to the line unless the newline follows it at once.
    have hreturn : ∀ more, c = '\r' → lead ++ '>' :: rest = '\n' :: more → False := by
      intro more _ hmore
      cases lead with
      | nil => cases hmore
      | cons c' lead => exact h.2 (by simp [(List.cons.inj hmore).1])
    rw [List.cons_append, linesOf.eq_4 _ _ (fun hc => h.1 hc.symm) hreturn, hothers]
    rfl

theorem splitLines_joinWith {first : String} (others : List String) (hfirst : OneLine first)
    (hangle : first.toList.getLast? = some '>') :
    ∃ more, splitLines (joinWith "\n" (first :: others)) = first :: more := by
  obtain ⟨lead, hlead⟩ := List.getLast?_eq_some_iff.mp hangle
  have hrest : ∃ rest, (joinWith "\n" (first :: others)).toList = lead ++ '>' :: rest ∧
      ∀ c ∈ rest.head?, c = '\n' := by
    cases others with
    | nil => exact ⟨[], by simp [joinWith, hlead], by simp⟩
    | cons second others =>
      exact ⟨'\n' :: (joinWith "\n" (second :: others)).toList, by simp [joinWith, hlead], by simp⟩
  obtain ⟨rest, hjoined, hrest⟩ := hrest
  have hline : '\n' ∉ lead := by
    intro hm
    exact hfirst (by simp [hlead, hm])
  obtain ⟨more, hmore⟩ := linesOf_of_angle hline hrest
  refine ⟨more.map String.ofList, ?_⟩
  rw [splitLines, hjoined, hmore, List.map_cons, ← hlead, String.ofList_toList]

namespace Markup

theorem inlineElement_angle (d : Dialect) (c : Component) (items : List String) (keyed : Bool)
    (e : Element Markup) : (inlineElement d c items keyed e).toList.getLast? = some '>' := by
  cases e with
  | mk tag attributes children selfClosing line =>
    rw [inlineElement]
    split <;> rw [String.toList_append, List.getLast?_append] <;> rfl

/-- The first line of an element or a fragment is unbroken and ends in an angle. -/
theorem block_root (d : Dialect) (c : Component) (depth : Nat) (items : List String) {m : Markup}
    {line : Nat} (h : m.Spelled) (hline : m.line? = some line) :
    ∃ first others, block d c depth items m = first :: others ∧ OneLine first ∧
      first.toList.getLast? = some '>' := by
  have hindent := oneLine_indent depth
  cases m with
  | element e =>
    have hinline := oneLine_inlineElement d c items false e h
    have hangle := inlineElement_angle d c items false e
    cases e with
    | mk tag attributes children selfClosing l =>
      rw [block, blockElement]
      split
      · refine ⟨_, [], rfl, oneLine_append.mpr ⟨hindent, hinline⟩, ?_⟩
        simp [hangle]
      · cases h with
        | element htag hattributes _ =>
          have hopen := oneLine_openTag d c items false (Names.oneLine_tag htag) hattributes
          refine ⟨_, _, rfl, ?_, by simp⟩
          exact oneLine_between hindent hopen (by decide)
  | fragment children l =>
    have hinline := oneLine_inline d c items _ h
    rw [block]
    split
    · exact ⟨_, _, rfl, oneLine_append.mpr ⟨hindent, by decide⟩, by simp⟩
    · refine ⟨_, [], rfl, oneLine_append.mpr ⟨hindent, hinline⟩, ?_⟩
      rw [inline, ← String.append_assoc, String.toList_append, List.getLast?_append]
      rfl
  | interpolation e => cases hline
  | text s => cases hline
  | each binding itemType source template => cases hline

end Markup

namespace Component

/-- The lines of the typed output that are written for a line of the source, with that line, in the
order of the output: the header of each reducer's function, the field of each prop, the signature of
the function for the first prop, the hook or constant of each declaration, and the first line of the
markup. -/
def landmarks (c : Component) : List (String × Nat) :=
  c.reducers.map (fun r => (Dialect.typed.reducerSignature r, r.line)) ++
    c.props.map (fun p => (Dialect.propField p, p.line)) ++
    (c.props.head?.map fun p => ((c.signatureLine .typed).text, p.line)).toList ++
    c.bodyDeclarations.map (fun x => (x.headline .typed c, x.line)) ++
    (c.markup.line?.bind fun line =>
      (Markup.block .typed c 2 [] c.markup).head?.map (·, line)).toList

open OutputLine

theorem origin_of_mem_actionLines {actions : List KeyedEntry} {l : OutputLine}
    (h : l ∈ actions.flatMap actionLines) : l.origin = none := by
  obtain ⟨a, _, hl⟩ := List.mem_flatMap.mp h
  rcases List.mem_cons.mp hl with rfl | hl
  · rfl
  · obtain rfl := List.mem_singleton.mp hl
    rfl

theorem origins_reducerLines (d : Dialect) (c : Component) :
    origins (c.reducers.flatMap (reducerLines d)) =
      c.reducers.map fun r => (d.reducerSignature r, r.line) := by
  have hfurther (r : ReducerDecl) : ∀ l ∈ [unmapped "  switch (action.type) \x7b"] ++
      r.actions.flatMap actionLines ++ [unmapped "    default:", unmapped "      return state;",
        unmapped "  \x7d", unmapped "\x7d", blank], l.origin = none := by
    intro l hl
    simp only [List.mem_append, List.mem_cons, List.not_mem_nil, or_false] at hl
    rcases hl with (rfl | hl) | rfl | rfl | rfl | rfl | rfl
    · rfl
    · exact origin_of_mem_actionLines hl
    all_goals rfl
  exact origins_flatMap (fun r => d.reducerSignature r) (·.line) hfurther c.reducers

theorem origins_interfaceLines (c : Component) :
    origins (c.interfaceLines .typed) = c.props.map fun p => (Dialect.propField p, p.line) := by
  unfold interfaceLines
  split
  next h =>
    have hprops : c.props = [] := h.resolve_left (by decide)
    rw [hprops]
    rfl
  next =>
    rw [origins_append, origins_append, origins_mapped]
    exact List.append_nil _

theorem origin_of_mem_furtherLines {c : Component} {x : Declaration} {l : OutputLine}
    (h : l ∈ x.furtherLines c) : l.origin = none := by
  cases x with
  | effect x | layoutEffect x =>
    rcases List.mem_cons.mp h with rfl | h
    · rfl
    · obtain rfl := List.mem_singleton.mp h
      rfl
  | handle x =>
    rcases List.mem_append.mp h with h | h
    · obtain ⟨m, _, rfl⟩ := List.mem_map.mp h
      rfl
    · obtain rfl := List.mem_singleton.mp h
      rfl
  | _ => cases h

theorem origins_declarationLines (d : Dialect) (c : Component) :
    origins (c.declarationLines d) = c.bodyDeclarations.map fun x => (x.headline d c, x.line) := by
  have hfurther (x : Declaration) : ∀ l ∈ x.furtherLines c, l.origin = none :=
    fun l => origin_of_mem_furtherLines
  have hflat := origins_flatMap (Declaration.headline d c) Declaration.line hfurther
    c.bodyDeclarations
  rw [declarationLines_eq]
  exact hflat

theorem origins_markupLines {c : Component} (h : c.Spelled) :
    origins (c.markupLines .typed) = (c.markup.line?.bind fun line =>
      (Markup.block .typed c 2 [] c.markup).head?.map (·, line)).toList := by
  obtain ⟨line, hline, _⟩ := h.root
  obtain ⟨first, others, hblock, hfirst, hangle⟩ :=
    Markup.block_root .typed c 2 [] h.markup hline
  obtain ⟨more, hmore⟩ := splitLines_joinWith others hfirst hangle
  have hunmapped : origins (more.map unmapped) = [] :=
    origins_unmapped fun l hl => by
      obtain ⟨s, _, rfl⟩ := List.mem_map.mp hl
      rfl
  rw [markupLines, hblock, hmore, hline]
  unfold origins at hunmapped ⊢
  rw [OutputLine.block, List.filterMap_cons, hunmapped]
  rfl

/-- The landmarks are all lines of the typed output that are written for a line of the source. -/
theorem origins_outputLines {c : Component} (h : c.Spelled) :
    origins (c.outputLines .typed) = c.landmarks := by
  have himports : origins c.importLines = [] := rfl
  have hsignature : origins [c.signatureLine .typed] =
      (c.props.head?.map fun p => ((c.signatureLine .typed).text, p.line)).toList := by
    unfold origins signatureLine
    rw [List.filterMap_cons]
    cases c.props <;> rfl
  have hgap : origins (if (c.declarationLines .typed).isEmpty then [] else [blank]) = [] := by
    split <;> rfl
  have hreturn : origins [unmapped "  return ("] = [] := rfl
  have hend : origins [unmapped "  );", unmapped "\x7d", blank] = [] := rfl
  have hexport : origins [unmapped ("export default " ++ c.name ++ ";")] = [] := rfl
  simp only [outputLines, functionLines, landmarks, origins_append, himports,
    origins_reducerLines, origins_interfaceLines, hsignature, origins_declarationLines, hgap,
    hreturn, origins_markupLines h, hend, hexport, List.append_nil, List.nil_append,
    List.append_assoc]

theorem isVisible_headline (d : Dialect) (c : Component) (x : Declaration) :
    isVisible (x.headline d c) := by
  cases x with
  | effect x => exact (by decide : isVisible "  useEffect(() => \x7b")
  | layoutEffect x => exact (by decide : isVisible "  useLayoutEffect(() => \x7b")
  | _ => exact isVisible_append_right (by decide)

/-- All that a landmark can be. -/
theorem landmarks_cases {c : Component} (hc : c.Spelled) {l : String × Nat}
    (h : l ∈ c.landmarks) :
    (∃ r ∈ c.reducers, l = (Dialect.typed.reducerSignature r, r.line)) ∨
      (∃ p ∈ c.props, l = ((c.signatureLine .typed).text, p.line)) ∨
      (∃ x ∈ c.declarations, l = (x.headline .typed c, x.line)) ∨
      ∃ first line, l = (first, line) ∧ c.markup.line? = some line ∧
        first.toList.getLast? = some '>' := by
  simp only [landmarks, List.mem_append, List.mem_map, Option.mem_toList] at h
  rcases h with (((⟨r, hr, rfl⟩ | ⟨p, hp, rfl⟩) | h) | ⟨x, hx, rfl⟩) | h
  · exact .inl ⟨r, hr, rfl⟩
  · exact .inr (.inr (.inl ⟨.prop p, mem_declarations.mpr hp, rfl⟩))
  · obtain ⟨p, hp, rfl⟩ := Option.map_eq_some_iff.mp h
    exact .inr (.inl ⟨p, List.mem_of_mem_head? hp, rfl⟩)
  · exact .inr (.inr (.inl ⟨x, mem_declarations_iff.mpr (.inr hx), rfl⟩))
  · obtain ⟨line, hline, h⟩ := Option.bind_eq_some_iff.mp h
    obtain ⟨first, others, hblock, _, hangle⟩ :=
      Markup.block_root .typed c 2 [] hc.markup hline
    rw [hblock] at h
    cases h
    exact .inr (.inr (.inr ⟨first, line, rfl, hline, hangle⟩))

/-- No landmark is blank. -/
theorem isVisible_of_mem_landmarks {c : Component} (hc : c.Spelled) {l : String × Nat}
    (h : l ∈ c.landmarks) : isVisible l.1 := by
  obtain ⟨r, _, rfl⟩ | ⟨p, _, rfl⟩ | ⟨x, _, rfl⟩ | ⟨first, line, rfl, _, hangle⟩ :=
    landmarks_cases hc h
  · exact isVisible_append_right (by decide)
  · exact isVisible_append_right (by decide)
  · exact isVisible_headline .typed c x
  · exact List.any_eq_true.mpr ⟨'>', List.mem_of_getLast? hangle, by decide⟩

/-- Each declaration has its landmark. -/
theorem headline_mem_landmarks {c : Component} {x : Declaration} (h : x ∈ c.declarations) :
    (x.headline .typed c, x.line) ∈ c.landmarks := by
  simp only [landmarks, List.mem_append]
  rcases mem_declarations_iff.mp h with h | h
  · obtain ⟨p, hp, rfl⟩ := List.mem_map.mp h
    exact .inl (.inl (.inl (.inr (List.mem_map.mpr ⟨p, hp, rfl⟩))))
  · exact .inl (.inr (List.mem_map.mpr ⟨x, h, rfl⟩))

theorem origin_pos {c : Component} (h : c.Spelled) {l : String × Nat} (hl : l ∈ c.landmarks) :
    0 < l.2 := by
  obtain ⟨r, hr, rfl⟩ | ⟨p, hp, rfl⟩ | ⟨x, hx, rfl⟩ | ⟨first, line, rfl, hline, _⟩ :=
    landmarks_cases h hl
  · exact h.line_pos (mem_declarations.mpr hr : Declaration.reducer r ∈ c.declarations)
  · exact h.line_pos (mem_declarations.mpr hp : Declaration.prop p ∈ c.declarations)
  · exact h.line_pos hx
  · obtain ⟨root, hroot, hpos⟩ := h.root
    rw [hline] at hroot
    cases hroot
    exact hpos

/-- At their numbers the landmarks are found in the output, in their order. -/
theorem lineMappings_found {c : Component} (h : c.Spelled) :
    (c.lineMappings .typed).map (fun e => (((c.outputLines .typed).map (·.text))[e.1 - 1]?, e.2)) =
      c.landmarks.map fun l => (some l.1, l.2) := by
  rw [← origins_outputLines h]
  exact numbered_found [] (c.outputLines .typed)

/-- The map of a component's lines keeps all of them. -/
theorem entries_lineMappings {c : Component} (h : c.Spelled) (file source : String) :
    (PositionMap.ofMappings file source (c.lineMappings .typed)).entries =
      c.lineMappings .typed := by
  refine PositionMap.entries_ofMappings (numbered_sorted 1 _) fun e he => ?_
  have horigin : e.2 ∈ c.landmarks.map (·.2) := by
    have hlines := congrArg (List.map Prod.snd) (lineMappings_found h)
    rw [List.map_map, List.map_map] at hlines
    exact hlines ▸ List.mem_map_of_mem he
  obtain ⟨l, hl, hline⟩ := List.mem_map.mp horigin
  exact ⟨(numbered_bounds he).1, hline ▸ origin_pos h hl⟩

/-- In the code, split at its newlines, the landmarks are found in the same way. -/
theorem code_found {c : Component} (hname : OneLine c.name) (h : c.Spelled) :
    (c.lineMappings .typed).map
        (fun e => (((c.code .typed).toList.splitOn '\n')[e.1 - 1]?, e.2)) =
      c.landmarks.map fun l => (some l.1.toList, l.2) := by
  have hsplit := splitOn_written (oneLine_outputLines .typed hname h)
  have hfound := congrArg (List.map fun p => (p.1.map String.toList, p.2)) (lineMappings_found h)
  rw [List.map_map, List.map_map] at hfound
  refine Eq.trans (List.map_congr_left fun e he => ?_) hfound
  have hbounds := numbered_bounds he
  have hlt : e.1 - 1 < ((c.outputLines .typed).map (·.text.toList)).length := by
    rw [List.length_map]
    omega
  change (((written (c.outputLines .typed)).toList.splitOn '\n')[e.1 - 1]?, e.2) = _
  rw [hsplit, List.getElem?_append_left hlt]
  simp [Function.comp_def]

/-- The root of the markup has its landmark. -/
theorem root_mem_landmarks {c : Component} (h : c.Spelled) :
    ∃ line first, c.markup.line? = some line ∧
      (Markup.block .typed c 2 [] c.markup).head? = some first ∧ (first, line) ∈ c.landmarks := by
  obtain ⟨line, hline, _⟩ := h.root
  obtain ⟨first, others, hblock, _⟩ := Markup.block_root .typed c 2 [] h.markup hline
  have hhead : (Markup.block .typed c 2 [] c.markup).head? = some first := by rw [hblock]; rfl
  refine ⟨line, first, hline, hhead, List.mem_append_right _ ?_⟩
  simp [hline, hhead]

end Component

end Sigil
