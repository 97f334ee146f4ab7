import Sigil.Proofs.OutputLines

namespace Sigil

/-- A text that is read back as an expression which depends on what `e` depends on, and beyond that
at most on the setter of a state that is updated. -/
def DependsAs (text : String) (e : Expr) (updated? : Option String) : Prop :=
  ∃ e', RereadAs text e' ∧ (∀ n ∈ e.dependencies, n ∈ e'.dependencies) ∧
    ∀ n ∈ e'.dependencies, n ∈ e.dependencies ∨ ∃ target ∈ updated?, n = Names.setter target

theorem dependsAs_of_references {e e' : Expr} {updated? : Option String} (h : Phrase .whole e')
    (hkept : ∀ n, e.references n = true → e'.references n = true)
    (hadded : ∀ n, e'.references n = true →
      e.references n = true ∨ ∃ target ∈ updated?, n = Names.setter target) :
    DependsAs (e'.render []) e updated? := by
  refine ⟨e', h.rereadAs, fun n hn => ?_, fun n hn => ?_⟩
  · exact Expr.mem_dependencies.mpr (hkept n (Expr.mem_dependencies.mp hn))
  · rw [Expr.mem_dependencies]
    exact hadded n (Expr.mem_dependencies.mp hn)

namespace Phrase

theorem dependsAs_render {e : Expr} (h : Phrase .whole e) : DependsAs (e.render []) e none :=
  dependsAs_of_references h (fun _ => id) fun _ => .inl

theorem dependsAs_renderHandler (c : Component) {e : Expr} (h : Phrase .whole e) :
    DependsAs (c.renderHandler [] e) e (c.updated? e.handlerBody) := by
  obtain ⟨hparams, hbody⟩ := h.handler
  have hread (n : String) : (Expr.arrow e.handlerParams (c.lowered e.handlerBody)).references n =
      (!e.handlerParams.contains n && (c.lowered e.handlerBody).references n) := by
    rw [Expr.references]
  rw [c.renderHandler_eq]
  refine dependsAs_of_references (.arrow hparams (Component.lowered_phrase hbody))
    (fun n hn => ?_) fun n hn => ?_
  · rw [Expr.references_handler, Bool.and_eq_true] at hn
    rw [hread, Bool.and_eq_true]
    exact ⟨hn.1, (Component.lowered_references hbody n).mpr (.inl hn.2)⟩
  · rw [hread, Bool.and_eq_true] at hn
    rw [Expr.references_handler, Bool.and_eq_true]
    rcases (Component.lowered_references hbody n).mp hn.2 with hn' | hn'
    · exact .inl ⟨hn.1, hn'⟩
    · exact .inr hn'

theorem dependsAs_renderStatement (c : Component) {e : Expr} (h : Phrase .whole e) :
    DependsAs (c.renderStatement e) e (c.updated? e.statementBody) := by
  have hbody := h.statementBody
  rw [c.renderStatement_eq]
  refine dependsAs_of_references (Component.lowered_phrase hbody) (fun n hn => ?_) fun n hn => ?_
  · rw [← Expr.references_statementBody] at hn
    exact (Component.lowered_references hbody n).mpr (.inl hn)
  · rw [← Expr.references_statementBody]
    exact (Component.lowered_references hbody n).mp hn

end Phrase

open OutputLine in
/-- A memo, a callback or an effect is written with the list of what the source depends on beside
its function. As it is written the function depends on all of that, and beyond that at most on the
setter of a state that it updates. -/
theorem written_dependsAs (d : Dialect) {name source : String} {c : Component}
    (h : Component.ofSource name source = .ok c) :
    (∀ x ∈ c.memos,
      hookConstant [x.name] "useMemo" (d.typeArgs x.type?)
          ["() => " ++ x.value.render [], bracketList x.value.dependencies] x.line ∈
        c.outputLines d ∧
      DependsAs (x.value.render []) x.value none) ∧
    (∀ x ∈ c.callbacks,
      hookConstant [x.name] "useCallback" ""
          [c.renderHandler [] x.value, bracketList x.value.dependencies] x.line ∈
        c.outputLines d ∧
      DependsAs (c.renderHandler [] x.value) x.value (c.updated? x.value.handlerBody)) ∧
    ∀ x ∈ c.effects ++ c.layoutEffects, x.deps? = none →
      (∃ hook ∈ ["useEffect", "useLayoutEffect"],
        [mapped ("  " ++ hook ++ "(() => \x7b") x.line,
          unmapped ("    " ++ c.renderStatement x.body ++ ";"),
          unmapped ("  \x7d, " ++ bracketList x.body.dependencies ++ ");")] <:+:
        c.outputLines d) ∧
      DependsAs (c.renderStatement x.body) x.body (c.updated? x.body.statementBody) := by
  obtain ⟨_, hc⟩ := Component.spelled_of_ofSource h
  have hspelled {x : Declaration} (hx : c.Declares x) : x.Spelled :=
    hc.declaration (Component.mem_declarations.mpr hx)
  refine ⟨fun x hx => ⟨?_, ?_⟩, fun x hx => ⟨?_, ?_⟩, fun x hx hdeps => ?_⟩
  · have hlines : (Declaration.memo x).lines d c <:+: c.outputLines d :=
      Component.lines_infix_outputLines d (by simp) hx
    exact hlines.subset List.mem_cons_self
  · have hmemo : Declaration.Spelled (.memo x) := hspelled hx
    exact hmemo.2.2.dependsAs_render
  · have hlines : (Declaration.callback x).lines d c <:+: c.outputLines d :=
      Component.lines_infix_outputLines d (by simp) hx
    exact hlines.subset List.mem_cons_self
  · have hcallback : Declaration.Spelled (.callback x) := hspelled hx
    exact hcallback.2.dependsAs_renderHandler c
  · have hlist : Component.effectDependencies x = x.body.dependencies := by
      rw [Component.effectDependencies, hdeps]
    rw [← hlist]
    rcases List.mem_append.mp hx with hx | hx
    · have hlines : (Declaration.effect x).lines d c <:+: c.outputLines d :=
        Component.lines_infix_outputLines d (by simp) hx
      have heffect : Declaration.Spelled (.effect x) := hspelled hx
      exact ⟨⟨"useEffect", by simp, hlines⟩, heffect.2.dependsAs_renderStatement c⟩
    · have hlines : (Declaration.layoutEffect x).lines d c <:+: c.outputLines d :=
        Component.lines_infix_outputLines d (by simp) hx
      have heffect : Declaration.Spelled (.layoutEffect x) := hspelled hx
      exact ⟨⟨"useLayoutEffect", by simp, hlines⟩, heffect.2.dependsAs_renderStatement c⟩

theorem written_dependsAs_push :
    ∃ c x y, Component.ofSource "Log"
        "@n = 0\n@xs = []\n&add = v => xs.push(v, n)\n~() => n++\n<p />" = .ok c ∧
      x ∈ c.callbacks ∧ y ∈ c.effects ∧ y.deps? = none ∧
      c.renderHandler [] x.value = "(v) => setXs([...xs, v, n])" ∧
      c.renderStatement y.body = "setN(n + 1)" ∧
      OutputLine.hookConstant ["add"] "useCallback" ""
          ["(v) => setXs([...xs, v, n])", bracketList ["xs", "n"]] 3 ∈ c.outputLines .plain ∧
      DependsAs (c.renderHandler [] x.value) x.value (some "xs") ∧
      DependsAs (c.renderStatement y.body) y.body (some "n") := by
  have hread : ((Component.ofSource "Log"
      "@n = 0\n@xs = []\n&add = v => xs.push(v, n)\n~() => n++\n<p />").toOption.bind fun c =>
      c.callbacks[0]?.bind fun x => c.effects[0]?.map fun y =>
        ((y.deps?.isNone, c.callbackLine x), c.renderHandler [] x.value, c.renderStatement y.body,
          c.updated? x.value.handlerBody, c.updated? y.body.statementBody)) =
      some ((true, .hookConstant ["add"] "useCallback" ""
          ["(v) => setXs([...xs, v, n])", bracketList ["xs", "n"]] 3),
        "(v) => setXs([...xs, v, n])", "setN(n + 1)", some "xs", some "n") := by
    decide +kernel
  obtain ⟨c, hc, hread⟩ := Option.bind_eq_some_iff.mp hread
  obtain ⟨x, hx, hread⟩ := Option.bind_eq_some_iff.mp hread
  obtain ⟨y, hy, hread⟩ := Option.map_eq_some_iff.mp hread
  simp only [Prod.mk.injEq, Option.isNone_iff_eq_none] at hread
  obtain ⟨⟨hdeps, hline⟩, hhandler, hstatement, hpushed, hcounted⟩ := hread
  have hx := List.mem_of_getElem? hx
  have hy := List.mem_of_getElem? hy
  have hsource := eq_ok_of_toOption hc
  obtain ⟨_, hcallbacks, heffects⟩ := written_dependsAs .plain hsource
  obtain ⟨hwritten, hdependsAs⟩ := hcallbacks x hx
  refine ⟨c, x, y, hsource, hx, hy, hdeps, hhandler, hstatement, ?_, ?_, ?_⟩
  · exact hline ▸ hwritten
  · exact hpushed ▸ hdependsAs
  · exact hcounted ▸ (heffects y (List.mem_append_left _ hy) hdeps).2

end Sigil
