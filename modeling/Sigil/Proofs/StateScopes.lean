import Sigil.Proofs.Dependencies
import Sigil.Proofs.Readings

namespace Sigil

/-- The name that an update, or a push, changes. -/
def Expr.target? : Expr → Option String
  | update target _ _ => some target
  | method (ident target) "push" _ => some target
  | _ => none

/-- The characters that can follow the name in the text of an update or a push. -/
def targetEnds : List Char := [' ', '+', '-', '.']

theorem Expr.render_of_target {e : Expr} {x : String} (h : e.target? = some x)
    (items : List String) :
    ∃ z ∈ targetEnds, ∃ rest,
      (e.render items).toList = (renderName items x).toList ++ z :: rest := by
  unfold target? at h
  split at h
  next target op value? =>
    cases h
    cases value? with
    | some value =>
      refine ⟨' ', by decide, (op.text ++ " " ++ value.render items).toList, ?_⟩
      simp [render]
    | none =>
      cases op with
      | increment => exact ⟨'+', by decide, ['+'], by simp [render, UpdateOp.text]⟩
      | decrement => exact ⟨'-', by decide, ['-'], by simp [render, UpdateOp.text]⟩
      | addAssign => exact ⟨'+', by decide, ['='], by simp [render, UpdateOp.text]⟩
  next target args =>
    cases h
    refine ⟨'.', by decide,
      ("push" ++ "(" ++ joinWith ", " (renderAll items args) ++ ")").toList, ?_⟩
    simp [render]
  next => cases h

/-- A name that is followed by `z` is not the start of its own setter. -/
theorem name_append_ne_setter {x : String} {z : Char} (hz : z ∈ targetEnds)
    (rest behind : List Char) : x.toList ++ z :: rest ≠ (Names.setter x).toList ++ behind := by
  intro h
  have hother : 's' ≠ z ∧ 'e' ≠ z ∧ 't' ≠ z ∧ 'S' ≠ z := by
    simp only [targetEnds, List.mem_cons, List.not_mem_nil, or_false] at hz
    rcases hz with rfl | rfl | rfl | rfl <;> decide
  obtain ⟨hs, he, ht, hupper⟩ := hother
  have hset : (Names.setter x).toList = 's' :: 'e' :: 't' :: (Names.capitalize x).toList := by
    simp [Names.setter]
  rw [hset] at h
  cases hx : x.toList with
  | nil =>
    rw [hx] at h
    injection h with hfirst _
    exact hs hfirst.symm
  | cons c cs =>
    rw [hx] at h
    injection h with hfirst hothers
    subst c
    have hcapital : (Names.capitalize x).toList = 'S' :: cs := by
      have hletter : upperCase 's' = ['S'] := by decide
      unfold Names.capitalize
      rw [hx]
      simp [hletter]
    -- Up to the first `z` the right side is longer than the left by the letters `e`, `t` and `S`.
    have hstop : ∀ d ∈ (z :: rest).head?, (d != z) = false := by
      intro d hd
      cases hd
      simp
    have hlonger : (cs.takeWhile (· != z)).length ≤ ((cs ++ behind).takeWhile (· != z)).length := by
      rw [List.takeWhile_append]
      split
      next hall =>
        rw [List.length_append]
        omega
      next => exact Nat.le_refl _
    have hlength := congrArg (fun text => (text.takeWhile (· != z)).length) hothers
    simp only [hcapital, List.append_eq, List.cons_append, takeWhile_append_of_head hstop,
      List.takeWhile_cons, bne_iff_ne, ne_eq, he, ht, hupper, not_false_eq_true, if_true,
      List.length_cons] at hlength
    omega

theorem setterCall_ne_render {e : Expr} {x : String} (h : e.target? = some x)
    (items : List String) : Component.setterCall items x e ≠ e.render items := by
  obtain ⟨z, hz, rest, hrender⟩ := e.render_of_target h items
  intro heq
  have hcall : (Component.setterCall items x e).toList = (Names.setter x).toList ++
      ("(" ++ (Component.assigned x e).render items ++ ")").toList := by
    simp [Component.setterCall]
  rw [heq, hrender] at hcall
  unfold renderName at hcall
  split at hcall
  next => simp [Names.item, Names.setter] at hcall
  next => exact name_append_ne_setter hz _ _ hcall

/-- A handler with the text `body` behind its parameters. -/
def Expr.handlerText (h : Expr) (body : String) : String :=
  renderParams h.handlerParams ++ " => " ++ body

theorem Expr.handlerText_inj {h : Expr} {body body' : String} :
    h.handlerText body = h.handlerText body' ↔ body = body' := by
  constructor
  · intro heq
    have hchars := congrArg String.toList heq
    simp only [handlerText, String.toList_append] at hchars
    exact String.toList_inj.mp (List.append_cancel_left hchars)
  · rintro rfl
    rfl

namespace Component

/-- The loop variables that a handler's body can see. -/
def visibleItems (items : List String) (h : Expr) : List String := shadow items h.handlerParams

/-- A handler whose body changes `x` is written with a call of the setter of `x`. -/
def LowersTo (c : Component) (items : List String) (h : Expr) (x : String) : Prop :=
  h.handlerBody.target? = some x ∧
    c.renderHandler items h = h.handlerText (setterCall (visibleItems items h) x h.handlerBody)

theorem renderHandler_eq_handlerText (c : Component) (items : List String) (h : Expr) :
    c.renderHandler items h =
      h.handlerText (c.renderUpdate (visibleItems items h) h.handlerBody) := by
  have hnone : "() => " = renderParams [] ++ " => " := by decide
  have hitems : shadow items [] = items := by simp [shadow]
  cases h with
  | arrow params body => rfl
  | _ =>
    simp only [visibleItems, Expr.handlerText, Expr.handlerParams, Expr.handlerBody, hitems]
    exact congrArg (· ++ _) hnone

theorem target_of_updated {c : Component} {e : Expr} {x : String} (h : c.updated? e = some x) :
    e.target? = some x := by
  obtain ⟨op, value?, rfl, _⟩ | ⟨args, rfl, _⟩ := updated?_cases h
  · rfl
  · rfl

theorem isState_of_updated {c : Component} {e : Expr} {x : String} (h : c.updated? e = some x) :
    c.isState x = true := by
  obtain ⟨op, value?, _, hstate⟩ | ⟨args, _, hstate⟩ := updated?_cases h
  · exact hstate
  · cases hs : c.state? x with
    | none =>
      rw [hs] at hstate
      cases hstate
    | some s =>
      change c.states.reverse.find? (·.name == x) = some s at hs
      have hmem := List.mem_reverse.mp (List.mem_of_find?_eq_some hs)
      have hname := List.find?_some hs
      exact List.any_eq_true.mpr ⟨s, hmem, hname⟩

/-- A handler is written with a call of a setter exactly where its body updates a state, whatever
binds the name of the state there. -/
theorem lowersTo_iff {c : Component} {items : List String} {h : Expr} {x : String} :
    c.LowersTo items h x ↔ c.updated? h.handlerBody = some x := by
  unfold LowersTo
  rw [renderHandler_eq_handlerText, Expr.handlerText_inj, renderUpdate]
  constructor
  · rintro ⟨htarget, htext⟩
    cases hupdated : c.updated? h.handlerBody with
    | none =>
      rw [updateCall?_of_not_updated hupdated, Option.getD_none] at htext
      exact absurd htext.symm (setterCall_ne_render htarget _)
    | some y => rw [← htarget, target_of_updated hupdated]
  · intro hupdated
    rw [updateCall?_of_updated hupdated, Option.getD_some]
    exact ⟨target_of_updated hupdated, rfl⟩

/-- The component without the states whose names are bound. -/
def withoutStates (c : Component) (bound : List String) : Component :=
  { c with states := c.states.filter (!bound.contains ·.name) }

section

variable {c : Component} {bound : List String} {x : String}

/-- No state that is left has a name that is bound. -/
theorem kept_and_named_of_mem (h : x ∈ bound) :
    (fun s : StateDecl => !bound.contains s.name && s.name == x) = fun _ => false := by
  funext s
  by_cases hs : s.name = x
  · simp [hs, h]
  · rw [beq_eq_false_iff_ne.mpr hs, Bool.and_false]

theorem kept_and_named_of_not_mem (h : x ∉ bound) :
    (fun s : StateDecl => !bound.contains s.name && s.name == x) = fun s => s.name == x := by
  funext s
  by_cases hs : s.name = x
  · simp [hs, h]
  · rw [beq_eq_false_iff_ne.mpr hs, Bool.and_false]

theorem isState_withoutStates_of_mem (h : x ∈ bound) :
    (c.withoutStates bound).isState x = false := by
  unfold isState withoutStates
  rw [List.any_filter, kept_and_named_of_mem h]
  simp

theorem isState_withoutStates_of_not_mem (h : x ∉ bound) :
    (c.withoutStates bound).isState x = c.isState x := by
  unfold isState withoutStates
  rw [List.any_filter, kept_and_named_of_not_mem h]

theorem state?_withoutStates_of_mem (h : x ∈ bound) :
    (c.withoutStates bound).state? x = none := by
  unfold state? withoutStates
  simp only [← List.filter_reverse, List.find?_filter, Bool.decide_and, Bool.decide_eq_true,
    kept_and_named_of_mem h, List.find?_eq_none]
  simp

theorem state?_withoutStates_of_not_mem (h : x ∉ bound) :
    (c.withoutStates bound).state? x = c.state? x := by
  unfold state? withoutStates
  simp only [← List.filter_reverse, List.find?_filter, Bool.decide_and, Bool.decide_eq_true,
    kept_and_named_of_not_mem h]

/-- A state whose name is bound is not updated. -/
theorem updated?_withoutStates_of_mem {e : Expr} (ht : e.target? = some x) (h : x ∈ bound) :
    (c.withoutStates bound).updated? e = none := by
  unfold updated?
  split
  next y op value? =>
    cases ht
    rw [isState_withoutStates_of_mem h]
    rfl
  next y args =>
    cases ht
    rw [state?_withoutStates_of_mem h]
    rfl
  next => rfl

theorem updated?_withoutStates_of_not_mem {e : Expr} (h : ∀ x ∈ e.target?, x ∉ bound) :
    (c.withoutStates bound).updated? e = c.updated? e := by
  unfold updated?
  split
  next y op value? => rw [isState_withoutStates_of_not_mem (h y rfl)]
  next y args => rw [state?_withoutStates_of_not_mem (h y rfl)]
  next => rfl

theorem updated?_withoutStates_eq_none {e : Expr} (h : c.updated? e = none) :
    (c.withoutStates bound).updated? e = none := by
  cases ht : e.target? with
  | none => rw [updated?_withoutStates_of_not_mem (by simp [ht]), h]
  | some x =>
    by_cases hx : x ∈ bound
    · exact updated?_withoutStates_of_mem ht hx
    · rw [updated?_withoutStates_of_not_mem (by simpa [ht] using hx), h]

end

/-- A handler is written as without the states whose names are bound, unless it updates one of
them. -/
theorem renderHandler_withoutStates_iff {c : Component} {items bound : List String} {h : Expr} :
    c.renderHandler items h = (c.withoutStates bound).renderHandler items h ↔
      ∀ x, c.updated? h.handlerBody = some x → x ∉ bound := by
  rw [renderHandler_eq_handlerText, renderHandler_eq_handlerText, Expr.handlerText_inj,
    renderUpdate, renderUpdate]
  cases hupdated : c.updated? h.handlerBody with
  | none =>
    rw [updateCall?_of_not_updated hupdated,
      updateCall?_of_not_updated (updated?_withoutStates_eq_none hupdated)]
    simp
  | some x =>
    have htarget := target_of_updated hupdated
    rw [updateCall?_of_updated hupdated, Option.getD_some]
    by_cases hx : x ∈ bound
    · have hne := setterCall_ne_render htarget (visibleItems items h)
      rw [updateCall?_of_not_updated (updated?_withoutStates_of_mem htarget hx), Option.getD_none]
      exact ⟨fun htext => absurd htext hne, fun hfree => absurd hx (hfree x rfl)⟩
    · have hsame : (c.withoutStates bound).updated? h.handlerBody = some x := by
        rw [updated?_withoutStates_of_not_mem (by simpa [htarget] using hx), hupdated]
      rw [updateCall?_of_updated hsame, Option.getD_some]
      simpa using hx

end Component

open Component in
/-- A handler is written with a call of a setter exactly where its body updates a state. It is
written as if the states did not exist whose names its parameters and the loops around it bind,
unless it updates such a state. -/
theorem renderHandler_scoped_iff (c : Component) (items : List String) (h : Expr) :
    (∀ x, c.LowersTo items h x ↔ c.updated? h.handlerBody = some x) ∧
      (∀ x, c.LowersTo items h x → ∃ s ∈ c.states, s.name = x) ∧
      (c.renderHandler items h =
          (c.withoutStates (h.handlerParams ++ items)).renderHandler items h ↔
        ∀ x, c.LowersTo items h x → x ∉ h.handlerParams ∧ x ∉ items) := by
  refine ⟨fun x => lowersTo_iff, fun x hx => ?_, ?_⟩
  · obtain ⟨s, hs, hname⟩ := List.any_eq_true.mp (isState_of_updated (lowersTo_iff.mp hx))
    exact ⟨s, hs, eq_of_beq hname⟩
  · simp only [lowersTo_iff, renderHandler_withoutStates_iff, List.mem_append, not_or]

/-- An update of a parameter that has the name of a state, and one of a loop's variable that has it,
are written with a call of the setter. -/
theorem renderHandler_bound_names :
    ∃ c d, Component.ofSource "Counter" "@count = 0\n!bump = (count) => count++\n<p></p>" = .ok c ∧
      d ∈ c.events ∧ c.LowersTo [] d.handler "count" ∧ "count" ∈ d.handler.handlerParams ∧
      c.renderHandler [] d.handler = "(count) => setCount(count + 1)" ∧
      c.LowersTo ["count"] (.update "count" .increment none) "count" ∧
      c.renderHandler ["count"] (.update "count" .increment none) =
        "() => setCount(__item + 1)" := by
  have hread : ((Component.ofSource "Counter"
      "@count = 0\n!bump = (count) => count++\n<p></p>").toOption.bind fun c =>
      c.events[0]?.map fun d =>
        (c.updated? d.handler.handlerBody, d.handler.handlerParams, c.renderHandler [] d.handler,
          c.updated? (.update "count" .increment none),
          c.renderHandler ["count"] (.update "count" .increment none))) =
      some (some "count", ["count"], "(count) => setCount(count + 1)", some "count",
        "() => setCount(__item + 1)") := by decide +kernel
  obtain ⟨c, hc, hread⟩ := Option.bind_eq_some_iff.mp hread
  obtain ⟨d, hd, hread⟩ := Option.map_eq_some_iff.mp hread
  simp only [Prod.mk.injEq] at hread
  obtain ⟨hparam, hparams, htext, hitem, hitemText⟩ := hread
  refine ⟨c, d, eq_ok_of_toOption hc, List.mem_of_getElem? hd, Component.lowersTo_iff.mpr hparam,
    ?_, htext, Component.lowersTo_iff.mpr hitem, hitemText⟩
  rw [hparams]
  exact List.mem_cons_self

end Sigil
