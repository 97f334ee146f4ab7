import Mathlib.Data.List.Infix
import Sigil.Grammar.Rule

namespace Sigil

theorem eq_ok_of_toOption {ε α : Type} {x : Except ε α} {a : α} (h : x.toOption = some a) :
    x = .ok a := by
  cases x with
  | error e => cases h
  | ok b => cases h; rfl

namespace Parser

variable {σ ε α β : Type} {I : List σ → Prop}

/-- Where `I` holds of what is left, it still holds of what the parser leaves, and whatever the
parser reads satisfies `P`. -/
def Yields (I : List σ → Prop) (p : Parser σ ε α) (P : α → Prop) : Prop :=
  ∀ ⦃ts a rest⦄, I ts → p ts = .ok (a, rest) → I rest ∧ P a

theorem bind_of_ok {p : Parser σ ε α} {f : α → Parser σ ε β} {ts rest : List σ} {a : α}
    (h : p ts = .ok (a, rest)) : (p >>= f) ts = f a rest := by
  change (p ts >>= fun x => f x.1 x.2) = f a rest
  rw [h]
  rfl

theorem bind_of_error {p : Parser σ ε α} {f : α → Parser σ ε β} {ts : List σ} {e : ε}
    (h : p ts = .error e) : (p >>= f) ts = .error e := by
  change (p ts >>= fun x => f x.1 x.2) = .error e
  rw [h]
  rfl

theorem get_bind_apply {f : List σ → Parser σ ε β} (ts : List σ) : (get >>= f) ts = f ts ts := rfl

/-- A sequence succeeds only if its first part does and its second goes on from there. -/
theorem bind_eq_ok {p : Parser σ ε α} {f : α → Parser σ ε β} {ts rest : List σ} {b : β}
    (h : (p >>= f) ts = .ok (b, rest)) :
    ∃ a mid, p ts = .ok (a, mid) ∧ f a mid = .ok (b, rest) := by
  cases hp : p ts with
  | error e => rw [bind_of_error hp] at h; simp at h
  | ok x => exact ⟨x.1, x.2, rfl, by rwa [bind_of_ok hp] at h⟩

theorem yields_pure {P : α → Prop} {a : α} (h : P a) :
    Yields I (pure a : Parser σ ε α) P := by
  intro ts b rest hI hr
  cases hr
  exact ⟨hI, h⟩

theorem yields_throw {P : α → Prop} (e : ε) : Yields I (throw e : Parser σ ε α) P := by
  intro ts a rest _ hr
  cases hr

theorem yields_bind {p : Parser σ ε α} {f : α → Parser σ ε β} {P : α → Prop} {R : β → Prop}
    (hp : Yields I p P) (hf : ∀ a, P a → Yields I (f a) R) : Yields I (p >>= f) R := by
  intro ts b rest hI hr
  obtain ⟨a, mid, ha, hb⟩ := bind_eq_ok hr
  obtain ⟨hmid, hP⟩ := hp hI ha
  exact hf a hP hmid hb

/-- A parser that looks at what is left knows that `I` holds of it. -/
theorem yields_get {f : List σ → Parser σ ε β} {R : β → Prop}
    (hf : ∀ ts, I ts → Yields I (f ts) R) : Yields I (get >>= f) R := by
  intro ts b rest hI hr
  exact hf ts hI hI hr

theorem yields_set {ts : List σ} (h : I ts) :
    Yields I (set ts : Parser σ ε PUnit) (fun _ => True) := by
  intro _ _ rest _ hr
  cases hr
  exact ⟨h, trivial⟩

theorem yields_map {p : Parser σ ε α} {f : α → β} {P : α → Prop} {R : β → Prop}
    (hp : Yields I p P) (hf : ∀ a, P a → R (f a)) : Yields I (f <$> p) R :=
  yields_bind hp fun a ha => yields_pure (hf a ha)

theorem Yields.mono {p : Parser σ ε α} {P R : α → Prop} (hp : Yields I p P)
    (h : ∀ a, P a → R a) : Yields I p R := by
  intro ts a rest hI hr
  exact (hp hI hr).imp_right (h a)

theorem yields_guard {c : Prop} [Decidable c] {p : Parser σ ε PUnit} {f : PUnit → Parser σ ε β}
    {R : β → Prop} (hp : Yields I p (fun _ => False)) (hf : c → Yields I (f ⟨⟩) R) :
    Yields I (if c then f ⟨⟩ else p >>= f) R := by
  split
  next hc => exact hf hc
  next => exact yields_bind hp fun _ hfalse => hfalse.elim

/-- Of all that is left nothing is known, and nothing of what is read. -/
theorem yields_trivial (p : Parser σ ε α) : Yields (fun _ => True) p (fun _ => True) :=
  fun _ _ _ _ _ => ⟨trivial, trivial⟩

theorem many_of_stop {round : Parser σ ε (Round α)} {ts rest : List σ}
    (h : round ts = .ok (.stop, rest)) : many round ts = .ok ([], rest) := by
  change manyFrom round ts = _
  rw [manyFrom, h]

theorem many_of_last {round : Parser σ ε (Round α)} {ts rest : List σ} {a : α}
    (h : round ts = .ok (.last a, rest)) : many round ts = .ok ([a], rest) := by
  change manyFrom round ts = _
  rw [manyFrom, h]

theorem many_of_more {round : Parser σ ε (Round α)} {ts mid rest : List σ} {a : α} {as : List α}
    (h : round ts = .ok (.more a, mid)) (hlt : mid.length < ts.length)
    (hmany : many round mid = .ok (as, rest)) : many round ts = .ok (a :: as, rest) := by
  change manyFrom round mid = _ at hmany
  change manyFrom round ts = _
  rw [manyFrom, h]
  simp only [hlt, ↓reduceIte, hmany]

/-- A property of what one round of a repetition reads. -/
def Round.All (P : α → Prop) : Round α → Prop
  | .stop => True
  | .last a => P a
  | .more a => P a

theorem yields_many {round : Parser σ ε (Round α)} {P : α → Prop}
    (h : Yields I round (Round.All P)) : Yields I (many round) (fun as => ∀ a ∈ as, P a) := by
  intro ts as rest hI hr
  change manyFrom round ts = .ok (as, rest) at hr
  fun_induction manyFrom round ts generalizing as rest with
  | case1 ts e he => cases hr
  | case2 ts mid hm =>
    cases hr
    exact ⟨(h hI hm).1, by simp⟩
  | case3 ts a mid hm =>
    cases hr
    obtain ⟨hmid, ha⟩ := h hI hm
    exact ⟨hmid, List.forall_mem_singleton.mpr ha⟩
  | case4 ts a mid hm hlt e he ih => cases hr
  | case5 ts a mid hm hlt others final he ih =>
    cases hr
    obtain ⟨hmid, ha⟩ := h hI hm
    obtain ⟨hfinal, hall⟩ := ih hmid he
    exact ⟨hfinal, List.forall_mem_cons.mpr ⟨ha, hall⟩⟩
  | case6 ts a mid hm hlt =>
    cases hr
    obtain ⟨hmid, ha⟩ := h hI hm
    exact ⟨hmid, List.forall_mem_singleton.mpr ha⟩

/-- What holds of each nested part and passes from the parts to the whole holds of the whole. -/
theorem nestWith_of_step {base : β → Parser σ ε α}
    {step : (β → Parser σ ε α) → β → Parser σ ε α} {Q : β → List σ → α → List σ → Prop}
    (hbase : ∀ b ts a rest, base b ts = .ok (a, rest) → Q b ts a rest)
    (hstep : ∀ part, (∀ b ts a rest, part b ts = .ok (a, rest) → Q b ts a rest) →
      ∀ b ts a rest, step part b ts = .ok (a, rest) → Q b ts a rest)
    {b : β} {ts rest : List σ} {a : α} (hr : nestWith base step b ts = .ok (a, rest)) :
    Q b ts a rest := by
  change nestFrom base step b ts = .ok (a, rest) at hr
  induction hn : ts.length using Nat.strong_induction_on generalizing b ts a rest with
  | _ n ih =>
    rw [nestFrom] at hr
    refine hstep _ (fun b' inner x final hr' => ?_) b ts a rest hr
    -- A part that is left no less than the whole is read by `base`.
    by_cases hlt : inner.length < ts.length
    · rw [if_pos hlt] at hr'
      exact ih inner.length (by omega) hr' rfl
    · rw [if_neg hlt] at hr'
      exact hbase b' inner x final hr'

theorem yields_nestWith {base : β → Parser σ ε α}
    {step : (β → Parser σ ε α) → β → Parser σ ε α} {P : β → α → Prop}
    (hbase : ∀ b, Yields I (base b) (P b))
    (hstep : ∀ part, (∀ b, Yields I (part b) (P b)) → ∀ b, Yields I (step part b) (P b)) (b : β) :
    Yields I (nestWith base step b) (P b) := by
  intro ts a rest hI hr
  refine nestWith_of_step (Q := fun b ts a rest => I ts → I rest ∧ P b a) ?_ ?_ hr hI
  · exact fun b ts a rest hr hI => hbase b hI hr
  · intro part hpart b ts a rest hr hI
    exact hstep part (fun b ts a rest hI hr => hpart b ts a rest hr hI) b hI hr

theorem yields_nest {base : Parser σ ε α} {step : Parser σ ε α → Parser σ ε α} {P : α → Prop}
    (hbase : Yields I base P) (hstep : ∀ part, Yields I part P → Yields I (step part) P) :
    Yields I (nest base step) P :=
  yields_nestWith (P := fun _ => P) (fun _ => hbase)
    (fun part hpart _ => hstep (part ()) (hpart ())) ()

end Parser

namespace Rule

open Sigil.Parser

variable {α : Type} {I : List Lexeme → Prop} {P : α → Prop}

/-- What holds of lexemes still holds when some of the first are gone. -/
class SuffixClosed (I : List Lexeme → Prop) : Prop where
  of_suffix {ts rest : List Lexeme} : rest <:+ ts → I ts → I rest

theorem take_cons (k : Kind) (expected : String) (t : Lexeme) (ts : List Lexeme) :
    take k expected (t :: ts) =
      if t.kind = k then .ok (t, ts) else unexpected expected (t :: ts) := by
  unfold take
  rw [get_bind_apply]
  by_cases hk : t.kind = k
  · simp only [hk, ↓reduceIte]
    rfl
  · simp only [hk, ↓reduceIte]

theorem kind_apply (ts : List Lexeme) : kind ts = .ok (kindAt 0 ts, ts) := rfl

theorem skip_apply (ts : List Lexeme) : skip ts = .ok ((), ts.tail) := rfl

theorem eat_apply (k : Kind) (ts : List Lexeme) :
    eat k ts = if kindAt 0 ts = k then .ok (true, ts.tail) else .ok (false, ts) := by
  unfold eat
  rw [bind_of_ok (kind_apply ts)]
  split <;> rfl

theorem eat_cons {k : Kind} {t : Lexeme} {ts : List Lexeme} (h : t.kind = k) :
    eat k (t :: ts) = .ok (true, ts) :=
  (eat_apply k (t :: ts)).trans (if_pos h)

theorem eat_of_ne {k : Kind} {ts : List Lexeme} (h : kindAt 0 ts ≠ k) :
    eat k ts = .ok (false, ts) :=
  (eat_apply k ts).trans (if_neg h)

theorem expect_cons {k : Kind} {t : Lexeme} {ts : List Lexeme} (h : t.kind = k) :
    expect k (t :: ts) = .ok ((), ts) := by
  unfold expect
  rw [bind_of_ok (eat_cons h)]
  rfl

theorem take_cons_of_kind {k : Kind} {expected : String} {t : Lexeme} {ts : List Lexeme}
    (h : t.kind = k) : take k expected (t :: ts) = .ok (t, ts) := by
  rw [take_cons, if_pos h]

theorem ident_cons {expected : String} {t : Lexeme} {ts : List Lexeme} (h : t.kind = .ident) :
    ident expected (t :: ts) = .ok (t.text, ts) := by
  unfold ident
  rw [bind_of_ok (take_cons_of_kind h)]
  rfl

theorem skipNewlines_of_ne {ts : List Lexeme} (h : kindAt 0 ts ≠ .newline) :
    skipNewlines ts = .ok ((), ts) := by
  have hdrop : ts.dropWhile (·.kind = .newline) = ts := by
    cases ts with
    | nil => rfl
    | cons t ts =>
      have hk : t.kind ≠ .newline := h
      simp [hk]
  change Except.ok ((), ts.dropWhile (·.kind = .newline)) = _
  rw [hdrop]

theorem yields_failAt (here : List Lexeme) (cause : Cause) :
    Yields I (failAt here cause : Rule α) P :=
  yields_throw _

theorem yields_fail (cause : Cause) : Yields I (fail cause : Rule α) P :=
  yields_get fun _ _ => yields_failAt _ _

theorem yields_unexpected (expected : String) : Yields I (unexpected expected : Rule α) P :=
  yields_get fun _ _ => yields_fail _

theorem yields_kind : Yields I kind (fun _ => True) :=
  yields_get fun _ _ => yields_pure trivial

theorem yields_skip [SuffixClosed I] : Yields I skip (fun _ => True) := by
  intro ts a rest hI hr
  cases hr
  exact ⟨SuffixClosed.of_suffix (List.tail_suffix ts) hI, trivial⟩

theorem yields_eat [SuffixClosed I] (k : Kind) : Yields I (eat k) (fun _ => True) := by
  unfold eat
  refine yields_bind yields_kind fun found _ => ?_
  split
  · exact yields_bind yields_skip fun _ _ => yields_pure trivial
  · exact yields_pure trivial

theorem yields_expect [SuffixClosed I] (k : Kind) : Yields I (expect k) (fun _ => True) := by
  unfold expect
  refine yields_bind (yields_eat k) fun eaten _ => ?_
  split
  · exact yields_pure trivial
  · exact yields_unexpected _

theorem yields_take [SuffixClosed I] (k : Kind) (expected : String) :
    Yields I (take k expected) (fun t => (∃ ts, I (t :: ts)) ∧ t.kind = k) := by
  intro ts t rest hI hr
  cases ts with
  | nil => cases hr
  | cons first others =>
    rw [take_cons] at hr
    split at hr
    next hk =>
      cases hr
      exact ⟨SuffixClosed.of_suffix (List.suffix_cons _ _) hI, ⟨rest, hI⟩, hk⟩
    next => exact yields_unexpected (P := fun t => (∃ ts, I (t :: ts)) ∧ t.kind = k) expected hI hr

theorem yields_skipNewlines [SuffixClosed I] : Yields I skipNewlines (fun _ => True) := by
  intro ts a rest hI hr
  cases hr
  exact ⟨SuffixClosed.of_suffix (List.dropWhile_suffix _) hI, trivial⟩

theorem yields_endStatement [SuffixClosed I] : Yields I endStatement (fun _ => True) := by
  unfold endStatement
  refine yields_bind yields_kind fun found _ => ?_
  split
  · exact yields_skip
  · exact yields_pure trivial
  · exact yields_unexpected _

theorem yields_line : Yields I line (fun _ => True) :=
  yields_get fun _ _ => yields_pure trivial

end Rule

end Sigil
