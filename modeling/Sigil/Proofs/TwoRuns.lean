import Mathlib.Data.List.TakeWhile
import Sigil.Proofs.Renumbering
import Sigil.Proofs.Rules

namespace Sigil

namespace Lexeme

/-- What rules make out of a lexeme when each line `n` reads as `f n`. None of them looks at the gap
before a newline. -/
def seen (f : Nat → Nat) (t : Lexeme) : Lexeme :=
  { t with line := f t.line, gap := if t.kind = .newline then .touching else t.gap }

variable {f : Nat → Nat} {t t' : Lexeme}

theorem kind_eq_of_seen (h : t.seen f = t'.seen f) : t.kind = t'.kind :=
  congrArg (·.kind) h

theorem text_eq_of_seen (h : t.seen f = t'.seen f) : t.text = t'.text :=
  congrArg (·.text) h

theorem value_eq_of_seen (h : t.seen f = t'.seen f) : t.value = t'.value :=
  congrArg (·.value) h

theorem line_eq_of_seen (h : t.seen f = t'.seen f) : f t.line = f t'.line :=
  congrArg (·.line) h

theorem gap_eq_of_seen (h : t.seen f = t'.seen f) (hk : t.kind ≠ .newline) : t.gap = t'.gap := by
  have hgap : (t.seen f).gap = (t'.seen f).gap := congrArg (·.gap) h
  have hk' : t'.kind ≠ .newline := kind_eq_of_seen h ▸ hk
  rwa [seen, seen, if_neg hk, if_neg hk'] at hgap

theorem isWord_eq_of_seen (h : t.seen f = t'.seen f) : t.isWord = t'.isWord := by
  unfold isWord
  rw [value_eq_of_seen h]

theorem content_eq_of_seen (h : t.seen f = t'.seen f) : t.content = t'.content := by
  unfold content
  rw [value_eq_of_seen h, text_eq_of_seen h]

theorem describe_eq_of_seen (h : t.seen f = t'.seen f) : t.describe = t'.describe := by
  unfold describe
  rw [kind_eq_of_seen h, text_eq_of_seen h]

end Lexeme

namespace Parser

variable {σ ε α β : Type}

def Round.map (g : α → β) : Round α → Round β
  | .stop => .stop
  | .last a => .last (g a)
  | .more a => .more (g a)

theorem Round.eq_stop_of_map {g : α → β} {r : Round α} (h : map g .stop = map g r) :
    r = .stop := by
  cases r with
  | stop => rfl
  | last a => cases h
  | more a => cases h

theorem Round.eq_last_of_map {g : α → β} {a : α} {r : Round α} (h : map g (.last a) = map g r) :
    ∃ b, r = .last b ∧ g a = g b := by
  cases r with
  | stop => cases h
  | last b => exact ⟨b, rfl, Round.last.inj h⟩
  | more b => cases h

theorem Round.eq_more_of_map {g : α → β} {a : α} {r : Round α} (h : map g (.more a) = map g r) :
    ∃ b, r = .more b ∧ g a = g b := by
  cases r with
  | stop => cases h
  | last b => cases h
  | more b => exact ⟨b, rfl, Round.more.inj h⟩

theorem many_of_error {round : Parser σ ε (Round α)} {ts : List σ} {e : ε}
    (h : round ts = .error e) : many round ts = .error e := by
  change manyFrom round ts = _
  rw [manyFrom, h]

theorem many_of_more_error {round : Parser σ ε (Round α)} {ts mid : List σ} {a : α} {e : ε}
    (h : round ts = .ok (.more a, mid)) (hlt : mid.length < ts.length)
    (hmany : many round mid = .error e) : many round ts = .error e := by
  change manyFrom round mid = _ at hmany
  change manyFrom round ts = _
  rw [manyFrom, h]
  simp only [hlt, ↓reduceIte, hmany]

theorem many_of_stuck {round : Parser σ ε (Round α)} {ts mid : List σ} {a : α}
    (h : round ts = .ok (.more a, mid)) (hlt : ¬ mid.length < ts.length) :
    many round ts = .ok ([a], mid) := by
  change manyFrom round ts = _
  rw [manyFrom, h]
  simp only [hlt, ↓reduceIte]

/-- All rounds together use up what each of them uses up. -/
theorem many_uses {round : Parser σ ε (Round α)} {Used : List σ → Prop}
    (happend : ∀ x y, Used x → Used y → Used (x ++ y))
    (h : ∀ ts r rest, round ts = .ok (r, rest) → ∃ x, ts = x ++ rest ∧ Used x)
    {ts rest : List σ} {as : List α} (hr : many round ts = .ok (as, rest)) :
    ∃ x, ts = x ++ rest ∧ Used x := by
  change manyFrom round ts = .ok (as, rest) at hr
  fun_induction manyFrom round ts generalizing as rest with
  | case1 ts e he => cases hr
  | case2 ts mid hm => cases hr; exact h _ _ _ hm
  | case3 ts a mid hm => cases hr; exact h _ _ _ hm
  | case4 ts a mid hm hlt e he ih => cases hr
  | case5 ts a mid hm hlt others final he ih =>
    cases hr
    obtain ⟨x, rfl, hx⟩ := h _ _ _ hm
    obtain ⟨y, rfl, hy⟩ := ih he
    exact ⟨x ++ y, (List.append_assoc _ _ _).symm, happend x y hx hy⟩
  | case6 ts a mid hm hlt => cases hr; exact h _ _ _ hm

end Parser

namespace Rule

open Sigil.Parser

/-- No lexeme is left, or the next is a stop that stands for no word. -/
def AtEnd (ts : List Lexeme) : Prop := ∀ t ∈ ts.head?, t.kind = .stop ∧ t.value.word? = none

/-- Both inputs are at their end, or they start with lexemes that look alike. -/
def AlikeAtFront (f : Nat → Nat) (ts ts' : List Lexeme) : Prop :=
  ts.head?.map (Lexeme.seen f) = ts'.head?.map (Lexeme.seen f) ∨ (ts = [] ∧ AtEnd ts')

theorem AlikeAtFront.append {f : Nat → Nat} {tail : List Lexeme} (h : AtEnd tail)
    (ts : List Lexeme) : AlikeAtFront f ts (ts ++ tail) := by
  cases ts with
  | nil => exact .inr ⟨rfl, h⟩
  | cons t us => exact .inl rfl

/-- Two runs that go side by side: `Rel` relates what they have left. As long as what the first has
left is `Kept`, they see the same fronts. If `faults` holds, that is always so, and faults are
compared as well: the second run has `more` lexemes left than the first. -/
structure Coupling (f : Nat → Nat) where
  Rel : List Lexeme → List Lexeme → Prop
  Kept : List Lexeme → Prop
  faults : Prop
  more : Nat := 0
  kept_of_suffix {ts rest : List Lexeme} : rest <:+ ts → Kept rest → Kept ts
  kept_of_faults : faults → ∀ ts, Kept ts
  front {ts ts' : List Lexeme} : Kept ts → Rel ts ts' → AlikeAtFront f ts ts'
  -- A newline may be the last that is kept. Behind anything else the runs can look one ahead.
  second {ts ts' : List Lexeme} :
    Kept ts → kindAt 0 ts ≠ .newline → ts ≠ [] → Rel ts ts' → AlikeAtFront f ts.tail ts'.tail
  tail {ts ts' : List Lexeme} : ts ≠ [] → Kept ts.tail → Rel ts ts' → Rel ts.tail ts'.tail
  length_eq {ts ts' : List Lexeme} : faults → Rel ts ts' → ts'.length = ts.length + more
  length_lt_iff {ts ts' us us' : List Lexeme} :
    Rel ts ts' → Rel us us' → (us.length < ts.length ↔ us'.length < ts'.length)

namespace Coupling

variable {f : Nat → Nat}

/-- The coupling that relates no two runs. -/
def void (f : Nat → Nat) : Coupling f where
  Rel _ _ := False
  Kept _ := True
  faults := False
  kept_of_suffix _ _ := trivial
  kept_of_faults _ _ := trivial
  front _ h := h.elim
  second _ _ _ h := h.elim
  tail _ _ h := h
  length_eq h := h.elim
  length_lt_iff h := h.elim

theorem rel_of_cons {C : Coupling f} {t t' : Lexeme} {us us' : List Lexeme} (hkept : C.Kept us)
    (hrel : C.Rel (t :: us) (t' :: us')) : C.Rel us us' :=
  C.tail (List.cons_ne_nil t us) (show C.Kept (t :: us).tail from hkept) hrel

/-- What a rule that looks at the input can see of it. -/
structure Agree (C : Coupling f) (ts ts' : List Lexeme) : Prop where
  front : AlikeAtFront f ts ts'
  second : kindAt 0 ts ≠ .newline → ts ≠ [] → AlikeAtFront f ts.tail ts'.tail
  length : C.faults → ts'.length = ts.length + C.more

namespace Agree

variable {C : Coupling f} {ts ts' : List Lexeme}

/-- Every input agrees with one that goes on with as many stops as the second run has more. -/
theorem exists_right (C : Coupling f) (ts : List Lexeme) : ∃ ts', C.Agree ts ts' := by
  let stops := List.replicate C.more (⟨.stop, "", .none, 0, .touching⟩ : Lexeme)
  have hstops : AtEnd stops := by
    intro t ht
    obtain rfl := (List.mem_replicate.mp (List.mem_of_mem_head? ht)).2
    exact ⟨rfl, rfl⟩
  refine ⟨ts ++ stops, .append hstops ts, fun _ hne => ?_, fun _ => by simp [stops]⟩
  rw [List.tail_append_of_ne_nil hne]
  exact .append hstops ts.tail

theorem of_rel (hkept : C.Kept ts) (hrel : C.Rel ts ts') : C.Agree ts ts' :=
  ⟨C.front hkept hrel, fun hk hne => C.second hkept hk hne hrel,
    fun hfaults => C.length_eq hfaults hrel⟩

end Agree

end Coupling

namespace AtEnd

variable {ts : List Lexeme}

theorem kindAt_eq (h : AtEnd ts) : kindAt 0 ts = .stop := by
  cases ts with
  | nil => rfl
  | cons t us => exact (h t rfl).1

theorem wordAt_eq (h : AtEnd ts) (word : String) : wordAt 0 word ts = false := by
  cases ts with
  | nil => rfl
  | cons t us =>
    change (t.value.word? == some word) = false
    rw [(h t rfl).2]
    rfl

theorem found_eq (h : AtEnd ts) : found ts = Kind.stop.name := by
  cases ts with
  | nil => rfl
  | cons t us => rw [found, Lexeme.describe, (h t rfl).1]

theorem dropWhile_newline (h : AtEnd ts) : ts.dropWhile (·.kind = .newline) = ts := by
  cases ts with
  | nil => rfl
  | cons t us => exact List.dropWhile_cons_of_neg (by simp [(h t rfl).1])

end AtEnd

theorem ne_nil_of_kindAt {ts : List Lexeme} (h : kindAt 0 ts ≠ .stop) : ts ≠ [] := by
  rintro rfl
  exact h rfl

theorem ne_nil_of_wordAt {ts : List Lexeme} {word : String} (h : wordAt 0 word ts = true) :
    ts ≠ [] := by
  rintro rfl
  cases h

namespace AlikeAtFront

variable {f : Nat → Nat} {ts ts' : List Lexeme}

theorem cases (h : AlikeAtFront f ts ts') :
    (ts = [] ∧ AtEnd ts') ∨
      ∃ t us t' us', ts = t :: us ∧ ts' = t' :: us' ∧ t.seen f = t'.seen f := by
  obtain h | hend := h
  · cases ts with
    | nil =>
      cases ts' with
      | nil => exact .inl ⟨rfl, fun _ ht => by cases ht⟩
      | cons t' us' => cases h
    | cons t us =>
      cases ts' with
      | nil => cases h
      | cons t' us' => exact .inr ⟨t, us, t', us', rfl, rfl, Option.some.inj h⟩
  · exact .inl hend

theorem kindAt_eq (h : AlikeAtFront f ts ts') : kindAt 0 ts = kindAt 0 ts' := by
  obtain ⟨rfl, hend⟩ | ⟨t, us, t', us', rfl, rfl, hseen⟩ := h.cases
  · exact hend.kindAt_eq.symm
  · exact Lexeme.kind_eq_of_seen hseen

theorem wordAt_eq (h : AlikeAtFront f ts ts') (word : String) :
    wordAt 0 word ts = wordAt 0 word ts' := by
  obtain ⟨rfl, hend⟩ | ⟨t, us, t', us', rfl, rfl, hseen⟩ := h.cases
  · exact (hend.wordAt_eq word).symm
  · exact congrFun (Lexeme.isWord_eq_of_seen hseen) word

theorem found_eq (h : AlikeAtFront f ts ts') : found ts = found ts' := by
  obtain ⟨rfl, hend⟩ | ⟨t, us, t', us', rfl, rfl, hseen⟩ := h.cases
  · exact hend.found_eq.symm
  · exact Lexeme.describe_eq_of_seen hseen

end AlikeAtFront

theorem kindAt_succ (n : Nat) (ts : List Lexeme) : kindAt (n + 1) ts = kindAt n ts.tail := by
  cases ts <;> rfl

theorem wordAt_succ (n : Nat) (word : String) (ts : List Lexeme) :
    wordAt (n + 1) word ts = wordAt n word ts.tail := by
  cases ts <;> rfl

namespace Coupling.Agree

variable {f : Nat → Nat} {C : Coupling f} {ts ts' : List Lexeme}

theorem kindAt_one (h : C.Agree ts ts') (hk : kindAt 0 ts ≠ .newline)
    (hstop : kindAt 0 ts ≠ .stop) : kindAt 1 ts = kindAt 1 ts' := by
  rw [kindAt_succ, kindAt_succ, (h.second hk (ne_nil_of_kindAt hstop)).kindAt_eq]

theorem wordAt_one (h : C.Agree ts ts') (hk : kindAt 0 ts ≠ .newline)
    (hstop : kindAt 0 ts ≠ .stop) (word : String) : wordAt 1 word ts = wordAt 1 word ts' := by
  rw [wordAt_succ, wordAt_succ, (h.second hk (ne_nil_of_kindAt hstop)).wordAt_eq]

end Coupling.Agree

section

variable {f : Nat → Nat} {α β γ δ : Type}

/-- The second outcome is what the first one asks for: for a value that leaves kept lexemes a value
with the same `view`, and for a fault the same fault in the same place where faults are compared. -/
structure Tracks (C : Coupling f) (view : α → β) (r r' : Except Fault (α × List Lexeme)) :
    Prop where
  value ⦃a rest⦄ : r = .ok (a, rest) → C.Kept rest →
    ∃ a' rest', r' = .ok (a', rest') ∧ view a = view a' ∧ C.Rel rest rest'
  fault ⦃e⦄ : C.faults → r = .error e → r' = .error ⟨e.cause, e.left + C.more⟩

/-- Where `At` holds, what `p` uses up satisfies `Used`, and in coupled runs `p'` reads what `p`
reads. -/
structure Follows (C : Coupling f) (At : List Lexeme → Prop) (Used : List Lexeme → Prop)
    (view : α → β) (p p' : Rule α) : Prop where
  uses ⦃ts a rest⦄ : At ts → p ts = .ok (a, rest) → ∃ x, ts = x ++ rest ∧ Used x
  tracks ⦃ts ts'⦄ : At ts → C.Rel ts ts' → Tracks C view (p ts) (p' ts')

abbrev Anywhere : List Lexeme → Prop := fun _ => True

/-- Where the front is of a kind. -/
abbrev AtKind (k : Kind) : List Lexeme → Prop := fun ts => kindAt 0 ts = k

abbrev Anything : List Lexeme → Prop := fun _ => True

/-- A property of what is used up where no angle opens a tag: only one that stands behind something
on its line is used. -/
class Unopened (Used : List Lexeme → Prop) : Prop where
  nil : Used []
  append {x y : List Lexeme} : Used x → Used y → Used (x ++ y)
  single {t : Lexeme} : t.kind ≠ .symbol .langle → Used [t]
  angle {t angle : Lexeme} : t.kind ≠ .newline → t.kind ≠ .symbol .langle → Used [t, angle]

instance : Unopened Anything := ⟨trivial, fun _ _ => trivial, fun _ => trivial, fun _ _ => trivial⟩

variable {C : Coupling f} {At : List Lexeme → Prop} {Used : List Lexeme → Prop} {view : α → β}
  {view' : γ → δ} {p p' : Rule α}

theorem Follows.suffix (h : Follows C At Used view p p') {ts rest : List Lexeme} {a : α}
    (hat : At ts) (hr : p ts = .ok (a, rest)) : rest <:+ ts := by
  obtain ⟨x, hx, _⟩ := h.uses hat hr
  exact ⟨x, hx.symm⟩

theorem Follows.within {At' : List Lexeme → Prop} (h : Follows C At Used view p p')
    (hat : ∀ ts, At' ts → At ts) : Follows C At' Used view p p' :=
  ⟨fun _ _ _ hk hr => h.uses (hat _ hk) hr, fun _ _ hk hrel => h.tracks (hat _ hk) hrel⟩

theorem Follows.here (h : Follows C Anywhere Used view p p') : Follows C At Used view p p' :=
  h.within fun _ _ => trivial

theorem follows_pureOf {a a' : α} (hnil : Used []) (h : view a = view a') :
    Follows C At Used view (pure a) (pure a') where
  uses ts b rest _ hr := by
    cases hr
    exact ⟨[], rfl, hnil⟩
  tracks ts ts' _ hrel := by
    refine ⟨fun b rest hr _ => ?_, fun e _ hr => by cases hr⟩
    cases hr
    exact ⟨a', ts', rfl, h, hrel⟩

theorem follows_pure [Unopened Used] {a a' : α} (h : view a = view a') :
    Follows C At Used view (pure a) (pure a') :=
  follows_pureOf Unopened.nil h

/-- Two rules in turn use up what both of them use up. The second starts where the first leaves
off, of which `Mid` is known. -/
theorem follows_bindFrom {Used₁ Used₂ : List Lexeme → Prop} {Mid : α → List Lexeme → Prop}
    {g g' : α → Rule γ} (hp : Follows C At Used₁ view p p')
    (hmid : ∀ ts a rest, At ts → p ts = .ok (a, rest) → Mid a rest)
    (hg : ∀ a a', view a = view a' → Follows C (Mid a) Used₂ view' (g a) (g' a'))
    (hused : ∀ x y, Used₁ x → Used₂ y → Used (x ++ y)) :
    Follows C At Used view' (p >>= g) (p' >>= g') where
  uses ts c rest hat hr := by
    obtain ⟨a, mid, ha, hc⟩ := bind_eq_ok hr
    obtain ⟨y, rfl, hy⟩ := (hg a a rfl).uses (hmid ts a mid hat ha) hc
    obtain ⟨x, rfl, hx⟩ := hp.uses hat ha
    exact ⟨x ++ y, (List.append_assoc x y rest).symm, hused x y hx hy⟩
  tracks ts ts' hat hrel := by
    refine ⟨fun c rest hr hkept => ?_, fun e hfaults hr => ?_⟩
    · obtain ⟨a, mid, ha, hc⟩ := bind_eq_ok hr
      have hat' := hmid ts a mid hat ha
      have hkept' : C.Kept mid := C.kept_of_suffix ((hg a a rfl).suffix hat' hc) hkept
      obtain ⟨a', mid', ha', hview, hrel'⟩ := (hp.tracks hat hrel).value ha hkept'
      rw [bind_of_ok ha']
      exact ((hg a a' hview).tracks hat' hrel').value hc hkept
    · cases ha : p ts with
      | error e' =>
        rw [bind_of_error ha] at hr
        cases hr
        exact bind_of_error ((hp.tracks hat hrel).fault hfaults ha)
      | ok x =>
        obtain ⟨a', mid', ha', hview, hrel'⟩ :=
          (hp.tracks hat hrel).value ha (C.kept_of_faults hfaults x.2)
        rw [bind_of_ok ha] at hr
        rw [bind_of_ok ha']
        exact ((hg x.1 a' hview).tracks (hmid ts x.1 x.2 hat ha) hrel').fault hfaults hr

theorem follows_bindOf {Used₁ Used₂ : List Lexeme → Prop} {g g' : α → Rule γ}
    (hp : Follows C At Used₁ view p p')
    (hg : ∀ a a', view a = view a' → Follows C Anywhere Used₂ view' (g a) (g' a'))
    (hused : ∀ x y, Used₁ x → Used₂ y → Used (x ++ y)) :
    Follows C At Used view' (p >>= g) (p' >>= g') :=
  follows_bindFrom hp (fun _ _ _ _ _ => trivial) hg hused

theorem follows_bindMid [Unopened Used] (Mid : α → List Lexeme → Prop) {g g' : α → Rule γ}
    (hp : Follows C At Used view p p')
    (hmid : ∀ ts a rest, At ts → p ts = .ok (a, rest) → Mid a rest)
    (hg : ∀ a a', view a = view a' → Follows C (Mid a) Used view' (g a) (g' a')) :
    Follows C At Used view' (p >>= g) (p' >>= g') :=
  follows_bindFrom hp hmid hg fun _ _ => Unopened.append

theorem follows_bindView [Unopened Used] {g g' : α → Rule γ} (hp : Follows C At Used view p p')
    (hg : ∀ a a', view a = view a' → Follows C Anywhere Used view' (g a) (g' a')) :
    Follows C At Used view' (p >>= g) (p' >>= g') :=
  follows_bindOf hp hg fun _ _ => Unopened.append

theorem follows_bind [Unopened Used] {g g' : α → Rule γ} (hp : Follows C At Used id p p')
    (hg : ∀ a, Follows C Anywhere Used view' (g a) (g' a)) :
    Follows C At Used view' (p >>= g) (p' >>= g') := by
  refine follows_bindView hp fun a a' h => ?_
  cases h
  exact hg a

theorem follows_map [Unopened Used] {g : α → γ} (hp : Follows C At Used view p p')
    (hg : ∀ a a', view a = view a' → view' (g a) = view' (g a')) :
    Follows C At Used view' (g <$> p) (g <$> p') :=
  follows_bindView hp fun a a' h => follows_pure (hg a a' h)

theorem follows_ite {c c' : Prop} [Decidable c] [Decidable c'] {q q' : Rule α} (hc : c ↔ c')
    (hp : c → Follows C At Used view p p') (hq : ¬ c → Follows C At Used view q q') :
    Follows C At Used view (if c then p else q) (if c' then p' else q') := by
  by_cases h : c
  · rw [if_pos h, if_pos (hc.mp h)]
    exact hp h
  · rw [if_neg h, if_neg (hc.not.mp h)]
    exact hq h

theorem follows_get {g g' : List Lexeme → Rule α}
    (h : ∀ ts ts', At ts → C.Agree ts ts' → Follows C (· = ts) Used view (g ts) (g' ts')) :
    Follows C At Used view (get >>= g) (get >>= g') where
  uses ts a rest hat hr := by
    obtain ⟨ts', hagree⟩ := Coupling.Agree.exists_right C ts
    exact (h ts ts' hat hagree).uses rfl hr
  tracks ts ts' hat hrel := by
    refine ⟨fun a rest hr hkept => ?_, fun e hfaults hr => ?_⟩
    · obtain ⟨us', hagree⟩ := Coupling.Agree.exists_right C ts
      have hts : C.Kept ts := C.kept_of_suffix ((h ts us' hat hagree).suffix rfl hr) hkept
      exact ((h ts ts' hat (.of_rel hts hrel)).tracks rfl hrel).value hr hkept
    · have hts : C.Kept ts := C.kept_of_faults hfaults ts
      exact ((h ts ts' hat (.of_rel hts hrel)).tracks rfl hrel).fault hfaults hr

theorem follows_kind {g g' : Kind → Rule α}
    (h : ∀ k, Follows C (AtKind k) Used view (g k) (g' k)) :
    Follows C At Used view (kind >>= g) (kind >>= g') := by
  change Follows C At Used view (get >>= fun ts => g (kindAt 0 ts))
    (get >>= fun ts => g' (kindAt 0 ts))
  refine follows_get fun ts ts' _ hagree => ?_
  rw [← hagree.front.kindAt_eq]
  exact (h (kindAt 0 ts)).within fun us hus => congrArg (kindAt 0) hus

theorem follows_failAt {here here' : List Lexeme}
    (h : C.faults → here'.length = here.length + C.more) (cause : Cause) :
    Follows C At Used view (failAt here cause) (failAt here' cause) where
  uses ts a rest _ hr := by cases hr
  tracks ts ts' _ _ := by
    refine ⟨fun a rest hr _ => by (cases hr), fun e hfaults hr => ?_⟩
    cases hr
    change Except.error (Fault.mk cause here'.length) = _
    rw [h hfaults]

theorem follows_fail (cause : Cause) : Follows C At Used view (fail cause) (fail cause) :=
  follows_get fun _ _ _ hagree => follows_failAt hagree.length cause

theorem follows_unexpected (expected : String) :
    Follows C At Used view (unexpected expected) (unexpected expected) := by
  refine follows_get fun ts ts' _ hagree => ?_
  rw [hagree.front.found_eq]
  exact follows_fail _

theorem follows_failAt_bind {here here' : List Lexeme} {g g' : γ → Rule α}
    (h : C.faults → here'.length = here.length + C.more) (cause : Cause) :
    Follows C At Used view (failAt here cause >>= g) (failAt here' cause >>= g') := by
  change Follows C At Used view (failAt here cause) (failAt here' cause)
  exact follows_failAt h cause

theorem follows_fail_bind {g g' : γ → Rule α} (cause : Cause) :
    Follows C At Used view (fail cause >>= g) (fail cause >>= g') := by
  change Follows C At Used view (fail cause) (fail cause)
  exact follows_fail cause

theorem follows_unexpected_bind {g g' : γ → Rule α} (expected : String) :
    Follows C At Used view (unexpected expected >>= g) (unexpected expected >>= g') := by
  change Follows C At Used view (unexpected expected) (unexpected expected)
  exact follows_unexpected expected

theorem follows_line [Unopened Used] (hne : ∀ ts, At ts → ts ≠ []) :
    Follows C At Used f line line := by
  refine follows_get fun ts ts' hat hagree => follows_pure ?_
  obtain ⟨hnil, _⟩ | ⟨t, us, t', us', rfl, rfl, hseen⟩ := hagree.front.cases
  · exact absurd hnil (hne ts hat)
  · exact Lexeme.line_eq_of_seen hseen

/-- Rules move only behind a lexeme that is there. -/
theorem follows_skip (hne : ∀ ts, At ts → ts ≠ []) (h : ∀ t ts, At (t :: ts) → Used [t]) :
    Follows C At Used id skip skip where
  uses ts a rest hat hr := by
    cases hr
    cases ts with
    | nil => exact absurd rfl (hne [] hat)
    | cons t ts => exact ⟨[t], rfl, h t ts hat⟩
  tracks ts ts' hat hrel := by
    refine ⟨fun a rest hr hkept => ?_, fun e _ hr => by cases hr⟩
    cases hr
    exact ⟨(), ts'.tail, rfl, rfl, C.tail (hne ts hat) hkept hrel⟩

theorem follows_skipOf {ts : List Lexeme} (hne : ts ≠ []) :
    Follows C (· = ts) Anything id skip skip :=
  follows_skip (fun _ hus => hus ▸ hne) fun _ _ _ => trivial

theorem take_of_ne {k : Kind} {ts : List Lexeme} (h : kindAt 0 ts ≠ k) (expected : String) :
    take k expected ts = unexpected expected ts := by
  cases ts with
  | nil => rfl
  | cons t us =>
    rw [take_cons]
    exact if_neg h

theorem follows_take {k : Kind} (hk : k ≠ .stop) (h : ∀ t : Lexeme, t.kind = k → Used [t])
    (expected : String) :
    Follows C At Used (Lexeme.seen f) (take k expected) (take k expected) where
  uses ts t rest _ hr := by
    cases ts with
    | nil => cases hr
    | cons first others =>
      rw [take_cons] at hr
      split at hr
      next hk => cases hr; exact ⟨[t], rfl, h t hk⟩
      next => cases hr
  tracks ts ts' hat hrel := by
    refine ⟨fun t rest hr hkept => ?_, fun e hfaults hr => ?_⟩
    · cases ts with
      | nil => cases hr
      | cons first others =>
        rw [take_cons] at hr
        split at hr
        next hk =>
          cases hr
          have hkept' : C.Kept (t :: rest) := C.kept_of_suffix (List.suffix_cons _ _) hkept
          obtain ⟨hnil, _⟩ | ⟨_, _, t', us', heq, rfl, hseen⟩ := (C.front hkept' hrel).cases
          · cases hnil
          · cases heq
            refine ⟨t', us', ?_, hseen, C.rel_of_cons hkept hrel⟩
            exact take_cons_of_kind (Lexeme.kind_eq_of_seen hseen ▸ hk)
        next => cases hr
    · have hfront := (C.front (C.kept_of_faults hfaults ts) hrel).kindAt_eq
      by_cases hkind : kindAt 0 ts = k
      · cases ts with
        | nil => exact absurd hkind.symm hk
        | cons t us =>
          rw [take_cons_of_kind hkind] at hr
          cases hr
      · rw [take_of_ne hkind] at hr
        rw [take_of_ne (hfront ▸ hkind)]
        have hfail : Follows C Anywhere Anything id (unexpected (α := Lexeme) expected)
            (unexpected expected) := follows_unexpected expected
        exact (hfail.tracks trivial hrel).fault hfaults hr

theorem follows_eatOf {s : Symbol} (hnil : Used [])
    (h : ∀ t : Lexeme, t.kind = .symbol s → Used [t]) :
    Follows C At Used id (eat (.symbol s)) (eat (.symbol s)) := by
  refine follows_kind fun found =>
    follows_ite Iff.rfl (fun hk => ?_) fun _ => follows_pureOf hnil rfl
  have hskip : Follows C (AtKind found) Used id skip skip :=
    follows_skip (fun ts ht => ne_nil_of_kindAt (ht.trans hk ▸ nofun)) fun t _ ht => h t (hk ▸ ht)
  have hreturn : Follows C Anywhere (· = []) id (pure true) (pure true) := follows_pureOf rfl rfl
  refine follows_bindOf hskip (fun _ _ _ => hreturn) fun x y hx hy => ?_
  rwa [hy, List.append_nil]

theorem follows_expectOf [Unopened Used] {s : Symbol}
    (h : ∀ t : Lexeme, t.kind = .symbol s → Used [t]) :
    Follows C At Used id (expect (.symbol s)) (expect (.symbol s)) := by
  refine follows_bind (follows_eatOf Unopened.nil h) fun eaten => ?_
  exact follows_ite Iff.rfl (fun _ => follows_pure rfl) fun _ => follows_unexpected _

section

variable [Unopened Used]

theorem follows_eat {s : Symbol} (hs : Kind.symbol s ≠ .symbol .langle) :
    Follows C At Used id (eat (.symbol s)) (eat (.symbol s)) :=
  follows_eatOf Unopened.nil fun _ ht => Unopened.single (ht ▸ hs)

theorem follows_expect {s : Symbol} (hs : Kind.symbol s ≠ .symbol .langle) :
    Follows C At Used id (expect (.symbol s)) (expect (.symbol s)) :=
  follows_expectOf fun _ ht => Unopened.single (ht ▸ hs)

theorem follows_ident (expected : String) :
    Follows C At Used id (ident expected) (ident expected) := by
  refine follows_bindView (follows_take (k := .ident) nofun (fun t ht => Unopened.single ?_)
    expected) fun t t' h => ?_
  · rw [ht]
    nofun
  · exact follows_pure (Lexeme.text_eq_of_seen h)

theorem Unopened.newlines {x : List Lexeme} (h : ∀ t ∈ x, t.kind = .newline) : Used x := by
  induction x with
  | nil => exact Unopened.nil
  | cons t x ih =>
    have ht : t.kind ≠ .symbol .langle := by
      rw [h t (by simp)]
      nofun
    exact Unopened.append (x := [t]) (Unopened.single ht) (ih fun u hu => h u (by simp [hu]))

theorem Coupling.dropWhile_newline {ts ts' : List Lexeme} (hrel : C.Rel ts ts')
    (hkept : C.Kept (ts.dropWhile (·.kind = .newline))) :
    C.Rel (ts.dropWhile (·.kind = .newline)) (ts'.dropWhile (·.kind = .newline)) := by
  induction ts generalizing ts' with
  | nil =>
    obtain ⟨_, hend⟩ | ⟨_, _, _, _, heq, _⟩ := (C.front hkept hrel).cases
    · rwa [hend.dropWhile_newline]
    · cases heq
  | cons t ts ih =>
    have hts : C.Kept (t :: ts) := C.kept_of_suffix (List.dropWhile_suffix _) hkept
    obtain ⟨heq, _⟩ | ⟨_, _, t', us', heq, rfl, hseen⟩ := (C.front hts hrel).cases
    · cases heq
    · cases heq
      by_cases hk : t.kind = .newline
      · have hk' : t'.kind = .newline := Lexeme.kind_eq_of_seen hseen ▸ hk
        rw [List.dropWhile_cons_of_pos (by simpa using hk)] at hkept ⊢
        rw [List.dropWhile_cons_of_pos (by simpa using hk')]
        exact ih (C.rel_of_cons (C.kept_of_suffix (List.dropWhile_suffix _) hkept) hrel) hkept
      · have hk' : t'.kind ≠ .newline := Lexeme.kind_eq_of_seen hseen ▸ hk
        rwa [List.dropWhile_cons_of_neg (by simpa using hk),
          List.dropWhile_cons_of_neg (by simpa using hk')]

theorem follows_skipNewlines : Follows C At Used id skipNewlines skipNewlines where
  uses ts a rest _ hr := by
    cases hr
    refine ⟨ts.takeWhile (·.kind = .newline), List.takeWhile_append_dropWhile.symm, ?_⟩
    exact Unopened.newlines fun t ht => by simpa using List.mem_takeWhile_imp ht
  tracks ts ts' _ hrel := by
    refine ⟨fun a rest hr hkept => ?_, fun e _ hr => by cases hr⟩
    cases hr
    exact ⟨(), _, rfl, rfl, C.dropWhile_newline hrel hkept⟩

theorem follows_skipAt {k : Kind} (hk : k ≠ .symbol .langle) (hstop : k ≠ .stop) :
    Follows C (AtKind k) Used id skip skip :=
  follows_skip (fun _ ht => ne_nil_of_kindAt (ht ▸ hstop))
    fun _ _ ht => Unopened.single fun heq => hk (ht.symm.trans heq)

theorem follows_endStatement : Follows C At Used id endStatement endStatement := by
  refine follows_kind fun k => ?_
  split
  · exact follows_skipAt nofun nofun
  · exact follows_pure rfl
  · exact follows_unexpected _

theorem follows_many {round round' : Rule (Round α)}
    (h : Follows C Anywhere Used (Round.map view) round round') :
    Follows C At Used (List.map view) (many round) (many round') := by
  have huses ⦃ts as rest⦄ (hr : many round ts = .ok (as, rest)) : ∃ x, ts = x ++ rest ∧ Used x :=
    many_uses (fun _ _ => Unopened.append) (fun _ _ _ => h.uses trivial) hr
  suffices htracks : ∀ ts ts', C.Rel ts ts' →
      Tracks C (List.map view) (many round ts) (many round' ts') from
    ⟨fun _ _ _ _ hr => huses hr, fun ts ts' _ hrel => htracks ts ts' hrel⟩
  intro ts ts' hrel
  change Tracks C (List.map view) (manyFrom round ts) (many round' ts')
  fun_induction manyFrom round ts generalizing ts' with
  | case1 ts e he =>
    refine ⟨fun as rest hr _ => by (cases hr), fun e' hfaults hr => ?_⟩
    cases hr
    exact many_of_error ((h.tracks trivial hrel).fault hfaults he)
  | case2 ts mid hm =>
    refine ⟨fun as rest hr hkept => ?_, fun e _ hr => by (cases hr)⟩
    cases hr
    obtain ⟨r, mid', hr', hview, hrel'⟩ := (h.tracks trivial hrel).value hm hkept
    obtain rfl := Round.eq_stop_of_map hview
    exact ⟨[], mid', many_of_stop hr', rfl, hrel'⟩
  | case3 ts a mid hm =>
    refine ⟨fun as rest hr hkept => ?_, fun e _ hr => by (cases hr)⟩
    cases hr
    obtain ⟨r, mid', hr', hview, hrel'⟩ := (h.tracks trivial hrel).value hm hkept
    obtain ⟨a', rfl, ha⟩ := Round.eq_last_of_map hview
    exact ⟨[a'], mid', many_of_last hr', by simp [ha], hrel'⟩
  | case4 ts a mid hm hlt e he ih =>
    refine ⟨fun as rest hr _ => by (cases hr), fun e' hfaults hr => ?_⟩
    cases hr
    obtain ⟨r, mid', hr', hview, hrel'⟩ :=
      (h.tracks trivial hrel).value hm (C.kept_of_faults hfaults mid)
    obtain ⟨a', rfl, _⟩ := Round.eq_more_of_map hview
    exact many_of_more_error hr' ((C.length_lt_iff hrel hrel').mp hlt)
      ((ih _ hrel').fault hfaults he)
  | case5 ts a mid hm hlt others final he ih =>
    refine ⟨fun as rest hr hkept => ?_, fun e _ hr => by (cases hr)⟩
    cases hr
    obtain ⟨x, hx, _⟩ := huses he
    have hmid : C.Kept mid := C.kept_of_suffix ⟨x, hx.symm⟩ hkept
    obtain ⟨r, mid', hr', hview, hrel'⟩ := (h.tracks trivial hrel).value hm hmid
    obtain ⟨a', rfl, ha⟩ := Round.eq_more_of_map hview
    obtain ⟨others', rest', hothers, hviews, hfinal⟩ := (ih _ hrel').value he hkept
    refine ⟨a' :: others', rest', ?_, by simp [ha, hviews], hfinal⟩
    exact many_of_more hr' ((C.length_lt_iff hrel hrel').mp hlt) hothers
  | case6 ts a mid hm hlt =>
    refine ⟨fun as rest hr hkept => ?_, fun e _ hr => by (cases hr)⟩
    cases hr
    obtain ⟨r, mid', hr', hview, hrel'⟩ := (h.tracks trivial hrel).value hm hkept
    obtain ⟨a', rfl, ha⟩ := Round.eq_more_of_map hview
    refine ⟨[a'], mid', ?_, by simp [ha], hrel'⟩
    exact many_of_stuck hr' ((C.length_lt_iff hrel hrel').not.mp hlt)

theorem follows_manyOf {round round' : Rule (Round α)}
    (h : Follows C Anywhere Used (Round.map id) round round') :
    Follows C At Used id (many round) (many round') := by
  have hmany : Follows C At Used (List.map id) (many round) (many round') := follows_many h
  rwa [List.map_id_fun] at hmany

end

/-- What passes from the parts to the whole in all coupled runs holds of the whole. -/
theorem follows_nestWith {ι : Type} {base : ι → Rule α} {step : (ι → Rule α) → ι → Rule α}
    (hbase : ∀ (C : Coupling f) i, Follows C At Used view (base i) (base i))
    (hstep : ∀ (C : Coupling f) part part',
      (∀ i, Follows C At Used view (part i) (part' i)) →
        ∀ i, Follows C At Used view (step part i) (step part' i)) (i : ι) :
    Follows C At Used view (nestWith base step i) (nestWith base step i) := by
  have huses : ∀ ⦃ts⦄, ∀ i a rest, At ts → nestFrom base step i ts = .ok (a, rest) →
      ∃ x, ts = x ++ rest ∧ Used x := by
    intro ts
    induction hn : ts.length using Nat.strong_induction_on generalizing ts with
    | _ n ih =>
      intro i a rest hat hr
      rw [nestFrom] at hr
      -- No second run is needed to see what the first one uses up.
      have hparts (j : ι) : Follows (.void f) At Used view
          (fun us => if us.length < ts.length then nestFrom base step j us else base j us)
          (base j) := by
        refine ⟨fun us b final hat' hr' => ?_, fun _ _ _ hrel => hrel.elim⟩
        by_cases hlt : us.length < ts.length
        · rw [if_pos hlt] at hr'
          exact ih us.length (by omega) rfl j b final hat' hr'
        · rw [if_neg hlt] at hr'
          exact (hbase (.void f) j).uses hat' hr'
      exact (hstep (.void f) _ _ hparts i).uses hat hr
  refine ⟨fun ts a rest hat hr => huses i a rest hat hr, ?_⟩
  intro ts ts' hat hrel
  change Tracks C view (nestFrom base step i ts) (nestFrom base step i ts')
  induction hn : ts.length using Nat.strong_induction_on generalizing i ts ts' with
  | _ n ih =>
    rw [nestFrom, nestFrom]
    refine (hstep C _ _ (fun j => ⟨fun us b final hat' hr' => ?_, fun us us' hat' hrel' => ?_⟩)
      i).tracks hat hrel
    · by_cases hlt : us.length < ts.length
      · rw [if_pos hlt] at hr'
        exact huses j b final hat' hr'
      · rw [if_neg hlt] at hr'
        exact (hbase C j).uses hat' hr'
    · -- The two runs agree on whether a part is shorter than the whole.
      have hiff := C.length_lt_iff hrel hrel'
      by_cases hlt : us.length < ts.length
      · rw [if_pos hlt, if_pos (hiff.mp hlt)]
        exact ih us.length (by omega) j hat' hrel' rfl
      · rw [if_neg hlt, if_neg (hiff.not.mp hlt)]
        exact (hbase C j).tracks hat' hrel'

theorem follows_nest {base : Rule α} {step : Rule α → Rule α}
    (hbase : ∀ C : Coupling f, Follows C At Used view base base)
    (hstep : ∀ (C : Coupling f) part part', Follows C At Used view part part' →
      Follows C At Used view (step part) (step part')) :
    Follows C At Used view (nest base step) (nest base step) :=
  follows_nestWith (fun C _ => hbase C)
    (fun C part part' hpart _ => hstep C (part ()) (part' ()) (hpart ())) ()

end

end Rule

end Sigil
