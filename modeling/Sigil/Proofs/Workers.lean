import Mathlib.Logic.Relation
import Sigil.Proofs.FileTrees
import Sigil.Run

namespace Sigil

/-- What a run can ask of its storage. -/
inductive Request where
  | workingDirectory
  | isDirectory (path : String)
  | isFile (path : String)
  | filesBelow (path : String)
  | read (path : String)
  | makeDirectory (path : String)
  | putFile (path text : String)

namespace Request

def Answer : Request → Type
  | workingDirectory => Option String
  | isDirectory _ => Bool
  | isFile _ => Bool
  | filesBelow _ => List (List String)
  | read _ => Except SystemError String
  | makeDirectory _ => Except SystemError Unit
  | putFile _ _ => Except SystemError Unit

def perform {m : Type → Type} [Storage m] : (r : Request) → m r.Answer
  | workingDirectory => Storage.workingDirectory
  | isDirectory path => Storage.isDirectory path
  | isFile path => Storage.isFile path
  | filesBelow path => Storage.filesBelow path
  | read path => Storage.read path
  | makeDirectory path => Storage.makeDirectory path
  | putFile path text => Storage.putFile path text

/-- How a workspace answers a request. Files are listed in whatever order. -/
inductive Answered : (r : Request) → Workspace → r.Answer → Workspace → Prop
  | exactly (r : Request) (w : Workspace) :
    Answered r w ((r.perform : StateM Workspace _) w).1 ((r.perform : StateM Workspace _) w).2
  | listed {path : String} {w : Workspace} {files : List (List String)}
    (h : files.Perm (w.tree.filesBelow w.directory path)) : Answered (filesBelow path) w files w

theorem Answered.perform_eq {r : Request} {w w' : Workspace} {a : r.Answer}
    (h : r.Answered w a w') (hr : ∀ path, r ≠ filesBelow path) :
    (r.perform : StateM Workspace _) w = (a, w') := by
  cases h with
  | exactly => rfl
  | listed => exact absurd rfl (hr _)

end Request

/-- A program that makes one request after the other, so that others can come in between. -/
inductive Worker (α : Type) : Type where
  | done (a : α)
  | ask (r : Request) (next : r.Answer → Worker α)

namespace Worker

variable {α β : Type}

protected def bind : Worker α → (α → Worker β) → Worker β
  | done a, f => f a
  | ask r next, f => ask r fun a => (next a).bind f

instance : Monad Worker where
  pure := done
  bind := Worker.bind

instance : Storage Worker where
  workingDirectory := ask .workingDirectory done
  isDirectory path := ask (.isDirectory path) done
  isFile path := ask (.isFile path) done
  filesBelow path := ask (.filesBelow path) done
  read path := ask (.read path) done
  makeDirectory path := ask (.makeDirectory path) done
  putFile path text := ask (.putFile path text) done

/-- What a worker does if nobody comes in between. -/
def run {m : Type → Type} [Monad m] [Storage m] : Worker α → m α
  | done a => pure a
  | ask r next => do (next (← r.perform)).run

section Running

variable {m : Type → Type} [Monad m] [Storage m]

theorem run_ite {c : Prop} [Decidable c] (x y : Worker α) :
    (if c then x else y).run = (if c then x.run else y.run : m α) := by
  split <;> rfl

variable [LawfulMonad m]

theorem run_bind (worker : Worker α) (f : α → Worker β) :
    (worker >>= f).run = (worker.run >>= fun a => (f a).run : m β) := by
  induction worker with
  | done a => exact (pure_bind a fun a => (f a).run).symm
  | ask r next ih =>
    change (r.perform >>= fun a => (next a >>= f).run : m β) = _
    simp only [ih, run, bind_assoc]

theorem run_ask (r : Request) : (ask r done).run = (r.perform : m _) := bind_pure _

end Running

/-- One worker of a pool has its next request answered. -/
inductive Step : List (Worker α) × Workspace → List (Worker α) × Workspace → Prop
  | answer {pool : List (Worker α)} {i : Nat} {r : Request} {next : r.Answer → Worker α}
    {w w' : Workspace} {a : r.Answer} (hi : pool[i]? = some (ask r next))
    (h : r.Answered w a w') : Step (pool, w) (pool.set i (next a), w')

/-- Any number of requests of a pool are answered, in an order that nothing fixes. -/
abbrev Steps (pool : List (Worker α)) (w : Workspace) (pool' : List (Worker α)) (w' : Workspace) :
    Prop := Relation.ReflTransGen Step (pool, w) (pool', w')

theorem length_of_steps {pool pool' : List (Worker α)} {w w' : Workspace}
    (h : Steps pool w pool' w') : pool'.length = pool.length := by
  have hall : ∀ p', Relation.ReflTransGen Step (pool, w) p' → p'.1.length = pool.length := by
    intro p' hp
    induction hp with
    | refl => rfl
    | tail _ hstep ih =>
      cases hstep with
      | answer => rw [List.length_set, ih]
  exact hall _ h

theorem steps_run {pool : List (Worker α)} {i : Nat} {worker : Worker α}
    (hi : pool[i]? = some worker) (w : Workspace) :
    Steps pool w (pool.set i (done ((worker.run : StateM Workspace _) w).1))
      ((worker.run : StateM Workspace _) w).2 := by
  induction worker generalizing pool w with
  | done a =>
    change Steps pool w (pool.set i (done a)) w
    obtain ⟨hlt, hget⟩ := List.getElem?_eq_some_iff.mp hi
    rw [← hget, List.set_getElem_self]
  | ask r next ih =>
    have hlt : i < pool.length := (List.getElem?_eq_some_iff.mp hi).1
    refine .head (.answer hi (.exactly r w)) ?_
    have hnext := ih ((r.perform : StateM Workspace _) w).1 (List.getElem?_set_self hlt)
      ((r.perform : StateM Workspace _) w).2
    rw [List.set_set] at hnext
    exact hnext

/-- That the workers have their turns one by one is one of the orders. -/
theorem steps_mapM_run (before : List α) (workers : List (Worker α)) (w : Workspace) :
    Steps (before.map done ++ workers) w
      ((before ++ ((workers.mapM run : StateM Workspace _) w).1).map done)
      ((workers.mapM run : StateM Workspace _) w).2 := by
  induction workers generalizing before w with
  | nil =>
    rw [List.mapM_nil, List.append_nil]
    change Steps (before.map done) w ((before ++ []).map done) w
    rw [List.append_nil]
  | cons worker workers ih =>
    obtain ⟨a, mid, ha⟩ : ∃ a mid, (worker.run : StateM Workspace _) w = (a, mid) := ⟨_, _, rfl⟩
    obtain ⟨results, w', hresults⟩ :
        ∃ results w', (workers.mapM run : StateM Workspace _) mid = (results, w') := ⟨_, _, rfl⟩
    have hall : (((worker :: workers).mapM run : StateM Workspace _) w) = (a :: results, w') := by
      rw [List.mapM_cons, bind_run ha, bind_run hresults]
      rfl
    have hget : (before.map done ++ worker :: workers)[before.length]? = some worker := by simp
    have hfirst := steps_run hget w
    have hlater := ih (before ++ [a]) mid
    rw [hall]
    rw [ha, List.set_append_right _ _ (by simp)] at hfirst
    rw [hresults] at hlater
    simp only [List.length_map, Nat.sub_self, List.set_cons_zero] at hfirst
    simp only [List.map_append, List.map_cons, List.map_nil, List.append_assoc,
      List.singleton_append] at hlater ⊢
    exact hfirst.trans hlater

end Worker

/-- How others may change a workspace: not at all, and by one change after the other. -/
structure Interference where
  allows : Workspace → Workspace → Prop
  refl : ∀ w, allows w w
  trans : ∀ {w w' w''}, allows w w' → allows w' w'' → allows w w''

namespace Worker

variable {α β : Type}

/-- What a worker comes to while others interfere. It does so itself in no other way. -/
def Within (env : Interference) (post : α → Workspace → Prop) : Worker α → Workspace → Prop
  | done a, w => ∀ w', env.allows w w' → post a w'
  | ask r next, w => ∀ w', env.allows w w' → ∀ a w'', r.Answered w' a w'' →
    env.allows w' w'' ∧ (next a).Within env post w''

namespace Within

variable {env : Interference} {post : α → Workspace → Prop} {w w' : Workspace}
  {worker : Worker α}

theorem after (h : worker.Within env post w) (henv : env.allows w w') :
    worker.Within env post w' := by
  cases worker with
  | done a => exact fun w'' henv' => h w'' (env.trans henv henv')
  | ask r next => exact fun w'' henv' => h w'' (env.trans henv henv')

theorem mono {post' : α → Workspace → Prop} (h : worker.Within env post w)
    (hpost : ∀ a w', post a w' → post' a w') : worker.Within env post' w := by
  induction worker generalizing w with
  | done a => exact fun w' henv => hpost a w' (h w' henv)
  | ask r next ih =>
    intro w' henv a w'' ha
    obtain ⟨henv', hnext⟩ := h w' henv a w'' ha
    exact ⟨henv', ih a hnext⟩

theorem bind {f : α → Worker β} {post' : β → Workspace → Prop}
    (h : worker.Within env (fun a w' => (f a).Within env post' w') w) :
    (worker >>= f).Within env post' w := by
  induction worker generalizing w with
  | done a => exact h w (env.refl w)
  | ask r next ih =>
    intro w' henv a w'' ha
    obtain ⟨henv', hnext⟩ := h w' henv a w'' ha
    exact ⟨henv', ih a hnext⟩

/-- What nobody undoes still holds in the end. -/
theorem keep {fact : Workspace → Prop}
    (hstable : ∀ w w', env.allows w w' → fact w → fact w') (hfact : fact w)
    (h : worker.Within env post w) :
    worker.Within env (fun a w' => post a w' ∧ fact w') w := by
  induction worker generalizing w with
  | done a => exact fun w' henv => ⟨h w' henv, hstable w w' henv hfact⟩
  | ask r next ih =>
    intro w' henv a w'' ha
    obtain ⟨henv', hnext⟩ := h w' henv a w'' ha
    exact ⟨henv', ih a (hstable w' w'' henv' (hstable w w' henv hfact)) hnext⟩

variable {posts : Nat → α → Workspace → Prop} {pool pool' : List (Worker α)}

theorem step (h : Step (pool, w) (pool', w'))
    (hpool : ∀ (i : Nat) (x : Worker α), pool[i]? = some x → x.Within env (posts i) w) :
    env.allows w w' ∧
      ∀ (i : Nat) (x : Worker α), pool'[i]? = some x → x.Within env (posts i) w' := by
  cases h with
  | answer hi ha =>
    obtain ⟨henv, hnext⟩ := hpool _ _ hi w (env.refl w) _ _ ha
    refine ⟨henv, ?_⟩
    intro i x hx
    rw [List.getElem?_set] at hx
    split at hx
    case isTrue heq =>
      subst heq
      split at hx
      · cases hx
        exact hnext
      · cases hx
    case isFalse => exact (hpool i x hx).after henv

/-- In a pool each worker comes to what it comes to alone, as long as all of them keep to `env`. -/
theorem steps {results : List α} (h : Steps pool w (results.map done) w')
    (hpool : ∀ (i : Nat) (x : Worker α), pool[i]? = some x → x.Within env (posts i) w) :
    env.allows w w' ∧ ∀ (i : Nat) (a : α), results[i]? = some a → posts i a w' := by
  -- Stated for every pool on the way, since only the last one has nothing but results.
  have hsteps : ∀ p', Relation.ReflTransGen Step (pool, w) p' → env.allows w p'.2 ∧
      ∀ (i : Nat) (x : Worker α), p'.1[i]? = some x → x.Within env (posts i) p'.2 := by
    intro p' hp
    induction hp with
    | refl => exact ⟨env.refl w, hpool⟩
    | tail _ hstep ih =>
      obtain ⟨henv, hwithin⟩ := step hstep ih.2
      exact ⟨env.trans ih.1 henv, hwithin⟩
  obtain ⟨henv, hdone⟩ := hsteps _ h
  refine ⟨henv, ?_⟩
  intro i a hi
  exact hdone i (done a) (by simp [hi]) w' (env.refl w')

end Within

end Worker

section Naturality

variable {m : Type → Type} [Monad m] [LawfulMonad m] [Storage m]

open Storage Worker

theorem ensureDirectory_natural (path : String) :
    (ensureDirectory path : Worker _).run = (ensureDirectory path : m _) := by
  rw [ensureDirectory, ensureDirectory, run_bind]
  congr 1
  · exact run_ask (.makeDirectory path)
  · funext made
    cases made with
    | ok => rfl
    | error e =>
      change ((Storage.isDirectory path >>= fun found => _ : Worker _)).run = _
      rw [run_bind]
      congr 1
      · exact run_ask (.isDirectory path)
      · funext found
        exact run_ite ..

theorem makeDirectories_natural (path : String) :
    (makeDirectories path : Worker _).run = (makeDirectories path : m _) := by
  induction hlength : path.length using Nat.strongRecOn generalizing path with
  | ind n ih =>
    by_cases hempty : path = ""
    · rw [hempty, makeDirectories_empty, makeDirectories_empty]
      rfl
    · cases hparent : Path.parent? path with
      | none =>
        rw [makeDirectories_of_root hempty hparent, makeDirectories_of_root hempty hparent,
          run_bind, ensureDirectory_natural]
        rfl
      | some parent =>
        rw [makeDirectories_of_parent hparent, makeDirectories_of_parent hparent, run_bind,
          ensureDirectory_natural]
        congr 1
        funext first
        rw [run_ite, run_bind, ih _ (hlength ▸ Path.length_parent?_lt hparent) parent rfl]
        congr 2
        funext above
        rw [run_ite, ensureDirectory_natural]
        rfl

theorem write_natural (path text : String) :
    (Storage.write path text : Worker _).run = (Storage.write path text : m _) := by
  rw [Storage.write, Storage.write, run_bind, makeDirectories_natural]
  congr 1
  funext made
  cases made with
  | ok => exact run_ask (.putFile path text)
  | error e => rfl

theorem writeFiles_natural (files : List (String × String)) :
    (writeFiles files : Worker _).run = (writeFiles files : m _) := by
  induction files with
  | nil => rfl
  | cons file files ih =>
    rw [writeFiles, writeFiles, run_bind, write_natural]
    congr 1
    funext written
    cases written with
    | ok => exact ih
    | error e => rfl

/-- A unit is compiled alike whatever runs the requests. -/
theorem compileUnit_natural (args : Args) (settings : Settings) (unit : SourceUnit) :
    (compileUnit args settings unit : Worker _).run = (compileUnit args settings unit : m _) := by
  rw [compileUnit, compileUnit, run_bind]
  congr 1
  · exact run_ask (.read unit.path)
  · funext found
    cases found with
    | error e => rfl
    | ok source =>
      cases hcompile : compile source (unit.options args settings) with
      | error d =>
        simp only [hcompile]
        rfl
      | ok output =>
        simp only [hcompile]
        rw [run_ite, run_bind, writeFiles_natural]
        congr 2
        funext written
        cases written <;> rfl

end Naturality

end Sigil
