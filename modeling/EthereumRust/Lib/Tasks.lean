import Mathlib.Data.List.Basic

/-! # Interleaved tasks

A task is a program of atomic actions on a shared state; an input stands for what a step
learns from outside. Rules for a pool say what every state satisfies and what a step may
change, by the task's label; the proof of a task uses only facts that the steps of the
tasks beside it keep. -/

namespace EthereumRust
open List

/-- Programs with labels `κ` for new tasks, inputs `ι` and a shared state `σ`. -/
inductive Prog (κ ι σ : Type) : Type → Type 1
  | done {α : Type} (value : α) : Prog κ ι σ α
  /-- An atomic action. It has to wait where it has no result. -/
  | act {α β : Type} (action : ι → σ → Option (β × σ)) (next : β → Prog κ ι σ α) : Prog κ ι σ α
  /-- A loop that goes on with `inl` and is left with `inr`. -/
  | loop {α β γ : Type} (body : β → Prog κ ι σ (β ⊕ γ)) (start : β) (next : γ → Prog κ ι σ α) : Prog κ ι σ α
  | spawn {α : Type} (label : κ) (child : Prog κ ι σ Unit) (next : Prog κ ι σ α) : Prog κ ι σ α
  /-- A panic ends the task. -/
  | crash {α : Type} : Prog κ ι σ α

namespace Prog

variable {κ ι σ α β γ : Type}

def bind : Prog κ ι σ α → (α → Prog κ ι σ β) → Prog κ ι σ β
  | done value, f => f value
  | act action next, f => act action fun b => (next b).bind f
  | loop body start next, f => loop body start fun c => (next c).bind f
  | spawn label child next, f => spawn label child (next.bind f)
  | crash, _ => crash

instance : Monad (Prog κ ι σ) where
  pure := done
  bind := bind

def atomic (action : ι → σ → Option (α × σ)) : Prog κ ι σ α := act action done

def fork (label : κ) (child : Prog κ ι σ Unit) : Prog κ ι σ Unit := spawn label child (done ())

def loopFrom (body : β → Prog κ ι σ (β ⊕ γ)) (start : β) : Prog κ ι σ γ := loop body start done

def forEach (body : α → Prog κ ι σ Unit) : List α → Prog κ ι σ Unit
  | [] => done ()
  | x :: xs => (body x).bind fun _ => forEach body xs

/-- One step: what is left of the task, the tasks that it starts, and the state. -/
def step (input : ι) : Prog κ ι σ α → σ → Option (Prog κ ι σ α × List (κ × Prog κ ι σ Unit) × σ)
  | done _, _ => none
  | act action next, s => (action input s).map fun result => (next result.1, [], result.2)
  | loop body start next, s => some ((body start).bind (Sum.elim (fun b => loop body b next) next), [], s)
  | spawn label child next, s => some (next, [(label, child)], s)
  | crash, _ => none

theorem bind_assoc (p : Prog κ ι σ α) (f : α → Prog κ ι σ β) (g : β → Prog κ ι σ γ) :
    (p.bind f).bind g = p.bind fun a => (f a).bind g := by
  induction p with
  | done value => rfl
  | act action next ih => exact congrArg (act action) (funext fun b => ih b f)
  | loop body start next _ ih => exact congrArg (loop body start) (funext fun c => ih c f)
  | spawn label child next _ ih => exact congrArg (spawn label child) (ih f)
  | crash => rfl

end Prog

structure Pool (κ ι σ : Type) : Type 1 where
  tasks : List (κ × Prog κ ι σ Unit)
  state : σ

namespace Pool

variable {κ ι σ : Type}

def step (self : Pool κ ι σ) (index : Nat) (input : ι) : Option (Pool κ ι σ) :=
  match self.tasks[index]? with
  | none => none
  | some task => (task.2.step input self.state).map fun result =>
    ⟨self.tasks.set index (task.1, result.1) ++ result.2.1, result.2.2⟩

theorem step_of_task {self : Pool κ ι σ} {i : ι} {task : κ × Prog κ ι σ Unit}
    {result : Prog κ ι σ Unit × List (κ × Prog κ ι σ Unit) × σ} (htask : self.tasks[n]? = some task)
    (h : task.2.step i self.state = some result) :
    self.step n i = some ⟨self.tasks.set n (task.1, result.1) ++ result.2.1, result.2.2⟩ := by
  rw [step, htask]
  simp only [h, Option.map_some]

def run (self : Pool κ ι σ) : List (Nat × ι) → Option (Pool κ ι σ)
  | [] => some self
  | choice :: rest => (self.step choice.1 choice.2).bind fun next => next.run rest

theorem run_append (self : Pool κ ι σ) (xs ys : List (Nat × ι)) :
    self.run (xs ++ ys) = (self.run xs).bind fun next => next.run ys := by
  induction xs generalizing self with
  | nil => rfl
  | cons choice xs ih =>
    rw [cons_append, run, run, Option.bind_assoc]
    exact congrArg _ (funext ih)

/-- The other tasks stay as they are. -/
theorem getElem?_step {self next : Pool κ ι σ} {i : ι} (h : self.step m i = some next) (hne : m ≠ n)
    (htask : self.tasks[n]? = some task) : next.tasks[n]? = some task := by
  unfold step at h
  split at h
  · cases h
  · obtain ⟨result, -, rfl⟩ := Option.map_eq_some_iff.mp h
    have hlt := (List.getElem?_eq_some_iff.mp htask).1
    rwa [getElem?_append_left (by rwa [length_set]), getElem?_set_ne hne]

/-- A step of a run: the task as it was, and the states around it. -/
structure Transition (κ ι σ : Type) : Type 1 where
  index : Nat
  task : κ × Prog κ ι σ Unit
  before : σ
  after : σ

/-- The steps of the choices, as far as the tasks can take them. -/
def transitions (self : Pool κ ι σ) : List (Nat × ι) → List (Transition κ ι σ)
  | [] => []
  | choice :: rest =>
    match self.tasks[choice.1]?, self.step choice.1 choice.2 with
    | some task, some next => ⟨choice.1, task, self.state, next.state⟩ :: next.transitions rest
    | _, _ => []

theorem transitions_of_step {self next : Pool κ ι σ} {choice : Nat × ι} (htask : self.tasks[choice.1]? = some task)
    (hstep : self.step choice.1 choice.2 = some next) (rest : List (Nat × ι)) :
    self.transitions (choice :: rest) = ⟨choice.1, task, self.state, next.state⟩ :: next.transitions rest := by
  simp only [transitions, htask, hstep]

theorem transitions_cons (self : Pool κ ι σ) (choice : Nat × ι) (rest : List (Nat × ι)) :
    self.transitions (choice :: rest) = [] ∨
      ∃ task next, self.tasks[choice.1]? = some task ∧ self.step choice.1 choice.2 = some next ∧
        self.transitions (choice :: rest) = ⟨choice.1, task, self.state, next.state⟩ :: next.transitions rest := by
  cases htask : self.tasks[choice.1]? with
  | none => exact .inl (by simp only [transitions, htask])
  | some task =>
    cases hstep : self.step choice.1 choice.2 with
    | none => exact .inl (by simp only [transitions, htask, hstep])
    | some next => exact .inr ⟨task, next, rfl, rfl, transitions_of_step htask hstep rest⟩

end Pool

/-- What holds in every state, what a step of a task may change, and which tasks may run at once. -/
structure Rules (κ σ : Type) where
  inv : σ → Prop
  changes : κ → σ → σ → Prop
  beside : κ → κ → Prop

variable {κ ι σ : Type} (R : Rules κ σ)

/-- A fact that the tasks beside a task keep. -/
def Rules.Stable (k : κ) (P : σ → Prop) : Prop :=
  ∀ j, R.beside j k → ∀ s s', R.inv s → R.inv s' → R.changes j s s' → P s → P s'

namespace Rules.Stable

variable {R} {α : Type}

theorem const (R : Rules κ σ) (k : κ) (p : Prop) : R.Stable k fun _ => p := fun _ _ _ _ _ _ _ hp => hp

theorem and (hP : R.Stable k P) (hQ : R.Stable k Q) : R.Stable k fun s => P s ∧ Q s :=
  fun j hj s s' hs hs' h hp => ⟨hP j hj s s' hs hs' h hp.1, hQ j hj s s' hs hs' h hp.2⟩

theorem all {P : α → σ → Prop} (h : ∀ a, R.Stable k (P a)) : R.Stable k fun s => ∀ a, P a s :=
  fun j hj s s' hs hs' hchanges hp a => h a j hj s s' hs hs' hchanges (hp a)

theorem imp {p : Prop} (h : R.Stable k P) : R.Stable k fun s => p → P s :=
  fun j hj s s' hs hs' hchanges hp hpre => h j hj s s' hs hs' hchanges (hp hpre)

end Rules.Stable

/-- The proof rules for a task with the label `k`: from states with `P` its steps follow the rules, and
it ends with `Q`. -/
inductive Safe : κ → {α : Type} → (σ → Prop) → Prog κ ι σ α → (α → σ → Prop) → Prop
  | done {k : κ} {α : Type} {P : σ → Prop} {value : α} {Q : α → σ → Prop} (stable : R.Stable k P)
      (post : ∀ s, R.inv s → P s → Q value s) : Safe k P (.done value) Q
  | act {k : κ} {α β : Type} {P : σ → Prop} {P' : β → σ → Prop} {Q : α → σ → Prop} {action : ι → σ → Option (β × σ)}
      {next : β → Prog κ ι σ α} (stable : R.Stable k P)
      (moves : ∀ i s b s', R.inv s → P s → action i s = some (b, s') → R.inv s' ∧ R.changes k s s' ∧ P' b s')
      (rest : ∀ b, Safe k (P' b) (next b) Q) : Safe k P (.act action next) Q
  | loop {k : κ} {α β γ : Type} {P : σ → Prop} {inside : β → σ → Prop} {P' : γ → σ → Prop} {Q : α → σ → Prop}
      {body : β → Prog κ ι σ (β ⊕ γ)} {start : β} {next : γ → Prog κ ι σ α} (stable : R.Stable k P)
      (enter : ∀ s, R.inv s → P s → inside start s)
      (round : ∀ b, Safe k (inside b) (body b) (Sum.elim inside P'))
      (rest : ∀ c, Safe k (P' c) (next c) Q) : Safe k P (.loop body start next) Q
  | spawn {k : κ} {α : Type} {P P' : σ → Prop} {Q : α → σ → Prop} {label : κ} {child : Prog κ ι σ Unit}
      {next : Prog κ ι σ α} (stable : R.Stable k P) (free : ∀ j, R.beside label j ∧ R.beside j label)
      (start : ∀ s, R.inv s → P s → P' s) (new : Safe label P' child fun _ _ => True)
      (rest : Safe k P next Q) : Safe k P (.spawn label child next) Q
  | crash {k : κ} {α : Type} {P : σ → Prop} {Q : α → σ → Prop} (stable : R.Stable k P) : Safe k P .crash Q

namespace Safe

variable {R} {α β γ : Type} {Q : α → σ → Prop}

theorem stable (h : Safe R k P p Q) : R.Stable k P := by
  cases h <;> assumption

theorem weaken (h : Safe R k P p Q) (hstable : R.Stable k P') (himp : ∀ s, R.inv s → P' s → P s) :
    Safe R k P' p Q := by
  induction h with
  | done _ post => exact .done hstable fun s hs hp => post s hs (himp s hs hp)
  | act _ moves rest => exact .act hstable (fun i s b s' hs hp => moves i s b s' hs (himp s hs hp)) rest
  | loop _ enter round rest => exact .loop hstable (fun s hs hp => enter s hs (himp s hs hp)) round rest
  | spawn _ free start new _ _ ih =>
    exact .spawn hstable free (fun s hs hp => start s hs (himp s hs hp)) new (ih hstable himp)
  | crash => exact .crash hstable

theorem mono (h : Safe R k P p Q) (himp : ∀ a s, R.inv s → Q a s → Q' a s) : Safe R k P p Q' := by
  induction h with
  | done hstable post => exact .done hstable fun s hs hp => himp _ s hs (post s hs hp)
  | act hstable moves _ ih => exact .act hstable moves fun b => ih b himp
  | loop hstable enter round _ _ ih => exact .loop hstable enter round fun c => ih c himp
  | spawn hstable free start new _ _ ih => exact .spawn hstable free start new (ih himp)
  | crash hstable => exact .crash hstable

theorem bind {f : α → Prog κ ι σ β} {Q' : β → σ → Prop} (h : Safe R k P p Q)
    (hf : ∀ a, Safe R k (Q a) (f a) Q') : Safe R k P (p >>= f) Q' := by
  induction h with
  | done hstable post => exact (hf _).weaken hstable post
  | act hstable moves _ ih => exact .act hstable moves fun b => ih b hf
  | loop hstable enter round _ _ ih => exact .loop hstable enter round fun c => ih c hf
  | spawn hstable free start new _ _ ih => exact .spawn hstable free start new (ih hf)
  | crash hstable => exact .crash hstable

theorem atomic {action : ι → σ → Option (α × σ)} (hstable : R.Stable k P) (hpost : ∀ a, R.Stable k (Q a))
    (hmoves : ∀ i s a s', R.inv s → P s → action i s = some (a, s') →
      R.inv s' ∧ R.changes k s s' ∧ Q a s') : Safe R k P (.atomic action) Q :=
  .act hstable hmoves fun a => .done (hpost a) fun _ _ h => h

theorem forEach {body : α → Prog κ ι σ Unit} (hstable : R.Stable k P) {xs : List α}
    (hbody : ∀ x ∈ xs, Safe R k P (body x) fun _ => P) : Safe R k P (Prog.forEach body xs) fun _ => P := by
  induction xs with
  | nil => exact .done hstable fun _ _ h => h
  | cons x xs ih =>
    exact (hbody x mem_cons_self).bind fun _ => ih fun y hy => hbody y (mem_cons_of_mem _ hy)

theorem pure (hstable : R.Stable k P) (a : α) : Safe (ι := ι) R k P (Pure.pure a) fun _ => P :=
  .done hstable fun _ _ h => h

theorem bind_option {p : Prog κ ι σ (Option α)} {f : Option α → Prog κ ι σ β} {Q' : β → σ → Prop}
    (h : Safe R k P p fun found s => P' s ∧ ∀ a, found = some a → Q a s) (hstable : R.Stable k P')
    (hpost : ∀ a, R.Stable k (Q a)) (hnone : Safe R k P' (f none) Q')
    (hsome : ∀ a, Safe R k (fun s => P' s ∧ Q a s) (f (some a)) Q') : Safe R k P (p >>= f) Q' := by
  refine h.bind fun found => ?_
  have hpre : R.Stable k fun s => P' s ∧ ∀ a, found = some a → Q a s := hstable.and (.all fun a => (hpost a).imp)
  cases found with
  | none => exact hnone.weaken hpre fun _ _ h => h.1
  | some a => exact (hsome a).weaken hpre fun _ _ h => ⟨h.1, h.2 a rfl⟩

theorem loopFrom {body : β → Prog κ ι σ (β ⊕ α)} {start : β} (hstable : R.Stable k P)
    (hbody : ∀ b, Safe R k P (body b) fun _ => P) : Safe R k P (.loopFrom body start) fun _ => P := by
  have hround (b : β) : Safe R k P (body b) (Sum.elim (fun _ => P) fun _ => P) :=
    (hbody b).mono fun r _ _ h => by cases r <;> exact h
  exact .loop hstable (fun _ _ => id) hround fun _ => .done hstable fun _ _ => id

theorem fork {label : κ} {child : Prog κ ι σ Unit} (hstable : R.Stable k P)
    (hfree : ∀ j, R.beside label j ∧ R.beside j label) (hchild : Safe R label (fun _ => True) child fun _ _ => True) :
    Safe R k P (.fork label child) fun _ => P :=
  .spawn hstable hfree (fun _ _ _ => trivial) hchild (.done hstable fun _ _ => id)

/-- A step of a task that follows the rules. -/
theorem step {i : ι} {s s' : σ} {p' : Prog κ ι σ α} {spawned : List (κ × Prog κ ι σ Unit)}
    (h : Safe R k P p Q) (hinv : R.inv s) (hp : P s) (hstep : p.step i s = some (p', spawned, s')) :
    R.inv s' ∧ (s' = s ∨ R.changes k s s') ∧ (∃ P', P' s' ∧ Safe R k P' p' Q) ∧
      ∀ task ∈ spawned, (∀ j, R.beside task.1 j ∧ R.beside j task.1) ∧
        ∃ P', P' s' ∧ Safe R task.1 P' task.2 fun _ _ => True := by
  cases h with
  | done => cases hstep
  | act _ moves rest =>
    obtain ⟨⟨b, t⟩, hact, heq⟩ := Option.map_eq_some_iff.mp hstep
    cases heq
    obtain ⟨hinv', hchanges, hnext⟩ := moves i s b t hinv hp hact
    exact ⟨hinv', .inr hchanges, ⟨_, hnext, rest b⟩, nofun⟩
  | loop _ enter round rest =>
    cases hstep
    refine ⟨hinv, .inl rfl, ⟨_, enter s hinv hp, (round _).bind fun r => ?_⟩, nofun⟩
    cases r with
    | inl b => exact .loop (round b).stable (fun _ _ h => h) round rest
    | inr c => exact rest c
  | spawn _ free start new rest =>
    cases hstep
    refine ⟨hinv, .inl rfl, ⟨_, hp, rest⟩, fun task htask => ?_⟩
    cases mem_singleton.mp htask
    exact ⟨free, _, start s hinv hp, new⟩
  | crash => cases hstep

end Safe

/-- A pool whose tasks follow the rules. -/
structure Pool.Follows (p : Pool κ ι σ) : Prop where
  inv : R.inv p.state
  safe : ∀ (n : Nat) (task : κ × Prog κ ι σ Unit), p.tasks[n]? = some task → ∃ P, P p.state ∧
    Safe R task.1 P task.2 fun _ _ => True
  beside : ∀ (n m : Nat) (task other : κ × Prog κ ι σ Unit), p.tasks[n]? = some task →
    p.tasks[m]? = some other → n ≠ m → R.beside task.1 other.1

/-- Where the tasks of a pool come from: the one that moved, one beside it or a new one. -/
theorem getElem?_set_append {α : Type*} {xs ys : List α} {x y : α}
    (h : (xs.set n x ++ ys)[m]? = some y) : (m = n ∧ y = x) ∨ (m ≠ n ∧ xs[m]? = some y) ∨ y ∈ ys := by
  rw [getElem?_append] at h
  split at h
  · rename_i hm
    rw [length_set] at hm
    rw [getElem?_set] at h
    split at h
    · rename_i hnm
      rw [if_pos (hnm ▸ hm)] at h
      exact .inl ⟨hnm.symm, (Option.some.inj h).symm⟩
    · rename_i hnm
      exact .inr (.inl ⟨Ne.symm hnm, h⟩)
  · exact .inr (.inr (mem_of_getElem? h))

namespace Pool.Follows

variable {R} {p : Pool κ ι σ}

/-- A fact about another task outlives a step. -/
theorem keeps {n m : Nat} {task other : κ × Prog κ ι σ Unit} {s' : σ} (h : p.Follows R)
    (htask : p.tasks[n]? = some task) (hother : p.tasks[m]? = some other) (hne : n ≠ m)
    (hinv : R.inv s') (hchanges : s' = p.state ∨ R.changes task.1 p.state s') :
    ∃ P, P s' ∧ Safe R other.1 P other.2 fun _ _ => True := by
  obtain ⟨P, hp, hsafe⟩ := h.safe m other hother
  rcases hchanges with rfl | hchanges
  · exact ⟨P, hp, hsafe⟩
  · exact ⟨P, hsafe.stable _ (h.beside n m _ _ htask hother hne) _ _ h.inv hinv hchanges hp, hsafe⟩

theorem step {n : Nat} {i : ι} (h : p.Follows R) (hstep : p.step n i = some p') : p'.Follows R := by
  unfold Pool.step at hstep
  split at hstep
  · cases hstep
  rename_i task htask
  obtain ⟨⟨rest, spawned, s'⟩, hmove, heq⟩ := Option.map_eq_some_iff.mp hstep
  cases heq
  obtain ⟨P, hp, hsafe⟩ := h.safe n task htask
  obtain ⟨hinv, hchanges, hrest, hnew⟩ := hsafe.step h.inv hp hmove
  refine ⟨hinv, fun m other hm => ?_, fun m m' a b hm hm' hne => ?_⟩
  · rcases getElem?_set_append hm with ⟨-, rfl⟩ | ⟨hmn, hold⟩ | hmem
    · exact hrest
    · exact h.keeps htask hold (Ne.symm hmn) hinv hchanges
    · exact (hnew other hmem).2
  · rcases getElem?_set_append hm with ⟨rfl, rfl⟩ | ⟨-, hold⟩ | hmem
    · rcases getElem?_set_append hm' with ⟨rfl, -⟩ | ⟨-, hold'⟩ | hmem'
      · exact absurd rfl hne
      · exact h.beside m m' task _ htask hold' hne
      · exact ((hnew b hmem').1 _).2
    · rcases getElem?_set_append hm' with ⟨rfl, rfl⟩ | ⟨-, hold'⟩ | hmem'
      · exact h.beside m m' _ task hold htask hne
      · exact h.beside m m' _ _ hold hold' hne
      · exact ((hnew b hmem').1 _).2
    · exact ((hnew a hmem).1 _).1

theorem changes {i : ι} (h : p.Follows R) (hstep : p.step n i = some p') :
    ∃ task, p.tasks[n]? = some task ∧ (p'.state = p.state ∨ R.changes task.1 p.state p'.state) := by
  unfold Pool.step at hstep
  split at hstep
  · cases hstep
  rename_i task htask
  obtain ⟨⟨rest, spawned, s'⟩, hmove, heq⟩ := Option.map_eq_some_iff.mp hstep
  cases heq
  obtain ⟨P, hp, hsafe⟩ := h.safe n task htask
  exact ⟨task, htask, (hsafe.step h.inv hp hmove).2.1⟩

/-- The rules hold in every state that the pool reaches. -/
theorem run (h : p.Follows R) {choices : List (Nat × ι)} (hrun : p.run choices = some p') : p'.Follows R := by
  induction choices generalizing p with
  | nil =>
    cases hrun
    exact h
  | cons choice rest ih =>
    obtain ⟨q, hstep, hrest⟩ := Option.bind_eq_some_iff.mp hrun
    exact ih (h.step hstep) hrest

end Pool.Follows
end EthereumRust
