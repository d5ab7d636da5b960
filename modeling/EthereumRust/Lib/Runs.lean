import EthereumRust.Lib.Tasks

/-! # Runs of one task among any others

Between two steps of a task anything may happen to the shared state. `Guarded` says what
the notes of every run satisfy, `Yields` that a task ends if the waits in it do. -/

namespace EthereumRust.Prog

variable {κ ι σ ε : Type} {α β : Type} {w : Prog κ ι σ β} {f : β → Prog κ ι σ α}

/-! ## What a task notes -/

/-- The notes of a run. Each step finds a state that the others have left to it. -/
inductive Runs (note : σ → σ → List ε) {α : Type} : Prog κ ι σ α → List ε → Prog κ ι σ α → Prop
  | refl (p : Prog κ ι σ α) : Runs note p [] p
  | step {p p' q : Prog κ ι σ α} {i : ι} {s s' : σ} {spawned : List (κ × Prog κ ι σ Unit)} {notes : List ε}
      (head : p.step i s = some (p', spawned, s')) (rest : Runs note p' notes q) : Runs note p (note s s' ++ notes) q

/-- With the notes `h` so far, those of every run satisfy `ok`, and at the end also `Q`. -/
inductive Guarded (note : σ → σ → List ε) (ok : List ε → Prop) :
    {α : Type} → List ε → Prog κ ι σ α → (α → List ε → Prop) → Prop
  | done {α : Type} {h : List ε} {value : α} {Q : α → List ε → Prop} (safe : ok h) (post : Q value h) :
      Guarded note ok h (.done value) Q
  | act {α β : Type} {h : List ε} {action : ι → σ → Option (β × σ)} {next : β → Prog κ ι σ α}
      {Q : α → List ε → Prop} (safe : ok h)
      (rest : ∀ i s b s', action i s = some (b, s') → Guarded note ok (h ++ note s s') (next b) Q) :
      Guarded note ok h (.act action next) Q
  | loop {α β γ : Type} {h : List ε} {body : β → Prog κ ι σ (β ⊕ γ)} {start : β} {next : γ → Prog κ ι σ α}
      {inside : β → List ε → Prop} {P : γ → List ε → Prop} {Q : α → List ε → Prop} (safe : ok h)
      (enter : inside start h) (round : ∀ b h, inside b h → Guarded note ok h (body b) (Sum.elim inside P))
      (rest : ∀ c h, P c h → Guarded note ok h (next c) Q) : Guarded note ok h (.loop body start next) Q
  | spawn {α : Type} {h : List ε} {label : κ} {child : Prog κ ι σ Unit} {next : Prog κ ι σ α}
      {Q : α → List ε → Prop} (safe : ok h) (rest : Guarded note ok h next Q) :
      Guarded note ok h (.spawn label child next) Q
  | crash {α : Type} {h : List ε} {Q : α → List ε → Prop} (safe : ok h) : Guarded note ok h .crash Q

namespace Guarded

variable {α β : Type}

theorem safe (hp : Guarded note ok h p Q) : ok h := by
  cases hp <;> assumption

theorem bind {f : α → Prog κ ι σ β} {Q' : β → List ε → Prop} (hp : Guarded note ok h p Q)
    (hf : ∀ a h, Q a h → Guarded note ok h (f a) Q') : Guarded note ok h (p >>= f) Q' := by
  induction hp with
  | done _ post => exact hf _ _ post
  | act safe _ ih => exact .act safe fun i s b s' hact => ih i s b s' hact hf
  | loop safe enter round _ _ ih => exact .loop safe enter round fun c h hc => ih c h hc hf
  | spawn safe _ ih => exact .spawn safe (ih hf)
  | crash safe => exact .crash safe

theorem mono (hp : Guarded note ok h p Q) (himp : ∀ a h, Q a h → Q' a h) : Guarded note ok h p Q' := by
  induction hp with
  | done safe post => exact .done safe (himp _ _ post)
  | act safe _ ih => exact .act safe fun i s b s' hact => ih i s b s' hact himp
  | loop safe enter round _ _ ih => exact .loop safe enter round fun c h hc => ih c h hc himp
  | spawn safe _ ih => exact .spawn safe (ih himp)
  | crash safe => exact .crash safe

theorem loopFrom {γ : Type} {body : β → Prog κ ι σ (β ⊕ γ)} {start : β} (inside : β → List ε → Prop)
    (P : γ → List ε → Prop) (safe : ok h) (enter : inside start h)
    (round : ∀ b h, inside b h → Guarded note ok h (body b) (Sum.elim inside P)) (hsafe : ∀ c h, P c h → ok h) :
    Guarded note ok h (.loopFrom body start) P :=
  .loop safe enter round fun c h hc => .done (hsafe c h hc) hc

theorem step (hnote : ∀ s, note s s = []) {i : ι} {s s' : σ} {p' : Prog κ ι σ α}
    {spawned : List (κ × Prog κ ι σ Unit)} (hp : Guarded note ok h p Q) (hstep : p.step i s = some (p', spawned, s')) :
    Guarded note ok (h ++ note s s') p' Q := by
  cases hp with
  | done => cases hstep
  | act _ rest =>
    obtain ⟨⟨b, t⟩, hact, heq⟩ := Option.map_eq_some_iff.mp hstep
    cases heq
    exact rest i s b t hact
  | loop _ enter round rest =>
    cases hstep
    rw [hnote, List.append_nil]
    refine (round _ _ enter).bind fun r h hr => ?_
    cases r with
    | inl b => exact .loop (round b h hr).safe hr round rest
    | inr c => exact rest c h hr
  | spawn _ rest =>
    cases hstep
    rwa [hnote, List.append_nil]
  | crash => cases hstep

theorem runs (hnote : ∀ s, note s s = []) {notes : List ε} {q : Prog κ ι σ α} (hrun : Runs note p notes q)
    (hp : Guarded note ok h p Q) : ok (h ++ notes) := by
  induction hrun generalizing h with
  | refl p => rw [List.append_nil]; exact hp.safe
  | step head _ ih =>
    rw [← List.append_assoc]
    exact ih (hp.step hnote head)

end Guarded

/-! ## How a task ends -/

/-- If the waits in a task return, it comes to an end, with a value that satisfies `Q` unless it panics. -/
inductive Yields (waits : (β : Type) → Prog κ ι σ β → Prop) : {α : Type} → Prog κ ι σ α → (α → Prop) → Prop
  | done {α : Type} {value : α} {Q : α → Prop} (post : Q value) : Yields waits (.done value) Q
  | act {α β : Type} {action : ι → σ → Option (β × σ)} {next : β → Prog κ ι σ α} {Q : α → Prop}
      (rest : ∀ i s b s', action i s = some (b, s') → Yields waits (next b) Q) : Yields waits (.act action next) Q
  | loop {α β γ : Type} {body : β → Prog κ ι σ (β ⊕ γ)} {start : β} {next : γ → Prog κ ι σ α} {Q : α → Prop}
      (round : Yields waits ((body start).bind (Sum.elim (fun b => .loop body b next) next)) Q) :
      Yields waits (.loop body start next) Q
  | spawn {α : Type} {label : κ} {child : Prog κ ι σ Unit} {next : Prog κ ι σ α} {Q : α → Prop}
      (rest : Yields waits next Q) : Yields waits (.spawn label child next) Q
  | crash {α : Type} {Q : α → Prop} : Yields waits .crash Q
  | wait {α β : Type} {w : Prog κ ι σ β} {f : β → Prog κ ι σ α} {Q : α → Prop} (here : waits β w)
      (rest : ∀ b, Yields waits (f b) Q) : Yields waits (w.bind f) Q

/-- A task that never ends. -/
def Forever {α : Type} (run : Nat → Prog κ ι σ α) : Prop :=
  ∀ n, ∃ i s spawned s', (run n).step i s = some (run (n + 1), spawned, s')

/-- From some step on a run is that of one of the waits. -/
def StaysIn {α : Type} (waits : (β : Type) → Prog κ ι σ β → Prop) (run : Nat → Prog κ ι σ α) : Prop :=
  ∃ (k : Nat) (β : Type) (inner : Nat → Prog κ ι σ β) (f : β → Prog κ ι σ α),
    waits β (inner 0) ∧ Forever inner ∧ ∀ n, run (k + n) = (inner n).bind f

theorem StaysIn.of_shift {waits : (β : Type) → Prog κ ι σ β → Prop} (m : Nat)
    (h : StaysIn waits fun n => run (m + n)) : StaysIn waits run := by
  obtain ⟨k, β, inner, f, hwait, hforever, heq⟩ := h
  refine ⟨m + k, β, inner, f, hwait, hforever, fun n => ?_⟩
  rw [Nat.add_assoc]
  exact heq n

theorem Forever.shift (h : Forever run) (m : Nat) :
    Forever fun n => run (m + n) := fun n => h (m + n)

theorem step_bind {i : ι} {s : σ} (h : ∀ b, w ≠ .done b) :
    (w.bind f).step i s = (w.step i s).map fun result => (result.1.bind f, result.2) := by
  cases w with
  | done b => exact absurd rfl (h b)
  | act action next =>
    change Option.map _ (action i s) = Option.map _ (Option.map _ (action i s))
    rw [Option.map_map]
    rfl
  | loop body start next =>
    refine congrArg (fun p => some (p, [], s)) ?_
    rw [bind_assoc]
    refine congrArg (body start).bind (funext fun r => ?_)
    cases r <;> rfl
  | spawn label child next => rfl
  | crash => rfl

/-- A run that never leaves its first part is one of this part. -/
theorem Forever.inner
    (h : Forever run) (h0 : run 0 = w.bind f) (hinside : ∀ n b, run n ≠ f b) :
    ∃ inner : Nat → Prog κ ι σ β, inner 0 = w ∧ Forever inner ∧ ∀ n, run n = (inner n).bind f := by
  have hnext : ∀ n (p : Prog κ ι σ β), run n = p.bind f →
      ∃ p', run (n + 1) = p'.bind f ∧ ∃ i s spawned s', p.step i s = some (p', spawned, s') := by
    intro n p hp
    obtain ⟨i, s, spawned, s', hstep⟩ := h n
    rw [hp, step_bind fun b hb => hinside n b (by rw [hp, hb]; rfl)] at hstep
    obtain ⟨⟨p', rest⟩, hinner, heq⟩ := Option.map_eq_some_iff.mp hstep
    obtain ⟨hrun, rfl⟩ := Prod.mk.inj heq
    exact ⟨p', hrun.symm, i, s, spawned, s', hinner⟩
  choose next hrun hstep using hnext
  let states : ∀ n, { p : Prog κ ι σ β // run n = p.bind f } :=
    fun n => n.rec ⟨w, h0⟩ fun n p => ⟨next n p.1 p.2, hrun n p.1 p.2⟩
  exact ⟨fun n => (states n).1, rfl, fun n => hstep n _ (states n).2, fun n => (states n).2⟩

namespace Yields

variable {α β γ : Type}

theorem bind {f : α → Prog κ ι σ β} {Q' : β → Prop} (hp : Yields waits p Q)
    (hf : ∀ a, Q a → Yields waits (f a) Q') : Yields waits (p.bind f) Q' := by
  induction hp with
  | done post => exact hf _ post
  | act _ ih => exact .act fun i s b s' hact => ih i s b s' hact hf
  | loop _ ih =>
    refine .loop ?_
    have hround := ih hf
    rw [bind_assoc] at hround
    convert hround using 2
    funext r
    cases r <;> rfl
  | spawn _ ih => exact .spawn (ih hf)
  | crash => exact .crash
  | wait here _ ih =>
    rw [bind_assoc]
    exact .wait here fun b => ih b hf

theorem mono {Q' : α → Prop} (hp : Yields waits p Q) (himp : ∀ a, Q a → Q' a) : Yields waits p Q' := by
  induction hp with
  | done post => exact .done (himp _ post)
  | act _ ih => exact .act fun i s b s' hact => ih i s b s' hact himp
  | loop _ ih => exact .loop (ih himp)
  | spawn _ ih => exact .spawn (ih himp)
  | crash => exact .crash
  | wait here _ ih => exact .wait here fun b => ih b himp

/-- A task whose waits return ends, for a run without end would stay in one of them. -/
theorem staysIn (hp : Yields waits p Q) {run : Nat → Prog κ ι σ α} (h0 : run 0 = p) (h : Forever run) :
    StaysIn waits run := by
  induction hp generalizing run with
  | done =>
    obtain ⟨i, s, spawned, s', hstep⟩ := h 0
    rw [h0] at hstep
    cases hstep
  | act _ ih =>
    obtain ⟨i, s, spawned, s', hstep⟩ := h 0
    rw [h0] at hstep
    obtain ⟨⟨b, t⟩, hact, heq⟩ := Option.map_eq_some_iff.mp hstep
    refine .of_shift 1 (ih i s b t hact ?_ (h.shift 1))
    exact (congrArg Prod.fst heq).symm
  | loop _ ih =>
    obtain ⟨i, s, spawned, s', hstep⟩ := h 0
    rw [h0] at hstep
    exact .of_shift 1 (ih (congrArg Prod.fst (Option.some.inj hstep)).symm (h.shift 1))
  | spawn _ ih =>
    obtain ⟨i, s, spawned, s', hstep⟩ := h 0
    rw [h0] at hstep
    exact .of_shift 1 (ih (congrArg Prod.fst (Option.some.inj hstep)).symm (h.shift 1))
  | crash =>
    obtain ⟨i, s, spawned, s', hstep⟩ := h 0
    rw [h0] at hstep
    cases hstep
  | wait here _ ih =>
    rename_i β _ f _ _
    by_cases hinside : ∀ n b, run n ≠ f b
    · obtain ⟨inner, hw, hforever, heq⟩ := h.inner h0 hinside
      refine ⟨0, β, inner, f, hw ▸ here, hforever, fun n => ?_⟩
      rw [Nat.zero_add]
      exact heq n
    · push Not at hinside
      obtain ⟨n, b, hleft⟩ := hinside
      exact .of_shift n (ih b hleft (h.shift n))

end Yields
end EthereumRust.Prog
