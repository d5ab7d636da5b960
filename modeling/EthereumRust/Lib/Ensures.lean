import Mathlib.Logic.Relation
import EthereumRust.Lib.Exec

/-! # Postconditions of programs that may panic

`Ensures x s Q`: from the state `s` the program panics, or comes back with a value and a
state that satisfy `Q`. A loop ends if each round that goes on leads to a smaller state. -/

namespace EthereumRust
open Outcome

namespace Outcome

variable {ε α β : Type}

/-- A panic, or a value that satisfies `Q`. -/
def Ensures (x : Outcome ε α) (Q : α → Prop) : Prop :=
  match x with
  | .ok a => Q a
  | .error (.panic _) => True
  | .error _ => False

@[simp] theorem ensures_ok (a : α) : Ensures (.ok a : Outcome ε α) Q ↔ Q a := Iff.rfl

@[simp] theorem ensures_panic (m : String) : Ensures (panic m : Outcome ε α) Q := trivial

@[simp] theorem ensures_bind {f : α → Outcome ε β} :
    Ensures (x >>= f) R ↔ Ensures x fun a => Ensures (f a) R := by
  rcases x with (e | m | _) | a <;> exact Iff.rfl

@[simp] theorem ensures_map {f : α → β} :
    Ensures (f <$> x) R ↔ Ensures x fun a => R (f a) := by
  rcases x with (e | m | _) | a <;> exact Iff.rfl

theorem Ensures.exact (h : Ensures x Q) : Ensures x fun a => x = .ok a ∧ Q a := by
  rcases x with (e | m | _) | a
  · exact h
  · exact h
  · exact h
  · exact ⟨rfl, h⟩

theorem Ensures.mono {R : α → Prop} (h : Ensures x Q) (hQ : ∀ a, Q a → R a) :
    Ensures x R := by
  rcases x with (e | m | _) | a
  · exact h
  · exact h
  · exact h
  · exact hQ a h

theorem ensures_ite {c : Prop} [Decidable c] {y : Outcome ε α} :
    Ensures (if c then x else y) Q ↔ (c → Ensures x Q) ∧ (¬ c → Ensures y Q) := by
  by_cases h : c <;> simp [h]

end Outcome

namespace Rust

variable {ε α : Type}

@[simp] theorem ensures_add :
    Outcome.Ensures (add a b : Outcome ε Nat) Q ↔ (a + b < wordSize → Q (a + b)) := by
  simp [add, ensures_ite]

@[simp] theorem ensures_sub :
    Outcome.Ensures (sub a b : Outcome ε Nat) Q ↔ (b ≤ a → Q (a - b)) := by
  simp [sub, ensures_ite]

@[simp] theorem ensures_mul :
    Outcome.Ensures (mul a b : Outcome ε Nat) Q ↔ (a * b < wordSize → Q (a * b)) := by
  simp [mul, ensures_ite]

@[simp] theorem ensures_expect {x : Option α} {Q : α → Prop} :
    Outcome.Ensures (expect x m : Outcome ε α) Q ↔ ∀ a, x = some a → Q a := by
  cases x <;> simp [expect]

@[simp] theorem ensures_slice {xs : List α} {Q : List α → Prop} :
    Outcome.Ensures (slice xs a b : Outcome ε (List α)) Q ↔
      (a ≤ b ∧ b ≤ xs.length → Q ((xs.take b).drop a)) := by
  simp [slice, ensures_ite]

@[simp] theorem ensures_assert {Q : Unit → Prop} :
    Outcome.Ensures (assert c m : Outcome ε Unit) Q ↔ (c = true → Q ()) := by
  simp [assert, ensures_ite]

end Rust

namespace Exec

variable {σ ε α β : Type}

def Ensures (x : Exec σ ε α) (s : σ) (Q : α → σ → Prop) : Prop :=
  Outcome.Ensures (x s).1 fun a => Q a (x s).2

@[simp] theorem ensures_pure (a : α) : Ensures (Pure.pure a : Exec σ ε α) s Q ↔ Q a s := Iff.rfl

@[simp] theorem ensures_panic (m : String) : Ensures (panic m : Exec σ ε α) s Q := trivial

@[simp] theorem ensures_get {Q : σ → σ → Prop} : Ensures (get : Exec σ ε σ) s Q ↔ Q s s := Iff.rfl

@[simp] theorem ensures_modify {f : σ → σ} {Q : Unit → σ → Prop} :
    Ensures (modify f : Exec σ ε Unit) s Q ↔ Q () (f s) := Iff.rfl

@[simp] theorem ensures_bind :
    Ensures (x >>= f) s R ↔ Ensures x s fun a t => Ensures (f a) t R := by
  unfold Ensures
  rw [run_bind]
  rcases x s with ⟨(e | m | _) | a, t⟩ <;> exact Iff.rfl

theorem Ensures.mono {R : α → σ → Prop} (h : Ensures x s Q)
    (hQ : ∀ a t, Q a t → R a t) : Ensures x s R :=
  Outcome.Ensures.mono h fun a => hQ a _

theorem Ensures.ok {a : α} (h : Ensures x s Q) (hx : x s = (.ok a, t)) : Q a t := by
  unfold Ensures at h
  rw [hx] at h
  exact h

theorem Ensures.cases (h : Ensures x s Q) :
    (∃ a t, x s = (.ok a, t) ∧ Q a t) ∨ ∃ m t, x s = (.error (.panic m), t) := by
  unfold Ensures at h
  rcases hx : x s with ⟨(e | m | _) | a, t⟩
  · rw [hx] at h
    exact False.elim h
  · exact .inr ⟨m, t, rfl⟩
  · rw [hx] at h
    exact False.elim h
  · rw [hx] at h
    exact .inl ⟨a, t, rfl, h⟩

theorem ensures_of_bind {P : α → σ → Prop}
    (hx : Ensures x s P) (hf : ∀ a t, P a t → Ensures (f a) t R) : Ensures (x >>= f) s R :=
  ensures_bind.mpr (hx.mono hf)

/-- Wherever the program starts, it ends in a state that is related to the first. -/
def Moves (R : σ → σ → Prop) (x : Exec σ ε α) : Prop := ∀ s, Ensures x s fun _ t => R s t

theorem Moves.bind {R : σ → σ → Prop} [IsTrans σ R] (hx : Moves R x)
    (hf : ∀ a, Moves R (f a)) : Moves R (x >>= f) := fun s =>
  ensures_of_bind (hx s) fun a t hst => (hf a t).mono fun _ _ htu => IsTrans.trans _ _ _ hst htu

/-! ## Loops -/

inductive Flow where
  | next
  | stop
  deriving DecidableEq

/-- At most so many rounds of a loop; with none left it counts as running for ever. -/
def loop (body : Exec σ ε Flow) : Nat → Exec σ ε Unit
  | 0 => diverge
  | rounds + 1 => do
    match ← body with
    | .next => loop body rounds
    | .stop => pure ()

/-- A round after which the loop goes on. -/
def Round (body : Exec σ ε Flow) (s t : σ) : Prop := body s = (.ok .next, t)

theorem loop_next (h : Round body s t) (rounds : Nat) :
    loop body (rounds + 1) s = loop body rounds t :=
  run_bind_ok h _

theorem loop_stop (h : body s = (.ok .stop, t)) (rounds : Nat) :
    loop body (rounds + 1) s = (.ok (), t) :=
  run_bind_ok h _

theorem loop_error {e : Fault ε} (h : body s = (.error e, t)) (rounds : Nat) :
    loop body (rounds + 1) s = (.error e, t) :=
  run_bind_error h _

theorem loop_ok (h : loop body rounds s = (.ok (), t)) :
    ∃ u, Relation.ReflTransGen (Round body) s u ∧ body u = (.ok .stop, t) := by
  induction rounds generalizing s with
  | zero => cases h
  | succ rounds ih =>
    rcases hbody : body s with ⟨e | flow, s'⟩
    · rw [loop_error hbody] at h
      cases h
    · cases flow with
      | next =>
        rw [loop_next hbody] at h
        obtain ⟨u, hrun, hstop⟩ := ih h
        exact ⟨u, .head hbody hrun, hstop⟩
      | stop =>
        rw [loop_stop hbody] at h
        cases h
        exact ⟨s, .refl, hbody⟩

/-- If every round that goes on leads to a smaller state, enough rounds settle the loop: it ends or
panics, and more rounds change nothing. -/
theorem loop_settles {smaller : σ → σ → Prop} (hwf : WellFounded smaller)
    (hbody : ∀ s, Ensures body s fun flow t => flow = .next → smaller t s) (s : σ) :
    ∃ n, Ensures (loop body n) s (fun _ _ => True) ∧ ∀ k, n ≤ k → loop body k s = loop body n s := by
  induction s using hwf.induction with
  | _ s ih =>
    rcases (hbody s).cases with ⟨flow, t, hround, hsmaller⟩ | ⟨m, t, hpanic⟩
    · cases flow with
      | next =>
        obtain ⟨n, hend, hmore⟩ := ih t (hsmaller rfl)
        refine ⟨n + 1, ?_, fun k hk => ?_⟩
        · unfold Ensures
          rw [loop_next hround]
          exact hend
        · obtain ⟨k, rfl⟩ : ∃ j, k = j + 1 := ⟨k - 1, by omega⟩
          rw [loop_next hround, loop_next hround, hmore k (by omega)]
      | stop =>
        refine ⟨1, ?_, fun k hk => ?_⟩
        · unfold Ensures
          rw [loop_stop hround]
          exact trivial
        · obtain ⟨k, rfl⟩ : ∃ j, k = j + 1 := ⟨k - 1, by omega⟩
          rw [loop_stop hround, loop_stop hround]
    · refine ⟨1, ?_, fun k hk => ?_⟩
      · unfold Ensures
        rw [loop_error hpanic]
        exact trivial
      · obtain ⟨k, rfl⟩ : ∃ j, k = j + 1 := ⟨k - 1, by omega⟩
        rw [loop_error hpanic, loop_error hpanic]

end Exec
end EthereumRust
