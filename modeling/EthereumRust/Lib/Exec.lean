import Mathlib.Algebra.Group.Nat.Defs
import Mathlib.Data.List.AList
import Mathlib.Data.List.Induction

/-! # Calls that can fail, over an explicit state

A call returns a value, returns an error of its own type, or panics, and keeps the state
it reached. A loop whose bound is not structural runs on fuel and ends in `diverged`
when the fuel is used up. Machine arithmetic is checked: an overflow is a panic. -/

namespace EthereumRust

/-- Why a call does not return a value. -/
inductive Fault (ε : Type) where
  | error (e : ε)
  | panic (message : String)
  | diverged
  deriving DecidableEq, Repr

abbrev Outcome (ε α : Type) := Except (Fault ε) α

namespace Outcome

def panic {ε α : Type} (message : String) : Outcome ε α := .error (.panic message)

/-- A panic and a divergence stay what they are when an error is converted. -/
def mapErr {ε ε' α : Type} (f : ε → ε') : Outcome ε α → Outcome ε' α
  | .ok a => .ok a
  | .error (.error e) => .error (.error (f e))
  | .error (.panic m) => .error (.panic m)
  | .error .diverged => .error .diverged

variable {ε α β : Type}

@[simp] theorem bind_ok (a : α) (f : α → Outcome ε β) :
    ((.ok a : Outcome ε α) >>= f) = f a := rfl

@[simp] theorem bind_error (e : Fault ε) (f : α → Outcome ε β) :
    ((.error e : Outcome ε α) >>= f) = .error e := rfl

@[simp] theorem pure_eq (a : α) : (pure a : Outcome ε α) = .ok a := rfl

variable {x : Outcome ε α}

theorem bind_ok_inv {f : α → Outcome ε β} {b : β} (h : (x >>= f) = .ok b) :
    ∃ a, x = .ok a ∧ f a = .ok b := by
  cases x with
  | error e => cases h
  | ok a => exact ⟨a, rfl, h⟩

variable {ε' : Type}

@[simp] theorem mapErr_ok (f : ε → ε') (a : α) :
    mapErr f (.ok a : Outcome ε α) = .ok a := rfl

theorem map_eq_ok {f : α → β} {b : β} : f <$> x = .ok b ↔ ∃ a, x = .ok a ∧ f a = b := by
  cases x with
  | error e => simp [Functor.map, Except.map]
  | ok a => simp [Functor.map, Except.map]

theorem mapErr_eq_ok {f : ε → ε'} {a : α} : mapErr f x = .ok a ↔ x = .ok a := by
  rcases x with (e | m | _) | b
  all_goals simp [mapErr]

/-! ### Calls that come back -/

/-- The call comes back, with a value or with an error. -/
def Returns {ε α : Type} : Outcome ε α → Prop
  | .ok _ | .error (.error _) => True
  | .error (.panic _) | .error .diverged => False

@[simp] theorem returns_ok (a : α) : Returns (.ok a : Outcome ε α) := trivial

@[simp] theorem returns_error (e : ε) :
    Returns (.error (.error e) : Outcome ε α) := trivial

@[simp] theorem not_returns_panic (m : String) : ¬ Returns (panic m : Outcome ε α) := id

/-- A block comes back if its first step does, and the rest from whatever that step returns. -/
theorem returns_bind {f : α → Outcome ε β} :
    (x >>= f).Returns ↔ x.Returns ∧ ∀ a, x = .ok a → (f a).Returns := by
  rcases x with (e | m | _) | a
  all_goals simp [Returns]

theorem returns_map {f : α → β} : (f <$> x).Returns ↔ x.Returns := by
  rcases x with (e | m | _) | a
  all_goals exact Iff.rfl

@[simp] theorem returns_mapErr {f : ε → ε'} : (mapErr f x).Returns ↔ x.Returns := by
  rcases x with (e | m | _) | a
  all_goals exact Iff.rfl

end Outcome

/-- A call over a state: what it returns, and the state it leaves. -/
def Exec (σ ε α : Type) := σ → Outcome ε α × σ

namespace Exec

variable {σ τ ε ε' α β : Type}

def pure (a : α) : Exec σ ε α := fun s => (.ok a, s)

def bind (x : Exec σ ε α) (f : α → Exec σ ε β) : Exec σ ε β := fun s =>
  match x s with
  | (.ok a, s') => f a s'
  | (.error e, s') => (.error e, s')

instance : Monad (Exec σ ε) where
  pure := Exec.pure
  bind := Exec.bind

instance : MonadLift (Outcome ε) (Exec σ ε) where
  monadLift x := fun s => (x, s)

def get : Exec σ ε σ := fun s => (.ok s, s)
def set (s : σ) : Exec σ ε Unit := fun _ => (.ok (), s)
def modify (f : σ → σ) : Exec σ ε Unit := fun s => (.ok (), f s)
def fail (e : ε) : Exec σ ε α := fun s => (.error (.error e), s)
def panic (message : String) : Exec σ ε α := fun s => (.error (.panic message), s)
def diverge : Exec σ ε α := fun s => (.error .diverged, s)

def zoom (view : τ → σ) (put : τ → σ → τ) (x : Exec σ ε α) : Exec τ ε α := fun t =>
  ((x (view t)).1, put t (x (view t)).2)

def reads (f : σ → Outcome ε α) : Exec σ ε α := fun s => (f s, s)

def mapErr (f : ε → ε') (x : Exec σ ε α) : Exec σ ε' α := fun s =>
  (Outcome.mapErr f (x s).1, (x s).2)

@[simp] theorem run_pure (a : α) (s : σ) : (Pure.pure a : Exec σ ε α) s = (.ok a, s) := rfl

@[simp] theorem run_lift (x : Outcome ε α) (s : σ) :
    (MonadLift.monadLift x : Exec σ ε α) s = (x, s) := rfl

@[simp] theorem run_liftM (x : Outcome ε α) (s : σ) :
    (liftM x : Exec σ ε α) s = (x, s) := rfl

@[simp] theorem run_get (s : σ) : (get : Exec σ ε σ) s = (.ok s, s) := rfl
@[simp] theorem run_set (s t : σ) : (set t : Exec σ ε Unit) s = (.ok (), t) := rfl
@[simp] theorem run_modify (f : σ → σ) (s : σ) :
    (modify f : Exec σ ε Unit) s = (.ok (), f s) := rfl
@[simp] theorem run_fail (e : ε) (s : σ) :
    (fail e : Exec σ ε α) s = (.error (.error e), s) := rfl
@[simp] theorem run_panic (m : String) (s : σ) :
    (panic m : Exec σ ε α) s = (.error (.panic m), s) := rfl
@[simp] theorem run_zoom (view : τ → σ) (put : τ → σ → τ) (x : Exec σ ε α) (t : τ) :
    zoom view put x t = ((x (view t)).1, put t (x (view t)).2) := rfl

@[simp] theorem run_reads (f : σ → Outcome ε α) (s : σ) : reads f s = (f s, s) := rfl

@[simp] theorem run_mapErr (f : ε → ε') (x : Exec σ ε α) (s : σ) :
    mapErr f x s = (Outcome.mapErr f (x s).1, (x s).2) := rfl

theorem run_bind (x : Exec σ ε α) (f : α → Exec σ ε β) (s : σ) :
    (x >>= f) s = match x s with
      | (.ok a, s') => f a s'
      | (.error e, s') => (.error e, s') := rfl

variable {x : Exec σ ε α}

theorem eq_of_fst (h : (x s).1 = .ok a) : x s = (.ok a, (x s).2) :=
  Prod.ext h rfl

theorem run_bind_ok (h : x s = (.ok a, s')) (f : α → Exec σ ε β) :
    (x >>= f) s = f a s' := by
  rw [run_bind, h]

theorem run_bind_error {e : Fault ε} (h : x s = (.error e, s')) (f : α → Exec σ ε β) :
    (x >>= f) s = (.error e, s') := by
  rw [run_bind, h]

theorem bind_ok_inv {t : σ} {b : β} (h : (x >>= f) s = (.ok b, t)) :
    ∃ a s', x s = (.ok a, s') ∧ f a s' = (.ok b, t) := by
  rw [run_bind] at h
  split at h
  · rename_i a s' hx
    exact ⟨a, s', hx, h⟩
  · cases h

theorem bind_error_inv {t : σ} {e : Fault ε} (h : (x >>= f) s = (.error e, t)) :
    x s = (.error e, t) ∨ ∃ a s', x s = (.ok a, s') ∧ f a s' = (.error e, t) := by
  rw [run_bind] at h
  split at h
  · rename_i a s' hx
    exact .inr ⟨a, s', hx, h⟩
  · rename_i e' s' hx
    obtain ⟨he, rfl⟩ := Prod.mk.inj h
    cases he
    exact .inl hx

theorem reads_bind_ok_inv {g : σ → Outcome ε α} {t : σ} {b : β}
    (h : (reads g >>= f) s = (.ok b, t)) : ∃ a, g s = .ok a ∧ f a s = (.ok b, t) := by
  obtain ⟨a, s', ha, hb⟩ := bind_ok_inv h
  obtain rfl : s = s' := congrArg Prod.snd ha
  exact ⟨a, congrArg Prod.fst ha, hb⟩

theorem mapErr_ok_inv {f : ε → ε'} (h : mapErr f x s = (.ok a, s')) :
    x s = (.ok a, s') := by
  rw [run_mapErr] at h
  rcases hx : x s with ⟨r, t⟩
  rw [hx] at h
  rcases r with (e | m | _) | b
  · cases h
  · cases h
  · cases h
  · simpa [Outcome.mapErr] using h

theorem mapErr_error_inv {f : ε → ε'} {e : Fault ε'} (h : mapErr f x s = (.error e, s')) :
    ∃ e', x s = (.error e', s') := by
  obtain ⟨he, rfl⟩ := Prod.mk.inj h
  rcases hx : (x s).1 with e' | a
  · exact ⟨e', Prod.ext hx rfl⟩
  · rw [hx] at he
    cases he

/-! ### Loops -/

def forEach (f : α → Exec σ ε β) : List α → Exec σ ε Unit
  | [] => Pure.pure ()
  | a :: as => do
    let _ ← f a
    forEach f as

theorem forEach_append (f : α → Exec σ ε β) (as bs : List α) (s : σ) :
    forEach f (as ++ bs) s = (forEach f as >>= fun _ => forEach f bs) s := by
  induction as generalizing s with
  | nil => rfl
  | cons a as ih =>
    rw [List.cons_append, forEach, forEach, run_bind, run_bind, run_bind]
    cases h : f a s with
    | mk r s' => cases r with
      | error e => rfl
      | ok b =>
        simp only
        rw [ih, run_bind]

theorem forEach_map (f : α → Exec σ ε β) {γ : Type} (g : γ → α) (as : List γ) :
    forEach f (as.map g) = forEach (fun c => f (g c)) as := by
  induction as with
  | nil => rfl
  | cons a as ih => rw [List.map_cons, forEach, forEach, ih]

theorem forEach_snoc {as : List α} {s'' : σ} {b : β}
    (has : forEach f as s = (.ok (), s')) (ha : f a s' = (.ok b, s'')) :
    forEach f (as ++ [a]) s = (.ok (), s'') := by
  rw [forEach_append, run_bind_ok has, forEach, run_bind_ok ha]
  rfl

/-- An invariant of the elements done so far and the state holds after each part of a loop. -/
theorem forEach_invariant {all : List α} (Inv : List α → σ → Prop) (h0 : Inv [] s)
    (hstep : ∀ as a s', as ++ [a] <+: all → forEach f as s = (.ok (), s') → Inv as s' →
      ∃ b s'', f a s' = (.ok b, s'') ∧ Inv (as ++ [a]) s'') (as : List α) (has : as <+: all) :
    ∃ s', forEach f as s = (.ok (), s') ∧ Inv as s' := by
  induction as using List.reverseRecOn with
  | nil => exact ⟨s, rfl, h0⟩
  | append_singleton as a ih =>
    obtain ⟨s', hrun, hinv⟩ := ih ((List.prefix_append as [a]).trans has)
    obtain ⟨b, s'', ha, hinv'⟩ := hstep as a s' has hrun hinv
    exact ⟨s'', forEach_snoc hrun ha, hinv'⟩

/-! ### Calls that do not panic -/

def Survives (x : Exec σ ε α) (s : σ) : Prop := ∀ m, (x s).1 ≠ .error (.panic m)

theorem Survives.first (h : (x >>= f).Survives s) : x.Survives s := by
  intro m hm
  have hx : x s = (.error (.panic m), (x s).2) := Prod.ext hm rfl
  exact h m (by rw [run_bind_error hx])

theorem Survives.rest (h : (x >>= f).Survives s) (hx : x s = (.ok a, s')) :
    (f a).Survives s' := by
  intro m hm
  exact h m (by rw [run_bind_ok hx]; exact hm)

/-- A loop that does not panic does not do so in any of its steps. -/
theorem Survives.forEach {as all : List α} (h : (forEach f all).Survives s)
    (has : as ++ [a] <+: all) (hrun : Exec.forEach f as s = (.ok (), s')) : (f a).Survives s' := by
  obtain ⟨bs, rfl⟩ := has
  have hall : Exec.forEach f (as ++ [a] ++ bs) s = (f a >>= fun _ => Exec.forEach f bs) s' := by
    rw [List.append_assoc, forEach_append, run_bind_ok hrun]
    rfl
  refine Survives.first (f := fun _ => Exec.forEach f bs) fun m hm => h m ?_
  rw [hall]
  exact hm

/-! ### What a call leaves alone -/

/-- The call does not touch the part of the state that `view` shows, whatever it returns. -/
def Keeps (view : σ → τ) (x : Exec σ ε α) : Prop := ∀ s, view (x s).2 = view s

section

theorem Keeps.pure (a : α) : Keeps view (Pure.pure a : Exec σ ε α) := fun _ => rfl

theorem Keeps.get : Keeps view (get : Exec σ ε σ) := fun _ => rfl

theorem Keeps.fail (e : ε) : Keeps view (fail e : Exec σ ε α) := fun _ => rfl

theorem Keeps.reads (f : σ → Outcome ε α) : Keeps view (reads f) := fun _ => rfl

theorem Keeps.modify {f : σ → σ} (h : ∀ s, view (f s) = view s) :
    Keeps view (modify f : Exec σ ε Unit) := h

theorem Keeps.mapErr {x : Exec σ ε α} (h : Keeps view x) (f : ε → ε') : Keeps view (mapErr f x) := h

theorem Keeps.bind {x : Exec σ ε α} {f : α → Exec σ ε β} (hx : Keeps view x)
    (hf : ∀ a, Keeps view (f a)) : Keeps view (x >>= f) := by
  intro s
  have h := hx s
  rw [run_bind]
  split
  · rename_i a s' heq
    rw [heq] at h
    exact (hf a s').trans h
  · rename_i e s' heq
    rw [heq] at h
    exact h

theorem Keeps.ite {c : Prop} [Decidable c] {x y : Exec σ ε α} (hx : Keeps view x) (hy : Keeps view y) :
    Keeps view (if c then x else y) := by
  split
  · exact hx
  · exact hy

theorem Keeps.forEach {f : α → Exec σ ε β} (hf : ∀ a, Keeps view (f a)) (as : List α) :
    Keeps view (forEach f as) := by
  induction as with
  | nil => exact .pure ()
  | cons a as ih => exact (hf a).bind fun _ => ih

end

/-! ### What a call only adds to -/

/-- Whatever it returns, the call takes nothing from the list that `view` shows. -/
def Grows (view : σ → List τ) (x : Exec σ ε α) : Prop := ∀ s, view s ⊆ view (x s).2

section

theorem Grows.of_keeps {x : Exec σ ε α} (h : Keeps view x) : Grows view x := fun s =>
  (h s).symm ▸ List.Subset.refl _

theorem Grows.rest {k : α → Exec σ ε β} (hk : ∀ a, Grows view (k a)) (x : Exec σ ε α) (s : σ) :
    view (x s).2 ⊆ view ((x >>= k) s).2 := by
  rw [run_bind]
  rcases x s with ⟨e | a, t⟩
  · exact List.Subset.refl _
  · exact hk a t

theorem Grows.bind {x : Exec σ ε α} {k : α → Exec σ ε β} (hx : Grows view x) (hk : ∀ a, Grows view (k a)) :
    Grows view (x >>= k) := fun s => List.Subset.trans (hx s) (Grows.rest hk x s)

theorem Grows.ite {c : Prop} [Decidable c] {x y : Exec σ ε α} (hx : Grows view x) (hy : Grows view y) :
    Grows view (if c then x else y) := by
  split
  · exact hx
  · exact hy

theorem Grows.forEach {f : α → Exec σ ε β} (hf : ∀ a, Grows view (f a)) (as : List α) :
    Grows view (forEach f as) := by
  induction as with
  | nil => exact .of_keeps (.pure ())
  | cons a as ih => exact (hf a).bind fun _ => ih

theorem Grows.step {f : α → Exec σ ε β} (hf : ∀ a, Grows view (f a)) {as all : List α} {a : α} {s s' : σ}
    (has : as ++ [a] <+: all) (hrun : Exec.forEach f as s = (.ok (), s')) :
    view (f a s').2 ⊆ view (Exec.forEach f all s).2 := by
  obtain ⟨bs, rfl⟩ := has
  rw [List.append_assoc, forEach_append, run_bind_ok hrun]
  exact Grows.rest (fun _ => Grows.forEach hf bs) (f a) s'

end

end Exec

abbrev HashMap (K V : Type) := AList fun _ : K => V

theorem HashMap.length_erase_lt {K V : Type} [DecidableEq K] {m : HashMap K V} {k v}
    (h : m.lookup k = some v) : (m.erase k).entries.length < m.entries.length := by
  have hmem : k ∈ m.entries.keys := AList.lookup_isSome.mp (by rw [h]; rfl)
  obtain ⟨b, l₁, l₂, -, hl, he⟩ := List.exists_of_kerase hmem
  change (List.kerase k m.entries).length < _
  rw [he, hl]
  simp

theorem HashMap.injective_iff_nodup {K V : Type} [DecidableEq K] {m : HashMap K V} :
    (∀ p q v, m.lookup p = some v → m.lookup q = some v → p = q) ↔ (m.entries.map (·.2)).Nodup := by
  rw [List.nodup_map_iff_inj_on m.nodupKeys.nodup]
  constructor
  · rintro h ⟨p, v⟩ hp ⟨q, w⟩ hq (rfl : v = w)
    rw [h p q v (AList.mem_lookup_iff.mpr hp) (AList.mem_lookup_iff.mpr hq)]
  · intro h p q v hp hq
    exact congrArg Sigma.fst (h _ (AList.mem_lookup_iff.mp hp) _ (AList.mem_lookup_iff.mp hq) rfl)

/-! ## Checked machine arithmetic and slices -/

namespace Rust

variable {ε α : Type}

def wordSize : Nat := 2 ^ 64

def add (a b : Nat) : Outcome ε Nat :=
  if a + b < wordSize then .ok (a + b) else Outcome.panic "attempt to add with overflow"

def sub (a b : Nat) : Outcome ε Nat :=
  if b ≤ a then .ok (a - b) else Outcome.panic "attempt to subtract with overflow"

def mul (a b : Nat) : Outcome ε Nat :=
  if a * b < wordSize then .ok (a * b) else Outcome.panic "attempt to multiply with overflow"

/-! The same on `u64` values. -/

def u64Add (a b : UInt64) : Outcome ε UInt64 :=
  if a.toNat + b.toNat < wordSize then .ok (a + b) else Outcome.panic "attempt to add with overflow"

def u64Sub (a b : UInt64) : Outcome ε UInt64 :=
  if b ≤ a then .ok (a - b) else Outcome.panic "attempt to subtract with overflow"

def u64Mul (a b : UInt64) : Outcome ε UInt64 :=
  if a.toNat * b.toNat < wordSize then .ok (a * b)
  else Outcome.panic "attempt to multiply with overflow"

def saturatingSub (a b : UInt64) : UInt64 := if b ≤ a then a - b else 0

def saturatingAdd (a b : UInt64) : UInt64 :=
  if a.toNat + b.toNat < wordSize then a + b else UInt64.ofNat (wordSize - 1)

def index (xs : List α) (i : Nat) : Outcome ε α :=
  match xs[i]? with
  | some x => .ok x
  | none => Outcome.panic "index out of bounds"

def slice (xs : List α) (a b : Nat) : Outcome ε (List α) :=
  if a ≤ b ∧ b ≤ xs.length then .ok ((xs.take b).drop a)
  else Outcome.panic "range out of bounds for slice"

def sliceFrom (xs : List α) (a : Nat) : Outcome ε (List α) :=
  if a ≤ xs.length then .ok (xs.drop a) else Outcome.panic "range out of bounds for slice"

def assert (c : Bool) (message : String) : Outcome ε Unit :=
  if c then .ok () else Outcome.panic message

def unwrap {ε' : Type} (x : Outcome ε' α) : Outcome ε α :=
  match x with
  | .ok a => .ok a
  | .error (.error _) => Outcome.panic "called `Result::unwrap()` on an `Err` value"
  | .error (.panic m) => .error (.panic m)
  | .error .diverged => .error .diverged

def expect (x : Option α) (message : String) : Outcome ε α :=
  match x with
  | some a => .ok a
  | none => Outcome.panic message

theorem add_ok (h : a + b < wordSize) : (add a b : Outcome ε Nat) = .ok (a + b) := by
  simp [add, h]

theorem mul_ok (h : a * b < wordSize) : (mul a b : Outcome ε Nat) = .ok (a * b) := by
  simp [mul, h]

theorem sub_ok (h : b ≤ a) : (sub a b : Outcome ε Nat) = .ok (a - b) := by
  simp [sub, h]

theorem index_ok {x : α} (h : xs[i]? = some x) :
    (index xs i : Outcome ε α) = .ok x := by
  simp [index, h]

theorem slice_ok (hab : a ≤ b) (hb : b ≤ xs.length) :
    (slice xs a b : Outcome ε (List α)) = .ok ((xs.take b).drop a) := by
  simp [slice, hab, hb]

theorem sliceFrom_ok (h : a ≤ xs.length) :
    (sliceFrom xs a : Outcome ε (List α)) = .ok (xs.drop a) := by
  simp [sliceFrom, h]

theorem toNat_lt_wordSize (a : UInt64) : a.toNat < wordSize := a.toNat_lt

theorem u64Add_eq_ok :
    (u64Add a b : Outcome ε UInt64) = .ok c ↔ c.toNat = a.toNat + b.toNat := by
  have hc := toNat_lt_wordSize c
  rw [u64Add]
  split_ifs with h
  · rw [Except.ok.injEq, ← UInt64.toNat_inj, UInt64.toNat_add, Nat.mod_eq_of_lt (b := 2 ^ 64) h, eq_comm]
  · simp only [Outcome.panic, reduceCtorEq, false_iff]
    omega

theorem u64Sub_eq_ok :
    (u64Sub a b : Outcome ε UInt64) = .ok c ↔ a.toNat = c.toNat + b.toNat := by
  rw [u64Sub]
  split_ifs with h
  · have hle : b.toNat ≤ a.toNat := h
    rw [Except.ok.injEq, ← UInt64.toNat_inj, UInt64.toNat_sub_of_le _ _ h]
    omega
  · have hlt : ¬ b.toNat ≤ a.toNat := h
    simp only [Outcome.panic, reduceCtorEq, false_iff]
    omega

theorem u64Mul_eq_ok :
    (u64Mul a b : Outcome ε UInt64) = .ok c ↔ c.toNat = a.toNat * b.toNat := by
  have hc := toNat_lt_wordSize c
  rw [u64Mul]
  split_ifs with h
  · rw [Except.ok.injEq, ← UInt64.toNat_inj, UInt64.toNat_mul, Nat.mod_eq_of_lt (b := 2 ^ 64) h, eq_comm]
  · simp only [Outcome.panic, reduceCtorEq, false_iff]
    omega

variable (a b : UInt64)

theorem toNat_saturatingSub : (saturatingSub a b).toNat = a.toNat - b.toNat := by
  rw [saturatingSub]
  split_ifs with h
  · exact UInt64.toNat_sub_of_le _ _ h
  · have hlt : ¬ b.toNat ≤ a.toNat := h
    have hzero : (0 : UInt64).toNat = 0 := rfl
    omega

theorem toNat_min : (min a b).toNat = min a.toNat b.toNat := by
  exact apply_ite UInt64.toNat _ _ _

theorem toNat_max : (max a b).toNat = max a.toNat b.toNat := by
  exact apply_ite UInt64.toNat _ _ _

theorem exists_toNat_eq (h : n < wordSize) : ∃ a : UInt64, a.toNat = n :=
  ⟨UInt64.ofNat n, by rw [UInt64.toNat_ofNat', Nat.mod_eq_of_lt (b := 2 ^ 64) h]⟩

@[simp] theorem assert_true (m : String) : (assert true m : Outcome ε Unit) = .ok () := rfl

@[simp] theorem unwrap_eq_ok {ε' : Type} {x : Outcome ε' α} {a : α} :
    (unwrap x : Outcome ε α) = .ok a ↔ x = .ok a := by
  unfold unwrap
  split <;> simp [Outcome.panic]

theorem returns_unwrap {ε' : Type} {x : Outcome ε' α} :
    (unwrap x : Outcome ε α).Returns ↔ ∃ a, x = .ok a := by
  unfold unwrap
  split <;> simp [Outcome.Returns, Outcome.panic]

@[simp] theorem expect_some (a : α) (m : String) : (expect (some a) m : Outcome ε α) = .ok a := rfl

end Rust

end EthereumRust
