import EthereumRust.Lib.Patricia
import EthereumRust.Lib.Rlp
import Mathlib.Data.Finset.Lattice.Fold
import Mathlib.Order.Lattice.Nat
import Mathlib.Data.Set.Function
import Mathlib.Order.ConditionallyCompleteLattice.Finset

/-! # Commitments to Patricia trees

A canonical tree has the structure that the node composition of the Yellow Paper assigns
to its pairs, so the commitment depends on the map only. -/

namespace EthereumRust
open List

variable {α β : Type} {J : Finset (List α × β)}

/-- A structure as a node refers to it: in place when it is short, by its hash otherwise. -/
def Item.capped (kec : ByteString → ByteString) (i : Item) : Item :=
  if i.encode.length < 32 then i else .bytes (kec i.encode)

namespace Tree

variable {ν : Type} (val : ν → ByteString) (kec : ByteString → ByteString) {κ : Type} {t : Tree κ ν}

def item : Tree Nibble ν → Item
  | nil => .bytes []
  | leaf r v => .list [.bytes (hexPrefix r true), .bytes (val v)]
  | ext s c => .list [.bytes (hexPrefix s false), c.item.capped kec]
  | branch cs v => .list (List.ofFn (fun x => (cs x).item.capped kec) ++ [.bytes ((v.map val).getD [])])

/-- A property of every node of a tree. -/
def Every {κ : Type} (P : Tree κ ν → Prop) : Tree κ ν → Prop
  | nil => True
  | leaf r v => P (leaf r v)
  | ext s c => P (ext s c) ∧ c.Every P
  | branch cs v => P (branch cs v) ∧ ∀ x, (cs x).Every P

theorem Every.self {P : Tree κ ν → Prop} (h : t.Every P) (hn : t ≠ nil) :
    P t := by
  cases t with
  | nil => exact absurd rfl hn
  | leaf r v => exact h
  | ext s c => exact h.1
  | branch cs v => exact h.1

theorem Every.imp {P Q : Tree κ ν → Prop} (hPQ : ∀ t, P t → Q t)
    (h : t.Every P) : t.Every Q := by
  induction t with
  | nil => trivial
  | leaf r v => exact hPQ _ h
  | ext s c ih => exact ⟨hPQ _ h.1, ih h.2⟩
  | branch cs v ih => exact ⟨hPQ _ h.1, fun x => ih x (h.2 x)⟩

/-! ## Telling trees apart -/

/-- The encodings of a tree's nodes are among `E`, and each fits a 64-bit length. -/
def Logged (E : Set ByteString) (t : Tree Nibble ν) : Prop :=
  t.Every fun s => (s.item val kec).encode ∈ E ∧ (s.item val kec).encode.length < 2 ^ 64

variable {val kec}

theorem item_nil_or_list (val : ν → ByteString) (kec : ByteString → ByteString) (t : Tree Nibble ν) :
    (t = nil ∧ t.item val kec = .bytes []) ∨ (t ≠ nil ∧ ∃ xs, t.item val kec = .list xs) := by
  cases t with
  | nil => exact .inl ⟨rfl, rfl⟩
  | leaf r v => exact .inr ⟨by simp, _, rfl⟩
  | ext s c => exact .inr ⟨by simp, _, rfl⟩
  | branch cs v => exact .inr ⟨by simp, _, rfl⟩

/-- A reference names one structure, if the hash has no collision among the nodes. -/
theorem capped_inj (hkec : ∀ b, (kec b).length = 32) (hE : Set.InjOn kec E) {t u : Tree Nibble ν}
    (ht : t.Logged val kec E) (hu : u.Logged val kec E)
    (h : (t.item val kec).capped kec = (u.item val kec).capped kec) :
    t.item val kec = u.item val kec := by
  have hmixed : ∀ {t : Tree Nibble ν} {b : ByteString}, t.item val kec ≠ .bytes (kec b) := by
    intro t b he
    rcases t.item_nil_or_list val kec with ⟨-, h0⟩ | ⟨-, xs, h0⟩
    · rw [h0] at he
      have hb := hkec b
      rw [← Item.bytes.inj he] at hb
      simp at hb
    · rw [h0] at he; cases he
  have hnil : ∀ {t : Tree Nibble ν}, ¬ (t.item val kec).encode.length < 32 → t ≠ nil := by
    rintro t h rfl
    exact h (show (rlpBytes []).length < 32 by decide)
  unfold Item.capped at h
  split at h <;> split at h
  · exact h
  · exact absurd h hmixed
  · exact absurd h.symm hmixed
  · rename_i h1 h2
    have ht' := ht.self (hnil h1)
    have hu' := hu.self (hnil h2)
    exact Item.encode_injective ht'.2 hu'.2 (hE ht'.1 hu'.1 (Item.bytes.inj h))

theorem getD_map_inj (hval : Function.Injective val) (hne : ∀ v, val v ≠ []) {v w : Option ν}
    (h : (v.map val).getD [] = (w.map val).getD []) : v = w := by
  cases v with
  | none =>
    cases w with
    | none => rfl
    | some w => exact absurd h.symm (hne w)
  | some v =>
    cases w with
    | none => exact absurd h (hne v)
    | some w => exact congrArg some (hval h)

theorem item_inj (hval : Function.Injective val) (hne : ∀ v, val v ≠ [])
    (hkec : ∀ b, (kec b).length = 32) (hE : Set.InjOn kec E) {t u : Tree Nibble ν}
    (ht : t.Logged val kec E) (hu : u.Logged val kec E) (he : t.item val kec = u.item val kec) :
    t = u := by
  induction t generalizing u with
  | nil =>
    rcases u.item_nil_or_list val kec with ⟨rfl, -⟩ | ⟨-, xs, h0⟩
    · rfl
    · rw [h0] at he; cases he
  | leaf r v =>
    cases u with
    | nil => cases he
    | leaf r' v' =>
      simp only [item, Item.list.injEq, List.cons.injEq, Item.bytes.injEq, and_true] at he
      rw [(hexPrefix_injective he.1).1, hval he.2]
    | ext s c =>
      simp only [item, Item.list.injEq, List.cons.injEq, Item.bytes.injEq] at he
      exact absurd (hexPrefix_injective he.1).2 (by simp)
    | branch cs w =>
      have := congrArg List.length (Item.list.inj he)
      simp at this
  | ext s c ih =>
    cases u with
    | nil => cases he
    | leaf r v =>
      simp only [item, Item.list.injEq, List.cons.injEq, Item.bytes.injEq] at he
      exact absurd (hexPrefix_injective he.1).2 (by simp)
    | ext s' c' =>
      simp only [item, Item.list.injEq, List.cons.injEq, Item.bytes.injEq, and_true] at he
      rw [(hexPrefix_injective he.1).1, ih ht.2 hu.2 (capped_inj hkec hE ht.2 hu.2 he.2)]
    | branch cs w =>
      have := congrArg List.length (Item.list.inj he)
      simp at this
  | branch cs v ih =>
    cases u with
    | nil => cases he
    | leaf r v =>
      have := congrArg List.length (Item.list.inj he)
      simp at this
    | ext s c =>
      have := congrArg List.length (Item.list.inj he)
      simp at this
    | branch cs' v' =>
      obtain ⟨hcs, hv⟩ := append_inj' (Item.list.inj he) rfl
      rw [ofFn_inj] at hcs
      rw [List.cons.injEq, Item.bytes.injEq] at hv
      rw [getD_map_inj hval hne hv.1, show cs = cs' from funext fun x => ih x (ht.2 x) (hu.2 x)
        (capped_inj hkec hE (ht.2 x) (hu.2 x) (congrFun hcs x))]

end Tree

/-! ## The node composition -/

/-- The length of the longest list all keys start with. -/
noncomputable def sharedLength {α β : Type} (J : Finset (List α × β)) : Nat :=
  sSup {x | ∃ l : List α, l.length = x ∧ ∀ I ∈ J, l <+: I.1}

theorem sharedLength_le {I : List α × β} (hI : I ∈ J) :
    sharedLength J ≤ I.1.length := by
  refine csSup_le ⟨0, [], rfl, fun _ _ => nil_prefix⟩ ?_
  rintro x ⟨l, rfl, hl⟩
  exact (hl I hI).length_le

theorem sharedLength_eq {l : List α}
    (hl : ∀ I ∈ J, l <+: I.1) (hmax : ∀ a, ∃ I ∈ J, ¬ (l ++ [a]) <+: I.1) (hne : J.Nonempty) :
    sharedLength J = l.length := by
  obtain ⟨I₀, hI₀⟩ := hne
  have hbound : ∀ x ∈ {x | ∃ l : List α, l.length = x ∧ ∀ I ∈ J, l <+: I.1}, x ≤ l.length := by
    rintro x ⟨k, rfl, hk⟩
    by_contra hlt
    have hlk : l <+: k := prefix_of_prefix_length_le (hl I₀ hI₀) (hk I₀ hI₀) (by omega)
    obtain ⟨tl, rfl⟩ := hlk
    cases tl with
    | nil => simp at hlt
    | cons a tl =>
      obtain ⟨I, hI, hno⟩ := hmax a
      refine hno (List.IsPrefix.trans ?_ (hk I hI))
      simp
  exact le_antisymm (csSup_le ⟨l.length, l, rfl, hl⟩ hbound)
    (le_csSup ⟨l.length, hbound⟩ ⟨l, rfl, hl⟩)

section

variable (kec : ByteString → ByteString)

open Classical in
/-- The structural composition `c(J, i)` of a set of pairs whose keys share their
first `i` half-bytes. -/
noncomputable def compose (J : Finset (List Nibble × ByteString)) (i : Nat) : Item :=
  if hone : ∃ I, J = {I} then
    .list [.bytes (hexPrefix (hone.choose.1.drop i) true), .bytes hone.choose.2]
  else if hlt : i < sharedLength J then
    .list [.bytes (hexPrefix ((((J.toList.headD ([], [])).1).take (sharedLength J)).drop i) false),
      (compose J (sharedLength J)).capped kec]
  else
    .list (List.ofFn (fun x : Nibble =>
        if hx : J.filter (fun I => I.1[i]? = some x) = ∅ then .bytes []
        else (compose (J.filter fun I => I.1[i]? = some x) (i + 1)).capped kec) ++
      [.bytes (if hv : ∃ I ∈ J, I.1.length = i then hv.choose.2 else [])])
termination_by J.sup (fun I => I.1.length) + 1 - i
decreasing_by
  · have hJ : J.Nonempty := by
      by_contra hJ
      rw [Finset.not_nonempty_iff_eq_empty] at hJ
      have h0 : sharedLength J = 0 := by
        have : {x | ∃ l : List Nibble, l.length = x ∧ ∀ I ∈ J, l <+: I.1} = Set.univ := by
          ext x
          simpa [hJ] using ⟨List.replicate x 0, by simp⟩
        rw [sharedLength, this]
        exact Nat.sSup_of_not_bddAbove not_bddAbove_univ
      omega
    obtain ⟨I, hI⟩ := hJ
    have h1 := sharedLength_le hI
    have h2 : I.1.length ≤ J.sup fun I => I.1.length := Finset.le_sup (f := fun I => I.1.length) hI
    omega
  · obtain ⟨I, hI⟩ := Finset.nonempty_iff_ne_empty.mpr hx
    have hI' := Finset.mem_filter.mp hI
    have hlen : i < I.1.length := by
      by_contra hc
      rw [List.getElem?_eq_none (by omega)] at hI'
      exact absurd hI'.2 (by simp)
    have h2 : I.1.length ≤ J.sup fun I => I.1.length :=
      Finset.le_sup (f := fun I => I.1.length) hI'.1
    have h3 : ((J.filter fun I => I.1[i]? = some x).sup fun I => I.1.length) ≤
        J.sup fun I => I.1.length := Finset.sup_mono (Finset.filter_subset _ _)
    omega

/-- The root of a map: the hash of its composition, or of the empty string's encoding. -/
noncomputable def trieRoot (J : Finset (List Nibble × ByteString)) : ByteString :=
  if J = ∅ then kec (Item.bytes []).encode else kec (compose kec J 0).encode

end

/-! ## A canonical tree has the composition's structure -/

namespace Tree

variable {ν : Type} {t : Tree Nibble ν} {J : Finset (List Nibble × ByteString)}

/-- The pairs `J` are those of the tree, each key after `pre`. -/
def Represents (val : ν → ByteString) (t : Tree Nibble ν) (pre : List Nibble)
    (J : Finset (List Nibble × ByteString)) : Prop :=
  ∀ I, I ∈ J ↔ ∃ r v, t.lookup r = some v ∧ I = (pre ++ r, val v)

theorem Represents.mem
    (h : t.Represents val pre J) {v : ν}
    (hr : t.lookup r = some v) : (pre ++ r, val v) ∈ J := (h _).mpr ⟨r, v, hr, rfl⟩

theorem Represents.isPrefix
    (h : t.Represents val pre J) (hI : I ∈ J) : pre <+: I.1 := by
  obtain ⟨r, v, -, rfl⟩ := (h I).mp hI
  exact prefix_append _ _

theorem Represents.nonempty
    (h : t.Represents val pre J) (hc : t.Canonical)
    (hn : t ≠ nil) : J.Nonempty := by
  obtain ⟨r, v, hr⟩ := hc.exists_key hn
  exact ⟨_, h.mem hr⟩

theorem Represents.branch_parts
    (h : (branch cs w).Represents val pre J)
    (hc : (branch cs w).Canonical) (a : Nibble) : ∃ I ∈ J, ¬ (pre ++ [a]) <+: I.1 := by
  obtain ⟨hcr, hcs⟩ := hc
  have hkey : ∀ x, cs x ≠ nil → x ≠ a → ∃ I ∈ J, ¬ (pre ++ [a]) <+: I.1 := by
    intro x hx hxa
    obtain ⟨r, v, hr⟩ := (hcs x).exists_key hx
    refine ⟨_, h.mem (r := x :: r) hr, ?_⟩
    rw [prefix_append_right_inj, cons_prefix_cons]
    exact fun hp => hxa hp.1.symm
  rcases hcr with ⟨x, y, hxy, hx, hy⟩ | ⟨hw, x, hx⟩
  · by_cases hxa : x = a
    · exact hkey y hy (fun hya => hxy (hxa.trans hya.symm))
    · exact hkey x hx hxa
  · obtain ⟨v, hv⟩ := Option.ne_none_iff_exists'.mp hw
    refine ⟨_, h.mem (r := []) (v := v) (by simpa using hv), fun hp => ?_⟩
    have := hp.length_le
    simp at this

theorem Represents.sharedLength
    (h : (branch cs w).Represents val pre J)
    (hc : (branch cs w).Canonical) : EthereumRust.sharedLength J = pre.length :=
  sharedLength_eq (fun _ hI => h.isPrefix hI) (h.branch_parts hc)
    (h.nonempty hc (by simp))

theorem Represents.not_single
    (h : (branch cs w).Represents val pre J)
    (hc : (branch cs w).Canonical) : ¬ ∃ I, J = {I} := by
  rintro ⟨I, rfl⟩
  obtain ⟨r, hr⟩ := h.isPrefix (Finset.mem_singleton_self I)
  cases r with
  | nil =>
    -- one key ends at the branch, yet some child holds another
    obtain ⟨x, hx⟩ : ∃ x, cs x ≠ nil := by
      rcases hc.1 with ⟨x, -, -, hx, -⟩ | ⟨-, x, hx⟩ <;> exact ⟨x, hx⟩
    obtain ⟨r, v, hrv⟩ := (hc.2 x).exists_key hx
    have hm := Finset.mem_singleton.mp (h.mem (r := x :: r) hrv)
    have := congrArg (fun I => I.1.length) hm
    rw [← hr] at this
    simp at this
  | cons a r =>
    obtain ⟨I', hI', hno⟩ := h.branch_parts hc a
    rw [Finset.mem_singleton.mp hI', ← hr] at hno
    exact hno (by simp)

theorem Represents.ext_child {c : Tree Nibble ν}
    (h : (ext s c).Represents val pre J) :
    c.Represents val (pre ++ s) J := by
  intro I
  rw [h I]
  constructor
  · rintro ⟨r, v, hr, rfl⟩
    rw [lookup_ext] at hr
    split at hr
    · rename_i hs
      obtain ⟨r', rfl⟩ := hs
      exact ⟨r', v, by simpa using hr, by simp⟩
    · cases hr
  · rintro ⟨r, v, hr, rfl⟩
    exact ⟨s ++ r, v, by simpa using hr, by simp⟩

theorem Represents.branch_child
    (h : (branch cs w).Represents val pre J) (x : Nibble) :
    (cs x).Represents val (pre ++ [x]) (J.filter fun I => I.1[pre.length]? = some x) := by
  intro I
  rw [Finset.mem_filter, h I]
  constructor
  · rintro ⟨⟨r, v, hr, rfl⟩, hx⟩
    cases r with
    | nil => simp at hx
    | cons y r =>
      have hyx : y = x := by simpa using hx
      subst hyx
      exact ⟨r, v, hr, by simp⟩
  · rintro ⟨r, v, hr, rfl⟩
    exact ⟨⟨x :: r, v, hr, by simp⟩, by simp⟩

theorem Represents.filter_empty
    (h : (branch cs w).Represents val pre J)
    (hc : (branch cs w).Canonical) (x : Nibble) :
    (J.filter fun I => I.1[pre.length]? = some x) = ∅ ↔ cs x = nil := by
  constructor
  · intro he
    by_contra hn
    obtain ⟨I, hI⟩ := (h.branch_child x).nonempty (hc.2 x) hn
    rw [he] at hI
    simp at hI
  · intro hn
    rw [Finset.eq_empty_iff_forall_notMem]
    intro I hI
    obtain ⟨r, v, hr, -⟩ := (h.branch_child x I).mp hI
    simp [hn] at hr

/-- The composition of a canonical tree's pairs is the tree's structure. -/
theorem compose_eq_item (kec : ByteString → ByteString) (hc : t.Canonical) (hn : t ≠ nil)
    (h : t.Represents val pre J) :
    compose kec J pre.length = t.item val kec := by
  induction t generalizing pre J with
  | nil => exact absurd rfl hn
  | leaf r v =>
    have hJ : J = {(pre ++ r, val v)} := by
      ext I
      rw [h I, Finset.mem_singleton]
      constructor
      · rintro ⟨r', v', hr, rfl⟩
        simp only [lookup_leaf] at hr
        split at hr
        · rename_i he; cases hr; rw [he]
        · cases hr
      · rintro rfl
        exact ⟨r, v, by simp, rfl⟩
    have hone : ∃ I, J = {I} := ⟨_, hJ⟩
    have hch : hone.choose = (pre ++ r, val v) :=
      (Finset.singleton_inj.mp (hJ.symm.trans hone.choose_spec)).symm
    rw [compose, dif_pos hone, hch, item]
    simp
  | ext s c ih =>
    obtain ⟨hs, hb, hcc⟩ := hc
    have hcn : c ≠ nil := by rintro rfl; exact hb
    have hrep := h.ext_child
    have hlen : EthereumRust.sharedLength J = (pre ++ s).length := by
      cases c with
      | branch cs w => exact hrep.sharedLength hcc
      | _ => exact hb.elim
    have hsingle : ¬ ∃ I, J = {I} := by
      cases c with
      | branch cs w => exact hrep.not_single hcc
      | _ => exact hb.elim
    have hspos := length_pos_iff.mpr hs
    have hlt : pre.length < EthereumRust.sharedLength J := by rw [hlen, length_append]; omega
    -- every key of `J` starts with `pre ++ s`
    have hhead : (((J.toList.headD ([], [])).1).take (pre ++ s).length).drop pre.length = s := by
      have hne : J.toList ≠ [] := by
        obtain ⟨I, hI⟩ := hrep.nonempty hcc hcn
        exact ne_nil_of_mem (Finset.mem_toList.mpr hI)
      obtain ⟨I, tl, hI⟩ := exists_cons_of_ne_nil hne
      obtain ⟨tl', htl⟩ := hrep.isPrefix (Finset.mem_toList.mp (hI ▸ mem_cons_self))
      rw [hI, headD_cons, ← htl, take_left, drop_left]
    rw [compose, dif_neg hsingle, dif_pos hlt, hlen, ih hcc hcn hrep, hhead, item]
  | branch cs w ih =>
    have hlen := h.sharedLength hc
    have hv : (if hv : ∃ I ∈ J, I.1.length = pre.length then hv.choose.2 else []) =
        (w.map val).getD [] := by
      split
      · rename_i hex
        obtain ⟨hI, hIlen⟩ := hex.choose_spec
        obtain ⟨r, v, hr, hIe⟩ := (h _).mp hI
        have hr0 : r = [] := by
          have := congrArg (fun I => I.1.length) hIe
          simp only [length_append, hIlen] at this
          exact length_eq_zero_iff.mp (by omega)
        subst hr0
        rw [lookup_branch_nil] at hr
        rw [hIe, hr]
        rfl
      · rename_i hno
        cases w with
        | none => rfl
        | some v => exact absurd ⟨_, h.mem (r := []) (v := v) rfl, by simp⟩ hno
    rw [compose, dif_neg (h.not_single hc), dif_neg (by rw [hlen]; omega), hv, item]
    congr 3
    funext x
    split
    · rename_i he
      rw [(h.filter_empty hc x).mp he]
      rfl
    · rename_i he
      have hx : cs x ≠ nil := fun hn => he ((h.filter_empty hc x).mpr hn)
      rw [← ih x (hc.2 x) hx (h.branch_child x), length_append, length_singleton]

/-- The root of a map is the hash of the canonical tree that holds it. -/
theorem trieRoot_eq (hc : t.Canonical)
    (h : t.Represents val [] J) :
    trieRoot kec J = kec (t.item val kec).encode := by
  by_cases hn : t = nil
  · subst hn
    have hJ : J = ∅ := by
      rw [Finset.eq_empty_iff_forall_notMem]
      intro I hI
      obtain ⟨r, v, hr, -⟩ := (h I).mp hI
      simp at hr
    rw [trieRoot, if_pos hJ]
    rfl
  · have hJ : J ≠ ∅ := Finset.nonempty_iff_ne_empty.mp (h.nonempty hc hn)
    rw [trieRoot, if_neg hJ]
    have := compose_eq_item kec hc hn h
    rw [length_nil] at this
    rw [this]

end Tree
end EthereumRust
