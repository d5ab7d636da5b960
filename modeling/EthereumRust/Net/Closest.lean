import EthereumRust.Lib.FirstFit
import EthereumRust.Net.Buckets
import EthereumRust.Net.Discovery

/-! # Which nodes are the closest

In a lookup a new node takes the place of the furthest one. In the answer of the table it
takes that of the first that is further away, and a close node may be lost. -/

namespace EthereumRust.Net
open Rlp Mpt List FirstFit Nat KademliaTable

/-! ## The distance -/

theorem size_xor_of_lt {x y : Nat} (h : x.size < y.size) : (x ^^^ y).size = y.size := by
  obtain ⟨n, hn⟩ := exists_eq_succ_of_ne_zero (ne_zero_of_lt h)
  have hx : x < 2 ^ n := size_le.mp (by omega)
  have hy : y < 2 ^ (n + 1) := size_le.mp hn.le
  have hbit : y.testBit n = true :=
    testBit_of_two_pow_le_and_two_pow_add_one_gt (lt_size.mp (by omega)) hy
  rw [hn]
  refine le_antisymm ?_ (lt_size.mpr (ge_two_pow_of_testBit ?_))
  · exact Nat.size_le.mpr (Nat.xor_lt_two_pow (hx.trans (Nat.pow_lt_pow_succ (by decide))) hy)
  · rw [testBit_xor, testBit_lt_two_pow hx, hbit]
    rfl

theorem size_xor_lt {x y : Nat} (h : x.size = y.size) (hpos : 0 < y.size) : (x ^^^ y).size < y.size := by
  obtain ⟨n, hn⟩ := exists_eq_succ_of_ne_zero hpos.ne'
  have hbit {z : Nat} (hz : z.size = n + 1) : z < 2 ^ (n + 1) ∧ z.testBit n = true :=
    have hlt := size_le.mp hz.le
    ⟨hlt, testBit_of_two_pow_le_and_two_pow_add_one_gt (lt_size.mp (by omega)) hlt⟩
  obtain ⟨hx, hxbit⟩ := hbit (h.trans hn)
  obtain ⟨hy, hybit⟩ := hbit hn
  rw [hn, Nat.lt_succ_iff, Nat.size_le]
  refine lt_pow_two_of_testBit _ fun i hi => ?_
  rcases hi.eq_or_lt with rfl | hi
  · rw [testBit_xor, hxbit, hybit]
    rfl
  · exact Nat.testBit_lt_two_pow ((Nat.xor_lt_two_pow hx hy).trans_le (Nat.pow_le_pow_right (by decide) hi))

theorem xor_add_mul {r s : Nat} (k x y : Nat) (hr : r < 2 ^ k) (hs : s < 2 ^ k) :
    (x * 2 ^ k + r) ^^^ (y * 2 ^ k + s) = (x ^^^ y) * 2 ^ k + (r ^^^ s) := by
  have hmod {z t : Nat} (ht : t < 2 ^ k) : (z * 2 ^ k + t) % 2 ^ k = t := by
    rw [add_comm, add_mul_mod_self_right, mod_eq_of_lt ht]
  have hdiv {z t : Nat} (ht : t < 2 ^ k) : (z * 2 ^ k + t) / 2 ^ k = z := by
    rw [Nat.add_comm, Nat.add_mul_div_right _ _ (Nat.two_pow_pos k), Nat.div_eq_of_lt ht, Nat.zero_add]
  rw [← div_add_mod ((x * 2 ^ k + r) ^^^ (y * 2 ^ k + s)) (2 ^ k), xor_mod_two_pow, xor_div_two_pow,
    hmod hr, hmod hs, hdiv hr, hdiv hs, mul_comm]

theorem beNat_zipWith_xor {as bs : ByteString} (h : as.length = bs.length) :
    beNat (zipWith (· ^^^ ·) as bs) = beNat as ^^^ beNat bs := by
  induction as generalizing bs with
  | nil => cases bs with | nil => rfl | cons => cases h
  | cons a as ih =>
    cases bs with
    | nil => cases h
    | cons b bs =>
      have hlength : as.length = bs.length := Nat.succ.inj h
      have hpow : 256 ^ bs.length = 2 ^ (8 * bs.length) := by rw [Nat.pow_mul]
      have has : beNat as < 2 ^ (8 * bs.length) := hpow ▸ hlength ▸ beNat_lt as
      have hbs : beNat bs < 2 ^ (8 * bs.length) := hpow ▸ beNat_lt bs
      rw [zipWith_cons_cons, beNat_cons, beNat_cons, beNat_cons, length_zipWith, hlength,
        min_self, hpow, ih hlength,
        xor_add_mul _ _ _ has hbs, UInt8.toNat_xor]

section

variable [Keccak256]

def distanceTo (target : H512) (node : Node) : Nat := bucketNumber target node.nodeId

/-- Of three nodes the two largest distances are the same. -/
theorem bucketNumber_cases (target node base : H512) :
    if bucketNumber node base = bucketNumber target base
    then bucketNumber target node < bucketNumber target base ∨ bucketNumber target node = 0 ∧
      bucketNumber target base = 0
    else bucketNumber target node = max (bucketNumber node base) (bucketNumber target base) := by
  have hdigest (a b : H512) : bucketNumber a b = (beNat (digest a.1).1 ^^^ beNat (digest b.1).1).size - 1 := by
    rw [bucketNumber, beNat_zipWith_xor ((digest a.1).2.trans (digest b.1).2.symm)]
  rw [hdigest, hdigest, hdigest]
  generalize beNat (digest target.1).1 = t
  generalize beNat (digest node.1).1 = n
  generalize beNat (digest base.1).1 = b
  have hxor : t ^^^ n = (n ^^^ b) ^^^ (t ^^^ b) := by
    rw [Nat.xor_comm t b, Nat.xor_assoc, ← Nat.xor_assoc b, Nat.xor_self, Nat.zero_xor, Nat.xor_comm]
  rw [hxor]
  generalize n ^^^ b = y
  generalize t ^^^ b = x
  rcases lt_trichotomy y.size x.size with hlt | heq | hlt
  · rw [size_xor_of_lt hlt]
    split_ifs <;> omega
  · rw [if_pos (by rw [heq])]
    rcases Nat.eq_zero_or_pos x.size with hzero | hpos
    · rw [size_eq_zero.mp hzero, size_eq_zero.mp (heq.trans hzero)]
      exact .inr ⟨rfl, rfl⟩
    · have := size_xor_lt heq hpos
      omega
  · rw [Nat.xor_comm, size_xor_of_lt hlt]
    split_ifs <;> omega

/-! ## The nodes to ask -/

section

variable {nodes : List Node}

def furthestFrom (target : H512) (distance : Nat) (nodes : List Node) : Option Nat × Nat :=
  nodes.zipIdx.foldl (fun (idxToReplace, highestDistance) (peer, i) =>
    let currentDistance := bucketNumber peer.nodeId target
    if distance < currentDistance ∧ highestDistance ≤ currentDistance then (some i, currentDistance)
    else (idxToReplace, highestDistance)) ((none : Option Nat), 0)

/-- It ends with the furthest node, if that is further away than the new one. -/
theorem furthestFrom_spec (target : H512) (distance : Nat) (nodes : List Node) :
    (furthestFrom target distance nodes = (none, 0) ∧ ∀ peer ∈ nodes, distanceTo target peer ≤ distance) ∨
    ∃ i peer, furthestFrom target distance nodes = (some i, distanceTo target peer) ∧ nodes[i]? = some peer ∧
      distance < distanceTo target peer ∧ ∀ other ∈ nodes, distanceTo target other ≤ distanceTo target peer := by
  induction nodes using List.reverseRecOn with
  | nil => exact .inl ⟨rfl, by simp⟩
  | append_singleton nodes last ih =>
    have hstep : furthestFrom target distance (nodes ++ [last]) =
        if distance < distanceTo target last ∧ (furthestFrom target distance nodes).2 ≤ distanceTo target last
        then (some nodes.length, distanceTo target last) else furthestFrom target distance nodes := by
      rw [furthestFrom, zipIdx_append, distanceTo, bucketNumber_comm target]
      simp [furthestFrom]
    rw [hstep]
    split_ifs with hlast
    · refine .inr ⟨nodes.length, last, rfl, by simp, hlast.1, fun other hother => ?_⟩
      rcases mem_append.mp hother with hother | hother
      · rcases ih with ⟨-, hnear⟩ | ⟨i, peer, heq, -, -, hfurthest⟩
        · exact (hnear other hother).trans hlast.1.le
        · rw [heq] at hlast
          exact (hfurthest other hother).trans hlast.2
      · rw [mem_singleton.mp hother]
    · rcases ih with ⟨heq, hnear⟩ | ⟨i, peer, heq, hi, hlt, hfurthest⟩
      · rw [heq] at hlast
        refine .inl ⟨heq, fun peer hpeer => ?_⟩
        rcases mem_append.mp hpeer with hpeer | hpeer
        · exact hnear peer hpeer
        · rw [mem_singleton.mp hpeer]
          exact Nat.le_of_not_lt fun h => hlast ⟨h, Nat.zero_le _⟩
      · refine .inr ⟨i, peer, heq, ?_, hlt, fun other hother => ?_⟩
        · rw [List.getElem?_append_left (List.getElem?_eq_some_iff.mp hi).1, hi]
        · rcases mem_append.mp hother with hother | hother
          · exact hfurthest other hother
          · rw [mem_singleton.mp hother]
            rw [heq] at hlast
            by_contra hfar
            exact hlast ⟨by omega, by omega⟩

def putAt (nodes : List Node) (node : Node) : Option Nat → List Node
  | some idx => nodes.set idx node
  | none => nodes

/-- What a push does to the list. -/
theorem step_peersToAskPush (nodes : List Node) (target : H512) (node : Node) :
    Smallest.Step (distanceTo target) MAX_NODES_PER_BUCKET nodes node (peersToAskPush nodes target node) := by
  have hpush : peersToAskPush nodes target node =
      if nodes.length < MAX_NODES_PER_BUCKET then nodes ++ [node]
      else putAt nodes node (furthestFrom target (distanceTo target node) nodes).1 := rfl
  rw [hpush]
  split_ifs with hroom
  · exact .room hroom
  · have hfull := Nat.le_of_not_lt hroom
    rcases furthestFrom_spec target (distanceTo target node) nodes with
      ⟨heq, hnear⟩ | ⟨i, peer, heq, hi, hlt, hfurthest⟩
    · rw [heq]
      exact .skip hfull hnear
    · rw [heq]
      exact .replace hfull hi hlt hfurthest

theorem smallest_foldl {all left} (pushed : List Node)
    (h : Smallest (distanceTo target) MAX_NODES_PER_BUCKET all nodes left) :
    ∃ left', Smallest (distanceTo target) MAX_NODES_PER_BUCKET (all + pushed)
      (pushed.foldl (fun nodes node => peersToAskPush nodes target node) nodes : List Node) left' := by
  induction pushed generalizing nodes all left with
  | nil => exact ⟨left, by rwa [Multiset.coe_nil, add_zero]⟩
  | cons node pushed ih =>
    obtain ⟨left', hpush⟩ := h.step (step_peersToAskPush nodes target node)
    obtain ⟨final, hfinal⟩ := ih hpush
    exact ⟨final, by rwa [← Multiset.cons_coe, Multiset.add_cons, ← Multiset.cons_add]⟩

/-- After any pushes the list has sixteen nodes, or all of them, with the smallest distances of those it was started
with and those pushed. -/
theorem peersToAsk_smallest (target : H512) (start pushed : List Node) (h : start.length ≤ 16) :
    let nodes := pushed.foldl (fun nodes node => peersToAskPush nodes target node) start
    nodes.length = min 16 (start ++ pushed).length ∧
    (nodes.map (distanceTo target) : Multiset Nat) =
      (((start ++ pushed).map (distanceTo target) : Multiset Nat).sort.take 16 : List Nat) := by
  have hstart : Smallest (distanceTo target) MAX_NODES_PER_BUCKET start start 0 := Smallest.refl _ h
  obtain ⟨left, hfinal⟩ := smallest_foldl pushed hstart
  rw [Multiset.coe_add] at hfinal
  exact ⟨hfinal.card, hfinal.map_eq⟩

end

/-! ## The answers of the table -/

namespace KademliaTable

def nodes (self : KademliaTable) : List Node := (self.buckets.toList.flatMap Bucket.peers).map PeerData.node

theorem replaceFurther_map (target : H512) (node : Node) (kept : List Node) :
    replaceFurther (node, distanceTo target node) (kept.map fun other => (other, distanceTo target other)) =
      (replaceFirst (distanceTo target) node kept).map fun other => (other, distanceTo target other) := by
  induction kept with
  | nil => rfl
  | cons other kept ih =>
    rw [map_cons, replaceFurther, replaceFirst, ih]
    split_ifs <;> rfl

theorem getClosestNodes_eq (table : KademliaTable) (target : H512) :
    table.getClosestNodes target = table.nodes.foldl (keep (distanceTo target) 16) [] := by
  have hfold : table.getClosestNodes target =
      ((table.nodes.foldl (keep (distanceTo target) 16) []).map fun node =>
        (node, distanceTo target node)).map Prod.fst := by
    rw [nodes, foldl_map, ← foldl_hom (map fun node => (node, distanceTo target node))]
    · rfl
    · intro kept peer
      change (if _ < 16 then _ ++ [(peer.node, distanceTo target peer.node)]
        else replaceFurther (peer.node, distanceTo target peer.node) _) = _
      rw [replaceFurther_map, length_map, keep, apply_ite (map _), map_append, map_singleton]
      rfl
  rw [hfold, map_map]
  exact map_id _

variable {table : KademliaTable}

omit [Keccak256] in
theorem getElem_buckets (i : Nat) (hi : i < table.buckets.toList.length) : ∃ idx : Fin NUMBER_OF_BUCKETS, idx.1 = i ∧
    table.buckets.toList[i] = table.buckets.get idx :=
  ⟨⟨i, by simpa using hi⟩, rfl, Vector.getElem_toList _⟩

theorem WellFormed.nodup_nodes (h : table.WellFormed) : (table.nodes.map Node.nodeId).Nodup := by
  have hids : table.nodes.map Node.nodeId =
      table.buckets.toList.flatMap fun bucket => bucket.peers.map (·.node.nodeId) := by
    rw [nodes, map_map, map_flatMap]
    rfl
  have hplaced : ∀ idx, ∀ id ∈ (table.buckets.get idx).peers.map (·.node.nodeId),
      bucketNumber id table.localNodeId = idx.1 := fun idx id hid =>
    (h idx).placed id (mem_append_left _ hid)
  rw [hids, nodup_flatMap]
  constructor
  · intro bucket hbucket
    obtain ⟨i, hi, rfl⟩ := getElem_of_mem hbucket
    obtain ⟨idx, -, hidx⟩ := getElem_buckets i hi
    rw [hidx]
    exact (h idx).nodup.sublist (sublist_append_left _ _)
  · refine pairwise_iff_getElem.mpr fun i j hi hj hlt id hid hid' => ?_
    obtain ⟨idx, rfl, hidx⟩ := getElem_buckets i hi
    obtain ⟨idx', rfl, hidx'⟩ := getElem_buckets j hj
    exact hlt.ne ((hplaced idx id hid).symm.trans (hplaced idx' id hid'))

theorem WellFormed.nodup_getClosestNodes (h : table.WellFormed) (target : H512) :
    ((table.getClosestNodes target).map Node.nodeId).Nodup := by
  obtain ⟨⟨left, hsplit⟩, -⟩ := @foldl_keep _ _ _ 16 [] (distanceTo target) table.nodes (zero_le _)
  have hall : (Multiset.map Node.nodeId (table.nodes : Multiset Node)).Nodup := h.nodup_nodes
  rw [Multiset.coe_nil, Multiset.zero_add, ← getClosestNodes_eq] at hsplit
  rw [hsplit, Multiset.map_add] at hall
  exact (Multiset.nodup_add.mp hall).1

def bucketNodes (self : KademliaTable) (start stop : Nat) : List Node :=
  (((self.buckets.toList.take stop).drop start).flatMap Bucket.peers).map PeerData.node

/-- The nodes of the bucket of the target that are visited after the first sixteen of the table. -/
def lateNodes (self : KademliaTable) (target : H512) : List Node :=
  let bucket := bucketNumber target self.localNodeId
  (self.bucketNodes bucket (bucket + 1)).drop (16 - (self.bucketNodes 0 bucket).length)

omit [Keccak256] in
theorem bucketNodes_append (table : KademliaTable) (hstart : start ≤ middle) (hstop : middle ≤ stop)
    (hmiddle : middle ≤ NUMBER_OF_BUCKETS) :
    table.bucketNodes start stop = table.bucketNodes start middle ++ table.bucketNodes middle stop := by
  have hlength : (table.buckets.toList.take middle).length = middle := by
    rw [length_take, Vector.length_toList]
    omega
  have hsplit : (table.buckets.toList.take stop).drop start =
      (table.buckets.toList.take middle).drop start ++ (table.buckets.toList.take stop).drop middle := by
    rw [← drop_append_of_le_length (hstart.trans_eq hlength.symm)]
    congr 1
    rw [← take_append_drop middle (table.buckets.toList.take stop), take_take,
      min_eq_left hstop, drop_left' hlength]
  rw [bucketNodes, hsplit, flatMap_append, map_append]
  rfl

omit [Keccak256] in
theorem nodes_eq_bucketNodes (table : KademliaTable) : table.nodes = table.bucketNodes 0 NUMBER_OF_BUCKETS := by
  rw [bucketNodes, drop_zero, take_of_length_le (Vector.length_toList).le]
  rfl

/-- The nodes are visited in the order of their distances to the local node. -/
theorem WellFormed.mem_bucketNodes (h : table.WellFormed) (hnode : node ∈ table.bucketNodes start stop) :
    start ≤ bucketNumber node.nodeId table.localNodeId ∧ bucketNumber node.nodeId table.localNodeId < stop := by
  obtain ⟨peer, hpeer, rfl⟩ := mem_map.mp hnode
  obtain ⟨bucket, hbucket, hpeer⟩ := mem_flatMap.mp hpeer
  obtain ⟨i, hi, rfl⟩ := getElem_of_mem hbucket
  rw [length_drop, length_take] at hi
  rw [getElem_drop, getElem_take] at hpeer
  obtain ⟨idx, hidx, heq⟩ := @getElem_buckets table (start + i) (by omega)
  rw [heq] at hpeer
  rw [(h idx).placed peer.node.nodeId (mem_append_left _ (mem_map_of_mem hpeer)), hidx]
  omega

theorem WellFormed.ordered_bucketNodes (h : table.WellFormed) (hstart : start ≤ stop)
    (hstop : stop ≤ NUMBER_OF_BUCKETS) :
    (table.bucketNodes start stop).Pairwise
      fun a b => bucketNumber a.nodeId table.localNodeId ≤ bucketNumber b.nodeId table.localNodeId := by
  induction stop, hstart using le_induction with
  | base =>
    rw [bucketNodes, drop_eq_nil_of_le (length_take_le _ _)]
    exact .nil
  | succ stop hle ih =>
    rw [bucketNodes_append table hle (le_succ stop) (by omega), pairwise_append]
    refine ⟨ih (by omega), pairwise_of_forall_mem_list fun a ha b hb => ?_, fun a ha b hb => ?_⟩
    · have ha := h.mem_bucketNodes ha
      have hb := h.mem_bucketNodes hb
      omega
    · have ha := h.mem_bucketNodes ha
      have hb := h.mem_bucketNodes hb
      omega

theorem WellFormed.length_bucketNodes (h : table.WellFormed) (idx : Fin NUMBER_OF_BUCKETS) :
    (table.bucketNodes idx.1 (idx.1 + 1)).length ≤ MAX_NODES_PER_BUCKET := by
  have hlt : idx.1 < table.buckets.toList.length := by
    rw [Vector.length_toList]
    exact idx.2
  have hone : (table.buckets.toList.take (idx.1 + 1)).drop idx.1 = [table.buckets.get idx] := by
    rw [drop_take, drop_eq_getElem_cons hlt, Nat.add_sub_cancel_left, take_succ_cons, take_zero]
    exact congrArg ([·]) (Vector.getElem_toList _)
  rw [bucketNodes, hone, flatMap_singleton, length_map]
  exact (h idx).peers

/-- The answer of the table consists of the closest nodes exactly if those nodes of the target's bucket that are visited
after the first sixteen come in the order of their distances to the target. -/
theorem getClosestNodes_smallest_iff (table : KademliaTable) (hwell : table.WellFormed) (target : H512) :
    ((table.getClosestNodes target).map Node.nodeId).Nodup ∧
      (∃ left, Smallest (distanceTo target) 16 table.nodes (table.getClosestNodes target) left) ↔
    (table.lateNodes target).Pairwise fun a b => distanceTo target a ≤ distanceTo target b := by
  obtain ⟨bucket, hbucket⟩ : ∃ bucket, bucketNumber target table.localNodeId = bucket := ⟨_, rfl⟩
  have hlt : bucket < NUMBER_OF_BUCKETS := hbucket ▸ bucketNumber_lt _ _
  have hnodes : table.nodes = table.bucketNodes 0 bucket ++
      (table.bucketNodes bucket (bucket + 1) ++ table.bucketNodes (bucket + 1) NUMBER_OF_BUCKETS) := by
    rw [nodes_eq_bucketNodes, bucketNodes_append table (zero_le bucket) hlt.le hlt.le,
      bucketNodes_append table (le_succ bucket) hlt hlt]
  have hdistance (node : Node) := bucketNumber_cases target node.nodeId table.localNodeId
  rw [hbucket] at hdistance
  have hbelow : ∀ node ∈ table.bucketNodes 0 bucket, distanceTo target node = bucket := by
    intro node hnode
    have hnumber := hwell.mem_bucketNodes hnode
    have hnode := hdistance node
    rw [if_neg hnumber.2.ne] at hnode
    exact hnode.trans (max_eq_right hnumber.2.le)
  have hbeside : ∀ node ∈ table.bucketNodes bucket (bucket + 1),
      distanceTo target node < bucket ∨ distanceTo target node = 0 ∧ bucket = 0 := by
    intro node hnode
    have hnumber := hwell.mem_bucketNodes hnode
    have hnode := hdistance node
    rwa [if_pos (by omega)] at hnode
  have habove : ∀ node ∈ table.bucketNodes (bucket + 1) NUMBER_OF_BUCKETS,
      distanceTo target node = bucketNumber node.nodeId table.localNodeId ∧ bucket ≤ distanceTo target node := by
    intro node hnode
    have hnumber := hwell.mem_bucketNodes hnode
    have hsame : distanceTo target node = bucketNumber node.nodeId table.localNodeId := by
      have hnode := hdistance node
      rw [if_neg (by omega), max_eq_left (by omega)] at hnode
      exact hnode
    exact ⟨hsame, by omega⟩
  have hordered : (table.bucketNodes (bucket + 1) NUMBER_OF_BUCKETS).Pairwise
      fun a b => distanceTo target a ≤ distanceTo target b := by
    refine (hwell.ordered_bucketNodes hlt le_rfl).imp_of_mem fun ha hb hle => ?_
    rwa [(habove _ ha).1, (habove _ hb).1]
  have hsize : (table.bucketNodes bucket (bucket + 1)).length ≤ 16 := hwell.length_bucketNodes ⟨bucket, hlt⟩
  rw [and_iff_right (hwell.nodup_getClosestNodes target), getClosestNodes_eq, hnodes, lateNodes, hbucket]
  rcases Nat.eq_zero_or_pos bucket with rfl | hpos
  · -- nothing comes before the bucket, which is not too large
    have hnone : table.bucketNodes 0 0 = [] := rfl
    have hbesides : ∀ node ∈ table.bucketNodes 0 (0 + 1), distanceTo target node = 0 := fun node hnode =>
      ((hbeside node hnode).resolve_left (not_lt_zero _)).1
    have hiff := @smallest_iff _ _ _ (distanceTo target) 16 0 _ [] _ hbesides (by simp)
      (fun _ _ => zero_le _) hordered
      (zero_le _)
    rw [nil_append, drop_nil] at hiff
    rw [hnone, nil_append, hiff, length_nil, Nat.sub_zero, drop_eq_nil_of_le hsize]
  · exact smallest_iff hbelow (fun node hnode => (hbeside node hnode).resolve_right fun hzero => hpos.ne' hzero.2)
      (fun node hnode => (habove node hnode).2) hordered hsize

end KademliaTable
end

/-! ## Tables where ids are their own hashes -/

@[reducible] def Keccak256.firstBytes : Keccak256 where
  digest b := ⟨beBytes 32 (beNat (b.take 32)), length_beBytes _ _⟩

def nodeAt (n : Nat) : Node := ⟨.localhost, 30303, 30303, ⟨beBytes 64 (n * 2 ^ 256), length_beBytes _ _⟩⟩

def tableOf [Keccak256] (ids : List Nat) : KademliaTable :=
  (ids.map fun n => KademliaTable.Operation.insertNode (nodeAt n) 0).foldl KademliaTable.apply
    (KademliaTable.new (nodeAt 0).nodeId)

theorem wellFormed_tableOf [Keccak256] (ids : List Nat) : (tableOf ids).WellFormed :=
  (wellFormed_foldl (wellFormed_new _) _).1

/-- The last node takes the place of one that is further away. -/
theorem peersToAsk_smallest_nodeAt :
    letI := Keccak256.firstBytes
    let target := (nodeAt 0).nodeId
    let start := (List.range 16).map (nodeAt <| 4096 + ·)
    let nodes := [nodeAt 3].foldl (fun nodes node => peersToAskPush nodes target node) start
    start.length ≤ 16 ∧ nodeAt 3 ∈ nodes ∧ nodes.length = min 16 (start ++ [nodeAt 3]).length ∧
    (nodes.map (distanceTo target) : Multiset Nat) =
      (((start ++ [nodeAt 3]).map (distanceTo target) : Multiset Nat).sort.take 16 : List Nat) := by
  let := Keccak256.firstBytes
  exact ⟨by decide, by decide +kernel,
    peersToAsk_smallest (nodeAt 0).nodeId ((List.range 16).map (nodeAt <| 4096 + ·)) [nodeAt 3] (by decide)⟩

/-- Two nodes far away make room for the last two of the furthest bucket. -/
theorem getClosestNodes_smallest_iff_tableOf :
    letI := Keccak256.firstBytes
    let table := tableOf ([1, 2] ++ (List.range 14).map (2 ^ 255 + 4096 + ·) ++ [2 ^ 255 + 32, 2 ^ 255 + 1024])
    let target := (nodeAt (2 ^ 255)).nodeId
    table.WellFormed ∧ table.nodes.length = 18 ∧ nodeAt (2 ^ 255 + 1024) ∈ table.getClosestNodes target ∧
    ((table.getClosestNodes target).map Node.nodeId).Nodup ∧
      ∃ left, Smallest (distanceTo target) 16 table.nodes (table.getClosestNodes target) left := by
  let := Keccak256.firstBytes
  refine ⟨wellFormed_tableOf _, by decide +kernel, by decide +kernel,
    (getClosestNodes_smallest_iff _ (wellFormed_tableOf _) _).mpr ?_⟩
  decide +kernel

/-- Two nodes far away and sixteen in the furthest bucket. The last one takes the place of one at distance 10, while one
at distance 255 stays. -/
theorem getClosestNodes_loses_closer_node :
    letI := Keccak256.firstBytes
    let table := tableOf ([1, 2] ++ (List.range 14).map (2 ^ 255 + 4096 + ·) ++ [2 ^ 255 + 1024, 2 ^ 255 + 32])
    let target := (nodeAt (2 ^ 255)).nodeId
    table.WellFormed ∧
    nodeAt 2 ∈ table.getClosestNodes target ∧ distanceTo target (nodeAt 2) = 255 ∧
    nodeAt (2 ^ 255 + 1024) ∈ table.nodes ∧ nodeAt (2 ^ 255 + 1024) ∉ table.getClosestNodes target ∧
    distanceTo target (nodeAt (2 ^ 255 + 1024)) = 10 := by
  let := Keccak256.firstBytes
  exact ⟨wellFormed_tableOf _, by decide +kernel⟩

end EthereumRust.Net
