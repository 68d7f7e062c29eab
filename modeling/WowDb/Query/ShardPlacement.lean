import WowDb.Lib.RoundRobin
import WowDb.Query.ShardMap

/-!
# Placement of buckets

`query-node/src/planner/shard_placement.rs`: which nodes get the replicas of a bucket.
-/
namespace WowDb.Query.ShardPlacement
open WowDb.Lib List

def assignBuckets (nodes : ClusterTopology) (order : HashIteration String NodeInfo)
    (bucketCount replicaCount : Nat) : Except String (List (List String)) :=
  let activeSns := nodes.eligibleStorageNodes order
  if activeSns.isEmpty then .error "No Active SNs for bucket assignment"
  else
    let sorted := activeSns.insertionSort fun a b => a.nodeId ≤ b.nodeId
    .ok ((List.range bucketCount).map fun i =>
      (List.range (min replicaCount sorted.length)).filterMap fun r =>
        (sorted[(i + r) % sorted.length]?).map NodeInfo.nodeId)

theorem rounds_one (xs : List String) (start : Nat) :
    rounds xs start 1 = (xs[start % xs.length]?).toList := by
  cases found : xs[start % xs.length]? <;> simp [rounds, found]

theorem flatMap_rounds_one (xs : List String) (b m : Nat) :
    ((List.range b).flatMap fun i => rounds xs (i + m) 1) = rounds xs m b := by
  rw [rounds, filterMap_eq_flatMap_toList]
  simp only [rounds_one, Nat.add_comm]

theorem count_replicas {xs : List String} (distinct : xs.Nodup) {x : String} (mem : x ∈ xs)
    (b m : Nat) :
    m * (b / xs.length) ≤ ((List.range b).flatMap fun i => rounds xs i m).count x ∧
      ((List.range b).flatMap fun i => rounds xs i m).count x ≤ m * (b / xs.length) + m := by
  induction m with
  | zero => simp [rounds, count_eq_zero]
  | succ m ih =>
    have split : ((range b).flatMap fun i => rounds xs i (m + 1)).count x =
        ((range b).flatMap fun i => rounds xs i m).count x + (rounds xs m b).count x := by
      rw [← count_append, ← flatMap_rounds_one xs b m]
      simp only [rounds_add]
      exact (flatMap_append_perm _ _ _).symm.count_eq x
    have turn := count_rounds_ge distinct mem m b
    rw [split, Nat.succ_mul]
    omega

/-- Distinct eligible nodes, evenly up to one. -/
theorem assignBuckets_even (nodes : ClusterTopology) (order : HashIteration String NodeInfo)
    (bucketCount replicaCount : Nat) (active : nodes.eligibleStorageNodes order ≠ [])
    (distinct : ((nodes.eligibleStorageNodes order).map NodeInfo.nodeId).Nodup) :
    let eligible := nodes.eligibleStorageNodes order
    ∃ lists, assignBuckets nodes order bucketCount replicaCount = .ok lists ∧
      lists.length = bucketCount ∧
      (∀ replicas ∈ lists, replicas.length = min replicaCount eligible.length ∧ replicas.Nodup ∧
        ∀ id ∈ replicas, ∃ sn ∈ eligible, sn.nodeId = id) ∧
      ∀ a ∈ eligible, ∀ b ∈ eligible,
        (1 ≤ replicaCount → (lists.filterMap List.head?).count a.nodeId ≤
          (lists.filterMap List.head?).count b.nodeId + 1) ∧
        lists.flatten.count a.nodeId ≤
          lists.flatten.count b.nodeId + min replicaCount eligible.length := by
  intro eligible
  let ids := (eligible.insertionSort fun a b => a.nodeId ≤ b.nodeId).map NodeInfo.nodeId
  have perm : ids.Perm (eligible.map NodeInfo.nodeId) := (perm_insertionSort _ _).map _
  have size : ids.length = eligible.length := by rw [perm.length_eq, length_map]
  have nodup : ids.Nodup := perm.nodup_iff.mpr distinct
  have known : ∀ sn ∈ eligible, sn.nodeId ∈ ids := fun sn mem =>
    perm.mem_iff.mpr (mem_map_of_mem mem)
  have nonempty : ids ≠ [] := fun none => active (by simpa [size] using congrArg length none)
  let m := min replicaCount eligible.length
  refine ⟨(range bucketCount).map fun i => rounds ids i m, ?_, by simp, ?_, ?_⟩
  · rw [assignBuckets, if_neg (by simpa using active)]
    simp [rounds, ids, m, eligible]
  · intro replicas mem
    obtain ⟨i, -, rfl⟩ := mem_map.mp mem
    refine ⟨length_rounds nonempty i m, nodup_rounds nodup (by omega) i, fun id here => ?_⟩
    exact mem_map.mp (perm.mem_iff.mp (mem_of_mem_rounds here))
  · intro a inA b inB
    refine ⟨fun positive => ?_, ?_⟩
    · have heads : ((range bucketCount).map fun i => rounds ids i m).filterMap head? =
          rounds ids 0 bucketCount := by
        rw [filterMap_map]
        refine filterMap_congr fun i _ => ?_
        have first : m = 1 + (m - 1) := by
          have some := length_pos_iff.mpr nonempty
          omega
        rw [Function.comp_apply, first, rounds_add, rounds_one, Nat.zero_add,
          getElem?_eq_getElem (Nat.mod_lt _ (length_pos_iff.mpr nonempty))]
        rfl
      have shareA := count_rounds_ge nodup (known a inA) 0 bucketCount
      have shareB := count_rounds_ge nodup (known b inB) 0 bucketCount
      rw [heads]
      omega
    · have shareA := count_replicas nodup (known a inA) bucketCount m
      have shareB := count_replicas nodup (known b inB) bucketCount m
      rw [← flatMap_def]
      omega

theorem assignBuckets_three_nodes :
    let nodes : ClusterTopology := .ofList (["a", "b", "c"].map fun id =>
      (id, NodeInfo.new id .storageNode ""))
    ∃ lists, assignBuckets nodes .ascending 5 2 = .ok lists ∧ lists.length = 5 ∧
      lists = [["a", "b"], ["b", "c"], ["c", "a"], ["a", "b"], ["b", "c"]] := by
  intro nodes
  obtain ⟨lists, assigned, one, -⟩ := assignBuckets_even nodes .ascending 5 2 (by decide +kernel)
    (by decide +kernel)
  refine ⟨lists, assigned, one, ?_⟩
  have evaluated : assignBuckets nodes .ascending 5 2 =
      .ok [["a", "b"], ["b", "c"], ["c", "a"], ["a", "b"], ["b", "c"]] := by decide +kernel
  exact Except.ok.inj (assigned.symm.trans evaluated)

end WowDb.Query.ShardPlacement
