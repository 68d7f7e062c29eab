import WowDb.Query.ShardMap

/-!
# Fragments of a physical plan

`query-node/src/planner/physical.rs`: one fragment for each node that a shard is found on.
-/
namespace WowDb.Query.Planner
open WowDb.Lib List

structure ShardScanSpec (ι σ θ : Type) where
  shardId : ι
  snEndpoint : σ
  shardDir : String
  columns : List String
  predicates : List θ

structure Fragment (ι σ θ π : Type) where
  fragmentId : String
  plan : π
  assignedCn : Option String
  dependsOn : List String
  shardScans : List (ShardScanSpec ι σ θ)

structure PhysicalPlanner (σ : Type) where
  computeNodes : List String
  cnIdx : Nat
  cnColocatedSns : OrdMap String (List σ)
  cnLoad : OrdMap String Nat

namespace PhysicalPlanner

variable {ι σ θ π : Type} [DecidableEq σ]

def nextCn (p : PhysicalPlanner σ) : PhysicalPlanner σ × Option String :=
  if p.computeNodes.isEmpty then (p, none)
  else ({ p with cnIdx := p.cnIdx + 1 }, p.computeNodes[p.cnIdx % p.computeNodes.length]?)

def leastLoadedCn (p : PhysicalPlanner σ) : Option String :=
  p.computeNodes.foldl
    (fun best cn => match best with
      | none => some cn
      | some b => if (p.cnLoad.get? cn).getD 0 < (p.cnLoad.get? b).getD 0 then some cn else some b)
    none

def cnColocatedWith (order : HashIteration String (List σ)) (p : PhysicalPlanner σ)
    (snEndpoint : σ) : Option String :=
  ((order.iterate p.cnColocatedSns).find? fun e => e.2.contains snEndpoint).map Prod.fst

def incrementCnLoad (p : PhysicalPlanner σ) (cn : String) : PhysicalPlanner σ :=
  { p with cnLoad := p.cnLoad.upsert cn 0 (· + 1) }

def buildFragments (p : PhysicalPlanner σ) (plan : π) (fragmentId : String) :
    PhysicalPlanner σ × List (Fragment ι σ θ π) :=
  let (p, cn) := p.nextCn
  (match cn with
    | some cn => p.incrementCnLoad cn
    | none => p, [⟨fragmentId, plan, cn, [], []⟩])

def assignCn (order : HashIteration String (List σ)) (p : PhysicalPlanner σ) (snEndpoint : σ) :
    PhysicalPlanner σ × Option String :=
  match p.cnColocatedWith order snEndpoint with
  | some cn => (p, some cn)
  | none =>
    match p.leastLoadedCn with
    | some cn => (p, some cn)
    | none => p.nextCn

def routeShard (order : HashIteration String (List σ)) (lookup : ι → Except String (σ × String))
    (columns : List String) (predicates : List θ)
    (s : PhysicalPlanner σ × OrdMap String (List (ShardScanSpec ι σ θ))) (shardId : ι) :
    PhysicalPlanner σ × OrdMap String (List (ShardScanSpec ι σ θ)) :=
  match lookup shardId with
  | .error _ => s
  | .ok (snEndpoint, shardDir) =>
    match s.1.assignCn order snEndpoint with
    | (p, none) => (p, s.2)
    | (p, some cn) => (p, s.2.push cn ⟨shardId, snEndpoint, shardDir, columns, predicates⟩)

def buildShardFragments (order : HashIteration String (List σ))
    (orderCns : HashIteration String (List (ShardScanSpec ι σ θ))) (fragmentId : String → String)
    (lookup : ι → Except String (σ × String)) (p : PhysicalPlanner σ) (plan : π)
    (shardIds : List ι) (columns : List String) (predicates : List θ) :
    PhysicalPlanner σ × List (Fragment ι σ θ π) :=
  if shardIds.isEmpty then p.buildFragments plan (fragmentId "")
  else
    let (p, cnShards) := shardIds.foldl (routeShard order lookup columns predicates) (p, .empty)
    let fragments := (orderCns.iterate cnShards).map fun e =>
      (⟨fragmentId e.1, plan, some e.1, [], e.2⟩ : Fragment ι σ θ π)
    if fragments.isEmpty then p.buildFragments plan (fragmentId "")
    else ((orderCns.iterate cnShards).foldl (fun p e => p.incrementCnLoad e.1) p, fragments)

/-- The shards that the fragments scan. -/
def scanned (fragments : List (Fragment ι σ θ π)) : List ι :=
  fragments.flatMap fun f => f.shardScans.map ShardScanSpec.shardId

variable (order : HashIteration String (List σ)) (lookup : ι → Except String (σ × String))

/-- The lookup succeeds, and there is a compute node for the shard. -/
def Reachable (p : PhysicalPlanner σ) (shardId : ι) : Prop :=
  ∃ snEndpoint shardDir, lookup shardId = .ok (snEndpoint, shardDir) ∧
    (p.computeNodes ≠ [] ∨ ∃ cn sns, p.cnColocatedSns.get? cn = some sns ∧ snEndpoint ∈ sns)

omit [DecidableEq σ] in
theorem leastLoadedCn_isSome (p : PhysicalPlanner σ) :
    p.leastLoadedCn.isSome = true ↔ p.computeNodes ≠ [] := by
  have kept : ∀ (cns : List String) (b : String), (cns.foldl (fun best cn => match best with
      | none => some cn
      | some b => if (p.cnLoad.get? cn).getD 0 < (p.cnLoad.get? b).getD 0 then some cn else some b)
      (some b)).isSome = true := by
    intro cns
    induction cns with
    | nil => intro b; rfl
    | cons cn rest ih =>
      intro b
      rw [foldl_cons]
      dsimp only
      split <;> exact ih _
  unfold leastLoadedCn
  cases p.computeNodes with
  | nil => simp
  | cons cn rest => exact iff_of_true (kept rest cn) nofun

theorem cnColocatedWith_isSome (p : PhysicalPlanner σ) (snEndpoint : σ) :
    (p.cnColocatedWith order snEndpoint).isSome = true ↔
      ∃ cn sns, p.cnColocatedSns.get? cn = some sns ∧ snEndpoint ∈ sns := by
  rw [cnColocatedWith, Option.isSome_map, find?_isSome]
  simp only [Prod.exists, order.mem_iterate, contains_iff_mem]

theorem assignCn_spec (p : PhysicalPlanner σ) (snEndpoint : σ) :
    (p.assignCn order snEndpoint).1 = p ∧ ((p.assignCn order snEndpoint).2.isSome = true ↔
      p.computeNodes ≠ [] ∨ ∃ cn sns, p.cnColocatedSns.get? cn = some sns ∧ snEndpoint ∈ sns) := by
  rw [← leastLoadedCn_isSome, ← cnColocatedWith_isSome order, assignCn]
  cases p.cnColocatedWith order snEndpoint with
  | some cn => simp
  | none =>
    cases least : p.leastLoadedCn with
    | some cn => simp
    | none =>
      have empty : p.computeNodes = [] := by
        by_contra some
        have chosen := (leastLoadedCn_isSome p).mpr some
        rw [least] at chosen
        cases chosen
      simp [nextCn, empty]

def specOf (p : PhysicalPlanner σ) (columns : List String) (predicates : List θ) (shardId : ι) :
    Option (String × ShardScanSpec ι σ θ) :=
  match lookup shardId with
  | .error _ => none
  | .ok (snEndpoint, shardDir) => (p.assignCn order snEndpoint).2.map fun cn =>
    (cn, ⟨shardId, snEndpoint, shardDir, columns, predicates⟩)

variable (p : PhysicalPlanner σ) (columns : List String) (predicates : List θ)

theorem routeShard_eq (m : OrdMap String (List (ShardScanSpec ι σ θ))) (shardId : ι) :
    routeShard order lookup columns predicates (p, m) shardId =
      (p, ((specOf order lookup p columns predicates shardId).map fun e => m.push e.1 e.2).getD m) := by
  unfold routeShard specOf
  cases lookup shardId with
  | error e => rfl
  | ok v =>
    obtain ⟨snEndpoint, shardDir⟩ := v
    have same := (assignCn_spec order p snEndpoint).1
    dsimp only
    generalize p.assignCn order snEndpoint = assigned at same
    obtain ⟨q, _ | cn⟩ := assigned
    all_goals
      obtain rfl : q = p := same
      rfl

theorem foldl_routeShard (shardIds : List ι) (m : OrdMap String (List (ShardScanSpec ι σ θ))) :
    shardIds.foldl (routeShard order lookup columns predicates) (p, m) =
      (p, (shardIds.filterMap (specOf order lookup p columns predicates)).foldl
        (fun m e => m.push e.1 e.2) m) := by
  induction shardIds generalizing m with
  | nil => rfl
  | cons shardId rest ih =>
    rw [foldl_cons, routeShard_eq, ih, filterMap_cons]
    cases specOf order lookup p columns predicates shardId <;> rfl

theorem isSome_specOf (shardId : ι) :
    (specOf order lookup p columns predicates shardId).isSome = true ↔ Reachable lookup p shardId := by
  unfold specOf Reachable
  cases lookup shardId with
  | error e => simp
  | ok v => simp [(assignCn_spec order p v.1).2, Prod.ext_iff, and_assoc]

theorem shardId_specOf (shardIds : List ι) :
    (shardIds.filterMap (specOf order lookup p columns predicates)).map (·.2.shardId) =
      shardIds.filter fun id => (specOf order lookup p columns predicates id).isSome := by
  induction shardIds with
  | nil => rfl
  | cons shardId rest ih =>
    have own : ∀ e ∈ specOf order lookup p columns predicates shardId, e.2.shardId = shardId := by
      intro e found
      unfold specOf at found
      split at found
      · cases found
      · obtain ⟨cn, -, rfl⟩ := Option.map_eq_some_iff.mp found
        rfl
    rw [filterMap_cons, filter_cons]
    cases found : specOf order lookup p columns predicates shardId with
    | none => simpa using ih
    | some e => simpa [own e found] using ih

theorem scanned_perm (orderCns : HashIteration String (List (ShardScanSpec ι σ θ)))
    (fragmentId : String → String) (plan : π) (shardIds : List ι) :
    (scanned (buildShardFragments order orderCns fragmentId lookup p plan shardIds columns
      predicates).2).Perm
    (shardIds.filter fun id => (specOf order lookup p columns predicates id).isSome) := by
  have none : ∀ q : PhysicalPlanner σ,
      scanned (q.buildFragments plan (fragmentId "") : _ × List (Fragment ι σ θ π)).2 = [] :=
    fun _ => rfl
  have grouped := OrdMap.flatMap_foldl_push_perm Prod.fst Prod.snd
    (shardIds.filterMap (specOf order lookup p columns predicates)) .empty
  rw [buildShardFragments]
  split
  · next empty => simp [none, List.isEmpty_iff.mp empty]
  · rw [foldl_routeShard]
    dsimp only
    generalize (shardIds.filterMap (specOf order lookup p columns predicates)).foldl _ _ = cnShards
      at grouped
    have all : ((orderCns.iterate cnShards).flatMap fun e => e.2.map ShardScanSpec.shardId).Perm
        (shardIds.filter fun id => (specOf order lookup p columns predicates id).isSome) := by
      rw [← shardId_specOf, ← List.map_flatMap]
      have scans := ((orderCns.iterate_perm cnShards).flatMap_right Prod.snd).trans grouped
      have named := scans.map ShardScanSpec.shardId
      rwa [OrdMap.empty, List.flatMap_nil, List.nil_append, List.map_map] at named
    split
    · next empty =>
      rw [none]
      rw [List.isEmpty_iff, List.map_eq_nil_iff] at empty
      rwa [empty] at all
    · rw [scanned, List.flatMap_map]
      exact all

/-- Every shard is scanned as asked exactly when all are found. -/
theorem fragments_cover_iff (orderCns : HashIteration String (List (ShardScanSpec ι σ θ)))
    (fragmentId : String → String) (plan : π) (shardIds : List ι) :
    (scanned (buildShardFragments order orderCns fragmentId lookup p plan shardIds columns
      predicates).2).Perm shardIds ↔ ∀ shardId ∈ shardIds, Reachable lookup p shardId := by
  have scans := scanned_perm order lookup p columns predicates orderCns fragmentId plan shardIds
  simp only [← isSome_specOf order lookup p columns predicates]
  constructor
  · intro cover
    exact length_filter_eq_length_iff.mp (scans.symm.trans cover).length_eq
  · intro reachable
    rwa [filter_eq_self.mpr reachable] at scans

theorem unknown_shard_skipped :
    let lookup : Nat → Except String (Nat × String) := fun id =>
      if id = 1 then .ok (9060, "/data/1") else .error "not found"
    let planner : PhysicalPlanner Nat := ⟨["cn-1"], 0, .empty, .empty⟩
    scanned (buildShardFragments .ascending .ascending id lookup planner () [1, 2] []
      ([] : List Unit)).2 = [1] := by
  decide +kernel

end PhysicalPlanner
end WowDb.Query.Planner
