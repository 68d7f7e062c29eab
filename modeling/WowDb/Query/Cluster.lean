import WowDb.Lib.Join
import WowDb.Lib.OrdMap
import WowDb.Lib.Run

/-!
# Cluster topology and rebalancing

`shared/src/cluster.rs` and `query-node/src/meta`: the node registry, the planner that levels the
shards over the active storage nodes, and the coordinator that carries a plan out.
-/
namespace WowDb.Query
open WowDb.Lib List

inductive NodeType where
  | queryNode
  | computeNode
  | storageNode
  deriving DecidableEq

inductive NodeState where
  | active
  | readonly
  | draining
  deriving DecidableEq

def NodeState.display : NodeState → String
  | .active => "ACTIVE"
  | .readonly => "READONLY"
  | .draining => "DRAINING"

structure NodeInfo where
  nodeId : String
  nodeType : NodeType
  state : NodeState
  grpcAddr : String
  deriving DecidableEq

def NodeInfo.new (nodeId : String) (nodeType : NodeType) (grpcAddr : String) : NodeInfo :=
  ⟨nodeId, nodeType, .active, grpcAddr⟩

abbrev ClusterTopology := OrdMap String NodeInfo

namespace ClusterTopology

variable (nodes : ClusterTopology)

def registerNode (node : NodeInfo) : ClusterTopology :=
  nodes.insert node.nodeId node

def removeNode (nodeId : String) : Except String ClusterTopology :=
  match nodes.get? nodeId with
  | none => .error ("Node '" ++ nodeId ++ "' not found in topology")
  | some _ => .ok (nodes.erase nodeId)

def transition (nodeId : String) (state : NodeState) : Except String ClusterTopology :=
  match nodes.get? nodeId with
  | none => .error ("Node '" ++ nodeId ++ "' not found")
  | some node => .ok (nodes.insert nodeId { node with state := state })

def eligibleStorageNodes (order : HashIteration String NodeInfo) : List NodeInfo :=
  ((order.iterate nodes).map Prod.snd).filter fun n =>
    n.nodeType == .storageNode && n.state == .active

end ClusterTopology

variable {ι : Type}

structure MigrationPlan (ι : Type) where
  shardId : ι
  fromSn : String
  toSn : String

namespace RebalancePlanner

structure Serving (ι : Type) where
  donors : List (String × List ι)
  shardCursor : Nat
  plans : List (MigrationPlan ι)

def movesOf (receiver : String) (donor : String × List ι) (shardCursor take : Nat) :
    List (MigrationPlan ι) :=
  (List.range take).filterMap fun k =>
    (donor.2[donor.2.length - 1 - shardCursor - k]?).map fun shard => ⟨shard, donor.1, receiver⟩

def serve (targetPerSn : Nat) (receiver : String) (needed : Nat) :
    (fuel given : Nat) → Serving ι → Serving ι
  | 0, _, s => s
  | fuel + 1, given, s =>
    if given < needed then
      match s.donors with
      | [] => s
      | donor :: rest =>
        let excess := donor.2.length - targetPerSn - s.shardCursor
        if excess = 0 then
          serve targetPerSn receiver needed fuel given ⟨rest, 0, s.plans⟩
        else
          let take := min excess (needed - given)
          serve targetPerSn receiver needed fuel (given + take)
            ⟨s.donors, s.shardCursor + take, s.plans ++ movesOf receiver donor s.shardCursor take⟩
    else s

def level (target : Nat) (groups : List (String × List ι)) : List (MigrationPlan ι) :=
  let donors := groups.filter fun g => decide (target < g.2.length)
  let receivers := groups.filter fun g => decide (g.2.length < target)
  (receivers.foldl
    (fun s r =>
      let needed := target - r.2.length
      serve target r.1 needed (s.donors.length + needed) 0 s)
    ⟨donors, 0, []⟩).plans

def Moves (target : Nat) (groups : List (String × List ι)) (p : MigrationPlan ι) : Prop :=
  (∃ shards, (p.fromSn, shards) ∈ groups ∧ ∃ i, target ≤ i ∧ shards[i]? = some p.shardId) ∧
    ∃ shards, (p.toSn, shards) ∈ groups ∧ shards.length < target

def turns (needed given : Nat) (s : Serving ι) : Nat := s.donors.length + (needed - given)

variable {groups : List (String × List ι)}

theorem moves_movesOf {target take : Nat} {receiver : String}
    {received : List ι} {donor : String × List ι} {cursor : Nat} (known : donor ∈ groups)
    (short : (receiver, received) ∈ groups) (below : received.length < target)
    (fits : take ≤ donor.2.length - target - cursor) :
    ∀ p ∈ movesOf receiver donor cursor take, Moves target groups p := by
  intro p mem
  obtain ⟨k, inRange, found⟩ := mem_filterMap.mp mem
  obtain ⟨shard, there, rfl⟩ := Option.map_eq_some_iff.mp found
  have bound := mem_range.mp inRange
  exact ⟨⟨donor.2, known, _, by omega, there⟩, received, short, below⟩

theorem serve_moves {target : Nat} {receiver : String}
    {received : List ι} (short : (receiver, received) ∈ groups)
    (below : received.length < target) (needed : Nat) :
    ∀ (fuel given : Nat) (s : Serving ι), (∀ d ∈ s.donors, d ∈ groups) →
      (∀ p ∈ s.plans, Moves target groups p) →
      (∀ d ∈ (serve target receiver needed fuel given s).donors, d ∈ groups) ∧
        ∀ p ∈ (serve target receiver needed fuel given s).plans, Moves target groups p := by
  intro fuel
  induction fuel with
  | zero => exact fun _ s known planned => ⟨known, planned⟩
  | succ fuel ih =>
    rintro given ⟨donors, cursor, plans⟩ known planned
    rw [serve]
    split
    · cases donors with
      | nil => exact ⟨known, planned⟩
      | cons donor rest =>
        dsimp only
        split
        · exact ih given _ (fun d mem => known d (mem_cons_of_mem _ mem)) planned
        · refine ih _ _ known fun p mem => ?_
          rcases mem_append.mp mem with old | new
          · exact planned p old
          · exact moves_movesOf (known donor mem_cons_self) short below
              (Nat.min_le_left _ _) p new
    · exact ⟨known, planned⟩

theorem level_moves (target : Nat) (groups : List (String × List ι)) :
    ∀ p ∈ level target groups, Moves target groups p := by
  have loop : ∀ (receivers : List (String × List ι)) (s : Serving ι),
      (∀ r ∈ receivers, r ∈ groups ∧ r.2.length < target) → (∀ d ∈ s.donors, d ∈ groups) →
      (∀ p ∈ s.plans, Moves target groups p) →
      ∀ p ∈ (receivers.foldl (fun s r => serve target r.1 (target - r.2.length)
        (s.donors.length + (target - r.2.length)) 0 s) s).plans, Moves target groups p := by
    intro receivers
    induction receivers with
    | nil => exact fun s _ _ planned => planned
    | cons r rest ih =>
      intro s receiving known planned
      obtain ⟨mem, below⟩ := receiving r mem_cons_self
      obtain ⟨knownAfter, plannedAfter⟩ := serve_moves
        (show (r.1, r.2) ∈ groups from mem) below (target - r.2.length)
          (s.donors.length + (target - r.2.length)) 0 s known planned
      exact ih _ (fun r' mem' => receiving r' (mem_cons_of_mem _ mem')) knownAfter plannedAfter
  refine loop _ _ (fun r mem => ?_) (fun d mem => mem_of_mem_filter mem) (by simp)
  exact ⟨mem_of_mem_filter mem, by simpa using (mem_filter.mp mem).2⟩

end RebalancePlanner

variable [LinearOrder ι]

abbrev Distribution (ι : Type) [LinearOrder ι] := OrdMap ι String

namespace RebalancePlanner

structure Orders (ι : Type) [LinearOrder ι] where
  nodes : HashIteration String NodeInfo
  distribution : HashIteration ι String
  snShards : HashIteration String (List ι)

def snShards (order : HashIteration ι String) (dist : Distribution ι)
    (eligible : List NodeInfo) : OrdMap String (List ι) :=
  (order.iterate dist).foldl (fun m e => m.push e.2 e.1)
    (eligible.foldl (fun m sn => m.insert sn.nodeId ((m.get? sn.nodeId).getD [])) .empty)

def targetPerSn (dist : Distribution ι) (eligible : List NodeInfo) : Nat :=
  (dist.entries.length + (eligible.length - 1)) / eligible.length

def plan (orders : Orders ι) (dist : Distribution ι) (eligible : List NodeInfo) :
    List (MigrationPlan ι) :=
  if eligible.isEmpty then []
  else level (targetPerSn dist eligible)
    (orders.snShards.iterate (snShards orders.distribution dist eligible))

end RebalancePlanner

inductive MigrationState where
  | pending
  | preparing
  | copying
  | syncing
  | committing
  | done
  | failed (msg : String)
  deriving DecidableEq

structure ShardMigrator (ι : Type) where
  plan : MigrationPlan ι
  state : MigrationState

namespace ShardMigrator

def new (plan : MigrationPlan ι) : ShardMigrator ι := ⟨plan, .pending⟩

variable (m : ShardMigrator ι)

def prepare : Except String (ShardMigrator ι) :=
  .ok { m with state := .preparing }

def copyData : Except String (ShardMigrator ι) :=
  .ok { m with state := .copying }

def sync : Except String (ShardMigrator ι) :=
  .ok { m with state := .syncing }

def commit : Except String (ShardMigrator ι) :=
  .ok { m with state := .done }

def run : Except String (ShardMigrator ι) := do
  let m ← m.prepare
  let m ← m.copyData
  let m ← m.sync
  m.commit

end ShardMigrator

namespace RebalanceCoordinator

def migrate (dist : Distribution ι) (p : MigrationPlan ι) : Distribution ι × MigrationState :=
  match (ShardMigrator.new p).run with
  | .ok _ => (dist.insert p.shardId p.toSn, .done)
  | .error e => (dist, .failed e)

def migrateAll (dist : Distribution ι) : List (MigrationPlan ι) →
    Distribution ι × List MigrationState
  | [] => (dist, [])
  | p :: rest =>
    let (next, state) := migrate dist p
    let (final, states) := migrateAll next rest
    (final, state :: states)

def runOnce (orders : RebalancePlanner.Orders ι) (nodes : ClusterTopology)
    (dist : Distribution ι) : Distribution ι × List MigrationState :=
  migrateAll dist
    (RebalancePlanner.plan orders dist (nodes.eligibleStorageNodes orders.nodes))

end RebalanceCoordinator

inductive RebalanceEvent where
  | nodeAdded (nodeId : String)
  | nodeRemoved (nodeId : String)
  | manualRebalance
  | shutdown
  deriving DecidableEq

/-- The executor's topology and coordinator. -/
structure Cluster (ι : Type) [LinearOrder ι] where
  topology : ClusterTopology
  currentDist : Distribution ι
  events : List RebalanceEvent
  looping : Bool

namespace Cluster

variable (c : Cluster ι)

def joinNode (nodeId : String) (nodeType : NodeType) (grpcAddr : String) : Cluster ι :=
  { c with
    topology := c.topology.registerNode (.new nodeId nodeType grpcAddr)
    events := if nodeType = .storageNode then c.events ++ [.nodeAdded nodeId] else c.events }

def drainNode (nodeId : String) : Except String (Cluster ι × String) := do
  let readonly ← c.topology.transition nodeId .readonly
  let draining ← readonly.transition nodeId .draining
  return ({ c with topology := draining, events := c.events ++ [.nodeRemoved nodeId] },
    "Node '" ++ nodeId ++ "' draining")

def dismissNode (nodeId : String) : Except String (Cluster ι × String) :=
  match c.topology.get? nodeId with
  | none => .error ("Node '" ++ nodeId ++ "' not found")
  | some node =>
    if node.state ≠ .draining then
      .error ("Node '" ++ nodeId ++ "' must be in DRAINING state before DISMISS (current: " ++
        node.state.display ++ ")")
    else do
      let topology ← c.topology.removeNode nodeId
      return ({ c with topology := topology }, "Node '" ++ nodeId ++ "' dismissed")

def manualRebalance : Cluster ι × String :=
  ({ c with events := c.events ++ [.manualRebalance] }, "Rebalance triggered")

def runOnce (orders : RebalancePlanner.Orders ι) : Cluster ι :=
  { c with currentDist := (RebalanceCoordinator.runOnce orders c.topology c.currentDist).1 }

def handleEvent (orders : RebalancePlanner.Orders ι) : Option (Cluster ι) :=
  match c.looping, c.events with
  | true, .shutdown :: rest => some { c with events := rest, looping := false }
  | true, _ :: rest => some (runOnce { c with events := rest } orders)
  | _, _ => none

def holdsShard (dist : Distribution ι) (nodeId : String) : Bool :=
  dist.entries.any fun e => e.2 == nodeId

end Cluster

theorem Cluster.holdsShard_iff (dist : Distribution ι) (nodeId : String) :
    Cluster.holdsShard dist nodeId = true ↔ ∃ shard, dist.get? shard = some nodeId := by
  rw [holdsShard, any_eq_true]
  constructor
  · rintro ⟨⟨shard, sn⟩, mem, same⟩
    obtain rfl := eq_of_beq same
    exact ⟨shard, (dist.mem_entries_iff shard sn).mp mem⟩
  · rintro ⟨shard, found⟩
    exact ⟨(shard, nodeId), (dist.mem_entries_iff shard nodeId).mpr found, beq_self_eq_true _⟩

namespace RebalancePlanner

def shardsOf (order : HashIteration ι String) (dist : Distribution ι) (nodeId : String) : List ι :=
  ((order.iterate dist).filter (·.2 = nodeId)).map Prod.fst

variable (order : HashIteration ι String)

theorem mem_shardsOf (dist : Distribution ι) (nodeId : String)
    (shard : ι) : shard ∈ shardsOf order dist nodeId ↔ dist.get? shard = some nodeId := by
  rw [← order.mem_iterate]
  simp [shardsOf]

theorem nodup_shardsOf (dist : Distribution ι)
    (nodeId : String) : (shardsOf order dist nodeId).Nodup :=
  (order.nodup_keys dist).sublist (filter_sublist.map _)

omit [LinearOrder ι] in
theorem get?_eligible (eligible : List NodeInfo) (m : OrdMap String (List ι)) (nodeId : String) :
    (eligible.foldl (fun m sn => m.insert sn.nodeId ((m.get? sn.nodeId).getD [])) m).get? nodeId =
      if ∃ sn ∈ eligible, sn.nodeId = nodeId then some ((m.get? nodeId).getD [])
      else m.get? nodeId := by
  induction eligible generalizing m with
  | nil => simp
  | cons sn rest ih =>
    rw [foldl_cons, ih, OrdMap.get?_insert]
    by_cases same : nodeId = sn.nodeId
    · subst same
      simp
    · have other : sn.nodeId ≠ nodeId := fun equal => same equal.symm
      simp [same, other]

variable {dist : Distribution ι} {eligible : List NodeInfo}

theorem get?_snShards {order : HashIteration ι String} {nodeId : String} {shards : List ι}
    (found : (snShards order dist eligible).get? nodeId = some shards) :
    shards = shardsOf order dist nodeId ∧
      ((∃ sn ∈ eligible, sn.nodeId = nodeId) ∨ ∃ shard, dist.get? shard = some nodeId) := by
  constructor
  · have grouped := OrdMap.getD_foldl_push (fun e : ι × String => e.2) Prod.fst
      (order.iterate dist)
      (eligible.foldl (fun m sn => m.insert sn.nodeId ((m.get? sn.nodeId).getD [])) .empty) nodeId
    rw [← snShards, found, get?_eligible] at grouped
    have start : (if ∃ sn ∈ eligible, sn.nodeId = nodeId then
        some (((OrdMap.empty : OrdMap String (List ι)).get? nodeId).getD [])
        else OrdMap.empty.get? nodeId).getD [] = [] := by
      split <;> rfl
    rw [start] at grouped
    exact grouped
  · by_contra neither
    rw [not_or] at neither
    have missing : (snShards order dist eligible).get? nodeId = none := by
      refine (OrdMap.get?_foldl_push_eq_none _ _ _ _ _).mpr ⟨?_, ?_⟩
      · rw [get?_eligible, if_neg neither.1]
        rfl
      · rintro ⟨shard, sn⟩ mem rfl
        exact neither.2 ⟨shard, (order.mem_iterate dist shard sn).mp mem⟩
    rw [missing] at found
    cases found

theorem targetPerSn_pos (shards : dist.entries ≠ []) (nodes : eligible ≠ []) :
    1 ≤ targetPerSn dist eligible := by
  have some := length_pos_iff.mpr shards
  have active := length_pos_iff.mpr nodes
  exact Nat.div_pos (by omega) active

variable {orders : Orders ι}

theorem plan_moves :
    ∀ p ∈ plan orders dist eligible, eligible ≠ [] ∧ Moves (targetPerSn dist eligible)
      (orders.snShards.iterate (snShards orders.distribution dist eligible)) p := by
  intro p mem
  rw [plan] at mem
  split at mem
  · cases mem
  · next active => exact ⟨by simpa using active, level_moves _ _ p mem⟩

variable {p : MigrationPlan ι} (planned : p ∈ plan orders dist eligible)

include planned

theorem plan_target :
    (∃ sn ∈ eligible, sn.nodeId = p.toSn) ∨ ∃ shard, dist.get? shard = some p.toSn := by
  obtain ⟨-, -, shards, inGroups, -⟩ := plan_moves p planned
  exact (get?_snShards ((orders.snShards.mem_iterate _ _ _).mp inGroups)).2

theorem plan_source : dist.get? p.shardId = some p.fromSn := by
  obtain ⟨-, ⟨shards, inGroups, i, -, there⟩, -⟩ := plan_moves p planned
  rw [(get?_snShards ((orders.snShards.mem_iterate _ _ _).mp inGroups)).1] at there
  exact (mem_shardsOf ..).mp (mem_of_getElem? there)

omit planned

theorem plan_keeps_first {nodeId : String} {first : ι} {rest : List ι}
    (list : shardsOf orders.distribution dist nodeId = first :: rest) :
    ∀ p ∈ plan orders dist eligible, p.shardId ≠ first := by
  intro p planned moved
  obtain ⟨active, ⟨shards, inGroups, i, behind, there⟩, -⟩ := plan_moves p planned
  have own := (get?_snShards ((orders.snShards.mem_iterate _ _ _).mp inGroups)).1
  have inFrom : first ∈ shardsOf orders.distribution dist p.fromSn := by
    rw [← own, ← moved]
    exact mem_of_getElem? there
  have inNode : first ∈ shardsOf orders.distribution dist nodeId := by
    rw [list]
    exact mem_cons_self
  rw [mem_shardsOf] at inFrom inNode
  have same : p.fromSn = nodeId := Option.some.inj (inFrom.symm.trans inNode)
  have nonempty : dist.entries ≠ [] :=
    ne_nil_of_mem ((dist.mem_entries_iff _ _).mpr inNode)
  have positive := targetPerSn_pos nonempty active
  -- in the node's own list the first shard stands at index 0 only
  rw [own, same, moved] at there
  have distinct := nodup_shardsOf orders.distribution dist nodeId
  rw [list] at there distinct
  cases i with
  | zero => omega
  | succ i =>
    rw [getElem?_cons_succ] at there
    exact (nodup_cons.mp distinct).1 (mem_of_getElem? there)

end RebalancePlanner

namespace RebalanceCoordinator

theorem get?_migrateAll (plans : List (MigrationPlan ι)) (dist : Distribution ι) (shard : ι) :
    (migrateAll dist plans).1.get? shard = dist.get? shard ∨
      ∃ p ∈ plans, p.shardId = shard ∧ (migrateAll dist plans).1.get? shard = some p.toSn := by
  induction plans generalizing dist with
  | nil => exact .inl rfl
  | cons p rest ih =>
    have whole : (migrateAll dist (p :: rest)).1 = (migrateAll (migrate dist p).1 rest).1 := rfl
    rw [whole]
    rcases ih (migrate dist p).1 with same | ⟨q, mem, moved, there⟩
    · rw [same, migrate]
      split
      · by_cases here : shard = p.shardId
        · subst here
          exact .inr ⟨p, mem_cons_self, rfl, by rw [OrdMap.get?_insert, if_pos rfl]⟩
        · exact .inl (by rw [OrdMap.get?_insert, if_neg here])
      · exact .inl rfl
    · exact .inr ⟨q, mem_cons_of_mem _ mem, moved, there⟩

theorem holdsShard_runOnce (orders : RebalancePlanner.Orders ι) (nodes : ClusterTopology)
    (dist : Distribution ι) {nodeId : String}
    (notEligible : ∀ sn ∈ nodes.eligibleStorageNodes orders.nodes, sn.nodeId ≠ nodeId) :
    Cluster.holdsShard (runOnce orders nodes dist).1 nodeId = Cluster.holdsShard dist nodeId := by
  rw [Bool.eq_iff_iff, Cluster.holdsShard_iff, Cluster.holdsShard_iff]
  constructor
  · rintro ⟨shard, found⟩
    rcases get?_migrateAll _ dist shard with same | ⟨p, planned, -, there⟩
    · exact ⟨shard, same.symm.trans found⟩
    · have target : p.toSn = nodeId := Option.some.inj (there.symm.trans found)
      rcases RebalancePlanner.plan_target planned with ⟨sn, mem, named⟩ | held
      · exact absurd (named.trans target) (notEligible sn mem)
      · exact target ▸ held
  · rintro ⟨shard, found⟩
    have mem := (RebalancePlanner.mem_shardsOf orders.distribution dist nodeId shard).mpr found
    cases list : RebalancePlanner.shardsOf orders.distribution dist nodeId with
    | nil =>
      rw [list] at mem
      cases mem
    | cons first rest =>
      have here : dist.get? first = some nodeId :=
        (RebalancePlanner.mem_shardsOf orders.distribution dist nodeId first).mp
          (list ▸ mem_cons_self)
      refine ⟨first, ?_⟩
      rcases get?_migrateAll _ dist first with same | ⟨p, planned, moved, -⟩
      · exact same.trans here
      · exact absurd moved (RebalancePlanner.plan_keeps_first list p planned)

end RebalanceCoordinator

structure DrainRun (ι : Type) [LinearOrder ι] where
  cluster : Cluster ι
  heldAtDrain : OrdMap String Bool

namespace DrainRun

inductive Act (ι : Type) [LinearOrder ι] where
  | joinNode (nodeId : String) (nodeType : NodeType) (grpcAddr : String)
  | drainNode (nodeId : String)
  | dismissNode (nodeId : String)
  | manualRebalance
  | runOnce (orders : RebalancePlanner.Orders ι)
  | handleEvent (orders : RebalancePlanner.Orders ι)

def init (dist : Distribution ι) : DrainRun ι := ⟨⟨.empty, dist, [], true⟩, .empty⟩

variable (s : DrainRun ι)

def step : Act ι → Option (DrainRun ι)
  | .joinNode nodeId nodeType grpcAddr =>
    some { s with cluster := s.cluster.joinNode nodeId nodeType grpcAddr }
  | .drainNode nodeId =>
    match s.cluster.drainNode nodeId with
    | .error _ => some s
    | .ok (cluster, _) =>
      some ⟨cluster, s.heldAtDrain.insert nodeId
        (Cluster.holdsShard s.cluster.currentDist nodeId)⟩
  | .dismissNode nodeId =>
    match s.cluster.dismissNode nodeId with
    | .error _ => some s
    | .ok (cluster, _) => some { s with cluster := cluster }
  | .manualRebalance => some { s with cluster := s.cluster.manualRebalance.1 }
  | .runOnce orders => some { s with cluster := s.cluster.runOnce orders }
  | .handleEvent orders => (s.cluster.handleEvent orders).map fun c => { s with cluster := c }

structure Invariant (s : DrainRun ι) : Prop where
  named : ∀ nodeId info, s.cluster.topology.get? nodeId = some info → info.nodeId = nodeId
  held : ∀ nodeId info, s.cluster.topology.get? nodeId = some info → info.state = .draining →
    s.heldAtDrain.get? nodeId = some (Cluster.holdsShard s.cluster.currentDist nodeId)

theorem invariant_init (dist : Distribution ι) : Invariant (init dist) where
  named := by intro nodeId info found; cases found
  held := by intro nodeId info found; cases found

theorem drainNode_ok {c after : Cluster ι} {nodeId msg : String}
    (done : c.drainNode nodeId = .ok (after, msg)) :
    ∃ info, c.topology.get? nodeId = some info ∧ after.currentDist = c.currentDist ∧
      ∀ k, after.topology.get? k =
        if k = nodeId then some { info with state := .draining } else c.topology.get? k := by
  simp only [Cluster.drainNode, ClusterTopology.transition] at done
  cases found : c.topology.get? nodeId with
  | none =>
    rw [found] at done
    cases done
  | some info =>
    simp only [found, OrdMap.get?_insert, bind, Except.bind, pure, Except.pure, if_pos,
      Except.ok.injEq, Prod.mk.injEq] at done
    obtain ⟨rfl, -⟩ := done
    refine ⟨info, rfl, rfl, fun k => ?_⟩
    simp only [OrdMap.get?_insert]
    split <;> rfl

theorem dismissNode_eq (c : Cluster ι) (nodeId : String) :
    (∃ info, c.topology.get? nodeId = some info ∧ info.state = .draining ∧
      c.dismissNode nodeId = .ok ({ c with topology := c.topology.erase nodeId },
        "Node '" ++ nodeId ++ "' dismissed")) ∨
    ((∀ info, c.topology.get? nodeId = some info → info.state ≠ .draining) ∧
      ∃ e, c.dismissNode nodeId = .error e) := by
  cases found : c.topology.get? nodeId with
  | none => exact .inr ⟨by simp, _, by rw [Cluster.dismissNode, found]⟩
  | some info =>
    by_cases draining : info.state = .draining
    · refine .inl ⟨info, rfl, draining, ?_⟩
      simp only [Cluster.dismissNode, found, draining, ClusterTopology.removeNode, ne_eq,
        not_true_eq_false, if_false]
      rfl
    · refine .inr ⟨fun _ same => Option.some.inj same ▸ draining, ?_⟩
      rw [Cluster.dismissNode, found]
      exact ⟨_, if_pos draining⟩

theorem invariant_runOnce {s : DrainRun ι} (inv : Invariant s) (events : List RebalanceEvent)
    (orders : RebalancePlanner.Orders ι) :
    Invariant { s with cluster := Cluster.runOnce { s.cluster with events := events } orders } := by
  refine ⟨inv.named, fun nodeId info found draining => ?_⟩
  have notEligible : ∀ sn ∈ s.cluster.topology.eligibleStorageNodes orders.nodes,
      sn.nodeId ≠ nodeId := by
    intro sn mem same
    simp only [ClusterTopology.eligibleStorageNodes, mem_filter, mem_map] at mem
    obtain ⟨⟨⟨key, _⟩, inside, rfl⟩, eligible⟩ := mem
    have there := (orders.nodes.mem_iterate _ _ _).mp inside
    obtain rfl : key = nodeId := (inv.named _ _ there).symm.trans same
    obtain rfl := Option.some.inj (found.symm.trans there)
    simp [draining] at eligible
  rw [inv.held nodeId info found draining]
  exact congrArg some
    (RebalanceCoordinator.holdsShard_runOnce orders _ _ notEligible).symm

theorem invariant_step {s t : DrainRun ι} {act : Act ι} (inv : Invariant s)
    (taken : step s act = some t) : Invariant t := by
  cases act with
  | joinNode nodeId nodeType grpcAddr =>
    obtain rfl := Option.some.inj taken
    have topology : ∀ k, (s.cluster.joinNode nodeId nodeType grpcAddr).topology.get? k =
        if k = nodeId then some (.new nodeId nodeType grpcAddr)
        else s.cluster.topology.get? k := fun k => OrdMap.get?_insert _ _ _ _
    refine ⟨fun k info found => ?_, fun k info found draining => ?_⟩
    · rw [topology] at found
      split at found
      · next same => rw [← Option.some.inj found, same]; rfl
      · exact inv.named k info found
    · rw [topology] at found
      split at found
      · rw [← Option.some.inj found] at draining
        cases draining
      · exact inv.held k info found draining
  | drainNode nodeId =>
    simp only [step] at taken
    split at taken
    · exact Option.some.inj taken ▸ inv
    · next after msg done =>
      obtain rfl := Option.some.inj taken
      obtain ⟨before, known, sameDist, topology⟩ := drainNode_ok done
      refine ⟨fun k info found => ?_, fun k info found draining => ?_⟩
      · rw [topology] at found
        split at found
        · next same =>
          rw [← Option.some.inj found, same]
          exact inv.named nodeId before known
        · exact inv.named k info found
      · rw [topology] at found
        simp only [OrdMap.get?_insert, sameDist]
        split
        · next same => rw [same]
        · next other =>
          rw [if_neg other] at found
          exact inv.held k info found draining
  | dismissNode nodeId =>
    rcases dismissNode_eq s.cluster nodeId with ⟨info, known, draining, done⟩ | ⟨-, e, failed⟩
    · simp only [step, done, Option.some.injEq] at taken
      obtain rfl := taken
      have smaller : ∀ k info, (s.cluster.topology.erase nodeId).get? k = some info →
          s.cluster.topology.get? k = some info := by
        intro k info found
        rw [OrdMap.get?_erase] at found
        split at found
        · cases found
        · exact found
      exact ⟨fun k info found => inv.named k info (smaller k info found),
        fun k info found => inv.held k info (smaller k info found)⟩
    · simp only [step, failed, Option.some.injEq] at taken
      exact taken ▸ inv
  | manualRebalance =>
    obtain rfl := Option.some.inj taken
    exact ⟨inv.named, inv.held⟩
  | runOnce orders =>
    obtain rfl := Option.some.inj taken
    exact invariant_runOnce inv s.cluster.events orders
  | handleEvent orders =>
    obtain ⟨c, handled, rfl⟩ := Option.map_eq_some_iff.mp taken
    simp only [Cluster.handleEvent] at handled
    split at handled
    · obtain rfl := Option.some.inj handled
      exact ⟨inv.named, inv.held⟩
    · next rest _ _ =>
      obtain rfl := Option.some.inj handled
      exact invariant_runOnce inv _ orders
    · cases handled

def DismissSafe (nodeId : String) : Prop :=
  ∀ info, s.cluster.topology.get? nodeId = some info → info.nodeType = .storageNode →
    (s.cluster.dismissNode nodeId).isOk = true →
    ∀ shard, s.cluster.currentDist.get? shard ≠ some nodeId

def DrainedEmpty (nodeId : String) : Prop :=
  ∀ info, s.cluster.topology.get? nodeId = some info → info.nodeType = .storageNode →
    info.state = .draining → s.heldAtDrain.get? nodeId = some false

/-- Exactly for nodes that were drained empty. -/
theorem dismissSafe_iff_drainedEmpty (dist : Distribution ι) (acts : List (Act ι)) :
    Run.EveryState step (fun s => ∀ nodeId, DismissSafe s nodeId ↔ DrainedEmpty s nodeId)
      (init dist) acts := by
  refine (Run.everyState_of_step (fun _ _ _ => invariant_step) acts _
    (invariant_init dist)).imp fun s inv nodeId => ?_
  have empty : Cluster.holdsShard s.cluster.currentDist nodeId = false ↔
      ∀ shard, s.cluster.currentDist.get? shard ≠ some nodeId := by
    rw [← Bool.not_eq_true, Cluster.holdsShard_iff, not_exists]
  refine forall_congr' fun info => forall_congr' fun known => forall_congr' fun _ => ?_
  rw [← empty]
  rcases dismissNode_eq s.cluster nodeId with ⟨same, found, draining, done⟩ | ⟨idle, e, failed⟩
  · obtain rfl := Option.some.inj (known.symm.trans found)
    simp [done, Except.isOk, Except.toBool, draining, inv.held nodeId info known draining]
  · simp [failed, Except.isOk, Except.toBool, idle info known]

theorem dismissed_with_shard :
    ∃ s : DrainRun Nat, Run.exec step (init (OrdMap.insert .empty 7 "sn-1"))
        [.joinNode "sn-1" .storageNode "127.0.0.1:9060",
          .joinNode "sn-2" .storageNode "127.0.0.1:9061", .drainNode "sn-1",
          .runOnce ⟨.ascending, .ascending, .ascending⟩] = some s ∧
      (s.cluster.dismissNode "sn-1").isOk = true ∧
      s.cluster.currentDist.get? 7 = some "sn-1" ∧ ¬ DismissSafe s "sn-1" := by
  refine ⟨_, rfl, by decide +kernel, by decide +kernel, fun safe => ?_⟩
  exact safe ⟨"sn-1", .storageNode, .draining, "127.0.0.1:9060"⟩ (by decide +kernel) rfl
    (by decide +kernel) 7 (by decide +kernel)

theorem isSome_runOnce (orders : RebalancePlanner.Orders ι) (nodes : ClusterTopology)
    (dist : Distribution ι) (shard : ι) :
    ((RebalanceCoordinator.runOnce orders nodes dist).1.get? shard).isSome =
      (dist.get? shard).isSome := by
  rw [RebalanceCoordinator.runOnce]
  obtain same | ⟨p, planned, rfl, there⟩ := RebalanceCoordinator.get?_migrateAll
    (RebalancePlanner.plan orders dist (nodes.eligibleStorageNodes orders.nodes)) dist shard
  · rw [same]
  · rw [there, RebalancePlanner.plan_source planned]
    rfl

/-- No run of topology commands and rebalancing loses or adds a shard. -/
theorem shards_conserved (dist : Distribution ι) (acts : List (Act ι)) :
    Run.EveryState step (fun s => ∀ shard, (s.cluster.currentDist.get? shard).isSome =
      (dist.get? shard).isSome) (init dist) acts := by
  refine Run.everyState_of_step (fun s act t kept taken shard => ?_) acts (init dist) fun _ => rfl
  rw [← kept shard]
  cases act with
  | joinNode | manualRebalance =>
    cases taken
    rfl
  | drainNode nodeId =>
    simp only [step] at taken
    split at taken
    · cases taken
      rfl
    · next after msg done =>
      cases taken
      rw [(drainNode_ok done).choose_spec.2.1]
  | dismissNode nodeId =>
    obtain ⟨info, -, -, done⟩ | ⟨-, e, failed⟩ := dismissNode_eq s.cluster nodeId
    · simp only [step, done, Option.some.injEq] at taken
      rw [← taken]
    · simp only [step, failed, Option.some.injEq] at taken
      rw [← taken]
  | runOnce orders =>
    cases taken
    exact isSome_runOnce orders _ _ shard
  | handleEvent orders =>
    obtain ⟨c, handled, rfl⟩ := Option.map_eq_some_iff.mp taken
    simp only [Cluster.handleEvent] at handled
    split at handled
    · cases handled
      rfl
    · cases handled
      exact isSome_runOnce orders _ _ shard
    · cases handled

end DrainRun
end WowDb.Query
