import WowDb.Query.Cluster

/-!
# What a rebalancing plan achieves

`RebalancePlanner::plan` of `rebalance/planner.rs` when its plans are carried out: even counts on the
eligible nodes, and nothing left on a draining one.
-/
namespace WowDb.Query.RebalancePlanner
open WowDb.Lib List

section Pairing
variable {ι : Type} (target : Nat)

def surplus (d : String × List ι) : List (String × ι) :=
  (d.2.drop target).reverse.map fun shard => (d.1, shard)

def toPlan (move : (String × ι) × String) : MigrationPlan ι := ⟨move.1.2, move.1.1, move.2⟩

def places (r : String × List ι) : List String := List.replicate (target - r.2.length) r.1

def toGive (groups : List (String × List ι)) : List (String × ι) :=
  groups.flatMap (surplus target)

def toFill (groups : List (String × List ι)) : List String :=
  groups.flatMap (places target)

def remaining (s : Serving ι) : List (String × ι) :=
  (s.donors.flatMap (surplus target)).drop s.shardCursor

def Within (s : Serving ι) : Prop :=
  ∀ d ∈ s.donors.head?, s.shardCursor ≤ d.2.length - target

variable {target}

theorem movesOf_eq (receiver : String) (donor : String × List ι) (cursor : Nat) :
    ∀ take, take ≤ donor.2.length - target - cursor →
      movesOf receiver donor cursor take =
        (((surplus target donor).drop cursor).take take).map (fun shard => toPlan (shard, receiver)) := by
  intro take
  induction take with
  | zero => intro _; rfl
  | succ take ih =>
    intro fits
    have item : ((surplus target donor).drop cursor)[take]? =
        (donor.2[donor.2.length - 1 - cursor - take]?).map fun shard => (donor.1, shard) := by
      rw [getElem?_drop, surplus, getElem?_map, getElem?_reverse (by simp; omega),
        getElem?_drop, length_drop]
      congr 3
      omega
    have earlier := ih (by omega)
    rw [movesOf] at earlier ⊢
    rw [range_succ, filterMap_append, earlier, take_add_one, map_append, item]
    cases found : donor.2[donor.2.length - 1 - cursor - take]? <;> simp [found, toPlan]

theorem serve_eq (receiver : String) (needed : Nat) :
    ∀ (fuel given : Nat) (s : Serving ι), turns needed given s ≤ fuel → Within target s →
      (serve target receiver needed fuel given s).plans =
        s.plans ++ ((remaining target s).take (needed - given)).map (fun shard => toPlan (shard, receiver)) ∧
      remaining target (serve target receiver needed fuel given s) =
        (remaining target s).drop (needed - given) ∧
      Within target (serve target receiver needed fuel given s) := by
  intro fuel
  induction fuel with
  | zero =>
    intro given s enough within
    have full : needed - given = 0 := by simp only [turns] at enough; omega
    simp [serve, full, within]
  | succ fuel ih =>
    rintro given ⟨donors, cursor, plans⟩ enough within
    rw [serve]
    split
    · next short =>
      cases donors with
      | nil => simp [remaining, within]
      | cons donor rest =>
        simp only [turns, length_cons] at enough
        have inside : cursor ≤ donor.2.length - target := within donor rfl
        have size : (surplus target donor).length = donor.2.length - target := by simp [surplus]
        have opened : ∀ k taken, remaining target ⟨donor :: rest, k, taken⟩ =
            (surplus target donor ++ rest.flatMap (surplus target)).drop k := fun _ _ => rfl
        dsimp only
        split
        · next spent =>
          have skipped : remaining target ⟨donor :: rest, cursor, plans⟩ =
              remaining target ⟨rest, 0, plans⟩ := by
            rw [opened, drop_append_of_le_length (by omega), drop_eq_nil_of_le (by omega)]
            rfl
          rw [skipped]
          exact ih given _ (by simp only [turns]; omega) fun _ _ => Nat.zero_le _
        · next some =>
          generalize amount : min (donor.2.length - target - cursor) (needed - given) = take
          obtain ⟨planned, left, after⟩ := ih (given + take)
            ⟨donor :: rest, cursor + take, plans ++ movesOf receiver donor cursor take⟩
            (by simp only [turns, length_cons]; omega)
            (by intro d head; obtain rfl : donor = d := Option.some.inj head; simp only; omega)
          have fits : take ≤ donor.2.length - target - cursor := by omega
          have moved : movesOf receiver donor cursor take =
              ((remaining target ⟨donor :: rest, cursor, plans⟩).take take).map (fun shard => toPlan (shard, receiver)) := by
            rw [movesOf_eq receiver donor cursor take fits, opened,
              drop_append_of_le_length (by omega),
              take_append_of_le_length (by rw [length_drop]; omega)]
          have later : remaining target
              ⟨donor :: rest, cursor + take, plans ++ movesOf receiver donor cursor take⟩ =
              (remaining target ⟨donor :: rest, cursor, plans⟩).drop take := by
            rw [opened, opened, drop_drop]
          have rest' : needed - given = take + (needed - (given + take)) := by omega
          refine ⟨?_, ?_, after⟩
          · rw [planned, later, moved, rest', take_add, map_append, append_assoc]
          · rw [left, later, drop_drop, rest']
    · next full =>
      have none : needed - given = 0 := by omega
      simp [none, within]

variable {α β : Type}

theorem zip_replicate (n : Nat) (b : β) (rest : List β) :
    ∀ xs : List α, xs.zip (List.replicate n b ++ rest) =
      (xs.take n).map (fun x => (x, b)) ++ (xs.drop n).zip rest := by
  induction n with
  | zero => intro xs; simp
  | succ n ih =>
    intro xs
    cases xs with
    | nil => simp
    | cons x xs => simp [replicate_succ, ih]

theorem map_snd_zip_sublist (xs : List α) (ys : List β) :
    ((xs.zip ys).map Prod.snd).Sublist ys := by
  induction xs generalizing ys with
  | nil => simp
  | cons x xs ih =>
    cases ys with
    | nil => simp
    | cons y ys => simpa using ih ys

theorem level_eq (groups : List (String × List ι)) :
    level target groups = ((toGive target groups).zip (toFill target groups)).map toPlan := by
  have loop : ∀ (receivers : List (String × List ι)) (s : Serving ι), Within target s →
      (receivers.foldl (fun s r => serve target r.1 (target - r.2.length)
        (s.donors.length + (target - r.2.length)) 0 s) s).plans =
      s.plans ++ ((remaining target s).zip (receivers.flatMap (places target))).map toPlan := by
    intro receivers
    induction receivers with
    | nil => intro s _; simp
    | cons r rest ih =>
      intro s within
      obtain ⟨planned, left, after⟩ := serve_eq r.1 (target - r.2.length)
        (s.donors.length + (target - r.2.length)) 0 s (Nat.le_refl _) within
      rw [foldl_cons, ih _ after, planned, left, flatMap_cons, places, zip_replicate,
        Nat.sub_zero, map_append, map_map, append_assoc]
      rfl
  have gives : (groups.filter fun g => target < g.2.length).flatMap (surplus target) = _ :=
    flatMap_filter_of_nil fun g _ few => by simp at few; simp [surplus, few]
  have takes : (groups.filter fun g => g.2.length < target).flatMap (places target) = _ :=
    flatMap_filter_of_nil fun g _ full => by simp at full; simp [places, full]
  rw [level, loop _ _ fun _ _ => Nat.zero_le _, takes, remaining]
  dsimp only
  rw [gives, drop_zero, nil_append]
  rfl

theorem sum_sub_le (target : Nat) (groups : List (String × List ι)) :
    (groups.map fun g => g.2.length - target).sum + groups.length * target =
      (groups.map fun g => target - g.2.length).sum + (groups.map fun g => g.2.length).sum := by
  induction groups with
  | nil => simp
  | cons g rest ih =>
    simp only [map_cons, sum_cons, length_cons, Nat.succ_mul]
    omega

theorem count_toFill {groups : List (String × List ι)} (distinct : (groups.map Prod.fst).Nodup)
    {g : String × List ι} (known : g ∈ groups) :
    (toFill target groups).count g.1 = target - g.2.length := by
  induction groups with
  | nil => cases known
  | cons h rest ih =>
    rw [map_cons, nodup_cons] at distinct
    have others : ∀ r ∈ rest, r.1 ≠ h.1 := fun r mem same =>
      distinct.1 (same ▸ mem_map_of_mem mem)
    rw [toFill, flatMap_cons, count_append, places, count_replicate]
    rcases mem_cons.mp known with rfl | later
    · have absent : g.1 ∉ rest.flatMap (places target) := by
        intro mem
        obtain ⟨r, inRest, here⟩ := mem_flatMap.mp mem
        exact others r inRest (eq_of_mem_replicate here).symm
      rw [if_pos (by simp), count_eq_zero.mpr absent, Nat.add_zero]
    · rw [if_neg (by simpa using (others g later).symm), Nat.zero_add]
      exact ih distinct.2 later

end Pairing

variable {ι : Type} [LinearOrder ι]

def load (dist : Distribution ι) (nodeId : String) : Nat :=
  dist.entries.countP fun e => e.2 == nodeId

/-- Every shard is on an eligible node. -/
def OnEligible (dist : Distribution ι) (eligible : List NodeInfo) : Prop :=
  ∀ shard nodeId, dist.get? shard = some nodeId → ∃ sn ∈ eligible, sn.nodeId = nodeId

variable (orders : Orders ι) (dist : Distribution ι) (eligible : List NodeInfo)

/-- A plan evacuates only where nothing is to evacuate. -/
theorem evacuates_iff :
    ((∀ p ∈ plan orders dist eligible, ∃ sn ∈ eligible, sn.nodeId = p.toSn) ∧
      OnEligible (RebalanceCoordinator.migrateAll dist (plan orders dist eligible)).1 eligible) ↔
    OnEligible dist eligible := by
  constructor
  · rintro ⟨-, evacuated⟩ shard nodeId found
    have mem := (mem_shardsOf orders.distribution dist nodeId shard).mpr found
    cases list : shardsOf orders.distribution dist nodeId with
    | nil => simp [list] at mem
    | cons first rest =>
      have here : dist.get? first = some nodeId :=
        (mem_shardsOf orders.distribution dist nodeId first).mp (by simp [list])
      apply evacuated first nodeId
      rcases RebalanceCoordinator.get?_migrateAll (plan orders dist eligible) dist first with
        same | ⟨p, planned, moved, -⟩
      · exact same.trans here
      · exact absurd moved (plan_keeps_first list p planned)
  · intro placed
    have targets : ∀ p ∈ plan orders dist eligible, ∃ sn ∈ eligible, sn.nodeId = p.toSn := by
      intro p planned
      rcases plan_target planned with active | ⟨shard, held⟩
      · exact active
      · exact placed shard _ held
    refine ⟨targets, fun shard nodeId found => ?_⟩
    rcases RebalanceCoordinator.get?_migrateAll (plan orders dist eligible) dist shard with
      same | ⟨p, planned, -, there⟩
    · exact placed shard nodeId (same.symm.trans found)
    · exact Option.some.inj (there.symm.trans found) ▸ targets p planned

theorem draining_node_receives :
    let dist : Distribution Nat :=
      .ofList [(0, "b"), (1, "b"), (2, "b"), (3, "b"), (4, "b"), (5, "a")]
    let eligible := [NodeInfo.new "b" .storageNode "", .new "c" .storageNode ""]
    let moves := plan ⟨.ascending, .ascending, .ascending⟩ dist eligible
    moves.map (fun p => (p.shardId, p.fromSn, p.toSn)) = [(4, "b", "a"), (3, "b", "a")] ∧
      (RebalanceCoordinator.migrateAll dist moves).1.get? 5 = some "a" ∧
      ∀ sn ∈ eligible, sn.nodeId ≠ "a" := by
  decide +kernel

theorem length_shardsOf (order : HashIteration ι String) (nodeId : String) :
    (shardsOf order dist nodeId).length = load dist nodeId := by
  rw [shardsOf, length_map, ← countP_eq_length_filter, load,
    (order.iterate_perm dist).countP_eq]
  apply countP_congr
  intro e _
  rw [decide_eq_true_eq, beq_iff_eq]

theorem migrateAll_moved (plans : List (MigrationPlan ι)) (dist : Distribution ι)
    {p : MigrationPlan ι} (planned : p ∈ plans) : ∃ q ∈ plans, q.shardId = p.shardId ∧
      (RebalanceCoordinator.migrateAll dist plans).1.get? p.shardId = some q.toSn := by
  induction plans generalizing dist with
  | nil => cases planned
  | cons first rest ih =>
    rcases mem_cons.mp planned with rfl | later
    · rcases RebalanceCoordinator.get?_migrateAll rest (dist.insert p.shardId p.toSn) p.shardId with
        same | ⟨q, mem, moved, there⟩
      · exact ⟨p, mem_cons_self, rfl, by rw [OrdMap.get?_insert, if_pos rfl] at same; exact same⟩
      · exact ⟨q, mem_cons_of_mem _ mem, moved, there⟩
    · obtain ⟨q, mem, found⟩ := ih (dist.insert first.shardId first.toSn) later
      exact ⟨q, mem_cons_of_mem _ mem, found⟩

def groupsOf : List (String × List ι) :=
  orders.snShards.iterate (snShards orders.distribution dist eligible)

theorem plan_eq {eligible : List NodeInfo} (active : eligible ≠ []) :
    plan orders dist eligible =
      ((toGive (targetPerSn dist eligible) (groupsOf orders dist eligible)).zip
        (toFill (targetPerSn dist eligible) (groupsOf orders dist eligible))).map toPlan := by
  rw [plan, if_neg (by simpa using active), level_eq]
  rfl

section Placed
variable {dist eligible} (placed : OnEligible dist eligible)
  (distinct : (eligible.map NodeInfo.nodeId).Nodup)
include placed distinct

theorem groups_perm :
    (groupsOf orders dist eligible).Perm
      (eligible.map fun sn => (sn.nodeId, shardsOf orders.distribution dist sn.nodeId)) := by
  refine (perm_ext_iff_of_nodup (List.Nodup.of_map _ (orders.snShards.nodup_keys _))
    (List.Nodup.of_map Prod.fst (by simpa [Function.comp_def] using distinct))).mpr ?_
  rintro ⟨nodeId, shards⟩
  rw [orders.snShards.mem_iterate, mem_map]
  constructor
  · intro found
    obtain ⟨rfl, ⟨sn, mem, rfl⟩ | ⟨shard, held⟩⟩ := get?_snShards found
    · exact ⟨sn, mem, rfl⟩
    · obtain ⟨sn, mem, rfl⟩ := placed shard _ held
      exact ⟨sn, mem, rfl⟩
  · rintro ⟨sn, mem, same⟩
    obtain ⟨rfl, rfl⟩ := Prod.mk.inj same
    cases found : (snShards orders.distribution dist eligible).get? sn.nodeId with
    | none =>
      have absent := ((OrdMap.get?_foldl_push_eq_none _ _ _ _ _).mp found).1
      rw [get?_eligible, if_pos ⟨sn, mem, rfl⟩] at absent
      cases absent
    | some shards => rw [(get?_snShards found).1]

theorem shards_perm :
    (eligible.flatMap fun sn => shardsOf orders.distribution dist sn.nodeId).Perm
      (dist.entries.map Prod.fst) := by
  have apart : eligible.Pairwise fun a b => a.nodeId ≠ b.nodeId := pairwise_map.mp distinct
  refine (perm_ext_iff_of_nodup (nodup_flatMap.mpr
    ⟨fun sn _ => nodup_shardsOf _ _ _, apart.imp fun differ shard here there => ?_⟩)
    dist.nodup_keys).mpr fun shard => ?_
  · rw [mem_shardsOf] at here there
    exact differ (Option.some.inj (here.symm.trans there))
  · rw [mem_flatMap, mem_map]
    constructor
    · rintro ⟨sn, -, mem⟩
      exact ⟨(shard, sn.nodeId), (dist.mem_entries_iff _ _).mpr ((mem_shardsOf _ _ _ _).mp mem), rfl⟩
    · rintro ⟨⟨_, nodeId⟩, mem, rfl⟩
      have found := (dist.mem_entries_iff _ _).mp mem
      obtain ⟨sn, active, rfl⟩ := placed _ _ found
      exact ⟨sn, active, (mem_shardsOf _ _ _ _).mpr found⟩

variable (active : eligible ≠ [])
include active

theorem length_toGive_le :
    (toGive (targetPerSn dist eligible) (groupsOf orders dist eligible)).length ≤
      (toFill (targetPerSn dist eligible) (groupsOf orders dist eligible)).length := by
  have perm := groups_perm orders placed distinct
  have sums := sum_sub_le (targetPerSn dist eligible) (groupsOf orders dist eligible)
  have total : ((groupsOf orders dist eligible).map fun g => g.2.length).sum =
      dist.entries.length := by
    have all := (shards_perm orders placed distinct).length_eq
    rw [length_flatMap, length_map] at all
    rw [(perm.map _).sum_eq, map_map, ← all]
    rfl
  have nodes : (groupsOf orders dist eligible).length = eligible.length := by
    rw [perm.length_eq, length_map]
  have room : dist.entries.length ≤ eligible.length * targetPerSn dist eligible := by
    have positive := length_pos_iff.mpr active
    have ceil := Nat.lt_mul_div_succ (dist.entries.length + (eligible.length - 1)) positive
    rw [← targetPerSn, Nat.mul_succ] at ceil
    omega
  rw [total, nodes] at sums
  simp only [toGive, toFill, length_flatMap, surplus, places, length_map,
    length_reverse, length_drop, length_replicate]
  omega

theorem plan_gives : (plan orders dist eligible).map (fun p => (p.fromSn, p.shardId)) =
    toGive (targetPerSn dist eligible) (groupsOf orders dist eligible) := by
  rw [plan_eq orders dist active, map_map]
  exact map_fst_zip (length_toGive_le orders placed distinct active)

omit placed distinct in
variable (dist) in
theorem plan_fills : ((plan orders dist eligible).map MigrationPlan.toSn).Sublist
    (toFill (targetPerSn dist eligible) (groupsOf orders dist eligible)) := by
  rw [plan_eq orders dist active, map_map]
  exact map_snd_zip_sublist _ _

omit active in
theorem mem_groupsOf {g : String × List ι} (mem : g ∈ groupsOf orders dist eligible) :
    g.2 = shardsOf orders.distribution dist g.1 ∧ ∃ sn ∈ eligible, sn.nodeId = g.1 := by
  obtain ⟨sn, active, rfl⟩ := mem_map.mp ((groups_perm orders placed distinct).mem_iff.mp mem)
  exact ⟨rfl, sn, active, rfl⟩

theorem nodup_plan : ((plan orders dist eligible).map MigrationPlan.shardId).Nodup := by
  have given := congrArg (map Prod.snd) (plan_gives orders placed distinct active)
  rw [map_map] at given
  change map MigrationPlan.shardId _ = _ at given
  rw [given, toGive, map_flatMap, nodup_flatMap]
  have keys : (groupsOf orders dist eligible).Pairwise fun a b => a.1 ≠ b.1 :=
    pairwise_map.mp (orders.snShards.nodup_keys _)
  have inside : ∀ g ∈ groupsOf orders dist eligible, ∀ shard ∈ (surplus
      (targetPerSn dist eligible) g).map Prod.snd, dist.get? shard = some g.1 := by
    intro g mem shard here
    simp only [surplus, map_map, mem_map, mem_reverse, Function.comp_apply] at here
    obtain ⟨_, dropped, rfl⟩ := here
    rw [← mem_shardsOf orders.distribution, ← (mem_groupsOf orders placed distinct mem).1]
    exact mem_of_mem_drop dropped
  refine ⟨fun g mem => ?_, ?_⟩
  · have own := (mem_groupsOf orders placed distinct mem).1
    have shards := nodup_shardsOf orders.distribution dist g.1
    rw [← own] at shards
    simpa [surplus, Function.comp_def] using shards.sublist (drop_sublist _ _)
  · refine keys.imp_of_mem ?_
    intro a b inA inB differ shard here there
    have atA := inside a inA shard here
    have atB := inside b inB shard there
    exact differ (Option.some.inj (atA.symm.trans atB))

theorem length_plan : (plan orders dist eligible).length =
    (eligible.map fun sn => load dist sn.nodeId - targetPerSn dist eligible).sum := by
  have given := congrArg length (plan_gives orders placed distinct active)
  simp only [length_map, toGive, length_flatMap, surplus, length_reverse,
    length_drop] at given
  rw [((groups_perm orders placed distinct).map _).sum_eq,
    map_map] at given
  rw [given]
  simp only [Function.comp_def, length_shardsOf]

omit placed distinct active in
theorem plan_places {p : MigrationPlan ι} (planned : p ∈ plan orders dist eligible) :
    dist.get? p.shardId = some p.fromSn ∧ p.fromSn ≠ p.toSn := by
  obtain ⟨-, ⟨shards, inGroups, i, behind, there⟩, received, short, below⟩ := plan_moves p planned
  rw [orders.snShards.mem_iterate] at inGroups short
  have own := (get?_snShards inGroups).1
  refine ⟨?_, fun same => ?_⟩
  · rw [← mem_shardsOf orders.distribution, ← own]
    exact List.mem_of_getElem? there
  · -- a node is not above the target and below it
    rw [same, short] at inGroups
    obtain rfl := Option.some.inj inGroups
    have bound := (List.getElem?_eq_some_iff.mp there).1
    omega

theorem load_migrateAll (nodeId : String) :
    load (RebalanceCoordinator.migrateAll dist (plan orders dist eligible)).1 nodeId ≤
      targetPerSn dist eligible := by
  generalize after : (RebalanceCoordinator.migrateAll dist (plan orders dist eligible)).1 = dist'
  have arrives : ∀ shard, dist'.get? shard = some nodeId →
      (dist.get? shard = some nodeId ∧ ∀ p ∈ plan orders dist eligible, p.shardId ≠ shard) ∨
        ∃ p ∈ plan orders dist eligible, p.toSn = nodeId ∧ p.shardId = shard := by
    intro shard found
    by_cases moved : ∃ p ∈ plan orders dist eligible, p.shardId = shard
    · obtain ⟨p, planned, rfl⟩ := moved
      obtain ⟨q, mem, same, there⟩ := migrateAll_moved (plan orders dist eligible) dist planned
      rw [after, found] at there
      exact .inr ⟨q, mem, (Option.some.inj there).symm, same⟩
    · rcases RebalanceCoordinator.get?_migrateAll (plan orders dist eligible) dist shard with
        same | ⟨p, planned, same, -⟩
      · rw [after, found] at same
        exact .inl ⟨same.symm, fun p planned here => moved ⟨p, planned, here⟩⟩
      · exact absurd ⟨p, planned, same⟩ moved
  by_cases known : ∃ sn ∈ eligible, sn.nodeId = nodeId
  · obtain ⟨sn, mem, rfl⟩ := known
    have group := (groups_perm orders placed distinct).mem_iff.mpr (mem_map_of_mem mem)
    generalize own : shardsOf orders.distribution dist sn.nodeId = shards at group
    let arrivals := ((plan orders dist eligible).filter fun p => p.toSn == sn.nodeId).map
      MigrationPlan.shardId
    have few : arrivals.length ≤ targetPerSn dist eligible - shards.length := by
      have filled := (plan_fills orders dist active).count_le sn.nodeId
      have free : (toFill (targetPerSn dist eligible) (groupsOf orders dist eligible)).count
          sn.nodeId = targetPerSn dist eligible - shards.length :=
        count_toFill (orders.snShards.nodup_keys _) group
      rw [free, count, countP_map, countP_eq_length_filter] at filled
      rw [length_map]
      exact filled
    have within : ∀ shard ∈ shardsOf .ascending dist' sn.nodeId,
        shard ∈ shards.take (targetPerSn dist eligible) ++ arrivals := by
      intro shard here
      rw [mem_shardsOf] at here
      rw [mem_append]
      rcases arrives shard here with ⟨before, stays⟩ | ⟨p, planned, target, rfl⟩
      · left
        have listed : shard ∈ shards := own ▸ (mem_shardsOf _ _ _ _).mpr before
        rw [← take_append_drop (targetPerSn dist eligible) shards, mem_append] at listed
        refine listed.resolve_right fun beyond => ?_
        have given : (sn.nodeId, shard) ∈
            toGive (targetPerSn dist eligible) (groupsOf orders dist eligible) := by
          exact mem_flatMap.mpr ⟨(sn.nodeId, shards), group,
            mem_map.mpr ⟨shard, mem_reverse.mpr beyond, rfl⟩⟩
        rw [← plan_gives orders placed distinct active] at given
        obtain ⟨p, planned, same⟩ := mem_map.mp given
        exact stays p planned (Prod.mk.inj same).2
      · right
        exact mem_map_of_mem (mem_filter.mpr ⟨planned, by simp [target]⟩)
    have size := (subperm_of_subset (nodup_shardsOf .ascending dist' sn.nodeId) within).length_le
    rw [length_shardsOf, length_append, length_take] at size
    omega
  · have none : load dist' nodeId = 0 := by
      rw [← length_shardsOf dist' .ascending, length_eq_zero_iff, eq_nil_iff_forall_not_mem]
      intro shard here
      rw [mem_shardsOf] at here
      have still := ((evacuates_iff orders dist eligible).mpr placed).2
      rw [after] at still
      exact known (still shard nodeId here)
    omega

end Placed

/-- With eligible holders the plan levels to the target. -/
theorem plan_levels (active : eligible ≠ []) (distinct : (eligible.map NodeInfo.nodeId).Nodup)
    (placed : OnEligible dist eligible) :
    let target := (dist.entries.length + (eligible.length - 1)) / eligible.length
    let moves := plan orders dist eligible
    (moves.map MigrationPlan.shardId).Nodup ∧
      (∀ p ∈ moves, dist.get? p.shardId = some p.fromSn ∧ p.fromSn ≠ p.toSn ∧
        ∃ sn ∈ eligible, sn.nodeId = p.toSn) ∧
      moves.length = (eligible.map fun sn => load dist sn.nodeId - target).sum ∧
      ∀ nodeId, load (RebalanceCoordinator.migrateAll dist moves).1 nodeId ≤ target := by
  intro target moves
  refine ⟨nodup_plan orders placed distinct active, fun p planned => ?_,
    length_plan orders placed distinct active, load_migrateAll orders placed distinct active⟩
  obtain ⟨here, differ⟩ := plan_places orders planned
  exact ⟨here, differ, ((evacuates_iff orders dist eligible).mpr placed).1 p planned⟩

theorem plan_levels_two_nodes :
    let dist : Distribution Nat := .ofList [(0, "a"), (1, "a"), (2, "a")]
    let eligible := [NodeInfo.new "a" .storageNode "", .new "b" .storageNode ""]
    let moves := plan ⟨.ascending, .ascending, .ascending⟩ dist eligible
    moves.length = 1 ∧ ∀ nodeId, load (RebalanceCoordinator.migrateAll dist moves).1 nodeId ≤ 2 := by
  intro dist eligible moves
  have levels := plan_levels ⟨.ascending, .ascending, .ascending⟩ dist eligible (by simp [eligible])
    (by decide +kernel) (by
      intro shard nodeId found
      have only : ∀ e ∈ dist.entries, ∃ sn ∈ eligible, sn.nodeId = e.2 := by decide +kernel
      exact only _ ((dist.mem_entries_iff shard nodeId).mpr found))
  exact ⟨levels.2.2.1.trans (by decide +kernel),
    fun nodeId => Nat.le_trans (levels.2.2.2 nodeId) (by decide +kernel)⟩

end WowDb.Query.RebalancePlanner
