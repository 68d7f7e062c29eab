import WowDb.Lib.Interval
import WowDb.Storage.CompactionOutcome

/-!
# A compaction keeps the keys covered

Without a TTL every output spans the least to the greatest key of all inputs, so taking the inputs
out and putting the outputs in uncovers no key.
-/
namespace WowDb.Storage.PartitionCompactor
open WowDb.Lib PartitionLevels List

variable (C : EventCodec)

def range (f : SstRef) : Bytes × Bytes := (f.minSortKey, f.maxSortKey)

theorem overlapsWith_iff_meets (a b : SstRef) :
    a.overlapsWith b = true ↔ Interval.Meets (range a) (range b) :=
  SstRef.overlapsWith_iff a b

theorem not_overlapsWith_iff (a b : SstRef) :
    a.overlapsWith b = false ↔ ¬ Interval.Meets (range a) (range b) := by
  rw [← overlapsWith_iff_meets, Bool.not_eq_true]

def Proper (f : SstRef) : Prop := f.minSortKey ≤ f.maxSortKey

def NonOverlapping (p : PartitionLevels) : Prop := p.verifyNonOverlapping = .ok ()

theorem nonOverlapping_iff_levels (p : PartitionLevels) :
    NonOverlapping p ↔ ∀ i, 1 ≤ i → RangesDisjoint (p.level i) := by
  rw [NonOverlapping, verifyNonOverlapping_ok_iff]
  constructor
  · intro every i positive
    by_cases inside : i < p.levels.length
    · obtain ⟨k, rfl⟩ : ∃ k, i = k + 1 := ⟨i - 1, by omega⟩
      apply every
      have found : p.levels.tail[k]? = some (p.level (k + 1)) := by
        simp [level, inside]
      exact mem_of_getElem? found
    · rw [level_eq_nil (by omega)]
      exact List.Pairwise.nil
  · intro every ssts member
    obtain ⟨k, bound, rfl⟩ := mem_iff_getElem.mp member
    have found : p.level (k + 1) = p.levels.tail[k] := by
      have inside : k + 1 < p.levels.length := by
        simp at bound
        omega
      simp [level, inside]
    rw [← found]
    exact every (k + 1) (by omega)

theorem disjoint_perm {xs ys : List SstRef} (perm : xs.Perm ys) : RangesDisjoint xs ↔
    RangesDisjoint ys := by
  apply perm.pairwise_iff
  intro a b apart
  rw [SstRef.overlapsWith_comm]
  exact apart

theorem disjoint_append_singleton (kept : List SstRef) (o : SstRef) :
    RangesDisjoint (kept ++ [o]) ↔ RangesDisjoint kept ∧ ∀ f ∈ kept, o.overlapsWith f = false := by
  simp only [RangesDisjoint, pairwise_append, pairwise_singleton, true_and,
    mem_singleton, forall_eq]
  refine and_congr_right fun _ => forall₂_congr fun f _ => ?_
  rw [SstRef.overlapsWith_comm]

variable {inputs : List SstRef}

theorem minKey_mem (nonempty : inputs ≠ []) : minKey inputs ∈ inputs.map (·.minSortKey) := by
  unfold minKey
  cases least : (inputs.map (·.minSortKey)).min? with
  | none =>
    have impossible := min?_eq_none_iff.mp least
    exact absurd (map_eq_nil_iff.mp impossible) nonempty
  | some key => exact min?_mem least

theorem maxKey_mem (nonempty : inputs ≠ []) : maxKey inputs ∈ inputs.map (·.maxSortKey) := by
  unfold maxKey
  cases greatest : (inputs.map (·.maxSortKey)).max? with
  | none =>
    have impossible := max?_eq_none_iff.mp greatest
    exact absurd (map_eq_nil_iff.mp impossible) nonempty
  | some key => exact max?_mem greatest

theorem minKey_le {f : SstRef} (member : f ∈ inputs) : minKey inputs ≤ f.minSortKey := by
  unfold minKey
  cases least : (inputs.map (·.minSortKey)).min? with
  | none =>
    have impossible := map_eq_nil_iff.mp (min?_eq_none_iff.mp least)
    rw [impossible] at member
    cases member
  | some key => exact (min?_eq_some_iff.mp least).2 _ (mem_map_of_mem member)

theorem le_maxKey {f : SstRef} (member : f ∈ inputs) : f.maxSortKey ≤ maxKey inputs := by
  unfold maxKey
  cases greatest : (inputs.map (·.maxSortKey)).max? with
  | none =>
    have impossible := map_eq_nil_iff.mp (max?_eq_none_iff.mp greatest)
    rw [impossible] at member
    cases member
  | some key => exact (max?_eq_some_iff.mp greatest).2 _ (mem_map_of_mem member)

theorem disjoint_apart {ssts : List SstRef} (disjoint : RangesDisjoint ssts) {a b : SstRef}
    (inA : a ∈ ssts) (inB : b ∈ ssts) (different : a ≠ b) : a.overlapsWith b = false := by
  have symmetric : ∀ x y : SstRef, x.overlapsWith y = false → y.overlapsWith x = false := by
    intro x y apart
    rw [SstRef.overlapsWith_comm]
    exact apart
  have : Std.Symm fun x y : SstRef => x.overlapsWith y = false := ⟨symmetric⟩
  exact List.Pairwise.forall disjoint inA inB different

variable {s : PartitionCompactor} {job : CompactionJob} {env : CompactionEnv} {outs : List SstRef}

variable (merged : s.mergeSortInputs env job = some outs)

include merged

theorem output_avoids_remaining {oldest o f : SstRef} (out : o ∈ outs)
    (inputs : job.inputs = oldest :: (s.levels.level job.outputLevel).filter oldest.overlapsWith)
    (disjoint : RangesDisjoint (s.levels.level job.outputLevel)) (properOldest : Proper oldest)
    (remaining : f ∈ s.levels.level job.outputLevel) (proper : Proper f)
    (noInput : f.id ∉ job.inputs.map (·.id)) : o.overlapsWith f = false := by
  rcases mergeSortInputs_spec merged with ⟨-, rfl⟩ | ⟨nonempty, -, each⟩
  · cases out
  · obtain ⟨-, -, lowest, highest⟩ := each o out
    have noMember : f ∉ job.inputs := fun member => noInput (mem_map_of_mem member)
    have apart : ¬ Interval.Meets (range oldest) (range f) := by
      rw [← overlapsWith_iff_meets]
      intro overlap
      apply noMember
      rw [inputs]
      exact mem_cons_of_mem oldest (mem_filter.mpr ⟨remaining, overlap⟩)
    have cluster : ∀ x ∈ job.inputs, Interval.Meets (range oldest) (range x) ∧
        ¬ Interval.Meets (range x) (range f) := by
      intro x member
      rw [inputs] at member
      rcases mem_cons.mp member with rfl | below
      · exact ⟨⟨properOldest, properOldest⟩, apart⟩
      · obtain ⟨inLevel, overlap⟩ := mem_filter.mp below
        have different : x ≠ f := by
          rintro rfl
          apply noMember
          rw [inputs]
          exact member
        refine ⟨(overlapsWith_iff_meets oldest x).mp overlap, ?_⟩
        rw [← not_overlapsWith_iff]
        exact disjoint_apart disjoint inLevel remaining different
    have survivors : ∀ r ∈ (job.inputs.filter (survives s.ttl env.nowSecs)).map range,
        Interval.Meets (range oldest) r ∧ ¬ Interval.Meets r (range f) := by
      intro r member
      obtain ⟨g, survived, rfl⟩ := mem_map.mp member
      exact cluster g (mem_filter.mp survived).1
    rw [not_overlapsWith_iff, range, lowest, highest]
    apply Interval.not_meets_hull proper apart survivors
    · simpa [range, Function.comp_def] using minKey_mem nonempty
    · simpa [range, Function.comp_def] using maxKey_mem nonempty

theorem outputs_overlap
    (proper : ∀ f ∈ job.inputs, Proper f) {a b : SstRef} (inA : a ∈ outs) (inB : b ∈ outs) :
    a.overlapsWith b = true := by
  rcases mergeSortInputs_spec merged with ⟨-, rfl⟩ | ⟨nonempty, -, each⟩
  · cases inA
  · obtain ⟨-, -, lowA, highA⟩ := each a inA
    obtain ⟨-, -, lowB, highB⟩ := each b inB
    obtain ⟨f, survived⟩ := exists_mem_of_ne_nil _ nonempty
    have hull : minKey (job.inputs.filter (survives s.ttl env.nowSecs)) ≤
        maxKey (job.inputs.filter (survives s.ttl env.nowSecs)) :=
      calc minKey _ ≤ f.minSortKey := minKey_le survived
        _ ≤ f.maxSortKey := proper f (mem_filter.mp survived).1
        _ ≤ maxKey _ := le_maxKey survived
    rw [SstRef.overlapsWith_iff, lowA, highA, lowB, highB]
    exact ⟨hull, hull⟩

theorem output_proper
    (proper : ∀ f ∈ job.inputs, Proper f) {o : SstRef} (out : o ∈ outs) : Proper o :=
  ((SstRef.overlapsWith_iff o o).mp (outputs_overlap merged proper out out)).1

omit merged

theorem disjoint_filter {ssts : List SstRef} (disjoint : RangesDisjoint ssts)
    (keep : SstRef → Bool) : RangesDisjoint (ssts.filter keep) :=
  List.Pairwise.sublist filter_sublist disjoint

theorem disjoint_append_outputs {kept : List SstRef} (disjoint : RangesDisjoint kept)
    (overlap : ∀ a ∈ outs, ∀ b ∈ outs, a.overlapsWith b = true) :
    RangesDisjoint (kept ++ outs) ↔
      outs.length ≤ 1 ∧ ∀ o ∈ outs, ∀ f ∈ kept, o.overlapsWith f = false := by
  cases outs with
  | nil => simpa using disjoint
  | cons o rest =>
    cases rest with
    | nil => simp [disjoint_append_singleton, disjoint]
    | cons o' rest =>
      have first := overlap o (by simp) o' (by simp)
      constructor
      · intro all
        have pair := pairwise_cons.mp (pairwise_append.mp all).2.1
        have apart := pair.1 o' (by simp)
        rw [first] at apart
        cases apart
      · rintro ⟨short, -⟩
        simp at short

/-- A run inserts one output, which overlaps nothing in L1. -/
def KeepsApart (s : Registered) : Call → Prop
  | .flush _ _ => True
  | .compact p jobId env =>
    ∀ job ∈ s.compactor.pick jobId p, ∀ outs ∈ committed C s.compactor job env,
      job.outputLevel < s.compactor.levels.levels.length →
        outs.length ≤ 1 ∧ (job.inputLevel = 0 → ∀ o ∈ outs, ∀ f ∈ s.compactor.levels.level 1,
          f.id ∉ job.inputs.map (·.id) → o.overlapsWith f = false)

def ProperFlush (_ : Registered) : Call → Prop
  | .flush _ sst => Proper sst
  | .compact _ _ _ => True

instance (s : Registered) (c : Call) : Decidable (ProperFlush s c) :=
  match c with
  | .flush _ sst => inferInstanceAs (Decidable (sst.minSortKey ≤ sst.maxSortKey))
  | .compact _ _ _ => isTrue trivial

instance (s : Registered) (c : Call) : Decidable (KeepsApart C s c) :=
  match c with
  | .flush _ _ => isTrue trivial
  | .compact p jobId env => inferInstanceAs (Decidable
      (∀ job ∈ s.compactor.pick jobId p, ∀ outs ∈ committed C s.compactor job env,
        job.outputLevel < s.compactor.levels.levels.length →
          outs.length ≤ 1 ∧ (job.inputLevel = 0 → ∀ o ∈ outs, ∀ f ∈ s.compactor.levels.level 1,
            f.id ∉ job.inputs.map (·.id) → o.overlapsWith f = false)))

def AllProper (s : Registered) : Prop := ∀ i, ∀ f ∈ s.compactor.levels.level i, Proper f

theorem inputs_proper {s : Registered} (proper : AllProper s)
    (selected : Selected s.compactor job) : ∀ f ∈ job.inputs, Proper f := by
  intro f member
  rcases input_level selected member with upper | lower
  · exact proper _ f upper
  · exact proper _ f lower

theorem step_allProper (s : Registered) (c : Call) (t : Registered) (proper : AllProper s)
    (flushes : ProperFlush s c) (ok : step C s c = some t) : AllProper t := by
  intro i f member
  cases c with
  | flush io sst =>
    rcases step_flush C ok with ⟨levels, -⟩ | ⟨-, placed⟩
    · rw [levels] at member
      exact proper i f member
    · rcases mem_append.mp ((placed i).mem_iff.mp member) with old | new
      · exact proper i f old
      · split at new
        · rw [mem_singleton.mp new]
          exact flushes
        · cases new
  | compact p jobId env =>
    obtain ⟨job, picked, rfl⟩ := step_compact C ok
    have selected := selected_of_pick picked
    cases commit : committed C s.compactor job env with
    | none =>
      simp only [runCompaction_level_of_none C commit] at member
      exact proper i f member
    | some outs =>
      rcases mem_level_runCompaction C commit member with ⟨old, -⟩ | ⟨-, out⟩
      · exact proper i f old
      · exact output_proper (committed_mergeSortInputs C commit) (inputs_proper proper selected) out

theorem runCompaction_nonOverlapping_iff (commit : committed C s job env = some outs)
    (apart : NonOverlapping s.levels) (positive : 1 ≤ job.outputLevel) :
    NonOverlapping (runCompaction C s job env).1.levels ↔
      (job.outputLevel < s.levels.levels.length →
        RangesDisjoint ((s.levels.level job.outputLevel).filter
          (fun f => f.id ∉ job.inputs.map (·.id)) ++ outs)) := by
  rw [nonOverlapping_iff_levels] at apart ⊢
  constructor
  · intro every inside
    have perm := runCompaction_level C commit job.outputLevel
    rw [if_pos ⟨rfl, inside⟩] at perm
    exact (disjoint_perm perm).mp (every job.outputLevel positive)
  · intro output i above
    rw [disjoint_perm (runCompaction_level C commit i)]
    split
    · next inside =>
      obtain ⟨rfl, inside⟩ := inside
      exact output inside
    · rw [append_nil]
      exact disjoint_filter (apart i above) _

theorem step_nonOverlapping_iff (s : Registered) (c : Call) (t : Registered)
    (proper : AllProper s) (apart : NonOverlapping s.compactor.levels)
    (ok : step C s c = some t) : NonOverlapping t.compactor.levels ↔ KeepsApart C s c := by
  cases c with
  | flush io sst =>
    refine iff_of_true ?_ trivial
    rcases step_flush C ok with ⟨levels, -⟩ | ⟨-, placed⟩
    · rw [levels]
      exact apart
    · rw [nonOverlapping_iff_levels] at apart ⊢
      intro i above
      rw [disjoint_perm (placed i), if_neg (by omega), append_nil]
      exact apart i above
  | compact p jobId env =>
    obtain ⟨job, picked, rfl⟩ := step_compact C ok
    have selected := selected_of_pick picked
    have successor := output_eq_succ selected
    simp only [KeepsApart, picked, Option.mem_def, Option.some.injEq, forall_eq']
    cases commit : committed C s.compactor job env with
    | none =>
      simp only [runCompaction_level_of_none C commit, reduceCtorEq, false_implies, implies_true,
        iff_true]
      exact apart
    | some outs =>
      have merged := committed_mergeSortInputs C commit
      have levels := (nonOverlapping_iff_levels s.compactor.levels).mp apart job.outputLevel
        (by omega)
      rw [runCompaction_nonOverlapping_iff C commit apart (by omega)]
      simp only [Option.some.injEq, forall_eq']
      refine imp_congr_right fun _ => ?_
      rw [disjoint_append_outputs (disjoint_filter levels _) fun a inA b inB =>
        outputs_overlap merged (inputs_proper proper selected) inA inB]
      refine and_congr_right fun _ => ?_
      simp only [mem_filter, decide_eq_true_eq, and_imp]
      cases selected with
      | l0 input output inputs => simp only [input, output, true_implies]
      | ln oldest output member least inputs =>
        have avoids : ∀ o ∈ outs, ∀ f ∈ s.compactor.levels.level job.outputLevel,
            f.id ∉ job.inputs.map (·.id) → o.overlapsWith f = false :=
          fun o out f remaining noInput => output_avoids_remaining merged out inputs levels
            (proper _ oldest member) remaining (proper _ f remaining) noInput
        refine iff_of_true avoids fun level => ?_
        rw [level] at output
        rwa [output] at avoids

/-- The check passes exactly when runs keep ranges apart. -/
theorem nonOverlap_iff (partitionDir : String) (config : CompactionConfig)
    (ttl : Option TtlConfig) (calls : List Call)
    (flushes : Run.EveryStep (step C) ProperFlush (fresh partitionDir config ttl) calls) :
    Run.EveryState (step C) (fun s => NonOverlapping s.compactor.levels)
        (fresh partitionDir config ttl) calls ↔
      Run.EveryStep (step C) (KeepsApart C) (fresh partitionDir config ttl) calls := by
  apply Run.everyState_iff_everyStep AllProper
  · exact step_allProper C
  · intro s c t proper _ apart ok
    exact step_nonOverlapping_iff C s c t proper apart ok
  · intro i f member
    rw [fresh_level] at member
    cases member
  · rw [nonOverlapping_iff_levels]
    intro i _
    rw [fresh_level]
    exact List.Pairwise.nil
  · exact flushes

theorem nonOverlap_of_distant_flushes :
    let config : CompactionConfig := { l0FileCompactionTrigger := 2 }
    let file (n : Nat) (lo hi : UInt8) : SstRef :=
      ⟨BitVec.ofNat 128 n, n, 0, [], 0, "seg.col", 1024, 10, [lo], [hi]⟩
    let env (id : Uuid) : CompactionEnv := ⟨0, fun _ => id, .succeeds, ⟨.succeeds, false, true⟩⟩
    Run.EveryState (step ManifestJson.jsonCodec) (fun s => NonOverlapping s.compactor.levels)
      (fresh "p" config none)
      [.flush .succeeds (file 1 0 5), .flush .succeeds (file 2 3 9), .compact .priority 10 (env 11),
        .flush .succeeds (file 3 20 30), .flush .succeeds (file 4 25 40),
        .compact .priority 12 (env 13)] := by
  intro config file env
  apply (nonOverlap_iff _ _ _ _ _ _).mpr
  · decide +kernel
  · decide +kernel

theorem l0_compaction_overlaps_l1 :
    let config : CompactionConfig := { l0FileCompactionTrigger := 1 }
    let file (n : Nat) (lo hi : UInt8) : SstRef :=
      ⟨BitVec.ofNat 128 n, n, 0, [], 0, "seg.col", 1024, 10, [lo], [hi]⟩
    let env (id : Uuid) : CompactionEnv := ⟨0, fun _ => id, .succeeds, ⟨.succeeds, true, true⟩⟩
    (Run.exec (step ManifestJson.jsonCodec) (fresh "p" config none)
      [.flush .succeeds (file 1 0 9), .compact .priority 10 (env 11),
        .flush .succeeds (file 2 5 6), .compact .priority 12 (env 13)]).map
      (fun s => s.compactor.levels.verifyNonOverlapping) = some (.error ⟨1, 11, 13⟩) := by
  decide +kernel

structure Covers (job : CompactionJob) (before after : List SstRef) : Prop where
  keys : ∀ key, (∃ f ∈ before, f.keyInRange key = true) → ∃ f ∈ after, f.keyInRange key = true
  kept : ∀ f ∈ before, f ∉ job.inputs → f ∈ after
  gone : ∀ x ∈ job.inputs, x ∉ after
  listed : ∀ f ∈ after, f ∉ before → ∀ x ∈ job.inputs, x.id ∈ f.compactedFrom

def KeepsCoverage (job : CompactionJob) (s t : PartitionCompactor) : Prop :=
  Covers job s.levels.readSnapshot t.levels.readSnapshot ∧
    Covers job s.manifest.manifest.active t.manifest.manifest.active

variable {s : PartitionCompactor} {job : CompactionJob}

theorem input_mem_readSnapshot (selected : Selected s job) {x : SstRef} (input : x ∈ job.inputs) :
    x ∈ s.levels.readSnapshot := by
  rcases input_level selected input with upper | lower
  · exact mem_readSnapshot.mpr ⟨_, upper⟩
  · exact mem_readSnapshot.mpr ⟨_, lower⟩

theorem survivors_of_noTtl (noTtl : s.ttl = none) (nowSecs : Nat) (inputs : List SstRef) :
    inputs.filter (survives s.ttl nowSecs) = inputs := by
  rw [noTtl]
  exact filter_eq_self.mpr fun _ _ => rfl

variable {env : CompactionEnv} {outs : List SstRef}

theorem output_covers (noTtl : s.ttl = none) (merged : s.mergeSortInputs env job = some outs)
    {x : SstRef} (input : x ∈ job.inputs) {key : Bytes} (inside : x.keyInRange key = true) :
    ∃ o ∈ outs, o.keyInRange key = true := by
  rcases mergeSortInputs_spec merged with ⟨expired, -⟩ | ⟨-, nonempty, each⟩
  · rw [survivors_of_noTtl noTtl] at expired
    rw [expired] at input
    cases input
  · rw [survivors_of_noTtl noTtl] at each
    obtain ⟨o, output⟩ := exists_mem_of_ne_nil outs nonempty
    obtain ⟨-, -, least, greatest⟩ := each o output
    simp only [SstRef.keyInRange, Bool.and_eq_true, decide_eq_true_eq] at inside ⊢
    refine ⟨o, output, ?_, ?_⟩
    · rw [least]
      exact le_trans (minKey_le input) inside.1
    · rw [greatest]
      exact le_trans inside.2 (le_maxKey input)

theorem covers_replaced {before after : List SstRef} (noTtl : s.ttl = none)
    (merged : s.mergeSortInputs env job = some outs)
    (content : ∀ f, f ∈ after ↔ (f ∈ before ∧ f.id ∉ job.inputs.map (·.id)) ∨ f ∈ outs)
    (named : ∀ f ∈ before, f.id ∈ job.inputs.map (·.id) → f ∈ job.inputs)
    (other : ∀ x ∈ job.inputs, ∀ o ∈ outs, x.id ≠ o.id) : Covers job before after := by
  refine ⟨?_, ?_, ?_, ?_⟩
  · rintro key ⟨f, active, inside⟩
    by_cases taken : f.id ∈ job.inputs.map (·.id)
    · obtain ⟨o, output, spans⟩ := output_covers noTtl merged (named f active taken) inside
      exact ⟨o, (content o).mpr (Or.inr output), spans⟩
    · exact ⟨f, (content f).mpr (Or.inl ⟨active, taken⟩), inside⟩
  · intro f active noInput
    exact (content f).mpr (Or.inl ⟨active, fun taken => noInput (named f active taken)⟩)
  · intro x input stays
    rcases (content x).mp stays with ⟨-, notTaken⟩ | output
    · exact notTaken (mem_map_of_mem input)
    · exact other x input x output rfl
  · intro f active new x input
    rcases (content f).mp active with ⟨old, -⟩ | output
    · exact absurd old new
    · rw [output_compactedFrom merged output]
      exact mem_map_of_mem input

variable (C : EventCodec)

theorem done_keepsCoverage {t : PartitionCompactor} (noTtl : s.ttl = none)
    (distinct : DistinctIds s) (selected : Selected s job) (new : NewOutputs s job env)
    (merged : s.mergeSortInputs env job = some outs)
    (levels : addAll (removeAll s.levels (job.inputs.map (·.id))) outs = (t.levels, true))
    (manifest : t.manifest.manifest = completedBy s job outs) : KeepsCoverage job s t := by
  have held := fun {x} (input : x ∈ job.inputs) => input_mem_readSnapshot selected input
  have other : ∀ x ∈ job.inputs, ∀ o ∈ outs, x.id ≠ o.id := fun x input o output =>
    (new outs merged).2 o output x (mem_append_left _ (held input))
  refine ⟨covers_replaced noTtl merged ?_ ?_ other, covers_replaced noTtl merged ?_ ?_ other⟩
  · intro f
    rw [(placed_readSnapshot merged levels).mem_iff]
    simp
  · intro f active taken
    obtain ⟨x, input, same⟩ := mem_map.mp taken
    rw [← eq_of_id_eq distinct.levels (held input) active same]
    exact input
  · intro f
    rw [manifest, completedBy_active]
    simp
  · intro f active taken
    obtain ⟨x, input, same⟩ := mem_map.mp taken
    rw [← distinct.same x (held input) f active same]
    exact input

theorem runCompaction_done_iff (noTtl : s.ttl = none)
    (returned : (runCompaction C s job env).2 ≠ .manifestError) :
    (∃ result, (runCompaction C s job env).2 = .done result) ↔ (job.inputs = [] ∨
        (0 < s.config.targetFileSizeBytes ∧ job.outputLevel < s.levels.levels.length)) := by
  have fits : ∀ outs, s.mergeSortInputs env job = some outs →
      ((addAll (removeAll s.levels (job.inputs.map (·.id))) outs).2 = true ↔
        outs = [] ∨ job.outputLevel < s.levels.levels.length) := by
    intro outs merged
    have placed := (addAll_readSnapshot (outputs_level merged)
      (removeAll s.levels (job.inputs.map (·.id)))).1
    rwa [(removeAll_level s.levels _ 0).1] at placed
  have empty_iff : ∀ outs, s.mergeSortInputs env job = some outs →
      (outs = [] ↔ job.inputs = []) := by
    intro outs merged
    rcases mergeSortInputs_spec merged with ⟨expired, none⟩ | ⟨surviving, some, -⟩
    · rw [survivors_of_noTtl noTtl] at expired
      simp [none, expired]
    · rw [survivors_of_noTtl noTtl] at surviving
      simp [some, surviving]
  have undefined := @mergeSortInputs_eq_none s env job
  rw [survivors_of_noTtl noTtl] at undefined
  have effect := runCompaction_effect C s job env
  generalize (runCompaction C s job env).1 = t at effect
  generalize (runCompaction C s job env).2 = outcome at effect returned ⊢
  cases effect with
  | notBegun failed levels manifest => exact absurd rfl returned
  | notCompleted began outs merged levels manifest => exact absurd rfl returned
  | notMerged began merged levels active =>
    obtain ⟨some, zero⟩ := undefined.mp merged
    simp [some, zero]
  | notPlaced began outs merged levels manifest =>
    have placed := fits outs merged
    rw [levels, empty_iff outs merged] at placed
    simp only [Bool.false_eq_true, false_iff, not_or] at placed
    simp only [reduceCtorEq, exists_false, false_iff, not_or, not_and]
    exact ⟨placed.1, fun _ => placed.2⟩
  | done began outs merged levels manifest =>
    have placed := fits outs merged
    rw [levels, empty_iff outs merged] at placed
    simp only [CompactionOutcome.done.injEq, exists_eq', true_iff]
    rcases placed.mp rfl with nothing | inside
    · exact Or.inl nothing
    · by_cases nothing : job.inputs = []
      · exact Or.inl nothing
      · refine Or.inr ⟨?_, inside⟩
        by_contra zero
        rw [undefined.mpr ⟨nothing, by omega⟩] at merged
        cases merged

/-- Coverage is kept exactly when outputs can be written. -/
theorem coverage_kept_iff (partitionDir : String) (config : CompactionConfig)
    (file : Option Bytes) (s : PartitionCompactor)
    (opened : new C partitionDir config none file = some s) (distinct : DistinctIds s)
    (calls : List Call) (newIds : Run.EveryStep (step C) NewIds ⟨s, []⟩ calls) (t : Registered)
    (reached : Run.exec (step C) ⟨s, []⟩ calls = some t) (p : Pick) (jobId : Uuid)
    (job : CompactionJob) (picked : t.compactor.pick jobId p = some job) (env : CompactionEnv)
    (newOutputs : NewOutputs t.compactor job env)
    (returned : (runCompaction C t.compactor job env).2 ≠ .manifestError) :
    (∃ result, (runCompaction C t.compactor job env).2 = .done result ∧
        KeepsCoverage job t.compactor (runCompaction C t.compactor job env).1) ↔
      (job.inputs = [] ∨
        (0 < config.targetFileSizeBytes ∧ job.outputLevel ≤ config.maxLevels)) := by
  obtain ⟨length, sameConfig, noTtl⟩ := reached_shape C opened reached
  have distinctNow : DistinctIds t.compactor :=
    Run.everyState_of_everyStep (step_distinctIds C) calls ⟨s, []⟩ distinct newIds calls t
      (prefix_refl calls) reached
  have done := runCompaction_done_iff C noTtl returned
  rw [sameConfig, length, Nat.lt_succ_iff] at done
  rw [← done]
  constructor
  · rintro ⟨result, ended, -⟩
    exact ⟨result, ended⟩
  · rintro ⟨result, ended⟩
    refine ⟨result, ended, ?_⟩
    have effect := runCompaction_effect C t.compactor job env
    rw [ended] at effect
    generalize (runCompaction C t.compactor job env).1 = u at effect ⊢
    cases effect with
    | done began outs merged levels manifest =>
      exact done_keepsCoverage noTtl distinctNow (selected_of_pick picked) newOutputs merged levels
        manifest

theorem coverage_kept_by_merge :
    let config : CompactionConfig := { l0FileCompactionTrigger := 2 }
    let file (n : Nat) (lo hi : UInt8) : SstRef :=
      ⟨BitVec.ofNat 128 n, n, 0, [], 0, "seg.col", 1024, 10, [lo], [hi]⟩
    let env : CompactionEnv := ⟨0, fun _ => 11, .succeeds, ⟨.succeeds, false, true⟩⟩
    let job : CompactionJob := ⟨10, 0, 1, [file 1 3 9, file 2 0 5]⟩
    let run := Run.exec (step ManifestJson.jsonCodec) (fresh "p" config none)
      [.flush .succeeds (file 1 3 9), .flush .succeeds (file 2 0 5)]
    ∃ t, run = some t ∧ ∃ result,
      (runCompaction ManifestJson.jsonCodec t.compactor job env).2 = .done result ∧
        KeepsCoverage job t.compactor
          (runCompaction ManifestJson.jsonCodec t.compactor job env).1 := by
  intro config file env job run
  refine ⟨_, rfl, ?_⟩
  refine (coverage_kept_iff ManifestJson.jsonCodec "p" config none (empty "p" config none) rfl
    ⟨by decide, by decide, by decide⟩ [.flush .succeeds (file 1 3 9), .flush .succeeds (file 2 0 5)]
    (by decide +kernel) _ rfl .l0 10 job (by decide +kernel) env (by decide +kernel)
    (by decide +kernel)).mpr ?_
  exact Or.inr ⟨by decide, by decide⟩

theorem last_level_job_loses_keys :
    let file (n : Nat) : SstRef :=
      ⟨BitVec.ofNat 128 n, n, 0, [], 0, "seg.col", 1024, 10, [3], [9]⟩
    let env (n : Nat) : CompactionEnv :=
      ⟨0, fun _ => BitVec.ofNat 128 n, .succeeds, ⟨.succeeds, false, true⟩⟩
    let run := runCompaction ManifestJson.jsonCodec
    let reached := Run.exec (step ManifestJson.jsonCodec) (fresh "p" {} none)
      [.flush .succeeds (file 1), .flush .succeeds (file 2), .flush .succeeds (file 3),
        .flush .succeeds (file 4), .compact .l0 10 (env 11), .compact (.ln 1) 20 (env 21),
        .compact (.ln 2) 30 (env 31), .compact (.ln 3) 40 (env 41), .compact (.ln 4) 50 (env 51),
        .compact (.ln 5) 60 (env 61)]
    (do
      let t ← reached
      let job ← t.compactor.pickLnCompaction 6 70
      let after := run t.compactor job (env 71)
      some (t.compactor.levels.readSnapshot.any (·.keyInRange [5]), after.2,
        after.1.levels.readSnapshot.any (·.keyInRange [5]))) =
      some (true, .panicked, false) := by
  decide +kernel

variable (C : EventCodec)

def Stratified (p : PartitionLevels) : Prop :=
  ∀ i j, i < j → ∀ a ∈ p.level i, ∀ b ∈ p.level j, b.sequenceNum ≤ a.sequenceNum

def IncreasingFlush (s : Registered) : Call → Prop
  | .flush _ sst => ∀ n ∈ s.flushed, n < sst.sequenceNum
  | .compact _ _ _ => True

instance (s : Registered) (c : Call) : Decidable (IncreasingFlush s c) :=
  match c with
  | .flush _ sst => inferInstanceAs (Decidable (∀ n ∈ s.flushed, n < sst.sequenceNum))
  | .compact _ _ _ => isTrue trivial

def SequenceInv (s : Registered) : Prop :=
  Stratified s.compactor.levels ∧ ∀ i, ∀ f ∈ s.compactor.levels.level i, f.sequenceNum ∈ s.flushed

theorem maxSeq_mem {inputs : List SstRef} (nonempty : inputs ≠ []) :
    ∃ x ∈ inputs, x.sequenceNum = maxSeq inputs := by
  unfold maxSeq
  cases greatest : (inputs.map (·.sequenceNum)).max? with
  | none =>
    have impossible := max?_eq_none_iff.mp greatest
    exact absurd (map_eq_nil_iff.mp impossible) nonempty
  | some n =>
    have member := max?_mem greatest
    obtain ⟨x, inInputs, value⟩ := mem_map.mp member
    exact ⟨x, inInputs, value⟩

variable {s : PartitionCompactor} {job : CompactionJob}

theorem output_sequenceNum {env : CompactionEnv} {outs : List SstRef}
    (merged : s.mergeSortInputs env job = some outs) {o : SstRef} (member : o ∈ outs) :
    ∃ x ∈ job.inputs, x.sequenceNum = o.sequenceNum := by
  rcases mergeSortInputs_spec merged with ⟨-, rfl⟩ | ⟨nonempty, -, each⟩
  · cases member
  · obtain ⟨x, survives, value⟩ := maxSeq_mem nonempty
    exact ⟨x, (mem_filter.mp survives).1, value.trans (each o member).2.1.symm⟩

theorem input_le_remaining (stratified : Stratified s.levels) (selected : Selected s job)
    {i : Nat} {f x : SstRef} (above : i < job.outputLevel) (remaining : f ∈ s.levels.level i)
    (noInput : f.id ∉ job.inputs.map (·.id)) (input : x ∈ job.inputs) :
    x.sequenceNum ≤ f.sequenceNum := by
  have successor := output_eq_succ selected
  rcases input_level selected input with upper | lower
  · by_cases same : i = job.inputLevel
    · subst same
      cases selected with
      | l0 level output inputs =>
        -- all of L0 is taken, so nothing of it remains
        have taken : f ∈ job.inputs := by
          rw [inputs, ← level]
          exact remaining
        exact absurd (mem_map_of_mem taken) noInput
      | ln oldest output member least inputs =>
        rw [inputs] at input
        rcases mem_cons.mp input with rfl | below
        · exact least f remaining
        · exact stratified _ _ above f remaining x (mem_filter.mp below).1
    · exact stratified i job.inputLevel (by omega) f remaining x upper
  · exact stratified i job.outputLevel above f remaining x lower

theorem runCompaction_stratified (env : CompactionEnv) (stratified : Stratified s.levels)
    (selected : Selected s job) : Stratified (runCompaction C s job env).1.levels := by
  cases commit : committed C s job env with
  | none =>
    rw [runCompaction_level_of_none C commit]
    exact stratified
  | some outs =>
    have merged := committed_mergeSortInputs C commit
    have successor := output_eq_succ selected
    intro i j less a inA b inB
    rcases mem_level_runCompaction C commit inA with ⟨oldA, noInput⟩ | ⟨levelA, outA⟩
    · rcases mem_level_runCompaction C commit inB with ⟨oldB, -⟩ | ⟨levelB, outB⟩
      · exact stratified i j less a oldA b oldB
      · obtain ⟨x, input, value⟩ := output_sequenceNum merged outB
        rw [← value]
        exact input_le_remaining stratified selected (by omega) oldA noInput input
    · rcases mem_level_runCompaction C commit inB with ⟨oldB, -⟩ | ⟨levelB, outB⟩
      · obtain ⟨x, input, value⟩ := output_sequenceNum merged outA
        rw [← value]
        rcases input_level selected input with upper | lower
        · exact stratified job.inputLevel j (by omega) x upper b oldB
        · exact stratified job.outputLevel j (by omega) x lower b oldB
      · omega

theorem step_sequenceInv (s : Registered) (c : Call) (t : Registered) (inv : SequenceInv s)
    (increasing : IncreasingFlush s c) (ok : step C s c = some t) : SequenceInv t := by
  obtain ⟨stratified, registered⟩ := inv
  cases c with
  | flush io sst =>
    rcases step_flush C ok with ⟨levels, flushed⟩ | ⟨flushed, placed⟩
    · simp only [SequenceInv, levels, flushed]
      exact ⟨stratified, registered⟩
    · have newest : ∀ i, ∀ f ∈ s.compactor.levels.level i, f.sequenceNum < sst.sequenceNum :=
        fun i f member => increasing f.sequenceNum (registered i f member)
      have cases_of_mem : ∀ i, ∀ f ∈ t.compactor.levels.level i,
          f ∈ s.compactor.levels.level i ∨ (i = 0 ∧ f = sst) := by
        intro i f member
        rcases mem_append.mp ((placed i).mem_iff.mp member) with old | new
        · exact Or.inl old
        · split at new
          · next level => exact Or.inr ⟨level, mem_singleton.mp new⟩
          · cases new
      refine ⟨?_, ?_⟩
      · intro i j less a inA b inB
        rcases cases_of_mem j b inB with oldB | ⟨levelB, -⟩
        · rcases cases_of_mem i a inA with oldA | ⟨-, rfl⟩
          · exact stratified i j less a oldA b oldB
          · exact Nat.le_of_lt (newest j b oldB)
        · omega
      · intro i f member
        rw [flushed]
        rcases cases_of_mem i f member with old | ⟨-, rfl⟩
        · exact mem_append_left _ (registered i f old)
        · simp
  | compact p jobId env =>
    obtain ⟨job, picked, rfl⟩ := step_compact C ok
    have selected := selected_of_pick picked
    refine ⟨runCompaction_stratified C env stratified selected, ?_⟩
    intro i f member
    cases commit : committed C s.compactor job env with
    | none =>
      simp only [runCompaction_level_of_none C commit] at member
      exact registered i f member
    | some outs =>
      rcases mem_level_runCompaction C commit member with ⟨old, -⟩ | ⟨-, out⟩
      · exact registered i f old
      · obtain ⟨x, input, value⟩ := output_sequenceNum (committed_mergeSortInputs C commit) out
        rw [← value]
        rcases input_level selected input with upper | lower
        · exact registered _ x upper
        · exact registered _ x lower

/-- Newer data stays above older data. -/
theorem levels_stratified_by_sequence (partitionDir : String) (config : CompactionConfig)
    (ttl : Option TtlConfig) (calls : List Call)
    (increasing : Run.EveryStep (step C) IncreasingFlush (fresh partitionDir config ttl) calls) :
    Run.EveryState (step C) (fun s => Stratified s.compactor.levels)
      (fresh partitionDir config ttl) calls := by
  have start : SequenceInv (fresh partitionDir config ttl) := by
    refine ⟨?_, ?_⟩
    · intro i j less a member
      rw [fresh_level] at member
      cases member
    · intro i f member
      rw [fresh_level] at member
      cases member
  have every := Run.everyState_of_everyStep (step_sequenceInv C) calls _ start increasing
  intro done t isPrefix executed
  exact (every done t isPrefix executed).1

theorem levels_stratified_after_two_compactions :
    let config : CompactionConfig := { l0FileCompactionTrigger := 2 }
    let old : SstRef := ⟨1, 1, 0, [], 0, "seg-1.col", 1024, 10, [0, 0, 0, 0, 0, 0, 0, 5], [9]⟩
    let new : SstRef := ⟨2, 2, 0, [], 0, "seg-2.col", 1024, 10, [0, 0, 0, 0, 0, 0, 1, 0], [9]⟩
    let env : CompactionEnv := ⟨200, fun i => 10 + BitVec.ofNat 128 i, .succeeds,
      ⟨.succeeds, false, true⟩⟩
    Run.EveryState (step ManifestJson.jsonCodec) (fun s => Stratified s.compactor.levels)
      (fresh "p" config (some ⟨100⟩))
      [.flush .succeeds old, .flush .succeeds new, .compact .priority 3 env,
        .compact (.ln 1) 4 env] := by
  intro config old new env
  apply levels_stratified_by_sequence
  decide +kernel

end WowDb.Storage.PartitionCompactor
