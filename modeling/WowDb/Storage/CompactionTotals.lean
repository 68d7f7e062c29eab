import WowDb.Storage.CompactionCoverage

/-!
# Row counts and sizes through a compaction

`merge_sort_inputs` adds up the row counts and the sizes of its inputs in `u64` and gives each
output the quotient by the number of outputs: a remainder is lost, and so is what the sums lose by
wrapping.
-/
namespace WowDb.Storage.PartitionCompactor
open WowDb.Lib PartitionLevels List

def totalRows (ssts : List SstRef) : Nat := (ssts.map (·.rowCount)).sum

def totalSize (ssts : List SstRef) : Nat := (ssts.map (·.sizeBytes)).sum

theorem totalRows_append (a b : List SstRef) : totalRows (a ++ b) = totalRows a + totalRows b := by
  simp [totalRows]

theorem totalRows_perm {a b : List SstRef} (same : a.Perm b) : totalRows a = totalRows b :=
  (same.map SstRef.rowCount).sum_eq

structure SameTotals (inputs outs : List SstRef) : Prop where
  rows : totalRows outs = totalRows inputs
  size : totalSize outs = totalSize inputs

def parts (target : Nat) (inputs : List SstRef) : Nat :=
  (splitCount (wrap64 (totalSize inputs)) target).getD 1

def DividesEvenly (target : Nat) (inputs : List SstRef) (total : Nat) : Prop :=
  total < 2 ^ 64 ∧ parts target inputs ∣ total

theorem shares_sum_iff {count total : Nat} :
    count * (wrap64 total / count) = total ↔ total < 2 ^ 64 ∧ count ∣ total := by
  unfold wrap64
  constructor
  · intro exact
    have shares : count * (total % 2 ^ 64 / count) ≤ total % 2 ^ 64 := Nat.mul_div_le _ _
    have wrapped : total % 2 ^ 64 < 2 ^ 64 := Nat.mod_lt _ (by decide)
    exact ⟨by omega, Dvd.intro _ exact⟩
  · rintro ⟨fits, divides⟩
    rw [Nat.mod_eq_of_lt fits]
    exact Nat.mul_div_cancel' divides

theorem parts_eq {target count : Nat} {inputs : List SstRef}
    (split : splitCount (wrap64 (totalSize inputs)) target = some count) :
    parts target inputs = count := by
  simp [parts, split]

theorem sum_map_const {value : SstRef → Nat} {output : Nat → SstRef} {share : Nat}
    (each : ∀ idx, value (output idx) = share) (count : Nat) :
    (((List.range count).map output).map value).sum = count * share := by
  have same : value ∘ output = fun _ => share := funext each
  rw [map_map, same]
  simp

variable {s : PartitionCompactor} {env : CompactionEnv} {job : CompactionJob}

theorem sameTotals_iff {outs : List SstRef} (noTtl : s.ttl = none)
    (merged : s.mergeSortInputs env job = some outs) :
    (totalRows outs = totalRows job.inputs ↔
        DividesEvenly s.config.targetFileSizeBytes job.inputs (totalRows job.inputs)) ∧
      (totalSize outs = totalSize job.inputs ↔
        DividesEvenly s.config.targetFileSizeBytes job.inputs (totalSize job.inputs)) := by
  by_cases nothing : job.inputs = []
  · have none : outs = [] := by
      simp only [mergeSortInputs, nothing, filter_nil, if_true] at merged
      exact (Option.some.inj merged).symm
    simp [none, nothing, DividesEvenly, totalRows, totalSize]
  · have surviving := survivors_of_noTtl noTtl env.nowSecs job.inputs
    obtain ⟨count, split, output, rfl, each⟩ := mergeSortInputs_outputs merged
      (by rw [surviving]; exact nothing)
    rw [surviving] at split each
    unfold DividesEvenly
    rw [parts_eq split, ← shares_sum_iff, ← shares_sum_iff]
    constructor
    · rw [totalRows, sum_map_const (fun idx => (each idx).2.2.2)]
      rfl
    · rw [totalSize, sum_map_const (fun idx => (each idx).2.2.1)]
      rfl

theorem flatten_adjacent {α : Type} (lists : List (List α)) (i : Nat) :
    (lists.getD i [] ++ lists.getD (i + 1) []).Sublist lists.flatten := by
  induction lists generalizing i with
  | nil => simp
  | cons first rest ih =>
    cases i with
    | zero =>
      rw [flatten_cons]
      refine (List.Sublist.refl _).append ?_
      cases rest with
      | nil => simp
      | cons second rest =>
        rw [flatten_cons]
        exact sublist_append_left _ _
    | succ i => exact (ih i).trans (sublist_append_right _ _)

theorem inputs_sublist (selected : Selected s job) : job.inputs.Sublist s.levels.readSnapshot := by
  cases selected with
  | l0 input output inputs =>
    rw [inputs]
    exact (sublist_append_left _ _).trans (flatten_adjacent s.levels.levels 0)
  | ln oldest output member least inputs =>
    rw [inputs, output]
    have oldestFirst := singleton_sublist.mpr member
    have overlapping : ((s.levels.level (job.inputLevel + 1)).filter oldest.overlapsWith).Sublist
        (s.levels.level (job.inputLevel + 1)) := filter_sublist
    exact (oldestFirst.append overlapping).trans (flatten_adjacent s.levels.levels job.inputLevel)

theorem filter_inputs_perm (distinct : DistinctIds s) (selected : Selected s job) :
    (s.levels.readSnapshot.filter fun f => f.id ∈ job.inputs.map (·.id)).Perm job.inputs := by
  have once : s.levels.readSnapshot.Nodup := distinct.levels.of_map _
  have inside := inputs_sublist selected
  refine (perm_ext_iff_of_nodup (once.filter _) (once.sublist inside)).mpr fun f => ?_
  rw [mem_filter, decide_eq_true_eq]
  constructor
  · rintro ⟨active, taken⟩
    obtain ⟨x, input, same⟩ := mem_map.mp taken
    rw [← eq_of_id_eq distinct.levels (inside.subset input) active same]
    exact input
  · intro input
    exact ⟨inside.subset input, mem_map_of_mem input⟩

variable {t : PartitionCompactor}

theorem totalRows_replaced {outs : List SstRef}
    (distinct : DistinctIds s) (selected : Selected s job)
    (merged : s.mergeSortInputs env job = some outs)
    (levels : addAll (removeAll s.levels (job.inputs.map (·.id))) outs = (t.levels, true)) :
    totalRows t.levels.readSnapshot + totalRows job.inputs =
      totalRows s.levels.readSnapshot + totalRows outs := by
  have after := totalRows_perm (placed_readSnapshot merged levels)
  have taken := totalRows_perm (filter_inputs_perm distinct selected)
  have before := totalRows_perm (filter_append_perm
    (fun f : SstRef => f.id ∈ job.inputs.map (·.id)) s.levels.readSnapshot)
  simp only [totalRows_append, decide_not, cond_true] at after before
  omega

variable (C : EventCodec)

def PickedRun (s : PartitionCompactor) : OkCall → Prop
  | .registerFlush _ _ => False
  | .runCompaction job env => Selected s job ∧ NewOutputs s job env

def DividesRows (s : PartitionCompactor) : OkCall → Prop
  | .registerFlush _ _ => True
  | .runCompaction job _ =>
    DividesEvenly s.config.targetFileSizeBytes job.inputs (totalRows job.inputs)

theorem okStep_runCompaction (ok : okStep C s (.runCompaction job env) = some t) :
    ∃ result, runCompaction C s job env = (t, .done result) := by
  simp only [okStep] at ok
  split at ok
  · next u result returned =>
    cases ok
    exact ⟨result, returned⟩
  · cases ok

/-- Exactly when the outputs divide both totals. -/
theorem totals_conserved_iff (s : PartitionCompactor) (noTtl : s.ttl = none)
    (positive : 1 ≤ s.config.targetFileSizeBytes) (distinct : DistinctIds s)
    (calls : List OkCall) (picked : Run.EveryStep (okStep C) PickedRun s calls) :
    (∀ job env, ∃ outs, s.mergeSortInputs env job = some outs ∧ (SameTotals job.inputs outs ↔
        DividesEvenly s.config.targetFileSizeBytes job.inputs (totalRows job.inputs) ∧
        DividesEvenly s.config.targetFileSizeBytes job.inputs (totalSize job.inputs))) ∧
    (Run.EveryState (okStep C)
        (fun t => totalRows t.levels.readSnapshot = totalRows s.levels.readSnapshot) s calls ↔
      Run.EveryStep (okStep C) DividesRows s calls) := by
  constructor
  · intro job env
    have defined : s.mergeSortInputs env job ≠ none := by
      intro undefined
      have zero := (mergeSortInputs_eq_none.mp undefined).2
      omega
    obtain ⟨outs, merged⟩ := Option.ne_none_iff_exists'.mp defined
    obtain ⟨rows, size⟩ := sameTotals_iff noTtl merged
    refine ⟨outs, merged, ?_⟩
    rw [← rows, ← size]
    exact ⟨fun same => ⟨same.rows, same.size⟩, fun same => ⟨same.1, same.2⟩⟩
  · refine Run.everyState_iff_everyStep (fun t => t.ttl = none ∧ DistinctIds t) ?_ ?_ calls s
      ⟨noTtl, distinct⟩ rfl picked
    · rintro u (⟨io, sst⟩ | ⟨job, env⟩) t ⟨ttl, ids⟩ guard ok
      · exact guard.elim
      · obtain ⟨result, returned⟩ := okStep_runCompaction C ok
        have frame := (runCompaction_frame C u job env).2.2
        have kept := runCompaction_distinctIds C ids guard.2
        rw [returned] at frame kept
        exact ⟨frame.trans ttl, kept⟩
    · rintro u (⟨io, sst⟩ | ⟨job, env⟩) t ⟨ttl, ids⟩ guard same ok
      · exact guard.elim
      · obtain ⟨result, returned⟩ := okStep_runCompaction C ok
        cases effect_of_returned C returned with
        | done began outs merged levels manifest =>
          have replaced := totalRows_replaced ids guard.1 merged levels
          have rows := (sameTotals_iff ttl merged).1
          simp only [DividesRows, ← rows] at same ⊢
          omega

theorem totals_conserved_by_merge :
    let config : CompactionConfig := { l0FileCompactionTrigger := 2 }
    let file (n : Nat) (lo hi : UInt8) : SstRef :=
      ⟨BitVec.ofNat 128 n, n, 0, [], 0, "seg.col", 1024, 10, [lo], [hi]⟩
    let env : CompactionEnv := ⟨0, fun _ => 11, .succeeds, ⟨.succeeds, false, true⟩⟩
    let job : CompactionJob := ⟨10, 0, 1, [file 1 3 9, file 2 0 5]⟩
    let flush := fun sst s => (registerFlush ManifestJson.jsonCodec .succeeds sst s).1
    let s := flush (file 2 0 5) (flush (file 1 3 9) (empty "p" config none))
    Run.EveryState (okStep ManifestJson.jsonCodec)
      (fun t => totalRows t.levels.readSnapshot = totalRows s.levels.readSnapshot) s
      [.runCompaction job env] := by
  intro config file env job flush s
  refine (totals_conserved_iff ManifestJson.jsonCodec s rfl (by decide)
    ⟨by decide +kernel, by decide +kernel, by decide +kernel⟩ [.runCompaction job env] ?_).2.mpr ?_
  · exact fun t _ => ⟨⟨.l0 rfl rfl rfl, by decide +kernel⟩, trivial⟩
  · exact fun t _ => ⟨⟨by decide +kernel, by decide +kernel⟩, trivial⟩

theorem split_loses_row :
    let config : CompactionConfig := { l0FileCompactionTrigger := 1, targetFileSizeBytes := 2 }
    let sst : SstRef := ⟨1, 1, 0, [], 0, "seg-1.col", 3, 3, [0], [9]⟩
    let s := (registerFlush ManifestJson.jsonCodec .succeeds sst (empty "p" config none)).1
    let env : CompactionEnv :=
      ⟨0, fun idx => BitVec.ofNat 128 (11 + idx), .succeeds, ⟨.succeeds, false, true⟩⟩
    let job : CompactionJob := ⟨10, 0, 1, [sst]⟩
    let t := (runCompaction ManifestJson.jsonCodec s job env).1
    s.pickCompaction 10 = some job ∧
      (s.mergeSortInputs env job).map (fun outs => (totalRows outs, totalSize outs)) = some (2, 2) ∧
      (totalRows job.inputs, totalSize job.inputs) = (3, 3) ∧
      totalRows s.levels.readSnapshot = 3 ∧ totalRows t.levels.readSnapshot = 2 := by
  decide +kernel

theorem toList_toString (n : Nat) : (ToString.toString n).toList = Text.zeroPad 0 n := by
  simp [Text.zeroPad]

theorem joinPath_inj {dir a b : String} (same : Text.joinPath dir a = Text.joinPath dir b) :
    a.toList = b.toList := by
  unfold Text.joinPath at same
  have chars := congrArg String.toList same
  split at chars
  · simpa using chars
  · simpa using chars

theorem outputPath_inj {dir : String} {l l' q q' i i' : Nat}
    (same : outputPath dir l q i = outputPath dir l' q' i') : l = l' ∧ q = q' ∧ i = i' := by
  have chars := joinPath_inj same
  simp only [String.toList_append, Text.toList_pad10, toList_toString, append_assoc] at chars
  have tail := append_cancel_left chars
  -- the level ends at the slash, the sequence number at the dash
  obtain ⟨level, rest⟩ := Text.separated_inj (Text.notMem_zeroPad (by decide))
    (Text.notMem_zeroPad (by decide)) tail
  have numbers := (append_right_inj "compacted-".toList).mp rest
  obtain ⟨seq, name⟩ := Text.separated_inj (Text.notMem_zeroPad (by decide))
    (Text.notMem_zeroPad (by decide)) numbers
  exact ⟨Text.zeroPad_inj level, Text.zeroPad_inj seq,
    Text.zeroPad_inj (append_cancel_right name)⟩

/-- The outputs get new paths. -/
def FreshPaths (s : PartitionCompactor) (job : CompactionJob) (env : CompactionEnv) : Prop :=
  ∀ outs, s.mergeSortInputs env job = some outs →
    (outs.map (·.path)).Nodup ∧ ∀ o ∈ outs, ∀ f ∈ s.files, o.path ≠ f.path

instance (s : PartitionCompactor) (job : CompactionJob) (env : CompactionEnv) :
    Decidable (FreshPaths s job env) :=
  inferInstanceAs (Decidable (∀ outs ∈ s.mergeSortInputs env job,
    (outs.map (·.path)).Nodup ∧ ∀ o ∈ outs, ∀ f ∈ s.files, o.path ≠ f.path))

def Outside (dir path : String) : Prop := ∀ l q i, path ≠ outputPath dir l q i

/-- Known files lie at their own path or apart. -/
def Named (s : PartitionCompactor) : Prop :=
  ∀ f ∈ s.files, (∃ i, f.path = outputPath s.partitionDir f.level f.sequenceNum i) ∨
    Outside s.partitionDir f.path

def FlushesOutside (s : Registered) : Call → Prop
  | .flush _ sst => Outside s.compactor.partitionDir sst.path
  | .compact _ _ _ => True

variable {s : PartitionCompactor} {env : CompactionEnv} {job : CompactionJob}

variable {outs : List SstRef} (merged : s.mergeSortInputs env job = some outs)

include merged

theorem output_path {o : SstRef} (member : o ∈ outs) :
    ∃ i, o.path = outputPath s.partitionDir job.outputLevel
      (maxSeq (job.inputs.filter (survives s.ttl env.nowSecs))) i := by
  rcases mergeSortInputs_spec merged with ⟨-, rfl⟩ | ⟨surviving, -, -⟩
  · cases member
  · obtain ⟨count, -, output, rfl, each⟩ := mergeSortInputs_outputs merged surviving
    obtain ⟨i, -, rfl⟩ := mem_map.mp member
    exact ⟨i, (each i).2.1⟩

theorem output_paths_nodup : (outs.map (·.path)).Nodup := by
  rcases mergeSortInputs_spec merged with ⟨-, rfl⟩ | ⟨surviving, -, -⟩
  · exact nodup_nil
  · obtain ⟨count, -, output, rfl, each⟩ := mergeSortInputs_outputs merged surviving
    rw [map_map]
    refine nodup_range.map_on fun i _ j _ same => ?_
    simp only [Function.comp, (each _).2.1] at same
    exact (outputPath_inj same).2.2

omit merged

variable (C : EventCodec)

theorem registerFlush_partitionDir (io : AppendIo) (sst : SstRef) (s : PartitionCompactor) :
    (registerFlush C io sst s).1.partitionDir = s.partitionDir := by
  simp only [registerFlush]
  split
  · rfl
  · cases s.levels.add sst <;> rfl

theorem registerFlush_named (io : AppendIo) {sst : SstRef} (named : Named s)
    (outside : Outside s.partitionDir sst.path) : Named (registerFlush C io sst s).1 := by
  intro f member
  rw [registerFlush_partitionDir]
  rcases mem_files_registerFlush C member with old | rfl
  · exact named f old
  · exact Or.inr outside

theorem runCompaction_named (named : Named s) : Named (runCompaction C s job env).1 := by
  intro f member
  rw [(runCompaction_frame C s job env).1]
  rcases mem_files_runCompaction C member with old | ⟨outs, merged, output⟩
  · exact named f old
  · obtain ⟨i, path⟩ := output_path merged output
    rcases mergeSortInputs_spec merged with ⟨-, rfl⟩ | ⟨-, -, each⟩
    · cases output
    · obtain ⟨level, sequence, -, -⟩ := each f output
      refine Or.inl ⟨i, ?_⟩
      rw [path, level, sequence]

theorem step_named (s : Registered) (c : Call) (t : Registered) (named : Named s.compactor)
    (outside : FlushesOutside s c) (ok : step C s c = some t) : Named t.compactor := by
  cases c with
  | flush io sst =>
    rw [step_flush_compactor C ok]
    exact registerFlush_named C io named outside
  | compact p jobId env =>
    obtain ⟨job, -, rfl⟩ := step_compact C ok
    exact runCompaction_named C named

/-- Paths are new unless the output level has the number. -/
theorem output_paths_fresh (s : PartitionCompactor) (named : Named s) (calls : List Call)
    (flushes : Run.EveryStep (step C) FlushesOutside ⟨s, []⟩ calls) (t : Registered)
    (reached : Run.exec (step C) ⟨s, []⟩ calls = some t) (job : CompactionJob) (env : CompactionEnv)
    (unused : ∀ f ∈ t.compactor.files, f.level = job.outputLevel → f.sequenceNum ≠
      maxSeq (job.inputs.filter (survives t.compactor.ttl env.nowSecs))) :
    FreshPaths t.compactor job env := by
  have namedNow : Named t.compactor :=
    Run.everyState_of_everyStep (step_named C) calls ⟨s, []⟩ named flushes calls t
      (prefix_refl calls) reached
  intro outs merged
  refine ⟨output_paths_nodup merged, ?_⟩
  intro o output f known same
  obtain ⟨i, path⟩ := output_path merged output
  rw [path] at same
  rcases namedNow f known with ⟨j, own⟩ | outside
  · rw [own] at same
    obtain ⟨level, sequence, -⟩ := outputPath_inj same
    exact unused f known level.symm sequence.symm
  · exact outside _ _ _ same.symm

theorem output_paths_fresh_after_flush :
    let config : CompactionConfig := { l0FileCompactionTrigger := 1 }
    let sst : SstRef := ⟨1, 1, 0, [], 0, "x", 1024, 10, [0], [9]⟩
    let env : CompactionEnv := ⟨0, fun _ => 11, .succeeds, ⟨.succeeds, false, true⟩⟩
    let s := (registerFlush ManifestJson.jsonCodec .succeeds sst (empty "p" config none)).1
    FreshPaths s ⟨10, 0, 1, [sst]⟩ env := by
  intro config sst env s
  have elsewhere : Outside "p" "x" := by
    intro l q i same
    have chars := congrArg (fun path => path.toList.length) same
    simp [outputPath, Text.joinPath] at chars
  refine output_paths_fresh ManifestJson.jsonCodec (empty "p" config none) ?_ [.flush .succeeds sst]
    ?_ ⟨s, [1]⟩ rfl ⟨10, 0, 1, [sst]⟩ env (by decide +kernel)
  · intro f known
    cases known
  · exact fun t _ => ⟨elsewhere, trivial⟩

theorem split_output_path_reused :
    let config : CompactionConfig :=
      { l0FileCompactionTrigger := 1, l1MaxBytes := 1, targetFileSizeBytes := 2 }
    let sst : SstRef := ⟨1, 1, 0, [], 0, "seg-1.col", 4, 4, [0], [9]⟩
    let env (n : Nat) : CompactionEnv :=
      ⟨0, fun idx => BitVec.ofNat 128 (n + idx), .succeeds, ⟨.succeeds, false, true⟩⟩
    let reached := Run.exec (step ManifestJson.jsonCodec) (fresh "p" config none)
      [.flush .succeeds sst, .compact .priority 10 (env 11), .compact .priority 20 (env 21)]
    (do
      let t ← reached
      let job ← t.compactor.pickCompaction 30
      let outs ← t.compactor.mergeSortInputs (env 31) job
      some (job.inputs.map (·.path), outs.map (·.path))) =
      some (["p/lsm/L1/compacted-0000000001-1.col", "p/lsm/L2/compacted-0000000001-0.col"],
        ["p/lsm/L2/compacted-0000000001-0.col", "p/lsm/L2/compacted-0000000001-1.col"]) := by
  decide +kernel

end WowDb.Storage.PartitionCompactor
