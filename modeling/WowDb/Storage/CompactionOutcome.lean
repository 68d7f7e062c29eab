import WowDb.Storage.Compaction

/-!
# Every way a compaction run can end

`run_compaction` spans two MANIFEST writes, the merge and the update of the levels.
-/
namespace WowDb.Storage.PartitionCompactor
open WowDb.Lib PartitionLevels List

variable {f : SstRef}

theorem mem_readSnapshot {p : PartitionLevels} : f ∈ p.readSnapshot ↔ ∃ i, f ∈ p.level i := by
  unfold readSnapshot level
  constructor
  · intro member
    obtain ⟨ssts, inLevels, inLevel⟩ := mem_flatten.mp member
    obtain ⟨i, inside, rfl⟩ := mem_iff_getElem.mp inLevels
    exact ⟨i, by simpa [getD, inside] using inLevel⟩
  · rintro ⟨i, member⟩
    by_cases inside : i < p.levels.length
    · simp only [getD, getElem?_eq_getElem inside, Option.getD_some] at member
      exact mem_flatten.mpr ⟨_, getElem_mem inside, member⟩
    · simp [getD, getElem?_eq_none (Nat.le_of_not_lt inside)] at member

theorem foldl_retain (ids : List Uuid) (active : List SstRef) :
    ids.foldl (fun active id => active.filter fun f => f.id ≠ id) active =
      active.filter fun f => f.id ∉ ids := by
  induction ids generalizing active with
  | nil => simp
  | cons id rest ih =>
    rw [foldl_cons, ih, filter_filter]
    refine filter_congr fun f _ => ?_
    by_cases same : f.id = id <;> simp [same]

theorem removeAll_readSnapshot (p : PartitionLevels) (ids : List Uuid) :
    (removeAll p ids).readSnapshot = p.readSnapshot.filter fun f => f.id ∉ ids := by
  rw [← foldl_retain]
  induction ids generalizing p with
  | nil => rfl
  | cons id rest ih =>
    have first : (p.remove id).readSnapshot = p.readSnapshot.filter fun f => f.id ≠ id := by
      simp only [readSnapshot, remove, filter_flatten]
    have later := ih (p.remove id)
    rw [first] at later
    exact later

variable {outs : List SstRef}

theorem addAll_readSnapshot {l : Nat} (levels : ∀ o ∈ outs, o.level = l) (p : PartitionLevels) :
    ((addAll p outs).2 = true ↔ outs = [] ∨ l < p.levels.length) ∧
      (addAll p outs).1.readSnapshot.Perm
        (p.readSnapshot ++ if l < p.levels.length then outs else []) := by
  induction outs generalizing p with
  | nil => simp [addAll]
  | cons o rest ih =>
    have own : o.level = l := levels o (by simp)
    cases added : p.add o with
    | none =>
      have outside : ¬ l < p.levels.length := by
        have bound := add_eq_none.mp added
        omega
      simp [addAll, added, outside]
    | some q =>
      have length := (add_level added 0).1
      have inside : l < p.levels.length := by
        by_contra outside
        rw [add_eq_none.mpr (by omega)] at added
        cases added
      obtain ⟨fits, content⟩ := ih (fun o' member => levels o' (by simp [member])) q
      rw [length] at fits content
      simp only [addAll, added, inside, if_true, or_true, iff_true] at fits content ⊢
      refine ⟨fits, content.trans ?_⟩
      refine ((add_readSnapshot added).append_right rest).trans ?_
      simp

variable {s : PartitionCompactor} {env : CompactionEnv} {job : CompactionJob}

theorem mergeSortInputs_eq_none : s.mergeSortInputs env job = none ↔
      job.inputs.filter (survives s.ttl env.nowSecs) ≠ [] ∧ s.config.targetFileSizeBytes = 0 := by
  simp only [mergeSortInputs]
  by_cases expired : job.inputs.filter (survives s.ttl env.nowSecs) = []
  · simp [expired]
  · rw [if_neg expired]
    simp only [Option.map_eq_none_iff, splitCount, ne_eq, expired, not_false_eq_true, true_and]
    split <;> simp_all

variable (merged : s.mergeSortInputs env job = some outs)

include merged

theorem mergeSortInputs_outputs (surviving : job.inputs.filter (survives s.ttl env.nowSecs) ≠ []) :
    let survivors := job.inputs.filter (survives s.ttl env.nowSecs)
    let totalSize := wrap64 (survivors.map (·.sizeBytes)).sum
    ∃ count, splitCount totalSize s.config.targetFileSizeBytes = some count ∧
      ∃ output : Nat → SstRef, outs = (range count).map output ∧ ∀ idx,
        (output idx).compactedFrom = job.inputs.map (·.id) ∧
        (output idx).path = outputPath s.partitionDir job.outputLevel (maxSeq survivors) idx ∧
        (output idx).sizeBytes = totalSize / count ∧
        (output idx).rowCount = wrap64 (survivors.map (·.rowCount)).sum / count := by
  intro survivors totalSize
  simp only [mergeSortInputs] at merged
  rw [if_neg surviving] at merged
  obtain ⟨count, split, rfl⟩ := Option.map_eq_some_iff.mp merged
  exact ⟨count, split, _, rfl, fun _ => ⟨rfl, rfl, rfl, rfl⟩⟩

theorem output_compactedFrom {o : SstRef}
    (member : o ∈ outs) : o.compactedFrom = job.inputs.map (·.id) := by
  rcases mergeSortInputs_spec merged with ⟨-, rfl⟩ | ⟨surviving, -, -⟩
  · cases member
  · obtain ⟨count, -, output, rfl, each⟩ := mergeSortInputs_outputs merged surviving
    obtain ⟨idx, -, rfl⟩ := mem_map.mp member
    exact (each idx).1

omit merged

def completedBy (s : PartitionCompactor) (job : CompactionJob) (outs : List SstRef) : Manifest :=
  Manifest.completed ⟨s.manifest.manifest.active, s.manifest.manifest.pendingCompactions ++
    [⟨job.id, job.inputs.map (·.id)⟩]⟩ job.id (job.inputs.map (·.id)) outs

theorem completedBy_active (s : PartitionCompactor) (job : CompactionJob) (outs : List SstRef) :
    (completedBy s job outs).active =
      s.manifest.manifest.active.filter (fun f => f.id ∉ job.inputs.map (·.id)) ++ outs := by
  simp only [completedBy, Manifest.completed, foldl_retain]

inductive RunEffect (s : PartitionCompactor) (job : CompactionJob) (env : CompactionEnv)
    (t : PartitionCompactor) : CompactionOutcome → Prop where
  | notBegun (failed : env.beginIo ≠ .succeeds) (levels : t.levels = s.levels)
      (manifest : t.manifest.manifest = s.manifest.manifest) :
      RunEffect s job env t .manifestError
  | notMerged (began : env.beginIo = .succeeds) (merged : s.mergeSortInputs env job = none)
      (levels : t.levels = s.levels)
      (active : t.manifest.manifest.active = s.manifest.manifest.active) :
      RunEffect s job env t .panicked
  | notCompleted (began : env.beginIo = .succeeds) (outs : List SstRef)
      (merged : s.mergeSortInputs env job = some outs) (levels : t.levels = s.levels)
      (manifest : t.manifest.manifest = completedBy s job outs) :
      RunEffect s job env t .manifestError
  | notPlaced (began : env.beginIo = .succeeds) (outs : List SstRef)
      (merged : s.mergeSortInputs env job = some outs)
      (levels : addAll (removeAll s.levels (job.inputs.map (·.id))) outs = (t.levels, false))
      (manifest : t.manifest.manifest = completedBy s job outs) :
      RunEffect s job env t .panicked
  | done (began : env.beginIo = .succeeds) (outs : List SstRef)
      (merged : s.mergeSortInputs env job = some outs)
      (levels : addAll (removeAll s.levels (job.inputs.map (·.id))) outs = (t.levels, true))
      (manifest : t.manifest.manifest = completedBy s job outs) :
      RunEffect s job env t (.done ⟨job.id, job.inputs.map (·.id), outs.map (·.id)⟩)

variable (C : EventCodec)

theorem beginCompaction_returned (io : AppendIo) (cid : Uuid) (inputIds : List Uuid)
    (outputLevel : Nat) (m : ManifestState) :
    (Manifest.beginCompaction C io cid inputIds outputLevel m).2 = true ↔ io = .succeeds := by
  cases io <;> simp [Manifest.beginCompaction, Manifest.appendEvent]

variable {io : AppendIo}

theorem beginCompaction_err {cid : Uuid} {inputIds : List Uuid} {outputLevel : Nat}
    {m n : ManifestState}
    (failed : Manifest.beginCompaction C io cid inputIds outputLevel m = (n, false)) :
    n.manifest = m.manifest := by
  unfold Manifest.beginCompaction at failed
  generalize Manifest.appendEvent C io (.compactionBegin cid inputIds outputLevel) m.file = logged
    at failed
  obtain ⟨file, appended⟩ := logged
  cases appended with
  | false =>
    cases failed
    rfl
  | true => cases failed

theorem runCompaction_effect (s : PartitionCompactor) (job : CompactionJob) (env : CompactionEnv) :
    RunEffect s job env (runCompaction C s job env).1 (runCompaction C s job env).2 := by
  have returned := beginCompaction_returned C env.beginIo job.id (job.inputs.map (·.id))
    job.outputLevel s.manifest
  simp only [runCompaction]
  split
  · next begun stopped =>
    rw [stopped] at returned
    refine .notBegun (fun succeeded => ?_) rfl (beginCompaction_err C stopped)
    exact absurd (returned.mpr succeeded) (by simp)
  · next begun started =>
    rw [started] at returned
    have began := returned.mp rfl
    obtain ⟨active, pending⟩ := beginCompaction_ok C started
    split
    · next merged => exact .notMerged began merged rfl active
    · next outs merged =>
      have manifest := completeCompaction_manifest C env.completeIo job.id (outs.map (·.id))
        (job.inputs.map (·.id)) outs begun
      have lists : Manifest.completed begun.manifest job.id (job.inputs.map (·.id)) outs =
          completedBy s job outs := by
        simp only [completedBy, Manifest.completed, active, pending]
      rw [lists] at manifest
      split
      · next ended completed =>
        rw [completed] at manifest
        exact .notCompleted began outs merged rfl manifest
      · next ended completed =>
        rw [completed] at manifest
        split
        · next levels placed => exact .done began outs merged placed manifest
        · next levels stopped => exact .notPlaced began outs merged stopped manifest

variable {t : PartitionCompactor}

theorem effect_of_returned {outcome : CompactionOutcome}
    (returned : runCompaction C s job env = (t, outcome)) : RunEffect s job env t outcome := by
  have effect := runCompaction_effect C s job env
  rwa [returned] at effect

theorem runCompaction_frame (s : PartitionCompactor) (job : CompactionJob) (env : CompactionEnv) :
    (runCompaction C s job env).1.partitionDir = s.partitionDir ∧
      (runCompaction C s job env).1.config = s.config ∧
      (runCompaction C s job env).1.ttl = s.ttl := by
  simp only [runCompaction]
  split
  · exact ⟨rfl, rfl, rfl⟩
  · split
    · exact ⟨rfl, rfl, rfl⟩
    · split
      · exact ⟨rfl, rfl, rfl⟩
      · split <;> exact ⟨rfl, rfl, rfl⟩

include merged

theorem placed_readSnapshot {placed : Bool}
    (levels : addAll (removeAll s.levels (job.inputs.map (·.id))) outs = (t.levels, placed)) :
    t.levels.readSnapshot.Perm
      (s.levels.readSnapshot.filter (fun f => f.id ∉ job.inputs.map (·.id)) ++
        bif placed then outs else []) := by
  obtain ⟨fits, content⟩ := addAll_readSnapshot (outputs_level merged)
    (removeAll s.levels (job.inputs.map (·.id)))
  rw [levels, removeAll_readSnapshot] at content
  rw [levels] at fits
  by_cases inside : job.outputLevel < (removeAll s.levels (job.inputs.map (·.id))).levels.length
  · obtain rfl : placed = true := fits.mpr (.inr inside)
    rwa [if_pos inside] at content
  · rw [if_neg inside] at content
    simp only [inside, or_false] at fits
    cases placed with
    | true => rwa [fits.mp rfl]
    | false => exact content

omit merged

def files (s : PartitionCompactor) : List SstRef :=
  s.levels.readSnapshot ++ s.manifest.manifest.active

variable {sst : SstRef}

theorem mem_files_registerFlush
    (member : f ∈ (registerFlush C io sst s).1.files) : f ∈ s.files ∨ f = sst := by
  simp only [registerFlush, Manifest.addSst] at member
  generalize Manifest.appendEvent C io (.add sst) s.manifest.file = logged at member
  obtain ⟨file, appended⟩ := logged
  cases appended with
  | false => exact Or.inl member
  | true =>
    cases added : s.levels.add sst with
    | none =>
      simp only [added, files, mem_append, mem_singleton] at member ⊢
      tauto
    | some levels =>
      simp only [added, files, mem_append, (add_readSnapshot added).mem_iff,
        mem_singleton] at member ⊢
      tauto

theorem mem_files_runCompaction (member : f ∈ (runCompaction C s job env).1.files) :
    f ∈ s.files ∨ ∃ outs, s.mergeSortInputs env job = some outs ∧ f ∈ outs := by
  have effect := runCompaction_effect C s job env
  generalize (runCompaction C s job env).1 = t at effect member
  generalize (runCompaction C s job env).2 = outcome at effect
  have listed : ∀ outs, s.mergeSortInputs env job = some outs →
      f ∈ (completedBy s job outs).active →
      f ∈ s.files ∨ ∃ outs, s.mergeSortInputs env job = some outs ∧ f ∈ outs := by
    intro outs merged inList
    rw [completedBy_active] at inList
    rcases mem_append.mp inList with old | output
    · exact Or.inl (mem_append_right _ (mem_filter.mp old).1)
    · exact Or.inr ⟨outs, merged, output⟩
  have kept : t.levels = s.levels → f ∈ t.levels.readSnapshot → f ∈ s.files := by
    intro levels inLevels
    rw [levels] at inLevels
    exact mem_append_left _ inLevels
  rcases mem_append.mp member with inLevels | inList
  · cases effect with
    | notBegun failed levels manifest => exact Or.inl (kept levels inLevels)
    | notMerged began merged levels active => exact Or.inl (kept levels inLevels)
    | notCompleted began outs merged levels manifest => exact Or.inl (kept levels inLevels)
    | notPlaced began outs merged levels manifest =>
      have old := (placed_readSnapshot merged levels).mem_iff.mp inLevels
      rw [cond_false, append_nil] at old
      exact Or.inl (mem_append_left _ (mem_filter.mp old).1)
    | done began outs merged levels manifest =>
      rcases mem_append.mp ((placed_readSnapshot merged levels).mem_iff.mp inLevels) with
        old | output
      · exact Or.inl (mem_append_left _ (mem_filter.mp old).1)
      · exact Or.inr ⟨outs, merged, output⟩
  · cases effect with
    | notBegun failed levels manifest =>
      rw [manifest] at inList
      exact Or.inl (mem_append_right _ inList)
    | notMerged began merged levels active =>
      rw [active] at inList
      exact Or.inl (mem_append_right _ inList)
    | notCompleted began outs merged levels manifest =>
      rw [manifest] at inList
      exact listed outs merged inList
    | notPlaced began outs merged levels manifest =>
      rw [manifest] at inList
      exact listed outs merged inList
    | done began outs merged levels manifest =>
      rw [manifest] at inList
      exact listed outs merged inList

structure DistinctIds (s : PartitionCompactor) : Prop where
  levels : (s.levels.readSnapshot.map (·.id)).Nodup
  manifest : (s.manifest.manifest.active.map (·.id)).Nodup
  same : ∀ f ∈ s.levels.readSnapshot, ∀ g ∈ s.manifest.manifest.active, f.id = g.id → f = g

def NewId (s : PartitionCompactor) (id : Uuid) : Prop := ∀ f ∈ s.files, f.id ≠ id

def NewOutputs (s : PartitionCompactor) (job : CompactionJob) (env : CompactionEnv) : Prop :=
  ∀ outs, s.mergeSortInputs env job = some outs → (outs.map (·.id)).Nodup ∧ ∀ o ∈ outs, NewId s o.id

instance (s : PartitionCompactor) (id : Uuid) : Decidable (NewId s id) :=
  inferInstanceAs (Decidable (∀ f ∈ s.files, f.id ≠ id))

instance (s : PartitionCompactor) (job : CompactionJob) (env : CompactionEnv) :
    Decidable (NewOutputs s job env) :=
  inferInstanceAs (Decidable (∀ outs ∈ s.mergeSortInputs env job,
    (outs.map (·.id)).Nodup ∧ ∀ o ∈ outs, NewId s o.id))

theorem eq_of_id_eq {files : List SstRef} (distinct : (files.map (·.id)).Nodup) {g : SstRef}
    (inF : f ∈ files) (inG : g ∈ files) (same : f.id = g.id) : f = g :=
  inj_on_of_nodup_map distinct inF inG same

theorem nodup_replaced {files : List SstRef} {ids : List Uuid}
    (distinct : (files.map (·.id)).Nodup) (outputs : (outs.map (·.id)).Nodup)
    (new : ∀ o ∈ outs, ∀ f ∈ files, f.id ≠ o.id) :
    ((files.filter (fun f => f.id ∉ ids) ++ outs).map (·.id)).Nodup := by
  rw [map_append]
  refine List.Nodup.append (distinct.sublist (filter_sublist.map _)) outputs ?_
  intro id kept added
  obtain ⟨f, inFiles, rfl⟩ := mem_map.mp kept
  obtain ⟨o, inOuts, same⟩ := mem_map.mp added
  exact new o inOuts f (mem_filter.mp inFiles).1 same.symm

theorem registerFlush_distinctIds (io : AppendIo) (distinct : DistinctIds s)
    (new : NewId s sst.id) : DistinctIds (registerFlush C io sst s).1 := by
  have fresh : ∀ {files : List SstRef}, (∀ f ∈ files, f ∈ s.files) →
      (files.map (·.id)).Nodup → ((files ++ [sst]).map (·.id)).Nodup := by
    intro files known nodup
    rw [map_append]
    refine List.Nodup.append nodup (nodup_singleton _) ?_
    intro id member own
    obtain ⟨f, inFiles, rfl⟩ := mem_map.mp member
    exact new f (known f inFiles) (mem_singleton.mp own)
  have listed := fresh (fun f member => mem_append_right _ member) distinct.manifest
  have placed := fresh (fun f member => mem_append_left _ member) distinct.levels
  have cross : ∀ f ∈ s.levels.readSnapshot, ∀ g ∈ s.manifest.manifest.active ++ [sst],
      f.id = g.id → f = g := by
    intro f inF g inG same
    rcases mem_append.mp inG with old | own
    · exact distinct.same f inF g old same
    · rw [mem_singleton.mp own] at same
      exact absurd same (new f (mem_append_left _ inF))
  simp only [registerFlush, Manifest.addSst]
  generalize Manifest.appendEvent C io (.add sst) s.manifest.file = logged
  obtain ⟨file, appended⟩ := logged
  cases appended with
  | false => exact ⟨distinct.levels, distinct.manifest, distinct.same⟩
  | true =>
    cases added : s.levels.add sst with
    | none => exact ⟨distinct.levels, listed, cross⟩
    | some levels =>
      have content := add_readSnapshot added
      refine ⟨(content.map _).nodup_iff.mpr placed, listed, ?_⟩
      intro f inF g inG same
      rcases mem_append.mp (content.mem_iff.mp inF) with old | own
      · exact cross f old g inG same
      · have isSst := mem_singleton.mp own
        subst isSst
        rcases mem_append.mp inG with known | own'
        · exact absurd same.symm (new g (mem_append_right _ known))
        · exact (mem_singleton.mp own').symm

theorem runCompaction_distinctIds (distinct : DistinctIds s) (new : NewOutputs s job env) :
    DistinctIds (runCompaction C s job env).1 := by
  have effect := runCompaction_effect C s job env
  generalize (runCompaction C s job env).1 = t at effect ⊢
  generalize (runCompaction C s job env).2 = outcome at effect
  have listed : ∀ outs, s.mergeSortInputs env job = some outs →
      ((completedBy s job outs).active.map (·.id)).Nodup := by
    intro outs merged
    obtain ⟨nodup, fresh⟩ := new outs merged
    rw [completedBy_active]
    exact nodup_replaced distinct.manifest nodup
      fun o member f known => fresh o member f (mem_append_right _ known)
  -- an old file of the levels is no output, so it equals its namesake in the MANIFEST
  have cross : ∀ outs, s.mergeSortInputs env job = some outs →
      ∀ f ∈ s.levels.readSnapshot, ∀ g ∈ (completedBy s job outs).active, f.id = g.id → f = g := by
    intro outs merged f inF g inG same
    rw [completedBy_active] at inG
    rcases mem_append.mp inG with old | output
    · exact distinct.same f inF g (mem_filter.mp old).1 same
    · exact absurd same ((new outs merged).2 g output f (mem_append_left _ inF))
  cases effect with
  | notBegun failed levels manifest =>
    refine ⟨?_, ?_, ?_⟩
    · rw [levels]
      exact distinct.levels
    · rw [manifest]
      exact distinct.manifest
    · rw [levels, manifest]
      exact distinct.same
  | notMerged began merged levels active =>
    refine ⟨?_, ?_, ?_⟩
    · rw [levels]
      exact distinct.levels
    · rw [active]
      exact distinct.manifest
    · rw [levels, active]
      exact distinct.same
  | notCompleted began outs merged levels manifest =>
    refine ⟨?_, ?_, ?_⟩
    · rw [levels]
      exact distinct.levels
    · rw [manifest]
      exact listed outs merged
    · rw [levels, manifest]
      exact cross outs merged
  | notPlaced began outs merged levels manifest =>
    have content := placed_readSnapshot merged levels
    rw [cond_false, append_nil] at content
    refine ⟨?_, ?_, ?_⟩
    · exact (content.map _).nodup_iff.mpr (distinct.levels.sublist (filter_sublist.map _))
    · rw [manifest]
      exact listed outs merged
    · rw [manifest]
      intro f inF
      exact cross outs merged f (mem_filter.mp (content.mem_iff.mp inF)).1
  | done began outs merged levels manifest =>
    have content := placed_readSnapshot merged levels
    obtain ⟨nodup, fresh⟩ := new outs merged
    refine ⟨?_, ?_, ?_⟩
    · refine (content.map _).nodup_iff.mpr ?_
      exact nodup_replaced distinct.levels nodup
        fun o member f known => fresh o member f (mem_append_left _ known)
    · rw [manifest]
      exact listed outs merged
    · rw [manifest]
      intro f inF g inG same
      rcases mem_append.mp (content.mem_iff.mp inF) with old | output
      · exact cross outs merged f (mem_filter.mp old).1 g inG same
      · rw [completedBy_active] at inG
        rcases mem_append.mp inG with known | output'
        · have other := fresh f output g (mem_append_right _ (mem_filter.mp known).1)
          exact absurd same.symm other
        · exact eq_of_id_eq nodup output output' same

def NewIds (s : Registered) : Call → Prop
  | .flush _ sst => NewId s.compactor sst.id
  | .compact p jobId env => ∀ job, s.compactor.pick jobId p = some job →
    NewOutputs s.compactor job env

instance (s : Registered) (c : Call) : Decidable (NewIds s c) :=
  match c with
  | .flush _ sst => inferInstanceAs (Decidable (NewId s.compactor sst.id))
  | .compact p jobId env =>
    inferInstanceAs (Decidable (∀ job ∈ s.compactor.pick jobId p, NewOutputs s.compactor job env))

theorem step_flush_compactor {s t : Registered} (ok : step C s (.flush io sst) = some t) :
    t.compactor = (registerFlush C io sst s.compactor).1 := by
  simp only [step] at ok
  generalize registerFlush C io sst s.compactor = result at ok ⊢
  obtain ⟨compactor, outcome⟩ := result
  split at ok
  · cases outcome with
    | ok =>
      cases ok
      rfl
    | manifestError =>
      cases ok
      rfl
    | panicked =>
      cases ok
      rfl
  · cases ok

theorem step_distinctIds (s : Registered) (c : Call) (t : Registered)
    (distinct : DistinctIds s.compactor) (new : NewIds s c) (ok : step C s c = some t) :
    DistinctIds t.compactor := by
  cases c with
  | flush io sst =>
    rw [step_flush_compactor C ok]
    exact registerFlush_distinctIds C io distinct new
  | compact p jobId env =>
    obtain ⟨job, picked, rfl⟩ := step_compact C ok
    exact runCompaction_distinctIds C distinct (new job picked)

structure Shape (config : CompactionConfig) (ttl : Option TtlConfig) (s : PartitionCompactor) :
    Prop where
  length : s.levels.levels.length = config.maxLevels + 1
  config : s.config = config
  ttl : s.ttl = ttl

theorem addAll_length (p : PartitionLevels) (outs : List SstRef) :
    (addAll p outs).1.levels.length = p.levels.length := by
  induction outs generalizing p with
  | nil => rfl
  | cons o rest ih =>
    cases added : p.add o with
    | none => simp [addAll, added]
    | some q =>
      simp only [addAll, added]
      exact (ih q).trans (add_level added 0).1

variable (C : EventCodec)

variable {config : CompactionConfig} {ttl : Option TtlConfig} {s : PartitionCompactor}

variable {partitionDir : String}

theorem opened_shape {file : Option Bytes}
    (opened : new C partitionDir config ttl file = some s) : Shape config ttl s := by
  unfold new at opened
  split at opened
  · cases opened
  · next manifest _ =>
    split at opened
    · cases opened
    · next levels built =>
      cases opened
      have length := addAll_length (.new config) manifest.activeSstables
      rw [built] at length
      exact ⟨length.trans (by simp [PartitionLevels.new]), rfl, rfl⟩

theorem registerFlush_shape (io : AppendIo) (sst : SstRef) (shape : Shape config ttl s) :
    Shape config ttl (registerFlush C io sst s).1 := by
  obtain ⟨length, sameConfig, sameTtl⟩ := shape
  simp only [registerFlush]
  split
  · exact ⟨length, sameConfig, sameTtl⟩
  · cases added : s.levels.add sst with
    | none => exact ⟨length, sameConfig, sameTtl⟩
    | some levels => exact ⟨((add_level added 0).1).trans length, sameConfig, sameTtl⟩

theorem runCompaction_shape (job : CompactionJob) (env : CompactionEnv)
    (shape : Shape config ttl s) : Shape config ttl (runCompaction C s job env).1 := by
  obtain ⟨length, sameConfig, sameTtl⟩ := shape
  obtain ⟨-, configKept, ttlKept⟩ := runCompaction_frame C s job env
  refine ⟨?_, configKept.trans sameConfig, ttlKept.trans sameTtl⟩
  have inserted : ∀ outs, (addAll (removeAll s.levels (job.inputs.map (·.id))) outs).1.levels.length
      = s.levels.levels.length := fun outs =>
    (addAll_length _ outs).trans (removeAll_level s.levels _ 0).1
  have effect := runCompaction_effect C s job env
  generalize (runCompaction C s job env).1 = t at effect ⊢
  generalize (runCompaction C s job env).2 = outcome at effect
  cases effect with
  | notBegun failed levels manifest => rw [levels, length]
  | notMerged began merged levels active => rw [levels, length]
  | notCompleted began outs merged levels manifest => rw [levels, length]
  | notPlaced began outs merged levels manifest =>
    have kept := inserted outs
    rw [levels] at kept
    exact kept.trans length
  | done began outs merged levels manifest =>
    have kept := inserted outs
    rw [levels] at kept
    exact kept.trans length

theorem step_shape (s : Registered) (c : Call) (t : Registered)
    (shape : Shape config ttl s.compactor) (ok : step C s c = some t) :
    Shape config ttl t.compactor := by
  cases c with
  | flush io sst =>
    rw [step_flush_compactor C ok]
    exact registerFlush_shape C io sst shape
  | compact p jobId env =>
    obtain ⟨job, -, rfl⟩ := step_compact C ok
    exact runCompaction_shape C job env shape

theorem reached_shape {file : Option Bytes}
    (opened : new C partitionDir config ttl file = some s) {calls : List Call} {t : Registered}
    (reached : Run.exec (step C) ⟨s, []⟩ calls = some t) : Shape config ttl t.compactor :=
  Run.everyState_of_step (step_shape C) calls ⟨s, []⟩ (opened_shape C opened) calls t
    (prefix_refl calls) reached

theorem runCompaction_panicked_iff {job : CompactionJob} (env : CompactionEnv)
    (inside : job.outputLevel < s.levels.levels.length) :
    (runCompaction C s job env).2 = .panicked ↔ env.beginIo = .succeeds ∧
      job.inputs.filter (survives s.ttl env.nowSecs) ≠ [] ∧ s.config.targetFileSizeBytes = 0 := by
  rw [← mergeSortInputs_eq_none]
  have effect := runCompaction_effect C s job env
  generalize (runCompaction C s job env).1 = t at effect
  generalize (runCompaction C s job env).2 = outcome at effect ⊢
  cases effect with
  | notBegun failed levels manifest => simp [failed]
  | notMerged began merged levels active => simp [began, merged]
  | notCompleted began outs merged levels manifest => simp [merged]
  | notPlaced began outs merged levels manifest =>
    -- the insertion loop does not stop at a level that exists
    have fits := (addAll_readSnapshot (outputs_level merged)
      (removeAll s.levels (job.inputs.map (·.id)))).1
    rw [levels, (removeAll_level s.levels _ 0).1] at fits
    exact absurd (fits.mpr (Or.inr inside)) (by simp)
  | done began outs merged levels manifest => simp [merged]

/-- The last level is the one to compact: it has files and a score of at least 1, and no lower level
with files scores higher. A level of no bytes with a target of none scores NaN, and `max_by` then
forgets the levels below it. -/
structure LastLevelDue (config : CompactionConfig) (p : PartitionLevels) : Prop where
  files : p.levels.getD config.maxLevels [] ≠ []
  full : F64.ge (p.compactionScore config.maxLevels) (F64.ofNat 1) = true
  highest : ∀ lvl < config.maxLevels, p.levels.getD lvl [] ≠ [] →
    (∀ mid, lvl < mid → mid < config.maxLevels → p.levels.getD mid [] ≠ [] →
      p.compactionScore mid ≠ .nan) →
    F64.gt (p.compactionScore lvl) (p.compactionScore config.maxLevels) = false

theorem maxBy_append {α : Type} (cmp : α → α → Ordering) (xs : List α) (x : α) :
    maxBy cmp (xs ++ [x]) = some (((maxBy cmp xs).map fun best =>
      if cmp best x = .gt then best else x).getD x) := by
  cases xs with
  | nil => rfl
  | cons first rest => simp [maxBy, foldl_append]

theorem mem_of_maxBy {α : Type} (cmp : α → α → Ordering) (xs : List α) {x : α}
    (best : maxBy cmp xs = some x) : x ∈ xs := by
  induction xs using reverseRecOn generalizing x with
  | nil => cases best
  | append_singleton xs last ih =>
    rw [maxBy_append, Option.some_inj] at best
    subst best
    cases found : maxBy cmp xs with
    | none => simp
    | some m =>
      have inside := ih found
      simp only [Option.map_some, Option.getD_some]
      split <;> simp [inside]

/-- The last candidate is the best unless the best of the others is beyond it. -/
theorem maxBy_append_eq_last_iff {α : Type} (cmp : α → α → Ordering) {xs : List α} {x : α}
    (fresh : x ∉ xs) :
    maxBy cmp (xs ++ [x]) = some x ↔ ∀ m, maxBy cmp xs = some m → cmp m x ≠ .gt := by
  rw [maxBy_append, Option.some_inj]
  cases found : maxBy cmp xs with
  | none => simp
  | some m =>
    have apart : m ≠ x := fun same => fresh (same ▸ mem_of_maxBy cmp xs found)
    simp [apart]

/-- What is beyond the best of the candidates: nothing that comes after the last NaN. -/
theorem best_not_gt_iff (score : Nat → F64) (candidate : Nat → Bool) (n : Nat) (y : F64) :
    (∀ m, maxBy (fun a b => (F64.partialCmp (score a) (score b)).getD .eq)
        ((range n).filter candidate) = some m → F64.gt (score m) y = false) ↔
      ∀ lvl < n, candidate lvl = true →
        (∀ mid, lvl < mid → mid < n → candidate mid = true → score mid ≠ .nan) →
        F64.gt (score lvl) y = false := by
  -- by induction on the number of levels, the next one being the last that `max_by` looks at
  induction n with
  | zero => simp [maxBy]
  | succ n ih =>
    rw [range_succ, filter_append]
    cases taken : candidate n with
    | false =>
      simp only [filter_singleton, taken, cond_false, append_nil]
      refine ih.trans ⟨?_, ?_⟩
      · intro low lvl below isOne clear
        have lower : lvl < n := by
          rcases Nat.lt_succ_iff_lt_or_eq.mp below with lower | rfl
          · exact lower
          · rw [taken] at isOne
            cases isOne
        exact low lvl lower isOne fun mid after before => clear mid after (by omega)
      · intro low lvl lower isOne clear
        refine low lvl (by omega) isOne fun mid after before isMid => ?_
        rcases Nat.lt_succ_iff_lt_or_eq.mp before with inside | rfl
        · exact clear mid after inside isMid
        · rw [taken] at isMid
          cases isMid
    | true =>
      simp only [filter_singleton, taken, cond_true, maxBy_append, Option.some_inj, forall_eq']
      have split : (∀ lvl < n + 1, candidate lvl = true →
          (∀ mid, lvl < mid → mid < n + 1 → candidate mid = true → score mid ≠ .nan) →
          F64.gt (score lvl) y = false) ↔
          F64.gt (score n) y = false ∧ (score n ≠ .nan → ∀ lvl < n, candidate lvl = true →
            (∀ mid, lvl < mid → mid < n → candidate mid = true → score mid ≠ .nan) →
            F64.gt (score lvl) y = false) := by
        constructor
        · intro low
          refine ⟨low n (by omega) taken fun mid after before => absurd before (by omega),
            fun number lvl lower isOne clear => low lvl (by omega) isOne
              fun mid after before isMid => ?_⟩
          rcases Nat.lt_succ_iff_lt_or_eq.mp before with inside | rfl
          · exact clear mid after inside isMid
          · exact number
        · rintro ⟨last, lower⟩ lvl below isOne clear
          rcases Nat.lt_succ_iff_lt_or_eq.mp below with inside | rfl
          · exact lower (clear n inside (by omega) taken) lvl inside isOne
              fun mid after before => clear mid after (by omega)
          · exact last
      refine Iff.trans ?_ (split.trans (and_congr_right' (imp_congr_right fun _ => ih.symm))).symm
      cases found : maxBy (fun a b => (F64.partialCmp (score a) (score b)).getD .eq)
          ((range n).filter candidate) with
      | none => simp
      | some m =>
        simp only [Option.map_some, Option.getD_some, Option.some_inj, forall_eq', F64.getD_partialCmp_eq_gt]
        by_cases beyond : F64.gt (score m) (score n) = true
        · -- a best one beyond the last keeps its place
          have number : score n ≠ .nan := by
            intro isNan
            rw [isNan] at beyond
            cases found : score m <;> simp [found, F64.gt, F64.partialCmp] at beyond
          rw [if_pos beyond]
          refine ⟨fun low => ⟨?_, fun _ => low⟩, fun both => both.2 number⟩
          exact Bool.eq_false_iff.mpr fun above =>
            Bool.eq_false_iff.mp low (F64.gt_trans beyond above)
        · rw [if_neg beyond]
          refine ⟨fun low => ⟨low, fun number => Bool.eq_false_iff.mpr fun above => ?_⟩, And.left⟩
          rcases F64.gt_or_gt number above with first | second
          · exact beyond first
          · exact Bool.eq_false_iff.mp low second

theorem highestPriorityLevel_eq_last_iff {config : CompactionConfig} {p : PartitionLevels}
    (length : p.levels.length = config.maxLevels + 1) :
    p.highestPriorityLevel = some config.maxLevels ↔ LastLevelDue config p := by
  have nonempty (lvl : Nat) : (!(p.levels.getD lvl []).isEmpty) = true ↔ p.levels.getD lvl [] ≠ [] := by
    simp
  have lower := best_not_gt_iff p.compactionScore (fun lvl => !(p.levels.getD lvl []).isEmpty)
    config.maxLevels (p.compactionScore config.maxLevels)
  simp only [nonempty] at lower
  simp only [PartitionLevels.highestPriorityLevel]
  rw [length, Option.filter_eq_some_iff]
  by_cases files : p.levels.getD config.maxLevels [] ≠ []
  · have fresh : config.maxLevels ∉ (range config.maxLevels).filter
        fun lvl => !(p.levels.getD lvl []).isEmpty := by simp
    rw [range_succ, filter_append, filter_singleton, (nonempty _).mpr files, cond_true,
      maxBy_append_eq_last_iff _ fresh]
    simp only [PartitionLevels.compareScore, ne_eq, F64.getD_partialCmp_eq_gt, Bool.not_eq_true]
    exact ⟨fun due => ⟨files, due.2, lower.mp due.1⟩, fun due => ⟨lower.mpr due.highest, due.full⟩⟩
  · constructor
    · rintro ⟨best, -⟩
      exact absurd ((nonempty _).mp (mem_filter.mp (mem_of_maxBy _ _ best)).2) files
    · exact fun due => absurd due.files files

theorem inputLevel_lt_iff {config : CompactionConfig} {t : PartitionCompactor} {jobId : Uuid}
    {job : CompactionJob} (length : t.levels.levels.length = config.maxLevels + 1)
    (picked : t.pickCompaction jobId = some job) :
    job.inputLevel < config.maxLevels ↔ ¬ LastLevelDue config t.levels := by
  simp only [pickCompaction, Option.bind_eq_bind, Option.bind_eq_some_iff] at picked
  obtain ⟨lvl, chosen, built⟩ := picked
  have same : job.inputLevel = lvl := by
    split at built
    · next zero =>
      simp only [pickL0Compaction] at built
      split at built
      · cases built
      · cases built
        exact zero.symm
    · simp only [pickLnCompaction, Option.bind_eq_bind, Option.bind_eq_some_iff] at built
      obtain ⟨ssts, -, input, -, built⟩ := built
      cases built
      rfl
  have bound : lvl ≤ config.maxLevels := by
    obtain ⟨best, -⟩ := Option.filter_eq_some_iff.mp chosen
    have inside := mem_range.mp (mem_filter.mp (mem_of_maxBy _ _ best)).1
    omega
  rw [same, ← highestPriorityLevel_eq_last_iff length, chosen, Option.some_inj]
  omega

/-- Compaction stays within the level array exactly when the last level is not due and, with a target
file size of zero, nothing is left to merge. -/
theorem within_levels_iff (partitionDir : String) (config : CompactionConfig)
    (ttl : Option TtlConfig) (file : Option Bytes) (s : PartitionCompactor)
    (opened : new C partitionDir config ttl file = some s) (calls : List Call) (t : Registered)
    (reached : Run.exec (step C) ⟨s, []⟩ calls = some t) (jobId : Uuid) (job : CompactionJob)
    (picked : t.compactor.pickCompaction jobId = some job) (env : CompactionEnv) :
    (job.outputLevel ≤ config.maxLevels ∧ (runCompaction C t.compactor job env).2 ≠ .panicked) ↔
      (¬ LastLevelDue config t.compactor.levels ∧
        (config.targetFileSizeBytes = 0 → env.beginIo = .succeeds →
          ∀ x ∈ job.inputs, survives ttl env.nowSecs x = false)) := by
  obtain ⟨length, sameConfig, sameTtl⟩ := reached_shape C opened reached
  have selected : Selected t.compactor job := selected_of_pick (p := .priority) picked
  have below := output_eq_succ selected
  have expired : job.inputs.filter (survives ttl env.nowSecs) = [] ↔
      ∀ x ∈ job.inputs, survives ttl env.nowSecs x = false := by
    simp [filter_eq_nil_iff]
  rw [← inputLevel_lt_iff length picked, below, Nat.succ_le_iff, ← expired]
  refine and_congr_right fun notLast => ?_
  have inside : job.outputLevel < t.compactor.levels.levels.length := by
    rw [below, length]
    omega
  have panicked := runCompaction_panicked_iff C env inside
  rw [sameConfig, sameTtl] at panicked
  rw [ne_eq, panicked]
  constructor
  · intro safe zero began
    by_contra surviving
    exact safe ⟨began, surviving, zero⟩
  · rintro safe ⟨began, surviving, zero⟩
    exact surviving (safe zero began)

theorem within_levels_of_l0_job :
    let config : CompactionConfig := { l0FileCompactionTrigger := 1, maxLevels := 1 }
    let sst : SstRef := ⟨1, 1, 0, [], 0, "seg-1.col", 1024, 10, [0], [9]⟩
    let env : CompactionEnv := ⟨0, fun _ => 11, .succeeds, ⟨.succeeds, false, true⟩⟩
    let s := (registerFlush ManifestJson.jsonCodec .succeeds sst (empty "p" config none)).1
    (1 : Nat) ≤ 1 ∧ (runCompaction ManifestJson.jsonCodec s ⟨10, 0, 1, [sst]⟩ env).2 ≠ .panicked := by
  intro config sst env s
  refine (within_levels_iff ManifestJson.jsonCodec "p" config none none (empty "p" config none) rfl
    [.flush .succeeds sst] ⟨s, [1]⟩ rfl 10 ⟨10, 0, 1, [sst]⟩ (by decide +kernel) env).mpr ?_
  exact ⟨fun due => absurd due.files (by decide +kernel), fun zero => absurd zero (by decide)⟩

theorem last_level_job_panics :
    let config : CompactionConfig :=
      { l0FileCompactionTrigger := 1, l1MaxBytes := 1, maxLevels := 1 }
    let sst : SstRef := ⟨1, 1, 0, [], 0, "seg-1.col", 1024, 10, [0], [9]⟩
    let env (n : Nat) : CompactionEnv :=
      ⟨0, fun _ => BitVec.ofNat 128 n, .succeeds, ⟨.succeeds, false, true⟩⟩
    let run := runCompaction ManifestJson.jsonCodec
    let reached := Run.exec (step ManifestJson.jsonCodec) (fresh "p" config none)
      [.flush .succeeds sst, .compact .priority 10 (env 11)]
    (do
      let t ← reached
      let job ← t.compactor.pickCompaction 20
      some (job.outputLevel, (run t.compactor job (env 21)).2,
        (run t.compactor job (env 21)).1.levels.readSnapshot)) = some (2, .panicked, []) := by
  decide +kernel

def keyTimestamp (key : Bytes) : Nat := Bytes.ofBeBytes (key.take 8)

def Timestamped (sst : SstRef) : Prop := 8 ≤ sst.minSortKey.length ∧ 8 ≤ sst.maxSortKey.length

def RangeExpired (ttlSeconds nowSecs : Nat) (sst : SstRef) : Prop :=
  ∀ key, 8 ≤ key.length → sst.keyInRange key = true → keyTimestamp key + ttlSeconds ≤ nowSecs

def DropsOnlyExpired (ttl : TtlConfig) (nowSecs : Nat) (job : CompactionJob) : Prop :=
  ∀ x ∈ job.inputs, keyTimestamp x.minSortKey + ttl.ttlSeconds < 2 ^ 64 ∧
    (survives (some ttl) nowSecs x = false → RangeExpired ttl.ttlSeconds nowSecs x)

variable {sst : SstRef}

theorem keyTimestamp_le_of_mem (stamped : Timestamped sst) {key : Bytes}
    (long : 8 ≤ key.length) (inside : sst.keyInRange key = true) :
    keyTimestamp key ≤ keyTimestamp sst.maxSortKey := by
  simp only [SstRef.keyInRange, Bool.and_eq_true, decide_eq_true_eq] at inside
  exact Bytes.ofBeBytes_take_le long stamped.2 inside.2

theorem rangeExpired_iff {ttlSeconds nowSecs : Nat} (stamped : Timestamped sst) :
    RangeExpired ttlSeconds nowSecs sst ↔ (sst.minSortKey ≤ sst.maxSortKey →
        keyTimestamp sst.maxSortKey + ttlSeconds ≤ nowSecs) := by
  constructor
  · intro expired proper
    refine expired sst.maxSortKey stamped.2 ?_
    simp [SstRef.keyInRange, proper]
  · intro expired key long inside
    have below := keyTimestamp_le_of_mem stamped long inside
    simp only [SstRef.keyInRange, Bool.and_eq_true, decide_eq_true_eq] at inside
    have last := expired (le_trans inside.1 inside.2)
    omega

theorem survives_eq_false_iff {ttl : TtlConfig} {nowSecs : Nat} (stamped : Timestamped sst)
    (fits : keyTimestamp sst.minSortKey + ttl.ttlSeconds < 2 ^ 64) :
    survives (some ttl) nowSecs sst = false ↔
      keyTimestamp sst.minSortKey + ttl.ttlSeconds ≤ nowSecs := by
  unfold keyTimestamp at fits ⊢
  simp only [survives, if_pos stamped.1, decide_eq_false_iff_not, Nat.not_lt, wrap64,
    Nat.mod_eq_of_lt fits]

/-- Exactly when no sum overflows and all has expired. -/
theorem drops_only_expired_iff (ttl : TtlConfig) (nowSecs : Nat) (job : CompactionJob)
    (stamped : ∀ x ∈ job.inputs, Timestamped x) :
    DropsOnlyExpired ttl nowSecs job ↔
      ∀ x ∈ job.inputs, keyTimestamp x.minSortKey + ttl.ttlSeconds < 2 ^ 64 ∧
        (keyTimestamp x.minSortKey + ttl.ttlSeconds ≤ nowSecs → x.minSortKey ≤ x.maxSortKey →
          keyTimestamp x.maxSortKey + ttl.ttlSeconds ≤ nowSecs) := by
  refine forall₂_congr fun x input => and_congr_right fun fits => ?_
  rw [survives_eq_false_iff (stamped x input) fits, rangeExpired_iff (stamped x input)]

theorem drops_expired_second :
    let key : Bytes := [0, 0, 0, 0, 0, 0, 0, 5]
    let sst : SstRef := ⟨1, 1, 0, [], 0, "seg-1.col", 1024, 10, key, key⟩
    DropsOnlyExpired ⟨10⟩ 100 ⟨10, 0, 1, [sst]⟩ := by
  intro key sst
  refine (drops_only_expired_iff ⟨10⟩ 100 ⟨10, 0, 1, [sst]⟩ ?_).mpr ?_
  · intro x input
    rw [mem_singleton.mp input]
    exact ⟨by decide, by decide⟩
  · intro x input
    rw [mem_singleton.mp input]
    exact ⟨by decide, by decide⟩

theorem live_file_dropped :
    let first : Bytes := [0, 0, 0, 0, 0, 0, 0, 0]
    let thousand : Bytes := [0, 0, 0, 0, 0, 0, 3, 232]
    let last : Bytes := replicate 8 255
    let early : SstRef := ⟨1, 1, 0, [], 0, "seg-1.col", 1024, 10, first, thousand⟩
    let late : SstRef := ⟨1, 1, 0, [], 0, "seg-1.col", 1024, 10, last, last⟩
    let s := empty "p" {} (some ⟨10⟩)
    let env : CompactionEnv := ⟨100, fun _ => 11, .succeeds, ⟨.succeeds, false, true⟩⟩
    s.mergeSortInputs env ⟨10, 0, 1, [early]⟩ = some [] ∧
      ¬ DropsOnlyExpired ⟨10⟩ 100 ⟨10, 0, 1, [early]⟩ ∧
      s.mergeSortInputs env ⟨10, 0, 1, [late]⟩ = some [] ∧
      2 ^ 64 ≤ keyTimestamp last + 10 := by
  intro first thousand last early late s env
  refine ⟨by decide +kernel, fun safe => ?_, by decide +kernel, by decide +kernel⟩
  have expired := (safe early (mem_singleton.mpr rfl)).2 (by decide +kernel)
  exact absurd (expired thousand (by decide) (by decide +kernel)) (by decide +kernel)

variable (C : EventCodec)

inductive MetadataCall where
  | beginCompaction (io : AppendIo) (cid : Uuid) (inputIds : List Uuid) (outputLevel : Nat)
  | completeCompaction (io : CompleteIo) (cid : Uuid) (outputIds removedIds : List Uuid)
      (addedSsts : List SstRef)
  | runCompaction (job : CompactionJob) (env : CompactionEnv)

/-- The compactor after the call, and whether it failed. -/
def metadataCall (s : PartitionCompactor) : MetadataCall → PartitionCompactor × Bool
  | .beginCompaction io cid inputIds outputLevel =>
    let result := Manifest.beginCompaction C io cid inputIds outputLevel s.manifest
    ({ s with manifest := result.1 }, !result.2)
  | .completeCompaction io cid outputIds removedIds addedSsts =>
    let result := Manifest.completeCompaction C io cid outputIds removedIds addedSsts s.manifest
    ({ s with manifest := result.1 }, !result.2)
  | .runCompaction job env =>
    let result := runCompaction C s job env
    (result.1, decide (result.2 = .manifestError))

structure SameMetadata (s t : PartitionCompactor) : Prop where
  active : ∀ f, f ∈ t.manifest.manifest.active ↔ f ∈ s.manifest.manifest.active
  pending : ∀ p, p ∈ t.manifest.manifest.pendingCompactions ↔
    p ∈ s.manifest.manifest.pendingCompactions
  levels : t.levels = s.levels

structure Idle (m : Manifest) (cid : Uuid) (removedIds : List Uuid) (addedSsts : List SstRef) :
    Prop where
  removed : ∀ f ∈ m.active, f.id ∈ removedIds → f ∈ addedSsts
  added : ∀ f ∈ addedSsts, f ∈ m.active
  pending : ∀ p ∈ m.pendingCompactions, p.id ≠ cid

def Harmless (s : PartitionCompactor) : MetadataCall → Prop
  | .beginCompaction _ _ _ _ => True
  | .completeCompaction _ cid _ removedIds addedSsts =>
    Idle s.manifest.manifest cid removedIds addedSsts
  | .runCompaction job env =>
    env.beginIo = .succeeds → ∀ outs, s.mergeSortInputs env job = some outs →
      Idle s.manifest.manifest job.id (job.inputs.map (·.id)) outs

theorem completed_same_iff (m : Manifest) (cid : Uuid) (removedIds : List Uuid)
    (addedSsts : List SstRef) (extra : List PendingCompaction) (own : ∀ p ∈ extra, p.id = cid) :
    ((∀ f, f ∈ (Manifest.completed ⟨m.active, m.pendingCompactions ++ extra⟩ cid removedIds
          addedSsts).active ↔ f ∈ m.active) ∧
      (∀ p, p ∈ (Manifest.completed ⟨m.active, m.pendingCompactions ++ extra⟩ cid removedIds
          addedSsts).pendingCompactions ↔ p ∈ m.pendingCompactions)) ↔
      Idle m cid removedIds addedSsts := by
  simp only [Manifest.completed, mem_append, Manifest.mem_foldl_retain, mem_filter,
    decide_eq_true_eq]
  constructor
  · rintro ⟨active, pending⟩
    refine ⟨fun f member removed => ?_, fun f added => (active f).mp (Or.inr added), ?_⟩
    · rcases (active f).mpr member with ⟨-, kept⟩ | added
      · exact absurd removed kept
      · exact added
    · intro p member
      exact ((pending p).mpr member).2
  · rintro ⟨removed, added, pending⟩
    refine ⟨fun f => ⟨?_, fun member => ?_⟩, fun p => ⟨?_, fun member => ?_⟩⟩
    · rintro (⟨member, -⟩ | new)
      · exact member
      · exact added f new
    · by_cases taken : f.id ∈ removedIds
      · exact Or.inr (removed f member taken)
      · exact Or.inl ⟨member, taken⟩
    · rintro ⟨old | new, other⟩
      · exact old
      · exact absurd (own p new) other
    · exact ⟨Or.inl member, pending p member⟩

/-- Exactly when the call is harmless. -/
theorem failed_call_unchanged_iff (s : PartitionCompactor) (call : MetadataCall)
    (failed : (metadataCall C s call).2 = true) :
    SameMetadata s (metadataCall C s call).1 ↔ Harmless s call := by
  cases call with
  | beginCompaction io cid inputIds outputLevel =>
    simp only [metadataCall] at failed ⊢
    generalize returned : Manifest.beginCompaction C io cid inputIds outputLevel s.manifest = result
      at failed ⊢
    obtain ⟨m, ok⟩ := result
    simp only [Bool.not_eq_true'] at failed
    subst failed
    have same := beginCompaction_err C returned
    simp only [Harmless, iff_true]
    exact ⟨fun f => by simp only [same], fun p => by simp only [same], rfl⟩
  | completeCompaction io cid outputIds removedIds addedSsts =>
    have manifest := completeCompaction_manifest C io cid outputIds removedIds addedSsts s.manifest
    have exactly := completed_same_iff s.manifest.manifest cid removedIds addedSsts [] (by simp)
    rw [append_nil] at exactly
    simp only [metadataCall, Harmless, ← exactly]
    constructor
    · intro same
      exact ⟨by simpa only [manifest] using same.active, by simpa only [manifest] using same.pending⟩
    · rintro ⟨active, pending⟩
      exact ⟨by simpa only [manifest] using active, by simpa only [manifest] using pending, rfl⟩
  | runCompaction job env =>
    simp only [metadataCall, decide_eq_true_eq] at failed ⊢
    have effect := runCompaction_effect C s job env
    generalize (runCompaction C s job env).1 = t at effect ⊢
    rw [failed] at effect
    cases effect with
    | notBegun stopped levels manifest =>
      have harmless : Harmless s (.runCompaction job env) := fun began => absurd began stopped
      simp only [harmless, iff_true]
      exact ⟨fun f => by simp only [manifest], fun p => by simp only [manifest], levels⟩
    | notCompleted began outs merged levels manifest =>
      have exactly := completed_same_iff s.manifest.manifest job.id (job.inputs.map (·.id)) outs
        [⟨job.id, job.inputs.map (·.id)⟩] (by simp)
      rw [← completedBy, ← manifest] at exactly
      constructor
      · intro same _ outs' merged'
        rw [merged] at merged'
        cases merged'
        exact exactly.mp ⟨same.active, same.pending⟩
      · intro harmless
        obtain ⟨active, pending⟩ := exactly.mpr (harmless began outs merged)
        exact ⟨active, pending, levels⟩

theorem failed_begin_unchanged :
    let config : CompactionConfig := { l0FileCompactionTrigger := 1 }
    let sst : SstRef := ⟨1, 1, 0, [], 0, "seg-1.col", 1024, 10, [0], [9]⟩
    let s := (registerFlush ManifestJson.jsonCodec .succeeds sst (empty "p" config none)).1
    let env : CompactionEnv := ⟨0, fun _ => 11, .writeFails 5, ⟨.succeeds, false, true⟩⟩
    let call : MetadataCall := .runCompaction ⟨10, 0, 1, [sst]⟩ env
    SameMetadata s (metadataCall ManifestJson.jsonCodec s call).1 := by
  intro config sst s env call
  refine (failed_call_unchanged_iff ManifestJson.jsonCodec s call (by decide +kernel)).mpr ?_
  intro began
  cases began

theorem failed_complete_loses_input :
    let config : CompactionConfig := { l0FileCompactionTrigger := 1 }
    let sst : SstRef := ⟨1, 1, 0, [], 0, "seg-1.col", 1024, 10, [0], [9]⟩
    let s := (registerFlush ManifestJson.jsonCodec .succeeds sst (empty "p" config none)).1
    let env : CompactionEnv := ⟨0, fun _ => 11, .succeeds, ⟨.openFails, false, true⟩⟩
    let job : CompactionJob := ⟨10, 0, 1, [sst]⟩
    s.pickCompaction 10 = some job ∧
      (metadataCall ManifestJson.jsonCodec s (.runCompaction job env)).2 = true ∧
      sst ∈ s.manifest.manifest.active ∧
      ¬ SameMetadata s (metadataCall ManifestJson.jsonCodec s (.runCompaction job env)).1 := by
  intro config sst s env job
  refine ⟨by decide +kernel, by decide +kernel, by decide +kernel, fun same => ?_⟩
  have kept := (same.active sst).mpr (by decide +kernel)
  revert kept
  decide +kernel

end WowDb.Storage.PartitionCompactor
