import WowDb.Storage.Manifest

/-!
# Leveled compaction of one partition

`storage-node/src/lsm/compaction.rs`, `PartitionCompactor`.
-/
namespace WowDb.Storage
open WowDb.Lib

structure TtlConfig where
  ttlSeconds : Nat
  deriving DecidableEq

structure CompactionJob where
  id : Uuid
  inputLevel : Nat
  outputLevel : Nat
  inputs : List SstRef
  deriving DecidableEq

structure PartitionCompactor where
  partitionDir : String
  levels : PartitionLevels
  manifest : ManifestState
  config : CompactionConfig
  ttl : Option TtlConfig
  deriving DecidableEq

structure CompactionResult where
  compactionId : Uuid
  removedIds : List Uuid
  outputIds : List Uuid
  deriving DecidableEq

inductive CompactionOutcome where
  | done (result : CompactionResult)
  | manifestError
  | panicked
  deriving DecidableEq

inductive FlushOutcome where
  | ok | manifestError | panicked
  deriving DecidableEq

/-- The clock, the ids and the outcomes of the writes. -/
structure CompactionEnv where
  nowSecs : Nat
  outputId : Nat → Uuid
  beginIo : AppendIo
  completeIo : CompleteIo

namespace PartitionCompactor

def addAll (levels : PartitionLevels) : List SstRef → PartitionLevels × Bool
  | [] => (levels, true)
  | sst :: rest =>
    match levels.add sst with
    | none => (levels, false)
    | some levels => addAll levels rest

def removeAll (levels : PartitionLevels) (ids : List Uuid) : PartitionLevels :=
  ids.foldl PartitionLevels.remove levels

def empty (partitionDir : String) (config : CompactionConfig) (ttl : Option TtlConfig) :
    PartitionCompactor :=
  ⟨partitionDir, .new config, ⟨.empty, none⟩, config, ttl⟩

variable (C : EventCodec)

def new (partitionDir : String) (config : CompactionConfig) (ttl : Option TtlConfig)
    (file : Option Bytes) : Option PartitionCompactor :=
  match Manifest.openFile C file with
  | none => none
  | some manifest =>
    match addAll (.new config) manifest.activeSstables with
    | (_, false) => none
    | (levels, true) => some ⟨partitionDir, levels, ⟨manifest, file⟩, config, ttl⟩

def registerFlush (io : AppendIo) (sst : SstRef) (s : PartitionCompactor) :
    PartitionCompactor × FlushOutcome :=
  match Manifest.addSst C io sst s.manifest with
  | (manifest, false) => ({ s with manifest }, .manifestError)
  | (manifest, true) =>
    match s.levels.add sst with
    | none => ({ s with manifest }, .panicked)
    | some levels => ({ s with manifest, levels }, .ok)

def pickL0Compaction (s : PartitionCompactor) (id : Uuid) : Option CompactionJob :=
  let l0 := s.levels.levels.getD 0 []
  if l0.length < s.config.l0FileCompactionTrigger then none else some ⟨id, 0, 1, l0⟩

def pickLnCompaction (s : PartitionCompactor) (lvl : Nat) (id : Uuid) : Option CompactionJob := do
  let ssts ← s.levels.levels[lvl]?
  let input ← minByKey (·.sequenceNum) ssts
  let overlapping := (s.levels.levels.getD (lvl + 1) []).filter input.overlapsWith
  some ⟨id, lvl, lvl + 1, input :: overlapping⟩

def pickCompaction (s : PartitionCompactor) (id : Uuid) : Option CompactionJob := do
  let lvl ← s.levels.highestPriorityLevel
  if lvl = 0 then s.pickL0Compaction id else s.pickLnCompaction lvl id

/-- Keys without a timestamp never expire. -/
def survives (ttl : Option TtlConfig) (nowSecs : Nat) (sst : SstRef) : Bool :=
  match ttl with
  | none => true
  | some ttl =>
    if 8 ≤ sst.minSortKey.length then
      decide (nowSecs < wrap64 (Bytes.ofBeBytes (sst.minSortKey.take 8) + ttl.ttlSeconds))
    else true

def outputPath (dir : String) (level seq idx : Nat) : String :=
  Text.joinPath dir ("lsm/L" ++ ToString.toString level ++ "/compacted-" ++ Text.pad10 seq ++ "-" ++
    ToString.toString idx ++ ".col")

def splitCount (totalSize target : Nat) : Option Nat :=
  if target = 0 then none
  else some (max (wrap64 (wrap64 (totalSize + target) + u64Max) / target) 1)

def minKey (inputs : List SstRef) : Bytes := ((inputs.map (·.minSortKey)).min?).getD []

def maxKey (inputs : List SstRef) : Bytes := ((inputs.map (·.maxSortKey)).max?).getD []

def maxSeq (inputs : List SstRef) : Nat := ((inputs.map (·.sequenceNum)).max?).getD 0

def mergeSortInputs (s : PartitionCompactor) (env : CompactionEnv) (job : CompactionJob) :
    Option (List SstRef) :=
  let validInputs := job.inputs.filter (survives s.ttl env.nowSecs)
  if validInputs = [] then some []
  else
    let maxGen := ((validInputs.map (·.generation)).max?).getD 0
    let totalRows := wrap64 (validInputs.map (·.rowCount)).sum
    let totalSize := wrap64 (validInputs.map (·.sizeBytes)).sum
    (splitCount totalSize s.config.targetFileSizeBytes).map fun count =>
      (List.range count).map fun idx =>
        { id := env.outputId idx
          sequenceNum := maxSeq validInputs
          generation := wrap64 (maxGen + 1)
          compactedFrom := job.inputs.map (·.id)
          level := job.outputLevel
          path := outputPath s.partitionDir job.outputLevel (maxSeq validInputs) idx
          sizeBytes := totalSize / count
          rowCount := totalRows / count
          minSortKey := minKey validInputs
          maxSortKey := maxKey validInputs }

def runCompaction (s : PartitionCompactor) (job : CompactionJob) (env : CompactionEnv) :
    PartitionCompactor × CompactionOutcome :=
  let inputIds := job.inputs.map (·.id)
  match Manifest.beginCompaction C env.beginIo job.id inputIds job.outputLevel s.manifest with
  | (manifest, false) => ({ s with manifest }, .manifestError)
  | (manifest, true) =>
    match s.mergeSortInputs env job with
    | none => ({ s with manifest }, .panicked)
    | some outputs =>
      let outputIds := outputs.map (·.id)
      match Manifest.completeCompaction C env.completeIo job.id outputIds inputIds outputs
          manifest with
      | (manifest, false) => ({ s with manifest }, .manifestError)
      | (manifest, true) =>
        match addAll (removeAll s.levels inputIds) outputs with
        | (levels, true) => ({ s with manifest, levels }, .done ⟨job.id, inputIds, outputIds⟩)
        | (levels, false) => ({ s with manifest, levels }, .panicked)

end PartitionCompactor

namespace PartitionLevels

def level (p : PartitionLevels) (i : Nat) : List SstRef := p.levels.getD i []

variable {p : PartitionLevels}

theorem level_eq_nil {i : Nat} (outside : p.levels.length ≤ i) : p.level i = [] := by
  simp [level, List.getElem?_eq_none outside]

theorem level_set {j : Nat} (inside : j < p.levels.length) (ssts : List SstRef) (i : Nat) :
    level { p with levels := p.levels.set j ssts } i = if i = j then ssts else p.level i := by
  by_cases same : i = j
  · subst same
    simp [level, inside]
  · have other : j ≠ i := fun h => same h.symm
    simp [level, same, other]

theorem add_eq_none {sst : SstRef} : p.add sst = none ↔ p.levels.length ≤ sst.level := by
  unfold add
  cases found : p.levels[sst.level]? with
  | none => simpa using List.getElem?_eq_none_iff.mp found
  | some ssts =>
    have inside := (List.getElem?_eq_some_iff.mp found).1
    simp only [reduceCtorEq, false_iff]
    omega

theorem add_level {q : PartitionLevels} {sst : SstRef} (added : p.add sst = some q) (i : Nat) :
    q.levels.length = p.levels.length ∧
      (q.level i).Perm (p.level i ++ if i = sst.level then [sst] else []) := by
  unfold add at added
  cases found : p.levels[sst.level]? with
  | none => simp [found] at added
  | some ssts =>
    obtain ⟨inside, -⟩ := List.getElem?_eq_some_iff.mp found
    have content : p.level sst.level = ssts := by simp [level, found]
    simp only [found, Option.some.injEq] at added
    subst added
    refine ⟨by simp, ?_⟩
    rw [level_set inside]
    by_cases same : i = sst.level
    · subst same
      simp only [if_true, content]
      split
      · exact List.perm_insertionSort _ _
      · exact List.Perm.refl _
    · simp [same]

theorem remove_level (p : PartitionLevels) (id : Uuid) (i : Nat) :
    (p.remove id).levels.length = p.levels.length ∧
      (p.remove id).level i = (p.level i).filter fun s => s.id ≠ id := by
  refine ⟨by simp [remove], ?_⟩
  by_cases inside : i < p.levels.length
  · simp [level, remove, inside]
  · simp [level, remove, inside]

end PartitionLevels

namespace PartitionCompactor
open PartitionLevels List

theorem removeAll_level (p : PartitionLevels) (ids : List Uuid) (i : Nat) :
    (removeAll p ids).levels.length = p.levels.length ∧
      (removeAll p ids).level i = (p.level i).filter fun s => s.id ∉ ids := by
  induction ids generalizing p with
  | nil => simp [removeAll]
  | cons id rest ih =>
    obtain ⟨length, content⟩ := ih (p.remove id)
    obtain ⟨length', content'⟩ := remove_level p id i
    refine ⟨length.trans length', ?_⟩
    have step : removeAll p (id :: rest) = removeAll (p.remove id) rest := rfl
    rw [step, content, content', filter_filter]
    refine filter_congr fun s _ => ?_
    by_cases h : s.id = id <;> simp [h]

variable {outs : List SstRef}

theorem addAll_level {l : Nat} (levels : ∀ o ∈ outs, o.level = l) (p : PartitionLevels) (i : Nat) :
    (addAll p outs).1.levels.length = p.levels.length ∧ ((addAll p outs).1.level i).Perm
        (p.level i ++ if i = l ∧ i < p.levels.length then outs else []) := by
  induction outs generalizing p with
  | nil => simp [addAll]
  | cons o rest ih =>
    have own : o.level = l := levels o (by simp)
    cases added : p.add o with
    | none =>
      have outside := add_eq_none.mp added
      have skipped : ¬ (i = l ∧ i < p.levels.length) := by omega
      simp [addAll, added, skipped]
    | some q =>
      obtain ⟨length, first⟩ := add_level added i
      obtain ⟨length', later⟩ := ih (fun o' member => levels o' (by simp [member])) q
      simp only [addAll, added]
      refine ⟨length'.trans length, later.trans ?_⟩
      rw [length]
      by_cases same : i = l ∧ i < p.levels.length
      · obtain ⟨rfl, inside⟩ := same
        simp only [own, inside, and_self, if_true] at first ⊢
        refine (first.append_right rest).trans ?_
        simp
      · have untouched : (q.level i).Perm (p.level i) := by
          by_cases level : i = o.level
          · have inside : p.levels.length ≤ i := by omega
            rw [level_eq_nil inside, level_eq_nil (by omega)]
          · simpa [level] using first
        simp only [same, if_false, append_nil]
        exact untouched

variable (C : EventCodec)

def committed (s : PartitionCompactor) (job : CompactionJob) (env : CompactionEnv) :
    Option (List SstRef) :=
  let inputIds := job.inputs.map (·.id)
  match Manifest.beginCompaction C env.beginIo job.id inputIds job.outputLevel s.manifest with
  | (_, false) => none
  | (manifest, true) =>
    match s.mergeSortInputs env job with
    | none => none
    | some outputs =>
      match Manifest.completeCompaction C env.completeIo job.id (outputs.map (·.id)) inputIds
          outputs manifest with
      | (_, false) => none
      | (_, true) => some outputs

variable {s : PartitionCompactor} {job : CompactionJob} {env : CompactionEnv}

theorem committed_mergeSortInputs (commit : committed C s job env = some outs) :
    s.mergeSortInputs env job = some outs := by
  simp only [committed] at commit
  split at commit
  · cases commit
  · cases merged : s.mergeSortInputs env job with
    | none => simp [merged] at commit
    | some outputs =>
      simp only [merged] at commit
      split at commit
      · cases commit
      · exact commit

theorem runCompaction_levels (s : PartitionCompactor) (job : CompactionJob) (env : CompactionEnv) :
    (runCompaction C s job env).1.levels = (match committed C s job env with
      | none => s.levels
      | some outs => (addAll (removeAll s.levels (job.inputs.map (·.id))) outs).1) ∧
    (runCompaction C s job env).1.config = s.config ∧
    (runCompaction C s job env).1.ttl = s.ttl := by
  simp only [runCompaction, committed]
  generalize Manifest.beginCompaction C env.beginIo job.id (job.inputs.map (·.id)) job.outputLevel
    s.manifest = begun
  obtain ⟨manifest, began⟩ := begun
  cases began with
  | false => exact ⟨rfl, rfl, rfl⟩
  | true =>
    cases s.mergeSortInputs env job with
    | none => exact ⟨rfl, rfl, rfl⟩
    | some outputs =>
      simp only
      generalize Manifest.completeCompaction C env.completeIo job.id (outputs.map (·.id))
        (job.inputs.map (·.id)) outputs manifest = completed
      obtain ⟨manifest', ended⟩ := completed
      cases ended with
      | false => exact ⟨rfl, rfl, rfl⟩
      | true =>
        simp only
        generalize addAll (removeAll s.levels (job.inputs.map (·.id))) outputs = inserted
        obtain ⟨levels, fits⟩ := inserted
        cases fits <;> exact ⟨rfl, rfl, rfl⟩

theorem mergeSortInputs_spec (merged : s.mergeSortInputs env job = some outs) :
    let survivors := job.inputs.filter (survives s.ttl env.nowSecs)
    (survivors = [] ∧ outs = []) ∨
      (survivors ≠ [] ∧ outs ≠ [] ∧ ∀ o ∈ outs, o.level = job.outputLevel ∧
        o.sequenceNum = maxSeq survivors ∧ o.minSortKey = minKey survivors ∧
        o.maxSortKey = maxKey survivors) := by
  intro survivors
  simp only [mergeSortInputs] at merged
  by_cases expired : survivors = []
  · rw [if_pos expired] at merged
    exact Or.inl ⟨expired, (Option.some.inj merged).symm⟩
  · rw [if_neg expired] at merged
    obtain ⟨count, split, rfl⟩ := Option.map_eq_some_iff.mp merged
    have positive : 0 < count := by
      unfold splitCount at split
      split at split
      · cases split
      · have value := Option.some.inj split
        omega
    refine Or.inr ⟨expired, ?_, ?_⟩
    · simp
      omega
    · intro o member
      obtain ⟨idx, -, rfl⟩ := mem_map.mp member
      exact ⟨rfl, rfl, rfl, rfl⟩

theorem outputs_level (merged : s.mergeSortInputs env job = some outs) :
    ∀ o ∈ outs, o.level = job.outputLevel := by
  intro o member
  rcases mergeSortInputs_spec merged with ⟨-, rfl⟩ | ⟨-, -, each⟩
  · cases member
  · exact (each o member).1

theorem runCompaction_level (commit : committed C s job env = some outs) (i : Nat) :
    ((runCompaction C s job env).1.levels.level i).Perm
      ((s.levels.level i).filter (fun f => f.id ∉ job.inputs.map (·.id)) ++
        if i = job.outputLevel ∧ i < s.levels.levels.length then outs else []) := by
  have levels := (runCompaction_levels C s job env).1
  rw [commit] at levels
  obtain ⟨length, kept⟩ := removeAll_level s.levels (job.inputs.map (·.id)) i
  have inserted := (addAll_level (outputs_level (committed_mergeSortInputs C commit))
    (removeAll s.levels (job.inputs.map (·.id))) i).2
  rw [levels]
  rw [kept, length] at inserted
  exact inserted

theorem runCompaction_level_of_none (stopped : committed C s job env = none) :
    (runCompaction C s job env).1.levels = s.levels := by
  have levels := (runCompaction_levels C s job env).1
  rwa [stopped] at levels

theorem mem_level_runCompaction (commit : committed C s job env = some outs) {i : Nat}
    {f : SstRef} (member : f ∈ (runCompaction C s job env).1.levels.level i) :
    (f ∈ s.levels.level i ∧ f.id ∉ job.inputs.map (·.id)) ∨ (i = job.outputLevel ∧ f ∈ outs) := by
  have found := (runCompaction_level C commit i).mem_iff.mp member
  rcases mem_append.mp found with kept | added
  · have old := mem_filter.mp kept
    exact Or.inl ⟨old.1, by simpa using old.2⟩
  · split at added
    · next inside => exact Or.inr ⟨inside.1, added⟩
    · cases added

inductive Pick where
  | priority
  | l0
  | ln (lvl : Nat)
  deriving DecidableEq

def pick (s : PartitionCompactor) (id : Uuid) : Pick → Option CompactionJob
  | .priority => s.pickCompaction id
  | .l0 => s.pickL0Compaction id
  | .ln lvl => s.pickLnCompaction lvl id

inductive Selected (s : PartitionCompactor) (job : CompactionJob) : Prop where
  | l0 (input : job.inputLevel = 0) (output : job.outputLevel = 1)
      (inputs : job.inputs = s.levels.level 0)
  | ln (oldest : SstRef) (output : job.outputLevel = job.inputLevel + 1)
      (member : oldest ∈ s.levels.level job.inputLevel)
      (least : ∀ f ∈ s.levels.level job.inputLevel, oldest.sequenceNum ≤ f.sequenceNum)
      (inputs : job.inputs = oldest :: (s.levels.level job.outputLevel).filter oldest.overlapsWith)

variable {id : Uuid}

theorem selected_of_pickL0 (picked : s.pickL0Compaction id = some job) : Selected s job := by
  simp only [pickL0Compaction] at picked
  split at picked
  · cases picked
  · cases picked
    exact .l0 rfl rfl rfl

theorem selected_of_pickLn {lvl : Nat} (picked : s.pickLnCompaction lvl id = some job) :
    Selected s job := by
  simp only [pickLnCompaction, Option.bind_eq_bind, Option.bind_eq_some_iff] at picked
  obtain ⟨ssts, found, oldest, least, built⟩ := picked
  cases built
  have content : s.levels.level lvl = ssts := by simp [level, found]
  obtain ⟨member, le⟩ := minByKey_spec least
  refine .ln oldest rfl ?_ ?_ rfl
  · rw [content]
    exact member
  · rw [content]
    exact le

theorem selected_of_pick {p : Pick} (picked : s.pick id p = some job) : Selected s job := by
  cases p with
  | priority =>
    simp only [pick, pickCompaction, Option.bind_eq_bind, Option.bind_eq_some_iff] at picked
    obtain ⟨lvl, -, chosen⟩ := picked
    split at chosen
    · exact selected_of_pickL0 chosen
    · exact selected_of_pickLn chosen
  | l0 => exact selected_of_pickL0 picked
  | ln lvl => exact selected_of_pickLn picked

theorem input_level (selected : Selected s job) {x : SstRef} (member : x ∈ job.inputs) :
    x ∈ s.levels.level job.inputLevel ∨ x ∈ s.levels.level job.outputLevel := by
  cases selected with
  | l0 input output inputs =>
    rw [inputs] at member
    rw [input]
    exact Or.inl member
  | ln oldest output inLevel least inputs =>
    rw [inputs] at member
    rcases mem_cons.mp member with rfl | below
    · exact Or.inl inLevel
    · exact Or.inr (mem_filter.mp below).1

theorem output_eq_succ (selected : Selected s job) : job.outputLevel = job.inputLevel + 1 := by
  cases selected with
  | l0 input output inputs => rw [input, output]
  | ln oldest output member least inputs => exact output

structure Registered where
  compactor : PartitionCompactor
  flushed : List Nat

def fresh (partitionDir : String) (config : CompactionConfig) (ttl : Option TtlConfig) :
    Registered :=
  ⟨empty partitionDir config ttl, []⟩

theorem fresh_level (partitionDir : String) (config : CompactionConfig) (ttl : Option TtlConfig)
    (i : Nat) : (fresh partitionDir config ttl).compactor.levels.level i = [] := by
  by_cases inside : i < config.maxLevels + 1
  · simp [fresh, empty, level, PartitionLevels.new, inside]
  · simp [fresh, empty, level, PartitionLevels.new, inside]

inductive Call where
  | flush (io : AppendIo) (sst : SstRef)
  | compact (pick : Pick) (jobId : Uuid) (env : CompactionEnv)

/-- A flush, or a run of a picked job. -/
def step (s : Registered) : Call → Option Registered
  | .flush io sst =>
    if sst.level = 0 then
      match registerFlush C io sst s.compactor with
      | (compactor, .ok) => some ⟨compactor, s.flushed ++ [sst.sequenceNum]⟩
      | (compactor, _) => some { s with compactor }
    else none
  | .compact p jobId env => do
    let job ← s.compactor.pick jobId p
    some { s with compactor := (runCompaction C s.compactor job env).1 }

theorem step_flush {s t : Registered} {io : AppendIo} {sst : SstRef}
    (ok : step C s (.flush io sst) = some t) :
    (t.compactor.levels = s.compactor.levels ∧ t.flushed = s.flushed) ∨
      (t.flushed = s.flushed ++ [sst.sequenceNum] ∧ ∀ i, (t.compactor.levels.level i).Perm
        (s.compactor.levels.level i ++ if i = 0 then [sst] else [])) := by
  simp only [step] at ok
  split at ok
  · next level =>
    simp only [registerFlush] at ok
    generalize Manifest.addSst C io sst s.compactor.manifest = logged at ok
    obtain ⟨manifest, appended⟩ := logged
    cases appended with
    | false =>
      cases ok
      exact Or.inl ⟨rfl, rfl⟩
    | true =>
      cases added : s.compactor.levels.add sst with
      | none =>
        simp only [added, Option.some.injEq] at ok
        subst ok
        exact Or.inl ⟨rfl, rfl⟩
      | some levels =>
        simp only [added, Option.some.injEq] at ok
        subst ok
        refine Or.inr ⟨rfl, fun i => ?_⟩
        have placed := (add_level added i).2
        rwa [level] at placed
  · cases ok

theorem step_compact {s t : Registered} {p : Pick} {jobId : Uuid}
    (ok : step C s (.compact p jobId env) = some t) :
    ∃ job, s.compactor.pick jobId p = some job ∧
      t = { s with compactor := (runCompaction C s.compactor job env).1 } := by
  simp only [step, Option.bind_eq_bind, Option.bind_eq_some_iff, Option.some.injEq] at ok
  obtain ⟨job, picked, rfl⟩ := ok
  exact ⟨job, picked, rfl⟩

end PartitionCompactor
end WowDb.Storage

namespace WowDb.Storage.PartitionCompactor
open WowDb.Lib PartitionLevels List

structure Holds (p : PartitionLevels) (files : List SstRef) : Prop where
  same : p.readSnapshot.Perm files
  placed : ∀ i, ∀ f ∈ p.level i, f.level = i
  sorted : ∀ i, 0 < i → (p.level i).Pairwise fun a b => a.minSortKey ≤ b.minSortKey

/-- The two copies agree, but for what was pending. -/
structure Mirrors (found : List PendingCompaction) (s : PartitionCompactor) : Prop where
  holds : Holds s.levels s.manifest.manifest.activeSstables
  pending : s.manifest.manifest.pendingCompactions ⊆ found

theorem sortLevel_sorted (ssts : List SstRef) :
    (sortLevel ssts).Pairwise fun a b => a.minSortKey ≤ b.minSortKey := by
  have total : Std.Total fun a b : SstRef => a.minSortKey ≤ b.minSortKey :=
    ⟨fun a b => le_total a.minSortKey b.minSortKey⟩
  have trans : IsTrans SstRef fun a b => a.minSortKey ≤ b.minSortKey :=
    ⟨fun _ _ _ => le_trans⟩
  exact pairwise_insertionSort _ ssts

variable {p q : PartitionLevels}

variable {sst : SstRef}

theorem add_readSnapshot (added : p.add sst = some q) :
    q.readSnapshot.Perm (p.readSnapshot ++ [sst]) := by
  unfold add at added
  cases found : p.levels[sst.level]? with
  | none => simp [found] at added
  | some ssts =>
    obtain ⟨inside, content⟩ := List.getElem?_eq_some_iff.mp found
    simp only [found, Option.some.injEq] at added
    subst added
    have updated : (if sst.level > 0 then sortLevel (ssts ++ [sst]) else ssts ++ [sst]).Perm
        (ssts ++ [sst]) := by
      split
      · exact perm_insertionSort _ _
      · exact List.Perm.refl _
    have before : p.levels.flatten =
        (p.levels.take sst.level).flatten ++ (ssts ++ (p.levels.drop (sst.level + 1)).flatten) := by
      conv_lhs => rw [← take_append_drop sst.level p.levels]
      rw [drop_eq_getElem_cons inside, content, flatten_append, flatten_cons]
    unfold readSnapshot
    rw [set_eq_take_append_cons_drop, if_pos inside, flatten_append, flatten_cons,
      before, append_assoc]
    refine List.Perm.append_left _ ((updated.append_right _).trans ?_)
    rw [append_assoc, append_assoc]
    exact List.Perm.append_left _ perm_append_comm

variable {files : List SstRef}

variable (held : Holds p files)

include held

theorem holds_add (added : p.add sst = some q) : Holds q (files ++ [sst]) := by
  refine ⟨?_, ?_, ?_⟩
  · exact (add_readSnapshot added).trans (held.same.append_right _)
  · intro i f member
    have content := ((add_level added i).2.mem_iff.mp member)
    rcases mem_append.mp content with old | new
    · exact held.placed i f old
    · split at new
      · next own =>
        rw [mem_singleton.mp new]
        exact own.symm
      · cases new
  · intro i deep
    have other := held.sorted i deep
    unfold add at added
    cases found : p.levels[sst.level]? with
    | none => simp [found] at added
    | some ssts =>
      have inside := (List.getElem?_eq_some_iff.mp found).1
      simp only [found, Option.some.injEq] at added
      subst added
      rw [level_set inside]
      by_cases own : i = sst.level
      · rw [if_pos own, if_pos (by omega)]
        exact sortLevel_sorted _
      · rw [if_neg own]
        exact other

theorem holds_addAll {outs : List SstRef}
    (added : addAll p outs = (q, true)) : Holds q (files ++ outs) := by
  induction outs generalizing p files with
  | nil =>
    cases added
    rw [append_nil]
    exact held
  | cons sst rest ih =>
    unfold addAll at added
    cases first : p.add sst with
    | none => simp [first] at added
    | some r =>
      simp only [first] at added
      have later := ih (holds_add held first) added
      rwa [append_assoc] at later

theorem holds_remove (id : Uuid) : Holds (p.remove id) (files.filter fun f => f.id ≠ id) := by
  refine ⟨?_, ?_, ?_⟩
  · have filtered : (p.remove id).readSnapshot = p.readSnapshot.filter fun f => f.id ≠ id := by
      simp only [readSnapshot, remove, filter_flatten]
    rw [filtered]
    exact held.same.filter _
  · intro i f member
    rw [(remove_level p id i).2] at member
    exact held.placed i f (mem_filter.mp member).1
  · intro i deep
    rw [(remove_level p id i).2]
    exact (held.sorted i deep).filter _

theorem holds_removeAll (ids : List Uuid) :
    Holds (removeAll p ids) (ids.foldl (fun active id => active.filter fun f => f.id ≠ id) files) := by
  induction ids generalizing p files with
  | nil => exact held
  | cons id rest ih => exact ih (holds_remove held id)

omit held

theorem holds_new (config : CompactionConfig) : Holds (.new config) [] := by
  have empty : ∀ i, (PartitionLevels.new config).level i = [] := fresh_level "" config none
  refine ⟨?_, ?_, ?_⟩
  · simp [readSnapshot, PartitionLevels.new]
  · intro i f member
    rw [empty] at member
    cases member
  · intro i _
    rw [empty]
    exact List.Pairwise.nil

variable (C : EventCodec)

variable {s : PartitionCompactor}

theorem mirrors_opened {partitionDir : String} {config : CompactionConfig}
    {ttl : Option TtlConfig} {file : Option Bytes}
    (opened : new C partitionDir config ttl file = some s) :
    Mirrors s.manifest.manifest.pendingCompactions s := by
  unfold new at opened
  split at opened
  · cases opened
  · next manifest _ =>
    split at opened
    · cases opened
    · next levels built =>
      cases opened
      have held := holds_addAll (holds_new config) built
      rw [nil_append] at held
      exact ⟨held, List.Subset.refl _⟩

variable {t : PartitionCompactor}

theorem registerFlush_ok {io : AppendIo} (ok : registerFlush C io sst s = (t, .ok)) :
    s.levels.add sst = some t.levels ∧
      t.manifest.manifest.active = s.manifest.manifest.active ++ [sst] ∧
      t.manifest.manifest.pendingCompactions = s.manifest.manifest.pendingCompactions := by
  unfold registerFlush Manifest.addSst at ok
  generalize Manifest.appendEvent C io (.add sst) s.manifest.file = logged at ok
  obtain ⟨file, appended⟩ := logged
  cases appended with
  | false => simp at ok
  | true =>
    cases added : s.levels.add sst with
    | none => simp [added] at ok
    | some levels =>
      simp only [added, Prod.mk.injEq, and_true] at ok
      subst ok
      exact ⟨rfl, rfl, rfl⟩

theorem beginCompaction_ok {io : AppendIo} {cid : Uuid} {ids : List Uuid} {level : Nat}
    {m n : ManifestState} (ok : Manifest.beginCompaction C io cid ids level m = (n, true)) :
    n.manifest.active = m.manifest.active ∧
      n.manifest.pendingCompactions = m.manifest.pendingCompactions ++ [⟨cid, ids⟩] := by
  unfold Manifest.beginCompaction at ok
  generalize Manifest.appendEvent C io (.compactionBegin cid ids level) m.file = logged at ok
  obtain ⟨file, appended⟩ := logged
  cases appended with
  | false => simp at ok
  | true =>
    simp only [Prod.mk.injEq, and_true] at ok
    subst ok
    exact ⟨rfl, rfl⟩

theorem completeCompaction_manifest (io : CompleteIo) (cid : Uuid) (outputIds removedIds : List Uuid)
    (outs : List SstRef) (m : ManifestState) :
    (Manifest.completeCompaction C io cid outputIds removedIds outs m).1.manifest =
      Manifest.completed m.manifest cid removedIds outs := by
  unfold Manifest.completeCompaction
  generalize Manifest.appendEvent C io.append (.compactionEnd cid outputIds) m.file = logged
  obtain ⟨file, appended⟩ := logged
  cases appended with
  | false => rfl
  | true =>
    simp only
    split
    · split <;> rfl
    · rfl

theorem runCompaction_done {job : CompactionJob} {env : CompactionEnv}
    {result : CompactionResult} (ok : runCompaction C s job env = (t, .done result)) :
    ∃ outs, addAll (removeAll s.levels (job.inputs.map (·.id))) outs = (t.levels, true) ∧
      t.manifest.manifest.active =
        (job.inputs.map (·.id)).foldl (fun active id => active.filter fun f => f.id ≠ id)
          s.manifest.manifest.active ++ outs ∧
      t.manifest.manifest.pendingCompactions = (s.manifest.manifest.pendingCompactions ++
          [(⟨job.id, job.inputs.map (·.id)⟩ : PendingCompaction)]).filter fun p => p.id ≠ job.id := by
  simp only [runCompaction] at ok
  split at ok
  · cases ok
  · next begun began =>
    obtain ⟨active, pending⟩ := beginCompaction_ok C began
    split at ok
    · cases ok
    · next outs _ =>
      have manifest := completeCompaction_manifest C env.completeIo job.id (outs.map (·.id))
        (job.inputs.map (·.id)) outs begun
      split at ok
      · cases ok
      · next ended completed =>
        rw [completed] at manifest
        split at ok
        · next levels inserted =>
          simp only [Prod.mk.injEq] at ok
          obtain ⟨rfl, -⟩ := ok
          refine ⟨outs, inserted, ?_, ?_⟩
          · rw [manifest, Manifest.completed, active]
          · rw [manifest, Manifest.completed, pending]
        · cases ok

inductive OkCall where
  | registerFlush (io : AppendIo) (sst : SstRef)
  | runCompaction (job : CompactionJob) (env : CompactionEnv)

/-- A flush or a run of any job that returns `Ok`. -/
def okStep (s : PartitionCompactor) : OkCall → Option PartitionCompactor
  | .registerFlush io sst =>
    match registerFlush C io sst s with
    | (t, .ok) => some t
    | _ => none
  | .runCompaction job env =>
    match runCompaction C s job env with
    | (t, .done _) => some t
    | _ => none

theorem okStep_mirrors (found : List PendingCompaction) (s : PartitionCompactor) (c : OkCall)
    (t : PartitionCompactor) (mirrors : Mirrors found s) (ok : okStep C s c = some t) :
    Mirrors found t := by
  obtain ⟨held, idle⟩ := mirrors
  cases c with
  | registerFlush io sst =>
    simp only [okStep] at ok
    split at ok
    · next u returned =>
      cases ok
      obtain ⟨added, active, pending⟩ := registerFlush_ok C returned
      refine ⟨?_, ?_⟩
      · rw [Manifest.activeSstables, active]
        exact holds_add held added
      · rw [pending]
        exact idle
    · cases ok
  | runCompaction job env =>
    simp only [okStep] at ok
    split at ok
    · next u result returned =>
      cases ok
      obtain ⟨outs, inserted, active, pending⟩ := runCompaction_done C returned
      refine ⟨?_, ?_⟩
      · rw [Manifest.activeSstables, active]
        exact holds_addAll (holds_removeAll held _) inserted
      · -- the run's own entry carries the id that the filter removes
        rw [pending]
        intro p member
        obtain ⟨listed, other⟩ := mem_filter.mp member
        rcases mem_append.mp listed with old | own
        · exact idle old
        · rw [mem_singleton.mp own] at other
          simp at other
    · cases ok

/-- The levels and the MANIFEST hold the same SSTables. -/
theorem levels_mirror_manifest (partitionDir : String) (config : CompactionConfig)
    (ttl : Option TtlConfig) (file : Option Bytes) (s : PartitionCompactor)
    (opened : new C partitionDir config ttl file = some s) (calls : List OkCall) :
    Run.EveryState (okStep C) (Mirrors s.manifest.manifest.pendingCompactions) s calls :=
  Run.everyState_of_step (okStep_mirrors C s.manifest.manifest.pendingCompactions) calls s
    (mirrors_opened C opened)

theorem levels_mirror_manifest_after_merge :
    let config : CompactionConfig := { l0FileCompactionTrigger := 2 }
    let file (n : Nat) (lo hi : UInt8) : SstRef :=
      ⟨BitVec.ofNat 128 n, n, 0, [], 0, "seg.col", 1024, 10, [lo], [hi]⟩
    let env : CompactionEnv := ⟨0, fun _ => 11, .succeeds, ⟨.succeeds, false, true⟩⟩
    let job : CompactionJob := ⟨10, 0, 1, [file 1 3 9, file 2 0 5]⟩
    Run.EveryState (okStep ManifestJson.jsonCodec) (Mirrors []) (empty "p" config none)
      [.registerFlush .succeeds (file 1 3 9), .registerFlush .succeeds (file 2 0 5),
        .runCompaction job env] := by
  intro config file env job
  exact levels_mirror_manifest ManifestJson.jsonCodec "p" config none none _ rfl _

end WowDb.Storage.PartitionCompactor
