import WowDb.Lib.Bytes
import WowDb.Lib.F64

/-!
# LSM levels of one partition

`storage-node/src/lsm/levels.rs`.
-/
namespace WowDb.Storage
open WowDb.Lib List

abbrev Uuid := BitVec 128

structure SstRef where
  id : Uuid
  sequenceNum : Nat
  generation : Nat
  compactedFrom : List Uuid
  level : Nat
  path : String
  sizeBytes : Nat
  rowCount : Nat
  minSortKey : Bytes
  maxSortKey : Bytes
  deriving DecidableEq

namespace SstRef

def keyInRange (sst : SstRef) (key : Bytes) : Bool :=
  decide (sst.minSortKey ≤ key) && decide (key ≤ sst.maxSortKey)

def overlapsWith (sst other : SstRef) : Bool :=
  decide (sst.minSortKey ≤ other.maxSortKey) && decide (other.minSortKey ≤ sst.maxSortKey)

theorem overlapsWith_iff (a b : SstRef) :
    a.overlapsWith b = true ↔ a.minSortKey ≤ b.maxSortKey ∧ b.minSortKey ≤ a.maxSortKey := by
  simp [overlapsWith]

theorem overlapsWith_comm (a b : SstRef) : a.overlapsWith b = b.overlapsWith a := by
  simp [overlapsWith, Bool.and_comm]

end SstRef

structure CompactionConfig where
  l0FileCompactionTrigger : Nat := 4
  l0SlowdownWriteTrigger : Nat := 8
  l0StopWriteTrigger : Nat := 12
  l1MaxBytes : Nat := 256 * 1024 * 1024
  levelSizeMultiplier : Nat := 10
  maxLevels : Nat := 6
  targetFileSizeBytes : Nat := 64 * 1024 * 1024
  deriving DecidableEq

def u64Max : Nat := 2 ^ 64 - 1

def wrap64 (n : Nat) : Nat := n % 2 ^ 64

def saturatingMul (a b : Nat) : Nat := min (a * b) u64Max

def saturatingPow (a exp : Nat) : Nat := min (a ^ exp) u64Max

def CompactionConfig.targetLevelSizeBytes (cfg : CompactionConfig) (lvl : Nat) : Nat :=
  if lvl = 0 then 0
  else saturatingMul cfg.l1MaxBytes (saturatingPow cfg.levelSizeMultiplier (lvl - 1))

inductive WriteControl where
  | normal | slowdown | stop
  deriving DecidableEq

structure NonOverlapViolation where
  level : Nat
  sstA : Uuid
  sstB : Uuid
  deriving DecidableEq

structure PartitionLevels where
  levels : List (List SstRef)
  config : CompactionConfig
  deriving DecidableEq

variable {α : Type}

def maxBy (cmp : α → α → Ordering) : List α → Option α
  | [] => none
  | x :: rest => some (rest.foldl (fun best y => if cmp best y = .gt then best else y) x)

def minByKey (key : α → Nat) : List α → Option α
  | [] => none
  | x :: rest => some (rest.foldl (fun best y => if key y < key best then y else best) x)

theorem minByKey_spec {key : α → Nat} {xs : List α} {x : α}
    (least : minByKey key xs = some x) : x ∈ xs ∧ ∀ y ∈ xs, key x ≤ key y := by
  cases xs with
  | nil => cases least
  | cons first rest =>
    simp only [minByKey, Option.some.injEq] at least
    subst least
    induction rest generalizing first with
    | nil => simp
    | cons y rest ih =>
      simp only [foldl_cons]
      by_cases smaller : key y < key first
      · obtain ⟨member, le⟩ := ih y
        simp only [smaller, if_true]
        have below := le y (by simp)
        refine ⟨mem_cons_of_mem first member, fun z inZ => ?_⟩
        rcases mem_cons.mp inZ with rfl | later
        · omega
        · exact le z later
      · obtain ⟨member, le⟩ := ih first
        simp only [smaller, if_false]
        have below := le first (by simp)
        refine ⟨?_, fun z inZ => ?_⟩
        · rcases mem_cons.mp member with same | later
          · rw [same]
            simp
          · simp [later]
        · rcases mem_cons.mp inZ with rfl | later
          · exact below
          · rcases mem_cons.mp later with rfl | last
            · omega
            · exact le z (by simp [last])

namespace PartitionLevels

def new (config : CompactionConfig) : PartitionLevels :=
  ⟨List.replicate (config.maxLevels + 1) [], config⟩

variable (ssts : List SstRef)

def sortLevel : List SstRef :=
  ssts.insertionSort fun a b => a.minSortKey ≤ b.minSortKey

variable (p : PartitionLevels)

def add (sst : SstRef) : Option PartitionLevels :=
  match p.levels[sst.level]? with
  | none => none
  | some ssts =>
    let pushed := ssts ++ [sst]
    let updated := if sst.level > 0 then sortLevel pushed else pushed
    some { p with levels := p.levels.set sst.level updated }

def remove (id : Uuid) : PartitionLevels :=
  { p with levels := p.levels.map fun level => level.filter fun s => s.id ≠ id }

def readSnapshot : List SstRef := p.levels.flatten

def levelSizeBytes (lvl : Nat) : Nat :=
  match p.levels[lvl]? with
  | none => 0
  | some ssts => wrap64 (ssts.map (·.sizeBytes)).sum

def l0Count : Nat :=
  match p.levels.head? with
  | none => 0
  | some ssts => ssts.length

def compactionScore (lvl : Nat) : F64 :=
  if lvl = 0 then
    F64.div (F64.ofNat p.l0Count) (F64.ofNat p.config.l0FileCompactionTrigger)
  else
    F64.div (F64.ofNat (p.levelSizeBytes lvl)) (F64.ofNat (p.config.targetLevelSizeBytes lvl))

def compareScore (a b : Nat) : Ordering :=
  (F64.partialCmp (p.compactionScore a) (p.compactionScore b)).getD .eq

def highestPriorityLevel : Option Nat :=
  let candidates := (List.range p.levels.length).filter fun lvl => !(p.levels.getD lvl []).isEmpty
  (maxBy p.compareScore candidates).filter fun lvl =>
    F64.ge (p.compactionScore lvl) (F64.ofNat 1)

def firstOverlap : List SstRef → Option (SstRef × SstRef)
  | [] => none
  | a :: rest =>
    match rest.find? a.overlapsWith with
    | some b => some (a, b)
    | none => firstOverlap rest

def verifyFrom (lvl : Nat) : List (List SstRef) → Except NonOverlapViolation Unit
  | [] => .ok ()
  | ssts :: rest =>
    match firstOverlap ssts with
    | some (a, b) => .error ⟨lvl, a.id, b.id⟩
    | none => verifyFrom (lvl + 1) rest

def verifyNonOverlapping : Except NonOverlapViolation Unit :=
  verifyFrom 1 p.levels.tail

def writeControl : WriteControl :=
  if p.config.l0StopWriteTrigger ≤ p.l0Count then .stop
  else if p.config.l0SlowdownWriteTrigger ≤ p.l0Count then .slowdown
  else .normal

def RangesDisjoint : Prop :=
  ssts.Pairwise fun a b => a.overlapsWith b = false

theorem firstOverlap_none_iff : firstOverlap ssts = none ↔ RangesDisjoint ssts := by
  induction ssts with
  | nil => simp [firstOverlap, RangesDisjoint]
  | cons a rest ih =>
    unfold RangesDisjoint at ih ⊢
    rw [firstOverlap, pairwise_cons]
    cases hf : rest.find? a.overlapsWith with
    | none =>
      have hnone : ∀ b ∈ rest, a.overlapsWith b = false := by
        intro b hb
        simpa using find?_eq_none.mp hf b hb
      simp only [ih]
      exact ⟨fun h => ⟨hnone, h⟩, fun h => h.2⟩
    | some b =>
      have hb := find?_some hf
      have hmem := mem_of_find?_eq_some hf
      simp only [reduceCtorEq, false_iff, not_and]
      intro hall
      simp [hall b hmem] at hb

theorem verifyFrom_ok_iff (lvl : Nat) (levels : List (List SstRef)) :
    verifyFrom lvl levels = .ok () ↔ ∀ ssts ∈ levels, RangesDisjoint ssts := by
  induction levels generalizing lvl with
  | nil => simp [verifyFrom]
  | cons ssts rest ih =>
    rw [verifyFrom, forall_mem_cons, ← firstOverlap_none_iff]
    cases hf : firstOverlap ssts with
    | none => simpa using ih (lvl + 1)
    | some pair => simp

theorem verifyNonOverlapping_ok_iff :
    p.verifyNonOverlapping = .ok () ↔ ∀ ssts ∈ p.levels.tail, RangesDisjoint ssts :=
  verifyFrom_ok_iff 1 p.levels.tail

end PartitionLevels
end WowDb.Storage
