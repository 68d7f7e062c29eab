import WowDb.Lib.OrdMap
import WowDb.Lib.Run
import WowDb.Lib.Text

/-!
# MemTable

`storage-node/src/lsm/memtable.rs` and the sort keys of `shared/src/types.rs`.
-/
namespace WowDb.Storage
open WowDb.Lib

structure SortKeyComponent where
  column : String
  encoded : Bytes
  deriving DecidableEq

structure SortKey where
  values : List SortKeyComponent
  deriving DecidableEq

/-- Rows of one sort key are told apart by a sequence number, a `u64` in the source. -/
structure MemKey where
  sortKey : SortKey
  seq : Nat

def MemKey.rank (k : MemKey) : List (String ×ₗ Bytes) ×ₗ Nat :=
  toLex (k.sortKey.values.map fun c => toLex (c.column, c.encoded), k.seq)

theorem MemKey.rank_injective : Function.Injective MemKey.rank := by
  rintro ⟨⟨a⟩, i⟩ ⟨⟨b⟩, j⟩ equal
  have parts := congrArg ofLex equal
  simp only [MemKey.rank, ofLex_toLex, Prod.mk.injEq] at parts
  obtain ⟨values, rfl⟩ := parts
  have component : Function.Injective fun c : SortKeyComponent =>
      (toLex (c.column, c.encoded) : String ×ₗ Bytes) := by
    rintro ⟨c, d⟩ ⟨c', d'⟩ same
    have pair := congrArg ofLex same
    simp only [ofLex_toLex, Prod.mk.injEq] at pair
    rw [pair.1, pair.2]
  rw [component.list_map values]

instance : LinearOrder MemKey := LinearOrder.lift' MemKey.rank MemKey.rank_injective

structure MemRow where
  columns : List (String × Bytes)
  txId : UInt64
  deleted : Bool
  deriving DecidableEq

structure ImmutableMemTable where
  entries : List (MemKey × MemRow)
  sizeBytes : Nat

/-- `seqGen` is the `u64` counter of the source as a natural number: it does not wrap. -/
structure MemTable where
  map : OrdMap MemKey MemRow
  sizeBytes : Nat
  seqGen : Nat
  threshold : Nat

def defaultMemtableThreshold : Nat := 64 * 1024 * 1024

namespace MemTable

def new (threshold : Nat) : MemTable := ⟨.empty, 0, 0, threshold⟩

def newWithSeq (threshold seqGen : Nat) : MemTable := ⟨.empty, 0, seqGen, threshold⟩

def estimateRowSize (columns : List (String × Bytes)) : Nat :=
  columns.foldl (fun size c => size + ((Text.encode c.1.toList).length + c.2.length + 16)) 64

def insert (m : MemTable) (sortKey : SortKey) (columns : List (String × Bytes)) (txId : UInt64) :
    MemTable × Bool :=
  let rowSize := estimateRowSize columns
  ({ m with
      map := m.map.insert ⟨sortKey, m.seqGen⟩ ⟨columns, txId, false⟩
      sizeBytes := m.sizeBytes + rowSize
      seqGen := m.seqGen + 1 },
    decide (m.threshold ≤ m.sizeBytes + rowSize))

def delete (m : MemTable) (sortKey : SortKey) (txId : UInt64) : MemTable × Bool :=
  ({ m with
      map := m.map.insert ⟨sortKey, m.seqGen⟩ ⟨[], txId, true⟩
      sizeBytes := m.sizeBytes + 64
      seqGen := m.seqGen + 1 },
    decide (m.threshold ≤ m.sizeBytes + 64))

def rowCount (m : MemTable) : Nat := m.map.entries.length

def isFull (m : MemTable) : Bool := decide (m.threshold ≤ m.sizeBytes)

def reset (m : MemTable) : MemTable := { m with map := .empty, sizeBytes := 0 }

def freeze (m : MemTable) : ImmutableMemTable := ⟨m.map.entries, m.sizeBytes⟩

def snapshotAsImmutable (m : MemTable) : ImmutableMemTable := ⟨m.map.entries, m.sizeBytes⟩

def rowOf (e : MemKey × MemRow) : Option (Bytes × List (String × Bytes)) :=
  if e.2.deleted then none
  else some ((e.1.sortKey.values.head?.map (·.encoded)).getD [], e.2.columns)

def iterRows (m : MemTable) : List (Bytes × List (String × Bytes)) :=
  m.map.entries.filterMap rowOf

def SeqBelow (m : MemTable) : Prop := ∀ e ∈ m.map.entries, e.1.seq < m.seqGen

theorem seqBelow_new (threshold : Nat) : SeqBelow (new threshold) := by
  intro e member
  cases member

variable {m : MemTable}

theorem seqBelow_reset : SeqBelow m.reset := by
  intro e member
  cases member

variable (below : SeqBelow m)

include below

theorem absent_of_seqBelow (sortKey : SortKey) :
    ∀ e ∈ m.map.entries, e.1 ≠ ⟨sortKey, m.seqGen⟩ := by
  intro e member same
  have less := below e member
  rw [same] at less
  exact absurd less (Nat.lt_irrefl _)

theorem seqBelow_push (sortKey : SortKey) (row : MemRow) :
    ∀ e ∈ (m.map.insert ⟨sortKey, m.seqGen⟩ row).entries, e.1.seq < m.seqGen + 1 := by
  intro e member
  have inserted := OrdMap.insert_perm row (absent_of_seqBelow below sortKey)
  rcases List.mem_cons.mp (inserted.mem_iff.mp member) with rfl | old
  · exact Nat.lt_succ_self _
  · exact Nat.lt_succ_of_lt (below e old)

theorem seqBelow_insert (sortKey : SortKey) (columns : List (String × Bytes)) (txId : UInt64) :
    SeqBelow (m.insert sortKey columns txId).1 :=
  seqBelow_push below sortKey ⟨columns, txId, false⟩

theorem seqBelow_delete (sortKey : SortKey) (txId : UInt64) : SeqBelow (m.delete sortKey txId).1 :=
  seqBelow_push below sortKey ⟨[], txId, true⟩

theorem iterRows_insert (sortKey : SortKey) (columns : List (String × Bytes)) (txId : UInt64) :
    (m.insert sortKey columns txId).1.iterRows.Perm
      (((sortKey.values.head?.map (·.encoded)).getD [], columns) :: m.iterRows) := by
  have inserted := OrdMap.insert_perm (⟨columns, txId, false⟩ : MemRow)
    (absent_of_seqBelow below sortKey)
  have rows := inserted.filterMap rowOf
  simpa [iterRows, insert, rowOf] using rows

theorem iterRows_delete (sortKey : SortKey) (txId : UInt64) :
    (m.delete sortKey txId).1.iterRows.Perm m.iterRows := by
  have inserted := OrdMap.insert_perm (⟨[], txId, true⟩ : MemRow)
    (absent_of_seqBelow below sortKey)
  have rows := inserted.filterMap rowOf
  simpa [iterRows, delete, rowOf] using rows

end MemTable

open List

abbrev MemEntry := MemKey × MemRow

structure MemTableSet where
  active : MemTable
  immutable : List ImmutableMemTable
  /-- The call that holds the freeze lock. -/
  freezeLock : Option Nat
  threshold : Nat

namespace MemTableSet

def new (threshold : Nat) : MemTableSet := ⟨.newWithSeq threshold 0, [], none, threshold⟩

def insertActive (s : MemTableSet) (sortKey : SortKey) (columns : List (String × Bytes))
    (txId : UInt64) : MemTableSet × Bool :=
  let (active, full) := s.active.insert sortKey columns txId
  ({ s with active := active }, full)

def swapActive (s : MemTableSet) : MemTableSet × MemTable :=
  ({ s with active := .newWithSeq s.threshold s.active.seqGen }, s.active)

def popImmutable (s : MemTableSet) : MemTableSet × Option ImmutableMemTable :=
  match s.immutable with
  | [] => (s, none)
  | first :: rest => ({ s with immutable := rest }, some first)

end MemTableSet

inductive FreezePhase where
  | full
  | locked
  | checked
  | swapped (old : MemTable)

def FreezePhase.old : FreezePhase → Option MemTable
  | .swapped old => some old
  | _ => none

structure MemTableRun where
  set : MemTableSet
  calls : OrdMap Nat FreezePhase
  inserted : List (SortKey × MemRow)
  popped : List ImmutableMemTable

namespace MemTableRun

inductive Act where
  | insert (call : Nat) (sortKey : SortKey) (columns : List (String × Bytes)) (txId : UInt64)
  | tryLock (call : Nat)
  | doubleCheck (call : Nat)
  | swap (call : Nat)
  /-- `unique`: whether `try_unwrap` finds the old table's only reference. -/
  | publish (call : Nat) (unique : Bool)
  | popImmutable

def init (threshold : Nat) : MemTableRun := ⟨.new threshold, .empty, [], []⟩

def step (s : MemTableRun) : Act → Option MemTableRun
  | .insert call sortKey columns txId =>
    match s.calls.get? call with
    | some _ => none
    | none =>
      let (set, full) := s.set.insertActive sortKey columns txId
      some { s with
        set := set
        calls := if full then s.calls.insert call .full else s.calls
        inserted := (sortKey, ⟨columns, txId, false⟩) :: s.inserted }
  | .tryLock call =>
    match s.calls.get? call, s.set.freezeLock with
    | some .full, some _ => some { s with calls := s.calls.erase call }
    | some .full, none => some { s with
        set := { s.set with freezeLock := some call }
        calls := s.calls.insert call .locked }
    | _, _ => none
  | .doubleCheck call =>
    match s.calls.get? call with
    | some .locked =>
      if s.set.active.isFull then some { s with calls := s.calls.insert call .checked }
      else some { s with
        set := { s.set with freezeLock := none }
        calls := s.calls.erase call }
    | _ => none
  | .swap call =>
    match s.calls.get? call with
    | some .checked =>
      let (set, old) := s.set.swapActive
      some { s with set := set, calls := s.calls.insert call (.swapped old) }
    | _ => none
  | .publish call unique =>
    match s.calls.get? call with
    | some (.swapped old) =>
      let imm := if unique then old.freeze else old.snapshotAsImmutable
      some { s with
        set := { s.set with immutable := s.set.immutable ++ [imm], freezeLock := none }
        calls := s.calls.erase call }
    | _ => none
  | .popImmutable =>
    let (set, first) := s.set.popImmutable
    some { s with set := set, popped := s.popped ++ first.toList }

def freezes (s : MemTableRun) : OrdMap Nat MemTable := s.calls.filterMap fun _ phase => phase.old

def tables (s : MemTableRun) : List (List MemEntry) :=
  s.popped.map (·.entries) ++ s.set.immutable.map (·.entries) ++
    s.freezes.entries.map (·.2.map.entries) ++ [s.set.active.map.entries]

def rowOf (e : MemEntry) : SortKey × MemRow := (e.1.sortKey, e.2)

def Older (a b : List MemEntry) : Prop := ∀ x ∈ a, ∀ y ∈ b, x.1.seq < y.1.seq

structure Filled (tables : List (List MemEntry)) (inserted : List (SortKey × MemRow))
    (next : Nat) : Prop where
  rows : (tables.flatten.map rowOf).Perm inserted
  seqs : (tables.flatten.map (·.1.seq)).Nodup
  older : tables.Pairwise Older
  below : ∀ e ∈ tables.flatten, e.1.seq < next

namespace Filled
variable {front : List (List MemEntry)} {last : List MemEntry}
  {inserted : List (SortKey × MemRow)} {next : Nat}

theorem rotate {tables : List (List MemEntry)} (filled : Filled tables inserted next) :
    Filled (tables ++ [[]]) inserted next := by
  have same : (tables ++ [[]]).flatten = tables.flatten := by simp
  refine ⟨same ▸ filled.rows, same ▸ filled.seqs, ?_, same ▸ filled.below⟩
  refine pairwise_append.mpr ⟨filled.older, pairwise_singleton _ _, ?_⟩
  intro a _ b isNew x _ y inNew
  rw [mem_singleton.mp isNew] at inNew
  cases inNew

theorem push (filled : Filled (front ++ [last]) inserted next) {e : MemEntry}
    (numbered : e.1.seq = next) {after : List MemEntry} (added : after.Perm (e :: last)) :
    Filled (front ++ [after]) (rowOf e :: inserted) (next + 1) := by
  have whole : (front ++ [after]).flatten.Perm (e :: (front ++ [last]).flatten) := by
    simp only [flatten_append, flatten_singleton]
    exact (added.append_left _).trans perm_middle
  have fresh : ∀ x ∈ (front ++ [last]).flatten, x.1.seq < e.1.seq := numbered ▸ filled.below
  refine ⟨?_, ?_, ?_, ?_⟩
  · exact (whole.map rowOf).trans (filled.rows.cons _)
  · rw [(whole.map _).nodup_iff, map_cons, nodup_cons]
    refine ⟨fun taken => ?_, filled.seqs⟩
    obtain ⟨x, mem, same⟩ := mem_map.mp taken
    exact absurd (fresh x mem) (by omega)
  · obtain ⟨earlier, -, toLast⟩ := pairwise_append.mp filled.older
    refine pairwise_append.mpr ⟨earlier, pairwise_singleton _ _, ?_⟩
    intro a inFront b isLast x inA y inB
    rw [mem_singleton.mp isLast] at inB
    rcases mem_cons.mp (added.mem_iff.mp inB) with rfl | old
    · exact fresh x (mem_flatten.mpr ⟨a, mem_append_left _ inFront, inA⟩)
    · exact toLast a inFront last mem_cons_self x inA y old
  · intro x mem
    rcases mem_cons.mp (whole.mem_iff.mp mem) with rfl | old
    · omega
    · exact Nat.lt_succ_of_lt (filled.below x old)

end Filled

def Exclusive (s : MemTableRun) : Prop :=
  ∀ call phase, s.calls.get? call = some phase → phase ≠ .full → s.set.freezeLock = some call

structure Invariant (s : MemTableRun) : Prop where
  exclusive : Exclusive s
  filled : Filled s.tables s.inserted s.set.active.seqGen

namespace Exclusive
variable {s : MemTableRun} {call : Nat} {phase : FreezePhase}

variable (exclusive : Exclusive s)

include exclusive

theorem eq_call (running : s.calls.get? call = some phase)
    (past : phase ≠ .full) {k : Nat} {there : FreezePhase} (found : s.calls.get? k = some there)
    (notFull : there ≠ .full) : k = call := by
  have lock := exclusive k there found notFull
  rw [exclusive call phase running past] at lock
  exact (Option.some.inj lock).symm

theorem freezes_eq (running : s.calls.get? call = some phase)
    (past : phase ≠ .full) :
    s.freezes = match phase.old with
      | none => .empty
      | some old => OrdMap.insert .empty call old := by
  have alone : ∀ k, k ≠ call → (s.calls.get? k).bind FreezePhase.old = none := by
    intro k other
    cases found : s.calls.get? k with
    | none => rfl
    | some there =>
      cases there with
      | full | locked | checked => rfl
      | swapped old => exact absurd (exclusive.eq_call running past found (by simp)) other
  refine OrdMap.ext_get? fun k => ?_
  rw [freezes, OrdMap.get?_filterMap]
  by_cases here : k = call
  · subst here
    cases phase <;> simp [running, FreezePhase.old, OrdMap.get?_insert]
  · rw [alone k here]
    cases phase <;> simp [FreezePhase.old, OrdMap.get?_insert, here]

theorem advance (running : s.calls.get? call = some phase)
    (past : phase ≠ .full) (active : MemTable) (after : FreezePhase) :
    Exclusive { s with
      set := { s.set with active := active }
      calls := s.calls.insert call after } := by
  intro k there found notFull
  rw [OrdMap.get?_insert] at found
  split at found
  · next same => rw [same]; exact exclusive call phase running past
  · exact exclusive k there found notFull

theorem leave (running : s.calls.get? call = some phase)
    (past : phase ≠ .full) (immutable : List ImmutableMemTable) :
    Exclusive { s with
      set := { s.set with immutable := immutable, freezeLock := none }
      calls := s.calls.erase call } := by
  intro k there found notFull
  rw [OrdMap.get?_erase] at found
  split at found
  · cases found
  · next other => exact absurd (exclusive.eq_call running past found notFull) other

end Exclusive

theorem invariant_init (threshold : Nat) : Invariant (init threshold) where
  exclusive := by intro call phase found; cases found
  filled := ⟨List.Perm.refl _, nodup_nil, pairwise_singleton _ _, by
    intro e mem
    cases mem⟩

theorem filled_insert {s : MemTableRun} (inv : Invariant s) (sortKey : SortKey)
    (columns : List (String × Bytes)) (txId : UInt64) {calls : OrdMap Nat FreezePhase}
    (quiet : (calls.filterMap fun _ phase => phase.old) = s.freezes) :
    Filled
      (tables ⟨(s.set.insertActive sortKey columns txId).1, calls,
        (sortKey, ⟨columns, txId, false⟩) :: s.inserted, s.popped⟩)
      ((sortKey, ⟨columns, txId, false⟩) :: s.inserted) (s.set.active.seqGen + 1) := by
  have below : s.set.active.SeqBelow := by
    intro e mem
    exact inv.filled.below e (mem_flatten.mpr ⟨_, mem_append_right _ mem_cons_self, mem⟩)
  have added := OrdMap.insert_perm (⟨columns, txId, false⟩ : MemRow)
    (MemTable.absent_of_seqBelow below sortKey)
  have pushed := inv.filled.push (e := (⟨sortKey, s.set.active.seqGen⟩, ⟨columns, txId, false⟩)) rfl added
  rw [tables, freezes, quiet]
  exact pushed

theorem filled_of_quiet {s t : MemTableRun} (inv : Invariant s)
    (quiet : t.freezes = s.freezes) (active : t.set.active = s.set.active)
    (queued : t.set.immutable = s.set.immutable) (popped : t.popped = s.popped)
    (inserted : t.inserted = s.inserted) : Filled t.tables t.inserted t.set.active.seqGen := by
  have same : t.tables = s.tables := by simp only [tables, quiet, active, queued, popped]
  rw [same, inserted, active]
  exact inv.filled

theorem invariant_tryLock {s t : MemTableRun} {call : Nat} (inv : Invariant s)
    (taken : step s (.tryLock call) = some t) : Invariant t := by
  simp only [step] at taken
  split at taken
  · next waiting held =>
    obtain rfl := Option.some.inj taken
    have quiet := OrdMap.filterMap_erase_of_none (f := fun _ phase => FreezePhase.old phase)
      (m := s.calls) (k := call) (by rw [waiting]; rfl)
    refine ⟨fun k there found notFull => ?_, filled_of_quiet inv quiet rfl rfl rfl rfl⟩
    exact inv.exclusive k there (OrdMap.get?_of_erase found) notFull
  · next waiting free =>
    obtain rfl := Option.some.inj taken
    have quiet := OrdMap.filterMap_insert_of_none (f := fun _ phase => FreezePhase.old phase)
      (m := s.calls) (k := call) (v := .locked) (by rw [waiting]; rfl) rfl
    refine ⟨fun k there found notFull => ?_, filled_of_quiet inv quiet rfl rfl rfl rfl⟩
    rw [OrdMap.get?_insert] at found
    split at found
    · next same => rw [same]
    · -- the lock was free, so nobody else is past it
      have lock := inv.exclusive k there found notFull
      rw [free] at lock
      cases lock
  · cases taken

theorem invariant_doubleCheck {s t : MemTableRun} {call : Nat} (inv : Invariant s)
    (taken : step s (.doubleCheck call) = some t) : Invariant t := by
  simp only [step] at taken
  split at taken
  · next running =>
    split at taken
    · obtain rfl := Option.some.inj taken
      have quiet := OrdMap.filterMap_insert_of_none (f := fun _ phase => FreezePhase.old phase)
        (m := s.calls) (k := call) (v := .checked) (by rw [running]; rfl) rfl
      exact ⟨inv.exclusive.advance running (by simp) s.set.active _,
        filled_of_quiet inv quiet rfl rfl rfl rfl⟩
    · obtain rfl := Option.some.inj taken
      have quiet := OrdMap.filterMap_erase_of_none (f := fun _ phase => FreezePhase.old phase)
        (m := s.calls) (k := call) (by rw [running]; rfl)
      exact ⟨inv.exclusive.leave running (by simp) s.set.immutable,
        filled_of_quiet inv quiet rfl rfl rfl rfl⟩
  · cases taken

theorem invariant_swap {s t : MemTableRun} {call : Nat} (inv : Invariant s)
    (taken : step s (.swap call) = some t) : Invariant t := by
  simp only [step] at taken
  split at taken
  · next running =>
    obtain rfl := Option.some.inj taken
    have exclusive := inv.exclusive.advance running (by simp)
      (.newWithSeq s.set.threshold s.set.active.seqGen) (.swapped s.set.active)
    refine ⟨exclusive, ?_⟩
    have before := inv.exclusive.freezes_eq running (by simp)
    have swapped : (s.calls.insert call (.swapped s.set.active)).get? call =
        some (.swapped s.set.active) := by
      rw [OrdMap.get?_insert, if_pos rfl]
    have after := exclusive.freezes_eq swapped (by simp)
    have rotated := inv.filled.rotate
    rw [tables, before] at rotated
    rw [tables, MemTableSet.swapActive, after]
    simpa [FreezePhase.old, OrdMap.empty, OrdMap.insert, OrdMap.insertEntry, MemTable.newWithSeq]
      using rotated
  · cases taken

theorem entries_ite_freeze (old : MemTable) (unique : Bool) :
    (if unique then old.freeze else old.snapshotAsImmutable).entries = old.map.entries := by
  cases unique <;> rfl

theorem invariant_publish {s t : MemTableRun} {call : Nat} {unique : Bool} (inv : Invariant s)
    (taken : step s (.publish call unique) = some t) : Invariant t := by
  simp only [step] at taken
  split at taken
  · next old running =>
    obtain rfl := Option.some.inj taken
    refine ⟨inv.exclusive.leave running (by simp) _, ?_⟩
    have before := inv.exclusive.freezes_eq running (by simp)
    have after : (s.calls.erase call).filterMap (fun _ phase => phase.old) = .empty := by
      refine OrdMap.ext_get? fun k => ?_
      have others := congrArg (OrdMap.get? · k) before
      rw [OrdMap.get?_filterMap, OrdMap.get?_erase]
      split
      · rfl
      · next other =>
        simp only [freezes, OrdMap.get?_filterMap] at others
        rw [others]
        exact (OrdMap.get?_insert _ _ _ _).trans (if_neg other)
    have same := inv.filled
    rw [tables, before] at same
    rw [tables, freezes, after]
    simpa [FreezePhase.old, OrdMap.empty, OrdMap.insert, OrdMap.insertEntry, entries_ite_freeze]
      using same
  · cases taken

theorem invariant_popImmutable {s t : MemTableRun} (inv : Invariant s)
    (taken : step s .popImmutable = some t) : Invariant t := by
  obtain rfl := Option.some.inj taken
  have same := inv.filled
  cases queue : s.set.immutable with
  | nil =>
    refine ⟨inv.exclusive, ?_⟩
    simpa [tables, freezes] using same
  | cons first rest =>
    refine ⟨inv.exclusive, ?_⟩
    simpa [tables, freezes, queue] using same

theorem invariant_insert {s t : MemTableRun} {call : Nat} {sortKey : SortKey}
    {columns : List (String × Bytes)} {txId : UInt64} (inv : Invariant s)
    (taken : step s (.insert call sortKey columns txId) = some t) : Invariant t := by
  simp only [step] at taken
  split at taken
  · cases taken
  · next absent =>
    obtain rfl := Option.some.inj taken
    have quiet : ((if (s.set.insertActive sortKey columns txId).2 then
        s.calls.insert call .full else s.calls).filterMap fun _ phase => phase.old) =
        s.freezes := by
      split
      · exact OrdMap.filterMap_insert_of_none (by rw [absent]; rfl) rfl
      · rfl
    refine ⟨fun k there found notFull => ?_, filled_insert inv sortKey columns txId quiet⟩
    split at found
    · rcases OrdMap.get?_insert_or found with old | new
      · exact inv.exclusive k there old notFull
      · exact absurd new notFull
    · exact inv.exclusive k there found notFull

theorem invariant_step {s t : MemTableRun} {act : Act} (inv : Invariant s)
    (taken : step s act = some t) : Invariant t := by
  cases act with
  | insert => exact invariant_insert inv taken
  | tryLock => exact invariant_tryLock inv taken
  | doubleCheck => exact invariant_doubleCheck inv taken
  | swap => exact invariant_swap inv taken
  | publish => exact invariant_publish inv taken
  | popImmutable => exact invariant_popImmutable inv taken

/-- No row is lost or doubled, and the oldest table goes first. -/
structure KeepsRows (s : MemTableRun) : Prop where
  rows : ((s.popped.flatMap (·.entries) ++ s.set.immutable.flatMap (·.entries) ++
    s.freezes.entries.flatMap (·.2.map.entries) ++ s.set.active.map.entries).map rowOf).Perm
      s.inserted
  seqs : ((s.popped.flatMap (·.entries) ++ s.set.immutable.flatMap (·.entries) ++
    s.freezes.entries.flatMap (·.2.map.entries) ++ s.set.active.map.entries).map
      (·.1.seq)).Nodup
  order : (s.popped ++ s.set.immutable).Pairwise fun a b => Older a.entries b.entries

theorem flatten_tables (s : MemTableRun) :
    s.tables.flatten = s.popped.flatMap (·.entries) ++ s.set.immutable.flatMap (·.entries) ++
      s.freezes.entries.flatMap (·.2.map.entries) ++ s.set.active.map.entries := by
  simp [tables, flatMap_def]

/-- After every interleaving of the steps of any calls. -/
theorem memTableSet_keepsRows (threshold : Nat) (acts : List Act) :
    Run.EveryState step KeepsRows (init threshold) acts := by
  refine (Run.everyState_of_step (fun _ _ _ => invariant_step) acts _
    (invariant_init threshold)).imp fun s inv => ?_
  have rows := inv.filled.rows
  have seqs := inv.filled.seqs
  have older := inv.filled.older
  rw [flatten_tables] at rows seqs
  rw [tables, append_assoc, pairwise_append, ← map_append] at older
  exact ⟨rows, seqs, pairwise_map.mp older.1⟩

end MemTableRun

inductive LockPhase where
  /-- The read lock of `active` is held, the row is not in yet. -/
  | reading (sortKey : SortKey) (columns : List (String × Bytes)) (txId : UInt64)
  | inserted (full : Bool)
  /-- The read lock is released; the table was full. -/
  | full
  /-- The freeze lock is held, from here to `leaving`. -/
  | locked
  | looking
  | looked (full : Bool)
  | toSwap
  /-- The write lock of `active` is held. -/
  | swapping
  | swapped (old : MemTable)
  | toPublish (old : MemTable)
  | leaving

namespace LockPhase

def holdsRead : LockPhase → Bool
  | reading .. | inserted _ | looking | looked _ => true
  | _ => false

def holdsWrite : LockPhase → Bool
  | swapping | swapped _ => true
  | _ => false

def ahead : LockPhase → Bool
  | locked | looking | toSwap | swapping => true
  | looked wasFull => wasFull
  | _ => false

def attends : LockPhase → Bool
  | inserted wasFull => wasFull
  | full => true
  | phase => phase.ahead

theorem attends_of_ahead {phase : LockPhase} (isAhead : phase.ahead = true) :
    phase.attends = true := by
  cases phase <;> first | exact isAhead | cases isAhead

end LockPhase

structure LockedRun where
  set : MemTableSet
  calls : OrdMap Nat LockPhase

namespace LockedRun

inductive Act where
  | insert (call : Nat) (sortKey : SortKey) (columns : List (String × Bytes)) (txId : UInt64)
  /-- `unique`: whether `try_unwrap` finds the old table's only reference. -/
  | next (call : Nat) (unique : Bool)

def init (threshold : Nat) : LockedRun := ⟨.new threshold, .empty⟩

def anyReader (s : LockedRun) : Bool := s.calls.entries.any (·.2.holdsRead)

def anyWriter (s : LockedRun) : Bool := s.calls.entries.any (·.2.holdsWrite)

def goes (s : LockedRun) (call : Nat) (phase : LockPhase) : LockedRun :=
  { s with calls := s.calls.insert call phase }

def returns (s : LockedRun) (call : Nat) : LockedRun := { s with calls := s.calls.erase call }

def advance (s : LockedRun) (call : Nat) (unique : Bool) : LockPhase → Option LockedRun
  | .reading sortKey columns txId =>
    let (set, full) := s.set.insertActive sortKey columns txId
    some (goes { s with set := set } call (.inserted full))
  | .inserted full => some (if full then s.goes call .full else s.returns call)
  | .full =>
    match s.set.freezeLock with
    | some _ => some (s.returns call)
    | none => some (goes { s with set := { s.set with freezeLock := some call } } call .locked)
  | .locked => if s.anyWriter then none else some (s.goes call .looking)
  | .looking => some (s.goes call (.looked s.set.active.isFull))
  | .looked full => some (s.goes call (if full then .toSwap else .leaving))
  | .toSwap => if s.anyReader || s.anyWriter then none else some (s.goes call .swapping)
  | .swapping =>
    let (set, old) := s.set.swapActive
    some (goes { s with set := set } call (.swapped old))
  | .swapped old => some (s.goes call (.toPublish old))
  | .toPublish old =>
    let imm := if unique then old.freeze else old.snapshotAsImmutable
    some (goes { s with set := { s.set with immutable := s.set.immutable ++ [imm] } } call .leaving)
  | .leaving => some (returns { s with set := { s.set with freezeLock := none } } call)

def step (s : LockedRun) : Act → Option LockedRun
  | .insert call sortKey columns txId =>
    match s.calls.get? call with
    | some _ => none
    | none =>
      if s.anyWriter then none else some (s.goes call (.reading sortKey columns txId))
  | .next call unique => (s.calls.get? call).bind (s.advance call unique)

def Attends (s : LockedRun) : Prop :=
  ∃ call phase, s.calls.get? call = some phase ∧ phase.attends = true

variable {s : LockedRun} {call : Nat}

theorem Attends.goes (attended : Attends s) {phase : LockPhase}
    (running : s.calls.get? call = some phase) (after : LockPhase)
    (keeps : phase.attends = true → after.attends = true) : Attends (s.goes call after) := by
  obtain ⟨k, there, found, attends⟩ := attended
  by_cases same : k = call
  · subst same
    rw [running, Option.some.injEq] at found
    subst found
    exact ⟨k, after, by rw [LockedRun.goes, OrdMap.get?_insert, if_pos rfl], keeps attends⟩
  · exact ⟨k, there, by rw [LockedRun.goes, OrdMap.get?_insert, if_neg same, found], attends⟩

theorem Attends.returns {k : Nat} {there : LockPhase} (other : k ≠ call)
    (found : s.calls.get? k = some there) (attends : there.attends = true) :
    Attends (s.returns call) :=
  ⟨k, there, by rw [LockedRun.returns, OrdMap.get?_erase, if_neg other, found], attends⟩

theorem Attends.returns_idle (attended : Attends s) {phase : LockPhase}
    (running : s.calls.get? call = some phase) (idle : phase.attends = false) :
    Attends (s.returns call) := by
  obtain ⟨k, there, found, attends⟩ := attended
  refine Attends.returns (fun same => ?_) found attends
  rw [same, running, Option.some.injEq] at found
  rw [← found, idle] at attends
  cases attends

theorem attends_goes (s : LockedRun) (call : Nat) {after : LockPhase}
    (attends : after.attends = true) : Attends (s.goes call after) :=
  ⟨call, after, by rw [LockedRun.goes, OrdMap.get?_insert, if_pos rfl], attends⟩

structure Attended (threshold : Nat) (s : LockedRun) : Prop where
  set : s.set.threshold = threshold
  active : s.set.active.threshold = threshold
  full : s.set.active.isFull = true → Attends s

/-- The holder of the lock has yet to look at the table. -/
def leftToHolder (s : LockedRun) : Act → Bool
  | .insert .. => true
  | .next call _ =>
    match s.calls.get? call, s.set.freezeLock with
    | some .full, some holder => !s.set.active.isFull || (s.calls.get? holder).any (·.ahead)
    | _, _ => true

variable {threshold : Nat}

theorem attended_init (pos : 0 < threshold) : Attended threshold (init threshold) where
  set := rfl
  active := rfl
  full isFull := by
    have reached : threshold ≤ 0 := of_decide_eq_true isFull
    omega

theorem attended_advance (pos : 0 < threshold) {t : LockedRun} {unique : Bool} {phase : LockPhase}
    (inv : Attended threshold s) (left : s.leftToHolder (.next call unique) = true)
    (running : s.calls.get? call = some phase) (ok : s.advance call unique phase = some t) :
    Attended threshold t := by
  obtain ⟨set, active, full⟩ := inv
  cases phase with
  | reading sortKey columns txId =>
    -- who fills the table is told so
    obtain rfl := Option.some.inj ok
    exact ⟨set, active, fun isFull => attends_goes _ call isFull⟩
  | inserted wasFull =>
    obtain rfl := Option.some.inj ok
    cases wasFull with
    | true => exact ⟨set, active, fun _ => attends_goes _ call rfl⟩
    | false => exact ⟨set, active, fun isFull => (full isFull).returns_idle running rfl⟩
  | full =>
    cases lock : s.set.freezeLock with
    | none =>
      simp only [advance, lock, Option.some.injEq] at ok
      subst ok
      exact ⟨set, active, fun _ => attends_goes _ call rfl⟩
    | some holder =>
      simp only [advance, lock, Option.some.injEq] at ok
      subst ok
      refine ⟨set, active, fun isFull => ?_⟩
      have held : (s.calls.get? holder).any (·.ahead) = true := by
        simpa [leftToHolder, running, lock, show s.set.active.isFull = true from isFull] using left
      cases found : s.calls.get? holder with
      | none =>
        rw [found] at held
        cases held
      | some there =>
        rw [found] at held
        refine Attends.returns (fun same => ?_) found (LockPhase.attends_of_ahead held)
        rw [same, running, Option.some.injEq] at found
        subst found
        cases held
  | locked =>
    simp only [advance] at ok
    split at ok
    · cases ok
    · obtain rfl := Option.some.inj ok
      exact ⟨set, active, fun _ => attends_goes _ call rfl⟩
  | looking =>
    obtain rfl := Option.some.inj ok
    exact ⟨set, active, fun isFull => attends_goes _ call isFull⟩
  | looked wasFull =>
    obtain rfl := Option.some.inj ok
    cases wasFull with
    | true => exact ⟨set, active, fun _ => attends_goes _ call rfl⟩
    | false => exact ⟨set, active, fun isFull => (full isFull).goes running .leaving nofun⟩
  | toSwap =>
    simp only [advance] at ok
    split at ok
    · cases ok
    · obtain rfl := Option.some.inj ok
      exact ⟨set, active, fun _ => attends_goes _ call rfl⟩
  | swapping =>
    obtain rfl := Option.some.inj ok
    refine ⟨set, set, fun isFull => ?_⟩
    have reached : s.set.threshold ≤ 0 := of_decide_eq_true isFull
    omega
  | swapped old =>
    obtain rfl := Option.some.inj ok
    exact ⟨set, active, fun isFull => (full isFull).goes running (.toPublish old) nofun⟩
  | toPublish old =>
    obtain rfl := Option.some.inj ok
    exact ⟨set, active, fun isFull => (full isFull).goes running .leaving nofun⟩
  | leaving =>
    obtain rfl := Option.some.inj ok
    exact ⟨set, active, fun isFull => (full isFull).returns_idle running rfl⟩

theorem attended_step (pos : 0 < threshold) {t : LockedRun} {act : Act}
    (inv : Attended threshold s) (left : s.leftToHolder act = true) (ok : step s act = some t) :
    Attended threshold t := by
  cases act with
  | insert call sortKey columns txId =>
    simp only [step] at ok
    split at ok
    · cases ok
    · next absent =>
      split at ok
      · cases ok
      · obtain rfl := Option.some.inj ok
        refine ⟨inv.set, inv.active, fun isFull => ?_⟩
        obtain ⟨k, there, found, attends⟩ := inv.full isFull
        refine ⟨k, there, ?_, attends⟩
        rw [goes, OrdMap.get?_insert, if_neg fun same => ?_, found]
        rw [same, absent] at found
        cases found
  | next call unique =>
    obtain ⟨phase, running, advanced⟩ := Option.bind_eq_some_iff.mp ok
    exact attended_advance pos inv left running advanced

def BelowWhenIdle (threshold : Nat) (s : LockedRun) : Prop :=
  s.calls.entries = [] → s.set.active.sizeBytes < threshold

theorem Attended.belowWhenIdle (inv : Attended threshold s) : BelowWhenIdle threshold s := by
  intro idle
  by_contra reached
  have isFull : s.set.active.isFull = true := decide_eq_true (by rw [inv.active]; omega)
  obtain ⟨call, phase, found, -⟩ := inv.full isFull
  have member := (OrdMap.mem_entries_iff _ _ _).mpr found
  rw [idle] at member
  cases member

/-- When full tables are left only to such holders. -/
theorem no_full_table_stays_active {threshold : Nat} (pos : 0 < threshold) (acts : List Act)
    (left : Run.EveryStep step (fun s act => s.leftToHolder act = true) (init threshold) acts) :
    Run.EveryState step (BelowWhenIdle threshold) (init threshold) acts := by
  refine Run.EveryState.imp ?_ fun s inv => Attended.belowWhenIdle inv
  exact Run.everyState_of_everyStep (fun s act t inv left ok => attended_step pos inv left ok) acts _
    (attended_init pos) left

theorem second_call_leaves_table :
    let acts : List Act := [.insert 0 ⟨[]⟩ [] 0, .next 0 true, .insert 1 ⟨[]⟩ [] 0, .next 1 true,
      .next 0 true, .next 1 true, .next 0 true, .next 1 true] ++ List.replicate 8 (.next 0 true)
    Run.EveryStep step (fun s act => s.leftToHolder act = true) (init 64) acts ∧
      Run.EveryState step (BelowWhenIdle 64) (init 64) acts := by
  intro acts
  have left : Run.EveryStep step (fun s act => s.leftToHolder act = true) (init 64) acts := by
    decide +kernel
  exact ⟨left, no_full_table_stays_active (by decide) acts left⟩

theorem full_table_left_behind :
    (Run.exec step (init 64) ([.insert 0 ⟨[]⟩ [] 0] ++ List.replicate 9 (.next 0 true) ++
        [.insert 1 ⟨[]⟩ [] 0] ++ List.replicate 3 (.next 1 true) ++
        List.replicate 2 (.next 0 true))).map
      (fun s => (s.calls.entries.length, s.set.active.sizeBytes)) = some (0, 64) := by
  decide +kernel

end LockedRun
end WowDb.Storage
