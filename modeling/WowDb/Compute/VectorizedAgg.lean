import WowDb.Compute.HashJoin
import WowDb.Lib.KeyedSummary

/-!
# Aggregation by group over batches

`compute-node/src/executor/vectorized_agg.rs`.
-/
namespace WowDb.Compute
open WowDb.Lib

inductive AggOp where
  | sum
  | count
  | min
  | max
  | countDistinct
  deriving DecidableEq

structure AggSpec where
  colIdx : Nat
  op : AggOp

structure GroupState where
  sum : Int64 := 0
  count : UInt64 := 0
  min : Option Int64 := none
  max : Option Int64 := none
  deriving DecidableEq

namespace GroupState

variable (s : GroupState)

def update : Option Int64 → GroupState
  | some v =>
    { sum := s.sum + v
      count := s.count + 1
      min := some (leastWith s.min v)
      max := some (greatestWith s.max v) }
  | none => s

def merge (s other : GroupState) : GroupState where
  sum := s.sum + other.sum
  count := s.count + other.count
  min := match other.min with
    | some o => some (leastWith s.min o)
    | none => s.min
  max := match other.max with
    | some o => some (greatestWith s.max o)
    | none => s.max

def result : AggOp → Int64
  | .sum => s.sum
  | .count | .countDistinct => s.count.toInt64
  | .min => s.min.getD 0
  | .max => s.max.getD 0

def single : Option Int64 → GroupState := update {}

theorem merge_eq (s other : GroupState) : s.merge other =
      { sum := s.sum + other.sum
        count := s.count + other.count
        min := s.min.merge Min.min other.min
        max := s.max.merge Max.max other.max } := by
  obtain ⟨sum, count, least, greatest⟩ := s
  obtain ⟨sum', count', least', greatest'⟩ := other
  cases least <;> cases greatest <;> cases least' <;> cases greatest' <;> rfl

theorem update_eq_merge (v : Option Int64) : s.update v = s.merge (single v) := by
  cases v with
  | none => simp [merge_eq, single, update]
  | some v => simp [merge, single, update, leastWith, greatestWith]

theorem merge_comm (s t : GroupState) : s.merge t = t.merge s := by
  simp only [merge_eq, mk.injEq]
  exact ⟨Int64.add_comm _ _, UInt64.add_comm _ _, Std.Commutative.comm _ _,
    Std.Commutative.comm _ _⟩

theorem merge_assoc (s t u : GroupState) : (s.merge t).merge u = s.merge (t.merge u) := by
  simp only [merge_eq, mk.injEq]
  exact ⟨Int64.add_assoc _ _ _, UInt64.add_assoc _ _ _, Std.Associative.assoc _ _ _,
    Std.Associative.assoc _ _ _⟩

@[simp] theorem merge_default : s.merge {} = s := by
  simp [merge_eq]

end GroupState

variable {ν : Type}

def extractI64Value (batch : Chunk ν) (colIdx row : Nat) : Option Int64 :=
  match batch.arrays[colIdx]? with
  | some (.int64 values) => values[row]?.join
  | _ => none

def Chunk.ofEntries {ε : Type} (entries : List ε) (columns : List (ε → Option Int64)) : Chunk ν where
  arrays := columns.map fun column => .int64 (entries.map column)
  sameLength := by
    intro a inA b inB
    obtain ⟨_, _, rfl⟩ := List.mem_map.mp inA
    obtain ⟨_, _, rfl⟩ := List.mem_map.mp inB
    simp [Column.length]

structure VectorizedGroupByAgg (groupKeyCols : List Nat) (aggSpecs : List AggSpec) where
  state : OrdMap Bytes (Fin aggSpecs.length → GroupState)

namespace VectorizedGroupByAgg

variable {groupKeyCols : List Nat} {aggSpecs : List AggSpec}

def new : VectorizedGroupByAgg groupKeyCols aggSpecs := ⟨.empty⟩

def keyBytes (groupKeyCols : List Nat) (batch : Chunk ν) (row : Nat) : Bytes :=
  groupKeyCols.flatMap fun colIdx =>
    int64Bytes ((extractI64Value batch colIdx row).getD Int64.minValue)

def updateStates (batch : Chunk ν) (row : Nat) (states : Fin aggSpecs.length → GroupState) :
    Fin aggSpecs.length → GroupState :=
  fun i => (states i).update (extractI64Value batch aggSpecs[i].colIdx row)

def accumulateRow (groupKeyCols : List Nat) (batch : Chunk ν)
    (state : OrdMap Bytes (Fin aggSpecs.length → GroupState)) (row : Nat) :
    OrdMap Bytes (Fin aggSpecs.length → GroupState) :=
  state.upsert (keyBytes groupKeyCols batch row) (fun _ => {}) (updateStates batch row)

variable (agg : VectorizedGroupByAgg groupKeyCols aggSpecs)

def accumulate (batch : Chunk ν) : VectorizedGroupByAgg groupKeyCols aggSpecs :=
  ⟨(List.range batch.len).foldl (accumulateRow groupKeyCols batch) agg.state⟩

def mergeStates {n m : Nat} (others : Fin m → GroupState) (states : Fin n → GroupState) :
    Fin n → GroupState :=
  fun i => if h : i < m then (states i).merge (others ⟨i, h⟩) else states i

def merge {otherKeyCols : List Nat} {otherSpecs : List AggSpec}
    (order : HashIteration Bytes (Fin otherSpecs.length → GroupState))
    (agg : VectorizedGroupByAgg groupKeyCols aggSpecs)
    (other : VectorizedGroupByAgg otherKeyCols otherSpecs) :
    VectorizedGroupByAgg groupKeyCols aggSpecs :=
  ⟨(order.iterate other.state).foldl
    (fun state e => state.upsert e.1 (fun _ => {}) (mergeStates e.2)) agg.state⟩

def keyValue (keyBytes : Bytes) (k : Nat) : Int64 :=
  let offset := k * 8
  if offset + 8 ≤ keyBytes.length then int64OfBytes ((keyBytes.drop offset).take 8) else 0

def finish (order : HashIteration Bytes (Fin aggSpecs.length → GroupState))
    (agg : VectorizedGroupByAgg groupKeyCols aggSpecs) : Chunk ν :=
  let keyCols := (List.range groupKeyCols.length).map fun k =>
    fun e : Bytes × (Fin aggSpecs.length → GroupState) => some (keyValue e.1 k)
  let aggCols := (List.finRange aggSpecs.length).map fun i =>
    fun e : Bytes × (Fin aggSpecs.length → GroupState) => some ((e.2 i).result aggSpecs[i].op)
  .ofEntries (order.iterate agg.state) (keyCols ++ aggCols)

def groupSummary (n : Nat) : Summary (Fin n → Option Int64) (Fin n → GroupState) where
  init _ := {}
  update values states i := (states i).update (values i)
  merge := mergeStates
  update_comm x y states := by
    funext i
    simp only [GroupState.update_eq_merge, GroupState.merge_assoc]
    rw [GroupState.merge_comm (.single (x i))]
  merge_init states := by
    funext i
    simp [mergeStates]
  merge_update values theirs ours := by
    funext i
    simp only [mergeStates, i.isLt, dite_true, GroupState.update_eq_merge, GroupState.merge_assoc]

def items (groupKeyCols : List Nat) (aggSpecs : List AggSpec) (batch : Chunk ν) :
    List (Bytes × (Fin aggSpecs.length → Option Int64)) :=
  (List.range batch.len).map fun row =>
    (keyBytes groupKeyCols batch row, fun i => extractI64Value batch aggSpecs[i].colIdx row)

theorem accumulate_state (batch : Chunk ν) :
    (agg.accumulate batch).state =
      (items groupKeyCols aggSpecs batch).foldl (groupSummary aggSpecs.length).add agg.state := by
  rw [items, List.foldl_map]
  rfl

theorem foldl_accumulate_state (batches : List (Chunk ν))
    (agg : VectorizedGroupByAgg groupKeyCols aggSpecs) :
    (batches.foldl accumulate agg).state = (batches.flatMap (items groupKeyCols aggSpecs)).foldl
        (groupSummary aggSpecs.length).add agg.state := by
  induction batches generalizing agg with
  | nil => rfl
  | cons batch rest ih =>
    rw [List.foldl_cons, ih, accumulate_state, List.flatMap_cons, List.foldl_append]

inductive MergePlan (ν : Type) (aggSpecs : List AggSpec) where
  | new
  | accumulate (plan : MergePlan ν aggSpecs) (batch : Chunk ν)
  | merge (order : HashIteration Bytes (Fin aggSpecs.length → GroupState))
      (plan other : MergePlan ν aggSpecs)

namespace MergePlan

def run (groupKeyCols : List Nat) :
    MergePlan ν aggSpecs → VectorizedGroupByAgg groupKeyCols aggSpecs
  | new => .new
  | accumulate plan batch => (plan.run groupKeyCols).accumulate batch
  | merge order plan other => (plan.run groupKeyCols).merge order (other.run groupKeyCols)

def batches : MergePlan ν aggSpecs → List (Chunk ν)
  | new => []
  | accumulate plan batch => plan.batches ++ [batch]
  | merge _ plan other => plan.batches ++ other.batches

theorem state_run (plan : MergePlan ν aggSpecs) : (plan.run groupKeyCols).state =
      (groupSummary aggSpecs.length).summarize
        (plan.batches.flatMap (items groupKeyCols aggSpecs)) := by
  induction plan with
  | new => rfl
  | accumulate plan batch ih =>
    rw [run, accumulate_state, ih, batches, List.flatMap_append, List.flatMap_singleton,
      Summary.summarize_append]
  | merge order plan other ihPlan ihOther =>
    rw [batches, List.flatMap_append, ← Summary.absorb_summarize _ order, ← ihPlan, ← ihOther]
    rfl

end MergePlan

/-- Merging in any order gives the states of one instance. -/
theorem merged_eq_accumulated (plan : MergePlan ν aggSpecs) (batches : List (Chunk ν))
    (divided : plan.batches.Perm batches) :
    (plan.run groupKeyCols).state =
      (batches.foldl accumulate (new : VectorizedGroupByAgg groupKeyCols aggSpecs)).state := by
  rw [MergePlan.state_run, foldl_accumulate_state]
  exact Summary.summarize_perm _ (divided.flatMap_right _)

def pairBatch (pairs : List (Int64 × Option Int64)) : Chunk Empty :=
  .ofEntries pairs [fun p => some p.1, Prod.snd]

theorem two_nodes_merged :
    ((MergePlan.merge .ascending (.accumulate .new (pairBatch [(1, some 10), (2, none)]))
        (.accumulate .new (pairBatch [(1, some 5)])) :
        MergePlan Empty [⟨1, .sum⟩, ⟨1, .min⟩]).run [0]).state =
      ([pairBatch [(1, some 5)], pairBatch [(1, some 10), (2, none)]].foldl accumulate
        (new : VectorizedGroupByAgg [0] [⟨1, .sum⟩, ⟨1, .min⟩])).state :=
  merged_eq_accumulated _ _ (List.Perm.swap _ _ _)

end VectorizedGroupByAgg

open List

variable {ν : Type}

def sqlValue (batch : Chunk ν) (row col : Nat) : Option Int64 := intAt (batch.row row) col

theorem extractI64Value_eq (batch : Chunk ν) (col row : Nat) :
    extractI64Value batch col row = sqlValue batch row col :=
  (intAt_row batch row col).symm

variable (op : AggOp)

def AggOp.sql (values : List Int64) : Option Int :=
  match op with
  | .sum => if values = [] then none else some (values.map Int64.toInt).sum
  | .count => some values.length
  | .min => values.min?.map Int64.toInt
  | .max => values.max?.map Int64.toInt
  | .countDistinct => some values.dedup.length

section Group

variable (groupKeyCols : List Nat) (batch : Chunk ν)

def sqlKey (row : Nat) : List (Option Int64) := groupKeyCols.map (sqlValue batch row)

def groupRows (key : List (Option Int64)) : List Nat :=
  (range batch.len).filter fun row => sqlKey groupKeyCols batch row = key

def groupValues (key : List (Option Int64)) (col : Nat) : List Int64 :=
  (groupRows groupKeyCols batch key).filterMap (sqlValue batch · col)

def sqlGroups : List (List (Option Int64)) :=
  ((range batch.len).map (sqlKey groupKeyCols batch)).dedup

def sqlRow (aggSpecs : List AggSpec) (key : List (Option Int64)) : List (Option Int) :=
  key.map (·.map Int64.toInt) ++
    aggSpecs.map fun spec => spec.op.sql (groupValues groupKeyCols batch key spec.colIdx)

theorem mem_sqlGroups (key : List (Option Int64)) : key ∈ sqlGroups groupKeyCols batch ↔
      ∃ row < batch.len, sqlKey groupKeyCols batch row = key := by
  simp [sqlGroups]

end Group

def intCells (row : List (Option (Cell ν))) : List (Option Int) :=
  row.map fun
    | some (.int64 v) => v.map Int64.toInt
    | _ => none

namespace GroupState

theorem foldl_update (values : List (Option Int64)) : values.foldl update {} =
      { sum := Int64.ofInt ((values.filterMap id).map Int64.toInt).sum
        count := UInt64.ofNat (values.filterMap id).length
        min := (values.filterMap id).min?
        max := (values.filterMap id).max? } := by
  induction values using reverseRecOn with
  | nil => rfl
  | append_singleton rest v ih =>
    rw [foldl_append, foldl_cons, foldl_nil, ih, filterMap_append]
    cases v with
    | none => simp [update]
    | some v =>
      simp only [update, filterMap_cons, id, filterMap_nil, min?_append_singleton,
        max?_append_singleton, map_append, sum_append, length_append]
      simp [Int64.ofInt_add, UInt64.ofNat_add]

end GroupState

/-- The state has a value where needed, in range, and none twice. -/
def AggOp.Exact (values : List Int64) : Prop :=
  match op with
  | .sum => values ≠ [] ∧ -2 ^ 63 ≤ (values.map Int64.toInt).sum ∧
      (values.map Int64.toInt).sum < 2 ^ 63
  | .count => values.length < 2 ^ 63
  | .min | .max => values ≠ []
  | .countDistinct =>
    values.dedup.length < 2 ^ 63 ∧ 2 ^ 64 ∣ values.length - values.dedup.length

theorem bmod_eq_self_iff (z : Int) : z.bmod (2 ^ 64) = z ↔ -2 ^ 63 ≤ z ∧ z < 2 ^ 63 := by
  rw [Int.bmod_eq_iff (by decide)]
  omega

theorem bmod_eq_natCast_iff {n d : Nat} (le : d ≤ n) :
    (n : Int).bmod (2 ^ 64) = d ↔ d < 2 ^ 63 ∧ 2 ^ 64 ∣ n - d := by
  rw [Int.bmod_eq_iff (by decide)]
  omega

theorem result_eq_sql_iff (values : List (Option Int64)) :
    some (((values.foldl GroupState.update {}).result op).toInt) = op.sql (values.filterMap id) ↔
      op.Exact (values.filterMap id) := by
  rw [GroupState.foldl_update]
  generalize values.filterMap id = present
  cases op with
  | sum =>
    by_cases empty : present = []
    · simp [AggOp.sql, AggOp.Exact, empty]
    · simp only [GroupState.result, AggOp.sql, if_neg empty, AggOp.Exact, Int64.toInt_ofInt,
        Option.some_inj]
      rw [show Int64.size = 2 ^ 64 from rfl, bmod_eq_self_iff]
      simp [empty]
  | count =>
    simp only [GroupState.result, AggOp.sql, AggOp.Exact, Option.some_inj]
    rw [show (UInt64.ofNat present.length).toInt64.toInt =
      (present.length : Int).bmod (2 ^ 64) by simp, bmod_eq_self_iff]
    omega
  | min => cases present <;> simp [GroupState.result, AggOp.sql, AggOp.Exact, min?]
  | max => cases present <;> simp [GroupState.result, AggOp.sql, AggOp.Exact, max?]
  | countDistinct =>
    simp only [GroupState.result, AggOp.sql, AggOp.Exact, Option.some_inj]
    rw [show (UInt64.ofNat present.length).toInt64.toInt =
      (present.length : Int).bmod (2 ^ 64) by simp]
    exact bmod_eq_natCast_iff (dedup_sublist present).length_le

namespace VectorizedGroupByAgg

variable {groupKeyCols : List Nat} {aggSpecs : List AggSpec}

def encodeKey (key : List (Option Int64)) : Bytes :=
  key.flatMap fun v => int64Bytes (v.getD Int64.minValue)

theorem keyBytes_eq (batch : Chunk ν) (row : Nat) :
    keyBytes groupKeyCols batch row = encodeKey (sqlKey groupKeyCols batch row) := by
  simp only [keyBytes, encodeKey, sqlKey, flatMap_map, extractI64Value_eq]

theorem length_encodeKey (key : List (Option Int64)) : (encodeKey key).length = key.length * 8 := by
  induction key with
  | nil => rfl
  | cons v rest ih =>
    rw [encodeKey, flatMap_cons, length_append, length_int64Bytes, ← encodeKey, ih,
      length_cons]
    omega

theorem keyValue_encodeKey_cons (v : Option Int64) (rest : List (Option Int64)) (k : Nat) :
    keyValue (encodeKey (v :: rest)) (k + 1) = keyValue (encodeKey rest) k := by
  have parts : encodeKey (v :: rest) = int64Bytes (v.getD Int64.minValue) ++ encodeKey rest := rfl
  have drops : (encodeKey (v :: rest)).drop ((k + 1) * 8) = (encodeKey rest).drop (k * 8) := by
    rw [parts, drop_append, length_int64Bytes]
    simp [show (k + 1) * 8 - 8 = k * 8 by omega, length_int64Bytes]
  simp only [keyValue, drops, length_encodeKey, length_cons]
  congr 1
  exact propext (by omega)

theorem keyValues_encodeKey (key : List (Option Int64)) :
    (range key.length).map (keyValue (encodeKey key)) = key.map (·.getD Int64.minValue) := by
  induction key with
  | nil => rfl
  | cons v rest ih =>
    have first : keyValue (encodeKey (v :: rest)) 0 = v.getD Int64.minValue := by
      have parts : encodeKey (v :: rest) =
        int64Bytes (v.getD Int64.minValue) ++ encodeKey rest := rfl
      rw [keyValue, if_pos (by rw [length_encodeKey, length_cons]; omega), Nat.zero_mul,
        drop_zero, parts, take_append_of_le_length (by simp),
        take_of_length_le (by simp), int64OfBytes_int64Bytes]
    rw [length_cons, range_succ_eq_map, map_cons, map_map, first,
      map_cons, ← ih]
    congr 1
    exact map_congr_left fun k _ => keyValue_encodeKey_cons v rest k

variable {key : List (Option Int64)}

theorem map_getD_of_full (full : none ∉ key) :
    key.map (fun v => some (v.getD Int64.minValue)) = key := by
  refine (map_congr_left fun v member => ?_).trans (map_id key)
  cases v with
  | none => exact absurd member full
  | some v => rfl

theorem encodeKey_injective {first second : List (Option Int64)} (full : none ∉ first)
    (full' : none ∉ second) (same : encodeKey first = encodeKey second) : first = second := by
  have lengths : first.length = second.length := by
    have octets := congrArg length same
    rw [length_encodeKey, length_encodeKey] at octets
    omega
  have values : first.map (·.getD Int64.minValue) = second.map (·.getD Int64.minValue) := by
    rw [← keyValues_encodeKey, ← keyValues_encodeKey, same, lengths]
  have restored := congrArg (map some) values
  rw [map_map, map_map] at restored
  exact (map_getD_of_full full).symm.trans (restored.trans (map_getD_of_full full'))

theorem rows_ofEntries {ε : Type} (entries : List ε) {columns : List (ε → Option Int64)}
    (nonempty : columns ≠ []) :
    (Chunk.ofEntries entries columns : Chunk ν).rows =
      entries.map fun e => columns.map fun column => some (.int64 (column e)) := by
  have len : (Chunk.ofEntries entries columns : Chunk ν).len = entries.length := by
    obtain ⟨column, rest, rfl⟩ := exists_cons_of_ne_nil nonempty
    simp [Chunk.len, Chunk.ofEntries, Column.length]
  apply ext_getElem
  · simp [Chunk.rows, len]
  · intro i _ inside
    have inEntries : i < entries.length := by simpa using inside
    simp [Chunk.rows, Chunk.row, Chunk.ofEntries, Column.cell?, inEntries]

def entryRow (groupKeyCols : List Nat) (aggSpecs : List AggSpec)
    (e : Bytes × (Fin aggSpecs.length → GroupState)) : List (Option Int) :=
  (range groupKeyCols.length).map (fun k => some (keyValue e.1 k).toInt) ++
    (finRange aggSpecs.length).map fun i => some ((e.2 i).result aggSpecs[i].op).toInt

theorem cells_finish (order : HashIteration Bytes (Fin aggSpecs.length → GroupState))
    (agg : VectorizedGroupByAgg groupKeyCols aggSpecs) (shown : groupKeyCols ≠ [] ∨ aggSpecs ≠ []) :
    (agg.finish order : Chunk ν).rows.map intCells =
      (order.iterate agg.state).map (entryRow groupKeyCols aggSpecs) := by
  have columns : (range groupKeyCols.length).map (fun k =>
        fun e : Bytes × (Fin aggSpecs.length → GroupState) => some (keyValue e.1 k)) ++
      (finRange aggSpecs.length).map (fun i =>
        fun e : Bytes × (Fin aggSpecs.length → GroupState) =>
          some ((e.2 i).result aggSpecs[i].op)) ≠ [] := by
    simpa [imp_iff_not_or] using shown
  rw [finish, rows_ofEntries _ columns, map_map]
  refine map_congr_left fun e _ => ?_
  simp only [Function.comp_apply, intCells, entryRow, map_append, map_map]
  rfl

theorem total_groupSummary {n : Nat} (rows : List (Bytes × (Fin n → Option Int64))) (i : Fin n) :
    (groupSummary n).total rows i = (rows.map (·.2 i)).foldl GroupState.update {} := by
  rw [Summary.total, foldl_map]
  refine (foldl_hom (fun states : Fin n → GroupState => states i) ?_).symm
  exact fun _ _ => rfl

section Batch

variable (groupKeyCols aggSpecs) (batch : Chunk ν)

def codeRow (key : List (Option Int64)) : List (Option Int) :=
  key.map (fun v => some (v.getD Int64.minValue).toInt) ++ aggSpecs.map fun spec =>
      some ((((groupRows groupKeyCols batch key).map (sqlValue batch · spec.colIdx)).foldl
        GroupState.update {}).result spec.op).toInt

def FullKeys : Prop := ∀ row < batch.len, none ∉ sqlKey groupKeyCols batch row

variable {groupKeyCols batch}

theorem items_of_key (full : FullKeys groupKeyCols batch)
    (group : key ∈ sqlGroups groupKeyCols batch) :
    (items groupKeyCols aggSpecs batch).filter (·.1 = encodeKey key) =
      (groupRows groupKeyCols batch key).map fun row =>
        (keyBytes groupKeyCols batch row, fun i => extractI64Value batch aggSpecs[i].colIdx row) := by
  rw [items, filter_map, groupRows]
  congr 1
  refine filter_congr fun row member => ?_
  obtain ⟨first, inside, rfl⟩ := (mem_sqlGroups _ _ _).mp group
  have here := full row (mem_range.mp member)
  simp only [Function.comp_apply, keyBytes_eq, decide_eq_decide]
  exact ⟨encodeKey_injective here (full first inside), congrArg encodeKey⟩

theorem entryRow_group (full : FullKeys groupKeyCols batch)
    (group : key ∈ sqlGroups groupKeyCols batch) :
    entryRow groupKeyCols aggSpecs (encodeKey key, (groupSummary aggSpecs.length).total
        ((items groupKeyCols aggSpecs batch).filter (·.1 = encodeKey key))) =
      codeRow groupKeyCols aggSpecs batch key := by
  have length : groupKeyCols.length = key.length := by
    obtain ⟨row, -, rfl⟩ := (mem_sqlGroups _ _ _).mp group
    simp [sqlKey]
  have keys := congrArg (map fun v : Int64 => some v.toInt) (keyValues_encodeKey key)
  rw [map_map, map_map] at keys
  rw [entryRow, codeRow, length]
  congr 1
  rw [items_of_key aggSpecs full group]
  simp only [total_groupSummary, map_map, Function.comp_def, extractI64Value_eq]
  conv_rhs => rw [← map_get_finRange aggSpecs]
  rw [map_map]
  rfl

theorem keys_perm (full : FullKeys groupKeyCols batch) :
    ((items groupKeyCols aggSpecs batch).map Prod.fst).dedup.Perm
      ((sqlGroups groupKeyCols batch).map encodeKey) := by
  have distinct : ((sqlGroups groupKeyCols batch).map encodeKey).Nodup := by
    refine List.Nodup.map_on (fun first inFirst second inSecond same => ?_) (nodup_dedup _)
    obtain ⟨row, inside, rfl⟩ := (mem_sqlGroups _ _ _).mp inFirst
    obtain ⟨row', inside', rfl⟩ := (mem_sqlGroups _ _ _).mp inSecond
    exact encodeKey_injective (full row inside) (full row' inside') same
  refine (perm_ext_iff_of_nodup (nodup_dedup _) distinct).mpr fun bytes => ?_
  simp [items, sqlGroups, keyBytes_eq]

variable (order : HashIteration Bytes (Fin aggSpecs.length → GroupState))

theorem codeRows_perm
    (full : FullKeys groupKeyCols batch) (shown : groupKeyCols ≠ [] ∨ aggSpecs ≠ []) :
    ((((new : VectorizedGroupByAgg groupKeyCols aggSpecs).accumulate batch).finish order :
        Chunk ν).rows.map intCells).Perm
      ((sqlGroups groupKeyCols batch).map (codeRow groupKeyCols aggSpecs batch)) := by
  have state : ((new : VectorizedGroupByAgg groupKeyCols aggSpecs).accumulate batch).state =
      (groupSummary aggSpecs.length).summarize (items groupKeyCols aggSpecs batch) :=
    accumulate_state _ batch
  have rows := ((order.iterate_perm _).trans (Summary.entries_summarize
    (groupSummary aggSpecs.length) (items groupKeyCols aggSpecs batch))).map
      (entryRow groupKeyCols aggSpecs)
  have groups := (keys_perm aggSpecs full).map fun k => entryRow groupKeyCols aggSpecs
    (k, (groupSummary aggSpecs.length).total
      ((items groupKeyCols aggSpecs batch).filter (·.1 = k)))
  rw [map_map] at rows groups
  rw [cells_finish order _ shown, state]
  refine (rows.trans groups).trans (List.Perm.of_eq ?_)
  exact map_congr_left fun key group => entryRow_group aggSpecs full group

theorem none_notMem_cells (agg : VectorizedGroupByAgg groupKeyCols aggSpecs)
    (shown : groupKeyCols ≠ [] ∨ aggSpecs ≠ []) :
    ∀ cells ∈ (agg.finish order : Chunk ν).rows.map intCells, none ∉ cells := by
  intro cells member
  rw [cells_finish order agg shown] at member
  obtain ⟨e, -, rfl⟩ := mem_map.mp member
  simp [entryRow]

theorem key_cells (full : none ∉ key) :
    key.map (fun v => some (v.getD Int64.minValue).toInt) = key.map (·.map Int64.toInt) := by
  conv_rhs => rw [← map_getD_of_full full]
  rw [map_map]
  rfl

theorem map_toInt_injective : Function.Injective (map (Option.map Int64.toInt)) :=
  map_injective_iff.mpr (Option.map_injective fun _ _ => Int64.toInt_inj.mp)

theorem codeRow_eq_sqlRow_iff (full : none ∉ key) :
    codeRow groupKeyCols aggSpecs batch key = sqlRow groupKeyCols batch aggSpecs key ↔
      ∀ spec ∈ aggSpecs, spec.op.Exact (groupValues groupKeyCols batch key spec.colIdx) := by
  rw [codeRow, sqlRow, key_cells full, append_cancel_left_eq, map_inj_left]
  refine forall₂_congr fun spec _ => ?_
  have exact_iff := result_eq_sql_iff spec.op
    ((groupRows groupKeyCols batch key).map (sqlValue batch · spec.colIdx))
  rwa [filterMap_map] at exact_iff

theorem key_of_codeRow_eq {key' : List (Option Int64)} (full : none ∉ key)
    (lengths : key.length = key'.length)
    (same : codeRow groupKeyCols aggSpecs batch key = sqlRow groupKeyCols batch aggSpecs key') :
    key = key' := by
  rw [codeRow, sqlRow, key_cells full] at same
  exact map_toInt_injective (append_inj_left same (by simpa using lengths))

variable (groupKeyCols batch)

def ComputesSql (order : HashIteration Bytes (Fin aggSpecs.length → GroupState)) : Prop :=
  ((((new : VectorizedGroupByAgg groupKeyCols aggSpecs).accumulate batch).finish order :
      Chunk ν).rows.map intCells).Perm
    ((sqlGroups groupKeyCols batch).map (sqlRow groupKeyCols batch aggSpecs))

variable {groupKeyCols aggSpecs batch}

theorem computesSql_of_full
    (full : FullKeys groupKeyCols batch) (shown : groupKeyCols ≠ [] ∨ aggSpecs ≠ []) :
    ComputesSql groupKeyCols aggSpecs batch order ↔ ∀ row < batch.len, ∀ spec ∈ aggSpecs,
        spec.op.Exact (groupValues groupKeyCols batch (sqlKey groupKeyCols batch row)
          spec.colIdx) := by
  have rows := codeRows_perm aggSpecs order full shown
  have apart : ∀ key ∈ sqlGroups groupKeyCols batch, ∀ key' ∈ sqlGroups groupKeyCols batch,
      codeRow groupKeyCols aggSpecs batch key = sqlRow groupKeyCols batch aggSpecs key' →
        key = key' := by
    intro key group key' group' same
    obtain ⟨row, inside, rfl⟩ := (mem_sqlGroups _ _ _).mp group
    obtain ⟨row', -, rfl⟩ := (mem_sqlGroups _ _ _).mp group'
    exact key_of_codeRow_eq aggSpecs (full row inside) (by simp [sqlKey]) same
  constructor
  · intro computes row inside
    have group := (mem_sqlGroups groupKeyCols batch _).mpr ⟨row, inside, rfl⟩
    have found := (rows.symm.trans computes).subset (mem_map_of_mem group)
    obtain ⟨key, inGroups, same⟩ := mem_map.mp found
    have here := apart _ group key inGroups same.symm
    subst here
    exact (codeRow_eq_sqlRow_iff aggSpecs (full row inside)).mp same.symm
  · intro exact_all
    refine rows.trans (List.Perm.of_eq (map_congr_left fun key group => ?_))
    obtain ⟨row, inside, rfl⟩ := (mem_sqlGroups _ _ _).mp group
    exact (codeRow_eq_sqlRow_iff aggSpecs (full row inside)).mpr (exact_all row inside)

theorem fullKeys_of_computesSql (shown : groupKeyCols ≠ [] ∨ aggSpecs ≠ [])
    (computes : ComputesSql groupKeyCols aggSpecs batch order) : FullKeys groupKeyCols batch := by
  intro row inside null
  have group := (mem_sqlGroups groupKeyCols batch _).mpr ⟨row, inside, rfl⟩
  have found := computes.symm.subset (mem_map_of_mem group)
  refine none_notMem_cells aggSpecs order _ shown _ found ?_
  exact mem_append_left _ (mem_map.mpr ⟨none, null, rfl⟩)

/-- Exactly with a group column, no NULL key and exact aggregates. -/
theorem computesSql_iff (order : HashIteration Bytes (Fin aggSpecs.length → GroupState)) :
    ComputesSql groupKeyCols aggSpecs batch order ↔
      (batch.len = 0 ∨ groupKeyCols ≠ [] ∨ aggSpecs ≠ []) ∧
      ∀ row < batch.len, (∀ col ∈ groupKeyCols, sqlValue batch row col ≠ none) ∧ ∀ spec ∈ aggSpecs,
          spec.op.Exact (groupValues groupKeyCols batch (sqlKey groupKeyCols batch row)
            spec.colIdx) := by
  have full_iff : FullKeys groupKeyCols batch ↔
      ∀ row < batch.len, ∀ col ∈ groupKeyCols, sqlValue batch row col ≠ none := by
    simp [FullKeys, sqlKey]
  by_cases shown : groupKeyCols ≠ [] ∨ aggSpecs ≠ []
  · simp only [shown, or_true, true_and, forall_and]
    rw [← full_iff]
    constructor
    · intro computes
      have full := fullKeys_of_computesSql order shown computes
      exact ⟨full, (computesSql_of_full order full shown).mp computes⟩
    · rintro ⟨full, exact_all⟩
      exact (computesSql_of_full order full shown).mpr exact_all
  · obtain ⟨rfl, rfl⟩ : groupKeyCols = [] ∧ aggSpecs = [] := by simpa using shown
    have nothing : ComputesSql [] [] batch order ↔ batch.len = 0 := by
      have noRows : ((((new : VectorizedGroupByAgg [] []).accumulate batch).finish order :
        Chunk ν).rows.map intCells) = [] := rfl
      rw [ComputesSql, noRows, nil_perm, map_eq_nil_iff, sqlGroups]
      simp
    rw [nothing]
    simp

theorem null_key_merged : ¬ ComputesSql [0] [⟨1, .count⟩]
      (Chunk.ofEntries [none, some Int64.minValue] [id, fun _ => some 1] : Chunk Empty)
      .ascending := by
  intro computes
  exact fullKeys_of_computesSql _ (by decide) computes 0 (by decide) (by decide)

end Batch

end VectorizedGroupByAgg
end WowDb.Compute
