import WowDb.Lib.Bytes
import WowDb.Lib.F64
import WowDb.Query.Select

/-!
# Statistics of JSON columns

The analyzer of `storage-node/src/columnar/flat_json.rs`.
-/
namespace WowDb.Storage
open WowDb.Lib List
open WowDb.Query (Value)

inductive InferredType where
  | int64 | float64 | bool | string | null
  deriving DecidableEq

namespace InferredType

def fromValue {ν : Type} (isInteger : ν → Bool) : Value ν → InferredType
  | .null => null
  | .bool _ => bool
  | .number n => if isInteger n then int64 else float64
  | .string _ => string
  | .json _ => string

def coerce : InferredType → InferredType → InferredType
  | null, x => x
  | x, null => x
  | int64, int64 => int64
  | float64, float64 => float64
  | int64, float64 | float64, int64 => float64
  | bool, bool => bool
  | _, _ => string

/-! `coerce` is the join of a semilattice whose least element is `null`. -/

theorem coerce_comm (a b : InferredType) : coerce a b = coerce b a := by
  cases a <;> cases b <;> rfl

variable (a b c : InferredType)

theorem coerce_assoc : coerce (coerce a b) c = coerce a (coerce b c) := by
  cases a <;> cases b <;> cases c <;> rfl

theorem coerce_right_comm : coerce (coerce a b) c = coerce (coerce a c) b := by
  rw [coerce_assoc, coerce_comm b c, ← coerce_assoc]

theorem coerce_eq_null (a b : InferredType) : coerce a b = null ↔ a = null ∧ b = null := by
  cases a <;> cases b <;> decide

theorem fromValue_eq_null {ν : Type} (isInteger : ν → Bool) (v : Value ν) :
    fromValue isInteger v = null ↔ v = .null := by
  cases v with
  | number n => cases integer : isInteger n <;> simp [fromValue, integer]
  | _ => simp [fromValue]

end InferredType

/-- What `serde_json` makes of a row. -/
inductive Document (ν : Type) where
  | object (fields : OrdMap String (Value ν))
  | other

def Document.asObject {ν : Type} : Document ν → Option (OrdMap String (Value ν))
  | object fields => some fields
  | other => none

structure FlatJsonAnalyzer where
  keyStats : OrdMap String (Nat × InferredType)
  totalRows : Nat
  threshold : F64

namespace FlatJsonAnalyzer

def new (threshold : F64) : FlatJsonAnalyzer := ⟨.empty, 0, threshold⟩

section Rows

variable {ν : Type} (isInteger : ν → Bool) (parse : Bytes → Option (Document ν))

def observe (v : Value ν) (entry : Nat × InferredType) : Nat × InferredType :=
  (entry.1 + 1, .coerce entry.2 (.fromValue isInteger v))

def addRow (a : FlatJsonAnalyzer) (jsonBytes : Bytes) : FlatJsonAnalyzer :=
  let counted := { a with totalRows := a.totalRows + 1 }
  match parse jsonBytes with
  | none => counted
  | some value =>
    match value.asObject with
    | none => counted
    | some obj =>
      { counted with
        keyStats := obj.entries.foldl
          (fun stats field => stats.upsert field.1 (0, .null) (observe isInteger field.2)) a.keyStats }

def addRows (a : FlatJsonAnalyzer) (rows : List Bytes) : FlatJsonAnalyzer :=
  rows.foldl (addRow isInteger parse) a

def fields (row : Bytes) : List (String × Value ν) :=
  (((parse row).bind Document.asObject).map OrdMap.entries).getD []

variable (a : FlatJsonAnalyzer)

theorem addRow_eq (row : Bytes) : a.addRow isInteger parse row =
      ⟨(fields parse row).foldl
          (fun stats field => stats.upsert field.1 (0, .null) (observe isInteger field.2)) a.keyStats,
        a.totalRows + 1, a.threshold⟩ := by
  unfold addRow fields
  cases parse row with
  | none => rfl
  | some value => cases value <;> rfl

theorem addRows_eq (rows : List Bytes) : a.addRows isInteger parse rows =
      ⟨(rows.flatMap (fields parse)).foldl
          (fun stats field => stats.upsert field.1 (0, .null) (observe isInteger field.2)) a.keyStats,
        a.totalRows + rows.length, a.threshold⟩ := by
  induction rows generalizing a with
  | nil => rfl
  | cons row rest ih =>
    have later := ih (a.addRow isInteger parse row)
    unfold addRows at later ⊢
    rw [foldl_cons, later, addRow_eq, flatMap_cons, foldl_append, length_cons,
      Nat.add_right_comm, Nat.add_assoc]

theorem get?_addRows (rows : List Bytes) (key : String) :
    (a.addRows isInteger parse rows).keyStats.get? key =
      ((rows.flatMap (fields parse)).filter (·.1 = key)).foldl
        (fun entry field => some (observe isInteger field.2 (entry.getD (0, .null))))
        (a.keyStats.get? key) := by
  rw [addRows_eq]
  exact OrdMap.get?_foldl_upsert Prod.fst (fun _ => (0, .null)) (fun field => observe isInteger field.2)
    _ _ key

theorem observe_right_comm (v w : Value ν) (entry : Nat × InferredType) :
    observe isInteger w (observe isInteger v entry) =
      observe isInteger v (observe isInteger w entry) := by
  simp only [observe, InferredType.coerce_right_comm entry.2]

theorem addRows_perm {rows other : List Bytes} (same : rows.Perm other) :
    a.addRows isInteger parse rows = a.addRows isInteger parse other := by
  have stats := OrdMap.foldl_upsert_perm Prod.fst (0, .null)
    (fun (v w : String × Value ν) entry => observe_right_comm isInteger v.2 w.2 entry)
    (same.flatMap_right (fields parse)) a.keyStats
  rw [addRows_eq, addRows_eq, stats, same.length_eq]

theorem foldl_observe_null (found : List (String × Value ν)) (entry : Option (Nat × InferredType))
    (count : Nat)
    (last : found.foldl (fun entry field => some (observe isInteger field.2 (entry.getD (0, .null))))
      entry = some (count, .null)) :
    (entry.getD (0, .null)).2 = .null ∧ ∀ field ∈ found, field.2 = .null := by
  induction found generalizing entry with
  | nil => simp_all
  | cons field rest ih =>
    have ⟨now, later⟩ := ih _ last
    have both := (InferredType.coerce_eq_null _ _).1 now
    refine ⟨both.1, ?_⟩
    rw [forall_mem_cons]
    exact ⟨(InferredType.fromValue_eq_null isInteger _).1 both.2, later⟩

inductive Call where
  | addRow (jsonBytes : Bytes)
  | addRows (rows : List Bytes)

def Call.rows : Call → List Bytes
  | addRow jsonBytes => [jsonBytes]
  | addRows rows => rows

def perform (a : FlatJsonAnalyzer) : Call → FlatJsonAnalyzer
  | .addRow jsonBytes => a.addRow isInteger parse jsonBytes
  | .addRows rows => a.addRows isInteger parse rows

def run (a : FlatJsonAnalyzer) (calls : List Call) : FlatJsonAnalyzer :=
  calls.foldl (perform isInteger parse) a

theorem run_eq_addRows (calls : List Call) :
    run isInteger parse a calls = a.addRows isInteger parse (calls.flatMap Call.rows) := by
  induction calls generalizing a with
  | nil => rfl
  | cons call rest ih =>
    rw [run, foldl_cons, flatMap_cons, addRows, foldl_append]
    cases call <;> exact ih _

/-- The same rows leave the same statistics. -/
theorem run_order_independent (threshold : F64) (calls other : List Call)
    (same : (calls.flatMap Call.rows).Perm (other.flatMap Call.rows)) :
    run isInteger parse (new threshold) calls = run isInteger parse (new threshold) other ∧
    ∀ key count, (run isInteger parse (new threshold) calls).keyStats.get? key = some (count, .null) →
      ∀ row ∈ calls.flatMap Call.rows, ∀ v, (key, v) ∈ fields parse row → v = .null := by
  rw [run_eq_addRows, run_eq_addRows]
  refine ⟨addRows_perm isInteger parse _ same, ?_⟩
  intro key count held row here v field
  rw [get?_addRows] at held
  have all := (foldl_observe_null isInteger _ _ _ held).2
  apply all (key, v)
  rw [mem_filter]
  exact ⟨mem_flatMap.2 ⟨row, here, field⟩, decide_eq_true rfl⟩

end Rows

def sampleParse (row : Bytes) : Option (Document Int) :=
  if row = [0] then some (.object (.ofList [("a", .null)]))
  else if row = [1] then some (.object (.ofList [("a", .number 1)]))
  else none

theorem run_order_independent_sample :
    run (fun _ => true) sampleParse (new (.ofNat 1)) [.addRow [0], .addRow [1]] =
      run (fun _ => true) sampleParse (new (.ofNat 1)) [.addRows [[1], [0]]] :=
  (run_order_independent (fun _ => true) sampleParse (.ofNat 1) [.addRow [0], .addRow [1]]
    [.addRows [[1], [0]]] (.swap _ _ _)).1

end FlatJsonAnalyzer
end WowDb.Storage
