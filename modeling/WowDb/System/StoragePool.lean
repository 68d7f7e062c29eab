import WowDb.Query.Select
import WowDb.Storage.TabletWriter

/-!
# Storage nodes behind the query node

`write_rows` and `scan_tablet` of `storage-node/src/grpc/server.rs`, and the pool of
`query-node/src/storage_client.rs` that calls them.
-/
namespace WowDb.System
open WowDb.Lib WowDb.Storage WowDb.Query

structure Platform (ν : Type) where
  order : HashOrder
  crc : Bytes → UInt32
  hash : String → Nat
  numberText : ν → String
  trip : List (Row ν) → Option (List (Row ν))

abbrev StorageNode := String → TabletWriter.Tablet

structure Endpoint where
  node : StorageNode
  connected : Bool

inductive WriteReply where
  | failed (applied : Bool)
  | ok
  deriving DecidableEq

inductive ScanReply where
  | failed
  | broken
  | ok
  deriving DecidableEq

structure Attempt (ρ : Type) where
  connects : Bool
  reply : ρ

namespace StorageService

variable {ν : Type} (P : Platform ν)

def toBytes (v : Value ν) : Bytes := Text.encode (v.plain P.numberText).toList

def toWriteRows (rows : List (Row ν)) : List WriteRow :=
  rows.mapIdx fun i row => ⟨(Bytes.leBytes 8 i).reverse, row.map (toBytes P), 0⟩

def writeRows (n : StorageNode) (table : String) (rows : List (Row ν)) : Option StorageNode := do
  let received ← P.trip rows
  let tablet ← TabletWriter.step P.order P.crc (n table) (.writeRows (toWriteRows P received))
  some (Function.update n table tablet)

def fromBytes (octets : Bytes) : Value ν :=
  match Text.decode octets with
  | some text => .string (String.ofList text)
  | none => .null

def scanTablet (n : StorageNode) (table : String) : List (Row ν) :=
  (P.trip ((n table).writer.scanMemtableRows.map fun r => r.2.map fromBytes)).getD []

def texts (row : Row ν) : Row ν := row.map fun v => .string (v.plain P.numberText)

def stored (n : StorageNode) (table : String) : List (Row ν) :=
  (n table).written.map fun row => row.columns.map fromBytes

theorem fromBytes_toBytes (v : Value ν) :
    (fromBytes (toBytes P v) : Value ν) = .string (v.plain P.numberText) := by
  simp only [fromBytes, toBytes, Text.decode_encode, String.ofList_toList]

theorem columns_toWriteRows (rows : List (Row ν)) :
    (toWriteRows P rows).map (fun row => row.columns.map fromBytes) = rows.map (texts P) := by
  apply List.ext_getElem
  · simp [toWriteRows]
  · intro i _ _
    simp [toWriteRows, texts, OrdMap.map_map, fromBytes_toBytes]

theorem scanTablet_perm (trip : ∀ rows, P.trip rows = some rows) {n : StorageNode} {table : String}
    (all : TabletWriter.ScansAll (n table)) : (scanTablet P n table).Perm (stored n table) := by
  have shown := List.Perm.map (fun r => (r.2.map fromBytes : Row ν)) all
  rw [List.map_map] at shown
  simp only [scanTablet, trip, Option.getD_some]
  exact shown

theorem writeRows_spec (trip : ∀ rows, P.trip rows = some rows) (n : StorageNode) (table : String)
    (rows : List (Row ν)) :
    ∃ tablet, TabletWriter.step P.order P.crc (n table) (.writeRows (toWriteRows P rows)) =
        some tablet ∧
      writeRows P n table rows = some (Function.update n table tablet) ∧
      stored (Function.update n table tablet) table = stored n table ++ rows.map (texts P) := by
  refine ⟨_, rfl, ?_, ?_⟩
  · simp only [writeRows, trip, bind, Option.bind_some]
    rfl
  · simp only [stored, Function.update_self, List.map_append, columns_toWriteRows]

end StorageService

namespace StoragePool

variable {ν : Type} (P : Platform ν)

def ensureClient {ρ : Type} (e : Endpoint) (a : Attempt ρ) : Bool :=
  e.connected || a.connects

def writeRowsTo (table : String) (rows : List (Row ν)) (a : Attempt WriteReply) (e : Endpoint) :
    Endpoint × Option Nat :=
  if rows.isEmpty then (e, some 0)
  else if !ensureClient e a then (e, none)
  else
    match StorageService.writeRows P e.node table rows, a.reply with
    | some node, .ok => (⟨node, true⟩, some rows.length)
    | some node, .failed true => (⟨node, false⟩, none)
    | _, _ => (⟨e.node, false⟩, none)

def scanOne (table : String) (a : Attempt ScanReply) (e : Endpoint) : Endpoint × List (Row ν) :=
  if !ensureClient e a then (e, [])
  else
    match a.reply with
    | .failed => (⟨e.node, false⟩, [])
    | .broken => (⟨e.node, true⟩, [])
    | .ok => (⟨e.node, true⟩, StorageService.scanTablet P e.node table)

def visit {ρ : Type} (call : Nat → Endpoint → Endpoint × ρ) : Nat → List Endpoint → List (Endpoint × ρ)
  | _, [] => []
  | idx, e :: rest => call idx e :: visit call (idx + 1) rest

def shardIndex (row : Row ν) (distCol : String) (n : Nat) : Nat :=
  P.hash (((row.get? distCol).map (Value.plain P.numberText)).getD "0") % n

def bucket (rows : List (Row ν)) (distCol : String) (n idx : Nat) : List (Row ν) :=
  rows.filter fun row => shardIndex P row distCol n = idx

def writeRows (table : String) (rows : List (Row ν)) (attempts : Nat → Attempt WriteReply) :
    List Endpoint → List Endpoint × Option Nat
  | [] => ([], if rows.isEmpty then some 0 else none)
  | e :: rest =>
    let (e, written) := writeRowsTo P table rows (attempts 0) e
    (e :: rest, written)

def writeRowsSharded (table : String) (rows : List (Row ν)) (distCol : String)
    (attempts : Nat → Attempt WriteReply) (pool : List Endpoint) : List Endpoint × Option Nat :=
  if pool.isEmpty then (pool, none)
  else
    let results := visit
      (fun idx => writeRowsTo P table (bucket P rows distCol pool.length idx) (attempts idx)) 0 pool
    (results.map (·.1), some (results.map fun r => r.2.getD 0).sum)

def scanAllRows (table : String) (attempts : Nat → Attempt ScanReply) (pool : List Endpoint) :
    List Endpoint × Option (List (Row ν)) :=
  if pool.isEmpty then (pool, none)
  else
    let results := visit (fun idx => scanOne P table (attempts idx)) 0 pool
    (results.map (·.1), some (results.flatMap (·.2)))

end StoragePool
end WowDb.System
