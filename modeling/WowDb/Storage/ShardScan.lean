import WowDb.Lib.Interval
import WowDb.Storage.Levels
import WowDb.Storage.SsTable

/-!
# Shard scans and data skipping

`ShardScanner` of `storage-node/src/grpc/scan.rs` with the request types of `shared/src/types.rs`.
-/
namespace WowDb.Shared
open WowDb.Lib

inductive Value where
  | null
  | boolean (b : Bool)
  | int64 (n : Int)
  | float64 (bits : UInt64)
  | string (s : String)
  | dateTime (ts : Int)
  | bytes (bs : Bytes)
  deriving DecidableEq

structure LsmScanRange where
  minLevel : Nat := 0
  maxLevel : Nat := 6

inductive ShardPredicateOp where
  | eq | ne | lt | le | gt | ge | isNull | isNotNull
  deriving DecidableEq

structure ShardPredicate where
  column : String
  op : ShardPredicateOp
  value : Option Value

structure ShardScanRequest where
  columns : List String
  predicates : List ShardPredicate
  scanRange : LsmScanRange
  bloomProbeKeys : List Bytes

end WowDb.Shared

namespace WowDb.Storage
open WowDb.Lib ZoneMap WowDb.Shared

structure ShardDir where
  path : String
  /-- The files of the directory itself, in the order `read_dir` lists them. -/
  listing : List (String × Bytes)
  /-- Its directories, in that order. -/
  dirs : List String
  files : PartitionFiles
  unreadable : List (String ×ₗ String)

structure ShardScanStats where
  partsScanned : Nat := 0
  partsSkipped : Nat := 0
  granulesRead : Nat := 0
  granulesSkipped : Nat := 0
  rowsReturned : Nat := 0
  bytesRead : Nat := 0
  deriving DecidableEq

inductive ShardScanItem where
  | partList (parts : List SstRef)
  | batch (ipcBytes : Bytes) (rows : Nat) (isLast : Bool)
  | stats (stats : ShardScanStats)
  deriving DecidableEq

namespace ShardScanner

def bloomFile (dir : ShardDir) (sst : SstRef) : Option Bytes :=
  let bloomPath := String.ofList (sst.path.toList.dropLast.dropLast.dropLast) ++ "bloom"
  (dir.listing.find? fun entry => Text.joinPath dir.path entry.1 = bloomPath).map (·.2)

def canSkipByBloom (fromBytes : Bytes → Option (Bytes → Option Bool)) (dir : ShardDir)
    (sst : SstRef) (probeKeys : List Bytes) : Option Bool :=
  match bloomFile dir sst with
  | none => some false
  | some data =>
    match fromBytes data with
    | none => some false
    | some mayContain => probeKeys.allM fun key => (mayContain key).map Bool.not

def outside (mn mx : Bytes) (pred : ShardPredicate) : Bool :=
  match pred.op, pred.value with
  | .ge, some (.bytes v) | .gt, some (.bytes v) => decide (mx < v)
  | .le, some (.bytes v) | .lt, some (.bytes v) => decide (v < mn)
  | .eq, some (.bytes v) => decide (v < mn) || decide (mx < v)
  | _, _ => false

def canSkipBySortRange (sst : SstRef) (predicates : List ShardPredicate) : Bool :=
  predicates.any (outside sst.minSortKey sst.maxSortKey)

def granuleCanSkip (index : MinMaxIndex) (gIdx : Nat) (predicates : List ShardPredicate) : Bool :=
  predicates.any fun pred =>
    match index.granuleMinMax gIdx with
    | none => false
    | some (gMin, gMax) => outside gMin gMax pred

def countSkippableGranules (index : MinMaxIndex) (predicates : List ShardPredicate) : Nat × Nat :=
  let n := index.granuleCount
  (n, ((List.range n).filter fun gIdx => granuleCanSkip index gIdx predicates).length)

def listColumnsInDir (dir : ShardDir) : List String :=
  (dir.dirs.filter fun name => name.toList.head? != some '_').insertionSort (· ≤ ·)

def readFile (dir : ShardDir) (col name : String) : Option Bytes :=
  if toLex (col, name) ∈ dir.unreadable then none else dir.files.get? (toLex (col, name))

def scanColumns (dir : ShardDir) (columns : List String) : List String :=
  if columns.isEmpty then listColumnsInDir dir else columns

def firstIndex (dir : ShardDir) (sst : SstRef) (columns : List String) : Option MinMaxIndex := do
  let first ← (scanColumns dir columns).head?
  let data ← readFile dir first (segStem sst.sequenceNum ++ ".min_max")
  MinMaxIndex.fromBytes data

def readSegment (dir : ShardDir) (seqNum : Nat) (columns : List String) : Option (Bytes × Nat) :=
  let name := segStem seqNum ++ ".col"
  if columns.any fun col =>
      (dir.files.get? (toLex (col, name))).isSome && (readFile dir col name).isNone then none
  else some (readSegmentRaw dir.files seqNum columns)

def readSstWithFilter (dir : ShardDir) (sst : SstRef) (columns : List String)
    (predicates : List ShardPredicate) (stats : ShardScanStats) :
    Option (Bytes × Nat) × ShardScanStats :=
  let scanCols := scanColumns dir columns
  if scanCols.isEmpty then (some ([], 0), stats) else
    let (total, skipped) := match firstIndex dir sst columns with
      | some index => countSkippableGranules index predicates
      | none => (0, 0)
    let stats := { stats with
      granulesRead := stats.granulesRead + (total - skipped)
      granulesSkipped := stats.granulesSkipped + skipped }
    match readSegment dir sst.sequenceNum scanCols with
    | none => (none, stats)
    | some (ipcBytes, rows) =>
      (some (ipcBytes, rows), { stats with bytesRead := stats.bytesRead + ipcBytes.length })

def loadEntry (dir : ShardDir) (id : Uuid) (entry : String × Bytes) : Option (Option SstRef) :=
  let name := entry.1.toList
  if ".col".toList.isSuffixOf name && "seg-".toList.isPrefixOf name then do
    let (_, behind) ← Text.splitOctets 4 name
    let (digits, _) ← Text.splitOctets 10 behind
    return (Text.parseU64 digits).map fun s =>
      { id, sequenceNum := s, generation := 0, compactedFrom := [], level := 0
        path := Text.joinPath dir.path entry.1, sizeBytes := entry.2.length, rowCount := 0
        minSortKey := [], maxSortKey := [] }
  else return none

variable (newV4 : Nat → Uuid)

def loadActiveParts (dir : ShardDir) : Option (List SstRef) := do
  let loaded ← dir.listing.zipIdx.mapM fun (entry, i) => loadEntry dir (newV4 i) entry
  return (loaded.filterMap id).insertionSort fun a b => a.sequenceNum ≤ b.sequenceNum

def scanBefore (a b : SstRef) : Bool :=
  if a.level = 0 ∧ b.level = 0 then decide (b.sequenceNum ≤ a.sequenceNum)
  else decide (a.level < b.level) ||
    a.level == b.level && decide (a.minSortKey ≤ b.minSortKey)

structure ScanState where
  stats : ShardScanStats := {}
  lastIpc : Option (Bytes × Nat) := none
  sent : List ShardScanItem

def bloomStage (fromBytes : Bytes → Option (Bytes → Option Bool)) (dir : ShardDir)
    (req : ShardScanRequest) (sst : SstRef) : Option Bool :=
  if req.bloomProbeKeys.isEmpty then some false
  else canSkipByBloom fromBytes dir sst req.bloomProbeKeys

def scanPart (fromBytes : Bytes → Option (Bytes → Option Bool)) (dir : ShardDir)
    (req : ShardScanRequest) (st : ScanState) (sst : SstRef) : Option ScanState := do
  let skip := { st with stats := { st.stats with partsSkipped := st.stats.partsSkipped + 1 } }
  let absent ← bloomStage fromBytes dir req sst
  if absent then some skip
  else if canSkipBySortRange sst req.predicates then some skip
  else
    let stats := { st.stats with partsScanned := st.stats.partsScanned + 1 }
    match readSstWithFilter dir sst req.columns req.predicates stats with
    | (some batch, stats) =>
      some { stats
             lastIpc := some batch
             sent := st.sent ++ (st.lastIpc.toList.map fun (ipc, rows) => .batch ipc rows false) }
    | (none, stats) => some { st with stats }

def levelIn (range : LsmScanRange) (s : SstRef) : Bool :=
  decide (range.minLevel ≤ s.level) && decide (s.level ≤ range.maxLevel)

def finishScan (st : ScanState) : List ShardScanItem :=
  match st.lastIpc with
  | none => st.sent ++ [.stats st.stats]
  | some (ipc, rows) =>
    st.sent ++ [.batch ipc rows true,
      .stats { st.stats with rowsReturned := st.stats.rowsReturned + rows }]

def scanParts (fromBytes : Bytes → Option (Bytes → Option Bool)) (dir : ShardDir)
    (req : ShardScanRequest) (sstables : List SstRef) : Option (List ShardScanItem) :=
  let filtered := (sstables.insertionSort (scanBefore · ·)).filter (levelIn req.scanRange)
  (filtered.foldlM (scanPart fromBytes dir req) { sent := [.partList sstables] }).map finishScan

def scan (fromBytes : Bytes → Option (Bytes → Option Bool)) (dir : ShardDir)
    (req : ShardScanRequest) : Option (List ShardScanItem) :=
  (loadActiveParts newV4 dir).bind (scanParts fromBytes dir req)

end ShardScanner

abbrev ScanRow := String → Option Bytes

def ScanRow.meets (other : ShardPredicate → Option Bytes → Bool) (row : ScanRow)
    (pred : ShardPredicate) : Bool :=
  match pred.op, pred.value with
  | .isNull, _ => (row pred.column).isNone
  | .isNotNull, _ => (row pred.column).isSome
  | .eq, some (.bytes v) => (row pred.column).any fun x => decide (x = v)
  | .ne, some (.bytes v) => (row pred.column).any fun x => decide (x ≠ v)
  | .lt, some (.bytes v) => (row pred.column).any fun x => decide (x < v)
  | .le, some (.bytes v) => (row pred.column).any fun x => decide (x ≤ v)
  | .gt, some (.bytes v) => (row pred.column).any fun x => decide (v < x)
  | .ge, some (.bytes v) => (row pred.column).any fun x => decide (v ≤ x)
  | _, _ => other pred (row pred.column)

/-- No skipped row satisfies the request. -/
structure SkipsSoundly (other : ShardPredicate → Option Bytes → Bool) (dir : ShardDir)
    (parts : List SstRef) (granules : SstRef → List (List ScanRow)) (req : ShardScanRequest) :
    Prop where
  part : ∀ sst ∈ parts, ShardScanner.canSkipBySortRange sst req.predicates = true →
    ∀ row ∈ (granules sst).flatten, ¬ ∀ pred ∈ req.predicates, row.meets other pred = true
  granule : ∀ sst ∈ parts, ∀ index, ShardScanner.firstIndex dir sst req.columns = some index →
    ∀ (g : Nat) rows, (granules sst)[g]? = some rows →
    ShardScanner.granuleCanSkip index g req.predicates = true →
    ∀ row ∈ rows, ¬ ∀ pred ∈ req.predicates, row.meets other pred = true

namespace ShardScanner

/-- The predicate that compares a column with a byte string. -/
def comparing (col : String) (op : Comparison) (v : Bytes) : ShardPredicate :=
  ⟨col, match op with | .eq => .eq | .lt => .lt | .le => .le | .gt => .gt | .ge => .ge,
    some (.bytes v)⟩

theorem outside_comparing (mn mx : Bytes) (col : String) (op : Comparison) (v : Bytes) :
    outside mn mx (comparing col op v) = true ↔ op.excludes mn mx v = true := by
  cases op <;> simp [outside, comparing, Comparison.excludes]

variable (other : ShardPredicate → Option Bytes → Bool)

theorem meets_comparing (row : ScanRow) (col : String) (op : Comparison) (v : Bytes) :
    row.meets other (comparing col op v) = true ↔ ∃ x, row col = some x ∧ op.holds x v = true := by
  cases op <;> simp [ScanRow.meets, comparing, Comparison.holds, Option.any_eq_true]

theorem exists_comparing_of_outside {mn mx : Bytes} {pred : ShardPredicate}
    (out : outside mn mx pred = true) : ∃ op v, pred = comparing pred.column op v := by
  obtain ⟨col, op, value⟩ := pred
  match value with
  | some (.bytes v) =>
    cases op with
    | eq => exact ⟨.eq, v, rfl⟩
    | lt => exact ⟨.lt, v, rfl⟩
    | le => exact ⟨.le, v, rfl⟩
    | gt => exact ⟨.gt, v, rfl⟩
    | ge => exact ⟨.ge, v, rfl⟩
    | ne | isNull | isNotNull => cases out
  | none | some .null | some (.boolean _) | some (.int64 _) | some (.float64 _)
  | some (.string _) | some (.dateTime _) => cases op <;> cases out

/-- The columns that the request compares with byte strings, and the comparisons. -/
def tests (req : ShardScanRequest) : Set (String × Comparison) :=
  {t | ∃ v, comparing t.1 t.2 v ∈ req.predicates}

/-- For every comparison of the request, the bounds of parts and granules admit the values of the
compared column. -/
structure ValuesAdmitted (dir : ShardDir) (parts : List SstRef)
    (granules : SstRef → List (List ScanRow)) (req : ShardScanRequest) : Prop where
  part : ∀ sst ∈ parts, ∀ row ∈ (granules sst).flatten, ∀ t ∈ tests req, ∀ x, row t.1 = some x →
    t.2.admits sst.minSortKey sst.maxSortKey x
  granule : ∀ sst ∈ parts, ∀ index, firstIndex dir sst req.columns = some index →
    ∀ (g : Nat) rows, (granules sst)[g]? = some rows →
    ∀ gMin gMax, index.granuleMinMax g = some (gMin, gMax) →
    ∀ row ∈ rows, ∀ t ∈ tests req, ∀ x, row t.1 = some x → t.2.admits gMin gMax x

theorem not_meets_of_outside {mn mx : Bytes} {req : ShardScanRequest} {row : ScanRow}
    (admitted : ∀ t ∈ tests req, ∀ x, row t.1 = some x → t.2.admits mn mx x)
    (out : req.predicates.any (outside mn mx) = true) :
    ¬ ∀ pred ∈ req.predicates, row.meets other pred = true := by
  intro meets
  obtain ⟨pred, mem, out⟩ := List.any_eq_true.mp out
  obtain ⟨op, v, form⟩ := exists_comparing_of_outside out
  have met := meets pred mem
  rw [form] at met out mem
  obtain ⟨x, value, holds⟩ := (meets_comparing other row _ op v).mp met
  have excluded := (outside_comparing mn mx _ op v).mp out
  rw [Comparison.admits_iff.mp (admitted (_, op) ⟨v, mem⟩ x value) v excluded] at holds
  cases holds

theorem admits_of_not_meets {mn mx x : Bytes} {col : String} {op : Comparison} {row : ScanRow}
    (value : row col = some x)
    (sound : ∀ v, outside mn mx (comparing col op v) = true →
      ¬ ∀ pred ∈ [comparing col op v], row.meets other pred = true) : op.admits mn mx x := by
  refine Comparison.admits_iff.mpr fun v excluded => ?_
  have unmet := sound v ((outside_comparing mn mx col op v).mpr excluded)
  rw [List.forall_mem_singleton, meets_comparing] at unmet
  exact Bool.eq_false_iff.mpr fun holds => unmet ⟨x, value, holds⟩

theorem comparing_inj {c d : String} {o p : Comparison} {v w : Bytes}
    (same : comparing c o v = comparing d p w) : c = d ∧ o = p := by
  cases o <;> cases p <;> simp_all [comparing]

/-- Skipping is sound for a request, whatever constants it compares with, exactly when the bounds
admit the values of the compared columns. -/
theorem skipsSoundly_iff_valuesAdmitted (other : ShardPredicate → Option Bytes → Bool)
    (dir : ShardDir) (parts : List SstRef) (granules : SstRef → List (List ScanRow))
    (req : ShardScanRequest) :
    (∀ asked : ShardScanRequest, asked.columns = req.columns → tests asked ⊆ tests req →
      SkipsSoundly other dir parts granules asked) ↔
    ValuesAdmitted dir parts granules req := by
  constructor
  · intro sound
    -- one request per comparison and constant
    have single : ∀ t ∈ tests req, ∀ v : Bytes, SkipsSoundly other dir parts
        granules ⟨req.columns, [comparing t.1 t.2 v], {}, []⟩ := by
      intro t mem v
      refine sound _ rfl fun u ⟨w, isIt⟩ => ?_
      obtain ⟨column, op⟩ := comparing_inj (List.mem_singleton.mp isIt)
      rwa [Prod.ext column op]
    constructor
    · intro sst loaded row mem t tested x value
      refine admits_of_not_meets other value fun v out => ?_
      exact (single t tested v).part sst loaded (by simpa [canSkipBySortRange] using out) row mem
    · intro sst loaded index read g rows at_g gMin gMax bounds row mem t tested x value
      refine admits_of_not_meets other value fun v out => ?_
      exact (single t tested v).granule sst loaded index read g rows at_g
        (by simpa [granuleCanSkip, bounds] using out) row mem
  · intro admitted asked sameColumns fewer
    constructor
    · intro sst loaded skipped row mem
      exact not_meets_of_outside other
        (fun t tested => admitted.part sst loaded row mem t (fewer tested)) skipped
    · intro sst loaded index read g rows at_g skipped row mem
      rw [sameColumns] at read
      cases bounds : index.granuleMinMax g with
      | none => simp [granuleCanSkip, bounds] at skipped
      | some range =>
        refine not_meets_of_outside other (fun t tested => admitted.granule sst loaded index read g
          rows at_g range.1 range.2 bounds row mem t (fewer tested)) ?_
        simpa [granuleCanSkip, bounds] using skipped

def oneSegment : ShardDir where
  path := "/shard"
  listing := [("seg-0000000001.col", [])]
  dirs := ["ts"]
  files := .empty
  unreadable := []

def fromOne : ShardScanRequest := ⟨["ts"], [⟨"ts", .ge, some (.bytes [1])⟩], {}, []⟩

def tsFive : ScanRow := fun col => if col = "ts" then some [5] else none

theorem loaded_part_skipped : ∃ parts, loadActiveParts (fun _ => 0) oneSegment = some parts ∧
      scan (fun _ => 0) (fun _ => none) oneSegment fromOne =
        some [.partList parts, .stats { partsSkipped := 1 }] ∧
      ¬ SkipsSoundly (fun _ _ => true) oneSegment parts (fun _ => [[tsFive]]) fromOne := by
  refine ⟨_, rfl, by decide +kernel, fun sound => ?_⟩
  refine sound.part _ List.mem_cons_self (by decide +kernel) tsFive (by simp) fun pred mem => ?_
  rw [List.mem_singleton.mp mem]
  decide +kernel

end ShardScanner

open List

/-- Parts, batches up to the last one, counters. -/
structure WellTerminated (parts : List SstRef) (range : LsmScanRange)
    (batches : List (Bytes × Nat × Bool)) (stats : ShardScanStats) (items : List ShardScanItem) :
    Prop where
  shape : items = .partList parts ::
    (batches.map (fun b => .batch b.1 b.2.1 b.2.2) ++ [.stats stats])
  last : ∀ (i : Nat) b, batches[i]? = some b → (b.2.2 = true ↔ i + 1 = batches.length)
  rows : stats.rowsReturned = (batches.map (·.2.1)).sum
  counted : stats.partsScanned + stats.partsSkipped = (parts.filter (ShardScanner.levelIn range)).length

namespace ShardScanner

variable (fromBytes : Bytes → Option (Bytes → Option Bool)) (dir : ShardDir)
  (req : ShardScanRequest)

def partRead (sst : SstRef) : Option (Option (Bytes × Nat)) := do
  let absent ← bloomStage fromBytes dir req sst
  if absent || canSkipBySortRange sst req.predicates then some none
  else some (readSstWithFilter dir sst req.columns req.predicates {}).1

def partReads (parts : List SstRef) : Option (List (Bytes × Nat)) :=
  (parts.mapM (partRead fromBytes dir req)).map fun reads => reads.filterMap id

def inRange (parts : List SstRef) : List SstRef :=
  (parts.insertionSort (scanBefore · ·)).filter (levelIn req.scanRange)

theorem readSstWithFilter_spec (sst : SstRef) (columns : List String)
    (predicates : List ShardPredicate) (stats : ShardScanStats) :
    ∃ after, readSstWithFilter dir sst columns predicates stats =
        ((readSstWithFilter dir sst columns predicates {}).1, after) ∧
      after.partsScanned = stats.partsScanned ∧ after.partsSkipped = stats.partsSkipped ∧
      after.rowsReturned = stats.rowsReturned := by
  unfold readSstWithFilter
  dsimp only
  split
  · exact ⟨stats, rfl, rfl, rfl, rfl⟩
  · cases readSegment dir sst.sequenceNum (scanColumns dir columns) with
    | none => exact ⟨_, rfl, rfl, rfl, rfl⟩
    | some batch => exact ⟨_, rfl, rfl, rfl, rfl⟩

structure Tracks (parts : List SstRef) (reads : List (Bytes × Nat)) (done : Nat)
    (st : ScanState) : Prop where
  sent : st.sent = .partList parts :: reads.dropLast.map fun b => .batch b.1 b.2 false
  held : st.lastIpc = reads.getLast?
  counted : st.stats.partsScanned + st.stats.partsSkipped = done
  noRows : st.stats.rowsReturned = 0

theorem dropLast_append_getLast? {α : Type} (xs : List α) : xs.dropLast ++ xs.getLast?.toList = xs := by
  induction xs using reverseRecOn with
  | nil => rfl
  | append_singleton xs x _ => simp

variable {parts : List SstRef} {reads : List (Bytes × Nat)} {st : ScanState}

variable {done : Nat}

theorem scanPart_tracks (tracks : Tracks parts reads done st) (sst : SstRef) :
    (partRead fromBytes dir req sst = none ∧ scanPart fromBytes dir req st sst = none) ∨
      ∃ read next, partRead fromBytes dir req sst = some read ∧
        scanPart fromBytes dir req st sst = some next ∧
        Tracks parts (reads ++ read.toList) (done + 1) next := by
  obtain ⟨sent, held, counted, noRows⟩ := tracks
  have skipped : Tracks parts (reads ++ (none : Option (Bytes × Nat)).toList) (done + 1)
      { st with stats := { st.stats with partsSkipped := st.stats.partsSkipped + 1 } } := by
    refine ⟨by simpa using sent, by simpa using held, ?_, noRows⟩
    dsimp only
    omega
  simp only [partRead, scanPart]
  cases bloomStage fromBytes dir req sst with
  | none => exact Or.inl ⟨rfl, rfl⟩
  | some absent =>
    refine Or.inr ?_
    simp only [Option.bind_eq_bind, Option.bind_some]
    cases absent with
    | true => exact ⟨none, _, rfl, rfl, skipped⟩
    | false =>
      cases outside : canSkipBySortRange sst req.predicates with
      | true => exact ⟨none, _, rfl, rfl, skipped⟩
      | false =>
        obtain ⟨after, result, sameScanned, sameSkipped, sameRows⟩ :=
          readSstWithFilter_spec dir sst req.columns req.predicates
            { st.stats with partsScanned := st.stats.partsScanned + 1 }
        dsimp only at sameScanned sameSkipped sameRows
        simp only [Bool.or_false, Bool.false_eq_true, if_false, result]
        cases (readSstWithFilter dir sst req.columns req.predicates {}).1 with
        | none =>
          refine ⟨none, _, rfl, rfl, by simpa using sent, by simpa using held, ?_, by simpa
            [sameRows] using noRows⟩
          dsimp only
          omega
        | some batch =>
          refine ⟨some batch, _, rfl, rfl, ?_, by simp, ?_, by simpa [sameRows] using noRows⟩
          · have all := congrArg (map fun b : Bytes × Nat => ShardScanItem.batch b.1 b.2 false)
              (dropLast_append_getLast? reads)
            simp only [sent, held, Option.toList_some, dropLast_concat, ← all,
              map_append, cons_append]
          · dsimp only
            omega

theorem scanFold_tracks (todo : List SstRef) (tracks : Tracks parts reads done st) :
    (partReads fromBytes dir req todo = none ∧ todo.foldlM (scanPart fromBytes dir req) st = none) ∨
      ∃ more final, partReads fromBytes dir req todo = some more ∧
        todo.foldlM (scanPart fromBytes dir req) st = some final ∧
        Tracks parts (reads ++ more) (done + todo.length) final := by
  induction todo generalizing reads done st with
  | nil => exact Or.inr ⟨[], st, rfl, rfl, by simpa using tracks⟩
  | cons sst rest ih =>
    rcases scanPart_tracks fromBytes dir req tracks sst with
      ⟨noRead, stops⟩ | ⟨read, next, isRead, goesOn, tracksNext⟩
    · exact Or.inl ⟨by simp [partReads, mapM_cons, noRead], by simp [foldlM_cons, stops]⟩
    · rcases ih tracksNext with ⟨noReads, stops⟩ | ⟨more, final, areRead, ends, tracksFinal⟩
      · rw [partReads, Option.map_eq_none_iff] at noReads
        exact Or.inl ⟨by simp [partReads, mapM_cons, isRead, noReads],
          by simp [foldlM_cons, goesOn, stops]⟩
      · obtain ⟨later, laterReads, rfl⟩ := Option.map_eq_some_iff.mp areRead
        refine Or.inr ⟨read.toList ++ later.filterMap id, final, ?_,
          by simp [foldlM_cons, goesOn, ends], ?_⟩
        · cases read <;> simp [partReads, mapM_cons, isRead, laterReads]
        · rw [append_assoc] at tracksFinal
          rwa [length_cons, Nat.add_comm rest.length 1, ← Nat.add_assoc]

theorem length_inRange (parts : List SstRef) :
    (inRange req parts).length = (parts.filter (levelIn req.scanRange)).length :=
  ((perm_insertionSort _ parts).filter _).length_eq

theorem scanParts_spec (parts : List SstRef) :
    (partReads fromBytes dir req (inRange req parts) = none ∧
        scanParts fromBytes dir req parts = none) ∨
      ∃ reads st, partReads fromBytes dir req (inRange req parts) = some reads ∧
        scanParts fromBytes dir req parts = some (finishScan st) ∧
        Tracks parts reads (parts.filter (levelIn req.scanRange)).length st := by
  have start : Tracks parts [] 0 { sent := [.partList parts] } := ⟨rfl, rfl, rfl, rfl⟩
  rcases scanFold_tracks fromBytes dir req (inRange req parts) start with
    ⟨noReads, stops⟩ | ⟨reads, st, areRead, ends, tracks⟩
  · refine Or.inl ⟨noReads, ?_⟩
    rw [inRange] at stops
    simp only [scanParts, stops, Option.map_none]
  · refine Or.inr ⟨reads, st, areRead, ?_, ?_⟩
    · rw [inRange] at ends
      simp only [scanParts, ends, Option.map_some]
    · rw [length_inRange, Nat.zero_add] at tracks
      exact tracks

def marked (reads : List (Bytes × Nat)) : List (Bytes × Nat × Bool) :=
  reads.dropLast.map (fun b => (b.1, b.2, false)) ++
    reads.getLast?.toList.map fun b => (b.1, b.2, true)

def lastRows (reads : List (Bytes × Nat)) : Nat := (reads.getLast?.map (·.2)).getD 0

theorem marked_last (reads : List (Bytes × Nat)) (i : Nat) (b : Bytes × Nat × Bool)
    (at_i : (marked reads)[i]? = some b) : b.2.2 = true ↔ i + 1 = (marked reads).length := by
  induction reads using reverseRecOn with
  | nil => simp [marked] at at_i
  | append_singleton reads last _ =>
    simp only [marked, dropLast_concat, getLast?_concat, Option.toList_some,
      map_cons, map_nil, length_append, length_map, length_cons,
      length_nil, getElem?_append] at at_i ⊢
    split at at_i
    · next front =>
      obtain ⟨r, -, rfl⟩ := mem_map.mp (List.mem_of_getElem? at_i)
      simp only [Bool.false_eq_true, false_iff]
      omega
    · next back =>
      obtain ⟨inside, rfl⟩ := List.getElem?_eq_some_iff.mp at_i
      rw [length_singleton] at inside
      simp only [getElem_singleton, true_iff]
      omega

theorem rows_marked (reads : List (Bytes × Nat)) :
    ((marked reads).map (·.2.1)).sum = (reads.dropLast.map (·.2)).sum + lastRows reads := by
  cases last : reads.getLast? <;> simp [marked, lastRows, last, Function.comp_def]

theorem finishScan_eq (tracks : Tracks parts reads done st) :
    finishScan st = .partList parts ::
      ((marked reads).map (fun b => .batch b.1 b.2.1 b.2.2) ++
        [.stats { st.stats with rowsReturned := lastRows reads }]) := by
  obtain ⟨⟨stats, lastIpc, items⟩, rfl⟩ : ∃ s, s = st := ⟨st, rfl⟩
  obtain ⟨sent, held, -, noRows⟩ := tracks
  dsimp only at sent held noRows
  subst sent held
  cases last : reads.getLast? with
  | none =>
    obtain rfl := getLast?_eq_none_iff.mp last
    obtain ⟨scanned, skipped, granules, granulesSkipped, rows, bytes⟩ := stats
    dsimp only at noRows
    subst noRows
    simp [finishScan, marked, lastRows]
  | some batch =>
    simp [finishScan, marked, lastRows, last, noRows, Function.comp_def]

variable {range : LsmScanRange}

theorem wellTerminated_unique {batches : List (Bytes × Nat × Bool)}
    (sent : List (Bytes × Nat × Bool)) {stats counters : ShardScanStats}
    {items : List ShardScanItem} (terminated : WellTerminated parts range batches stats items)
    (shape : items = .partList parts ::
      (sent.map (fun b => .batch b.1 b.2.1 b.2.2) ++ [.stats counters])) :
    batches = sent ∧ stats = counters := by
  have same := terminated.shape.symm.trans shape
  rw [cons.injEq] at same
  obtain ⟨front, back⟩ := append_inj' same.2 rfl
  refine ⟨map_injective_iff.mpr ?_ front, by simpa using back⟩
  rintro ⟨a, b, c⟩ ⟨a', b', c'⟩ equal
  simpa using equal

theorem wellTerminated_finishScan_iff
    (tracks : Tracks parts reads (parts.filter (levelIn range)).length st) :
    (∃ batches stats, WellTerminated parts range batches stats (finishScan st)) ↔
      ∀ b ∈ reads.dropLast, b.2 = 0 := by
  have zero : (reads.dropLast.map (·.2)).sum = 0 ↔ ∀ b ∈ reads.dropLast, b.2 = 0 := by
    rw [List.sum_eq_zero_iff_forall_eq_nat, List.forall_mem_map]
  constructor
  · rintro ⟨batches, stats, terminated⟩
    obtain ⟨rfl, rfl⟩ := wellTerminated_unique _ terminated (finishScan_eq tracks)
    have rows := terminated.rows
    rw [rows_marked] at rows
    exact zero.mp (by dsimp only at rows; omega)
  · intro noRows
    refine ⟨marked reads, _, finishScan_eq tracks, marked_last reads, ?_, tracks.counted⟩
    rw [rows_marked, zero.mpr noRows, Nat.zero_add]

/-- Exactly when only the last part read has rows. -/
theorem scan_well_terminated_iff (newV4 : Nat → Uuid)
    (fromBytes : Bytes → Option (Bytes → Option Bool)) (dir : ShardDir) (req : ShardScanRequest) :
    (∃ parts items batches stats, loadActiveParts newV4 dir = some parts ∧
        scan newV4 fromBytes dir req = some items ∧
        WellTerminated parts req.scanRange batches stats items) ↔
      ∃ parts reads, loadActiveParts newV4 dir = some parts ∧
        partReads fromBytes dir req (inRange req parts) = some reads ∧
        ∀ b ∈ reads.dropLast, b.2 = 0 := by
  constructor
  · rintro ⟨parts, items, batches, stats, loaded, scanned, terminated⟩
    rw [scan, loaded, Option.bind_some] at scanned
    rcases scanParts_spec fromBytes dir req parts with
      ⟨-, panics⟩ | ⟨reads, st, areRead, ends, tracks⟩
    · rw [panics] at scanned
      cases scanned
    · rw [ends, Option.some.injEq] at scanned
      subst scanned
      exact ⟨parts, reads, loaded, areRead,
        (wellTerminated_finishScan_iff tracks).mp ⟨batches, stats, terminated⟩⟩
  · rintro ⟨parts, reads, loaded, areRead, noRows⟩
    rcases scanParts_spec fromBytes dir req parts with
      ⟨panics, -⟩ | ⟨others, st, sameReads, ends, tracks⟩
    · rw [panics] at areRead
      cases areRead
    · rw [areRead, Option.some.injEq] at sameReads
      subst sameReads
      obtain ⟨batches, stats, terminated⟩ := (wellTerminated_finishScan_iff tracks).mpr noRows
      exact ⟨parts, _, batches, stats, loaded, by rw [scan, loaded, Option.bind_some, ends],
        terminated⟩

def twoSegments : ShardDir where
  path := "/shard"
  listing := [("seg-0000000001.col", []), ("seg-0000000002.col", [])]
  dirs := ["v"]
  files := (OrdMap.empty.insert (toLex ("v", "seg-0000000001.col")) [2, 0, 0, 0]).insert
    (toLex ("v", "seg-0000000002.col")) [3, 0, 0, 0]
  unreadable := []

theorem rows_of_last_batch_only : ∃ parts, loadActiveParts (fun _ => 0) twoSegments = some parts ∧
      scan (fun _ => 0) (fun _ => none) twoSegments ⟨["v"], [], {}, []⟩ =
        some [.partList parts, .batch [3, 0, 0, 0] 3 false, .batch [2, 0, 0, 0] 2 true,
          .stats { partsScanned := 2, rowsReturned := 2, bytesRead := 8 }] ∧
      ∀ batches stats, ¬ WellTerminated parts {}
        batches stats [.partList parts, .batch [3, 0, 0, 0] 3 false, .batch [2, 0, 0, 0] 2 true,
          .stats { partsScanned := 2, rowsReturned := 2, bytesRead := 8 }] := by
  refine ⟨_, rfl, by decide +kernel, fun batches stats terminated => ?_⟩
  obtain ⟨rfl, rfl⟩ := wellTerminated_unique [([3, 0, 0, 0], 3, false), ([2, 0, 0, 0], 2, true)]
    terminated rfl
  exact absurd terminated.rows (by decide)

end ShardScanner
end WowDb.Storage
