import WowDb.System.ReadYourWrites

/-!
# Values that survive a storage node

Rows that are written through `StorageService` and scanned back.
-/
namespace WowDb.System.StorageService
open WowDb.Lib WowDb.Storage WowDb.Query List

theorem estimateRowSize_eq (columns : List (String × Bytes)) : MemTable.estimateRowSize columns =
      64 + (columns.map fun c => (Text.encode c.1.toList).length + c.2.length + 16).sum := by
  have from_any : ∀ start, columns.foldl
      (fun size c => size + ((Text.encode c.1.toList).length + c.2.length + 16)) start =
        start + (columns.map fun c => (Text.encode c.1.toList).length + c.2.length + 16).sum := by
    induction columns with
    | nil => simp
    | cons c rest ih =>
      intro start
      rw [foldl_cons, ih, map_cons, sum_cons, Nat.add_assoc]
  exact from_any 64

def rowsSize (rows : List WriteRow) : Nat :=
  (rows.map fun row => MemTable.estimateRowSize row.columns.entries).sum

theorem rowsSize_append (a b : List WriteRow) : rowsSize (a ++ b) = rowsSize a + rowsSize b := by
  simp [rowsSize]

theorem insertRows_sizeBytes (H : HashOrder) (rows : List WriteRow) (m : MemTable) :
    (TabletWriter.insertRows H m rows).sizeBytes = m.sizeBytes + rowsSize rows := by
  induction rows generalizing m with
  | nil => rfl
  | cons row rest ih =>
    have own : MemTable.estimateRowSize (H.iterate row.columns) =
        MemTable.estimateRowSize row.columns.entries := by
      rw [estimateRowSize_eq, estimateRowSize_eq, ((H.iterate_perm row.columns).map _).sum_nat]
    have step := ih (m.insert (WriteBatch.toSortKey row) (H.iterate row.columns) row.txId).1
    simp only [TabletWriter.insertRows, foldl_cons] at step ⊢
    rw [step]
    simp only [MemTable.insert, own, rowsSize, map_cons, sum_cons]
    omega

structure Filling (s : TabletWriter.Tablet) : Prop where
  below : s.writer.memtable.SeqBelow
  threshold : s.writer.memtable.threshold = defaultMemtableThreshold
  state : (TabletWriter.ScansAll s ∧ s.writer.memtable.sizeBytes = rowsSize s.written ∧
      rowsSize s.written < defaultMemtableThreshold) ∨
    (s.writer.scanMemtableRows.length < s.written.length ∧
      defaultMemtableThreshold ≤ rowsSize s.written)

theorem filling_fresh (H : HashOrder) (crc : Bytes → UInt32) (partitionDir : String) :
    Filling (TabletWriter.fresh H crc partitionDir) :=
  ⟨MemTable.seqBelow_new _, rfl, Or.inl ⟨List.Perm.refl _, rfl,
    (by decide : rowsSize [] < defaultMemtableThreshold)⟩⟩

theorem Filling.writeRows {s t : TabletWriter.Tablet} {H : HashOrder} {crc : Bytes → UInt32}
    (filling : Filling s) {rows : List WriteRow}
    (ok : TabletWriter.step H crc s (.writeRows rows) = some t) :
    Filling t ∧ t.written = s.written ++ rows := by
  cases ok
  refine ⟨?_, rfl⟩
  cases rows with
  | nil =>
    simp only [TabletWriter.writeRows, append_nil]
    exact filling
  | cons first rest =>
    obtain ⟨below, threshold, shown⟩ := TabletWriter.insertRows_spec H (first :: rest) filling.below
    have size := insertRows_sizeBytes H (first :: rest) s.writer.memtable
    have total := rowsSize_append s.written (first :: rest)
    have count := shown.length_eq
    rw [length_map, length_append, length_map, length_map] at count
    rw [filling.threshold] at threshold
    cases full : (TabletWriter.insertRows H s.writer.memtable (first :: rest)).isFull with
    | true =>
      simp only [TabletWriter.writeRows, TabletWriter.appendWal, full, if_true]
      refine ⟨MemTable.seqBelow_reset, threshold, Or.inr ⟨?_, ?_⟩⟩
      · simp [TabletWriter.scanMemtableRows, MemTable.reset, MemTable.iterRows, OrdMap.empty]
      · have reached := of_decide_eq_true full
        rw [threshold] at reached
        rcases filling.state with ⟨-, same, -⟩ | ⟨-, filled⟩
        · dsimp only
          omega
        · dsimp only
          omega
    | false =>
      have room := of_decide_eq_false full
      rw [threshold] at room
      simp only [TabletWriter.writeRows, TabletWriter.appendWal, full, Bool.false_eq_true, if_false]
      refine ⟨below, threshold, ?_⟩
      rcases filling.state with ⟨all, same, -⟩ | ⟨missing, reached⟩
      · refine Or.inl ⟨?_, by dsimp only; omega, by dsimp only; omega⟩
        simp only [TabletWriter.ScansAll, TabletWriter.Shows, TabletWriter.scanMemtableRows,
          map_append] at all ⊢
        exact (shown.trans (all.append_left _)).trans perm_append_comm
      · refine Or.inr ⟨?_, by dsimp only; omega⟩
        simp only [TabletWriter.scanMemtableRows, length_map, length_append] at missing ⊢
        omega

variable {ν : Type} (P : Platform ν)

def writeAll (n : StorageNode) (table : String) : List (List (Row ν)) → Option StorageNode
  | [] => some n
  | rows :: later => (writeRows P n table rows).bind fun next => writeAll next table later

theorem writeAll_spec (trip : ∀ rows, P.trip rows = some rows) (table : String)
    (requests : List (List (Row ν))) {n : StorageNode} (filling : Filling (n table)) :
    ∃ after, writeAll P n table requests = some after ∧ Filling (after table) ∧
      (after table).written = (n table).written ++ requests.flatMap (toWriteRows P) := by
  induction requests generalizing n with
  | nil => exact ⟨n, rfl, filling, by simp⟩
  | cons rows later ih =>
    obtain ⟨tablet, ok, written, -⟩ := writeRows_spec P trip n table rows
    obtain ⟨next, adds⟩ := filling.writeRows ok
    obtain ⟨after, runs, final, all⟩ := ih (n := Function.update n table tablet)
      (by rwa [Function.update_self])
    refine ⟨after, by rw [writeAll, written, Option.bind_some, runs], final, ?_⟩
    rw [all, Function.update_self, adds, append_assoc, flatMap_cons]

def OnlyStrings (row : Row ν) : Prop := ∀ e ∈ row.entries, ∃ s, e.2 = Value.string s

theorem onlyStrings_texts (row : Row ν) : OnlyStrings (texts P row) := by
  intro e member
  obtain ⟨f, -, rfl⟩ := mem_map.mp member
  exact ⟨_, rfl⟩

theorem texts_of_onlyStrings {row : Row ν} (strings : OnlyStrings row) : texts P row = row := by
  apply OrdMap.ext
  refine (map_congr_left fun e member => ?_).trans (map_id _)
  obtain ⟨s, value⟩ := strings e member
  obtain ⟨col, v⟩ := e
  simp only at value
  rw [value]
  rfl

theorem texts_perm_iff (rows : List (Row ν)) :
    (rows.map (texts P)).Perm rows ↔ ∀ row ∈ rows, OnlyStrings row := by
  constructor
  · intro same row member
    obtain ⟨other, -, rfl⟩ := mem_map.mp (same.mem_iff.mpr member)
    exact onlyStrings_texts P other
  · intro strings
    rw [(map_congr_left fun row member => texts_of_onlyStrings P (strings row member)).trans
      (map_id _)]

def rowSize (row : Row ν) : Nat := MemTable.estimateRowSize (row.map (toBytes P)).entries

theorem rowsSize_toWriteRows (requests : List (List (Row ν))) :
    rowsSize (requests.flatMap (toWriteRows P)) = (requests.flatten.map (rowSize P)).sum := by
  induction requests with
  | nil => rfl
  | cons rows later ih =>
    have own : (toWriteRows P rows).map
        (fun row => MemTable.estimateRowSize row.columns.entries) = rows.map (rowSize P) := by
      apply ext_getElem
      · simp [toWriteRows]
      · intro i _ _
        simp [toWriteRows, rowSize]
    rw [flatMap_cons, rowsSize_append, ih, rowsSize, own, flatten_cons, map_append,
      sum_append]

theorem stored_of_written {n : StorageNode} {table : String} {requests : List (List (Row ν))}
    (written : (n table).written = requests.flatMap (toWriteRows P)) :
    stored n table = requests.flatten.map (texts P) := by
  rw [stored, written, map_flatMap, map_flatten, flatMap_def]
  congr 1
  refine map_congr_left fun rows _ => ?_
  exact columns_toWriteRows P rows

/-- Exactly for strings below the MemTable's threshold. -/
theorem values_survive_iff (trip : ∀ rows, P.trip rows = some rows) (table : String)
    (requests : List (List (Row ν))) :
    (∃ n, writeAll P (TabletWriter.fresh P.order P.crc) table requests = some n ∧
        (scanTablet P n table).Perm requests.flatten) ↔
      (∀ row ∈ requests.flatten, OnlyStrings row) ∧
        (requests.flatten.map (rowSize P)).sum < defaultMemtableThreshold := by
  obtain ⟨n, runs, filling, written⟩ := writeAll_spec P trip table requests
    (filling_fresh P.order P.crc table)
  have all : (n table).written = requests.flatMap (toWriteRows P) := written
  have size := rowsSize_toWriteRows P requests
  rw [← all] at size
  rw [runs, ← size]
  simp only [Option.some.injEq, exists_eq_left']
  rcases filling.state with ⟨shown, -, room⟩ | ⟨missing, reached⟩
  · have scanned := scanTablet_perm P trip shown
    rw [stored_of_written P all] at scanned
    rw [← texts_perm_iff P]
    exact ⟨fun same => ⟨scanned.symm.trans same, room⟩, fun kept => scanned.trans kept.1⟩
  · refine iff_of_false (fun same => ?_) fun kept => absurd kept.2 (by omega)
    have shorter := same.length_eq
    have rows : requests.flatten.length = (n table).written.length := by
      have lengths := congrArg length (stored_of_written P all)
      rw [stored, length_map, length_map] at lengths
      exact lengths.symm
    simp only [scanTablet, trip, Option.getD_some, length_map] at shorter
    omega

open ReadYourWrites

theorem text_survives :
    (∃ n, writeAll integers (TabletWriter.fresh integers.order integers.crc) "t" [[oneText "1"]] =
        some n ∧ (scanTablet integers n "t").Perm [oneText "1"]) := by
  refine (values_survive_iff integers (fun _ => rfl) "t" [[oneText "1"]]).mpr ⟨?_, by decide +kernel⟩
  intro row member e inRow
  rw [mem_singleton.mp member] at inRow
  exact ⟨"1", by rw [mem_singleton.mp inRow]⟩

theorem number_returned_as_text :
    (writeAll integers (TabletWriter.fresh integers.order integers.crc) "t"
        [[OrdMap.empty.insert "v" (.number 1)]]).map (scanTablet integers · "t") =
      some [oneText "1"] ∧
    ¬ [oneText "1"].Perm [OrdMap.empty.insert "v" (.number 1)] := by
  constructor
  · decide +kernel
  · decide +kernel

end WowDb.System.StorageService
