import WowDb.System.StoragePool

/-!
# Reading what was inserted

INSERT and SELECT of the query node over any pool: which answers give a session its own rows back.
-/
namespace WowDb.System.ReadYourWrites
open WowDb.Lib WowDb.Storage WowDb.Query List

variable {ν : Type}

structure QueryNode (ν : Type) where
  memStore : InMemoryStore ν
  pool : List Endpoint
  inserted : List (String × Row ν)

def QueryNode.insertedInto (s : QueryNode ν) (table : String) : List (Row ν) :=
  (s.inserted.filter fun e => e.1 = table).map (·.2)

variable (P : Platform ν)

def executeInsert (s : QueryNode ν) (table : String) (rows : List (Row ν)) (distCol : Option String)
    (attempts : Nat → Attempt WriteReply) : QueryNode ν :=
  { memStore := s.memStore.insertAll table rows
    pool :=
      match distCol with
      | some col => (StoragePool.writeRowsSharded P table rows col attempts s.pool).1
      | none => (StoragePool.writeRows P table rows attempts s.pool).1
    inserted := s.inserted ++ rows.map fun row => (table, row) }

abbrev From := String × (Nat → Attempt ScanReply)

def scans : List From → List Endpoint → List (String × List (Row ν)) × List Endpoint
  | [], pool => ([], pool)
  | (table, attempts) :: rest, pool =>
    let (pool, rows) := StoragePool.scanAllRows P table attempts pool
    let (later, pool) := scans rest pool
    ((table, rows.getD []) :: later, pool)

def replaceTable (m : InMemoryStore ν) (table : String) (rows : List (Row ν)) : InMemoryStore ν :=
  (m.dropTable table).insertAll table rows

def refresh (m : InMemoryStore ν) (scan : String × List (Row ν)) : InMemoryStore ν :=
  if scan.2.isEmpty then m else replaceTable m scan.1 scan.2

def cnColumns (batches : List (List (Row ν))) : List String :=
  batches.foldl (fun columns batch =>
    if columns.isEmpty then (batch.head?.map fun row => row.entries.map Prod.fst).getD []
    else columns) []

def cnRows (batches : List (List (Row ν))) : List (Row ν) :=
  batches.flatten.map fun row =>
    OrdMap.ofList ((cnColumns batches).map fun col => (col, (row.get? col).getD .null))

def executeSelect (s : QueryNode ν) (froms : List From) (cn : Option (List (List (Row ν)))) :
    QueryNode ν :=
  if s.pool.isEmpty then
    match froms, cn with
    | (table, _) :: _, some batches =>
      { s with memStore := replaceTable s.memStore table (cnRows batches) }
    | _, _ => s
  else
    let (merged, pool) := scans P froms s.pool
    { s with memStore := merged.foldl refresh s.memStore, pool }

theorem visit_nodes (table : String) (attempts : Nat → Attempt ScanReply) (pool : List Endpoint)
    (idx : Nat) :
    ((StoragePool.visit (fun i => StoragePool.scanOne P table (attempts i)) idx pool).map
      (·.1)).map (·.node) = pool.map (·.node) := by
  induction pool generalizing idx with
  | nil => rfl
  | cons e rest ih =>
    have kept : (StoragePool.scanOne P table (attempts idx) e).1.node = e.node := by
      unfold StoragePool.scanOne
      split
      · rfl
      · split <;> rfl
    simp only [StoragePool.visit, map_cons, kept, ih]

theorem scanAllRows_nodes (table : String) (attempts : Nat → Attempt ScanReply) (pool : List Endpoint) :
    (StoragePool.scanAllRows P table attempts pool).1.map (·.node) = pool.map (·.node) := by
  unfold StoragePool.scanAllRows
  split
  · rfl
  · exact visit_nodes P table attempts pool 0

theorem scans_nodes (froms : List From) (pool : List Endpoint) :
    (scans P froms pool).2.map (·.node) = pool.map (·.node) := by
  induction froms generalizing pool with
  | nil => rfl
  | cons f rest ih =>
    obtain ⟨table, attempts⟩ := f
    simp only [scans]
    rw [ih, scanAllRows_nodes]

theorem executeSelect_nodes (s : QueryNode ν) (froms : List From)
    (cn : Option (List (List (Row ν)))) :
    (executeSelect P s froms cn).pool.map (·.node) = s.pool.map (·.node) := by
  unfold executeSelect
  split
  · split <;> rfl
  · exact scans_nodes P froms s.pool

inductive Action (ν : Type) where
  | insert (table : String) (rows : List (Row ν)) (distCol : Option String)
      (attempts : Nat → Attempt WriteReply)
  | select (froms : List From) (cn : Option (List (List (Row ν))))
  | tablet (idx : Nat) (table : String) (call : TabletWriter.Call)

/-- A statement, or anything that happens to a tablet. -/
def step (s : QueryNode ν) : Action ν → Option (QueryNode ν)
  | .insert table rows distCol attempts => some (executeInsert P s table rows distCol attempts)
  | .select froms cn => some (executeSelect P s froms cn)
  | .tablet idx table call => do
    let e ← s.pool[idx]?
    let tablet ← TabletWriter.step P.order P.crc (e.node table) call
    some { s with pool := s.pool.set idx { e with node := Function.update e.node table tablet } }

def start (pool : List Endpoint) : QueryNode ν := ⟨.new, pool, []⟩

section Reads

-- Rows may be compared as they are or by what a client can see of them.
variable {β : Type} (view : Row ν → β)

def Contains (rows wanted : List (Row ν)) : Prop := (wanted.map view).Subperm (rows.map view)

def Reads (s : QueryNode ν) : Prop :=
  ∀ table, Contains view (s.memStore.scan table) (s.insertedInto table)

def lastMerged (table : String) : List (String × List (Row ν)) → Option (List (Row ν))
  | [] => none
  | scan :: rest =>
    match lastMerged table rest with
    | some rows => some rows
    | none => if scan.1 = table ∧ ¬ scan.2.isEmpty then some scan.2 else none

/-- The answers to a SELECT hold every inserted row; so they do on runs that are `Reliable`. -/
def AnsweredInFull (s : QueryNode ν) : Action ν → Prop
  | .select froms cn =>
    if s.pool.isEmpty then
      match froms, cn with
      | (table, _) :: _, some batches => Contains view (cnRows batches) (s.insertedInto table)
      | _, _ => True
    else
      ∀ table rows, lastMerged table (scans P froms s.pool).1 = some rows →
        Contains view rows (s.insertedInto table)
  | _ => True

variable (m : InMemoryStore ν)

theorem scan_replaceTable (table other : String) (rows : List (Row ν)) :
    (replaceTable m table rows).scan other = if other = table then rows else m.scan other := by
  rw [replaceTable, InMemoryStore.scan_insertAll]
  by_cases same : other = table
  · simp [same, InMemoryStore.scan_dropTable]
  · simp [same, InMemoryStore.scan_dropTable]

theorem scan_refresh (table : String) (scan : String × List (Row ν)) :
    (refresh m scan).scan table =
      if scan.1 = table ∧ ¬ scan.2.isEmpty then scan.2 else m.scan table := by
  unfold refresh
  split
  · next empty => simp [empty]
  · next some =>
    rw [scan_replaceTable]
    simp [some, eq_comm]

theorem scan_refreshAll (merged : List (String × List (Row ν))) (m : InMemoryStore ν)
    (table : String) :
    (merged.foldl refresh m).scan table = (lastMerged table merged).getD (m.scan table) := by
  induction merged generalizing m with
  | nil => rfl
  | cons scan rest ih =>
    rw [foldl_cons, ih, scan_refresh, lastMerged]
    cases lastMerged table rest with
    | some rows => rfl
    | none => split <;> rfl

theorem insertedInto_insert (s : QueryNode ν) (table other : String) (rows : List (Row ν))
    (distCol : Option String) (attempts : Nat → Attempt WriteReply) :
    (executeInsert P s table rows distCol attempts).insertedInto other =
      if other = table then s.insertedInto other ++ rows else s.insertedInto other := by
  simp only [QueryNode.insertedInto, executeInsert, filter_append, map_append]
  by_cases same : other = table
  · have all : (rows.map fun row => (table, row)).filter (fun e => e.1 = other) =
        rows.map fun row => (table, row) := by
      simp [same]
    rw [all, if_pos same]
    simp
  · have none : (rows.map fun row => (table, row)).filter (fun e => e.1 = other) = [] := by
      simp [Ne.symm same]
    rw [none, if_neg same]
    simp

theorem reads_insert {s : QueryNode ν} (table : String) (rows : List (Row ν))
    (distCol : Option String) (attempts : Nat → Attempt WriteReply) (reads : Reads view s) :
    Reads view (executeInsert P s table rows distCol attempts) := by
  intro other
  have before := reads other
  rw [insertedInto_insert]
  simp only [executeInsert, InMemoryStore.scan_insertAll]
  by_cases same : other = table
  · subst same
    simp only [if_true, Contains, map_append]
    exact (subperm_append_right _).mpr before
  · simp only [if_neg same]
    exact before

theorem reads_select_iff {s : QueryNode ν} (froms : List From) (cn : Option (List (List (Row ν))))
    (reads : Reads view s) :
    Reads view (executeSelect P s froms cn) ↔ AnsweredInFull P view s (.select froms cn) := by
  unfold executeSelect AnsweredInFull
  by_cases noStorage : s.pool.isEmpty = true
  · simp only [if_pos noStorage]
    split
    · next table _ _ batches =>
      constructor
      · intro after
        have answer := after table
        simp only [scan_replaceTable, if_true] at answer
        exact answer
      · intro answer other
        simp only [scan_replaceTable]
        by_cases same : other = table
        · subst same
          rw [if_pos rfl]
          exact answer
        · rw [if_neg same]
          exact reads other
    · exact iff_of_true reads trivial
  · simp only [noStorage, Bool.false_eq_true, if_false]
    constructor
    · intro after table rows merged
      have answer := after table
      simp only [scan_refreshAll, merged, Option.getD_some] at answer
      exact answer
    · intro answer table
      have before := reads table
      simp only [scan_refreshAll]
      cases merged : lastMerged table (scans P froms s.pool).1 with
      | none => exact before
      | some rows => exact answer table rows merged

theorem step_reads_iff (s : QueryNode ν) (a : Action ν) (t : QueryNode ν) (reads : Reads view s)
    (ok : step P s a = some t) : Reads view t ↔ AnsweredInFull P view s a := by
  cases a with
  | insert table rows distCol attempts =>
    cases ok
    exact iff_of_true (reads_insert P view table rows distCol attempts reads) trivial
  | select froms cn =>
    cases ok
    exact reads_select_iff P view froms cn reads
  | tablet idx table call =>
    simp only [step, bind, Option.bind_eq_some_iff, Option.some.injEq] at ok
    obtain ⟨e, -, tablet, -, rfl⟩ := ok
    exact iff_of_true reads trivial

/-- Exactly when each select is answered in full. -/
theorem reads_inserted_iff (pool : List Endpoint) (acts : List (Action ν)) :
    Run.EveryState (step P) (Reads view) (start pool) acts ↔
      Run.EveryStep (step P) (AnsweredInFull P view) (start pool) acts := by
  apply Run.everyState_iff_everyStep (G := fun _ _ => True) fun _ => True
  · intro _ _ _ _ _ _
    trivial
  · intro s a t _ _ reads ok
    exact step_reads_iff P view s a t reads ok
  · trivial
  · intro table
    exact List.Subperm.refl _
  · exact Run.everyStep_of_forall (fun _ _ => trivial) _ _

end Reads

theorem scan_select_single {s : QueryNode ν} {e : Endpoint} (single : s.pool = [e]) (table : String)
    (cn : Option (List (List (Row ν)))) :
    (executeSelect P s [(table, fun _ => ⟨true, .ok⟩)] cn).memStore.scan table =
      if (StorageService.scanTablet P e.node table).isEmpty then s.memStore.scan table
      else StorageService.scanTablet P e.node table := by
  have asked : (scans P [(table, fun _ => ⟨true, .ok⟩)] s.pool).1 =
      [(table, StorageService.scanTablet P e.node table)] := by
    simp [scans, single, StoragePool.scanAllRows, StoragePool.visit, StoragePool.scanOne,
      StoragePool.ensureClient]
  simp only [executeSelect, single, isEmpty_cons, Bool.false_eq_true, if_false]
  rw [single] at asked
  rw [scan_refreshAll, asked]
  cases StorageService.scanTablet P e.node table <;> simp [lastMerged]

def integers : Platform Int := ⟨.ascending, Crc32.crc32, fun _ => 0, toString, some⟩

def oneText (text : String) : Row Int := OrdMap.empty.insert "v" (.string text)

def freshNode : StorageNode := TabletWriter.fresh .ascending Crc32.crc32

theorem scanTablet_after_write (text : String)
    (fits : TabletWriter.FramedWrite .ascending (freshNode "t")
      (.writeRows (StorageService.toWriteRows integers [oneText text])))
    (keeps : TabletWriter.KeepsMemtable .ascending (freshNode "t")
      (.writeRows (StorageService.toWriteRows integers [oneText text]))) :
    ∃ node, StorageService.writeRows integers freshNode "t" [oneText text] = some node ∧
      StorageService.scanTablet integers node "t" = [oneText text] := by
  obtain ⟨tablet, ok, written, stored⟩ :=
    StorageService.writeRows_spec integers (fun _ => rfl) freshNode "t" [oneText text]
  refine ⟨_, written, ?_⟩
  have all : TabletWriter.ScansAll (Function.update freshNode "t" tablet "t") := by
    rw [Function.update_self]
    exact (TabletWriter.step_scansAll_iff .ascending Crc32.crc32 _ _ _
      (TabletWriter.fresh_logged .ascending Crc32.crc32 "t") fits
      (TabletWriter.fresh_scansAll .ascending Crc32.crc32 "t") ok).mpr keeps
  have scanned := StorageService.scanTablet_perm integers (fun _ => rfl) all
  rw [stored] at scanned
  exact perm_singleton.mp scanned

theorem refused_row_not_selected : ∃ s, Run.exec (step integers) (start [⟨freshNode, false⟩])
        [.insert "t" [oneText "a"] none fun _ => ⟨true, .ok⟩,
          .insert "t" [oneText "b"] none fun _ => ⟨true, .failed false⟩,
          .select [("t", fun _ => ⟨true, .ok⟩)] none] = some s ∧
      s.insertedInto "t" = [oneText "a", oneText "b"] ∧ s.memStore.scan "t" = [oneText "a"] ∧
      ¬ Reads id s := by
  obtain ⟨node, written, scanned⟩ := scanTablet_after_write "a" (by decide +kernel) (by decide +kernel)
  have pool : (executeInsert integers
      (executeInsert integers (start [⟨freshNode, false⟩]) "t" [oneText "a"] none
        fun _ => ⟨true, .ok⟩)
      "t" [oneText "b"] none fun _ => ⟨true, .failed false⟩).pool = [⟨node, false⟩] := by
    have accepted : (executeInsert integers (start [⟨freshNode, false⟩]) "t" [oneText "a"] none
        fun _ => ⟨true, .ok⟩).pool = [⟨node, true⟩] := by
      simp [executeInsert, start, StoragePool.writeRows, StoragePool.writeRowsTo,
        StoragePool.ensureClient, written]
    rw [executeInsert, accepted]
    simp only [StoragePool.writeRows, StoragePool.writeRowsTo, StoragePool.ensureClient]
    cases StorageService.writeRows integers node "t" [oneText "b"] <;> rfl
  have selected := scan_select_single integers pool "t" none
  rw [scanned] at selected
  refine ⟨_, rfl, rfl, selected, ?_⟩
  intro reads
  have length := (reads "t").length_le
  rw [selected] at length
  exact absurd length (by decide)

end WowDb.System.ReadYourWrites
