import WowDb.System.ReliableReads

/-!
# Overlapping selects on one table

Several `execute_select` calls on one table, over storage nodes that all answer and whose rows do
not change.
-/
namespace WowDb.System.ConcurrentSelects
open WowDb.Lib WowDb.Query WowDb.System.ReadYourWrites List

variable {ν : Type}

inductive Phase (ν : Type) where
  | dropping (row : Row ν) (rest : List (Row ν))
  | inserting (row : Row ν) (rest : List (Row ν))
  | evaluating

/-- `answered` are the calls that have returned and the rows their query was evaluated over. -/
structure Shared (ν : Type) where
  memStore : InMemoryStore ν
  pool : List Endpoint
  calls : OrdMap Nat (Phase ν)
  answered : List (Nat × List (Row ν))

inductive Action where
  | ask (call : Nat)
  | advance (call : Nat)

variable (P : Platform ν) (table : String)

def afterAsking : List (Row ν) → Phase ν
  | [] => .evaluating
  | row :: rest => .dropping row rest

def afterInserting : List (Row ν) → Phase ν
  | [] => .evaluating
  | row :: rest => .inserting row rest

def operate (s : Shared ν) (call : Nat) : Phase ν → Shared ν
  | .dropping row rest => { s with
      memStore := s.memStore.dropTable table
      calls := s.calls.insert call (.inserting row rest) }
  | .inserting row rest => { s with
      memStore := s.memStore.insert table row
      calls := s.calls.insert call (afterInserting rest) }
  | .evaluating => { s with
      calls := s.calls.erase call
      answered := s.answered ++ [(call, s.memStore.scan table)] }

def step (s : Shared ν) : Action → Option (Shared ν)
  | .ask call =>
    match s.calls.get? call, StoragePool.scanAllRows P table (fun _ => ⟨true, .ok⟩) s.pool with
    | none, (pool, some rows) =>
      some { s with pool := pool, calls := s.calls.insert call (afterAsking rows) }
    | _, _ => none
  | .advance call => (s.calls.get? call).map (operate table s call)

def start (memStore : InMemoryStore ν) (pool : List Endpoint) : Shared ν := ⟨memStore, pool, .empty, []⟩

/-- Queries see the rows of the nodes. -/
def Isolated (rows : List (Row ν)) (s : Shared ν) : Prop :=
  (∀ a ∈ s.answered, a.2 = rows) ∧
    (s.calls = .empty → s.answered ≠ [] → s.memStore.scan table = rows)

def Phase.midway : Phase ν → Bool
  | .inserting _ _ => true
  | _ => false

/-- No drop or query while another call inserts. -/
def Undisturbed (s : Shared ν) : Action → Prop
  | .ask _ => True
  | .advance call => ∀ phase, s.calls.get? call = some phase → phase.midway = false →
      ∀ other next, s.calls.get? other = some next → next.midway = false

variable {P table}

/-- Either one call is in the middle of its inserts and will complete the rows, or none is and
the rows are there, unless nothing has happened yet. -/
inductive Content (table : String) (rows : List (Row ν)) (s : Shared ν) : Prop where
  | midway (call : Nat) (row : Row ν) (rest : List (Row ν))
      (inserting : s.calls.get? call = some (.inserting row rest))
      (completes : s.memStore.scan table ++ row :: rest = rows)
      (alone : ∀ other phase, other ≠ call → s.calls.get? other = some phase → phase.midway = false)
  | complete (still : ∀ call phase, s.calls.get? call = some phase → phase.midway = false)
      (content : s.memStore.scan table = rows)
  | untouched (asked : ∀ call phase, s.calls.get? call = some phase →
        ∃ row rest, phase = .dropping row rest)
      (unanswered : s.answered = [])

structure Refreshed (P : Platform ν) (table : String) (nodes : List StorageNode) (s : Shared ν) :
    Prop where
  unchanged : s.pool.map (·.node) = nodes
  dropping : ∀ call row rest, s.calls.get? call = some (.dropping row rest) →
    row :: rest = merged P nodes table
  answers : ∀ a ∈ s.answered, a.2 = merged P nodes table
  empty : merged P nodes table = [] → s.memStore.scan table = []
  content : Content table (merged P nodes table) s

theorem midway_afterAsking (rows : List (Row ν)) : (afterAsking rows).midway = false := by
  cases rows <;> rfl

theorem Refreshed.isolated {nodes : List StorageNode} {s : Shared ν} (kept : Refreshed P table nodes s) :
    Isolated table (merged P nodes table) s := by
  refine ⟨kept.answers, fun noCalls answered => ?_⟩
  cases kept.content with
  | midway call row rest inserting completes alone => simp [noCalls] at inserting
  | complete still content => exact content
  | untouched asked unanswered => exact absurd unanswered answered

theorem still_insert {calls : OrdMap Nat (Phase ν)} {call : Nat} {next : Phase ν}
    (still : ∀ other phase, calls.get? other = some phase → phase.midway = false)
    (idle : next.midway = false) (other : Nat) (phase : Phase ν)
    (found : (calls.insert call next).get? other = some phase) : phase.midway = false := by
  rcases OrdMap.get?_insert_or found with old | rfl
  · exact still other phase old
  · exact idle

variable {rows : List (Row ν)}

theorem Content.ask {s : Shared ν} (content : Content table rows s)
    (empty : rows = [] → s.memStore.scan table = []) {call : Nat} (new : s.calls.get? call = none)
    (pool : List Endpoint) :
    Content table rows { s with
      pool := pool
      calls := s.calls.insert call (afterAsking rows) } := by
  cases content with
  | midway busy row rest inserting completes alone =>
    have apart : busy ≠ call := by
      rintro rfl
      rw [new] at inserting
      cases inserting
    refine .midway busy row rest ?_ completes fun other phase different found => ?_
    · rw [OrdMap.get?_insert, if_neg apart, inserting]
    · rcases OrdMap.get?_insert_or found with old | rfl
      · exact alone other phase different old
      · exact midway_afterAsking _
  | complete still content => exact .complete (still_insert still (midway_afterAsking _)) content
  | untouched asked unanswered =>
    cases rows with
    | nil =>
      refine .complete (still_insert (fun other phase found => ?_) rfl) (empty rfl)
      obtain ⟨row, rest, rfl⟩ := asked other phase found
      rfl
    | cons row rest =>
      refine .untouched (fun other phase found => ?_) unanswered
      rcases OrdMap.get?_insert_or found with old | rfl
      · exact asked other phase old
      · exact ⟨row, rest, rfl⟩

theorem Refreshed.ask {nodes : List StorageNode} {s : Shared ν} (kept : Refreshed P table nodes s)
    {call : Nat} (new : s.calls.get? call = none) {pool : List Endpoint}
    (scanned : StoragePool.scanAllRows P table (fun _ => ⟨true, .ok⟩) s.pool = (pool, some rows)) :
    Refreshed P table nodes { s with
      pool := pool
      calls := s.calls.insert call (afterAsking rows) } := by
  have somePool : s.pool ≠ [] := by
    intro none
    simp [StoragePool.scanAllRows, none] at scanned
  have rowsEq : rows = merged P nodes table := by
    have all := scanAllRows_merged P table somePool (fun _ => rfl)
    rw [scanned, kept.unchanged] at all
    exact Option.some.inj all
  have nodesEq := scanAllRows_nodes P table (fun _ => ⟨true, .ok⟩) s.pool
  rw [scanned, kept.unchanged] at nodesEq
  subst rowsEq
  refine ⟨nodesEq, ?_, kept.answers, kept.empty, kept.content.ask kept.empty new pool⟩
  intro other row rest found
  rcases OrdMap.get?_insert_or found with old | asked
  · exact kept.dropping other row rest old
  · cases all : merged P nodes table with
    | nil =>
      rw [all] at asked
      cases asked
    | cons first others =>
      rw [all] at asked
      cases asked
      rfl

section Advance

variable {nodes : List StorageNode} {s : Shared ν} (kept : Refreshed P table nodes s) {call : Nat}
include kept

variable {rest : List (Row ν)}

variable {row : Row ν}

theorem Refreshed.drop (found : s.calls.get? call = some (.dropping row rest))
    (still : ∀ other phase, s.calls.get? other = some phase → phase.midway = false) :
    Refreshed P table nodes (operate table s call (.dropping row rest)) := by
  have rows := kept.dropping call row rest found
  have empty : (s.memStore.dropTable table).scan table = [] := by
    rw [InMemoryStore.scan_dropTable, if_pos rfl]
  refine ⟨kept.unchanged, fun other row' rest' dropping => ?_, kept.answers, fun _ => empty, ?_⟩
  · simp only [operate, OrdMap.get?_insert] at dropping
    split at dropping
    · cases dropping
    · exact kept.dropping other row' rest' dropping
  · refine .midway call row rest ?_ ?_ fun other phase apart next => ?_
    · simp [operate, OrdMap.get?_insert]
    · rw [operate, empty, nil_append, rows]
    · simp only [operate, OrdMap.get?_insert, if_neg apart] at next
      exact still other phase next

theorem Refreshed.completes (found : s.calls.get? call = some (.inserting row rest)) :
    s.memStore.scan table ++ row :: rest = merged P nodes table ∧
      ∀ other phase, other ≠ call → s.calls.get? other = some phase → phase.midway = false := by
  cases kept.content with
  | midway busy row' rest' inserting completes alone =>
    by_cases same : busy = call
    · subst same
      rw [found] at inserting
      cases inserting
      exact ⟨completes, alone⟩
    · have idle := alone call _ (Ne.symm same) found
      cases idle
  | complete still content =>
    have idle := still call _ found
    cases idle
  | untouched asked unanswered =>
    obtain ⟨_, _, dropping⟩ := asked call _ found
    cases dropping

theorem Refreshed.insert (found : s.calls.get? call = some (.inserting row rest)) :
    Refreshed P table nodes (operate table s call (.inserting row rest)) := by
  obtain ⟨completes, alone⟩ := kept.completes found
  have scan : (s.memStore.insert table row).scan table = s.memStore.scan table ++ [row] := by
    rw [InMemoryStore.scan_insert, if_pos rfl]
  refine ⟨kept.unchanged, fun other row' rest' dropping => ?_, kept.answers, fun none => ?_, ?_⟩
  · simp only [operate, OrdMap.get?_insert] at dropping
    split at dropping
    · cases rest <;> cases dropping
    · exact kept.dropping other row' rest' dropping
  · rw [none] at completes
    simp at completes
  · cases rest with
    | nil =>
      refine .complete (fun other phase next => ?_) (scan.trans completes)
      simp only [operate, OrdMap.get?_insert] at next
      split at next
      · cases next
        rfl
      · rename_i apart
        exact alone other phase apart next
    | cons row' rest =>
      refine .midway call row' rest ?_ ?_ fun other phase apart next => ?_
      · simp [operate, OrdMap.get?_insert, afterInserting]
      · rw [operate, scan, append_assoc, singleton_append, completes]
      · simp only [operate, OrdMap.get?_insert, if_neg apart] at next
        exact alone other phase apart next

theorem Refreshed.evaluate (found : s.calls.get? call = some .evaluating)
    (still : ∀ other phase, s.calls.get? other = some phase → phase.midway = false) :
    Refreshed P table nodes (operate table s call .evaluating) := by
  have content : s.memStore.scan table = merged P nodes table := by
    cases kept.content with
    | midway busy row rest inserting completes alone =>
      have idle := still busy _ inserting
      cases idle
    | complete still content => exact content
    | untouched asked unanswered =>
      obtain ⟨_, _, dropping⟩ := asked call _ found
      cases dropping
  refine ⟨kept.unchanged, fun other row rest next => kept.dropping other row rest
      (OrdMap.get?_of_erase next), fun a member => ?_, kept.empty,
    .complete (fun other phase next => still other phase (OrdMap.get?_of_erase next)) content⟩
  rcases mem_append.mp member with old | new
  · exact kept.answers a old
  · rw [mem_singleton.mp new]
    exact content

end Advance

theorem refreshed_step (nodes : List StorageNode) (s : Shared ν) (a : Action) (t : Shared ν)
    (kept : Refreshed P table nodes s) (undisturbed : Undisturbed s a)
    (stepped : step P table s a = some t) : Refreshed P table nodes t := by
  cases a with
  | ask call =>
    simp only [step] at stepped
    split at stepped
    · rename_i new scanned
      cases stepped
      exact kept.ask new scanned
    · cases stepped
  | advance call =>
    obtain ⟨phase, found, rfl⟩ := Option.map_eq_some_iff.mp stepped
    cases phase with
    | dropping row rest => exact kept.drop found (undisturbed _ found rfl)
    | inserting row rest => exact kept.insert found
    | evaluating => exact kept.evaluate found (undisturbed _ found rfl)

variable (P table)

/-- Any number of calls, over any store and pool. -/
theorem isolated_of_undisturbed (memStore : InMemoryStore ν) (pool : List Endpoint) (acts : List Action)
    (clean : merged P (pool.map (·.node)) table = [] → memStore.scan table = [])
    (undisturbed : Run.EveryStep (step P table) Undisturbed (start memStore pool) acts) :
    Run.EveryState (step P table) (Isolated table (merged P (pool.map (·.node)) table))
      (start memStore pool) acts := by
  have begins : Refreshed P table (pool.map (·.node)) (start memStore pool) := by
    refine ⟨rfl, ?_, ?_, clean, .untouched ?_ rfl⟩
    · simp [start]
    · simp [start]
    · simp [start]
  exact (Run.everyState_of_everyStep (refreshed_step _) acts _ begins undisturbed).imp
    fun t kept => kept.isolated

theorem erase_insert_empty (call : Nat) (phase : Phase ν) :
    (OrdMap.empty.insert call phase).erase call = .empty := by
  apply OrdMap.ext_get?
  intro k
  rw [OrdMap.get?_erase, OrdMap.get?_insert]
  split <;> rfl

theorem exec_inserting (call : Nat) (row : Row ν) (rest : List (Row ν)) (memStore : InMemoryStore ν)
    (pool : List Endpoint) (answered : List (Nat × List (Row ν))) :
    Run.exec (step P table) ⟨memStore, pool, OrdMap.empty.insert call (.inserting row rest), answered⟩
        (List.replicate (rest.length + 2) (.advance call)) =
      some ⟨memStore.insertAll table (row :: rest), pool, .empty,
        answered ++ [(call, (memStore.insertAll table (row :: rest)).scan table)]⟩ := by
  induction rest generalizing row memStore with
  | nil =>
    simp [Run.exec, replicate, step, operate, OrdMap.get?_insert, OrdMap.insert_insert,
      afterInserting, erase_insert_empty, InMemoryStore.insertAll]
  | cons next rest ih =>
    rw [length_cons, show rest.length + 1 + 2 = (rest.length + 2) + 1 from rfl,
      replicate_succ, Run.exec]
    simp only [step, OrdMap.get?_insert, if_true, Option.map_some, Option.bind_some, operate,
      OrdMap.insert_insert, afterInserting]
    rw [ih]
    rfl

/-- A SELECT alone in the interleaving is the whole `execute_select`. -/
theorem exec_alone (call : Nat) (s : QueryNode ν) (nodes : s.pool ≠ [])
    (cn : Option (List (List (Row ν)))) :
    ∃ n, Run.exec (step P table) (start s.memStore s.pool)
      (.ask call :: List.replicate n (.advance call)) =
      let after := executeSelect P s [(table, fun _ => ⟨true, .ok⟩)] cn
      some ⟨after.memStore, after.pool, .empty, [(call, after.memStore.scan table)]⟩ := by
  have answers := scanAllRows_merged P table nodes (fun _ => rfl)
  generalize asked : StoragePool.scanAllRows P table (fun _ => ⟨true, .ok⟩) s.pool = answer at answers
  obtain ⟨pool, rows⟩ := answer
  have select : executeSelect P s [(table, fun _ => ⟨true, .ok⟩)] cn =
      { s with memStore := refresh s.memStore (table, rows.getD []), pool := pool } := by
    simp [executeSelect, nodes, scans, asked]
  cases found : merged P (s.pool.map (·.node)) table with
  | nil =>
    obtain rfl : rows = some [] := found ▸ answers
    refine ⟨1, ?_⟩
    rw [select]
    simp [Run.exec, step, start, asked, afterAsking, operate, OrdMap.get?_insert, erase_insert_empty,
      refresh]
  | cons row rest =>
    obtain rfl : rows = some (row :: rest) := found ▸ answers
    refine ⟨rest.length + 3, ?_⟩
    rw [select, replicate_succ]
    simp only [Run.exec, step, start, asked, OrdMap.get?_empty, Option.bind_some, afterAsking,
      OrdMap.get?_insert, if_true, Option.map_some, operate, OrdMap.insert_insert]
    exact exec_inserting P table call row rest _ pool []

theorem exec_alone_fresh : ∃ n, Run.exec (step integers "t") (start .new [⟨freshNode, true⟩])
      (.ask 0 :: List.replicate n (.advance 0)) =
    let after := executeSelect integers ⟨.new, [⟨freshNode, true⟩], []⟩ [("t", fun _ => ⟨true, .ok⟩)] none
    some ⟨after.memStore, after.pool, .empty, [(0, after.memStore.scan "t")]⟩ :=
  exec_alone integers "t" 0 ⟨.new, [⟨freshNode, true⟩], []⟩ (by simp) none

theorem node_with_row : ∃ node : StorageNode,
    StorageService.scanTablet integers node "t" = [oneText "x"] := by
  obtain ⟨node, -, scanned⟩ := scanTablet_after_write "x" (by decide +kernel) (by decide +kernel)
  exact ⟨node, scanned⟩

section TwoCalls

variable {node : StorageNode} (scanned : StorageService.scanTablet integers node "t" = [oneText "x"])
include scanned

theorem merged_single : merged integers [node] "t" = [oneText "x"] := by
  simp [merged, scanned]

theorem asked_single : StoragePool.scanAllRows integers "t" (fun _ => ⟨true, .ok⟩) [⟨node, true⟩] =
    ([⟨node, true⟩], some [oneText "x"]) := by
  simp [StoragePool.scanAllRows, StoragePool.visit, StoragePool.scanOne, StoragePool.ensureClient,
    scanned]

end TwoCalls

theorem overlapping_selects_isolated : ∃ node : StorageNode,
    merged integers [node] "t" = [oneText "x"] ∧
      Run.EveryState (step integers "t") (Isolated "t" (merged integers [node] "t"))
        (start .new [⟨node, true⟩])
        [.ask 0, .ask 1, .advance 0, .advance 0, .advance 0, .advance 1] := by
  obtain ⟨node, scanned⟩ := node_with_row
  refine ⟨node, merged_single scanned,
    isolated_of_undisturbed integers "t" .new [⟨node, true⟩] _ (fun _ => rfl) ?_⟩
  simp only [Run.EveryStep, step, start, asked_single scanned, afterAsking, afterInserting, operate,
    OrdMap.get?_empty, OrdMap.get?_insert, OrdMap.get?_erase, Undisturbed, Phase.midway,
    Option.some.injEq, Option.map_eq_some_iff, Option.ite_none_left_eq_some, forall_exists_index,
    and_imp, forall_eq', one_ne_zero, zero_ne_one, if_true, if_false, nil_append, and_true, true_and]
  grind

theorem overlapping_selects_duplicate : ∃ node : StorageNode,
    merged integers [node] "t" = [oneText "x"] ∧
      (Run.exec (step integers "t") (start .new [⟨node, true⟩])
        [.ask 0, .ask 1, .advance 0, .advance 1, .advance 0, .advance 1, .advance 0]).map (·.answered) =
          some [(0, [oneText "x", oneText "x"])] ∧
      ¬ Run.EveryState (step integers "t") (Isolated "t" (merged integers [node] "t"))
        (start .new [⟨node, true⟩])
        [.ask 0, .ask 1, .advance 0, .advance 1, .advance 0, .advance 1, .advance 0] := by
  obtain ⟨node, scanned⟩ := node_with_row
  have twice : (Run.exec (step integers "t") (start .new [⟨node, true⟩])
      [.ask 0, .ask 1, .advance 0, .advance 1, .advance 0, .advance 1, .advance 0]).map (·.answered) =
        some [(0, [oneText "x", oneText "x"])] := by
    simp [Run.exec, step, start, asked_single scanned, afterAsking, afterInserting, operate,
      OrdMap.get?_insert, InMemoryStore.scan_insert, InMemoryStore.scan_dropTable]
  refine ⟨node, merged_single scanned, twice, fun isolated => ?_⟩
  obtain ⟨t, reached, answered⟩ := Option.map_eq_some_iff.mp twice
  have same := (isolated _ t (prefix_refl _) reached).1 (0, [oneText "x", oneText "x"])
    (answered ▸ mem_singleton_self _)
  rw [merged_single scanned] at same
  cases same

end WowDb.System.ConcurrentSelects
