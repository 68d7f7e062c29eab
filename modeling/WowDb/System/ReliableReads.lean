import WowDb.Lib.Join
import WowDb.System.ReadYourWrites

/-!
# Reads on a reliable pool

When every node answers and every write fits, what was inserted is stored, and SELECT reads it.
-/
namespace WowDb.System.ReadYourWrites
open WowDb.Lib WowDb.Storage WowDb.Query List

variable {ν : Type} (P : Platform ν)

def textView (row : Row ν) : OrdMap String String := row.map (Value.plain P.numberText)

theorem textView_texts (row : Row ν) : textView P (StorageService.texts P row) = textView P row := by
  simp only [textView, StorageService.texts, OrdMap.map_map]
  rfl

def Sound (n : StorageNode) : Prop :=
  ∀ table, TabletWriter.Logged P.crc (n table) ∧ TabletWriter.ScansAll (n table)

def Fits (n : StorageNode) (table : String) (c : TabletWriter.Call) : Prop :=
  TabletWriter.FramedWrite P.order (n table) c ∧ TabletWriter.KeepsMemtable P.order (n table) c

def held (pool : List Endpoint) (table : String) : List (Row ν) :=
  pool.flatMap fun e => StorageService.stored e.node table

variable {table : String}

variable {c : TabletWriter.Call}

theorem sound_update {n : StorageNode} {tablet : TabletWriter.Tablet}
    (sound : Sound P n) (fits : Fits P n table c)
    (ok : TabletWriter.step P.order P.crc (n table) c = some tablet) :
    Sound P (Function.update n table tablet) := by
  intro other
  by_cases same : other = table
  · subst same
    obtain ⟨logged, all⟩ := sound other
    rw [Function.update_self]
    exact ⟨TabletWriter.step_logged P.order P.crc _ c tablet logged fits.1 ok,
      (TabletWriter.step_scansAll_iff P.order P.crc _ c tablet logged fits.1 all ok).mpr fits.2⟩
  · rw [Function.update_of_ne same]
    exact sound other

section Writes

variable (trip : ∀ rows, P.trip rows = some rows)
include trip

theorem writeRowsTo_spec {e : Endpoint} (table : String) (rows : List (Row ν))
    (sound : Sound P e.node) (fits : Fits P e.node table
      (.writeRows (StorageService.toWriteRows P rows))) :
    Sound P (StoragePool.writeRowsTo P table rows ⟨true, .ok⟩ e).1.node ∧
      ∀ other, StorageService.stored (StoragePool.writeRowsTo P table rows ⟨true, .ok⟩ e).1.node other =
        StorageService.stored e.node other ++
          if other = table then rows.map (StorageService.texts P) else [] := by
  unfold StoragePool.writeRowsTo
  by_cases empty : rows.isEmpty = true
  · rw [isEmpty_iff.mp empty]
    simpa using sound
  · obtain ⟨tablet, ok, written, stored⟩ := StorageService.writeRows_spec P trip e.node table rows
    simp only [empty, Bool.false_eq_true, if_false, StoragePool.ensureClient, Bool.or_true,
      Bool.not_true, written]
    refine ⟨sound_update P sound fits ok, fun other => ?_⟩
    by_cases same : other = table
    · subst same
      rw [if_pos rfl]
      exact stored
    · simp [StorageService.stored, same]

theorem visit_writes_spec (table : String) (part : Nat → List (Row ν)) (pool : List Endpoint)
    (idx : Nat) (sound : ∀ e ∈ pool, Sound P e.node)
    (fits : ∀ i e, pool[i]? = some e →
      Fits P e.node table (.writeRows (StorageService.toWriteRows P (part (idx + i))))) :
    let written := (StoragePool.visit
      (fun i => StoragePool.writeRowsTo P table (part i) ⟨true, .ok⟩) idx pool).map (·.1)
    (∀ e ∈ written, Sound P e.node) ∧ ∀ other, (held written other).Perm (held pool other ++
        if other = table then
          ((List.range' idx pool.length).flatMap part).map (StorageService.texts P) else []) := by
  induction pool generalizing idx with
  | nil => exact ⟨by simp [StoragePool.visit], by simp [StoragePool.visit, held]⟩
  | cons e rest ih =>
    obtain ⟨soundHead, storedHead⟩ := writeRowsTo_spec P trip table (part idx)
      (sound e (by simp)) (fits 0 e rfl)
    obtain ⟨soundRest, heldRest⟩ := ih (idx + 1) (fun e member => sound e (by simp [member]))
      (fun i e found => by
        have shifted := fits (i + 1) e found
        rwa [Nat.add_comm i 1, ← Nat.add_assoc] at shifted)
    refine ⟨?_, fun other => ?_⟩
    · intro f member
      simp only [StoragePool.visit, map_cons, mem_cons] at member
      rcases member with rfl | later
      · exact soundHead
      · exact soundRest f later
    · have after := heldRest other
      simp only [StoragePool.visit, map_cons, held, flatMap_cons, storedHead] at after ⊢
      refine (after.append_left _).trans ?_
      by_cases same : other = table
      · simp only [same, if_true, length_cons, range'_succ, flatMap_cons,
          map_append, append_assoc]
        refine List.Perm.append_left _ ?_
        rw [← append_assoc, ← append_assoc]
        exact perm_append_comm.append_right _
      · simp [same]

end Writes

def share (rows : List (Row ν)) (distCol : Option String) (n idx : Nat) : List (Row ν) :=
  match distCol with
  | some col => StoragePool.bucket P rows col n idx
  | none => if idx = 0 then rows else []

theorem visit_nothing (table : String) (attempts : Nat → Attempt WriteReply)
    (pool : List Endpoint) (idx : Nat) (part : Nat → List (Row ν))
      (nothing : ∀ i, idx ≤ i → part i = []) :
    (StoragePool.visit (fun i => StoragePool.writeRowsTo P table (part i) (attempts i)) idx
      pool).map (·.1) = pool := by
  induction pool generalizing idx with
  | nil => rfl
  | cons e rest ih =>
    simp only [StoragePool.visit, map_cons]
    rw [ih (idx + 1) fun i above => nothing i (by omega), nothing idx (Nat.le_refl idx)]
    rfl

theorem pool_executeInsert (s : QueryNode ν) (table : String) (rows : List (Row ν))
    (distCol : Option String) (attempts : Nat → Attempt WriteReply) :
    (executeInsert P s table rows distCol attempts).pool =
      (StoragePool.visit (fun i => StoragePool.writeRowsTo P table
        (share P rows distCol s.pool.length i) (attempts i)) 0 s.pool).map (·.1) := by
  unfold executeInsert
  cases pool : s.pool with
  | nil => cases distCol <;> rfl
  | cons e rest =>
    cases distCol with
    | some col => rfl
    | none =>
      simp only [StoragePool.writeRows, StoragePool.visit, map_cons]
      rw [visit_nothing P table attempts rest (0 + 1)
        (share P rows none (e :: rest).length) fun i above => if_neg (by omega)]
      rfl

theorem shares_perm (rows : List (Row ν)) (distCol : Option String) {n : Nat} (some : 0 < n) :
    ((List.range n).flatMap (share P rows distCol n)).Perm rows := by
  cases distCol with
  | some col =>
    have parts := flatMap_parts_perm (fun row => StoragePool.shardIndex P row col n) rows n
    have all : (rows.filter fun row => StoragePool.shardIndex P row col n < n) = rows :=
      filter_eq_self.mpr fun row _ => decide_eq_true (Nat.mod_lt _ some)
    rw [all] at parts
    exact parts
  | none =>
    obtain ⟨m, rfl⟩ := Nat.exists_eq_succ_of_ne_zero (Nat.ne_of_gt some)
    have nothing : ((range m).map Nat.succ).flatMap (share P rows none (m + 1)) = [] := by
      rw [flatMap_eq_nil_iff]
      simp [share]
    rw [range_succ_eq_map, flatMap_cons, nothing]
    simp [share]

def merged (nodes : List StorageNode) (table : String) : List (Row ν) :=
  nodes.flatMap fun n => StorageService.scanTablet P n table

theorem visit_rows (table : String) (attempts : Nat → Attempt ScanReply) (pool : List Endpoint)
    (idx : Nat) (answers : ∀ i, attempts i = ⟨true, .ok⟩) :
    (StoragePool.visit (fun i => StoragePool.scanOne P table (attempts i)) idx pool).flatMap (·.2) =
      merged P (pool.map (·.node)) table := by
  induction pool generalizing idx with
  | nil => rfl
  | cons e rest ih =>
    have rows := ih (idx + 1)
    simp only [StoragePool.visit, answers] at rows ⊢
    simp only [map_cons, flatMap_cons, rows, merged]
    simp [StoragePool.scanOne, StoragePool.ensureClient]

variable {pool : List Endpoint}

theorem scanAllRows_merged (table : String) {attempts : Nat → Attempt ScanReply}
    (some : pool ≠ []) (answers : ∀ i, attempts i = ⟨true, .ok⟩) :
    (StoragePool.scanAllRows P table attempts pool).2 =
      Option.some (merged P (pool.map (·.node)) table) := by
  rw [StoragePool.scanAllRows, if_neg (by simpa using some), ← visit_rows P table attempts pool 0 answers]

theorem scans_merged (froms : List From) (some : pool ≠ [])
    (answers : ∀ f ∈ froms, ∀ i, f.2 i = ⟨true, .ok⟩) :
    ∀ scan ∈ (scans P froms pool).1, scan.2 = merged P (pool.map (·.node)) scan.1 := by
  induction froms generalizing pool with
  | nil => simp [scans]
  | cons f rest ih =>
    obtain ⟨table, attempts⟩ := f
    have nodes := scanAllRows_nodes P table attempts pool
    have asked := scanAllRows_merged P table some (answers (table, attempts) (by simp))
    have still : (StoragePool.scanAllRows P table attempts pool).1 ≠ [] := by
      intro empty
      rw [empty] at nodes
      exact some (map_eq_nil_iff.mp nodes.symm)
    have scansRest := ih still fun f member => answers f (by simp [member])
    rw [nodes] at scansRest
    simp only [scans, asked]
    intro scan member
    rcases mem_cons.mp member with rfl | later
    · rfl
    · exact scansRest scan later

variable {rows : List (Row ν)}

theorem mem_of_lastMerged {done : List (String × List (Row ν))}
    (last : lastMerged table done = some rows) : (table, rows) ∈ done := by
  induction done with
  | nil => cases last
  | cons scan rest ih =>
    unfold lastMerged at last
    split at last
    · next found => exact mem_cons_of_mem _ (ih (found.trans last))
    · split at last
      · next here =>
        cases last
        rw [← here.1]
        exact mem_cons_self
      · cases last

structure Stored (s : QueryNode ν) : Prop where
  nodes : s.pool ≠ []
  sound : ∀ e ∈ s.pool, Sound P e.node
  holds : ∀ table, Contains (textView P) (held s.pool table) (s.insertedInto table)

/-- Every node answers, and every write fits the node that gets it. -/
def Reliable (s : QueryNode ν) : Action ν → Prop
  | .insert table rows distCol attempts =>
    (∀ i, attempts i = ⟨true, .ok⟩) ∧ ∀ i e, s.pool[i]? = some e → Fits P e.node table
        (.writeRows (StorageService.toWriteRows P (share P rows distCol s.pool.length i)))
  | .select froms _ => ∀ f ∈ froms, ∀ i, f.2 i = ⟨true, .ok⟩
  | .tablet idx table call => ∀ e, s.pool[idx]? = some e → Fits P e.node table call

variable {s : QueryNode ν}

theorem stored_insert (trip : ∀ rows, P.trip rows = some rows) (kept : Stored P s)
    {distCol : Option String} {attempts : Nat → Attempt WriteReply}
    (reliable : Reliable P s (.insert table rows distCol attempts)) :
    Stored P (executeInsert P s table rows distCol attempts) := by
  obtain ⟨answers, fits⟩ := reliable
  have pool := pool_executeInsert P s table rows distCol attempts
  simp only [answers] at pool
  obtain ⟨sound, holds⟩ := visit_writes_spec P trip table (share P rows distCol s.pool.length) s.pool 0
    kept.sound (by simpa using fits)
  have positive : 0 < s.pool.length := length_pos_iff.mpr kept.nodes
  refine ⟨?_, ?_, ?_⟩
  · rw [pool]
    cases entries : s.pool with
    | nil => exact absurd entries kept.nodes
    | cons e rest => simp [StoragePool.visit]
  · rw [pool]
    exact sound
  · intro other
    have before := kept.holds other
    have after := holds other
    rw [insertedInto_insert, pool]
    by_cases same : other = table
    · rw [if_pos same] at after ⊢
      rw [← range_eq_range'] at after
      have whole := (after.trans (((shares_perm P rows distCol positive).map _).append_left _)).map
        (textView P)
      have shown : (rows.map (StorageService.texts P)).map (textView P) = rows.map (textView P) := by
        simp [textView_texts]
      rw [map_append, shown] at whole
      rw [Contains, map_append]
      exact ((subperm_append_right _).mpr before).trans whole.symm.subperm
    · rw [if_neg same] at after ⊢
      rw [append_nil] at after
      exact before.trans (after.map _).symm.subperm

theorem held_of_nodes {other : List Endpoint} (same : other.map (·.node) = pool.map (·.node))
    (table : String) : (held other table : List (Row ν)) = held pool table := by
  have asNodes : ∀ l : List Endpoint, (held l table : List (Row ν)) =
      (l.map (·.node)).flatMap fun n => StorageService.stored n table := fun l => by
    rw [flatMap_map]
    rfl
  rw [asNodes, asNodes, same]

theorem merged_perm (trip : ∀ rows, P.trip rows = some rows) (sound : ∀ e ∈ pool, Sound P e.node)
    (table : String) : (merged P (pool.map (·.node)) table).Perm (held pool table) := by
  induction pool with
  | nil => exact List.Perm.refl _
  | cons e rest ih =>
    have head := StorageService.scanTablet_perm P trip (sound e (by simp) table).2
    have tail := ih fun f member => sound f (by simp [member])
    simp only [merged, held, map_cons, flatMap_cons] at tail ⊢
    exact head.append tail

theorem stored_select (kept : Stored P s) (froms : List From) (cn : Option (List (List (Row ν)))) :
    Stored P (executeSelect P s froms cn) := by
  have nodes := scans_nodes P froms s.pool
  have pool : (executeSelect P s froms cn).pool = (scans P froms s.pool).2 := by
    simp only [executeSelect, List.isEmpty_iff, kept.nodes, if_false]
  have inserted : ∀ table, (executeSelect P s froms cn).insertedInto table = s.insertedInto table := by
    intro table
    simp only [executeSelect, List.isEmpty_iff, kept.nodes, if_false, QueryNode.insertedInto]
  refine ⟨?_, ?_, ?_⟩
  · intro empty
    rw [pool] at empty
    rw [empty] at nodes
    exact kept.nodes (List.map_eq_nil_iff.mp nodes.symm)
  · intro e member
    rw [pool] at member
    have known : e.node ∈ s.pool.map (·.node) := nodes ▸ List.mem_map_of_mem member
    obtain ⟨f, inPool, same⟩ := List.mem_map.mp known
    exact same ▸ kept.sound f inPool
  · intro table
    rw [pool, inserted, held_of_nodes nodes]
    exact kept.holds table

theorem answeredInFull_of_stored (trip : ∀ rows, P.trip rows = some rows) (kept : Stored P s)
    (a : Action ν) (reliable : Reliable P s a) : AnsweredInFull P (textView P) s a := by
  cases a with
  | select froms cn =>
    have asked := scans_merged P froms kept.nodes reliable
    simp only [AnsweredInFull, List.isEmpty_iff, kept.nodes, if_false]
    intro table rows last
    have all : rows = merged P (s.pool.map (·.node)) table := asked _ (mem_of_lastMerged last)
    have whole := merged_perm P trip kept.sound table
    rw [all]
    exact (kept.holds table).trans (whole.map _).symm.subperm
  | insert _ _ _ _ => trivial
  | tablet _ _ _ => trivial

theorem written_step {s t : TabletWriter.Tablet}
    (ok : TabletWriter.step P.order P.crc s c = some t) : s.written.Sublist t.written := by
  cases c with
  | writeRows rows =>
    cases ok
    exact sublist_append_left _ _
  | startFlush i =>
    obtain ⟨-, -, written, -⟩ := TabletWriter.startFlush_frame P.order P.crc ok
    rw [written]
  | finishFlush i result =>
    obtain ⟨-, -, written, -⟩ := TabletWriter.finishFlush_frame P.order P.crc ok
    rw [written]
  | _ =>
    cases ok
    exact List.Sublist.refl _

theorem held_set {idx : Nat} {e f : Endpoint} (found : pool[idx]? = some e) (table : String)
    (grows : (StorageService.stored e.node table : List (Row ν)).Sublist
      (StorageService.stored f.node table)) :
    (held pool table : List (Row ν)).Sublist (held (pool.set idx f) table) := by
  induction pool generalizing idx with
  | nil => cases found
  | cons g rest ih =>
    cases idx with
    | zero =>
      cases found
      exact grows.append (List.Sublist.refl _)
    | succ idx => exact (List.Sublist.refl _).append (ih found)

theorem stored_tablet {t : QueryNode ν} (kept : Stored P s) {idx : Nat} {call : TabletWriter.Call}
    (reliable : Reliable P s (.tablet idx table call))
    (ok : step P s (.tablet idx table call) = some t) : Stored P t := by
  simp only [step, bind, Option.bind_eq_some_iff, Option.some.injEq] at ok
  obtain ⟨e, found, tablet, called, rfl⟩ := ok
  have soundHere := kept.sound e (mem_of_getElem? found)
  refine ⟨?_, ?_, ?_⟩
  · simpa using kept.nodes
  · intro f member
    rcases mem_or_eq_of_mem_set member with old | rfl
    · exact kept.sound f old
    · exact sound_update P soundHere (reliable e found) called
  · intro other
    have grows : (StorageService.stored e.node other : List (Row ν)).Sublist
        (StorageService.stored (Function.update e.node table tablet) other) := by
      by_cases same : other = table
      · subst same
        simp only [StorageService.stored, Function.update_self]
        exact (written_step P called).map _
      · simp [StorageService.stored, same]
    exact (kept.holds other).trans ((held_set found other grows).map _).subperm

/-- Behind reliable calls every row of an INSERT is stored and read. -/
theorem reads_of_reliable (trip : ∀ rows, P.trip rows = some rows) (nodes : pool ≠ [])
    (sound : ∀ e ∈ pool, Sound P e.node) (acts : List (Action ν))
    (reliable : Run.EveryStep (step P) (Reliable P) (start pool) acts) :
    Run.EveryState (step P) (fun s => Stored P s ∧ Reads (textView P) s) (start pool) acts := by
  refine Run.everyState_of_everyStep ?_ acts (start pool) ⟨⟨nodes, sound, ?_⟩, ?_⟩ reliable
  · rintro s a t ⟨kept, reads⟩ reliable ok
    have full := answeredInFull_of_stored P trip kept a reliable
    refine ⟨?_, (step_reads_iff P (textView P) s a t reads ok).mpr full⟩
    cases a with
    | insert table rows distCol attempts =>
      cases ok
      exact stored_insert P trip kept reliable
    | select froms cn =>
      cases ok
      exact stored_select P kept froms cn
    | tablet idx table call => exact stored_tablet P kept reliable ok
  · intro table
    exact (nil_sublist _).subperm
  · intro table
    exact List.Subperm.refl _

theorem reads_after_insert : Run.EveryState (step integers)
    (fun s => Stored integers s ∧ Reads (textView integers) s) (start [⟨freshNode, true⟩])
    [.insert "t" [oneText "x"] none fun _ => ⟨true, .ok⟩, .select [("t", fun _ => ⟨true, .ok⟩)] none] := by
  refine reads_of_reliable integers (fun _ => rfl) (by simp) ?_ _ ?_
  · simp only [mem_singleton, forall_eq]
    exact fun table => ⟨TabletWriter.fresh_logged .ascending Crc32.crc32 table,
      TabletWriter.fresh_scansAll .ascending Crc32.crc32 table⟩
  · refine fun _ _ => ⟨⟨fun _ => rfl, ?_⟩, fun _ _ => ⟨by simp [Reliable], trivial⟩⟩
    rintro (_ | i) e found
    · cases found
      exact ⟨by decide +kernel, by decide +kernel⟩
    · cases found

end WowDb.System.ReadYourWrites
