import WowDb.Compute.Funnel
import WowDb.Lib.Granules

/-!
# Cohorts

`compute-node/src/executor/analytics/cohort.rs`.
-/
namespace WowDb.Compute
open WowDb.Lib List

inductive PeriodUnit where
  | day | week | month
  deriving DecidableEq

def PeriodUnit.periodOf (unit : PeriodUnit) (ts : Int64) : Int :=
  match unit with
  | day => ts.toInt.tdiv 86400
  | week => ts.toInt.tdiv (86400 * 7)
  | month => ts.toInt.tdiv (86400 * 30)

structure CohortDef where
  entryEvent : String
  returnEvent : String
  periodUnit : PeriodUnit
  maxPeriods : UInt64
  deriving DecidableEq

structure CohortRow where
  cohortPeriod : Int
  cohortSize : Nat
  periods : List Nat
  deriving DecidableEq

structure CohortExecutor (cohort : CohortDef) where
  entryPeriods : OrdMap Bytes Int
  retention : OrdMap (Int ×ₗ Nat) (Finset Bytes)

def periodDelta (current entry : Int) : Nat := ((current - entry) % 2 ^ 64).toNat

def dedupAdjacent : List Int → List Int
  | [] => []
  | [a] => [a]
  | a :: b :: rest => if a = b then dedupAdjacent (b :: rest) else a :: dedupAdjacent (b :: rest)

namespace CohortExecutor

variable {cohort : CohortDef}

def new (cohort : CohortDef) : CohortExecutor cohort := ⟨.empty, .empty⟩

def recordEntry (ex : CohortExecutor cohort) (event : EventRecord) : CohortExecutor cohort :=
  if event.eventName = cohort.entryEvent then
    { ex with entryPeriods :=
        ex.entryPeriods.upsert event.userKey (cohort.periodUnit.periodOf event.eventTime) id }
  else ex

def recordReturn (ex : CohortExecutor cohort) (event : EventRecord) : CohortExecutor cohort :=
  if event.eventName = cohort.returnEvent then
    match ex.entryPeriods.get? event.userKey with
    | some entryPeriod =>
      let delta := periodDelta (cohort.periodUnit.periodOf event.eventTime) entryPeriod
      if delta ≤ cohort.maxPeriods.toNat then
        { ex with retention :=
            ex.retention.upsert (toLex (entryPeriod, delta)) ∅ (insert event.userKey) }
      else ex
    | none => ex
  else ex

def processEvents (ex : CohortExecutor cohort) (events : List EventRecord) :
    CohortExecutor cohort :=
  events.foldl (fun ex event => (ex.recordEntry event).recordReturn event) ex

def cohortPeriods (ex : CohortExecutor cohort) : List Int :=
  dedupAdjacent ((ex.entryPeriods.entries.map Prod.snd).insertionSort (· ≤ ·))

def cohortSizes (ex : CohortExecutor cohort) : OrdMap Int Nat :=
  (ex.entryPeriods.entries.map Prod.snd).foldl (fun sizes period => sizes.upsert period 0 (· + 1))
    .empty

def writePeriod (ex : CohortExecutor cohort) (cp : Int) (periods : List Nat) (delta : Nat) :
    Option (List Nat) :=
  match ex.retention.get? (toLex (cp, delta)) with
  | some users => if delta < periods.length then some (periods.set delta users.card) else none
  | none => some periods

def buildRow (ex : CohortExecutor cohort) (cp : Int) : Option CohortRow :=
  let size := (ex.cohortSizes.get? cp).getD 0
  let room := (cohort.maxPeriods + 1).toNat
  if room < 2 ^ 60 then
    ((range (cohort.maxPeriods.toNat + 1)).foldlM (ex.writePeriod cp)
      (replicate room 0)).map fun periods => ⟨cp, size, periods⟩
  else none

def buildResult (ex : CohortExecutor cohort) : Option (List CohortRow) :=
  ex.cohortPeriods.mapM ex.buildRow

def run (ex : CohortExecutor cohort) (calls : List (List EventRecord)) : CohortExecutor cohort :=
  calls.foldl processEvents ex

theorem run_eq_processEvents (ex : CohortExecutor cohort) (calls : List (List EventRecord)) :
    ex.run calls = ex.processEvents calls.flatten := by
  rw [processEvents, foldl_flatten]
  rfl

end CohortExecutor

namespace CohortDef

variable (cohort : CohortDef)

def IsEntry (user : Bytes) (event : EventRecord) : Prop :=
  event.eventName = cohort.entryEvent ∧ event.userKey = user

instance (user : Bytes) (event : EventRecord) : Decidable (cohort.IsEntry user event) :=
  inferInstanceAs (Decidable (_ ∧ _))

def IsReturn (user : Bytes) (event : EventRecord) : Prop :=
  event.eventName = cohort.returnEvent ∧ event.userKey = user

def period (event : EventRecord) : Int := cohort.periodUnit.periodOf event.eventTime

def cohortOf (given : List EventRecord) (user : Bytes) : Option Int :=
  (given.find? fun event => decide (cohort.IsEntry user event)).map cohort.period

def Returned (given : List EventRecord) (entry : Int) (delta : Nat) (user : Bytes) : Prop :=
  ∃ before event, before ++ [event] <+: given ∧ cohort.IsReturn user event ∧
    cohort.cohortOf (before ++ [event]) user = some entry ∧
    periodDelta (cohort.period event) entry = delta ∧ delta ≤ cohort.maxPeriods.toNat

variable {cohort}

variable (given : List EventRecord)

theorem cohortOf_concat (event : EventRecord) (user : Bytes) :
    cohort.cohortOf (given ++ [event]) user = (cohort.cohortOf given user).or
        (if cohort.IsEntry user event then some (cohort.period event) else none) := by
  rw [cohortOf, cohortOf, find?_append]
  cases given.find? fun event => decide (cohort.IsEntry user event) with
  | some first => rfl
  | none =>
    by_cases entry : cohort.IsEntry user event <;> simp [entry]

theorem cohortOf_of_front {before given : List EventRecord} {user : Bytes} {entry : Int}
    (front : before <+: given) (known : cohort.cohortOf before user = some entry) :
    cohort.cohortOf given user = some entry := by
  obtain ⟨rest, rfl⟩ := front
  rw [cohortOf, Option.map_eq_some_iff] at known ⊢
  obtain ⟨first, found, same⟩ := known
  refine ⟨first, ?_, same⟩
  rw [find?_append, found, Option.some_or]

theorem exists_entry_of_cohortOf {given : List EventRecord} {user : Bytes} {entry : Int}
    (known : cohort.cohortOf given user = some entry) :
    ∃ event ∈ given, cohort.IsEntry user event ∧ cohort.period event = entry := by
  rw [cohortOf, Option.map_eq_some_iff] at known
  obtain ⟨first, found, same⟩ := known
  have entry := find?_some found
  exact ⟨first, mem_of_find?_eq_some found, of_decide_eq_true entry, same⟩

theorem isSome_cohortOf (user : Bytes) :
    (cohort.cohortOf given user).isSome = true ↔ ∃ event ∈ given, cohort.IsEntry user event := by
  simp [cohortOf]

theorem returned_concat (event : EventRecord) (entry : Int) (delta : Nat) (user : Bytes) :
    cohort.Returned (given ++ [event]) entry delta user ↔ cohort.Returned given entry delta user ∨
        (cohort.IsReturn user event ∧ cohort.cohortOf (given ++ [event]) user = some entry ∧
          periodDelta (cohort.period event) entry = delta ∧ delta ≤ cohort.maxPeriods.toNat) := by
  constructor
  · rintro ⟨before, r, front, returns⟩
    rcases prefix_concat_iff.1 front with same | front
    · obtain ⟨rfl, last⟩ := append_inj' same rfl
      obtain rfl : r = event := by simpa using last
      exact .inr returns
    · exact .inl ⟨before, r, front, returns⟩
  · rintro (⟨before, r, front, returns⟩ | returns)
    · exact ⟨before, r, front.trans (prefix_append _ _), returns⟩
    · exact ⟨given, event, prefix_rfl, returns⟩

end CohortDef

namespace CohortExecutor

variable {cohort : CohortDef}

structure Describes (given : List EventRecord) (ex : CohortExecutor cohort) : Prop where
  entry : ∀ user, ex.entryPeriods.get? user = cohort.cohortOf given user
  retained : ∀ entry delta user, user ∈ (ex.retention.get? (toLex (entry, delta))).getD ∅ ↔
    cohort.Returned given entry delta user
  used : ∀ key users, ex.retention.get? key = some users → users ≠ ∅

theorem describes_new : Describes [] (new cohort) where
  entry user := rfl
  retained entry delta user := by
    simp [new, OrdMap.get?, OrdMap.empty, CohortDef.Returned]
  used key users found := by simp [new, OrdMap.get?, OrdMap.empty] at found

theorem get?_recordEntry (ex : CohortExecutor cohort) (event : EventRecord) (user : Bytes) :
    (ex.recordEntry event).entryPeriods.get? user = (ex.entryPeriods.get? user).or
        (if cohort.IsEntry user event then some (cohort.period event) else none) := by
  rw [recordEntry]
  simp only [CohortDef.IsEntry]
  by_cases named : event.eventName = cohort.entryEvent
  · rw [if_pos named, OrdMap.get?_upsert]
    by_cases own : user = event.userKey
    · subst own
      cases known : ex.entryPeriods.get? event.userKey <;> simp [named, CohortDef.period]
    · have other : event.userKey ≠ user := fun same => own same.symm
      simp [own, other]
  · simp [named]

theorem retention_recordEntry (ex : CohortExecutor cohort) (event : EventRecord) :
    (ex.recordEntry event).retention = ex.retention := by
  rw [recordEntry]
  split <;> rfl

theorem entryPeriods_recordReturn (ex : CohortExecutor cohort) (event : EventRecord) :
    (ex.recordReturn event).entryPeriods = ex.entryPeriods := by
  rw [recordReturn]
  by_cases named : event.eventName = cohort.returnEvent
  · rw [if_pos named]
    cases ex.entryPeriods.get? event.userKey with
    | none => rfl
    | some entryPeriod =>
      dsimp only
      split <;> rfl
  · rw [if_neg named]

theorem get?_recordReturn (ex : CohortExecutor cohort) (event : EventRecord) (entry : Int)
    (delta : Nat) :
    (ex.recordReturn event).retention.get? (toLex (entry, delta)) =
      if event.eventName = cohort.returnEvent ∧ ex.entryPeriods.get? event.userKey = some entry ∧
        periodDelta (cohort.period event) entry = delta ∧ delta ≤ cohort.maxPeriods.toNat then
        some (insert event.userKey ((ex.retention.get? (toLex (entry, delta))).getD ∅))
      else ex.retention.get? (toLex (entry, delta)) := by
  rw [recordReturn]
  by_cases named : event.eventName = cohort.returnEvent
  · rw [if_pos named]
    cases known : ex.entryPeriods.get? event.userKey with
    | none => simp
    | some entryPeriod =>
      by_cases fits : periodDelta (cohort.period event) entryPeriod ≤ cohort.maxPeriods.toNat
      · dsimp only
        rw [← CohortDef.period, if_pos fits, OrdMap.get?_upsert]
        by_cases same : toLex (entry, delta) =
            toLex (entryPeriod, periodDelta (cohort.period event) entryPeriod)
        · obtain ⟨rfl, rfl⟩ := Prod.mk.inj (toLex_inj.1 same)
          simp [named, fits]
        · rw [if_neg same, if_neg]
          rintro ⟨-, known, rfl, -⟩
          exact same (by rw [Option.some.inj known])
      · dsimp only
        rw [← CohortDef.period, if_neg fits, if_neg]
        rintro ⟨-, known, rfl, inside⟩
        exact fits (Option.some.inj known ▸ inside)
  · rw [if_neg named, if_neg fun both => named both.1]

variable {ex : CohortExecutor cohort}

variable {given : List EventRecord}

theorem Describes.processEvent (describes : Describes given ex) (event : EventRecord) :
    Describes (given ++ [event]) ((ex.recordEntry event).recordReturn event) := by
  have known : ∀ user, (ex.recordEntry event).entryPeriods.get? user =
      cohort.cohortOf (given ++ [event]) user := by
    intro user
    rw [get?_recordEntry, describes.entry, CohortDef.cohortOf_concat]
  constructor
  · intro user
    rw [entryPeriods_recordReturn, known]
  · intro entry delta user
    rw [get?_recordReturn, known, retention_recordEntry, CohortDef.returned_concat,
      ← describes.retained]
    split
    · next added =>
      rw [Option.getD_some, Finset.mem_insert, or_comm]
      refine or_congr_right ⟨?_, ?_⟩
      · rintro rfl
        exact ⟨⟨added.1, rfl⟩, added.2⟩
      · intro returns
        exact returns.1.2.symm
    · next unchanged =>
      refine (or_iff_left ?_).symm
      rintro ⟨returns, entered, when⟩
      exact unchanged ⟨returns.1, returns.2 ▸ entered, when⟩
  · intro key users found
    have key_eq : key = toLex ((ofLex key).1, (ofLex key).2) := rfl
    rw [key_eq, get?_recordReturn] at found
    split at found
    · obtain rfl := Option.some.inj found
      exact Finset.insert_ne_empty _ _
    · rw [retention_recordEntry] at found
      exact describes.used _ _ found

theorem describes_run (calls : List (List EventRecord)) :
    Describes calls.flatten ((new cohort).run calls) := by
  rw [run_eq_processEvents]
  exact Granules.foldl_keeps (fun ex given => Describes given ex)
    (fun _ _ event describes => describes.processEvent event) describes_new calls.flatten

theorem mem_dedupAdjacent {xs : List Int} {x : Int} : x ∈ dedupAdjacent xs ↔ x ∈ xs := by
  fun_induction dedupAdjacent xs with
  | case1 => rfl
  | case2 a => rfl
  | case3 a rest ih => simp [ih]
  | case4 a b rest differ ih => rw [mem_cons, ih, ← mem_cons]

theorem nodup_dedupAdjacent {xs : List Int} (sorted : xs.Pairwise (· ≤ ·)) :
    (dedupAdjacent xs).Nodup := by
  fun_induction dedupAdjacent xs with
  | case1 => exact nodup_nil
  | case2 a => exact nodup_singleton a
  | case3 a rest ih => exact ih sorted.of_cons
  | case4 a b rest differ ih =>
    refine nodup_cons.2 ⟨?_, ih sorted.of_cons⟩
    rw [mem_dedupAdjacent]
    intro again
    have below := pairwise_cons.1 sorted
    have above := pairwise_cons.1 below.2
    rcases mem_cons.1 again with same | later
    · exact differ same
    · exact differ (le_antisymm (below.1 b mem_cons_self) (above.1 a later))

theorem mem_cohortPeriods (ex : CohortExecutor cohort) (cp : Int) :
    cp ∈ ex.cohortPeriods ↔ ∃ user, ex.entryPeriods.get? user = some cp := by
  rw [cohortPeriods, mem_dedupAdjacent, mem_insertionSort, mem_map]
  constructor
  · rintro ⟨e, listed, rfl⟩
    exact ⟨e.1, (OrdMap.mem_entries_iff _ e.1 e.2).1 listed⟩
  · rintro ⟨user, found⟩
    exact ⟨(user, cp), (OrdMap.mem_entries_iff _ user cp).2 found, rfl⟩

theorem nodup_cohortPeriods (ex : CohortExecutor cohort) : ex.cohortPeriods.Nodup :=
  nodup_dedupAdjacent (pairwise_insertionSort _ _)

def members (ex : CohortExecutor cohort) (cp : Int) : Nat :=
  (ex.entryPeriods.entries.map Prod.snd).count cp

theorem getD_cohortSizes (ex : CohortExecutor cohort) (cp : Int) :
    (ex.cohortSizes.get? cp).getD 0 = ex.members cp := by
  have counted := OrdMap.getD_foldl_count id (ex.entryPeriods.entries.map Prod.snd) .empty cp
  rw [cohortSizes, members, count_eq_length_filter]
  simpa [Bool.beq_eq_decide_eq] using counted

def retainedCount (ex : CohortExecutor cohort) (cp : Int) (delta : Nat) : Nat :=
  ((ex.retention.get? (toLex (cp, delta))).getD ∅).card

theorem foldlM_writePeriod (ex : CohortExecutor cohort) (cp : Int) (n rest : Nat) :
    (range n).foldlM (ex.writePeriod cp) (replicate (n + rest) 0) =
      some ((range n).map (ex.retainedCount cp) ++ replicate rest 0) := by
  induction n generalizing rest with
  | zero => simp
  | succ n ih =>
    have before := ih (rest + 1)
    rw [← Nat.add_assoc, Nat.add_right_comm] at before
    rw [range_succ, foldlM_append, before, map_append]
    simp only [foldlM_cons, foldlM_nil, Option.bind_eq_bind, Option.bind_some,
      Option.pure_def, replicate_succ, writePeriod]
    cases found : ex.retention.get? (toLex (cp, n)) with
    | none => simp [retainedCount, found]
    | some users => simp [retainedCount, found]

theorem foldlM_writePeriod_nil (ex : CohortExecutor cohort) (cp : Int) (n : Nat)
    (periods : List Nat) :
    (range n).foldlM (ex.writePeriod cp) [] = some periods ↔
      periods = [] ∧ ∀ delta < n, ex.retention.get? (toLex (cp, delta)) = none := by
  induction n generalizing periods with
  | zero => simp [eq_comm]
  | succ n ih =>
    rw [range_succ, foldlM_append, Option.bind_eq_bind, Option.bind_eq_some_iff]
    simp only [ih, foldlM_cons, foldlM_nil, Option.bind_eq_bind, Option.pure_def,
      Option.bind_fun_some, Nat.forall_lt_succ_right]
    constructor
    · rintro ⟨_, ⟨rfl, before⟩, last⟩
      rw [writePeriod] at last
      cases found : ex.retention.get? (toLex (cp, n)) with
      | none =>
        rw [found] at last
        exact ⟨(Option.some.inj last).symm, before, rfl⟩
      | some users => simp [found] at last
    · rintro ⟨rfl, before, last⟩
      exact ⟨[], ⟨rfl, before⟩, by rw [writePeriod, last]⟩

theorem buildRow_of_room (ex : CohortExecutor cohort) (cp : Int)
    (room : cohort.maxPeriods.toNat + 1 < 2 ^ 60) :
    ex.buildRow cp = some ⟨cp, ex.members cp,
      (range (cohort.maxPeriods.toNat + 1)).map (ex.retainedCount cp)⟩ := by
  have noWrap : (cohort.maxPeriods + 1).toNat = cohort.maxPeriods.toNat + 1 := by
    rw [UInt64.toNat_add, UInt64.toNat_one]
    omega
  have filled := ex.foldlM_writePeriod cp (cohort.maxPeriods.toNat + 1) 0
  rw [Nat.add_zero, replicate_zero, append_nil] at filled
  rw [buildRow, noWrap, if_pos room, filled, getD_cohortSizes]
  rfl

theorem buildRow_of_no_room (ex : CohortExecutor cohort) (cp : Int)
    (large : 2 ^ 60 ≤ cohort.maxPeriods.toNat + 1) (noWrap : cohort.maxPeriods.toNat + 1 < 2 ^ 64) :
    ex.buildRow cp = none := by
  have room : ¬ (cohort.maxPeriods + 1).toNat < 2 ^ 60 := by
    rw [UInt64.toNat_add, UInt64.toNat_one]
    omega
  rw [buildRow, if_neg room]

theorem buildRow_of_wrap (ex : CohortExecutor cohort) (cp : Int)
    (wraps : cohort.maxPeriods.toNat + 1 = 2 ^ 64) (row : CohortRow) :
    ex.buildRow cp = some row ↔ row = ⟨cp, ex.members cp, []⟩ ∧
      ∀ delta ≤ cohort.maxPeriods.toNat, ex.retention.get? (toLex (cp, delta)) = none := by
  have zero : (cohort.maxPeriods + 1).toNat = 0 := by
    rw [UInt64.toNat_add, UInt64.toNat_one]
    omega
  rw [buildRow, zero, if_pos (by decide), Option.map_eq_some_iff]
  simp only [replicate_zero, foldlM_writePeriod_nil, getD_cohortSizes, Nat.lt_succ_iff]
  constructor
  · rintro ⟨_, ⟨rfl, unused⟩, rfl⟩
    exact ⟨rfl, unused⟩
  · rintro ⟨rfl, unused⟩
    exact ⟨[], ⟨rfl, unused⟩, rfl⟩

variable {row : CohortRow}

theorem buildRow_cases {cp : Int} (built : ex.buildRow cp = some row) :
    (cohort.maxPeriods.toNat + 1 < 2 ^ 60 ∧ row = ⟨cp, ex.members cp,
      (range (cohort.maxPeriods.toNat + 1)).map (ex.retainedCount cp)⟩) ∨
    (cohort.maxPeriods.toNat + 1 = 2 ^ 64 ∧ row = ⟨cp, ex.members cp, []⟩ ∧
      ∀ delta ≤ cohort.maxPeriods.toNat, ex.retention.get? (toLex (cp, delta)) = none) := by
  have bound := cohort.maxPeriods.toNat_lt
  by_cases room : cohort.maxPeriods.toNat + 1 < 2 ^ 60
  · rw [buildRow_of_room ex cp room, Option.some.injEq] at built
    exact .inl ⟨room, built.symm⟩
  · by_cases wraps : cohort.maxPeriods.toNat + 1 = 2 ^ 64
    · exact .inr ⟨wraps, (buildRow_of_wrap ex cp wraps row).1 built⟩
    · rw [buildRow_of_no_room ex cp (by omega) (by omega)] at built
      exact absurd built (by simp)

theorem fields_of_buildRow {cp : Int} (built : ex.buildRow cp = some row) :
    row.cohortPeriod = cp ∧ row.cohortSize = ex.members cp ∧
      ∀ count ∈ row.periods, ∃ delta, count = ex.retainedCount cp delta := by
  rcases buildRow_cases built with ⟨-, rfl⟩ | ⟨-, rfl, -⟩
  · refine ⟨rfl, rfl, ?_⟩
    intro count listed
    obtain ⟨delta, -, rfl⟩ := mem_map.1 listed
    exact ⟨delta, rfl⟩
  · exact ⟨rfl, rfl, by simp⟩

variable {rows : List CohortRow}

theorem buildResult_eq_some_iff : ex.buildResult = some rows ↔
      List.Forall₂ (fun cp row => ex.buildRow cp = some row) ex.cohortPeriods rows :=
  Granules.mapM_eq_some_iff

theorem buildResult_of_room (ex : CohortExecutor cohort)
    (room : cohort.maxPeriods.toNat + 1 < 2 ^ 60) :
    ex.buildResult = some (ex.cohortPeriods.map fun cp => ⟨cp, ex.members cp,
      (range (cohort.maxPeriods.toNat + 1)).map (ex.retainedCount cp)⟩) := by
  rw [buildResult_eq_some_iff, forall₂_map_right_iff]
  exact forall₂_same.2 fun cp _ => buildRow_of_room ex cp room

theorem map_eq_of_forall₂ {α β γ : Type} {f : α → γ} {g : β → γ} {xs : List α} {ys : List β}
    (each : List.Forall₂ (fun x y => g y = f x) xs ys) : ys.map g = xs.map f := by
  induction each with
  | nil => rfl
  | cons head _ ih => rw [map_cons, map_cons, head, ih]

variable (built : ex.buildResult = some rows)

include built

theorem map_cohortPeriod : rows.map (·.cohortPeriod) = ex.cohortPeriods := by
  have each := (buildResult_eq_some_iff.1 built).imp fun _ _ row => (fields_of_buildRow row).1
  exact (map_eq_of_forall₂ each).trans (map_id _)

theorem map_cohortSize : rows.map (·.cohortSize) = ex.cohortPeriods.map ex.members :=
  map_eq_of_forall₂
    ((buildResult_eq_some_iff.1 built).imp fun _ _ row => (fields_of_buildRow row).2.1)

theorem buildRow_of_mem (here : row ∈ rows) : ex.buildRow row.cohortPeriod = some row := by
  have each := buildResult_eq_some_iff.1 built
  clear built
  generalize ex.cohortPeriods = periods at each
  induction each with
  | nil => exact absurd here not_mem_nil
  | cons head _ ih =>
    rcases mem_cons.1 here with rfl | later
    · rwa [(fields_of_buildRow head).1]
    · exact ih later

omit built

theorem Describes.retainedCount_le (describes : Describes given ex) (cp : Int) (delta : Nat) :
    ex.retainedCount cp delta ≤ ex.members cp := by
  have inside : (ex.retention.get? (toLex (cp, delta))).getD ∅ ⊆
      ((ex.entryPeriods.entries.filter (·.2 = cp)).map Prod.fst).toFinset := by
    intro user retained
    obtain ⟨before, event, front, -, known, -⟩ := (describes.retained cp delta user).1 retained
    have member := CohortDef.cohortOf_of_front front known
    rw [← describes.entry, ← OrdMap.mem_entries_iff] at member
    rw [mem_toFinset]
    exact mem_map.2 ⟨(user, cp), mem_filter.2 ⟨member, decide_eq_true rfl⟩, rfl⟩
  calc ex.retainedCount cp delta
      ≤ ((ex.entryPeriods.entries.filter (·.2 = cp)).map Prod.fst).toFinset.card :=
        Finset.card_le_card inside
    _ ≤ ((ex.entryPeriods.entries.filter (·.2 = cp)).map Prod.fst).length :=
        toFinset_card_le _
    _ = ex.members cp := by
        rw [length_map, members, count, countP_map, countP_eq_length_filter]
        rfl

theorem sum_members (ex : CohortExecutor cohort) :
    (ex.cohortPeriods.map ex.members).sum = ex.entryPeriods.entries.length := by
  have same : ex.cohortPeriods.Perm (ex.entryPeriods.entries.map Prod.snd).dedup := by
    apply (perm_ext_iff_of_nodup ex.nodup_cohortPeriods (nodup_dedup _)).2
    intro cp
    rw [cohortPeriods, mem_dedupAdjacent, mem_insertionSort, mem_dedup]
  rw [(same.map ex.members).sum_eq]
  exact (sum_map_count_dedup_eq_length _).trans (length_map _)

def enteredUsers (cohort : CohortDef) (events : List EventRecord) : List Bytes :=
  ((events.filter (·.eventName = cohort.entryEvent)).map (·.userKey)).dedup

theorem Describes.length_entries (describes : Describes given ex) :
    ex.entryPeriods.entries.length = (enteredUsers cohort given).length := by
  have same : (ex.entryPeriods.entries.map Prod.fst).Perm (enteredUsers cohort given) := by
    apply (perm_ext_iff_of_nodup ex.entryPeriods.nodup_keys (nodup_dedup _)).2
    intro user
    rw [OrdMap.mem_keys_iff, describes.entry, CohortDef.isSome_cohortOf, mem_dedup]
    simp only [mem_map, mem_filter, decide_eq_true_iff, CohortDef.IsEntry, and_assoc]
  rw [← same.length_eq, length_map]

/-- Counts are at most their cohort's size, and the sizes add up. -/
theorem table_consistent (cohort : CohortDef) (calls : List (List EventRecord)) :
    (cohort.maxPeriods.toNat + 1 < 2 ^ 60 → ∃ rows, ((new cohort).run calls).buildResult = some rows) ∧
    ∀ rows, ((new cohort).run calls).buildResult = some rows →
      (∀ row ∈ rows, ∀ count ∈ row.periods, count ≤ row.cohortSize) ∧
      (rows.map (·.cohortPeriod)).Nodup ∧
      (rows.map (·.cohortSize)).sum = (enteredUsers cohort calls.flatten).length := by
  have describes : Describes calls.flatten ((new cohort).run calls) := describes_run calls
  generalize (new cohort).run calls = ex at describes
  refine ⟨?_, ?_⟩
  · intro room
    exact ⟨_, buildResult_of_room ex room⟩
  · intro rows built
    refine ⟨?_, ?_, ?_⟩
    · intro row here count listed
      obtain ⟨-, size, counts⟩ := fields_of_buildRow (buildRow_of_mem built here)
      obtain ⟨delta, rfl⟩ := counts count listed
      rw [size]
      exact describes.retainedCount_le _ delta
    · rw [map_cohortPeriod built]
      exact ex.nodup_cohortPeriods
    · rw [map_cohortSize built, sum_members, describes.length_entries]

def signup : CohortDef := ⟨"signup", "login", .day, 2⟩

def signupCalls : List (List EventRecord) :=
  [[⟨[1], "signup", 10⟩, ⟨[2], "signup", 20⟩], [⟨[1], "login", 86500⟩]]

theorem signup_table_consistent :
    ((new signup).run signupCalls).buildResult = some [⟨0, 2, [0, 1, 0]⟩] ∧
      ∀ row ∈ [(⟨0, 2, [0, 1, 0]⟩ : CohortRow)], ∀ count ∈ row.periods, count ≤ row.cohortSize := by
  have built : ((new signup).run signupCalls).buildResult = some [⟨0, 2, [0, 1, 0]⟩] := by
    decide +kernel
  exact ⟨built, ((table_consistent signup signupCalls).2 _ built).1⟩

end CohortExecutor

namespace CohortDef

variable {cohort : CohortDef}

def Earliest (cohort : CohortDef) (events : List EventRecord) (user : Bytes) (e : EventRecord) :
    Prop :=
  e ∈ events ∧ cohort.IsEntry user e ∧
    ∀ f ∈ events, cohort.IsEntry user f → e.eventTime ≤ f.eventTime

structure OrderFree (cohort : CohortDef) (events : List EventRecord) : Prop where
  /-- A row can be built, if there is one. -/
  builds : (∀ e ∈ events, e.eventName ≠ cohort.entryEvent) ∨ cohort.maxPeriods.toNat + 1 < 2 ^ 60 ∨
    cohort.maxPeriods.toNat + 1 = 2 ^ 64 ∧ cohort.entryEvent ≠ cohort.returnEvent
  /-- All entries of a user are in one period. -/
  onePeriod : ∀ user, ∀ e ∈ events, ∀ f ∈ events, cohort.IsEntry user e → cohort.IsEntry user f →
    cohort.period e = cohort.period f
  /-- No user that enters returns in a period that is counted. -/
  noReturn : cohort.entryEvent ≠ cohort.returnEvent → ∀ user, ∀ e ∈ events, ∀ f ∈ events,
    cohort.IsEntry user e → cohort.IsReturn user f →
    cohort.maxPeriods.toNat < periodDelta (cohort.period f) (cohort.period e)

theorem OrderFree.of_perm {events other : List EventRecord} (free : cohort.OrderFree events)
    (same : other.Perm events) : cohort.OrderFree other where
  builds := free.builds.imp_left fun none e here => none e (same.mem_iff.1 here)
  onePeriod user e inE f inF := free.onePeriod user e (same.mem_iff.1 inE) f (same.mem_iff.1 inF)
  noReturn differ user e inE f inF :=
    free.noReturn differ user e (same.mem_iff.1 inE) f (same.mem_iff.1 inF)

theorem exists_earliest {events : List EventRecord} {user : Bytes} {e : EventRecord}
    (here : e ∈ events) (entry : cohort.IsEntry user e) : ∃ g, cohort.Earliest events user g := by
  have listed : e ∈ events.filter fun e => decide (cohort.IsEntry user e) :=
    mem_filter.2 ⟨here, decide_eq_true entry⟩
  cases least : (events.filter fun e => decide (cohort.IsEntry user e)).argmin
      (fun e => e.eventTime.toInt) with
  | none =>
    rw [argmin_eq_none] at least
    rw [least] at listed
    exact absurd listed not_mem_nil
  | some g =>
    have member := mem_filter.1 (argmin_mem least)
    refine ⟨g, member.1, of_decide_eq_true member.2, ?_⟩
    intro f inF entryF
    have listedF : f ∈ events.filter fun e => decide (cohort.IsEntry user e) :=
      mem_filter.2 ⟨inF, decide_eq_true entryF⟩
    rw [Int64.le_iff_toInt_le]
    exact le_of_mem_argmin (f := fun e : EventRecord => e.eventTime.toInt) listedF least

variable {given : List EventRecord}

theorem cohortOf_of_onePeriod {user : Bytes} {entry : Int}
    (one : ∀ e ∈ given, ∀ f ∈ given, cohort.IsEntry user e → cohort.IsEntry user f →
      cohort.period e = cohort.period f) :
    cohort.cohortOf given user = some entry ↔
      ∃ e ∈ given, cohort.IsEntry user e ∧ cohort.period e = entry := by
  constructor
  · exact exists_entry_of_cohortOf
  · rintro ⟨e, here, entered, rfl⟩
    obtain ⟨p, known⟩ := Option.isSome_iff_exists.1 ((isSome_cohortOf given user).2 ⟨e, here, entered⟩)
    obtain ⟨f, inF, enteredF, rfl⟩ := exists_entry_of_cohortOf known
    rw [known, one f inF e here enteredF entered]

theorem periodDelta_lt (current entry : Int) : periodDelta current entry < 2 ^ 64 := by
  rw [periodDelta]
  omega

theorem periodDelta_self (p : Int) : periodDelta p p = 0 := by simp [periodDelta]

theorem OrderFree.returned_iff (free : cohort.OrderFree given)
    (entry : Int) (delta : Nat) (user : Bytes) :
    cohort.Returned given entry delta user ↔ cohort.entryEvent = cohort.returnEvent ∧ delta = 0 ∧
        ∃ e ∈ given, cohort.IsEntry user e ∧ cohort.period e = entry := by
  constructor
  · rintro ⟨before, r, front, returns, known, when, counted⟩
    have here : r ∈ given := front.subset (by simp)
    obtain ⟨e, inE, entered, rfl⟩ := exists_entry_of_cohortOf (cohortOf_of_front front known)
    by_cases same : cohort.entryEvent = cohort.returnEvent
    · have enteredR : cohort.IsEntry user r := ⟨same ▸ returns.1, returns.2⟩
      have period := free.onePeriod user r here e inE enteredR entered
      rw [period, periodDelta_self] at when
      exact ⟨same, when.symm, e, inE, entered, rfl⟩
    · have late := free.noReturn same user e inE r here entered returns
      omega
  · rintro ⟨same, rfl, e, inE, entered, rfl⟩
    obtain ⟨before, after, rfl⟩ := append_of_mem inE
    have front : before ++ [e] <+: before ++ e :: after := by simp
    refine ⟨before, e, front, ⟨same ▸ entered.1, entered.2⟩, ?_, periodDelta_self _, Nat.zero_le _⟩
    rw [cohortOf_of_onePeriod fun a inA b inB =>
      free.onePeriod user a (front.subset inA) b (front.subset inB)]
    exact ⟨e, by simp, entered, rfl⟩

end CohortDef

namespace CohortExecutor

variable {cohort : CohortDef}

variable {ex : CohortExecutor cohort}

variable {ex' : CohortExecutor cohort}

theorem Describes.unique {given other : List EventRecord}
    (describes : Describes given ex) (describes' : Describes other ex')
    (free : cohort.OrderFree given) (same : other.Perm given) : ex = ex' := by
  have free' := free.of_perm same
  have entries : ex.entryPeriods = ex'.entryPeriods := by
    apply OrdMap.ext_get?
    intro user
    rw [describes.entry, describes'.entry]
    ext p
    rw [CohortDef.cohortOf_of_onePeriod (free.onePeriod user),
      CohortDef.cohortOf_of_onePeriod (free'.onePeriod user)]
    simp only [same.mem_iff]
  have retained : ∀ key, (ex.retention.get? key).getD ∅ = (ex'.retention.get? key).getD ∅ := by
    intro key
    ext user
    have key_eq : key = toLex ((ofLex key).1, (ofLex key).2) := rfl
    rw [key_eq, describes.retained, describes'.retained, free.returned_iff, free'.returned_iff]
    simp only [same.mem_iff]
  have retention : ex.retention = ex'.retention := by
    apply OrdMap.ext_get?
    intro key
    have equal := retained key
    have used := describes.used key
    have used' := describes'.used key
    cases found : ex.retention.get? key <;> cases found' : ex'.retention.get? key <;> simp_all
  cases ex
  cases ex'
  simp_all

variable {given : List EventRecord}

theorem Describes.exists_buildResult (describes : Describes given ex)
    (free : cohort.OrderFree given) : ∃ rows, ex.buildResult = some rows := by
  rcases free.builds with none | room | ⟨wraps, differ⟩
  · have empty : ex.cohortPeriods = [] := by
      rw [eq_nil_iff_forall_not_mem]
      intro cp member
      obtain ⟨user, known⟩ := (mem_cohortPeriods ex cp).1 member
      rw [describes.entry] at known
      obtain ⟨e, here, entered, -⟩ := CohortDef.exists_entry_of_cohortOf known
      exact none e here entered.1
    exact ⟨[], by rw [buildResult_eq_some_iff, empty]; exact .nil⟩
  · exact ⟨_, buildResult_of_room ex room⟩
  · -- nothing is taken down, so nothing has to be written to the empty rows
    have unused : ∀ cp delta, ex.retention.get? (toLex (cp, delta)) = Option.none := by
      intro cp delta
      cases found : ex.retention.get? (toLex (cp, delta)) with
      | none => rfl
      | some users =>
        obtain ⟨user, member⟩ := Finset.nonempty_iff_ne_empty.2 (describes.used _ _ found)
        have returned := (describes.retained cp delta user).1 (by rw [found]; exact member)
        exact absurd ((free.returned_iff cp delta user).1 returned).1 differ
    refine ⟨ex.cohortPeriods.map fun cp => ⟨cp, ex.members cp, []⟩, ?_⟩
    rw [buildResult_eq_some_iff, forall₂_map_right_iff]
    exact forall₂_same.2 fun cp _ =>
      (buildRow_of_wrap ex cp wraps _).2 ⟨rfl, fun delta _ => unused cp delta⟩

theorem row_of_mem {rows : List CohortRow} (built : ex.buildResult = some rows) {cp : Int}
    (member : cp ∈ ex.cohortPeriods) :
    ∃ row ∈ rows, row.cohortPeriod = cp ∧ ex.buildRow cp = some row := by
  rw [← map_cohortPeriod built] at member
  obtain ⟨row, here, rfl⟩ := mem_map.1 member
  exact ⟨row, here, rfl, buildRow_of_mem built here⟩

theorem retainedCount_of_buildRow {cp : Int} {row : CohortRow} (built : ex.buildRow cp = some row)
    {delta : Nat} (counted : delta ≤ cohort.maxPeriods.toNat) :
    ex.retainedCount cp delta = row.periods.getD delta 0 := by
  rcases buildRow_cases built with ⟨-, rfl⟩ | ⟨-, rfl, unused⟩
  · have inside : delta < cohort.maxPeriods.toNat + 1 := by omega
    simp [getD, inside]
  · rw [retainedCount, unused delta counted]
    rfl

theorem retainedCount_eq {rows : List CohortRow}
    (built : ex.buildResult = some rows) (built' : ex'.buildResult = some rows) {cp : Int}
    (member : cp ∈ ex.cohortPeriods) {delta : Nat} (counted : delta ≤ cohort.maxPeriods.toNat) :
    ex.retainedCount cp delta = ex'.retainedCount cp delta := by
  obtain ⟨row, here, rfl, own⟩ := row_of_mem built member
  rw [retainedCount_of_buildRow own counted,
    retainedCount_of_buildRow (buildRow_of_mem built' here) counted]

theorem Describes.mem_cohortPeriods (describes : Describes given ex)
    {user : Bytes} {entry : Int} (known : cohort.cohortOf given user = some entry) :
    entry ∈ ex.cohortPeriods :=
  (CohortExecutor.mem_cohortPeriods ex entry).2 ⟨user, by rw [describes.entry, known]⟩

theorem Describes.retainedCount_pos_iff
    (describes : Describes given ex) (entry : Int) (delta : Nat) :
    0 < ex.retainedCount entry delta ↔ ∃ user, cohort.Returned given entry delta user := by
  rw [retainedCount, Finset.card_pos]
  exact exists_congr (describes.retained entry delta)

theorem describes_single (cohort : CohortDef) (events : List EventRecord) :
    Describes events ((new cohort).run [events]) := by
  simpa using (describes_run [events] : Describes _ ((new cohort).run [events]))

end CohortExecutor

namespace CohortDef

variable (cohort : CohortDef)

def entries (events : List EventRecord) : List EventRecord :=
  events.filter fun e => decide (e.eventName = cohort.entryEvent)

def others (events : List EventRecord) : List EventRecord :=
  events.filter fun e => !decide (e.eventName = cohort.entryEvent)

variable {cohort}

theorem mem_entries {events : List EventRecord} {e : EventRecord} :
    e ∈ cohort.entries events ↔ e ∈ events ∧ e.eventName = cohort.entryEvent := by
  simp [entries]

theorem mem_others {events : List EventRecord} {e : EventRecord} :
    e ∈ cohort.others events ↔ e ∈ events ∧ e.eventName ≠ cohort.entryEvent := by
  simp [others]

theorem entries_append_others (cohort : CohortDef) (events : List EventRecord) :
    (cohort.entries events ++ cohort.others events).Perm events :=
  filter_append_perm _ events

end CohortDef

namespace CohortExecutor

variable {cohort : CohortDef}

theorem not_returned_late_entries {events : List EventRecord}
    (differ : cohort.entryEvent ≠ cohort.returnEvent) (entry : Int) (delta : Nat) (user : Bytes) :
    ¬ cohort.Returned (cohort.others events ++ cohort.entries events) entry delta user := by
  rintro ⟨before, r, ⟨after, split⟩, returns, known, -⟩
  obtain ⟨e, inE, entered, -⟩ := CohortDef.exists_entry_of_cohortOf known
  rcases append_eq_append_iff.1 split with ⟨rest, others, -⟩ | ⟨rest, front, entries⟩
  · -- an entry among the others
    have member := others ▸ mem_append_left rest inE
    exact (CohortDef.mem_others.1 member).2 entered.1
  · rcases eq_nil_or_concat' rest with rfl | ⟨rest, last, rfl⟩
    · rw [append_nil] at front
      have member := front ▸ inE
      exact (CohortDef.mem_others.1 member).2 entered.1
    · -- the return is among the entries
      rw [← append_assoc] at front
      obtain rfl : r = last := by simpa using (append_inj' front rfl).2
      have member : r ∈ cohort.entries events := by
        rw [entries]
        simp
      exact differ ((CohortDef.mem_entries.1 member).2.symm.trans returns.1)

variable {f : EventRecord}

theorem returned_early_entries {events : List EventRecord} {user : Bytes} {e : EventRecord}
    (one : ∀ e ∈ events, ∀ f ∈ events, cohort.IsEntry user e → cohort.IsEntry user f →
      cohort.period e = cohort.period f)
    (differ : cohort.entryEvent ≠ cohort.returnEvent) (inE : e ∈ events) (inF : f ∈ events)
    (entered : cohort.IsEntry user e) (returns : cohort.IsReturn user f)
    (counted : periodDelta (cohort.period f) (cohort.period e) ≤ cohort.maxPeriods.toNat) :
    cohort.Returned (cohort.entries events ++ cohort.others events) (cohort.period e)
      (periodDelta (cohort.period f) (cohort.period e)) user := by
  have other : f.eventName ≠ cohort.entryEvent := fun same => differ (same.symm.trans returns.1)
  have listedE : e ∈ cohort.entries events := CohortDef.mem_entries.2 ⟨inE, entered.1⟩
  have listedF : f ∈ cohort.others events := CohortDef.mem_others.2 ⟨inF, other⟩
  obtain ⟨before, after, split⟩ := append_of_mem listedF
  refine ⟨cohort.entries events ++ before, f, ?_, returns, ?_, rfl, counted⟩
  · rw [split]
    exact ⟨after, by simp⟩
  · have inside : ∀ g ∈ cohort.entries events ++ before ++ [f], g ∈ events := by
      intro g member
      rw [append_assoc] at member
      rcases mem_append.1 member with first | second
      · exact (CohortDef.mem_entries.1 first).1
      · have listed : g ∈ cohort.others events := by
          rw [split, append_cons]
          exact mem_append_left _ second
        exact (CohortDef.mem_others.1 listed).1
    rw [CohortDef.cohortOf_of_onePeriod fun a inA b inB => one a (inside a inA) b (inside b inB)]
    exact ⟨e, mem_append_left _ (mem_append_left _ listedE), entered, rfl⟩

section Needed

variable {events : List EventRecord} {rows : List CohortRow}
  (same : ∀ calls : List (List EventRecord), calls.flatten.Perm events →
    ((new cohort).run calls).buildResult = some rows ∧
    ∀ user e, cohort.Earliest events user e →
      ((new cohort).run calls).entryPeriods.get? user = some (cohort.period e))

include same

theorem onePeriod_of_same {user : Bytes} {e : EventRecord} (inE : e ∈ events) (inF : f ∈ events)
    (enteredE : cohort.IsEntry user e) (enteredF : cohort.IsEntry user f) :
    cohort.period e = cohort.period f := by
  obtain ⟨g, earliest⟩ := CohortDef.exists_earliest inE enteredE
  -- the cohort is the period of whichever entry is processed first
  have first : ∀ h ∈ events, cohort.IsEntry user h → cohort.period h = cohort.period g := by
    intro h inH enteredH
    have cohortG := (same [h :: events.erase h] (by simpa using (perm_cons_erase inH).symm)).2
      user g earliest
    have held := (describes_single cohort (h :: events.erase h)).entry user
    rw [cohortG] at held
    simpa [CohortDef.cohortOf, enteredH] using held.symm
  rw [first e inE enteredE, first f inF enteredF]

theorem noReturn_of_same (differ : cohort.entryEvent ≠ cohort.returnEvent) {user : Bytes}
    {e : EventRecord} (inE : e ∈ events) (inF : f ∈ events) (entered : cohort.IsEntry user e)
    (returns : cohort.IsReturn user f) :
    cohort.maxPeriods.toNat < periodDelta (cohort.period f) (cohort.period e) := by
  by_contra counted
  rw [not_lt] at counted
  have entriesFirst := CohortDef.entries_append_others cohort events
  have returned := returned_early_entries (fun a inA b inB => onePeriod_of_same same inA inB) differ
    inE inF entered returns counted
  have early := describes_single cohort (cohort.entries events ++ cohort.others events)
  have late := describes_single cohort (cohort.others events ++ cohort.entries events)
  have builtEarly := (same [_] (by simpa using entriesFirst)).1
  have builtLate := (same [_] (by simpa using perm_append_comm.trans entriesFirst)).1
  obtain ⟨before, r, front, -, known, -⟩ := id returned
  have equal := retainedCount_eq builtEarly builtLate
    (early.mem_cohortPeriods (CohortDef.cohortOf_of_front front known)) counted
  have positive := (early.retainedCount_pos_iff _ _).2 ⟨user, returned⟩
  rw [equal, late.retainedCount_pos_iff] at positive
  obtain ⟨user, returned⟩ := positive
  exact not_returned_late_entries differ _ _ user returned

theorem builds_of_same : (∀ e ∈ events, e.eventName ≠ cohort.entryEvent) ∨
    cohort.maxPeriods.toNat + 1 < 2 ^ 60 ∨
    cohort.maxPeriods.toNat + 1 = 2 ^ 64 ∧ cohort.entryEvent ≠ cohort.returnEvent := by
  by_cases none : ∀ e ∈ events, e.eventName ≠ cohort.entryEvent
  · exact .inl none
  · simp only [ne_eq, not_forall, not_not] at none
    obtain ⟨e, inE, named⟩ := none
    have entered : cohort.IsEntry e.userKey e := ⟨named, rfl⟩
    have describes := describes_single cohort events
    have built := (same [events] (by simp)).1
    obtain ⟨before, after, split⟩ := append_of_mem inE
    have front : before ++ [e] <+: events := ⟨after, by simp [split]⟩
    obtain ⟨p, known⟩ := Option.isSome_iff_exists.1
      ((CohortDef.isSome_cohortOf (before ++ [e]) e.userKey).2 ⟨e, by simp, entered⟩)
    obtain ⟨row, -, -, own⟩ := row_of_mem built
      (describes.mem_cohortPeriods (CohortDef.cohortOf_of_front front known))
    rcases buildRow_cases own with ⟨room, -⟩ | ⟨wraps, -, unused⟩
    · exact .inr (.inl room)
    · refine .inr (.inr ⟨wraps, ?_⟩)
      intro equal
      -- the entry is a return too, and the row has no room for it
      have small := CohortDef.periodDelta_lt (cohort.period e) p
      have returned : cohort.Returned events p (periodDelta (cohort.period e) p) e.userKey :=
        ⟨before, e, front, ⟨equal ▸ named, rfl⟩, known, rfl, by omega⟩
      have member := (describes.retained _ _ _).2 returned
      rw [unused _ (by omega)] at member
      simp at member

end Needed

/-- One table for every order of events, exactly if no order is seen. -/
theorem result_order_independent_iff (cohort : CohortDef) (events : List EventRecord) :
    (∃ rows, ∀ calls : List (List EventRecord), calls.flatten.Perm events →
      ((new cohort).run calls).buildResult = some rows ∧
      ∀ user e, cohort.Earliest events user e →
        ((new cohort).run calls).entryPeriods.get? user = some (cohort.period e)) ↔
    cohort.OrderFree events := by
  constructor
  · rintro ⟨rows, same⟩
    exact {
      builds := builds_of_same same
      onePeriod := fun user e inE f inF => onePeriod_of_same same inE inF
      noReturn := fun differ user e inE f inF => noReturn_of_same same differ inE inF }
  · intro free
    have describes := describes_single cohort events
    obtain ⟨rows, built⟩ := describes.exists_buildResult free
    refine ⟨rows, ?_⟩
    intro calls same
    have equal := describes.unique (describes_run calls) free same
    rw [← equal]
    refine ⟨built, ?_⟩
    rintro user e ⟨inE, entered, -⟩
    rw [describes.entry, CohortDef.cohortOf_of_onePeriod (free.onePeriod user)]
    exact ⟨e, inE, entered, rfl⟩

theorem result_depends_on_order :
    ((new signup).run [[⟨[1], "signup", 0⟩, ⟨[1], "login", 90000⟩]]).buildResult =
      some [⟨0, 1, [0, 1, 0]⟩] ∧
    ((new signup).run [[⟨[1], "login", 90000⟩, ⟨[1], "signup", 0⟩]]).buildResult =
      some [⟨0, 1, [0, 0, 0]⟩] ∧
    ((new signup).run [[⟨[1], "signup", 90000⟩, ⟨[1], "signup", 0⟩]]).buildResult =
      some [⟨1, 1, [0, 0, 0]⟩] := by
  decide +kernel

end CohortExecutor
end WowDb.Compute
