import WowDb.Query.Datetime
import WowDb.Query.SelectTransparent

/-!
# Events of users

The part that FUNNEL_COUNT and COHORT_ANALYSIS of `query-node/src/executor/analytics_exec.rs` have
in common, after their arguments are parsed: rows of the scanned table become events, grouped by
user and sorted by time.
-/
namespace WowDb.Query.Analytics
open WowDb.Lib List

variable {ν φ : Type} (H : Host ν φ)

structure EventColumns where
  userKey : String := "user_id"
  eventCol : String := "event_name"
  timeCol : String := "event_time"

def rowStr (row : Row ν) (col : String) : String :=
  match row.get? col with
  | some (.string s) => s
  | some other => String.ofList (Text.trimMatches '"' (Eval.jsonText H other).toList)
  | none => ""

abbrev Event := Int64 × String

variable (C : EventColumns)

def readEvent (row : Row ν) : Option Event :=
  (parseDatetime (rowStr H row C.timeCol).toList).map fun ts =>
    (ts.getD 0, rowStr H row C.eventCol)

def addEvent (events : OrdMap String (List Event)) (row : Row ν) :
    Option (OrdMap String (List Event)) :=
  (readEvent H C row).map fun event =>
    if (rowStr H row C.userKey).isEmpty then events
    else events.push (rowStr H row C.userKey) event

def sortByTime (events : List Event) : List Event := events.insertionSort fun a b => a.1 ≤ b.1

def userEvents (rows : List (Row ν)) : Option (OrdMap String (List Event)) :=
  (rows.foldlM (addEvent H C) .empty).map (OrdMap.map sortByTime)

theorem sortByTime_perm (events : List Event) : (sortByTime events).Perm events :=
  perm_insertionSort _ events

theorem pairwise_sortByTime (events : List Event) :
    (sortByTime events).Pairwise fun a b => a.1 ≤ b.1 := by
  have : Std.Total fun a b : Event => a.1 ≤ b.1 := ⟨fun a b => le_total a.1 b.1⟩
  have : IsTrans Event fun a b => a.1 ≤ b.1 := ⟨fun _ _ _ => le_trans⟩
  exact pairwise_insertionSort _ events

def Readable (rows : List (Row ν)) : Prop := ∀ row ∈ rows, (readEvent H C row).isSome = true

instance (rows : List (Row ν)) : Decidable (Readable H C rows) :=
  inferInstanceAs (Decidable (∀ row ∈ rows, _))

def eventOf (row : Row ν) : Event := (readEvent H C row).getD (0, "")

def eventsOf (rows : List (Row ν)) (user : String) : List Event :=
  (rows.filter fun row => rowStr H row C.userKey = user).map (eventOf H C)

def IsUser (rows : List (Row ν)) (user : String) : Prop :=
  user ≠ "" ∧ ∃ row ∈ rows, rowStr H row C.userKey = user

variable {H C}

theorem finite_isUser (rows : List (Row ν)) : {user | IsUser H C rows user}.Finite := by
  refine (rows.map fun row => rowStr H row C.userKey).finite_toSet.subset ?_
  rintro user ⟨-, row, member, rfl⟩
  exact mem_map.mpr ⟨row, member, rfl⟩

theorem foldlM_addEvent (rows : List (Row ν)) (m : OrdMap String (List Event)) :
    rows.foldlM (addEvent H C) m = if Readable H C rows then
        some ((rows.filter fun row => rowStr H row C.userKey ≠ "").foldl
          (fun m row => m.push (rowStr H row C.userKey) (eventOf H C row)) m) else none := by
  induction rows generalizing m with
  | nil => simp [Readable]
  | cons row rest ih =>
    rw [foldlM_cons, addEvent]
    cases read : readEvent H C row with
    | none =>
      have unreadable : ¬ Readable H C (row :: rest) := fun all => by
        have here := all row mem_cons_self
        rw [read] at here
        cases here
      rw [if_neg unreadable]
      rfl
    | some event =>
      have tail : Readable H C (row :: rest) ↔ Readable H C rest := by
        simp [Readable, read]
      have same : eventOf H C row = event := by
        rw [eventOf, read]
        rfl
      simp only [Option.map_some, Option.bind_eq_bind, Option.bind_some, ih, tail]
      by_cases nameless : rowStr H row C.userKey = ""
      · simp [nameless]
      · simp [nameless, same]

variable {rows : List (Row ν)}

theorem userEvents_eq_none (unreadable : ¬ Readable H C rows) : userEvents H C rows = none := by
  rw [userEvents, foldlM_addEvent, if_neg unreadable]
  rfl

theorem userEvents_eq_some (readable : Readable H C rows) :
    ∃ m, userEvents H C rows = some m ∧ ∀ user events, m.get? user = some events ↔
      IsUser H C rows user ∧ events = sortByTime (eventsOf H C rows user) := by
  refine ⟨_, by rw [userEvents, foldlM_addEvent, if_pos readable, Option.map_some],
    fun user events => ?_⟩
  rw [OrdMap.get?_map, Option.map_eq_some_iff]
  simp only [OrdMap.get?_foldl_push, filter_filter]
  have named : (∃ row ∈ rows.filter fun row => rowStr H row C.userKey ≠ "",
      rowStr H row C.userKey = user) ↔ IsUser H C rows user := by
    constructor
    · rintro ⟨row, member, rfl⟩
      obtain ⟨inRows, name⟩ := mem_filter.mp member
      exact ⟨of_decide_eq_true name, row, inRows, rfl⟩
    · rintro ⟨name, row, inRows, rfl⟩
      exact ⟨row, mem_filter.mpr ⟨inRows, decide_eq_true name⟩, rfl⟩
  have own (name : user ≠ "") : (rows.filter fun row =>
      decide (rowStr H row C.userKey = user) && decide (rowStr H row C.userKey ≠ "")) =
      rows.filter fun row => rowStr H row C.userKey = user := by
    refine filter_congr fun row _ => ?_
    by_cases same : rowStr H row C.userKey = user
    · simp [same, name]
    · simp [same]
  rw [named]
  constructor
  · rintro ⟨_, ⟨isUser, rfl⟩, rfl⟩
    rw [own isUser.1]
    exact ⟨isUser, rfl⟩
  · rintro ⟨isUser, rfl⟩
    refine ⟨_, ⟨isUser, rfl⟩, ?_⟩
    rw [own isUser.1]
    rfl

theorem countP_users {m : OrdMap String (List Event)}
    (grouped : ∀ user events, m.get? user = some events ↔ IsUser H C rows user ∧ events = sortByTime
      (eventsOf H C rows user)) (p : List Event → Bool) :
    (m.entries.countP fun e => p e.2) =
      {user | IsUser H C rows user ∧ p (sortByTime (eventsOf H C rows user)) = true}.ncard := by
  have distinct : ((m.entries.filter fun e => p e.2).map Prod.fst).Nodup :=
    m.nodup_keys.sublist (filter_sublist.map _)
  have members : {user | IsUser H C rows user ∧ p (sortByTime (eventsOf H C rows user)) = true} =
      ((m.entries.filter fun e => p e.2).map Prod.fst).toFinset := by
    ext user
    simp only [Set.mem_ofPred_eq, coe_toFinset, mem_map, mem_filter, Prod.exists,
      OrdMap.mem_entries_iff, grouped]
    constructor
    · rintro ⟨isUser, holds⟩
      exact ⟨user, _, ⟨⟨isUser, rfl⟩, holds⟩, rfl⟩
    · rintro ⟨_, _, ⟨⟨isUser, rfl⟩, holds⟩, rfl⟩
      exact ⟨isUser, holds⟩
  rw [members, Set.ncard_coe_finset, toFinset_card_of_nodup distinct, length_map,
    countP_eq_length_filter]

def eventRow (user name time : String) : Row ν :=
  OrdMap.ofList
    [("user_id", .string user), ("event_name", .string name), ("event_time", .string time)]

def userTable (user : String) (events : List (String × String)) : List (Row ν) :=
  events.map fun e => eventRow user e.1 e.2

end WowDb.Query.Analytics
