import WowDb.Lib.CaseMapping
import WowDb.Lib.OrdMap

/-!
# Registry of behavioural tables

`query-node/src/meta/bt_registry.rs`.
-/
namespace WowDb.Query
open WowDb.Lib

inductive BtState where
  | building | active | refreshing | stale
  | error (message : String)
  deriving DecidableEq

structure BtEntry where
  btName : String
  eventTable : String
  userKey : String
  sessionTimeoutSec : Nat
  state : BtState
  lastRefresh : Option Nat
  deriving DecidableEq

structure BtRegistry where
  pairs : OrdMap String (List BtEntry)

namespace BtEntry

def put (entry : BtEntry) : List BtEntry → List BtEntry
  | [] => [entry]
  | e :: rest => if e.btName = entry.btName then entry :: rest else e :: put entry rest

def setState (btName : String) (state : BtState) : List BtEntry → List BtEntry
  | [] => []
  | e :: rest => if e.btName = btName then { e with state } :: rest else e :: setState btName state rest

def named (btName : String) (list : List BtEntry) : Option BtEntry :=
  list.find? fun e => e.btName = btName

variable (entry : BtEntry)

theorem put_eq_self_iff (list : List BtEntry) :
    put entry list = list ↔ named entry.btName list = some entry := by
  induction list with
  | nil => simp [put, named]
  | cons e rest ih =>
    by_cases same : e.btName = entry.btName
    · simp [put, named, same, eq_comm]
    · simpa [put, named, same] using ih

theorem setState_eq_self_iff {btName : String} {list : List BtEntry} {e : BtEntry}
    (found : named btName list = some e) (state : BtState) :
    setState btName state list = list ↔ e.state = state := by
  induction list with
  | nil => cases found
  | cons first rest ih =>
    by_cases same : first.btName = btName
    · obtain rfl : first = e := by simpa [named, same] using found
      simp only [setState, if_pos same, List.cons.injEq, and_true]
      constructor
      · intro equal
        rw [← equal]
      · rintro rfl
        rfl
    · simp only [named, List.find?_cons, same, decide_false] at found
      simpa [setState, same] using ih found

theorem setState_put (state : BtState) (list : List BtEntry) :
    setState entry.btName state (put entry list) = put { entry with state } list := by
  induction list with
  | nil => simp [put, setState]
  | cons e rest ih =>
    by_cases same : e.btName = entry.btName
    · simp [put, setState, same]
    · simpa [put, setState, same] using ih

theorem named_put (list : List BtEntry) : named entry.btName (put entry list) = some entry := by
  induction list with
  | nil => simp [put, named]
  | cons e rest ih =>
    by_cases same : e.btName = entry.btName
    · simp [put, named, same]
    · simpa [put, named, same] using ih

end BtEntry

namespace BtRegistry

def new : BtRegistry := ⟨.empty⟩

def listOf (r : BtRegistry) (key : String) : List BtEntry := (r.pairs.get? key).getD []

variable (C : CaseMapping)

def register (r : BtRegistry) (entry : BtEntry) : BtRegistry :=
  let key := String.ofList (C.toLowercase entry.eventTable.toList)
  ⟨r.pairs.insert key (entry.put (r.listOf key))⟩

variable (order : HashIteration String Unit)

def keys (r : BtRegistry) : List String :=
  (order.iterate (r.pairs.map fun _ => ())).map Prod.fst

def holder (r : BtRegistry) (btName : String) : Option String :=
  (r.keys order).find? fun key => (BtEntry.named btName (r.listOf key)).isSome

def updateState (r : BtRegistry) (btName : String) (state : BtState) : BtRegistry :=
  match r.holder order btName with
  | none => r
  | some key => ⟨r.pairs.insert key (BtEntry.setState btName state (r.listOf key))⟩

theorem listOf_insert (r : BtRegistry) (key k : String) (list : List BtEntry) :
    listOf ⟨r.pairs.insert key list⟩ k = if k = key then list else r.listOf k := by
  unfold listOf
  rw [OrdMap.get?_insert]
  split <;> rfl

variable {r : BtRegistry} {key : String}

theorem get?_of_named {btName : String} {e : BtEntry}
    (found : BtEntry.named btName (r.listOf key) = some e) :
    r.pairs.get? key = some (r.listOf key) := by
  unfold listOf at found ⊢
  cases there : r.pairs.get? key with
  | none =>
    rw [there] at found
    cases found
  | some list => rfl

theorem keys_insert {old : List BtEntry} (there : r.pairs.get? key = some old)
    (order : HashIteration String Unit) (list : List BtEntry) :
    keys order ⟨r.pairs.insert key list⟩ = r.keys order := by
  have same : (r.pairs.insert key list).map (fun _ => ()) = r.pairs.map fun _ => () := by
    refine OrdMap.ext_get? fun k => ?_
    rw [OrdMap.get?_map, OrdMap.get?_map, OrdMap.get?_insert]
    split
    · next isKey => rw [isKey, there, Option.map_some, Option.map_some]
    · rfl
  simp only [keys, same]

theorem mem_keys {list : List BtEntry} (there : r.pairs.get? key = some list)
    (order : HashIteration String Unit) : key ∈ r.keys order := by
  refine List.mem_map.mpr ⟨(key, ()), ?_, rfl⟩
  rw [order.mem_iterate, OrdMap.get?_map, there, Option.map_some]

theorem exists_holder {btName : String} {e : BtEntry}
    (found : BtEntry.named btName (r.listOf key) = some e) (order : HashIteration String Unit) :
    ∃ k, r.holder order btName = some k := by
  rw [← Option.isSome_iff_exists, holder, List.find?_isSome]
  exact ⟨key, mem_keys (get?_of_named found) order, by rw [found, Option.isSome_some]⟩

theorem holder_put {entry old : BtEntry}
    (found : BtEntry.named entry.btName (r.listOf key) = some old)
    (order : HashIteration String Unit) :
    holder order ⟨r.pairs.insert key (entry.put (r.listOf key))⟩ entry.btName =
      r.holder order entry.btName := by
  unfold holder
  rw [keys_insert (get?_of_named found)]
  congr 1
  funext k
  rw [listOf_insert]
  split
  · next isKey => rw [isKey, BtEntry.named_put, found, Option.isSome_some, Option.isSome_some]
  · rfl

/-- The entry is there and the first of its name is active. -/
def Registered (order : HashIteration String Unit) (r : BtRegistry) (entry : BtEntry) : Prop :=
  let own := String.ofList (C.toLowercase entry.eventTable.toList)
  ∃ key e, r.holder order entry.btName = some key ∧
    BtEntry.named entry.btName (r.listOf key) = some e ∧ e.state = .active ∧
    BtEntry.named entry.btName (r.listOf own) =
      some { entry with state := if key = own then .active else entry.state }

theorem mk_eq_iff (pairs : OrdMap String (List BtEntry)) (r : BtRegistry) :
    (⟨pairs⟩ : BtRegistry) = r ↔ pairs = r.pairs := by
  cases r
  exact BtRegistry.mk.injEq _ _ ▸ Iff.rfl

theorem named_register_updateState (r : BtRegistry)
    (entry : BtEntry) (own : String) (state : BtState) :
    ∃ old, BtEntry.named entry.btName
      ((updateState order ⟨r.pairs.insert own (entry.put (r.listOf own))⟩ entry.btName state).listOf
        own) = some old := by
  unfold updateState
  split
  · rw [listOf_insert, if_pos rfl]
    exact ⟨_, BtEntry.named_put entry _⟩
  · next key _ =>
    rw [listOf_insert]
    split
    · next same =>
      rw [← same, listOf_insert, if_pos rfl, BtEntry.setState_put]
      exact ⟨_, BtEntry.named_put { entry with state } _⟩
    · rw [listOf_insert, if_pos rfl]
      exact ⟨_, BtEntry.named_put entry _⟩

theorem register_updateState_eq_iff (order : HashIteration String Unit)
    (r : BtRegistry) (entry : BtEntry) :
    (r.register C entry).updateState order entry.btName .active = r ↔
      r.Registered C order entry := by
  unfold Registered register
  generalize String.ofList (C.toLowercase entry.eventTable.toList) = own
  dsimp only
  by_cases known : ∃ old, BtEntry.named entry.btName (r.listOf own) = some old
  · obtain ⟨old, found⟩ := known
    obtain ⟨key, first⟩ := exists_holder found order
    have holds : (BtEntry.named entry.btName (r.listOf key)).isSome = true :=
      List.find?_some (p := fun k => (BtEntry.named entry.btName (r.listOf k)).isSome) first
    obtain ⟨e, isHeld⟩ := Option.isSome_iff_exists.mp holds
    have there := get?_of_named found
    have thereKey := get?_of_named isHeld
    simp only [updateState, holder_put found, first, Option.some.injEq, exists_and_left,
      exists_eq_left']
    rw [mk_eq_iff, listOf_insert]
    by_cases same : key = own
    · subst same
      rw [if_pos rfl, BtEntry.setState_put, OrdMap.insert_insert, OrdMap.insert_eq_self_iff, there,
        Option.some.injEq, eq_comm, BtEntry.put_eq_self_iff]
      simp only [if_true]
      constructor
      · intro active
        exact ⟨_, active, rfl, active⟩
      · rintro ⟨-, -, -, active⟩
        exact active
    · rw [if_neg same, OrdMap.insert_insert_eq_self_iff _ (Ne.symm same), there, thereKey,
        Option.some.injEq, Option.some.injEq, eq_comm, BtEntry.put_eq_self_iff,
        eq_comm (a := r.listOf key), BtEntry.setState_eq_self_iff isHeld]
      simp only [if_neg same, isHeld, Option.some.injEq, exists_eq_left']
      exact and_comm
  · constructor
    · intro unchanged
      have after := named_register_updateState order r entry own .active
      rw [unchanged] at after
      exact absurd after known
    · rintro ⟨key, e, -, -, -, found⟩
      exact absurd ⟨_, found⟩ known

end BtRegistry
end WowDb.Query
