import WowDb.Query.Raft

/-!
# Global dictionary

`query-node/src/meta/global_dict.rs`: one dictionary per column, in a cache of the process and, as
JSON, in the replicated map.
-/
namespace WowDb.Query
open WowDb.Lib

structure ColumnDict where
  columnId : String
  strToCode : OrdMap String Nat
  codeToStr : List String
  maxNdv : Nat
  version : Nat
  deriving DecidableEq

namespace ColumnDict

def new (columnId : String) (maxNdv : Nat) : ColumnDict := ⟨columnId, .empty, [], maxNdv, 0⟩

def ndv (d : ColumnDict) : Nat := d.codeToStr.length % 2 ^ 32

def encode (d : ColumnDict) (value : String) : Except String (ColumnDict × Nat) :=
  match d.strToCode.get? value with
  | some code => .ok (d, code)
  | none =>
    if d.maxNdv ≤ d.ndv then
      .error ("Dictionary overflow: column '" ++ d.columnId ++ "' exceeds max_ndv=" ++
        toString d.maxNdv)
    else
      .ok ({ d with
        strToCode := d.strToCode.insert value d.ndv
        codeToStr := d.codeToStr ++ [value]
        version := d.version + 1 }, d.ndv)

def decode (d : ColumnDict) (code : Nat) : Option String := d.codeToStr[code]?

theorem columnId_encode {d after : ColumnDict} {value : String} {code : Nat}
    (done : d.encode value = .ok (after, code)) : after.columnId = d.columnId := by
  rw [encode] at done
  split at done
  · rw [← (Prod.mk.inj (Except.ok.inj done)).1]
  · split at done
    · cases done
    · rw [← (Prod.mk.inj (Except.ok.inj done)).1]

structure Coherent (d : ColumnDict) : Prop where
  codes : ∀ value code, d.strToCode.get? value = some code ↔ d.decode code = some value
  narrow : d.maxNdv < 2 ^ 32
  bounded : d.codeToStr.length ≤ d.maxNdv

theorem coherent_new (columnId : String) {maxNdv : Nat} (narrow : maxNdv < 2 ^ 32) :
    Coherent (new columnId maxNdv) where
  codes := by simp [new, decode]
  narrow := narrow
  bounded := Nat.zero_le _

namespace Coherent
variable {d : ColumnDict} (coherent : Coherent d)
include coherent

theorem ndv_eq : d.ndv = d.codeToStr.length :=
  Nat.mod_eq_of_lt (Nat.lt_of_le_of_lt coherent.bounded coherent.narrow)

theorem encode_known {value : String} {code : Nat} (known : d.decode code = some value) :
    d.encode value = .ok (d, code) := by
  rw [encode, (coherent.codes value code).mpr known]

theorem encode_ok {after : ColumnDict} {value : String} {code : Nat}
    (done : d.encode value = .ok (after, code)) :
    Coherent after ∧ after.decode code = some value ∧
      ∀ c v, d.decode c = some v → after.decode c = some v := by
  rw [encode] at done
  split at done
  · next found =>
    obtain ⟨rfl, rfl⟩ := Prod.mk.inj (Except.ok.inj done)
    exact ⟨coherent, (coherent.codes _ _).mp found, fun _ _ => id⟩
  · next missing =>
    split at done
    · cases done
    · next room =>
      rw [coherent.ndv_eq] at done room
      obtain ⟨rfl, rfl⟩ := Prod.mk.inj (Except.ok.inj done)
      have keeps : ∀ c v, d.decode c = some v → (d.codeToStr ++ [value])[c]? = some v := by
        intro c v known
        rw [List.getElem?_append_left (List.getElem?_eq_some_iff.mp known).1]
        exact known
      refine ⟨⟨fun v c => ?_, coherent.narrow, ?_⟩, ?_, keeps⟩
      · simp only [decode, OrdMap.get?_insert]
        by_cases same : v = value
        · subst same
          rw [if_pos rfl, Option.some.injEq]
          constructor
          · rintro rfl
            exact List.getElem?_concat_length
          · intro there
            -- an older code of the value would have been found
            rcases Nat.lt_or_ge c d.codeToStr.length with old | late
            · rw [List.getElem?_append_left old] at there
              rw [(coherent.codes v c).mpr there] at missing
              cases missing
            · have last := (List.getElem?_eq_some_iff.mp there).1
              simp only [List.length_append, List.length_singleton] at last
              omega
        · rw [if_neg same, coherent.codes]
          refine ⟨keeps c v, fun there => ?_⟩
          rcases Nat.lt_or_ge c d.codeToStr.length with old | late
          · rw [List.getElem?_append_left old] at there
            exact there
          · rw [List.getElem?_append_right late] at there
            have head := List.mem_of_getElem? there
            exact absurd (List.mem_singleton.mp head) same
      · simp only [List.length_append, List.length_singleton]
        omega
      · exact List.getElem?_concat_length

end Coherent
end ColumnDict

structure DictCodec where
  toString : ColumnDict → String
  fromStr : String → Option ColumnDict
  fromStr_toString : ∀ d, fromStr (toString d) = some d

def dictKvPrefix : String := "global_dict/"

def defaultMaxNdv : Nat := 65536

structure GlobalDictManager where
  raft : RaftManager
  cache : OrdMap String ColumnDict

namespace GlobalDictManager

def new (raft : RaftManager) : GlobalDictManager := ⟨raft, .empty⟩

def colId (cubeName columnName : String) : String := cubeName ++ "." ++ columnName

def freshDict (col : String) : ColumnDict := .new col defaultMaxNdv

variable (m : GlobalDictManager)

def encodeCached (col value : String) : GlobalDictManager × Except String (ColumnDict × Nat) :=
  let dict := (m.cache.get? col).getD (freshDict col)
  match dict.encode value with
  | .error e => ({ m with cache := m.cache.insert col dict }, .error e)
  | .ok (after, code) => ({ m with cache := m.cache.insert col after }, .ok (after, code))

def persistDict (codec : DictCodec) (m : GlobalDictManager) (dict : ColumnDict) :
    GlobalDictManager :=
  { m with raft := { m.raft with
      sm := m.raft.sm.apply (.upsertKv (dictKvPrefix ++ dict.columnId) (codec.toString dict)) } }

def loadDict (codec : DictCodec) (m : GlobalDictManager) (col : String) : Option ColumnDict :=
  (m.raft.read (dictKvPrefix ++ col)).bind codec.fromStr

def insertCache (col : String) (dict : ColumnDict) : GlobalDictManager :=
  { m with cache := m.cache.insert col dict }

def invalidate (col : String) : GlobalDictManager :=
  { m with cache := m.cache.erase col }

def restart : GlobalDictManager := new m.raft

end GlobalDictManager

variable (codes : OrdMap String Nat)

def ofCodes : Json :=
  Json.record (codes.entries.map fun e => (e.1, Json.ofNat e.2))

def asCodes : Json → Option (OrdMap String Nat)
  | .obj fields => (fields.mapM fun f =>
      (Json.asNat f.2).map fun code => (String.ofList f.1, code)).map OrdMap.ofList
  | _ => none

@[simp] theorem asCodes_ofCodes : asCodes (ofCodes codes) = some codes := by
  simp only [asCodes, ofCodes, Json.record, Json.mapM_fields Json.asNat_ofNat, Option.map_some,
    Option.some.injEq]
  exact OrdMap.ofList_of_perm (List.Perm.refl _)

def jsonDict : DictCodec where
  toString d := String.ofList (Json.print (Json.record
    [("column_id", Json.ofString d.columnId), ("str_to_code", ofCodes d.strToCode),
      ("code_to_str", Json.ofList Json.ofString d.codeToStr),
      ("max_ndv", Json.ofNat d.maxNdv), ("version", Json.ofNat d.version)]))
  fromStr text := do
    let v ← Json.parse text.toList
    let columnId ← (← Json.field "column_id" v) |> Json.asString
    let strToCode ← (← Json.field "str_to_code" v) |> asCodes
    let codeToStr ← (← Json.field "code_to_str" v) |> Json.asList Json.asString
    let maxNdv ← (← Json.field "max_ndv" v) |> Json.asNat
    let version ← (← Json.field "version" v) |> Json.asNat
    return ⟨columnId, strToCode, codeToStr, maxNdv, version⟩
  fromStr_toString d := by
    have names := Json.asList_ofList Json.asString_ofString d.codeToStr
    rw [String.toList_ofList, Json.parse_print]
    simp [Json.field_record, List.lookup, names]

open List

inductive DictCall where
  | encoding (value : String) (since code : Nat) (dict : ColumnDict)
  | missed (code : Option Nat) (since : Nat)
  | loaded (code : Option Nat) (since : Nat) (dict : ColumnDict)
  | creating (code : Option Nat) (since : Nat)
  | created (code : Option Nat) (since : Nat)

inductive Returned where
  | encode (value : String) (since : Nat) (result : Except String Nat)
  | decode (code since : Nat) (result : Option String)

structure DictRun where
  manager : GlobalDictManager
  calls : OrdMap Nat DictCall
  history : List Returned

namespace DictRun
open GlobalDictManager

inductive Act where
  | encode (call : Nat) (value : String)
  | getOrCreate (call : Nat) (code : Option Nat)
  | readRaft (call : Nat)
  | persist (call : Nat)
  | insertCache (call : Nat)
  | invalidate
  | restart

def init (raft : RaftManager) : DictRun := ⟨.new raft, .empty, []⟩

def answer (code : Option Nat) (since : Nat) (dict : ColumnDict) : List Returned :=
  match code with
  | some c => [.decode c since (dict.decode c)]
  | none => []

def toInsert (col : String) : DictCall → Option ColumnDict
  | .loaded _ _ dict => some dict
  | .created _ _ => some (freshDict col)
  | _ => none

variable (codec : DictCodec) (col : String)

def step (s : DictRun) : Act → Option DictRun
  | .encode call value =>
    match s.calls.get? call with
    | some _ => none
    | none =>
      match s.manager.encodeCached col value with
      | (manager, .error e) => some { s with
          manager := manager
          history := s.history ++ [.encode value s.history.length (.error e)] }
      | (manager, .ok (dict, code)) => some { s with
          manager := manager
          calls := s.calls.insert call (.encoding value s.history.length code dict) }
  | .getOrCreate call code =>
    match s.calls.get? call with
    | some _ => none
    | none =>
      match s.manager.cache.get? col with
      | some dict => some { s with history := s.history ++ answer code s.history.length dict }
      | none => some { s with calls := s.calls.insert call (.missed code s.history.length) }
  | .readRaft call =>
    match s.calls.get? call with
    | some (.missed code since) =>
      match s.manager.loadDict codec col with
      | some dict => some { s with calls := s.calls.insert call (.loaded code since dict) }
      | none => some { s with calls := s.calls.insert call (.creating code since) }
    | _ => none
  | .persist call =>
    match s.calls.get? call with
    | some (.encoding value since code dict) => some {
        manager := s.manager.persistDict codec dict
        calls := s.calls.erase call
        history := s.history ++ [.encode value since (.ok code)] }
    | some (.creating code since) => some { s with
        manager := s.manager.persistDict codec (freshDict col)
        calls := s.calls.insert call (.created code since) }
    | _ => none
  | .insertCache call =>
    match s.calls.get? call with
    | some (.loaded code since dict) => some {
        manager := s.manager.insertCache col dict
        calls := s.calls.erase call
        history := s.history ++ answer code since dict }
    | some (.created code since) => some {
        manager := s.manager.insertCache col (freshDict col)
        calls := s.calls.erase call
        history := s.history ++ answer code since (freshDict col) }
    | _ => none
  | .invalidate => some { s with manager := s.manager.invalidate col }
  | .restart => some { s with manager := s.manager.restart, calls := .empty }

def pairOf : Returned → Option (String × Nat)
  | .encode value _ (.ok code) => some (value, code)
  | _ => none

def pendingPair : DictCall → Option (String × Nat)
  | .encoding value _ code _ => some (value, code)
  | _ => none

def inUse (s : DictRun) : List (String × Nat) :=
  s.history.filterMap pairOf ++ s.calls.entries.filterMap fun e => pendingPair e.2

/-- Later calls agree with an `encode`, and codes are unique. -/
structure Stable (history : List Returned) : Prop where
  others : ∀ (i j : Nat) (value other : String) (since since' code : Nat),
    history[i]? = some (Returned.encode value since (.ok code)) →
    history[j]? = some (Returned.encode other since' (.ok code)) → other = value
  encodes : ∀ (i j : Nat) (value : String) (since since' code : Nat)
    (result : Except String Nat),
    history[i]? = some (Returned.encode value since (.ok code)) →
    history[j]? = some (Returned.encode value since' result) → i < since' → result = .ok code
  decodes : ∀ (i j : Nat) (value : String) (since since' code : Nat) (result : Option String),
    history[i]? = some (Returned.encode value since (.ok code)) →
    history[j]? = some (Returned.decode code since' result) → i < since' → result = some value

/-- The column is cached, or only its own code 0 is used. -/
def Careful (s : DictRun) : Act → Prop
  | .encode _ value => s.manager.cache.get? col = none → ∀ p ∈ inUse s, p = (value, 0)
  | .insertCache call => ∀ dict ∈ (s.calls.get? call).bind (toInsert col),
      ∀ p ∈ inUse s, dict.decode p.2 = some p.1
  | _ => True

instance (s : DictRun) : ∀ act, Decidable (Careful col s act)
  | .encode _ value =>
    inferInstanceAs (Decidable (s.manager.cache.get? col = none → ∀ p ∈ inUse s, p = (value, 0)))
  | .insertCache call =>
    inferInstanceAs (Decidable (∀ dict ∈ (s.calls.get? call).bind (toInsert col),
      ∀ p ∈ inUse s, dict.decode p.2 = some p.1))
  | .getOrCreate _ _ | .readRaft _ | .persist _ | .invalidate | .restart => isTrue trivial

def sinceOf : Returned → Nat
  | .encode _ since _ => since
  | .decode _ since _ => since

variable {history : List Returned}

variable {value : String}

theorem mem_pairs {code : Nat} : (value, code) ∈ history.filterMap pairOf ↔
      ∃ (i since : Nat), history[i]? = some (Returned.encode value since (.ok code)) := by
  rw [mem_filterMap]
  constructor
  · rintro ⟨r, mem, same⟩
    obtain ⟨i, there⟩ := mem_iff_getElem?.mp mem
    cases r with
    | decode => cases same
    | encode v since result =>
      cases result with
      | error => cases same
      | ok c =>
        obtain ⟨rfl, rfl⟩ := Prod.mk.inj (Option.some.inj same)
        exact ⟨i, since, there⟩
  · rintro ⟨i, since, there⟩
    exact ⟨_, mem_of_getElem? there, rfl⟩

/-- A new record agrees with the pairs returned before. -/
def Fits (history : List Returned) : Returned → Prop
  | .encode value _ (.ok code) =>
    ∀ p ∈ history.filterMap pairOf, p.1 = value ↔ p.2 = code
  | .encode value _ (.error _) => ∀ p ∈ history.filterMap pairOf, p.1 ≠ value
  | .decode code since result =>
    ∀ i value since', i < since → history[i]? = some (.encode value since' (.ok code)) →
      result = some value

def Began (history : List Returned) : Prop :=
  ∀ (i : Nat) (r : Returned), history[i]? = some r → sinceOf r ≤ i

variable {r : Returned}

theorem getElem?_concat_cases {q : Returned} {i : Nat} (there : (history ++ [r])[i]? = some q) :
    history[i]? = some q ∨ (i = history.length ∧ q = r) := by
  rcases Nat.lt_or_ge i history.length with old | late
  · rw [getElem?_append_left old] at there
    exact .inl there
  · have bound := (List.getElem?_eq_some_iff.mp there).1
    simp only [length_append, length_singleton] at bound
    obtain rfl : i = history.length := by omega
    rw [getElem?_concat_length] at there
    exact .inr ⟨rfl, (Option.some.inj there).symm⟩

theorem lt_length_of_getElem? {i : Nat} (there : history[i]? = some r) : i < history.length :=
  (List.getElem?_eq_some_iff.mp there).1

theorem stable_concat (stable : Stable history) (began : Began history) (fits : Fits history r) :
    Stable (history ++ [r]) := by
  have notLater : ∀ {j : Nat} {q : Returned}, history[j]? = some q →
      ¬ history.length < sinceOf q := by
    intro j q there late
    have := began j q there
    have := lt_length_of_getElem? there
    omega
  refine ⟨?_, ?_, ?_⟩
  · intro i j value other since since' code first second
    rcases getElem?_concat_cases first with before | ⟨-, same⟩
    · rcases getElem?_concat_cases second with older | ⟨-, rfl⟩
      · exact stable.others i j value other since since' code before older
      · exact ((fits (value, code) (mem_pairs.mpr ⟨i, since, before⟩)).mpr rfl).symm
    · subst same
      rcases getElem?_concat_cases second with older | ⟨-, same⟩
      · exact (fits (other, code) (mem_pairs.mpr ⟨j, since', older⟩)).mpr rfl
      · exact (Returned.encode.inj same).1
  · intro i j value since since' code result first second later
    rcases getElem?_concat_cases second with older | ⟨-, rfl⟩
    · rcases getElem?_concat_cases first with before | ⟨rfl, -⟩
      · exact stable.encodes i j value since since' code result before older later
      · exact absurd later (notLater older)
    · rcases getElem?_concat_cases first with before | ⟨-, same⟩
      · have pair := mem_pairs.mpr ⟨i, since, before⟩
        cases result with
        | error => exact absurd rfl (fits _ pair)
        | ok c => exact congrArg Except.ok ((fits _ pair).mp rfl).symm
      · exact (Returned.encode.inj same).2.2.symm
  · intro i j value since since' code result first second later
    rcases getElem?_concat_cases second with older | ⟨-, rfl⟩
    · rcases getElem?_concat_cases first with before | ⟨rfl, -⟩
      · exact stable.decodes i j value since since' code result before older later
      · exact absurd later (notLater older)
    · rcases getElem?_concat_cases first with before | ⟨-, same⟩
      · exact fits i value since later before
      · cases same

theorem began_concat (began : Began history) (due : sinceOf r ≤ history.length) :
    Began (history ++ [r]) := by
  intro i q there
  rcases getElem?_concat_cases there with old | ⟨rfl, rfl⟩
  · exact began i q old
  · exact due

def callSince : DictCall → Nat
  | .encoding _ since _ _ => since
  | .missed _ since => since
  | .loaded _ since _ => since
  | .creating _ since => since
  | .created _ since => since

structure Good (dict : ColumnDict) : Prop where
  coherent : dict.Coherent
  column : dict.columnId = col

def Covers (dict : ColumnDict) (pairs : List (String × Nat)) : Prop :=
  ∀ p ∈ pairs, dict.decode p.2 = some p.1

def Consistent (pairs : List (String × Nat)) : Prop :=
  ∀ p ∈ pairs, ∀ q ∈ pairs, p.1 = q.1 ↔ p.2 = q.2

def GoodCall : DictCall → Prop
  | .encoding _ _ _ dict => Good col dict
  | .loaded _ _ dict => Good col dict
  | _ => True

structure Invariant (s : DictRun) : Prop where
  stable : Stable s.history
  began : Began s.history
  due : ∀ call phase, s.calls.get? call = some phase → callSince phase ≤ s.history.length
  consistent : Consistent (inUse s)
  cached : ∀ dict, s.manager.cache.get? col = some dict → Good col dict ∧ Covers dict (inUse s)
  calls : ∀ call phase, s.calls.get? call = some phase → GoodCall col phase
  stored : ∀ text, s.manager.raft.read (dictKvPrefix ++ col) = some text →
    ∃ dict, text = codec.toString dict ∧ Good col dict

theorem good_freshDict : Good col (freshDict col) :=
  ⟨ColumnDict.coherent_new col (by decide), rfl⟩

variable {dict : ColumnDict} {pairs : List (String × Nat)}

theorem Covers.consistent (covers : Covers dict pairs) (coherent : dict.Coherent) :
    Consistent pairs := by
  intro p memP q memQ
  have first := (coherent.codes _ _).mpr (covers p memP)
  have second := (coherent.codes _ _).mpr (covers q memQ)
  constructor
  · intro same
    rw [same, second] at first
    exact (Option.some.inj first).symm
  · intro same
    have value := covers p memP
    rw [same, covers q memQ] at value
    exact (Option.some.inj value).symm

variable {s : DictRun}

theorem mem_inUse {p : String × Nat} : p ∈ inUse s ↔ p ∈ s.history.filterMap pairOf ∨
      ∃ call phase, s.calls.get? call = some phase ∧ pendingPair phase = some p := by
  rw [inUse, mem_append]
  refine or_congr Iff.rfl (mem_filterMap.trans ⟨?_, ?_⟩)
  · rintro ⟨⟨call, phase⟩, mem, pending⟩
    exact ⟨call, phase, (s.calls.mem_entries_iff call phase).mp mem, pending⟩
  · rintro ⟨call, phase, found, pending⟩
    exact ⟨(call, phase), (s.calls.mem_entries_iff call phase).mpr found, pending⟩

variable {codec : DictCodec} {col : String}

theorem mem_inUse_of_pairs {p : String × Nat} (mem : p ∈ s.history.filterMap pairOf) :
    p ∈ inUse s := mem_inUse.mpr (.inl mem)

variable {t : DictRun}

theorem inUse_of_steps (records : List Returned) (history : t.history = s.history ++ records)
    (known : ∀ p ∈ records.filterMap pairOf, p ∈ inUse s)
    (calls : ∀ call phase, t.calls.get? call = some phase → s.calls.get? call = some phase ∨
      pendingPair phase = none) : ∀ p ∈ inUse t, p ∈ inUse s := by
  intro p mem
  rcases mem_inUse.mp mem with returned | ⟨call, phase, found, pending⟩
  · rw [history, filterMap_append] at returned
    rcases mem_append.mp returned with old | new
    · exact mem_inUse_of_pairs old
    · exact known p new
  · rcases calls call phase found with same | none
    · exact mem_inUse.mpr (.inr ⟨call, phase, same, pending⟩)
    · rw [none] at pending
      cases pending

theorem answer_fits (covers : Covers dict (inUse s)) (code : Option Nat) (since : Nat) :
    ∀ r ∈ answer code since dict, Fits s.history r := by
  intro r mem
  cases code with
  | none => cases mem
  | some c =>
    obtain rfl := mem_singleton.mp mem
    intro i value since' _ there
    exact covers (value, c) (mem_inUse_of_pairs (mem_pairs.mpr ⟨i, since', there⟩))

theorem pairs_answer (code : Option Nat) (since : Nat) (dict : ColumnDict) :
    (answer code since dict).filterMap pairOf = [] := by
  cases code <;> rfl

variable (inv : Invariant codec col s)

include inv in
theorem history_answer (covers : Covers dict (inUse s))
    (code : Option Nat) {since : Nat} (due : since ≤ s.history.length) :
    Stable (s.history ++ answer code since dict) ∧ Began (s.history ++ answer code since dict) ∧
      s.history.length ≤ (s.history ++ answer code since dict).length := by
  cases code with
  | none =>
    rw [answer, append_nil]
    exact ⟨inv.stable, inv.began, Nat.le_refl _⟩
  | some c =>
    have fits := answer_fits covers (some c) since _ mem_cons_self
    exact ⟨stable_concat inv.stable inv.began fits, began_concat inv.began due, by simp⟩

variable {fewer : List (String × Nat)}

theorem Consistent.subset (consistent : Consistent pairs)
    (sub : ∀ p ∈ fewer, p ∈ pairs) : Consistent fewer :=
  fun p memP q memQ => consistent p (sub p memP) q (sub q memQ)

theorem Covers.subset (covers : Covers dict pairs)
    (sub : ∀ p ∈ fewer, p ∈ pairs) : Covers dict fewer :=
  fun p mem => covers p (sub p mem)

theorem invariant_init (raft : RaftManager)
    (fresh : raft.read (dictKvPrefix ++ col) = none) : Invariant codec col (init raft) where
  stable := ⟨by simp [init], by simp [init], by simp [init]⟩
  began := by intro i r there; simp [init] at there
  due := by intro call phase found; cases found
  consistent := by intro p mem; cases mem
  cached := by intro dict found; cases found
  calls := by intro call phase found; cases found
  stored := by
    intro text found
    rw [show (init raft).manager.raft = raft from rfl, fresh] at found
    cases found

include inv in
theorem encodeCached_spec
    (careful : s.manager.cache.get? col = none → ∀ p ∈ inUse s, p = (value, 0)) :
    (∃ dict code, s.manager.encodeCached col value =
        ({ s.manager with cache := s.manager.cache.insert col dict }, .ok (dict, code)) ∧
      Good col dict ∧ Covers dict ((value, code) :: inUse s)) ∨
    (∃ dict e, s.manager.encodeCached col value =
        ({ s.manager with cache := s.manager.cache.insert col dict }, .error e) ∧
      Good col dict ∧ Covers dict (inUse s) ∧ ∀ p ∈ inUse s, p.1 ≠ value) := by
  rw [encodeCached]
  cases found : s.manager.cache.get? col with
  | none =>
    -- an empty dictionary gives the value code 0
    have done : ∃ after, (freshDict col).encode value = .ok (after, 0) := ⟨_, rfl⟩
    obtain ⟨after, done⟩ := done
    obtain ⟨coherent, given, -⟩ := (good_freshDict col).coherent.encode_ok done
    refine .inl ⟨after, 0, by rw [Option.getD_none, done], ⟨coherent, ?_⟩, ?_⟩
    · rw [ColumnDict.columnId_encode done]
      rfl
    · rintro p (_ | ⟨_, mem⟩)
      · exact given
      · rw [careful found p mem]
        exact given
  | some dict =>
    obtain ⟨good, covers⟩ := inv.cached dict found
    rw [Option.getD_some]
    cases done : dict.encode value with
    | ok result =>
      obtain ⟨after, code⟩ := result
      obtain ⟨coherent, given, keeps⟩ := good.coherent.encode_ok done
      refine .inl ⟨after, code, rfl, ⟨coherent, ?_⟩, ?_⟩
      · rw [ColumnDict.columnId_encode done]
        exact good.column
      · rintro p (_ | ⟨_, mem⟩)
        · exact given
        · exact keeps _ _ (covers p mem)
    | error e =>
      refine .inr ⟨dict, e, rfl, good, covers, fun p mem same => ?_⟩
      have known := good.coherent.encode_known (covers p mem)
      rw [same, done] at known
      cases known

variable {call : Nat}

include inv

theorem invariant_encode (careful : Careful col s (.encode call value))
    (taken : step codec col s (.encode call value) = some t) : Invariant codec col t := by
  simp only [step] at taken
  split at taken
  · cases taken
  · rcases encodeCached_spec inv careful with
      ⟨dict, code, locked, good, covers⟩ | ⟨dict, e, locked, good, covers, unknown⟩
    · rw [locked] at taken
      obtain rfl := Option.some.inj taken
      have using_ : ∀ p ∈ inUse { s with
          manager := { s.manager with cache := s.manager.cache.insert col dict }
          calls := s.calls.insert call (.encoding value s.history.length code dict) },
          p ∈ (value, code) :: inUse s := by
        intro p mem
        rcases mem_inUse.mp mem with returned | ⟨k, phase, found, pending⟩
        · exact mem_cons_of_mem _ (mem_inUse_of_pairs returned)
        · rcases OrdMap.get?_insert_or found with old | rfl
          · exact mem_cons_of_mem _ (mem_inUse.mpr (.inr ⟨k, phase, old, pending⟩))
          · rw [← Option.some.inj pending]
            exact mem_cons_self
      have covered := covers.subset using_
      refine ⟨inv.stable, inv.began, ?_, covered.consistent good.coherent, ?_, ?_, inv.stored⟩
      · intro k phase found
        rcases OrdMap.get?_insert_or found with old | rfl
        · exact inv.due k phase old
        · exact Nat.le_refl _
      · intro d found
        rw [OrdMap.get?_insert, if_pos rfl] at found
        exact Option.some.inj found ▸ ⟨good, covered⟩
      · intro k phase found
        rcases OrdMap.get?_insert_or found with old | rfl
        · exact inv.calls k phase old
        · exact good
    · rw [locked] at taken
      obtain rfl := Option.some.inj taken
      have fits : Fits s.history (.encode value s.history.length (.error e)) :=
        fun p mem => unknown p (mem_inUse_of_pairs mem)
      have sub := inUse_of_steps (s := s) (t := { s with
          manager := { s.manager with cache := s.manager.cache.insert col dict }
          history := s.history ++ [.encode value s.history.length (.error e)] }) _ rfl
        (fun p mem => by cases mem) (fun _ _ => .inl)
      refine ⟨stable_concat inv.stable inv.began fits, began_concat inv.began (Nat.le_refl _), ?_,
        inv.consistent.subset sub, ?_, inv.calls, inv.stored⟩
      · intro k phase found
        exact Nat.le_trans (inv.due k phase found) (by simp)
      · intro d found
        rw [OrdMap.get?_insert, if_pos rfl] at found
        exact Option.some.inj found ▸ ⟨good, covers.subset sub⟩

theorem invariant_advance (call : Nat) {phase : DictCall}
    (due : callSince phase ≤ s.history.length) (good : GoodCall col phase)
    (silent : pendingPair phase = none) :
    Invariant codec col { s with calls := s.calls.insert call phase } := by
  have sub := inUse_of_steps (s := s) (t := { s with calls := s.calls.insert call phase }) []
    (append_nil _).symm (fun p mem => by cases mem)
    (fun _ _ found => (OrdMap.get?_insert_or found).imp_right fun same => by rw [same, silent])
  refine ⟨inv.stable, inv.began, ?_, inv.consistent.subset sub, fun d found => ?_, ?_, inv.stored⟩
  · intro k there found
    rcases OrdMap.get?_insert_or found with old | rfl
    · exact inv.due k there old
    · exact due
  · exact ⟨(inv.cached d found).1, (inv.cached d found).2.subset sub⟩
  · intro k there found
    rcases OrdMap.get?_insert_or found with old | rfl
    · exact inv.calls k there old
    · exact good

theorem invariant_getOrCreate {code : Option Nat}
    (taken : step codec col s (.getOrCreate call code) = some t) : Invariant codec col t := by
  simp only [step] at taken
  split at taken
  · cases taken
  · split at taken
    · next dict found =>
      obtain rfl := Option.some.inj taken
      obtain ⟨stable, began, longer⟩ :=
        history_answer inv (inv.cached dict found).2 code (Nat.le_refl _)
      have sub := inUse_of_steps (s := s)
        (t := { s with history := s.history ++ answer code s.history.length dict }) _ rfl
        (fun p mem => by rw [pairs_answer] at mem; cases mem) (fun _ _ => .inl)
      refine ⟨stable, began, fun k phase there => Nat.le_trans (inv.due k phase there) longer,
        inv.consistent.subset sub, fun d cached => ?_, inv.calls, inv.stored⟩
      exact ⟨(inv.cached d cached).1, (inv.cached d cached).2.subset sub⟩
    · obtain rfl := Option.some.inj taken
      exact invariant_advance inv call (Nat.le_refl _) trivial rfl

theorem invariant_readRaft
    (taken : step codec col s (.readRaft call) = some t) : Invariant codec col t := by
  simp only [step] at taken
  split at taken
  · next code since running =>
    have due := inv.due call _ running
    split at taken
    · next dict read =>
      obtain rfl := Option.some.inj taken
      obtain ⟨text, there, parsed⟩ := Option.bind_eq_some_iff.mp read
      obtain ⟨stored, rfl, good⟩ := inv.stored text there
      rw [codec.fromStr_toString] at parsed
      obtain rfl := Option.some.inj parsed
      exact invariant_advance inv call due good rfl
    · obtain rfl := Option.some.inj taken
      exact invariant_advance inv call due trivial rfl
  · cases taken

omit inv

theorem stored_persistDict (good : Good col dict) :
    ∀ text, (s.manager.persistDict codec dict).raft.read (dictKvPrefix ++ col) = some text →
      ∃ d, text = codec.toString d ∧ Good col d := by
  intro text found
  have written : (s.manager.persistDict codec dict).raft.read (dictKvPrefix ++ col) =
      some (codec.toString dict) := by
    simp only [persistDict, RaftManager.read, MetaStateMachine.get, MetaStateMachine.apply,
      good.column, OrdMap.get?_insert, if_pos]
  rw [written] at found
  exact ⟨dict, (Option.some.inj found).symm, good⟩

include inv

theorem invariant_persist
    (taken : step codec col s (.persist call) = some t) : Invariant codec col t := by
  simp only [step] at taken
  split at taken
  · next value since code dict running =>
    obtain rfl := Option.some.inj taken
    have pair : (value, code) ∈ inUse s := mem_inUse.mpr (.inr ⟨call, _, running, rfl⟩)
    have fits : Fits s.history (.encode value since (.ok code)) :=
      fun p mem => inv.consistent p (mem_inUse_of_pairs mem) _ pair
    have sub := inUse_of_steps (s := s) (t := {
        manager := s.manager.persistDict codec dict
        calls := s.calls.erase call
        history := s.history ++ [.encode value since (.ok code)] }) _ rfl
      (fun p mem => mem_singleton.mp mem ▸ pair) (fun _ _ found => .inl (OrdMap.get?_of_erase found))
    refine ⟨stable_concat inv.stable inv.began fits,
      began_concat inv.began (inv.due call _ running), ?_, inv.consistent.subset sub, ?_, ?_,
      stored_persistDict (inv.calls call _ running)⟩
    · intro k phase found
      exact Nat.le_trans (inv.due k phase (OrdMap.get?_of_erase found)) (by simp)
    · intro d found
      exact ⟨(inv.cached d found).1, (inv.cached d found).2.subset sub⟩
    · exact fun k phase found => inv.calls k phase (OrdMap.get?_of_erase found)
  · next code since running =>
    obtain rfl := Option.some.inj taken
    have waited := inv.due call _ running
    have due : callSince (.created code since) ≤ s.history.length := waited
    have advanced : Invariant codec col
        { s with calls := s.calls.insert call (.created code since) } :=
      invariant_advance inv call due trivial rfl
    exact ⟨advanced.stable, advanced.began, advanced.due, advanced.consistent, advanced.cached,
      advanced.calls, stored_persistDict (good_freshDict col)⟩
  · cases taken

theorem invariant_install (good : Good col dict)
    (covers : Covers dict (inUse s)) (call : Nat) (code : Option Nat) {since : Nat}
    (due : since ≤ s.history.length) :
    Invariant codec col {
      manager := s.manager.insertCache col dict
      calls := s.calls.erase call
      history := s.history ++ answer code since dict } := by
  obtain ⟨stable, began, longer⟩ := history_answer inv covers code due
  have sub := inUse_of_steps (s := s) (t := {
      manager := s.manager.insertCache col dict
      calls := s.calls.erase call
      history := s.history ++ answer code since dict }) _ rfl
    (fun p mem => by rw [pairs_answer] at mem; cases mem)
    (fun _ _ found => .inl (OrdMap.get?_of_erase found))
  refine ⟨stable, began,
    fun k phase there => Nat.le_trans (inv.due k phase (OrdMap.get?_of_erase there)) longer,
    inv.consistent.subset sub, fun d found => ?_,
    fun k phase there => inv.calls k phase (OrdMap.get?_of_erase there), inv.stored⟩
  have same : some dict = some d := by
    rw [← found, insertCache, OrdMap.get?_insert, if_pos rfl]
  exact Option.some.inj same ▸ ⟨good, covers.subset sub⟩

theorem invariant_insertCache (careful : Careful col s (.insertCache call))
    (taken : step codec col s (.insertCache call) = some t) : Invariant codec col t := by
  simp only [step] at taken
  split at taken
  · next code since dict running =>
    obtain rfl := Option.some.inj taken
    exact invariant_install inv (inv.calls call _ running)
      (careful dict (by rw [running]; rfl)) call code (inv.due call _ running)
  · next code since running =>
    obtain rfl := Option.some.inj taken
    exact invariant_install inv (good_freshDict col)
      (careful (freshDict col) (by rw [running]; rfl)) call code (inv.due call _ running)
  · cases taken

omit inv in
theorem invariant_step {act : Act} (inv : Invariant codec col s) (careful : Careful col s act)
    (taken : step codec col s act = some t) : Invariant codec col t := by
  cases act with
  | encode => exact invariant_encode inv careful taken
  | getOrCreate => exact invariant_getOrCreate inv taken
  | readRaft => exact invariant_readRaft inv taken
  | persist => exact invariant_persist inv taken
  | insertCache => exact invariant_insertCache inv careful taken
  | invalidate =>
    obtain rfl := Option.some.inj taken
    refine ⟨inv.stable, inv.began, inv.due, inv.consistent, fun d found => ?_, inv.calls, inv.stored⟩
    rw [invalidate, OrdMap.get?_erase, if_pos rfl] at found
    cases found
  | restart =>
    obtain rfl := Option.some.inj taken
    have sub := inUse_of_steps (s := s)
      (t := { s with manager := s.manager.restart, calls := .empty }) []
      (append_nil _).symm (fun p mem => by cases mem) (fun _ _ found => by cases found)
    exact ⟨inv.stable, inv.began, (fun _ _ found => by cases found), inv.consistent.subset sub,
      (fun _ found => by cases found), (fun _ _ found => by cases found), inv.stored⟩

omit inv

/-- Careful steps keep the codes stable. -/
theorem codes_stable (codec : DictCodec) (col : String) (raft : RaftManager)
    (fresh : raft.read (dictKvPrefix ++ col) = none) (acts : List Act)
    (careful : Run.EveryStep (step codec col) (Careful col) (init raft) acts) :
    Run.EveryState (step codec col) (fun s => Stable s.history) (init raft) acts :=
  (Run.everyState_of_everyStep (fun _ _ _ => invariant_step) acts _ (invariant_init raft fresh)
    careful).imp fun _ => Invariant.stable

theorem codes_stable_reload :
    Run.EveryState (step jsonDict "events.country") (fun s => Stable s.history)
      (init (.new 1))
      [.encode 0 "KR", .persist 0, .encode 0 "US", .persist 0, .restart, .getOrCreate 1 (some 1),
        .readRaft 1, .insertCache 1, .encode 0 "KR", .persist 0] :=
  codes_stable jsonDict "events.country" (.new 1) rfl _ (by decide +kernel)

theorem two_values_one_code : ∃ s, Run.exec (step jsonDict "events.country") (init (.new 1))
        [.encode 0 "KR", .persist 0, .invalidate, .encode 0 "US", .persist 0] = some s ∧
      ¬ Stable s.history := by
  refine ⟨_, rfl, fun stable => ?_⟩
  have same : ("US" : String) = "KR" := stable.others 0 1 "KR" "US" 0 1 0 rfl rfl
  exact absurd same (by decide)

end DictRun
end WowDb.Query
