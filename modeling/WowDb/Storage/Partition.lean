import WowDb.Lib.Calendar
import WowDb.Lib.OrdMap
import WowDb.Lib.Run
import WowDb.Lib.Text

/-!
# Automatic partitions

`AutoPartitionManager` keeps, for each cube, the time partitions that inserts have called for.
-/
namespace WowDb.Storage
open WowDb.Lib
open WowDb.Lib.Calendar

inductive TimeGranularity where
  | day
  | month
  | year
  deriving DecidableEq

structure PartitionKey where
  name : String
  loTs : Int
  hiTs : Int
  deriving DecidableEq

def PartitionKey.contains (p : PartitionKey) (ts : Int) : Bool :=
  decide (p.loTs ≤ ts) && decide (ts < p.hiTs)

namespace Chrono

def minYear : Int := -262143

def maxYear : Int := 262142

def Representable (day : Int) : Prop := minYear ≤ yearOf day ∧ yearOf day ≤ maxYear

instance (day : Int) : Decidable (Representable day) :=
  inferInstanceAs (Decidable (_ ∧ _))

def timestampOpt (ts : Int) : Option Int :=
  if Representable (ts / 86400) then some (ts / 86400) else none

def withYmd (y : Int) (month day : Nat) : Option Int :=
  if minYear ≤ y ∧ y ≤ maxYear ∧ 1 ≤ month ∧ month ≤ 12 ∧ 1 ≤ day ∧
      monthStart y month + (day - 1) < monthStart y (month + 1) then
    some (monthStart y month + (day - 1))
  else none

def addDays (day count : Int) : Option Int :=
  if Representable (day + count) then some (day + count) else none

theorem withYmd_of_bounds {y : Int} {month day : Nat} (years : minYear ≤ y ∧ y ≤ maxYear)
    (low : 1 ≤ month) (high : month ≤ 12) (positive : 1 ≤ day)
    (inside : monthStart y month + (day - 1) < monthStart y (month + 1)) :
    withYmd y month day = some (monthStart y month + (day - 1)) :=
  if_pos ⟨years.1, years.2, low, high, positive, inside⟩

theorem withYmd_first {y : Int} {month : Nat} (years : minYear ≤ y ∧ y ≤ maxYear)
    (low : 1 ≤ month) (high : month ≤ 12) : withYmd y month 1 = some (monthStart y month) := by
  have inside := monthStart_lt y low high
  rw [withYmd_of_bounds years low high (Nat.le_refl 1) (by omega)]
  simp

end Chrono

open Chrono

def partitionName (granularity : TimeGranularity) (y : Int) (month day : Nat) : String :=
  let fields := match granularity with
    | .day => Text.signedPad 4 y ++ '_' :: (Text.zeroPad 2 month ++ '_' :: Text.zeroPad 2 day)
    | .month => Text.signedPad 4 y ++ '_' :: Text.zeroPad 2 month
    | .year => Text.signedPad 4 y
  String.ofList ('p' :: '_' :: fields)

def createPartition (granularity : TimeGranularity) (now ts : Int) : Option PartitionKey := do
  let dt := (timestampOpt ts).getD now
  let name := partitionName granularity (yearOf dt) (monthOf dt) (dayOf dt)
  match granularity with
  | .day =>
    let lo ← withYmd (yearOf dt) (monthOf dt) (dayOf dt)
    let hi ← addDays lo 1
    some ⟨name, 86400 * lo, 86400 * hi⟩
  | .month =>
    let lo ← withYmd (yearOf dt) (monthOf dt) 1
    let (nextYear, nextMonth) :=
      if monthOf dt = 12 then (yearOf dt + 1, 1) else (yearOf dt, monthOf dt + 1)
    let hi ← withYmd nextYear nextMonth 1
    some ⟨name, 86400 * lo, 86400 * hi⟩
  | .year =>
    let lo ← withYmd (yearOf dt) 1 1
    let hi ← withYmd (yearOf dt + 1) 1 1
    some ⟨name, 86400 * lo, 86400 * hi⟩

structure AutoPartitionManager where
  partitions : OrdMap String (List PartitionKey)
  granularity : TimeGranularity

namespace AutoPartitionManager

def new (granularity : TimeGranularity) : AutoPartitionManager := ⟨.empty, granularity⟩

def listPartitions (m : AutoPartitionManager) (cube : String) : List PartitionKey :=
  (m.partitions.get? cube).getD []

def addPartition (list : List PartitionKey) (p : PartitionKey) : List PartitionKey :=
  if list.any (·.name == p.name) then list
  else (list ++ [p]).insertionSort fun a b => a.loTs ≤ b.loTs

def getOrCreate (m : AutoPartitionManager) (now : Int) (cube : String) (ts : Int) :
    Option (AutoPartitionManager × PartitionKey) :=
  match (m.listPartitions cube).find? (·.contains ts) with
  | some pk => some (m, pk)
  | none => do
    let p ← createPartition m.granularity now ts
    some ({ m with partitions := m.partitions.insert cube (addPartition (m.listPartitions cube) p) },
      p)

def dropPartition (m : AutoPartitionManager) (cube name : String) : AutoPartitionManager × Bool :=
  match m.partitions.get? cube with
  | none => (m, false)
  | some list =>
    let kept := list.filter (·.name != name)
    ({ m with partitions := m.partitions.insert cube kept }, decide (kept.length < list.length))

def partitionsInRange (m : AutoPartitionManager) (cube : String) (lo hi : Option Int) :
    List PartitionKey :=
  (m.listPartitions cube).filter fun p =>
    (lo.map fun l => decide (p.hiTs > l)).getD true &&
      (hi.map fun h => decide (p.loTs < h)).getD true

end AutoPartitionManager

def period (granularity : TimeGranularity) (day : Int) : Int :=
  match granularity with
  | .day => day
  | .month => monthNumber day
  | .year => yearOf day

def firstDay (granularity : TimeGranularity) (i : Int) : Int :=
  match granularity with
  | .day => i
  | .month => monthNumberStart i
  | .year => yearStart i

theorem firstDay_lt (granularity : TimeGranularity) (i : Int) :
    firstDay granularity i < firstDay granularity (i + 1) := by
  cases granularity with
  | day => exact Int.lt_succ i
  | month => exact monthNumberStart_lt i
  | year => exact yearStart_lt i

def tiling (granularity : TimeGranularity) : Tiling :=
  inSeconds (firstDay granularity) (firstDay_lt granularity)

theorem period_spec (granularity : TimeGranularity) (day : Int) :
    firstDay granularity (period granularity day) ≤ day ∧
      day < firstDay granularity (period granularity day + 1) := by
  cases granularity with
  | day => exact ⟨le_refl _, Int.lt_succ day⟩
  | month =>
    obtain ⟨low, high, begun, ends⟩ := monthOf_spec day
    simp only [firstDay, period, monthNumber, monthNumberStart_eq _ low high,
      monthNumberStart_next _ low high]
    exact ⟨begun, ends⟩
  | year => exact yearOf_spec day

theorem inCell_period (granularity : TimeGranularity) (ts : Int) :
    (tiling granularity).InCell (period granularity (ts / 86400)) ts := by
  obtain ⟨begun, ends⟩ := period_spec granularity (ts / 86400)
  simp only [Tiling.InCell, tiling, inSeconds]
  omega

def periodPartition (granularity : TimeGranularity) (day : Int) : PartitionKey where
  name := partitionName granularity (yearOf day) (monthOf day) (dayOf day)
  loTs := (tiling granularity).start (period granularity day)
  hiTs := (tiling granularity).start (period granularity day + 1)

theorem contains_periodPartition (granularity : TimeGranularity) (day ts : Int) :
    (periodPartition granularity day).contains ts = true ↔
      (tiling granularity).InCell (period granularity day) ts := by
  rw [PartitionKey.contains, Bool.and_eq_true, decide_eq_true_iff, decide_eq_true_iff]
  exact Iff.rfl

variable {granularity : TimeGranularity}

theorem period_eq_of_name {day other : Int}
    (same : (periodPartition granularity day).name = (periodPartition granularity other).name) :
    period granularity day = period granularity other := by
  have free : ∀ y : Int, '_' ∉ Text.signedPad 4 y :=
    fun _ => Text.notMem_signedPad (by decide) (by decide)
  have fields := String.ofList_injective same
  cases granularity with
  | day =>
    obtain ⟨years, rest⟩ := Text.separated_inj (free _) (free _)
      (List.cons.inj (List.cons.inj fields).2).2
    obtain ⟨months, days⟩ := Text.separated_inj (Text.notMem_zeroPad (by decide))
      (Text.notMem_zeroPad (by decide)) rest
    have first := (dayOf_spec day).2
    have second := (dayOf_spec other).2
    rw [← Text.signedPad_inj years, ← Text.zeroPad_inj months, ← Text.zeroPad_inj days] at second
    exact first.symm.trans second
  | month =>
    obtain ⟨years, months⟩ := Text.separated_inj (free _) (free _)
      (List.cons.inj (List.cons.inj fields).2).2
    simp only [period, monthNumber, Text.signedPad_inj years, Text.zeroPad_inj months]
  | year => exact Text.signedPad_inj (List.cons.inj (List.cons.inj fields).2).2

theorem periodPartition_congr {day other : Int}
    (same : period granularity day = period granularity other) :
    periodPartition granularity day = periodPartition granularity other := by
  have name : partitionName granularity (yearOf day) (monthOf day) (dayOf day) =
      partitionName granularity (yearOf other) (monthOf other) (dayOf other) := by
    cases granularity with
    | day =>
      obtain rfl : day = other := same
      rfl
    | month =>
      obtain ⟨low, high, -⟩ := monthOf_spec day
      obtain ⟨low', high', -⟩ := monthOf_spec other
      simp only [period, monthNumber] at same
      have years : yearOf day = yearOf other := by omega
      have months : monthOf day = monthOf other := by omega
      simp only [partitionName, years, months]
    | year =>
      have years : yearOf day = yearOf other := same
      simp only [partitionName, years]
  simp only [periodPartition, name, same]

def Accepted (granularity : TimeGranularity) (ts : Int) : Prop :=
  Representable (ts / 86400) ∧
    Representable (firstDay granularity (period granularity (ts / 86400) + 1))

instance (granularity : TimeGranularity) (ts : Int) : Decidable (Accepted granularity ts) :=
  inferInstanceAs (Decidable (_ ∧ _))

theorem createPartition_of_accepted {ts : Int} (accepted : Accepted granularity ts) (now : Int) :
    createPartition granularity now ts = some (periodPartition granularity (ts / 86400)) := by
  obtain ⟨date, next⟩ := accepted
  have moment : (timestampOpt ts).getD now = ts / 86400 := by rw [timestampOpt, if_pos date]; rfl
  obtain ⟨low, high, -, ends⟩ := monthOf_spec (ts / 86400)
  cases granularity with
  | day =>
    obtain ⟨positive, whole⟩ := dayOf_spec (ts / 86400)
    have lo := withYmd_of_bounds date low high positive (by rw [whole]; exact ends)
    rw [whole] at lo
    have hi : addDays (ts / 86400) 1 = some (ts / 86400 + 1) := if_pos next
    simp [createPartition, moment, lo, hi, periodPartition, tiling, inSeconds, firstDay, period]
  | month =>
    have years : minYear ≤ (monthNumber (ts / 86400) + 1) / 12 ∧
        (monthNumber (ts / 86400) + 1) / 12 ≤ maxYear := by
      simpa only [Representable, firstDay, period, yearOf_monthNumberStart] using next
    have hi : withYmd (if monthOf (ts / 86400) = 12 then (yearOf (ts / 86400) + 1, 1)
          else (yearOf (ts / 86400), monthOf (ts / 86400) + 1)).1
        (if monthOf (ts / 86400) = 12 then (yearOf (ts / 86400) + 1, 1)
          else (yearOf (ts / 86400), monthOf (ts / 86400) + 1)).2 1 =
        some (monthNumberStart (monthNumber (ts / 86400) + 1)) := by
      rw [monthNumber, monthNumberStart_next _ low high]
      split
      · next december =>
        have shift : (12 * yearOf (ts / 86400) + ((monthOf (ts / 86400) : Int) - 1) + 1) / 12 =
            yearOf (ts / 86400) + 1 := by omega
        rw [monthNumber, shift] at years
        rw [withYmd_first years (Nat.le_refl 1) (by simp), december, monthStart_thirteen]
        simp [monthStart, daysBefore]
      · exact withYmd_first date (by omega) (by omega)
    simp [createPartition, moment, withYmd_first date low high, hi, periodPartition, tiling,
      inSeconds, firstDay, period, monthNumber, monthNumberStart_eq _ low high]
  | year =>
    have years : minYear ≤ yearOf (ts / 86400) + 1 ∧ yearOf (ts / 86400) + 1 ≤ maxYear := by
      simpa only [Representable, firstDay, period, yearOf_yearStart] using next
    have first : ∀ y, monthStart y 1 = yearStart y := fun y => by simp [monthStart, daysBefore]
    simp [createPartition, moment, withYmd_first date (Nat.le_refl 1) (by decide : 1 ≤ 12),
      withYmd_first years (Nat.le_refl 1) (by decide : 1 ≤ 12), first, periodPartition, tiling,
      inSeconds, firstDay, period]

end WowDb.Storage

namespace WowDb.Storage.AutoPartitionManager
open WowDb.Lib List

structure Tidy (granularity : TimeGranularity) (list : List PartitionKey) : Prop where
  periods : ∀ p ∈ list, ∃ day, p = periodPartition granularity day
  names : (list.map (·.name)).Nodup
  sorted : list.Pairwise fun p q => p.loTs ≤ q.loTs

namespace Tidy
variable {granularity : TimeGranularity} {list : List PartitionKey}

theorem nil (granularity : TimeGranularity) : Tidy granularity [] :=
  ⟨by simp, by simp, List.Pairwise.nil⟩

variable (tidy : Tidy granularity list)

include tidy

theorem eq_of_contains {p : PartitionKey} {ts : Int}
    (mem : p ∈ list) (inside : p.contains ts = true) :
    p = periodPartition granularity (ts / 86400) := by
  obtain ⟨day, rfl⟩ := tidy.periods p mem
  rw [contains_periodPartition] at inside
  exact periodPartition_congr ((tiling granularity).cell_unique inside (inCell_period _ ts))

theorem ordered : list.Pairwise fun p q => p.hiTs ≤ q.loTs := by
  have names : list.Pairwise fun p q => p.name ≠ q.name := pairwise_map.mp tidy.names
  refine (tidy.sorted.and names).imp_of_mem fun {p q} memP memQ both => ?_
  obtain ⟨day, rfl⟩ := tidy.periods p memP
  obtain ⟨other, rfl⟩ := tidy.periods q memQ
  obtain ⟨before, different⟩ := both
  have mono := (tiling granularity).strictMono
  have order : period granularity day ≤ period granularity other := mono.le_iff_le.mp before
  have apart : period granularity day ≠ period granularity other :=
    fun same => different (congrArg _ (periodPartition_congr same))
  exact mono.le_iff_le.mpr (by omega)

theorem filter (keep : PartitionKey → Bool) :
    Tidy granularity (list.filter keep) where
  periods p mem := tidy.periods p (mem_of_mem_filter mem)
  names := tidy.names.sublist (filter_sublist.map _)
  sorted := tidy.sorted.sublist filter_sublist

theorem name_fresh {ts : Int} (missing : list.find? (·.contains ts) = none) :
    (periodPartition granularity (ts / 86400)).name ∉ list.map (·.name) := by
  intro live
  obtain ⟨p, mem, named⟩ := mem_map.mp live
  obtain ⟨day, rfl⟩ := tidy.periods p mem
  have inside := (contains_periodPartition granularity day ts).mpr
    (period_eq_of_name named ▸ inCell_period granularity ts)
  exact find?_eq_none.mp missing _ mem inside

theorem addPartition (day : Int)
    (fresh : (periodPartition granularity day).name ∉ list.map (·.name)) :
    (AutoPartitionManager.addPartition list (periodPartition granularity day)).Perm
        (periodPartition granularity day :: list) ∧
      Tidy granularity
        (AutoPartitionManager.addPartition list (periodPartition granularity day)) := by
  have absent : list.any (·.name == (periodPartition granularity day).name) = false := by
    rw [any_eq_false]
    intro p mem same
    exact fresh (mem_map.mpr ⟨p, mem, eq_of_beq same⟩)
  have total : Std.Total fun a b : PartitionKey => a.loTs ≤ b.loTs := ⟨fun _ _ => Int.le_total _ _⟩
  have trans : IsTrans PartitionKey fun a b => a.loTs ≤ b.loTs := ⟨fun _ _ _ => Int.le_trans⟩
  rw [AutoPartitionManager.addPartition, absent, if_neg Bool.false_ne_true]
  have perm := (perm_insertionSort (fun a b : PartitionKey => a.loTs ≤ b.loTs)
    (list ++ [periodPartition granularity day])).trans (perm_append_singleton _ list)
  refine ⟨perm, ?_, ?_, pairwise_insertionSort _ _⟩
  · intro p mem
    rcases mem_cons.mp (perm.mem_iff.mp mem) with rfl | old
    · exact ⟨day, rfl⟩
    · exact tidy.periods p old
  · rw [(perm.map _).nodup_iff]
    exact nodup_cons.mpr ⟨fresh, tidy.names⟩

end Tidy

def Invariant (m : AutoPartitionManager) : Prop :=
  ∀ cube, Tidy m.granularity (m.listPartitions cube)

theorem listPartitions_insert (m : AutoPartitionManager) (cube other : String)
    (list : List PartitionKey) :
    listPartitions { m with partitions := m.partitions.insert cube list } other =
      if other = cube then list else m.listPartitions other := by
  simp only [listPartitions, OrdMap.get?_insert]
  split <;> rfl

variable {m : AutoPartitionManager}

theorem invariant_insert (inv : Invariant m) (cube : String) {list : List PartitionKey}
    (tidy : Tidy m.granularity list) :
    Invariant { m with partitions := m.partitions.insert cube list } := by
  intro other
  rw [listPartitions_insert]
  split
  · exact tidy
  · exact inv other

theorem getOrCreate_spec (inv : Invariant m) (now : Int) (cube : String) {ts : Int}
    (accepted : Accepted m.granularity ts) :
    ∃ after, getOrCreate m now cube ts = some (after, periodPartition m.granularity (ts / 86400)) ∧
      periodPartition m.granularity (ts / 86400) ∈ after.listPartitions cube ∧ Invariant after := by
  rw [getOrCreate]
  split
  · next pk found =>
    have mem := mem_of_find?_eq_some found
    have inside : pk.contains ts = true := by simpa using find?_some found
    obtain rfl := (inv cube).eq_of_contains mem inside
    exact ⟨m, rfl, mem, inv⟩
  · next missing =>
    obtain ⟨perm, tidy⟩ := (inv cube).addPartition (ts / 86400) ((inv cube).name_fresh missing)
    rw [createPartition_of_accepted accepted]
    refine ⟨_, rfl, ?_, invariant_insert inv cube tidy⟩
    rw [listPartitions_insert, if_pos rfl]
    exact perm.mem_iff.mpr mem_cons_self

theorem invariant_dropPartition (inv : Invariant m) (cube name : String) :
    Invariant (m.dropPartition cube name).1 := by
  rw [dropPartition]
  split
  · exact inv
  · next list found =>
    have live : m.listPartitions cube = list := by rw [listPartitions, found]; rfl
    exact invariant_insert inv cube (live ▸ (inv cube).filter _)

inductive Call where
  | getOrCreate (now : Int) (cube : String) (ts : Int)
  | dropPartition (cube name : String)

def step (m : AutoPartitionManager) : Call → Option AutoPartitionManager
  | .getOrCreate now cube ts =>
    if Accepted m.granularity ts then (m.getOrCreate now cube ts).map Prod.fst else none
  | .dropPartition cube name => some (m.dropPartition cube name).1

theorem invariant_step {after : AutoPartitionManager} {call : Call} (inv : Invariant m)
    (taken : step m call = some after) : Invariant after := by
  cases call with
  | getOrCreate now cube ts =>
    rw [step] at taken
    split at taken
    · next accepted =>
      obtain ⟨next, answer, -, kept⟩ := getOrCreate_spec inv now cube accepted
      rw [answer] at taken
      exact Option.some.inj taken ▸ kept
    · cases taken
  | dropPartition cube name => exact Option.some.inj taken ▸ invariant_dropPartition inv cube name

theorem invariant_new (granularity : TimeGranularity) : Invariant (new granularity) :=
  fun _ => Tidy.nil granularity

def Intersects (p : PartitionKey) (lo hi : Option Int) : Prop :=
  ∃ ts, p.contains ts = true ∧ (∀ l, lo = some l → l ≤ ts) ∧ ∀ h, hi = some h → ts < h

structure Tiles (m : AutoPartitionManager) (cube : String) (lo hi : Option Int) : Prop where
  /-- The answer is the calendar's partition, whatever was created before. -/
  returned : ∀ now ts, Accepted m.granularity ts → ∃ after, m.getOrCreate now cube ts =
        some (after, periodPartition m.granularity (ts / 86400)) ∧
      periodPartition m.granularity (ts / 86400) ∈ after.listPartitions cube ∧
      (periodPartition m.granularity (ts / 86400)).contains ts = true
  calendar : ∀ p ∈ m.listPartitions cube, ∃ day, p = periodPartition m.granularity day
  atMostOne : ∀ ts, ∀ p ∈ m.listPartitions cube, ∀ q ∈ m.listPartitions cube,
    p.contains ts = true → q.contains ts = true → p = q
  names : ((m.listPartitions cube).map (·.name)).Nodup
  disjoint : (m.listPartitions cube).Pairwise fun p q => p.hiTs ≤ q.loTs
  inRange : ∀ p, p ∈ m.partitionsInRange cube lo hi ↔ p ∈ m.listPartitions cube ∧ Intersects p lo hi

def RangeProper (m : AutoPartitionManager) (cube : String) (lo hi : Option Int) : Prop :=
  ∀ l ∈ lo, ∀ h ∈ hi, h ≤ l → ∀ p ∈ m.listPartitions cube, ¬ (p.loTs < h ∧ l < p.hiTs)

theorem mem_partitionsInRange (m : AutoPartitionManager) (cube : String) (lo hi : Option Int)
    (p : PartitionKey) :
    p ∈ m.partitionsInRange cube lo hi ↔ p ∈ m.listPartitions cube ∧
      (∀ l ∈ lo, l < p.hiTs) ∧ ∀ h ∈ hi, p.loTs < h := by
  cases lo <;> cases hi <;> simp [partitionsInRange, mem_filter]

theorem lo_lt_hi_of_mem (inv : Invariant m) {cube : String} {p : PartitionKey}
    (mem : p ∈ m.listPartitions cube) : p.loTs < p.hiTs := by
  obtain ⟨day, rfl⟩ := (inv cube).periods p mem
  exact (tiling _).increasing _

theorem intersects_iff {p : PartitionKey} (nonempty : p.loTs < p.hiTs) (lo hi : Option Int) :
    Intersects p lo hi ↔ (∀ l ∈ lo, l < p.hiTs) ∧ (∀ h ∈ hi, p.loTs < h) ∧
      ∀ l ∈ lo, ∀ h ∈ hi, l < h := by
  simp only [Intersects, PartitionKey.contains, Bool.and_eq_true, decide_eq_true_iff]
  constructor
  · rintro ⟨ts, ⟨low, high⟩, above, below⟩
    refine ⟨fun l isLo => ?_, fun h isHi => ?_, fun l isLo h isHi => ?_⟩
    · exact Int.lt_of_le_of_lt (above l isLo) high
    · exact Int.lt_of_le_of_lt low (below h isHi)
    · exact Int.lt_of_le_of_lt (above l isLo) (below h isHi)
  · rintro ⟨above, below, proper⟩
    -- the later of the two starts is in both ranges
    refine ⟨max p.loTs (lo.getD p.loTs), ?_⟩
    cases lo with
    | none => cases hi <;> simp_all
    | some l => cases hi <;> simp_all

theorem inRange_iff (inv : Invariant m) (cube : String) (lo hi : Option Int) :
    (∀ p, p ∈ m.partitionsInRange cube lo hi ↔
      p ∈ m.listPartitions cube ∧ Intersects p lo hi) ↔ RangeProper m cube lo hi := by
  constructor
  · intro exactly l isLo h isHi crossed p live reach
    have answered := (mem_partitionsInRange m cube lo hi p).mpr
      ⟨live, fun _ same => Option.mem_unique isLo same ▸ reach.2,
        fun _ same => Option.mem_unique isHi same ▸ reach.1⟩
    have meets := ((exactly p).mp answered).2
    rw [intersects_iff (lo_lt_hi_of_mem inv live)] at meets
    exact absurd (meets.2.2 l isLo h isHi) (by omega)
  · intro proper p
    rw [mem_partitionsInRange]
    refine and_congr_right fun live => ?_
    rw [intersects_iff (lo_lt_hi_of_mem inv live)]
    refine ⟨fun ⟨above, below⟩ => ⟨above, below, fun l isLo h isHi => ?_⟩,
      fun ⟨above, below, _⟩ => ⟨above, below⟩⟩
    by_contra crossed
    exact proper l isLo h isHi (by omega) p live ⟨below h isHi, above l isLo⟩

/-- Time is tiled exactly for proper ranges. -/
theorem tiles_iff_rangeProper (granularity : TimeGranularity) (calls : List Call) :
    Run.EveryState step (fun m => ∀ cube lo hi, Tiles m cube lo hi ↔ RangeProper m cube lo hi)
      (new granularity) calls := by
  refine (Run.everyState_of_step (fun _ _ _ => invariant_step) calls _
    (invariant_new granularity)).imp ?_
  intro m inv cube lo hi
  rw [← inRange_iff inv]
  refine ⟨Tiles.inRange, fun inRange => ?_⟩
  refine ⟨fun now ts accepted => ?_, (inv cube).periods, fun ts p memP q memQ inP inQ => ?_,
    (inv cube).names, (inv cube).ordered, inRange⟩
  · obtain ⟨after, answer, live, -⟩ := getOrCreate_spec inv now cube accepted
    exact ⟨after, answer, live, (contains_periodPartition _ _ _).mpr (inCell_period _ ts)⟩
  · rw [(inv cube).eq_of_contains memP inP, (inv cube).eq_of_contains memQ inQ]

theorem empty_range_answers :
    ∃ m, Run.exec step (new .month) [.getOrCreate 0 "events" 1705276800] = some m ∧
      (m.partitionsInRange "events" (some 1705276800) (some 1705276800)).map (·.name) =
        ["p_2024_01"] ∧
      ¬ Tiles m "events" (some 1705276800) (some 1705276800) := by
  refine ⟨_, rfl, by decide +kernel, fun tiles => ?_⟩
  obtain ⟨-, ts, -, above, below⟩ :=
    (tiles.inRange ⟨"p_2024_01", 1704067200, 1706745600⟩).mp (by decide +kernel)
  have := above _ rfl
  have := below _ rfl
  omega

end WowDb.Storage.AutoPartitionManager
