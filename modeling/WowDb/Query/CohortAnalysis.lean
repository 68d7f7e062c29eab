import WowDb.Query.Analytics

/-!
# Cohorts

COHORT_ANALYSIS of `analytics_exec.rs`: users by the week they entered in, and who came back.
-/
namespace WowDb.Query.Analytics
open WowDb.Lib List

variable {ν φ : Type} (H : Host ν φ) (C : EventColumns)

structure CohortEvents where
  entryEvent : String := "signup"
  returnEvent : String := "purchase"

structure Cohort where
  size : Nat := 0
  d7 : Nat := 0
  d14 : Nat := 0
  d30 : Nat := 0
  deriving DecidableEq

def daysSince (entryTs ts : Int64) : Int64 := (ts - entryTs) / 86400

def countReturns (returnEvent : String) (entryTs : Int64) : Cohort → List Event → Cohort
  | entry, [] => entry
  | entry, (ts, event) :: rest =>
    if event = returnEvent ∧ entryTs < ts then
      let days := daysSince entryTs ts
      let entry := if days ≤ 7 then { entry with d7 := entry.d7 + 1 } else entry
      let entry := if days ≤ 14 then { entry with d14 := entry.d14 + 1 } else entry
      if days ≤ 30 then { entry with d30 := entry.d30 + 1 }
      else countReturns returnEvent entryTs entry rest
    else countReturns returnEvent entryTs entry rest

def entryTime (E : CohortEvents) (events : List Event) : Option Int64 :=
  (events.find? fun e => e.2 = E.entryEvent).map Prod.fst

def cohortWeek (entryTs : Int64) : Int64 := entryTs / (86400 * 7)

def addUser (E : CohortEvents) (data : OrdMap Int64 Cohort) (events : List Event) :
    OrdMap Int64 Cohort :=
  match entryTime E events with
  | none => data
  | some entryTs =>
    let entry := (data.get? (cohortWeek entryTs)).getD {}
    data.insert (cohortWeek entryTs)
      (countReturns E.returnEvent entryTs { entry with size := entry.size + 1 } events)

def cohortData (E : CohortEvents) (rows : List (Row ν)) : Option (OrdMap Int64 Cohort) :=
  (userEvents H C rows).map fun users =>
    (users.entries.map Prod.snd).foldl (addUser E) .empty

def executeCohortAnalysis (percent : Nat → Nat → String) (E : CohortEvents) (rows : List (Row ν)) :
    Option (SelectResult ν) :=
  (cohortData H C E rows).map fun data =>
    { columns := ["cohort_week", "cohort_size", "day_7_retention", "day_14_retention",
        "day_30_retention"]
      rows := (data.entries.map fun e =>
        ("Week " ++ toString e.1.toInt, e.2)).insertionSort
          (fun a b => Eval.jsonText H (.string a.1) ≤ Eval.jsonText H (.string b.1)) |>.map
        fun e => [.string e.1, .number (H.ofInt e.2.size), .string (percent e.2.d7 e.2.size),
          .string (percent e.2.d14 e.2.size), .string (percent e.2.d30 e.2.size)] }

variable (E : CohortEvents)

def Enters (events : List Event) (t : Int64) : Prop :=
  (∃ e ∈ events, e.2 = E.entryEvent ∧ e.1 = t) ∧ ∀ e ∈ events, e.2 = E.entryEvent → t ≤ e.1

def EntersIn (week : Int) (events : List Event) : Prop :=
  ∃ t, Enters E events t ∧ 604800 * week ≤ t.toInt ∧ t.toInt < 604800 * (week + 1)

def Returns (days : Int) (events : List Event) (t : Int64) : Prop :=
  ∃ e ∈ events, e.2 = E.returnEvent ∧ t < e.1 ∧ (e.1.toInt - t.toInt) / 86400 ≤ days

instance (days : Int) (events : List Event) (t : Int64) : Decidable (Returns E days events t) :=
  inferInstanceAs (Decidable (∃ e ∈ events, _))

noncomputable def cohortSize (rows : List (Row ν)) (week : Int) : Nat :=
  {user | IsUser H C rows user ∧ EntersIn E week (eventsOf H C rows user)}.ncard

noncomputable def returning (rows : List (Row ν)) (week : Int) (days : Int) : Nat :=
  {user | IsUser H C rows user ∧ EntersIn E week (eventsOf H C rows user) ∧
    ∃ t, Enters E (eventsOf H C rows user) t ∧ Returns E days (eventsOf H C rows user) t}.ncard

/-- The counts of every week are what they are named. -/
def CohortsRight (rows : List (Row ν)) : Prop :=
  ∃ data, cohortData H C E rows = some data ∧ ∀ week : Int64, let counts := (data.get? week).getD {}
    (counts.d7 ≤ counts.d14 ∧ counts.d14 ≤ counts.d30 ∧ counts.d30 ≤ counts.size) ∧
    counts.size = cohortSize H C E rows week.toInt ∧
    counts.d7 = returning H C E rows week.toInt 7 ∧
    counts.d14 = returning H C E rows week.toInt 14 ∧
    counts.d30 = returning H C E rows week.toInt 30

variable {E}

variable {events : List Event}

variable {e : Event}

theorem find?_sortByTime {p : Event → Bool} (found : (sortByTime events).find? p = some e) :
    e ∈ events ∧ p e = true ∧ ∀ other ∈ events, p other = true → e.1 ≤ other.1 := by
  obtain ⟨passes, before, after, parts, fail⟩ := find?_eq_some_iff_append.mp found
  have sorted := pairwise_sortByTime events
  have perm := sortByTime_perm events
  rw [parts] at sorted perm
  refine ⟨perm.mem_iff.mp (by simp), passes, fun other member holds => ?_⟩
  rcases mem_append.mp (perm.mem_iff.mpr member) with early | late
  · have failed := fail other early
    rw [holds] at failed
    cases failed
  · rcases mem_cons.mp late with rfl | later
    · exact le_rfl
    · exact (pairwise_cons.mp (pairwise_append.mp sorted).2.1).1 other later

variable {t : Int64}

theorem entryTime_eq_some_iff : entryTime E (sortByTime events) = some t ↔ Enters E events t := by
  unfold entryTime
  constructor
  · intro found
    obtain ⟨e, first, rfl⟩ := Option.map_eq_some_iff.mp found
    obtain ⟨member, named, least⟩ := find?_sortByTime first
    exact ⟨⟨e, member, of_decide_eq_true named, rfl⟩, fun other inEvents same =>
      least other inEvents (decide_eq_true same)⟩
  · rintro ⟨⟨e, member, named, rfl⟩, least⟩
    have present : ((sortByTime events).find? fun e => e.2 = E.entryEvent).isSome = true := by
      rw [find?_isSome]
      exact ⟨e, (sortByTime_perm events).mem_iff.mpr member, decide_eq_true named⟩
    obtain ⟨first, found⟩ := Option.isSome_iff_exists.mp present
    obtain ⟨inEvents, isEntry, earliest⟩ := find?_sortByTime found
    rw [found, Option.map_some, le_antisymm (earliest e member (decide_eq_true named))
      (least first inEvents (of_decide_eq_true isEntry))]

variable {u : Int64}

theorem Enters.unique (first : Enters E events t) (second : Enters E events u) : t = u := by
  rw [← entryTime_eq_some_iff] at first second
  exact Option.some_inj.mp (first.symm.trans second)

def isCounted (returnEvent : String) (entryTs : Int64) (e : Event) : Bool :=
  e.2 = returnEvent ∧ entryTs < e.1 ∧ daysSince entryTs e.1 ≤ 30

def counted (E : CohortEvents) (days : Int64) (events : List Event) (t : Int64) : Bool :=
  (events.find? (isCounted E.returnEvent t)).any fun e => daysSince t e.1 ≤ days

theorem countReturns_eq (t : Int64) (entry : Cohort) (events : List Event) :
    countReturns E.returnEvent t entry events = { entry with
        d7 := entry.d7 + (counted E 7 events t).toNat
        d14 := entry.d14 + (counted E 14 events t).toNat
        d30 := entry.d30 + (counted E 30 events t).toNat } := by
  induction events generalizing entry with
  | nil => rfl
  | cons e rest ih =>
    rw [countReturns]
    by_cases isReturn : e.2 = E.returnEvent ∧ t < e.1
    · rw [if_pos isReturn]
      by_cases month : daysSince t e.1 ≤ 30
      · have ends : isCounted E.returnEvent t e = true :=
          decide_eq_true ⟨isReturn.1, isReturn.2, month⟩
        simp only [counted, find?_cons_of_pos ends, Option.any_some, month, if_true]
        by_cases week : daysSince t e.1 ≤ 7 <;> by_cases two : daysSince t e.1 ≤ 14 <;>
          simp [week, two]
      · have passed : isCounted E.returnEvent t e = false := by
          simp [isCounted, month]
        have notWeek : ¬ daysSince t e.1 ≤ 7 := fun le => month (le.trans (by decide))
        have notTwo : ¬ daysSince t e.1 ≤ 14 := fun le => month (le.trans (by decide))
        simp only [notWeek, notTwo, month, if_false, ih, counted,
          find?_cons_of_neg (by simp [passed] : ¬ isCounted E.returnEvent t e = true)]
    · have passed : ¬ isCounted E.returnEvent t e = true := fun holds =>
        isReturn ⟨(of_decide_eq_true holds).1, (of_decide_eq_true holds).2.1⟩
      simp only [if_neg isReturn, ih, counted, find?_cons_of_neg passed]

theorem daysSince_toInt (after : t < u) (fits : u.toInt - t.toInt < 2 ^ 63) :
    (daysSince t u).toInt = (u.toInt - t.toInt) / 86400 := by
  have less := Int64.lt_iff_toInt_lt.mp after
  have difference : (u - t).toInt = u.toInt - t.toInt := by
    rw [Int64.toInt_sub, Int.bmod_eq_of_le (by omega) (by omega)]
  rw [daysSince, Int64.toInt_div_of_ne_right _ _ (by decide), difference]
  exact Int.tdiv_eq_ediv_of_nonneg (by omega)

theorem daysSince_wraps (far : 2 ^ 63 ≤ u.toInt - t.toInt) : (daysSince t u).toInt ≤ 0 := by
  have high := u.toInt_lt
  have low := t.le_toInt
  have difference : (u - t).toInt = u.toInt - t.toInt - (2 ^ 64 : Nat) := by
    rw [Int64.toInt_sub, ← Int.sub_bmod_right]
    exact Int.bmod_eq_of_le (by omega) (by omega)
  rw [daysSince, Int64.toInt_div_of_ne_right _ _ (by decide), difference]
  have backward : 0 ≤ (-(u.toInt - t.toInt - (2 ^ 64 : Nat))).tdiv 86400 :=
    Int.tdiv_nonneg (by omega) (by decide)
  rw [Int.neg_tdiv] at backward
  exact Int.neg_nonneg.mp backward

variable (E) in
def ReturnWraps (events : List Event) (t : Int64) : Prop :=
  ∃ e ∈ events, e.2 = E.returnEvent ∧ 2 ^ 63 ≤ e.1.toInt - t.toInt

instance (events : List Event) (t : Int64) : Decidable (ReturnWraps E events t) :=
  inferInstanceAs (Decidable (∃ e ∈ events, _))

variable {days : Int64}

theorem daysSince_le_iff (after : t < u) (low : 0 ≤ days) : daysSince t u ≤ days ↔
      (u.toInt - t.toInt) / 86400 ≤ days.toInt ∨ 2 ^ 63 ≤ u.toInt - t.toInt := by
  have lowInt : 0 ≤ days.toInt := Int64.le_iff_toInt_le.mp low
  rw [Int64.le_iff_toInt_le]
  rcases lt_or_ge (u.toInt - t.toInt) (2 ^ 63) with fits | far
  · rw [daysSince_toInt after fits, or_iff_left (not_le_of_gt fits)]
  · exact iff_of_true ((daysSince_wraps far).trans lowInt) (.inr far)

theorem isCounted_iff :
    isCounted E.returnEvent t e = true ↔ e.2 = E.returnEvent ∧ t < e.1 ∧
      ((e.1.toInt - t.toInt) / 86400 ≤ 30 ∨ 2 ^ 63 ≤ e.1.toInt - t.toInt) := by
  rw [isCounted, decide_eq_true_iff]
  exact and_congr_right fun _ => and_congr_right fun after => daysSince_le_iff after (by decide)

theorem exists_ending (member : e ∈ events) (ends : isCounted E.returnEvent t e = true) :
    ∃ first, (sortByTime events).find? (isCounted E.returnEvent t) = some first ∧
      first.1.toInt ≤ e.1.toInt := by
  have present : ((sortByTime events).find? (isCounted E.returnEvent t)).isSome = true := by
    rw [find?_isSome]
    exact ⟨e, (sortByTime_perm events).mem_iff.mpr member, ends⟩
  obtain ⟨first, found⟩ := Option.isSome_iff_exists.mp present
  exact ⟨first, found, Int64.le_iff_toInt_le.mp ((find?_sortByTime found).2.2 e member ends)⟩

theorem counted_iff (low : 0 ≤ days) (high : days ≤ 30) :
    counted E days (sortByTime events) t = true ↔
      Returns E days.toInt events t ∨ ¬ Returns E 30 events t ∧ ReturnWraps E events t := by
  have highInt : days.toInt ≤ 30 := Int64.le_iff_toInt_le.mp high
  simp only [counted, Option.any_eq_true, decide_eq_true_iff]
  constructor
  · rintro ⟨e, found, within⟩
    obtain ⟨member, ends, least⟩ := find?_sortByTime found
    obtain ⟨named, after, -⟩ := isCounted_iff.mp ends
    rcases (daysSince_le_iff after low).mp within with near | far
    · exact .inl ⟨e, member, named, after, near⟩
    · refine .inr ⟨fun ⟨f, inEvents, isReturn, later, near⟩ => ?_, e, member, named, far⟩
      have first := Int64.le_iff_toInt_le.mp
        (least f inEvents (isCounted_iff.mpr ⟨isReturn, later, .inl near⟩))
      omega
  · rintro (⟨f, inEvents, named, after, near⟩ | ⟨none, f, inEvents, named, far⟩)
    · obtain ⟨e, found, le⟩ := exists_ending inEvents
        (isCounted_iff.mpr ⟨named, after, .inl (near.trans highInt)⟩)
      obtain ⟨-, ends, -⟩ := find?_sortByTime found
      refine ⟨e, found, (daysSince_le_iff (isCounted_iff.mp ends).2.1 low).mpr (.inl ?_)⟩
      omega
    · have after : t < f.1 := Int64.lt_iff_toInt_lt.mpr (by omega)
      obtain ⟨e, found, -⟩ := exists_ending inEvents (isCounted_iff.mpr ⟨named, after, .inr far⟩)
      obtain ⟨member, ends, -⟩ := find?_sortByTime found
      obtain ⟨isReturn, later, near | wraps⟩ := isCounted_iff.mp ends
      · exact absurd ⟨e, member, isReturn, later, near⟩ none
      · exact ⟨e, found, (daysSince_le_iff later low).mpr (.inr wraps)⟩

def joins (E : CohortEvents) (week : Int64) (events : List Event) : Bool :=
  (entryTime E events).any fun t => cohortWeek t = week

def joinsCounted (E : CohortEvents) (days week : Int64) (events : List Event) : Bool :=
  (entryTime E events).any fun t => cohortWeek t = week ∧ counted E days events t

theorem getD_addUser (data : OrdMap Int64 Cohort) (events : List Event) (week : Int64) :
    ((addUser E data events).get? week).getD {} =
      { size := ((data.get? week).getD {}).size + (joins E week events).toNat
        d7 := ((data.get? week).getD {}).d7 + (joinsCounted E 7 week events).toNat
        d14 := ((data.get? week).getD {}).d14 + (joinsCounted E 14 week events).toNat
        d30 := ((data.get? week).getD {}).d30 + (joinsCounted E 30 week events).toNat } := by
  unfold addUser joins joinsCounted
  cases entryTime E events with
  | none => rfl
  | some t =>
    dsimp only
    rw [OrdMap.get?_insert]
    by_cases here : week = cohortWeek t
    · subst here
      simp [countReturns_eq]
    · simp [here, Ne.symm here]

theorem getD_foldl_addUser (users : List (List Event)) (data : OrdMap Int64 Cohort) (week : Int64) :
    ((users.foldl (addUser E) data).get? week).getD {} =
      { size := ((data.get? week).getD {}).size + users.countP (joins E week)
        d7 := ((data.get? week).getD {}).d7 + users.countP (joinsCounted E 7 week)
        d14 := ((data.get? week).getD {}).d14 + users.countP (joinsCounted E 14 week)
        d30 := ((data.get? week).getD {}).d30 + users.countP (joinsCounted E 30 week) } := by
  induction users generalizing data with
  | nil => rfl
  | cons events rest ih =>
    rw [foldl_cons, ih, getD_addUser]
    simp only [countP_cons, Cohort.mk.injEq, Bool.toNat, Bool.cond_eq_ite]
    omega

theorem joins_iff {week : Int64} :
    joins E week (sortByTime events) = true ↔ ∃ t, Enters E events t ∧ cohortWeek t = week := by
  simp only [joins, Option.any_eq_true, decide_eq_true_iff, entryTime_eq_some_iff]

theorem joinsCounted_iff {week : Int64} (low : 0 ≤ days) (high : days ≤ 30) :
    joinsCounted E days week (sortByTime events) = true ↔ ∃ t, Enters E events t ∧
      cohortWeek t = week ∧ (Returns E days.toInt events t ∨
        ¬ Returns E 30 events t ∧ ReturnWraps E events t) := by
  simp only [joinsCounted, Option.any_eq_true, decide_eq_true_iff, entryTime_eq_some_iff,
    counted_iff low high]

variable {H C}

variable {rows : List (Row ν)}

theorem cohortData_eq_some (readable : Readable H C rows) :
    ∃ data, cohortData H C E rows = some data ∧ ∀ week, (data.get? week).getD {} =
      { size := {user | IsUser H C rows user ∧
          joins E week (sortByTime (eventsOf H C rows user)) = true}.ncard
        d7 := {user | IsUser H C rows user ∧
          joinsCounted E 7 week (sortByTime (eventsOf H C rows user)) = true}.ncard
        d14 := {user | IsUser H C rows user ∧
          joinsCounted E 14 week (sortByTime (eventsOf H C rows user)) = true}.ncard
        d30 := {user | IsUser H C rows user ∧
          joinsCounted E 30 week (sortByTime (eventsOf H C rows user)) = true}.ncard } := by
  obtain ⟨m, users, grouped⟩ := userEvents_eq_some readable
  refine ⟨_, by rw [cohortData, users, Option.map_some], fun week => ?_⟩
  rw [getD_foldl_addUser]
  simp only [countP_map, ← countP_users grouped]
  simp [OrdMap.get?_empty, Function.comp_def]

def Misplaced (t : Int64) : Prop := t < 0 ∧ ¬ 604800 ∣ t.toInt

instance (t : Int64) : Decidable (Misplaced t) := inferInstanceAs (Decidable (_ ∧ _))

theorem cohortWeek_toInt (t : Int64) :
    (cohortWeek t).toInt = t.toInt / 604800 + if Misplaced t then 1 else 0 := by
  have size : (86400 * 7 : Int64).toInt = 604800 := rfl
  rw [cohortWeek, Int64.toInt_div_of_ne_right _ _ (by decide), size, Int.tdiv_eq_ediv]
  congr 1
  have negative : t < 0 ↔ ¬ 0 ≤ t.toInt := by
    rw [Int64.lt_iff_toInt_lt, Int.not_le]
    rfl
  by_cases placed : 0 ≤ t.toInt ∨ 604800 ∣ t.toInt
  · rw [if_pos placed, if_neg]
    exact fun misplaced => placed.elim (negative.mp misplaced.1) misplaced.2
  · obtain ⟨below, inside⟩ := not_or.mp placed
    rw [if_neg placed, if_pos ⟨negative.mpr below, inside⟩]
    rfl

theorem entersIn_iff {week : Int} :
    EntersIn E week events ↔ ∃ t, Enters E events t ∧ t.toInt / 604800 = week := by
  refine exists_congr fun t => and_congr_right fun _ => ?_
  omega

variable (H C E) in
/-- No user enters at a misplaced time. -/
def Placed (rows : List (Row ν)) : Prop :=
  ∀ user, IsUser H C rows user → ∀ t, Enters E (eventsOf H C rows user) t → ¬ Misplaced t

variable (placed : Placed H C E rows)

include placed in
theorem joins_iff_entersIn {user : String} (isUser : IsUser H C rows user) (week : Int64) :
    joins E week (sortByTime (eventsOf H C rows user)) = true ↔
      EntersIn E week.toInt (eventsOf H C rows user) := by
  rw [joins_iff, entersIn_iff]
  refine exists_congr fun t => and_congr_right fun enters => ?_
  rw [← Int64.toInt_inj, cohortWeek_toInt, if_neg (placed user isUser t enters), Int.add_zero]

theorem placed_of_sizes (sizes : ∀ week : Int64, {user | IsUser H C rows user ∧ joins E week
      (sortByTime (eventsOf H C rows user)) = true}.ncard = cohortSize H C E rows week.toInt) :
    Placed H C E rows := by
  intro user isUser t enters misplaced
  let entry (user : String) := (entryTime E (sortByTime (eventsOf H C rows user))).getD 0
  have entry_eq : ∀ {user t}, Enters E (eventsOf H C rows user) t → entry user = t := by
    intro user t enters
    simp only [entry, entryTime_eq_some_iff.mpr enters, Option.getD_some]
  let misplacedUsers := {user | IsUser H C rows user ∧
    ∃ t, Enters E (eventsOf H C rows user) t ∧ Misplaced t}
  obtain ⟨first, ⟨isFirst, u, entersFirst, late⟩, least⟩ := Set.exists_min_image misplacedUsers
    (fun user => (entry user).toInt / 604800) ((finite_isUser rows).subset fun _ both => both.1)
    ⟨user, isUser, t, enters, misplaced⟩
  have low := u.le_toInt
  have high := u.toInt_lt
  have week : (Int64.ofInt (u.toInt / 604800)).toInt = u.toInt / 604800 :=
    Int64.toInt_ofInt_of_le (by omega) (by omega)
  refine absurd (sizes (Int64.ofInt (u.toInt / 604800))) (Nat.ne_of_lt ?_)
  refine Set.ncard_lt_ncard ⟨fun other held => ⟨held.1, ?_⟩, fun all => ?_⟩
    ((finite_isUser rows).subset fun _ both => both.1)
  · obtain ⟨isOther, counted⟩ := held
    obtain ⟨v, entersOther, same⟩ := joins_iff.mp counted
    rw [entersIn_iff]
    refine ⟨v, entersOther, ?_⟩
    rw [← Int64.toInt_inj, cohortWeek_toInt, week] at same
    -- a misplaced user counted here would belong to an earlier week
    by_cases other_late : Misplaced v
    · have before := least other ⟨isOther, v, entersOther, other_late⟩
      rw [entry_eq entersOther, entry_eq entersFirst] at before
      rw [if_pos other_late] at same
      omega
    · rw [if_neg other_late] at same
      omega
  · have here : joins E _ (sortByTime (eventsOf H C rows first)) = true :=
      (all ⟨isFirst, entersIn_iff.mpr ⟨u, entersFirst, week.symm⟩⟩).2
    obtain ⟨v, entersAgain, same⟩ := joins_iff.mp here
    rw [entersAgain.unique entersFirst, ← Int64.toInt_inj, cohortWeek_toInt, week,
      if_pos late] at same
    omega

variable (H C E) in
/-- No user without a return has one that wraps. -/
def Unwrapped (rows : List (Row ν)) : Prop :=
  ∀ user, IsUser H C rows user → ∀ t, Enters E (eventsOf H C rows user) t →
    ¬ (¬ Returns E 30 (eventsOf H C rows user) t ∧ ReturnWraps E (eventsOf H C rows user) t)

include placed

theorem returning_subset (low : 0 ≤ days) (high : days ≤ 30)
    (week : Int64) :
    {user | IsUser H C rows user ∧ EntersIn E week.toInt (eventsOf H C rows user) ∧
      ∃ t, Enters E (eventsOf H C rows user) t ∧ Returns E days.toInt (eventsOf H C rows user) t} ⊆
    {user | IsUser H C rows user ∧
      joinsCounted E days week (sortByTime (eventsOf H C rows user)) = true} := by
  rintro user ⟨isUser, inWeek, t, enters, returns⟩
  refine ⟨isUser, (joinsCounted_iff low high).mpr ⟨t, enters, ?_, .inl returns⟩⟩
  obtain ⟨u, entersAgain, same⟩ := joins_iff.mp ((joins_iff_entersIn placed isUser week).mpr inWeek)
  rwa [enters.unique entersAgain]

theorem ncard_joinsCounted (unwrapped : Unwrapped H C E rows)
    (low : 0 ≤ days) (high : days ≤ 30) (week : Int64) :
    {user | IsUser H C rows user ∧
      joinsCounted E days week (sortByTime (eventsOf H C rows user)) = true}.ncard =
    returning H C E rows week.toInt days.toInt := by
  rw [returning]
  congr 1
  refine Set.Subset.antisymm ?_ (returning_subset placed low high week)
  rintro user ⟨isUser, joined⟩
  obtain ⟨t, enters, same, returns | wraps⟩ := (joinsCounted_iff low high).mp joined
  · refine ⟨isUser, (joins_iff_entersIn placed isUser week).mp (joins_iff.mpr ⟨t, enters, same⟩), ?_⟩
    exact ⟨t, enters, returns⟩
  · exact absurd wraps (unwrapped user isUser t enters)

theorem unwrapped_of_counts
    (counts : ∀ week : Int64, {user | IsUser H C rows user ∧ joinsCounted E 30 week
      (sortByTime (eventsOf H C rows user)) = true}.ncard = returning H C E rows week.toInt 30) :
    Unwrapped H C E rows := by
  intro user isUser t enters wraps
  have same := Set.eq_of_subset_of_ncard_le
    (returning_subset placed (by decide : (0 : Int64) ≤ 30) le_rfl (cohortWeek t))
    (counts (cohortWeek t)).le ((finite_isUser rows).subset fun _ both => both.1)
  have joined : user ∈ {user | IsUser H C rows user ∧
      joinsCounted E 30 (cohortWeek t) (sortByTime (eventsOf H C rows user)) = true} :=
    ⟨isUser, (joinsCounted_iff (by decide) le_rfl).mpr ⟨t, enters, rfl, .inr wraps⟩⟩
  rw [← same] at joined
  obtain ⟨-, -, u, entersAgain, returns⟩ := joined
  rw [entersAgain.unique enters] at returns
  exact wraps.1 returns

omit placed

theorem returning_mono {week less more : Int} (le : less ≤ more) :
    returning H C E rows week less ≤ returning H C E rows week more := by
  refine Set.ncard_le_ncard ?_ ((finite_isUser rows).subset fun _ both => both.1)
  rintro user ⟨isUser, inWeek, t, enters, e, member, named, after, within⟩
  exact ⟨isUser, inWeek, t, enters, e, member, named, after, within.trans le⟩

theorem returning_le_cohortSize {week days : Int} :
    returning H C E rows week days ≤ cohortSize H C E rows week := by
  refine Set.ncard_le_ncard ?_ ((finite_isUser rows).subset fun _ both => both.1)
  exact fun user held => ⟨held.1, held.2.1⟩

theorem placed_unwrapped_of_right (right : CohortsRight H C E rows) :
    Readable H C rows ∧ Placed H C E rows ∧ Unwrapped H C E rows := by
  obtain ⟨data, found, right⟩ := right
  have readable : Readable H C rows := by
    by_contra unreadable
    rw [cohortData, userEvents_eq_none unreadable] at found
    cases found
  obtain ⟨same, foundAgain, counts⟩ := cohortData_eq_some (E := E) readable
  obtain rfl := Option.some_inj.mp (found.symm.trans foundAgain)
  simp only [counts] at right
  have placed : Placed H C E rows := placed_of_sizes fun week => (right week).2.1
  exact ⟨readable, placed, unwrapped_of_counts placed fun week => (right week).2.2.2.2⟩

variable (H C E) in
/-- Exactly without panics, entries before 1970 and wrapped returns. -/
theorem cohorts_right_iff (rows : List (Row ν)) : CohortsRight H C E rows ↔
      Readable H C rows ∧ Placed H C E rows ∧ Unwrapped H C E rows := by
  constructor
  · exact placed_unwrapped_of_right
  · rintro ⟨readable, placed, unwrapped⟩
    obtain ⟨data, found, counts⟩ := cohortData_eq_some (E := E) readable
    refine ⟨data, found, fun week => ?_⟩
    have d7 := ncard_joinsCounted placed unwrapped (by decide : (0 : Int64) ≤ 7) (by decide) week
    have d14 := ncard_joinsCounted placed unwrapped (by decide : (0 : Int64) ≤ 14) (by decide) week
    have d30 := ncard_joinsCounted placed unwrapped (by decide : (0 : Int64) ≤ 30) le_rfl week
    have size : {user | IsUser H C rows user ∧
        joins E week (sortByTime (eventsOf H C rows user)) = true}.ncard =
        cohortSize H C E rows week.toInt := by
      rw [cohortSize]
      congr 1
      ext user
      exact and_congr_right fun isUser => joins_iff_entersIn placed isUser week
    dsimp only
    rw [counts week, size, d7, d14, d30]
    exact ⟨⟨returning_mono (by decide), returning_mono (by decide), returning_le_cohortSize⟩,
      rfl, rfl, rfl, rfl⟩

theorem cohort_miscounts :
    let early : List (Row Int) := userTable "u" [("signup", "1969-12-31")] ++
      userTable "v" [("signup", "1970-01-01")]
    let wrapped : List (Row Int) := userTable "u"
      [("signup", "1969-12-25"), ("purchase", "292471210647-07-09")]
    (¬ CohortsRight SelectExec.integerHost {} {} early ∧
      (cohortData SelectExec.integerHost {} {} early).map OrdMap.entries =
        some [(0, { size := 2 })]) ∧
    ¬ CohortsRight SelectExec.integerHost {} {} wrapped ∧
      (cohortData SelectExec.integerHost {} {} wrapped).map OrdMap.entries =
        some [(-1, { size := 1, d7 := 1, d14 := 1, d30 := 1 })] := by
  refine ⟨⟨fun right => ?_, by decide +kernel⟩, fun right => ?_, by decide +kernel⟩
  · obtain ⟨-, placed, -⟩ := placed_unwrapped_of_right right
    have user : IsUser SelectExec.integerHost {} (userTable "u" [("signup", "1969-12-31")] ++
        userTable "v" [("signup", "1970-01-01")]) "u" :=
      ⟨by decide, by decide +kernel⟩
    refine placed "u" user (-86400) (entryTime_eq_some_iff.mp ?_) ?_
    · decide +kernel
    · decide
  · obtain ⟨-, -, unwrapped⟩ := placed_unwrapped_of_right right
    have user : IsUser SelectExec.integerHost {} (userTable "u"
        [("signup", "1969-12-25"), ("purchase", "292471210647-07-09")]) "u" :=
      ⟨by decide, by decide +kernel⟩
    refine unwrapped "u" user (-604800) (entryTime_eq_some_iff.mp ?_) ⟨?_, ?_⟩
    · decide +kernel
    · decide +kernel
    · decide +kernel

end WowDb.Query.Analytics
