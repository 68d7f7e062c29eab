import WowDb.Lib.Calendar
import WowDb.Lib.Int64
import WowDb.Lib.Text

/-!
# Reading of date and time

`parse_datetime` of `query-node/src/executor/analytics_exec.rs`.
-/
namespace WowDb.Query.Analytics
open WowDb.Lib List

def daysPerMonth : List Int64 := [0, 31, 28, 31, 30, 31, 30, 31, 31, 30, 31, 30, 31]

def monthDays (m : Int64) : Option Int64 :=
  ((List.range' 1 (m.toInt - 1).toNat).mapM fun i => daysPerMonth[i]?).map
    fun days => days.foldl (· + ·) 0

def numbers (sep : Char) (text : List Char) : List Int64 :=
  (text.splitOn sep).filterMap Text.parseI64

def clockSeconds (text : List Char) : Int64 :=
  match numbers ':' text with
  | h :: m :: s :: _ => h * 3600 + m * 60 + s
  | _ => 0

def parseDatetime (s : List Char) : Option (Option Int64) :=
  let text := (Text.trimMatches '\x27' (Text.trim s)).map fun c => if c = 'T' then ' ' else c
  let parts := text.splitOn ' '
  match numbers '-' (parts.headD []) with
  | y :: m :: d :: _ =>
    (monthDays m).map fun days =>
      let ts := (y - 1970) * 365 * 86400 + days * 86400 + (d - 1) * 86400
      some (ts + ((parts[1]?).map clockSeconds).getD 0)
  | _ => some none

def fieldsText (sep : Char) (fields : List (Nat × Nat)) : List Char :=
  [sep].intercalate (fields.map fun f => Text.zeroPad f.1 f.2)

variable (leap : Bool)

def daysIn (month : Nat) : Nat :=
  (Calendar.daysBefore leap (month + 1) - Calendar.daysBefore leap month).toNat

structure Date where
  year : Nat
  month : Nat
  day : Nat
  year_le : year ≤ 9999 := by decide
  month_pos : 1 ≤ month := by decide
  month_le : month ≤ 12 := by decide
  day_pos : 1 ≤ day := by decide
  day_le : day ≤ daysIn (Calendar.isLeap year) month := by decide

structure Clock where
  hour : Nat
  minute : Nat
  second : Nat
  hour_lt : hour < 24 := by decide
  minute_lt : minute < 60 := by decide
  second_lt : second < 60 := by decide

namespace Clock

def midnight : Clock := { hour := 0, minute := 0, second := 0 }

def seconds (c : Clock) : Nat := c.hour * 3600 + c.minute * 60 + c.second

theorem seconds_lt (c : Clock) : c.seconds < 86400 := by
  have hour := c.hour_lt
  have minute := c.minute_lt
  have second := c.second_lt
  unfold seconds
  omega

def text (c : Clock) : List Char := fieldsText ':' [(2, c.hour), (2, c.minute), (2, c.second)]

end Clock

def Date.text (d : Date) : List Char := fieldsText '-' [(4, d.year), (2, d.month), (2, d.day)]

def Date.dayNumber (d : Date) : Int := Calendar.monthStart d.year d.month + (d.day - 1)

inductive Separator where
  | blank | letter
  deriving DecidableEq

def Separator.char : Separator → Char
  | blank => ' '
  | letter => 'T'

inductive Written where
  | dateOnly (date : Date)
  | timed (separator : Separator) (date : Date) (clock : Clock)

namespace Written

def date : Written → Date
  | dateOnly date => date
  | timed _ date _ => date

def clock : Written → Clock
  | dateOnly _ => .midnight
  | timed _ _ clock => clock

def text : Written → List Char
  | dateOnly date => date.text
  | timed separator date clock => date.text ++ separator.char :: clock.text

def instant (w : Written) : Int := 86400 * w.date.dayNumber + w.clock.seconds

end Written

def Date.leaplessNumber (d : Date) : Int :=
  365 * ((d.year : Int) - 1970) + Calendar.daysBefore false d.month + (d.day - 1)

theorem monthDays_eq {m : Nat} (low : 1 ≤ m) (high : m ≤ 12) :
    monthDays (Int64.ofInt m) = some (Int64.ofInt (Calendar.daysBefore false m)) := by
  have inside : m ∈ range' 1 12 := by
    rw [mem_range'_1]
    omega
  have table : ∀ m ∈ range' 1 12,
      monthDays (Int64.ofInt (m : Nat)) = some (Int64.ofInt (Calendar.daysBefore false m)) := by
    decide +kernel
  exact table m inside

theorem daysIn_le {m : Nat} (low : 1 ≤ m) (high : m ≤ 12) : daysIn leap m ≤ 31 := by
  have inside : m ∈ range' 1 12 := by
    rw [mem_range'_1]
    omega
  have table : ∀ leap : Bool, ∀ m ∈ range' 1 12, daysIn leap m ≤ 31 := by decide
  exact table leap m inside

variable (d : Date)

theorem Date.day_le_31 : d.day ≤ 31 :=
  d.day_le.trans (daysIn_le _ d.month_pos d.month_le)

variable {sep : Char} {fields : List (Nat × Nat)}

theorem numbers_fieldsText (other : sep.isDigit = false) (some : fields ≠ [])
    (small : ∀ f ∈ fields, f.2 < 2 ^ 63) :
    numbers sep (fieldsText sep fields) = fields.map fun f => Int64.ofInt f.2 := by
  rw [numbers, fieldsText, splitOn_intercalate sep _ (by simpa using some), filterMap_map]
  · clear some
    induction fields with
    | nil => rfl
    | cons f rest ih =>
      have read := Text.parseI64_zeroPad f.1 (small f mem_cons_self)
      rw [filterMap_cons_some (by rw [Function.comp_apply, read]),
        ih fun g mem => small g (mem_cons_of_mem _ mem)]
      rfl
  · intro field member
    obtain ⟨f, -, rfl⟩ := mem_map.mp member
    exact Text.notMem_zeroPad other

theorem Date.numbers_text :
    numbers '-' d.text = [Int64.ofInt d.year, Int64.ofInt d.month, Int64.ofInt d.day] := by
  have year := d.year_le
  have month := d.month_le
  have day := d.day_le_31
  refine numbers_fieldsText rfl (cons_ne_nil _ _) ?_
  simp only [forall_mem_cons, not_mem_nil, false_implies, implies_true, and_true]
  omega

theorem Clock.clockSeconds_text (c : Clock) : clockSeconds c.text = Int64.ofInt c.seconds := by
  have hour := c.hour_lt
  have minute := c.minute_lt
  have second := c.second_lt
  have read : numbers ':' c.text =
      [Int64.ofInt c.hour, Int64.ofInt c.minute, Int64.ofInt c.second] := by
    refine numbers_fieldsText rfl (cons_ne_nil _ _) ?_
    simp only [forall_mem_cons, not_mem_nil, false_implies, implies_true, and_true]
    omega
  rw [clockSeconds, read, seconds]
  push_cast
  rw [Int64.ofInt_add, Int64.ofInt_add, Int64.ofInt_mul, Int64.ofInt_mul]
  rfl

theorem fieldsText_singleton (sep : Char) (f : Nat × Nat) :
    fieldsText sep [f] = Text.zeroPad f.1 f.2 := by
  simp [fieldsText]

theorem fieldsText_cons_cons (sep : Char) (f g : Nat × Nat) (rest : List (Nat × Nat)) :
    fieldsText sep (f :: g :: rest) =
      Text.zeroPad f.1 f.2 ++ ([sep] ++ fieldsText sep (g :: rest)) := by
  simp [fieldsText, intercalate_cons_cons]

variable {c : Char}

theorem mem_fieldsText (mem : c ∈ fieldsText sep fields) : c.isDigit = true ∨ c = sep := by
  induction fields with
  | nil => cases mem
  | cons f rest ih =>
    cases rest with
    | nil =>
      rw [fieldsText_singleton] at mem
      exact .inl (Text.isDigit_of_mem_zeroPad mem)
    | cons g more =>
      rw [fieldsText_cons_cons, mem_append, mem_append, mem_singleton] at mem
      rcases mem with digit | same | later
      · exact .inl (Text.isDigit_of_mem_zeroPad digit)
      · exact .inr same
      · exact ih later

theorem head?_fieldsText (first : c ∈ (fieldsText sep fields).head?) : c.isDigit = true := by
  cases fields with
  | nil => cases first
  | cons f rest =>
    have front : (fieldsText sep (f :: rest)).head? = (Text.zeroPad f.1 f.2).head? := by
      cases rest with
      | nil => rw [fieldsText_singleton]
      | cons g more =>
        rw [fieldsText_cons_cons, head?_append_of_ne_nil _ (Text.zeroPad_ne_nil _ _)]
    rw [front] at first
    exact Text.isDigit_of_mem_zeroPad (mem_of_mem_head? first)

theorem fieldsText_ne_nil (sep : Char) (f : Nat × Nat) (rest : List (Nat × Nat)) :
    fieldsText sep (f :: rest) ≠ [] := by
  cases rest with
  | nil =>
    rw [fieldsText_singleton]
    exact Text.zeroPad_ne_nil _ _
  | cons g more => simp [fieldsText_cons_cons]

theorem getLast?_fieldsText (last : c ∈ (fieldsText sep fields).getLast?) : c.isDigit = true := by
  induction fields with
  | nil => cases last
  | cons f rest ih =>
    cases rest with
    | nil =>
      rw [fieldsText_singleton] at last
      exact Text.isDigit_of_mem_zeroPad (mem_of_mem_getLast? last)
    | cons g more =>
      have solid := fieldsText_ne_nil sep g more
      rw [fieldsText_cons_cons, getLast?_append_of_ne_nil _ (by simp),
        getLast?_append_of_ne_nil _ solid] at last
      exact ih last

theorem fieldsText_plain (other : sep ≠ ' ' ∧ sep ≠ 'T') (fields : List (Nat × Nat)) :
    ' ' ∉ fieldsText sep fields ∧
      ((fieldsText sep fields).map fun c => if c = 'T' then ' ' else c) =
        fieldsText sep fields := by
  constructor
  · intro mem
    rcases mem_fieldsText mem with digit | same
    · exact absurd digit (by decide)
    · exact other.1 same.symm
  · refine (map_congr_left fun c mem => if_neg ?_).trans (map_id _)
    rintro rfl
    rcases mem_fieldsText mem with digit | same
    · exact absurd digit (by decide)
    · exact other.2 same.symm

theorem Date.blank_notMem_text : ' ' ∉ d.text := (fieldsText_plain (by decide) _).1

theorem Date.map_text : (d.text.map fun c => if c = 'T' then ' ' else c) = d.text :=
  (fieldsText_plain (by decide) _).2

theorem Clock.blank_notMem_text (c : Clock) : ' ' ∉ c.text := (fieldsText_plain (by decide) _).1

theorem Clock.map_text (c : Clock) : (c.text.map fun c => if c = 'T' then ' ' else c) = c.text :=
  (fieldsText_plain (by decide) _).2

theorem Date.text_ne_nil : d.text ≠ [] := fieldsText_ne_nil _ _ _

theorem Clock.text_ne_nil (c : Clock) : c.text ≠ [] := fieldsText_ne_nil _ _ _

namespace Written

theorem head?_text {w : Written} (first : c ∈ w.text.head?) : c.isDigit = true := by
  cases w with
  | dateOnly date => exact head?_fieldsText first
  | timed separator date clock =>
    rw [text, head?_append_of_ne_nil _ date.text_ne_nil] at first
    exact head?_fieldsText first

theorem getLast?_text {w : Written} (last : c ∈ w.text.getLast?) : c.isDigit = true := by
  cases w with
  | dateOnly date => exact getLast?_fieldsText last
  | timed separator date clock =>
    rw [text, ← singleton_append, getLast?_append_of_ne_nil _ (by simp),
      getLast?_append_of_ne_nil _ clock.text_ne_nil] at last
    exact getLast?_fieldsText last

variable (w : Written)

theorem trimmed : Text.trimMatches '\x27' (Text.trim w.text) = w.text := by
  have digits : ∀ {o : Option Char}, (∀ c ∈ o, c.isDigit = true) → o ≠ some '\x27' := by
    rintro o all rfl
    exact absurd (all _ rfl) (by decide)
  rw [Text.trim_eq_self (fun c first => Text.isWhitespace_of_isDigit (head?_text first))
    fun c last => Text.isWhitespace_of_isDigit (getLast?_text last)]
  exact Text.trimMatches_eq_self (digits fun _ => head?_text) (digits fun _ => getLast?_text)

theorem splitOn_text : (w.text.map fun c => if c = 'T' then ' ' else c).splitOn ' ' =
      match w with
      | dateOnly date => [date.text]
      | timed _ date clock => [date.text, clock.text] := by
  cases w with
  | dateOnly date =>
    have one : ([' '].intercalate [date.text]).splitOn ' ' = [date.text] :=
      splitOn_intercalate ' ' (by simpa using date.blank_notMem_text) (by simp)
    rw [text, date.map_text]
    simpa using one
  | timed separator date clock =>
    have two : ([' '].intercalate [date.text, clock.text]).splitOn ' ' = [date.text, clock.text] :=
      splitOn_intercalate ' '
        (by simpa using ⟨date.blank_notMem_text, clock.blank_notMem_text⟩) (by simp)
    have blank : (if separator.char = 'T' then ' ' else separator.char) = ' ' := by
      cases separator <;> rfl
    rw [text, map_append, map_cons, blank, date.map_text, clock.map_text]
    simpa [intercalate_cons_cons] using two

def leapless (w : Written) : Int := 86400 * w.date.leaplessNumber + w.clock.seconds

theorem parseDatetime_text : parseDatetime w.text = some (some (Int64.ofInt w.leapless)) := by
  have dated : ∀ d : Date, (Int64.ofInt d.year - 1970) * 365 * 86400 +
      Int64.ofInt (Calendar.daysBefore false d.month) * 86400 +
      (Int64.ofInt d.day - 1) * 86400 = Int64.ofInt (86400 * d.leaplessNumber) := by
    intro d
    have expanded : 86400 * d.leaplessNumber = ((d.year : Int) - 1970) * 365 * 86400 +
        Calendar.daysBefore false d.month * 86400 + ((d.day : Int) - 1) * 86400 := by
      rw [Date.leaplessNumber]
      ring
    rw [expanded]
    simp only [Int64.ofInt_add, Int64.ofInt_mul, Int64.ofInt_sub]
    rfl
  rw [parseDatetime, trimmed, splitOn_text]
  cases w with
  | dateOnly date =>
    simp only [headD_cons, Date.numbers_text,
      monthDays_eq date.month_pos date.month_le, Option.map_some, dated, leapless]
    simp [Written.date, clock, Clock.midnight, Clock.seconds]
  | timed separator date clock =>
    simp only [headD_cons, Date.numbers_text,
      monthDays_eq date.month_pos date.month_le, Option.map_some, dated, leapless,
      getElem?_cons_succ, getElem?_cons_zero, Clock.clockSeconds_text, Option.getD_some,
      ← Int64.ofInt_add]
    rfl

end Written

theorem daysBefore_leap {m : Nat} (low : 1 ≤ m) (high : m ≤ 12) :
    Calendar.daysBefore leap m =
      Calendar.daysBefore false m + if leap = true ∧ 3 ≤ m then 1 else 0 := by
  have inside : m ∈ range' 1 12 := by
    rw [mem_range'_1]
    omega
  have table : ∀ leap : Bool, ∀ m ∈ range' 1 12, Calendar.daysBefore leap m =
      Calendar.daysBefore false m + if leap = true ∧ 3 ≤ m then 1 else 0 := by
    decide
  exact table leap m inside

namespace Date

def dayOfYear (d : Date) : Int := Calendar.daysBefore false d.month + (d.day - 1)

def isLeapDay (d : Date) : Bool := d.month == 2 && d.day == 29

def isFirstOfMarch (d : Date) : Bool := d.month == 3 && d.day == 1

variable (d : Date)

theorem dayOfYear_facts : 0 ≤ d.dayOfYear ∧ d.dayOfYear < 365 ∧
      (d.month ≤ 2 → d.dayOfYear ≤ 59) ∧ (3 ≤ d.month → 59 ≤ d.dayOfYear) ∧
      (d.isLeapDay = true ↔ d.month ≤ 2 ∧ d.dayOfYear = 59) ∧
      (d.isFirstOfMarch = true ↔ 3 ≤ d.month ∧ d.dayOfYear = 59) := by
  have table : ∀ leap : Bool, ∀ m ∈ range' 1 12, ∀ day ∈ range' 1 31,
      day ≤ daysIn leap m → let n := Calendar.daysBefore false m + ((day : Int) - 1)
        0 ≤ n ∧ n < 365 ∧ (m ≤ 2 → n ≤ 59) ∧ (3 ≤ m → 59 ≤ n) ∧
          ((m == 2 && day == 29) = true ↔ m ≤ 2 ∧ n = 59) ∧
          ((m == 3 && day == 1) = true ↔ 3 ≤ m ∧ n = 59) := by
    decide +kernel
  have day := d.day_le_31
  have pos := d.day_pos
  have month := d.month_le
  have first := d.month_pos
  refine table (Calendar.isLeap d.year) d.month ?_ d.day ?_ d.day_le
  · rw [mem_range'_1]
    omega
  · rw [mem_range'_1]
    omega

theorem isLeap_of_isLeapDay {d : Date} (leapDay : d.isLeapDay = true) :
    Calendar.isLeap d.year = true := by
  have inside := d.day_le
  simp only [isLeapDay, Bool.and_eq_true, beq_iff_eq] at leapDay
  rw [leapDay.1, leapDay.2] at inside
  cases leap : Calendar.isLeap d.year with
  | true => rfl
  | false =>
    rw [leap] at inside
    exact absurd inside (by decide)

theorem leaplessNumber_eq : d.leaplessNumber = 365 * ((d.year : Int) - 1970) + d.dayOfYear := by
  rw [leaplessNumber, dayOfYear]
  omega

theorem dayNumber_eq : d.dayNumber = Calendar.yearStart d.year + d.dayOfYear +
      if Calendar.isLeap d.year = true ∧ 3 ≤ d.month then 1 else 0 := by
  rw [dayNumber, Calendar.monthStart, daysBefore_leap _ d.month_pos d.month_le, dayOfYear]
  omega

theorem dayNumber_bounds : Calendar.yearStart d.year ≤ d.dayNumber ∧
      d.dayNumber < Calendar.yearStart ((d.year : Int) + 1) := by
  obtain ⟨low, high, -⟩ := d.dayOfYear_facts
  rw [Calendar.yearStart_succ, dayNumber_eq]
  split <;> split <;> simp_all <;> omega

theorem dayNumber_lt_iff (s t : Date) :
    s.dayNumber < t.dayNumber ↔ s.leaplessNumber < t.leaplessNumber ∨
      (s.year = t.year ∧ s.isLeapDay = true ∧ t.isFirstOfMarch = true) := by
  obtain ⟨lowS, highS, winterS, restS, leapDayS, -⟩ := s.dayOfYear_facts
  obtain ⟨lowT, highT, winterT, restT, -, marchT⟩ := t.dayOfYear_facts
  have boundS := s.dayNumber_bounds
  have boundT := t.dayNumber_bounds
  have years {a b : Nat} (before : a < b) : Calendar.yearStart (a + 1) ≤ Calendar.yearStart b :=
    (Tiling.strictMono ⟨Calendar.yearStart, Calendar.yearStart_lt⟩).monotone (by omega)
  rw [leaplessNumber_eq, leaplessNumber_eq]
  rcases Nat.lt_trichotomy s.year t.year with before | same | behind
  · have earlier := years before
    omega
  · rw [dayNumber_eq, dayNumber_eq, same]
    by_cases leap : Calendar.isLeap t.year = true
    · rw [leapDayS, marchT]
      simp only [leap, true_and]
      split <;> split <;> omega
    · have noLeapDay : s.isLeapDay = false := by
        rw [Bool.eq_false_iff]
        exact fun leapDay => leap (same ▸ isLeap_of_isLeapDay leapDay)
      simp [leap, noLeapDay]
  · have earlier := years behind
    omega

theorem leaplessNumber_of_leapDay {s t : Date} (year : s.year = t.year)
    (leapDay : s.isLeapDay = true) (march : t.isFirstOfMarch = true) :
    s.leaplessNumber = t.leaplessNumber := by
  obtain ⟨-, -, -, -, leapDayS, -⟩ := s.dayOfYear_facts
  obtain ⟨-, -, -, -, -, marchT⟩ := t.dayOfYear_facts
  rw [leaplessNumber_eq, leaplessNumber_eq, year, (leapDayS.mp leapDay).2, (marchT.mp march).2]

theorem not_isFirstOfMarch {d : Date} (leapDay : d.isLeapDay = true) :
    d.isFirstOfMarch = false := by
  simp only [isLeapDay, Bool.and_eq_true, beq_iff_eq] at leapDay
  simp [isFirstOfMarch, leapDay.1]

theorem leaplessNumber_bounds : -719050 ≤ d.leaplessNumber ∧ d.leaplessNumber < 2931000 := by
  obtain ⟨low, high, -⟩ := d.dayOfYear_facts
  have year := d.year_le
  rw [leaplessNumber_eq]
  omega

end Date

variable (s t : Written)

/-- Both texts are read, in the order of their times. -/
def Ordered : Prop :=
  ∃ x y, parseDatetime s.text = some (some x) ∧ parseDatetime t.text = some (some y) ∧
    (x < y ↔ s.instant < t.instant)

/-- The leap day and the next day, read as one. -/
def LeapDayConfused : Prop :=
  s.date.year = t.date.year ∧
    ((s.date.isLeapDay = true ∧ t.date.isFirstOfMarch = true ∧ t.clock.seconds ≤ s.clock.seconds) ∨
      (s.date.isFirstOfMarch = true ∧ t.date.isLeapDay = true ∧ s.clock.seconds < t.clock.seconds))

theorem leapless_lt_iff :
    Int64.ofInt s.leapless < Int64.ofInt t.leapless ↔ s.leapless < t.leapless := by
  have small : ∀ w : Written, -2 ^ 63 ≤ w.leapless ∧ w.leapless < 2 ^ 63 := by
    intro w
    have days := w.date.leaplessNumber_bounds
    have seconds := w.clock.seconds_lt
    rw [Written.leapless]
    omega
  rw [Int64.lt_iff_toInt_lt, Int64.toInt_ofInt_of_le (small s).1 (small s).2,
    Int64.toInt_ofInt_of_le (small t).1 (small t).2]

/-- In order except on a leap day and the next. -/
theorem ordered_iff (s t : Written) : Ordered s t ↔ ¬ LeapDayConfused s t := by
  have read : Ordered s t ↔ (s.leapless < t.leapless ↔ s.instant < t.instant) := by
    rw [← leapless_lt_iff, Ordered]
    simp [Written.parseDatetime_text]
  have forth := Date.dayNumber_lt_iff s.date t.date
  have back := Date.dayNumber_lt_iff t.date s.date
  have clockS := s.clock.seconds_lt
  have clockT := t.clock.seconds_lt
  rw [read]
  unfold LeapDayConfused Written.leapless Written.instant
  by_cases leapFirst : s.date.year = t.date.year ∧ s.date.isLeapDay = true ∧
      t.date.isFirstOfMarch = true
  · -- read as one day, so the times of the day decide
    have same := Date.leaplessNumber_of_leapDay leapFirst.1 leapFirst.2.1 leapFirst.2.2
    have earlier := forth.mpr (.inr leapFirst)
    simp only [leapFirst, Date.not_isFirstOfMarch leapFirst.2.1, true_and, Bool.false_eq_true,
      false_and, or_false]
    omega
  · by_cases leapSecond : t.date.year = s.date.year ∧ t.date.isLeapDay = true ∧
        s.date.isFirstOfMarch = true
    · have same := Date.leaplessNumber_of_leapDay leapSecond.1 leapSecond.2.1 leapSecond.2.2
      have later := back.mpr (.inr leapSecond)
      simp only [leapSecond, Date.not_isFirstOfMarch leapSecond.2.1, true_and,
        Bool.false_eq_true, false_and, and_false, false_or]
      omega
    · rw [or_iff_left leapFirst] at forth
      rw [or_iff_left leapSecond] at back
      refine iff_of_true (by omega) ?_
      rintro ⟨year, first | second⟩
      · exact leapFirst ⟨year, first.1, first.2.1⟩
      · exact leapSecond ⟨year.symm, second.2.1, second.1⟩

theorem leap_day_read_as_march :
    let leapDay : Written := .dateOnly { year := 2024, month := 2, day := 29 }
    let march : Written := .dateOnly { year := 2024, month := 3, day := 1 }
    parseDatetime leapDay.text = parseDatetime march.text ∧ leapDay.instant < march.instant ∧
      ¬ Ordered leapDay march := by
  intro leapDay march
  have same : parseDatetime leapDay.text = parseDatetime march.text := by decide +kernel
  have earlier : leapDay.instant < march.instant := by decide +kernel
  refine ⟨same, earlier, ?_⟩
  rintro ⟨x, y, readX, readY, order⟩
  rw [same, readY] at readX
  cases readX
  exact Int64.lt_irrefl (order.mpr earlier)

end WowDb.Query.Analytics
