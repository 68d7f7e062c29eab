import WowDb.Lib.Bytes
import WowDb.Lib.LinkedMap
import WowDb.Lib.Run

/-!
# Block cache pool

`LruPool` of `storage-node/src/block_cache.rs`: a doubly linked list whose nodes are the values of a
hash map and whose links are keys, updated in place.
-/
namespace WowDb.Storage
open WowDb.Lib LinkedMap

inductive BlockType where
  | data | filter | index
  deriving DecidableEq

structure BlockKey where
  partition : String
  column : String
  segment : Nat
  blockType : BlockType

def BlockType.rank : BlockType → Nat
  | data => 0
  | filter => 1
  | index => 2

def BlockKey.rank (k : BlockKey) : (String ×ₗ String) ×ₗ (Nat ×ₗ Nat) :=
  toLex (toLex (k.partition, k.column), toLex (k.segment, k.blockType.rank))

theorem BlockKey.rank_injective : Function.Injective BlockKey.rank := by
  rintro ⟨p, c, s, t⟩ ⟨p', c', s', t'⟩ equal
  simp only [BlockKey.rank, EmbeddingLike.apply_eq_iff_eq, Prod.mk.injEq] at equal
  obtain ⟨⟨rfl, rfl⟩, rfl, types⟩ := equal
  cases t <;> cases t' <;> first | rfl | cases types

instance : LinearOrder BlockKey := LinearOrder.lift' BlockKey.rank BlockKey.rank_injective

structure Block where
  key : BlockKey
  value : Bytes
  resist : Nat
  deriving DecidableEq

abbrev Node := Link BlockKey Block

def filterResistCount : Nat := 3

structure LruPool where
  map : OrdMap BlockKey Node
  head : Option BlockKey
  tail : Option BlockKey
  usedBytes : Nat
  maxBytes : Nat
  blockType : BlockType

namespace LruPool

def new (maxBytes : Nat) (blockType : BlockType) : LruPool :=
  ⟨.empty, none, none, 0, maxBytes, blockType⟩

def entryCount (pool : LruPool) : Nat := pool.map.entries.length

def moveToHead (pool : LruPool) (key : BlockKey) : Option LruPool :=
  if pool.head = some key then some pool
  else
    match pool.map.get? key with
    | none => none
    | some node =>
      let unlinked := setPrev (setNext pool.map node.prev node.next) node.next node.prev
      let pushed := setPrev unlinked pool.head (some key)
      some { pool with
        map := pushed.modify key fun n => { n with prev := none, next := pool.head }
        head := some key
        tail := if node.next = none then node.prev else pool.tail }

def get (pool : LruPool) (key : BlockKey) : Option (LruPool × Option Bytes) :=
  match pool.map.get? key with
  | none => some (pool, none)
  | some _ =>
    (pool.moveToHead key).map fun moved =>
      (moved, (moved.map.get? key).map (·.item.value))

def resists (pool : LruPool) (tailKey : BlockKey) : Bool :=
  decide (pool.blockType = .filter) &&
    ((pool.map.get? tailKey).map fun node => decide (0 < node.item.resist)).getD false

def tryEvictTail (pool : LruPool) : Option LruPool :=
  match pool.tail with
  | none => some pool
  | some tailKey =>
    if pool.resists tailKey then
      moveToHead
        { pool with
          map := pool.map.modify tailKey fun n =>
            { n with item := { n.item with resist := n.item.resist - 1 } } }
        tailKey
    else
      match pool.map.get? tailKey with
      | none => some pool
      | some node =>
        some { pool with
          map := setNext (pool.map.erase tailKey) node.prev none
          head := if node.prev = none then none else pool.head
          tail := node.prev
          usedBytes := pool.usedBytes - node.item.value.length }

def MustEvict (pool : LruPool) (size : Nat) : Prop :=
  pool.maxBytes < pool.usedBytes + size ∧ pool.tail ≠ none

instance (pool : LruPool) (size : Nat) : Decidable (MustEvict pool size) :=
  inferInstanceAs (Decidable (_ ∧ _))

def evictWhile (size : Nat) : Nat → LruPool → Option LruPool
  | 0, pool => if pool.MustEvict size then none else some pool
  | rounds + 1, pool =>
    if pool.MustEvict size then pool.tryEvictTail.bind (evictWhile size rounds) else some pool

def rounds (pool : LruPool) : Nat :=
  (pool.map.entries.map fun e => e.2.item.resist + 1).sum

def insert (pool : LruPool) (key : BlockKey) (value : Bytes) : Option LruPool :=
  match pool.map.get? key with
  | some old =>
    moveToHead
      { pool with
        map := pool.map.modify key fun n => { n with item := { n.item with value } }
        usedBytes := pool.usedBytes - old.item.value.length + value.length }
      key
  | none =>
    (evictWhile value.length pool.rounds pool).map fun fitting =>
      let resist := if fitting.blockType = .filter then filterResistCount else 0
      { fitting with
        map := (setPrev fitting.map fitting.head (some key)).insert key
          ⟨⟨key, value, resist⟩, none, fitting.head⟩
        head := some key
        tail := if fitting.head = none then some key else fitting.tail
        usedBytes := fitting.usedBytes + value.length }

end LruPool
end WowDb.Storage

namespace WowDb.Storage.LruPool
open WowDb.Lib LinkedMap List

structure Represents (pool : LruPool) (entries : List (BlockKey × Block)) : Prop where
  segment : Segment pool.map none entries none
  distinct : (entries.map Prod.fst).Nodup
  covers : ∀ k, pool.map.get? k ≠ none → k ∈ entries.map Prod.fst
  first : pool.head = firstKey entries
  last : pool.tail = lastKey entries
  used : pool.usedBytes = (entries.map (·.2.value.length)).sum

theorem represents_new (maxBytes : Nat) (blockType : BlockType) :
    Represents (new maxBytes blockType) [] where
  segment := trivial
  distinct := nodup_nil
  covers _ present := absurd rfl present
  first := rfl
  last := rfl
  used := rfl

section Represented

variable {pool : LruPool} {entries xs ys : List (BlockKey × Block)} {k : BlockKey} {b : Block}

theorem Represents.get?_of_mem (rep : Represents pool entries) (member : (k, b) ∈ entries) :
    ∃ prev next, pool.map.get? k = some ⟨b, prev, next⟩ :=
  rep.segment.get? member

theorem Represents.get?_none (rep : Represents pool entries)
    (absent : k ∉ entries.map Prod.fst) : pool.map.get? k = none := by
  by_contra present
  exact absent (rep.covers k present)

theorem Represents.replace (rep : Represents pool (xs ++ (k, b) :: ys)) (f : Block → Block)
    (usedBytes : Nat) (used : usedBytes = ((xs ++ (k, f b) :: ys).map (·.2.value.length)).sum) :
    Represents { pool with
      map := pool.map.modify k fun n => { n with item := f n.item }
      usedBytes } (xs ++ (k, f b) :: ys) := by
  obtain ⟨front, here, back⟩ := segment_append.mp rep.segment
  have distinct := rep.distinct
  simp only [map_append, map_cons, nodup_append, nodup_cons] at distinct
  obtain ⟨-, ⟨notBack, -⟩, apart⟩ := distinct
  have other : ∀ j, j ≠ k → (pool.map.modify k fun n => { n with item := f n.item }).get? j =
      pool.map.get? j := fun j ne => by simp [OrdMap.get?_modify, ne]
  refine ⟨segment_append.mpr ⟨?_, ?_, ?_⟩, ?_, ?_, ?_, ?_, used⟩
  · refine front.congr fun j member => other j ?_
    rintro rfl
    exact apart _ member _ (by simp) rfl
  · simp [OrdMap.get?_modify, here]
  · refine back.congr fun j member => other j ?_
    rintro rfl
    exact notBack member
  · simpa using rep.distinct
  · intro j present
    have : pool.map.get? j ≠ none := by
      intro missing
      apply present
      by_cases same : j = k
      · simp [OrdMap.get?_modify, same, same ▸ missing]
      · rw [other j same, missing]
    simpa using rep.covers j this
  · rw [rep.first]
    cases xs <;> rfl
  · rw [rep.last]
    simp [lastKey, getLast?_append, getLast?_cons]
    cases ys.getLast? <;> rfl

theorem moveToHead_of_node {node : Node} (notHead : pool.head ≠ some k)
    (here : pool.map.get? k = some node) :
    pool.moveToHead k = some { pool with
      map := (setPrev (setPrev (setNext pool.map node.prev node.next) node.next node.prev)
        pool.head (some k)).modify k fun n => { n with prev := none, next := pool.head }
      head := some k
      tail := if node.next = none then node.prev else pool.tail } := by
  simp only [moveToHead, if_neg notHead, here]

theorem Represents.moveToHead (rep : Represents pool (xs ++ (k, b) :: ys)) :
    ∃ moved, pool.moveToHead k = some moved ∧ Represents moved ((k, b) :: (xs ++ ys)) ∧
      moved.maxBytes = pool.maxBytes ∧ moved.blockType = pool.blockType := by
  by_cases first : xs = []
  · subst first
    refine ⟨pool, ?_, rep, rfl, rfl⟩
    rw [LruPool.moveToHead, if_pos (by simpa [firstKey] using rep.first)]
  · have here := rep.segment.at_split
    have perm : ((k, b) :: (xs ++ ys)).Perm (xs ++ (k, b) :: ys) := perm_middle.symm
    have head : pool.head = firstKey xs := by
      rw [rep.first]
      cases xs with
      | nil => exact absurd rfl first
      | cons x xs => rfl
    have notHead : pool.head ≠ some k := by
      intro same
      have distinct := rep.distinct
      rw [map_append, nodup_append] at distinct
      exact distinct.2.2 k (mem_of_firstKey (head.symm.trans same)) k (by simp) rfl
    refine ⟨_, moveToHead_of_node notHead here, ⟨?_, ?_, ?_, rfl, ?_, ?_⟩, rfl, rfl⟩
    · simpa only [head] using rep.segment.moveToFront rep.distinct first
    · exact (perm.map Prod.fst).nodup_iff.mpr rep.distinct
    · intro j present
      rw [Ne, OrdMap.get?_modify_eq_none, get?_setPrev_eq_none, get?_setPrev_eq_none,
        get?_setNext_eq_none] at present
      exact (perm.map Prod.fst).mem_iff.mpr (rep.covers j present)
    · -- only when nothing follows the entry does the tail move, to its predecessor
      have tail := rep.last
      simp only [lastKey, firstKey, getLast?_append, getLast?_cons] at tail ⊢
      cases ys with
      | nil =>
        obtain ⟨xs, e, rfl⟩ := (eq_nil_or_concat' xs).resolve_left first
        simp
      | cons y ys => simp [tail, getLast?_cons]
    · rw [rep.used]
      exact ((perm.map fun e => e.2.value.length).sum_nat).symm

theorem Represents.get_mem (rep : Represents pool (xs ++ (k, b) :: ys)) :
    ∃ moved, pool.get k = some (moved, some b.value) ∧ Represents moved ((k, b) :: (xs ++ ys)) ∧
      moved.maxBytes = pool.maxBytes ∧ moved.blockType = pool.blockType := by
  obtain ⟨prev, next, found⟩ := rep.get?_of_mem (k := k) (b := b) (by simp)
  obtain ⟨moved, runs, after, same⟩ := rep.moveToHead
  obtain ⟨prev', next', found'⟩ := after.get?_of_mem (k := k) (b := b) (by simp)
  refine ⟨moved, ?_, after, same⟩
  simp only [LruPool.get, found, runs, Option.map_some, found']

theorem Represents.get_absent (rep : Represents pool entries)
    (absent : k ∉ entries.map Prod.fst) : pool.get k = some (pool, none) := by
  simp only [LruPool.get, rep.get?_none absent]

def evicted (blockType : BlockType) (xs : List (BlockKey × Block)) (k : BlockKey) (b : Block) :
    List (BlockKey × Block) :=
  if blockType = .filter ∧ 0 < b.resist then (k, { b with resist := b.resist - 1 }) :: xs else xs

theorem resists_iff (rep : Represents pool (xs ++ [(k, b)])) :
    pool.resists k = true ↔ pool.blockType = .filter ∧ 0 < b.resist := by
  obtain ⟨prev, next, found⟩ := rep.get?_of_mem (k := k) (b := b) (by simp)
  simp [resists, found]

theorem Represents.tryEvictTail (rep : Represents pool (xs ++ [(k, b)])) :
    ∃ smaller, pool.tryEvictTail = some smaller ∧
      Represents smaller (evicted pool.blockType xs k b) ∧
      smaller.maxBytes = pool.maxBytes ∧ smaller.blockType = pool.blockType := by
  have tail : pool.tail = some k := by simpa [lastKey] using rep.last
  by_cases stays : pool.blockType = .filter ∧ 0 < b.resist
  · have weaker := rep.replace (fun b => { b with resist := b.resist - 1 }) pool.usedBytes
      (by simpa using rep.used)
    obtain ⟨moved, runs, after, same⟩ := weaker.moveToHead
    refine ⟨moved, ?_, ?_, same⟩
    · simpa only [LruPool.tryEvictTail, tail, (resists_iff rep).mpr stays, if_true] using runs
    · simpa [evicted, stays] using after
  · have here := rep.segment.at_split
    have leaves : pool.resists k = false := by
      rw [← Bool.not_eq_true, resists_iff rep]
      exact stays
    have distinct := rep.distinct
    rw [map_append, nodup_append] at distinct
    refine ⟨{ pool with
        map := setNext (pool.map.erase k) (lastKey xs) none
        head := if lastKey xs = none then none else pool.head
        tail := lastKey xs
        usedBytes := pool.usedBytes - b.value.length }, ?_, ?_, rfl, rfl⟩
    · simp only [LruPool.tryEvictTail, tail, leaves, here]
      rfl
    · rw [evicted, if_neg stays]
      refine ⟨rep.segment.popBack rep.distinct, distinct.1, ?_, ?_, rfl, ?_⟩
      · intro j present
        rw [Ne, get?_setNext_eq_none, OrdMap.get?_erase] at present
        by_cases same : j = k
        · simp [same] at present
        · simpa [same] using rep.covers j (by simpa [same] using present)
      · rw [rep.first]
        cases xs with
        | nil => rfl
        | cons x xs => simp [lastKey, firstKey, getLast?_cons]
      · simp [rep.used]

theorem Represents.perm (rep : Represents pool entries) :
    (pool.map.entries.map fun e => (e.1, e.2.item)).Perm entries := by
  have nodup : (pool.map.entries.map fun e => (e.1, e.2.item)).Nodup := by
    refine List.Nodup.of_map Prod.fst ?_
    simpa [Function.comp_def] using pool.map.nodup_keys
  rw [perm_ext_iff_of_nodup nodup (List.Nodup.of_map Prod.fst rep.distinct)]
  rintro ⟨j, c⟩
  constructor
  · intro member
    obtain ⟨⟨j, node⟩, inMap, same⟩ := mem_map.mp member
    obtain ⟨rfl, rfl⟩ := Prod.mk.inj same
    have found := (OrdMap.mem_entries_iff _ _ _).mp inMap
    obtain ⟨⟨i, d⟩, inEntries, rfl⟩ := mem_map.mp (rep.covers j (by simp [found]))
    obtain ⟨prev, next, here⟩ := rep.get?_of_mem inEntries
    rw [found, Option.some.injEq] at here
    subst here
    exact inEntries
  · intro member
    obtain ⟨prev, next, here⟩ := rep.get?_of_mem member
    exact mem_map.mpr ⟨(j, ⟨c, prev, next⟩), (OrdMap.mem_entries_iff _ _ _).mpr here, rfl⟩

theorem Represents.entryCount (rep : Represents pool entries) :
    pool.entryCount = entries.length := by
  rw [← rep.perm.length_eq, length_map, LruPool.entryCount]

def budget (entries : List (BlockKey × Block)) : Nat := (entries.map (·.2.resist + 1)).sum

theorem Represents.rounds (rep : Represents pool entries) : pool.rounds = budget entries := by
  rw [budget, ← (rep.perm.map (·.2.resist + 1)).sum_nat, LruPool.rounds, map_map]
  rfl

variable (blockType : BlockType)

theorem budget_evicted : budget (evicted blockType xs k b) < budget (xs ++ [(k, b)]) := by
  rw [evicted]
  split
  · next stays =>
    simp only [budget, map_cons, sum_cons, map_append, sum_append,
      map_nil, sum_nil]
    omega
  · simp only [budget, map_cons, sum_cons, map_append, sum_append,
      map_nil, sum_nil]
    omega

theorem keys_evicted :
    ∀ j ∈ (evicted blockType xs k b).map Prod.fst, j ∈ (xs ++ [(k, b)]).map Prod.fst := by
  rw [evicted]
  split <;> simp_all

def contents (entries : List (BlockKey × Block)) : List (BlockKey × Bytes) :=
  entries.map fun e => (e.1, e.2.value)

theorem total_contents (entries : List (BlockKey × Block)) :
    Recency.total List.length (contents entries) = (entries.map (·.2.value.length)).sum := by
  simp [Recency.total, contents, Function.comp_def]

theorem total_reverse (entries : List (BlockKey × Bytes)) :
    Recency.total List.length entries.reverse = Recency.total List.length entries := by
  simp [Recency.total, map_reverse, sum_reverse]

theorem evictWhile_stops {size rounds : Nat} (fits : ¬ pool.MustEvict size) :
    evictWhile size rounds pool = some pool := by
  cases rounds <;> rw [evictWhile, if_neg fits]

theorem Represents.evictWhile (size rounds : Nat) (rep : Represents pool entries)
    (enough : budget entries ≤ rounds) :
    ∃ fitting remaining, evictWhile size rounds pool = some fitting ∧
      Represents fitting remaining ∧ fitting.maxBytes = pool.maxBytes ∧
      fitting.blockType = pool.blockType ∧
      (∀ j ∈ remaining.map Prod.fst, j ∈ entries.map Prod.fst) ∧
      (pool.blockType ≠ .filter → contents remaining =
        (Recency.evictOldest List.length pool.maxBytes size (contents entries).reverse).reverse) := by
  induction rounds generalizing pool entries with
  | zero =>
    have empty : entries = [] := by
      cases entries with
      | nil => rfl
      | cons e rest => simp [budget] at enough
    subst empty
    have fits : ¬ pool.MustEvict size := fun full => full.2 rep.last
    exact ⟨pool, [], evictWhile_stops fits, rep, rfl, rfl, fun _ => id, fun _ => rfl⟩
  | succ rounds ih =>
    by_cases full : pool.MustEvict size
    · have nonempty : entries ≠ [] := by
        rintro rfl
        exact full.2 rep.last
      obtain ⟨xs, ⟨k, b⟩, rfl⟩ := (eq_nil_or_concat' entries).resolve_left nonempty
      obtain ⟨smaller, runs, after, sameMax, sameType⟩ := rep.tryEvictTail
      have less : budget (evicted pool.blockType xs k b) < budget (xs ++ [(k, b)]) :=
        budget_evicted pool.blockType
      obtain ⟨fitting, remaining, loop, kept, max, type, keys, abstract⟩ := ih after (by omega)
      refine ⟨fitting, remaining, ?_, kept, max.trans sameMax, type.trans sameType,
        fun j member => keys_evicted _ j (keys j member), fun plain => ?_⟩
      · rw [LruPool.evictWhile, if_pos full, runs]
        exact loop
      · rw [abstract (sameType ▸ plain), sameMax, evicted, if_neg fun stays => plain stays.1]
        have exceeds : pool.maxBytes < Recency.total length
            ((contents (xs ++ [(k, b)])).reverse) + size := by
          rw [total_reverse, total_contents, ← rep.used]
          exact full.1
        simp only [contents, map_append, map_cons, map_nil, reverse_append,
          reverse_cons, reverse_nil, nil_append, cons_append] at exceeds ⊢
        rw [Recency.evictOldest, if_pos exceeds]
    · refine ⟨pool, entries, evictWhile_stops full, rep, rfl, rfl, fun _ => id, fun _ => ?_⟩
      rw [Recency.evictOldest_of_fits, reverse_reverse]
      intro nonempty
      have present : pool.tail ≠ none := by
        rw [rep.last]
        simpa [lastKey, contents] using nonempty
      rw [total_reverse, total_contents, ← rep.used]
      by_contra exceeds
      exact full ⟨by omega, present⟩

theorem Represents.insert_mem (rep : Represents pool (xs ++ (k, b) :: ys)) (value : Bytes) :
    ∃ after, pool.insert k value = some after ∧
      Represents after ((k, { b with value }) :: (xs ++ ys)) ∧
      after.maxBytes = pool.maxBytes ∧ after.blockType = pool.blockType := by
  have found := rep.segment.at_split
  have replaced := rep.replace (fun b => { b with value })
    (pool.usedBytes - b.value.length + value.length) (by
      rw [rep.used]
      simp only [map_append, map_cons, sum_append, sum_cons]
      omega)
  obtain ⟨after, runs, rest⟩ := replaced.moveToHead
  refine ⟨after, ?_, rest⟩
  simp only [insert, found]
  exact runs

theorem insert_of_evicted {fitting : LruPool} {value : Bytes} (missing : pool.map.get? k = none)
    (loop : evictWhile value.length pool.rounds pool = some fitting) :
    pool.insert k value = some { fitting with
      map := (setPrev fitting.map fitting.head (some k)).insert k
        ⟨⟨k, value, if fitting.blockType = .filter then filterResistCount else 0⟩, none,
          fitting.head⟩
      head := some k
      tail := if fitting.head = none then some k else fitting.tail
      usedBytes := fitting.usedBytes + value.length } := by
  simp only [insert, missing, loop, Option.map_some]

theorem Represents.insert_absent (rep : Represents pool entries)
    (absent : k ∉ entries.map Prod.fst) (value : Bytes) :
    ∃ after remaining resist, pool.insert k value = some after ∧
      Represents after ((k, ⟨k, value, resist⟩) :: remaining) ∧
      after.maxBytes = pool.maxBytes ∧ after.blockType = pool.blockType ∧
      (pool.blockType ≠ .filter → contents remaining =
        (Recency.evictOldest List.length pool.maxBytes value.length
          (contents entries).reverse).reverse) := by
  obtain ⟨fitting, remaining, loop, kept, max, type, keys, abstract⟩ :=
    rep.evictWhile value.length pool.rounds rep.rounds.ge
  have fresh : k ∉ remaining.map Prod.fst := fun member => absent (keys k member)
  refine ⟨_, remaining, if fitting.blockType = .filter then filterResistCount else 0,
    insert_of_evicted (rep.get?_none absent) loop, ⟨?_, ?_, ?_, rfl, ?_, ?_⟩, max, type, abstract⟩
  · simpa only [kept.first] using kept.segment.pushFront kept.distinct fresh _
  · exact nodup_cons.mpr ⟨fresh, kept.distinct⟩
  · intro j present
    rw [Ne, OrdMap.get?_insert] at present
    by_cases same : j = k
    · simp [same]
    · simp only [same, if_false, get?_setPrev_eq_none] at present
      exact mem_cons_of_mem _ (kept.covers j present)
  · simp only [kept.first, kept.last]
    cases remaining with
    | nil => rfl
    | cons e rest => simp [firstKey, lastKey, getLast?_cons]
  · simp only [kept.used, map_cons, sum_cons]
    omega

end Represented

inductive CacheOp where
  | get (key : BlockKey)
  | insert (key : BlockKey) (value : Bytes)
  deriving DecidableEq

def apply (pool : LruPool) : CacheOp → Option (LruPool × Option Bytes)
  | .get key => pool.get key
  | .insert key value => (pool.insert key value).map (·, none)

/-- What a caller sees of an operation: its result, `used_bytes` and `entry_count`. -/
structure Observation where
  result : Option Bytes
  usedBytes : Nat
  entryCount : Nat
  deriving DecidableEq

def observe : LruPool → List CacheOp → Option (LruPool × List Observation)
  | pool, [] => some (pool, [])
  | pool, op :: rest => (pool.apply op).bind fun next =>
    (observe next.1 rest).map fun final =>
      (final.1, ⟨next.2, next.1.usedBytes, next.1.entryCount⟩ :: final.2)

def recencyApply (max : Nat) (entries : List (BlockKey × Bytes)) :
    CacheOp → Option Bytes × List (BlockKey × Bytes)
  | .get key => Recency.get key entries
  | .insert key value => (none, Recency.insert List.length max key value entries)

def recencyObserve (max : Nat) : List (BlockKey × Bytes) → List CacheOp → List Observation
  | _, [] => []
  | entries, op :: rest =>
    let next := recencyApply max entries op
    ⟨next.1, Recency.total List.length next.2, next.2.length⟩ :: recencyObserve max next.2 rest

/-- Following `next` visits these keys and then ends. -/
inductive Follows (pool : LruPool) : Option BlockKey → List BlockKey → Prop where
  | done : Follows pool none []
  | step {k : BlockKey} {node : Node} {rest : List BlockKey} :
    pool.map.get? k = some node → Follows pool node.next rest → Follows pool (some k) (k :: rest)

structure WellFormed (pool : LruPool) : Prop where
  order : ∃ order, Follows pool pool.head order ∧ order.Nodup ∧
    (∀ k, k ∈ order ↔ pool.map.get? k ≠ none) ∧ order.getLast? = pool.tail
  inverse : ∀ a b nodeA nodeB, pool.map.get? a = some nodeA → pool.map.get? b = some nodeB →
    (nodeA.next = some b ↔ nodeB.prev = some a)
  start : ∀ k node, pool.head = some k → pool.map.get? k = some node → node.prev = none
  used : pool.usedBytes = (pool.map.entries.map (·.2.item.value.length)).sum

theorem follows_of_segment {pool : LruPool} {entries : List (BlockKey × Block)}
    {before : Option BlockKey} (segment : Segment pool.map before entries none) :
    Follows pool (firstKey entries) (entries.map Prod.fst) := by
  induction entries generalizing before with
  | nil => exact .done
  | cons e rest ih =>
    obtain ⟨here, later⟩ := segment
    exact .step here (by simpa using ih later)

theorem Represents.wellFormed {pool : LruPool} {entries : List (BlockKey × Block)}
    (rep : Represents pool entries) : WellFormed pool where
  order := by
    refine ⟨entries.map Prod.fst, ?_, rep.distinct, fun k => ⟨fun member => ?_, rep.covers k⟩, ?_⟩
    · rw [rep.first]
      exact follows_of_segment rep.segment
    · obtain ⟨e, inEntries, rfl⟩ := mem_map.mp member
      obtain ⟨prev, next, here⟩ := rep.get?_of_mem inEntries
      simp [here]
    · rw [rep.last, getLast?_map, lastKey]
  inverse := by
    intro a b nodeA nodeB atA atB
    obtain ⟨e, inE, rfl⟩ := mem_map.mp (rep.covers a (by simp [atA]))
    obtain ⟨f, inF, rfl⟩ := mem_map.mp (rep.covers b (by simp [atB]))
    exact rep.segment.next_iff_prev rep.distinct inE inF atA atB
  start := by
    intro k node head found
    rw [rep.first] at head
    obtain ⟨e, isFirst, rfl⟩ := Option.map_eq_some_iff.mp head
    obtain ⟨rest, rfl⟩ := head?_eq_some_iff.mp isFirst
    rw [rep.segment.1, Option.some.injEq] at found
    rw [← found]
  used := by
    rw [rep.used, ← (rep.perm.map (·.2.value.length)).sum_nat, map_map]
    rfl

theorem without_split {xs ys : List (BlockKey × Block)} {k : BlockKey} {b : Block}
    (distinct : ((xs ++ (k, b) :: ys).map Prod.fst).Nodup) :
    Recency.without k (contents (xs ++ (k, b) :: ys)) = contents (xs ++ ys) := by
  rw [map_append, map_cons, nodup_append] at distinct
  obtain ⟨-, distinctBack, apart⟩ := distinct
  have front : ∀ e ∈ contents xs, e.1 ≠ k := by
    intro e member
    obtain ⟨f, inXs, rfl⟩ := mem_map.mp member
    exact apart _ (mem_map_of_mem inXs) _ (by simp)
  have back : ∀ e ∈ contents ys, e.1 ≠ k := by
    intro e member same
    obtain ⟨f, inYs, rfl⟩ := mem_map.mp member
    exact (nodup_cons.mp distinctBack).1 (mem_map.mpr ⟨f, inYs, same⟩)
  simp only [Recency.without, contents, map_append, map_cons, filter_append,
    filter_cons] at front back ⊢
  rw [filter_eq_self.mpr fun e member => by simpa using front e member]
  simp only [ne_eq, not_true_eq_false, decide_false, Bool.false_eq_true, if_false]
  rw [filter_eq_self.mpr fun e member => by simpa using back e member]

theorem lookup_contents {entries : List (BlockKey × Block)} {k : BlockKey} {b : Block}
    (distinct : (entries.map Prod.fst).Nodup) (member : (k, b) ∈ entries) :
    (contents entries).lookup k = some b.value := by
  rw [← OrdMap.mem_iff_lookup]
  · exact mem_map.mpr ⟨(k, b), member, rfl⟩
  · simpa [contents, Function.comp_def] using distinct

theorem lookup_contents_none {entries : List (BlockKey × Block)} {k : BlockKey}
    (absent : k ∉ entries.map Prod.fst) : (contents entries).lookup k = none := by
  rw [lookup_eq_none_iff]
  intro e member
  obtain ⟨f, inEntries, rfl⟩ := mem_map.mp member
  exact bne_iff_ne.mpr fun same => absent (same ▸ mem_map_of_mem inEntries)

theorem Represents.apply {pool : LruPool} {entries : List (BlockKey × Block)}
    (rep : Represents pool entries) (op : CacheOp) :
    ∃ next result after, pool.apply op = some (next, result) ∧ Represents next after ∧
      next.maxBytes = pool.maxBytes ∧ next.blockType = pool.blockType ∧
      (pool.blockType ≠ .filter →
        recencyApply pool.maxBytes (contents entries) op = (result, contents after)) := by
  cases op with
  | get k =>
    by_cases present : k ∈ entries.map Prod.fst
    · obtain ⟨⟨k, b⟩, member, rfl⟩ := mem_map.mp present
      obtain ⟨xs, ys, rfl⟩ := append_of_mem member
      obtain ⟨moved, runs, after, max, type⟩ := rep.get_mem
      refine ⟨moved, _, _, runs, after, max, type, fun _ => ?_⟩
      simp only [recencyApply, Recency.get, lookup_contents rep.distinct member,
        without_split rep.distinct]
      rfl
    · refine ⟨pool, none, entries, rep.get_absent present, rep, rfl, rfl, fun _ => ?_⟩
      simp only [recencyApply, Recency.get, lookup_contents_none present]
  | insert k value =>
    by_cases present : k ∈ entries.map Prod.fst
    · obtain ⟨⟨k, b⟩, member, rfl⟩ := mem_map.mp present
      obtain ⟨xs, ys, rfl⟩ := append_of_mem member
      obtain ⟨next, runs, after, max, type⟩ := rep.insert_mem value
      refine ⟨next, none, _, by simp only [LruPool.apply, runs, Option.map_some], after, max, type,
        fun _ => ?_⟩
      simp only [recencyApply, Recency.insert, lookup_contents rep.distinct member,
        without_split rep.distinct]
      rfl
    · obtain ⟨next, remaining, resist, runs, after, max, type, abstract⟩ :=
        rep.insert_absent present value
      refine ⟨next, none, _, by simp only [LruPool.apply, runs, Option.map_some], after, max, type,
        fun plain => ?_⟩
      simp only [recencyApply, Recency.insert, lookup_contents_none present, ← abstract plain]
      rfl

theorem Represents.observe {pool : LruPool} {entries : List (BlockKey × Block)}
    (rep : Represents pool entries) (ops : List CacheOp) :
    ∃ final seen, observe pool ops = some (final, seen) ∧ WellFormed final ∧
      (pool.blockType ≠ .filter → seen = recencyObserve pool.maxBytes (contents entries) ops) := by
  induction ops generalizing pool entries with
  | nil => exact ⟨pool, [], rfl, rep.wellFormed, fun _ => rfl⟩
  | cons op rest ih =>
    obtain ⟨next, result, after, runs, kept, max, type, abstract⟩ := rep.apply op
    obtain ⟨final, seen, later, formed, same⟩ := ih kept
    refine ⟨final, ⟨result, next.usedBytes, next.entryCount⟩ :: seen, ?_, formed, fun plain => ?_⟩
    · simp only [LruPool.observe, runs, Option.bind_some, later, Option.map_some]
    simp only [recencyObserve, abstract plain]
    rw [same (type ▸ plain), max, kept.used, kept.entryCount, total_contents]
    simp [contents]

/-- The caller sees what the recency list shows. -/
theorem pool_refines_recency (maxBytes : Nat) (blockType : BlockType) (ops : List CacheOp) :
    ∃ final seen, observe (new maxBytes blockType) ops = some (final, seen) ∧ WellFormed final ∧
      (blockType = .data ∨ blockType = .index → seen = recencyObserve maxBytes [] ops) := by
  obtain ⟨final, seen, runs, formed, same⟩ := (represents_new maxBytes blockType).observe ops
  refine ⟨final, seen, runs, formed, fun plain => same ?_⟩
  rcases plain with rfl | rfl <;> exact BlockType.noConfusion

def step (pool : LruPool) (op : CacheOp) : Option LruPool := (pool.apply op).map (·.1)

/-- The loop of `insert` as the source has it: how often it goes round and what it leaves. -/
inductive Evicts (size : Nat) : Nat → LruPool → LruPool → Prop where
  | stop {pool : LruPool} : ¬ pool.MustEvict size → Evicts size 0 pool pool
  | round {n : Nat} {pool next final : LruPool} : pool.MustEvict size →
    pool.tryEvictTail = some next → Evicts size n next final → Evicts size (n + 1) pool final

variable {pool : LruPool}

theorem Evicts.not_mustEvict {size n : Nat} {final : LruPool} (evicts : Evicts size n pool final) :
    ¬ final.MustEvict size := by
  induction evicts with
  | stop fits => exact fits
  | round _ _ _ ih => exact ih

theorem evicts_of_evictWhile {size rounds : Nat} {final : LruPool}
    (loop : evictWhile size rounds pool = some final) : ∃ n ≤ rounds, Evicts size n pool final := by
  induction rounds generalizing pool with
  | zero =>
    rw [evictWhile] at loop
    split at loop
    · cases loop
    · next fits =>
      cases loop
      exact ⟨0, Nat.le_refl 0, .stop fits⟩
  | succ rounds ih =>
    rw [evictWhile] at loop
    split at loop
    · next full =>
      obtain ⟨next, evicted, later⟩ := Option.bind_eq_some_iff.mp loop
      obtain ⟨n, le, evicts⟩ := ih later
      exact ⟨n + 1, Nat.succ_le_succ le, .round full evicted evicts⟩
    · next fits =>
      cases loop
      exact ⟨0, Nat.zero_le _, .stop fits⟩

variable {entries : List (BlockKey × Block)}

theorem Represents.room_or_empty (rep : Represents pool entries) {size : Nat}
    (fits : ¬ pool.MustEvict size) : pool.usedBytes + size ≤ pool.maxBytes ∨ entries = [] := by
  by_cases empty : pool.tail = none
  · refine Or.inr ?_
    rw [rep.last] at empty
    simpa [lastKey] using empty
  · exact Or.inl (Nat.le_of_not_lt fun full => fits ⟨full, empty⟩)

/-- The block stays within the limit. -/
def Fits (pool : LruPool) : CacheOp → Prop
  | .get _ => True
  | .insert key value =>
    match pool.map.get? key with
    | some old => pool.usedBytes - old.item.value.length + value.length ≤ pool.maxBytes
    | none => value.length ≤ pool.maxBytes

theorem Represents.step_bounded_iff {next : LruPool} (rep : Represents pool entries)
    (bounded : pool.usedBytes ≤ pool.maxBytes) {op : CacheOp} (ok : pool.step op = some next) :
    next.usedBytes ≤ pool.maxBytes ↔ pool.Fits op := by
  obtain ⟨⟨reached, result⟩, applied, rfl⟩ := Option.map_eq_some_iff.mp ok
  cases op with
  | get k =>
    refine iff_of_true ?_ trivial
    by_cases present : k ∈ entries.map Prod.fst
    · obtain ⟨⟨k, b⟩, member, rfl⟩ := mem_map.mp present
      obtain ⟨xs, ys, rfl⟩ := append_of_mem member
      obtain ⟨moved, runs, after, -, -⟩ := rep.get_mem
      rw [LruPool.apply, runs, Option.some.injEq, Prod.mk.injEq] at applied
      rw [← applied.1, after.used, ((perm_middle.symm.map fun e : BlockKey × Block =>
        e.2.value.length).sum_nat), ← rep.used]
      exact bounded
    · rw [LruPool.apply, rep.get_absent present, Option.some.injEq, Prod.mk.injEq] at applied
      rw [← applied.1]
      exact bounded
  | insert k value =>
    obtain ⟨after, runs, same⟩ := Option.map_eq_some_iff.mp applied
    rw [Prod.mk.injEq] at same
    rw [← same.1]
    by_cases present : k ∈ entries.map Prod.fst
    · obtain ⟨⟨k, b⟩, member, rfl⟩ := mem_map.mp present
      obtain ⟨xs, ys, rfl⟩ := append_of_mem member
      obtain ⟨replaced, inserted, kept, -, -⟩ := rep.insert_mem value
      rw [inserted, Option.some.injEq] at runs
      have used := rep.used
      simp only [map_append, map_cons, sum_append, sum_cons] at used
      rw [← runs, kept.used, Fits, rep.segment.at_split]
      simp only [map_append, map_cons, sum_append, sum_cons]
      omega
    · have missing := rep.get?_none present
      obtain ⟨fitting, remaining, loop, kept, max, -, -, -⟩ :=
        rep.evictWhile value.length pool.rounds rep.rounds.ge
      obtain ⟨n, -, evicts⟩ := evicts_of_evictWhile loop
      rw [insert_of_evicted missing loop, Option.some.injEq] at runs
      rw [← runs, Fits, missing]
      dsimp only
      rcases kept.room_or_empty evicts.not_mustEvict with room | rfl
      · rw [max] at room
        exact iff_of_true room (by omega)
      · rw [kept.used]
        simp

def Kept (maxBytes : Nat) (pool : LruPool) : Prop :=
  (∃ entries, Represents pool entries) ∧ pool.maxBytes = maxBytes

theorem kept_new (maxBytes : Nat) (blockType : BlockType) : Kept maxBytes (new maxBytes blockType) :=
  ⟨⟨[], represents_new maxBytes blockType⟩, rfl⟩

variable {maxBytes : Nat}

theorem Kept.step (kept : Kept maxBytes pool) (op : CacheOp) :
    ∃ next, pool.step op = some next ∧ Kept maxBytes next := by
  obtain ⟨⟨entries, rep⟩, max⟩ := kept
  obtain ⟨next, result, after, runs, again, same, -, -⟩ := rep.apply op
  exact ⟨next, by rw [LruPool.step, runs, Option.map_some], ⟨after, again⟩, same.trans max⟩

theorem Kept.of_step {next : LruPool} (kept : Kept maxBytes pool) {op : CacheOp}
    (ok : pool.step op = some next) : Kept maxBytes next := by
  obtain ⟨after, runs, again⟩ := kept.step op
  rw [ok, Option.some.injEq] at runs
  rwa [runs]

theorem Kept.exec (kept : Kept maxBytes pool) (ops : List CacheOp) :
    ∃ final, Run.exec LruPool.step pool ops = some final ∧ Kept maxBytes final :=
  Run.exec_total (fun _ op held => Kept.step held op) ops pool kept

/-- Within the limit exactly when every block fits. -/
theorem bounded_iff_every_block_fits (maxBytes : Nat) (blockType : BlockType) (ops : List CacheOp) :
    (∃ final, Run.exec step (new maxBytes blockType) ops = some final) ∧
      (Run.EveryState step (fun pool => pool.usedBytes ≤ maxBytes) (new maxBytes blockType) ops ↔
        Run.EveryStep step Fits (new maxBytes blockType) ops) := by
  have start := kept_new maxBytes blockType
  obtain ⟨final, runs, -⟩ := start.exec ops
  refine ⟨⟨final, runs⟩, ?_⟩
  refine Run.everyState_iff_everyStep (G := fun _ _ => True) (Kept maxBytes) ?_ ?_ ops _ start
    (Nat.zero_le maxBytes) (Run.everyStep_of_forall (fun _ _ => trivial) _ ops)
  · intro pool op next kept _ ok
    exact kept.of_step ok
  · intro pool op next kept _ bounded ok
    obtain ⟨⟨entries, rep⟩, rfl⟩ := kept
    exact rep.step_bounded_iff bounded ok

theorem used_beyond_limit :
    let key : BlockKey := ⟨"p", "c", 0, .data⟩
    (Run.exec step (new 2 .data) [.insert key [0, 0, 0]]).map (·.usedBytes) = some 3 ∧
      (Run.exec step (new 3 .data) [.insert key [0], .insert key [0, 0, 0, 0]]).map
        (·.usedBytes) = some 4 := by
  decide +kernel

variable (counters : Block → Nat)

def setResist (b : Block) : Block := { b with resist := counters b }

def withResist (pool : LruPool) : LruPool :=
  { pool with map := pool.map.map fun n => { n with item := setResist counters n.item } }

theorem withResist_self (pool : LruPool) : pool.withResist Block.resist = pool := by
  have same : pool.map.map (fun n : Node => n) = pool.map := by
    refine OrdMap.ext_get? fun k => ?_
    rw [OrdMap.get?_map, Option.map_id']
  exact congrArg (fun map => { pool with map }) same

theorem Represents.withResist (rep : Represents pool entries) (counters : Block → Nat) :
    Represents (pool.withResist counters)
      (entries.map fun e => (e.1, setResist counters e.2)) where
  segment := rep.segment.map (setResist counters)
  distinct := by simpa [Function.comp_def] using rep.distinct
  covers k present := by
    have before := rep.covers k fun none => present (by
      rw [LruPool.withResist, OrdMap.get?_map, none, Option.map_none])
    simpa [Function.comp_def] using before
  first := rep.first.trans (by rw [firstKey, firstKey, head?_map, Option.map_map]; rfl)
  last := rep.last.trans (by rw [lastKey, lastKey, getLast?_map, Option.map_map]; rfl)
  used := rep.used.trans (by rw [map_map]; rfl)

theorem rounds_eq (pool : LruPool) :
    pool.rounds = pool.entryCount + (pool.map.entries.map (·.2.item.resist)).sum := by
  rw [rounds, entryCount]
  induction pool.map.entries with
  | nil => rfl
  | cons e rest ih =>
    simp only [map_cons, sum_cons, length_cons, ih]
    omega

/-- Eviction ends, with room for the block or an empty pool. -/
theorem eviction_ends {maxBytes : Nat} {ops : List CacheOp} {pool : LruPool}
    (reached : Run.exec step (new maxBytes .filter) ops = some pool) (counters : Block → Nat)
    (value : Bytes) :
    let resisting := pool.withResist counters
    ∃ n final, Evicts value.length n resisting final ∧
      evictWhile value.length resisting.rounds resisting = some final ∧
      n ≤ resisting.entryCount + (resisting.map.entries.map (·.2.item.resist)).sum ∧
      (final.usedBytes + value.length ≤ final.maxBytes ∨ final.entryCount = 0) := by
  obtain ⟨_, again, ⟨entries, rep⟩, -⟩ := (kept_new maxBytes .filter).exec ops
  rw [reached, Option.some.injEq] at again
  subst again
  have changed := rep.withResist counters
  obtain ⟨final, remaining, loop, left, -, -, -, -⟩ :=
    changed.evictWhile value.length _ changed.rounds.ge
  obtain ⟨n, le, evicts⟩ := evicts_of_evictWhile loop
  refine ⟨n, final, evicts, loop, le.trans (rounds_eq _).le, ?_⟩
  refine (left.room_or_empty evicts.not_mustEvict).imp_right fun empty => ?_
  rw [left.entryCount, empty, length_nil]

theorem resisting_block_evicted :
    ∃ pool, Run.exec step (new 1 .filter) [.insert ⟨"p", "c", 0, .filter⟩ [0]] = some pool ∧
      ∃ n final, Evicts 1 n pool final ∧ n ≤ 4 ∧
        (final.usedBytes + 1 ≤ final.maxBytes ∨ final.entryCount = 0) := by
  have work : (Run.exec step (new 1 .filter) [.insert ⟨"p", "c", 0, .filter⟩ [0]]).map
      (fun pool => pool.entryCount + (pool.map.entries.map (·.2.item.resist)).sum) = some 4 := by
    decide +kernel
  obtain ⟨pool, reached, four⟩ := Option.map_eq_some_iff.mp work
  have ends := eviction_ends reached Block.resist [0]
  dsimp only at ends
  rw [withResist_self, four] at ends
  obtain ⟨n, final, evicts, -, le, stops⟩ := ends
  exact ⟨pool, reached, n, final, evicts, le, stops⟩

end WowDb.Storage.LruPool
