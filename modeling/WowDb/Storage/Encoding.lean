import WowDb.Lib.Granules
import WowDb.Storage.WriteBatch

/-!
# Encodings of columns

`storage-node/src/columnar/encoding.rs`; `none` is a panic, overflow included.
-/
namespace WowDb.Storage
open WowDb.Lib Bytes List WriteBatch

/-- That many items, each from where the one before ended. -/
def readTimes {α : Type} (read : Bytes → Option (α × Bytes)) : Nat → Bytes → Option (List α × Bytes)
  | 0, rest => some ([], rest)
  | n + 1, rest => (read rest).bind fun first =>
    (readTimes read n first.2).map fun later => (first.1 :: later.1, later.2)

theorem readTimes_eq_some_iff {α : Type} {read : Bytes → Option (α × Bytes)} {write : α → Bytes}
    {good : α → Prop} (reads : ∀ data a rest,
      read data = some (a, rest) ↔ data = write a ++ rest ∧ good a) (n : Nat) :
    ∀ {data rest : Bytes} {items : List α}, readTimes read n data = some (items, rest) ↔
      items.length = n ∧ data = items.flatMap write ++ rest ∧ ∀ a ∈ items, good a := by
  induction n with
  | zero =>
    intro data rest items
    rw [readTimes, Option.some.injEq, Prod.mk.injEq, length_eq_zero_iff]
    constructor
    · rintro ⟨rfl, rfl⟩
      exact ⟨rfl, rfl, nofun⟩
    · rintro ⟨rfl, rfl, -⟩
      exact ⟨rfl, rfl⟩
  | succ n ih =>
    intro data rest items
    rw [readTimes, Option.bind_eq_some_iff]
    constructor
    · rintro ⟨⟨a, middle⟩, first, later⟩
      obtain ⟨⟨more, last⟩, found, pair⟩ := Option.map_eq_some_iff.mp later
      cases pair
      obtain ⟨rfl, goodA⟩ := (reads data a middle).mp first
      obtain ⟨length, rfl, goods⟩ := ih.mp found
      exact ⟨by rw [length_cons, length], by rw [flatMap_cons, append_assoc],
        forall_mem_cons.mpr ⟨goodA, goods⟩⟩
    · rintro ⟨length, rfl, goods⟩
      cases items with
      | nil => cases length
      | cons a more =>
        obtain ⟨goodA, goods⟩ := forall_mem_cons.mp goods
        refine ⟨(a, more.flatMap write ++ rest), (reads _ a _).mpr ⟨?_, goodA⟩, ?_⟩
        · rw [flatMap_cons, append_assoc]
        · rw [ih.mpr ⟨Nat.succ.inj length, rfl, goods⟩]
          rfl

def readLe (width : Nat) (data : Bytes) : Option (Nat × Bytes) :=
  (readExact width data).map fun read => (ofLeBytes read.1, read.2)

theorem readLe_eq_some_iff (width : Nat) (data : Bytes) (n : Nat) (rest : Bytes) :
    readLe width data = some (n, rest) ↔ data = leBytes width n ++ rest ∧ n < 256 ^ width := by
  rw [readLe, Option.map_eq_some_iff]
  constructor
  · rintro ⟨⟨octets, after⟩, read, pair⟩
    cases pair
    obtain ⟨rfl, rfl⟩ := readExact_some read
    exact ⟨by rw [leBytes_ofLeBytes rfl], ofLeBytes_lt octets⟩
  · rintro ⟨rfl, small⟩
    exact ⟨_, readExact_of_length (length_leBytes width n) rest,
      by rw [ofLeBytes_leBytes_of_lt small]⟩

def readEntry (data : Bytes) : Option (Bytes × Bytes) :=
  (readLe 4 data).bind fun length => readExact length.1 length.2

theorem readEntry_eq_some_iff (data entry rest : Bytes) :
    readEntry data = some (entry, rest) ↔
      data = lengthPrefixed entry ++ rest ∧ entry.length < 256 ^ 4 := by
  rw [readEntry, Option.bind_eq_some_iff]
  constructor
  · rintro ⟨⟨n, middle⟩, first, second⟩
    obtain ⟨rfl, small⟩ := (readLe_eq_some_iff 4 data n middle).mp first
    obtain ⟨rfl, rfl⟩ := readExact_some second
    exact ⟨by rw [lengthPrefixed, append_assoc], small⟩
  · rintro ⟨rfl, small⟩
    refine ⟨_, (readLe_eq_some_iff 4 _ entry.length (entry ++ rest)).mpr ⟨?_, small⟩, ?_⟩
    · rw [lengthPrefixed, append_assoc]
    · exact readExact_append entry rest

def entryReader : FrameReader UInt8 Bytes where
  read := readEntry
  shrinks read := by
    obtain ⟨rfl, -⟩ := (readEntry_eq_some_iff _ _ _).mp read
    rw [length_append]
    exact Nat.lt_add_of_pos_left (by simp [lengthPrefixed])
  extends_right read more := by
    obtain ⟨rfl, small⟩ := (readEntry_eq_some_iff _ _ _).mp read
    exact (readEntry_eq_some_iff _ _ _).mpr ⟨append_assoc .., small⟩

structure DictEncoder where
  dict : List Bytes
  lookup : OrdMap Bytes UInt32
  codes : List UInt32

namespace DictEncoder

def new : DictEncoder := ⟨[], .empty, []⟩

def push (e : DictEncoder) (value : Bytes) : DictEncoder :=
  let nextId := UInt32.ofNat e.dict.length
  match e.lookup.get? value with
  | some code => { e with codes := e.codes ++ [code] }
  | none => ⟨e.dict ++ [value], e.lookup.insert value nextId, e.codes ++ [nextId]⟩

def finish (e : DictEncoder) : Bytes × Bytes :=
  (leBytes 4 e.dict.length ++ e.dict.flatMap lengthPrefixed,
    leBytes 4 e.codes.length ++ e.codes.flatMap fun code => leBytes 4 code.toNat)

end DictEncoder

variable (dictBytes codesBytes : Bytes)

def DictDecoder.decode : Option (List Bytes) := do
  let nDict ← readLe 4 dictBytes
  let dict ← readTimes readEntry nDict.1 nDict.2
  let nCodes ← readLe 4 codesBytes
  let codes ← readTimes (readLe 4) nCodes.1 nCodes.2
  codes.1.mapM fun code => dict.1[code]?

/-- The octets are a dictionary and codes into it; what follows them is not read. -/
structure DictFormat (dictBytes codesBytes : Bytes) (entries : List Bytes) (codes : List Nat) :
    Prop where
  dict_eq : ∃ rest, dictBytes = leBytes 4 entries.length ++ (entries.flatMap lengthPrefixed ++ rest)
  entries_lt : entries.length < 256 ^ 4 ∧ ∀ entry ∈ entries, entry.length < 256 ^ 4
  codes_eq : ∃ rest, codesBytes = leBytes 4 codes.length ++ (codes.flatMap (leBytes 4) ++ rest)
  codes_lt : codes.length < 256 ^ 4 ∧ ∀ code ∈ codes, code < entries.length

theorem lt_of_forall₂_getElem? {entries values : List Bytes} {codes : List Nat}
    (found : Forall₂ (fun code value => entries[code]? = some value) codes values) :
    ∀ code ∈ codes, code < entries.length := by
  have both := found.imp fun code value here =>
    And.intro (List.getElem?_eq_some_iff.mp here).1 here
  exact (forall₂_and_left _ _ |>.mp both).1

namespace DictDecoder

theorem decode_eq_some_iff (dictBytes codesBytes : Bytes) (values : List Bytes) :
    decode dictBytes codesBytes = some values ↔ ∃ entries codes,
      DictFormat dictBytes codesBytes entries codes ∧
        Forall₂ (fun code value => entries[code]? = some value) codes values := by
  have readsEntry := readTimes_eq_some_iff readEntry_eq_some_iff
  have readsCode := readTimes_eq_some_iff (readLe_eq_some_iff 4)
  simp only [decode, bind, Option.bind_eq_some_iff, Granules.mapM_eq_some_iff]
  constructor
  · rintro ⟨⟨n, _⟩, first, ⟨entries, rest⟩, second, ⟨m, _⟩, third, ⟨codes, after⟩, fourth, same⟩
    obtain ⟨rfl, smallDict⟩ := (readLe_eq_some_iff 4 _ n _).mp first
    obtain ⟨rfl, rfl, short⟩ := (readsEntry n).mp second
    obtain ⟨rfl, smallCodes⟩ := (readLe_eq_some_iff 4 _ m _).mp third
    obtain ⟨rfl, rfl, -⟩ := (readsCode m).mp fourth
    exact ⟨entries, codes, ⟨⟨rest, rfl⟩, ⟨smallDict, short⟩, ⟨after, rfl⟩, smallCodes,
      lt_of_forall₂_getElem? same⟩, same⟩
  · rintro ⟨entries, codes, ⟨⟨rest, rfl⟩, ⟨small, short⟩, ⟨after, rfl⟩, few, inside⟩, same⟩
    refine ⟨_, (readLe_eq_some_iff 4 _ _ _).mpr ⟨rfl, small⟩, (entries, rest),
      (readsEntry _).mpr ⟨rfl, rfl, short⟩, _, (readLe_eq_some_iff 4 _ _ _).mpr ⟨rfl, few⟩,
      (codes, after), (readsCode _).mpr ⟨rfl, rfl, fun code member => ?_⟩, same⟩
    exact (inside code member).trans small

end DictDecoder

namespace DictEncoder

/-- What `push` keeps. -/
structure Encodes (e : DictEncoder) (values : List Bytes) : Prop where
  nodup : e.dict.Nodup
  mem_dict : ∀ v, v ∈ e.dict ↔ v ∈ values
  place : ∀ v code, e.lookup.get? v = some code → e.dict[code.toNat]? = some v
  known : ∀ v ∈ e.dict, e.lookup.get? v ≠ none
  codes : Forall₂ (fun code value => e.dict[code]? = some value) (e.codes.map UInt32.toNat) values

theorem Encodes.push {e : DictEncoder} {values : List Bytes} (encodes : e.Encodes values)
    (small : e.dict.length < 256 ^ 4) (value : Bytes) :
    (e.push value).Encodes (values ++ [value]) := by
  unfold DictEncoder.push
  cases found : e.lookup.get? value with
  | some code =>
    have here := encodes.place value code found
    have old := (encodes.mem_dict value).mp (mem_of_getElem? here)
    refine ⟨encodes.nodup, fun v => ?_, encodes.place, encodes.known, ?_⟩
    · rw [encodes.mem_dict, mem_append, mem_singleton]
      exact ⟨Or.inl, fun either => either.elim id (· ▸ old)⟩
    · rw [map_append]
      exact rel_append encodes.codes (.cons here .nil)
  | none =>
    have new : value ∉ e.dict := fun inside => encodes.known value inside found
    have self : (UInt32.ofNat e.dict.length).toNat = e.dict.length := by
      rw [UInt32.toNat_ofNat']
      exact Nat.mod_eq_of_lt small
    have kept : ∀ {i : Nat} {v : Bytes}, e.dict[i]? = some v → (e.dict ++ [value])[i]? = some v := by
      intro i v here
      rw [getElem?_append_left (List.getElem?_eq_some_iff.mp here).1, here]
    refine ⟨?_, fun v => ?_, fun v code there => ?_, fun v inside => ?_, ?_⟩
    · exact nodup_append_comm.mp (nodup_cons.mpr ⟨new, encodes.nodup⟩)
    · rw [mem_append, mem_append, encodes.mem_dict]
    · rw [OrdMap.get?_insert] at there
      split at there
      · next same =>
        obtain rfl := Option.some.inj there
        rw [self, getElem?_concat_length, same]
      · exact kept (encodes.place v code there)
    · rw [OrdMap.get?_insert]
      split
      · nofun
      · next other =>
        rcases mem_append.mp inside with old | last
        · exact encodes.known v old
        · exact absurd (mem_singleton.mp last) other
    · rw [map_append]
      refine rel_append (encodes.codes.imp fun _ _ => kept) (.cons ?_ .nil)
      rw [self, getElem?_concat_length]

theorem encodes_foldl {all : List Bytes} (few : all.dedup.length < 256 ^ 4) (values : List Bytes)
    (part : ∀ v ∈ values, v ∈ all) : (values.foldl push new).Encodes values := by
  induction values using List.reverseRecOn with
  | nil => exact ⟨nodup_nil, fun _ => Iff.rfl, nofun, nofun, .nil⟩
  | append_singleton before value ih =>
    have encodes := ih fun v inside => part v (mem_append_left _ inside)
    have subset : (before.foldl push new).dict ⊆ all.dedup := fun v inside =>
      mem_dedup.mpr (part v (mem_append_left _ ((encodes.mem_dict v).mp inside)))
    have bound := (subperm_of_subset encodes.nodup subset).length_le
    rw [foldl_append]
    exact encodes.push (by omega) value

/-- Values are decoded again, each once in the dictionary. -/
theorem dict_round_trip (values : List Bytes) (short : ∀ v ∈ values, v.length < 2 ^ 32)
    (distinct : values.dedup.length < 2 ^ 32) (few : values.length < 2 ^ 32) :
    let e := values.foldl push new
    DictDecoder.decode e.finish.1 e.finish.2 = some values ∧ e.dict.Nodup ∧
      ∀ v, v ∈ e.dict ↔ v ∈ values := by
  intro e
  have encodes : e.Encodes values := encodes_foldl distinct values fun _ inside => inside
  refine ⟨?_, encodes.nodup, encodes.mem_dict⟩
  have subset : e.dict ⊆ values.dedup := fun v inside =>
    mem_dedup.mpr ((encodes.mem_dict v).mp inside)
  have bound := (subperm_of_subset encodes.nodup subset).length_le
  have lengths := encodes.codes.length_eq
  refine (DictDecoder.decode_eq_some_iff _ _ values).mpr ⟨e.dict, e.codes.map UInt32.toNat,
    ⟨⟨[], by rw [append_nil]; rfl⟩, ⟨by omega, fun v inside => ?_⟩, ⟨[], ?_⟩, by omega,
      lt_of_forall₂_getElem? encodes.codes⟩, encodes.codes⟩
  · exact short v ((encodes.mem_dict v).mp inside)
  · rw [append_nil, length_map, flatMap_map]
    rfl

theorem dict_round_trip_repeats :
    let e := [[1], [], [1]].foldl push new
    DictDecoder.decode e.finish.1 e.finish.2 = some [[1], [], [1]] ∧ e.dict.Nodup ∧
      ∀ v, v ∈ e.dict ↔ v ∈ ([[1], [], [1]] : List Bytes) :=
  dict_round_trip [[1], [], [1]] (by decide) (by decide) (by decide)

end DictEncoder

/-- The inner loop of `bitpack_encode`, which writes the whole octets of the buffer. -/
def drain : Nat → Nat → Bytes × Nat × Nat
  | bits, used + 8 =>
    let later := drain (bits >>> 8) used
    (UInt8.ofNat bits :: later.1, later.2)
  | bits, used => ([], bits, used)

def encodeLoop (width : Nat) : Nat → Nat → List UInt32 → Bytes
  | bits, used, [] => if used > 0 then [UInt8.ofNat bits] else []
  | bits, used, v :: rest =>
    let drained := drain (bits ||| (v.toNat <<< used) % 2 ^ 64) (used + width)
    drained.1 ++ encodeLoop width drained.2.1 drained.2.2 rest

def bitpackEncode (values : List UInt32) : Bytes :=
  if values = [] then []
  else
    let maxVal := (values.map UInt32.toNat).max?.getD 0
    let width := if maxVal = 0 then 1 else maxVal.log2 + 1
    UInt8.ofNat width :: leBytes 4 values.length ++ encodeLoop width 0 0 values

/-- The inner loop of `bitpack_decode`; without a result a shift or a sum overflows. -/
def fill (width : Nat) : Nat → Nat → Bytes → Option (Nat × Nat × Bytes)
  | bits, avail, [] => some (bits, avail, [])
  | bits, avail, octet :: rest =>
    if avail < width then
      if 64 ≤ avail ∨ 256 ≤ avail + 8 then none
      else fill width (bits ||| (octet.toNat <<< avail) % 2 ^ 64) (avail + 8) rest
    else some (bits, avail, octet :: rest)

def decodeLoop (width mask : Nat) : Nat → Nat → Nat → Bytes → Option (List UInt32)
  | 0, _, _, _ => some []
  | n + 1, bits, avail, payload => (fill width bits avail payload).bind fun filled =>
    if 64 ≤ width then none
    else (decodeLoop width mask n (filled.1 >>> width) (filled.2.1 - width) filled.2.2).map
      (UInt32.ofNat (filled.1 &&& mask) :: ·)

def bitpackDecode (data : Bytes) : Option (List UInt32) :=
  match data with
  | octet :: b0 :: b1 :: b2 :: b3 :: payload =>
    let width := octet.toNat
    let n := ofLeBytes [b0, b1, b2, b3]
    if width = 32 then decodeLoop width (2 ^ 32 - 1) n 0 0 payload
    else if 64 ≤ width then none
    else decodeLoop width (2 ^ width - 1) n 0 0 payload
  | _ => some []

/-- The number with the values as digits to base `2 ^ width`, the first one lowest. -/
def packed (width : Nat) : List UInt32 → Nat
  | [] => 0
  | v :: rest => v.toNat + 2 ^ width * packed width rest

theorem or_shifted {bits used n width : Nat} (low : bits < 2 ^ used) (high : n < 2 ^ width)
    (fits : used + width ≤ 64) : bits ||| (n <<< used) % 2 ^ 64 = bits + 2 ^ used * n ∧
      bits + 2 ^ used * n < 2 ^ (used + width) := by
  have bound : bits + 2 ^ used * n < 2 ^ (used + width) := by
    calc bits + 2 ^ used * n < 2 ^ used * (n + 1) := by rw [Nat.mul_succ]; omega
      _ ≤ 2 ^ used * 2 ^ width := Nat.mul_le_mul_left _ high
      _ = 2 ^ (used + width) := (Nat.pow_add 2 used width).symm
  have word := Nat.pow_le_pow_right (show 0 < 2 by omega) fits
  have shifted : n <<< used = 2 ^ used * n := by rw [Nat.shiftLeft_eq, Nat.mul_comm]
  refine ⟨?_, bound⟩
  rw [Nat.mod_eq_of_lt (by omega), Nat.or_comm, ← Nat.shiftLeft_add_eq_or_of_lt low, shifted,
    Nat.add_comm]

theorem ofLeBytes_append_eq (a b : Bytes) :
    ofLeBytes (a ++ b) = ofLeBytes a + 256 ^ a.length * ofLeBytes b := by
  induction a with
  | nil => simp [ofLeBytes]
  | cons octet rest ih =>
    rw [cons_append, ofLeBytes, ih, ofLeBytes, length_cons]
    ring

theorem drain_spec (bits used : Nat) (small : bits < 2 ^ used) :
    ∃ octets bits' used', drain bits used = (octets, bits', used') ∧ used' < 8 ∧ bits' < 2 ^ used' ∧
      8 * octets.length + used' = used ∧ ofLeBytes octets + 256 ^ octets.length * bits' = bits := by
  fun_induction drain bits used with
  | case1 bits used later ih =>
    have shifted : bits >>> 8 = bits / 256 := Nat.shiftRight_eq_div_pow bits 8
    have power : 2 ^ (used + 8) = 2 ^ used * 256 := pow_add 2 used 8
    obtain ⟨octets, bits', used', same, low, bound, length, value⟩ := ih (by omega)
    refine ⟨UInt8.ofNat bits :: octets, bits', used', by simp only [later, same], low, bound,
      by rw [length_cons]; omega, ?_⟩
    rw [ofLeBytes, length_cons, UInt8.toNat_ofNat', pow_succ' 256, Nat.mul_assoc, Nat.add_assoc,
      ← Nat.mul_add, value]
    omega
  | case2 bits used short =>
    refine ⟨[], bits, used, rfl, ?_, small, by simp, by simp [ofLeBytes]⟩
    by_contra large
    exact short (used - 8) (by omega)

variable {width : Nat}

theorem encodeLoop_spec (fits : width ≤ 32) (values : List UInt32) :
    ∀ {bits used : Nat}, (∀ v ∈ values, v.toNat < 2 ^ width) → used < 8 → bits < 2 ^ used →
      ofLeBytes (encodeLoop width bits used values) = bits + 2 ^ used * packed width values ∧
        used + width * values.length ≤ 8 * (encodeLoop width bits used values).length := by
  induction values with
  | nil =>
    intro bits used _ few small
    have octet : 2 ^ used ≤ 2 ^ 8 := Nat.pow_le_pow_right (by omega) (by omega)
    rw [encodeLoop, packed]
    split
    · simp only [ofLeBytes, UInt8.toNat_ofNat', length_cons, length_nil]
      omega
    · next none =>
      obtain rfl : used = 0 := by omega
      simp only [ofLeBytes, length_nil]
      omega
  | cons v rest ih =>
    intro bits used fit few small
    obtain ⟨fitV, fitRest⟩ := forall_mem_cons.mp fit
    obtain ⟨joined, bound⟩ := or_shifted small fitV (show used + width ≤ 64 by omega)
    obtain ⟨octets, bits', used', drained, left, bounded, length, value⟩ := drain_spec _ _ bound
    obtain ⟨sum, room⟩ := ih fitRest left bounded
    have power : 2 ^ used * 2 ^ width = 256 ^ octets.length * 2 ^ used' := by
      rw [← pow_add, ← length, pow_add, pow_mul]
      rfl
    rw [encodeLoop, joined, drained]
    dsimp only
    refine ⟨?_, ?_⟩
    · rw [ofLeBytes_append_eq, sum, packed, Nat.mul_add, ← Nat.add_assoc, value, Nat.mul_add,
        ← Nat.mul_assoc, ← Nat.mul_assoc, power, Nat.add_assoc]
    · rw [length_append, length_cons, Nat.mul_succ]
      omega

theorem fill_spec (fits : width < 64) (payload : Bytes) :
    ∀ bits avail : Nat, ∃ bits' avail' payload',
      fill width bits avail payload = some (bits', avail', payload') ∧ (width ≤ 32 →
        bits < 2 ^ avail → bits' < 2 ^ avail' ∧
          bits' + 2 ^ avail' * ofLeBytes payload' = bits + 2 ^ avail * ofLeBytes payload ∧
          avail' + 8 * payload'.length = avail + 8 * payload.length ∧
          (width ≤ avail' ∨ payload' = [])) := by
  induction payload with
  | nil =>
    intro bits avail
    exact ⟨bits, avail, [], rfl, fun _ small => ⟨small, rfl, rfl, .inr rfl⟩⟩
  | cons octet rest ih =>
    intro bits avail
    rw [fill]
    split
    · next more =>
      rw [if_neg (by omega)]
      obtain ⟨bits', avail', payload', filled, spec⟩ :=
        ih (bits ||| (octet.toNat <<< avail) % 2 ^ 64) (avail + 8)
      refine ⟨bits', avail', payload', filled, fun narrow small => ?_⟩
      obtain ⟨joined, bound⟩ := or_shifted small octet.toNat_lt (show avail + 8 ≤ 64 by omega)
      rw [joined] at spec
      obtain ⟨small', value, length, done⟩ := spec narrow bound
      refine ⟨small', ?_, by rw [length, length_cons]; omega, done⟩
      rw [value, ofLeBytes, pow_add]
      ring
    · next enough =>
      exact ⟨bits, avail, octet :: rest, rfl, fun _ small => ⟨small, rfl, rfl, .inl (by omega)⟩⟩

theorem decodeLoop_isSome (fits : width < 64) (mask n : Nat) :
    ∀ bits avail payload, (decodeLoop width mask n bits avail payload).isSome := by
  induction n with
  | zero => exact fun _ _ _ => rfl
  | succ n ih =>
    intro bits avail payload
    obtain ⟨bits', avail', payload', filled, -⟩ := fill_spec fits payload bits avail
    rw [decodeLoop, filled, Option.bind_some, if_neg (by omega), Option.isSome_map]
    exact ih _ _ _

theorem decodeLoop_packed (fits : width ≤ 32) (values : List UInt32) :
    ∀ (bits avail : Nat) (payload : Bytes), (∀ v ∈ values, v.toNat < 2 ^ width) → bits < 2 ^ avail →
      bits + 2 ^ avail * ofLeBytes payload = packed width values →
      width * values.length ≤ avail + 8 * payload.length →
      decodeLoop width (2 ^ width - 1) values.length bits avail payload = some values := by
  induction values with
  | nil => exact fun _ _ _ _ _ _ _ => rfl
  | cons v rest ih =>
    intro bits avail payload fit small value room
    obtain ⟨fitV, fitRest⟩ := forall_mem_cons.mp fit
    obtain ⟨bits', avail', payload', filled, spec⟩ :=
      fill_spec (show width < 64 by omega) payload bits avail
    obtain ⟨small', same, length, done⟩ := spec fits small
    rw [length_cons, Nat.mul_succ] at room
    have enough : width ≤ avail' := by
      rcases done with enough | rfl
      · exact enough
      · rw [length_nil] at length
        omega
    have split : 2 ^ avail' = 2 ^ width * 2 ^ (avail' - width) := by
      rw [← pow_add, Nat.add_sub_cancel' enough]
    rw [packed, ← same, split, Nat.mul_assoc] at value
    have positive : 0 < 2 ^ width := Nat.two_pow_pos width
    have first : bits' % 2 ^ width = v.toNat := by
      have := congrArg (· % 2 ^ width) value
      simpa [Nat.mod_eq_of_lt fitV] using this
    have later : bits' / 2 ^ width + 2 ^ (avail' - width) * ofLeBytes payload' = packed width rest := by
      have := congrArg (· / 2 ^ width) value
      simpa [Nat.add_mul_div_left _ _ positive, Nat.div_eq_of_lt fitV] using this
    rw [length_cons, decodeLoop, filled, Option.bind_some, if_neg (by omega),
      Nat.shiftRight_eq_div_pow, Nat.and_two_pow_sub_one_eq_mod, first, UInt32.ofNat_toNat,
      ih _ _ _ fitRest ?_ later ?_]
    · rfl
    · rw [split] at small'
      exact Nat.div_lt_of_lt_mul small'
    · omega

/-- Packed values are unpacked again. -/
theorem bitpack_round_trip (values : List UInt32) (few : values.length < 2 ^ 32) :
    bitpackDecode (bitpackEncode values) = some values := by
  rw [bitpackEncode]
  split
  · next empty => rw [empty, bitpackDecode]; nofun
  · extract_lets maxVal width
    have below : ∀ v ∈ values, v.toNat ≤ maxVal := fun v inside =>
      le_max?_getD_of_mem (mem_map_of_mem inside)
    have fits : width ≤ 32 := by
      have word : maxVal < 2 ^ 32 := by
        unfold maxVal
        cases most : (values.map UInt32.toNat).max? with
        | none => exact Nat.two_pow_pos 32
        | some m =>
          obtain ⟨v, -, rfl⟩ := mem_map.mp (max?_mem most)
          exact v.toNat_lt
      unfold width
      split
      · omega
      · next positive => exact (Nat.log2_lt positive).mpr word
    have fit : ∀ v ∈ values, v.toNat < 2 ^ width := by
      intro v inside
      refine (below v inside).trans_lt ?_
      unfold width
      split
      · omega
      · exact Nat.lt_log2_self
    obtain ⟨value, room⟩ := encodeLoop_spec fits values fit (show 0 < 8 by omega)
      (show 0 < 2 ^ 0 by omega)
    have unpacked := decodeLoop_packed fits values 0 0 (encodeLoop width 0 0 values) fit (by omega)
      (by omega) (by omega)
    have octet : (UInt8.ofNat width).toNat = width := by
      rw [UInt8.toNat_ofNat']
      omega
    have count : ofLeBytes (leBytes 4 values.length) = values.length := ofLeBytes_leBytes_of_lt few
    simp only [leBytes] at count
    simp only [leBytes, cons_append, nil_append, bitpackDecode, octet, count]
    split
    · next same => rw [← same, unpacked]
    · rw [if_neg (by omega), unpacked]

theorem bitpack_round_trip_mixed :
    bitpackDecode (bitpackEncode [0, 4294967295, 7]) = some [0, 4294967295, 7] :=
  bitpack_round_trip [0, 4294967295, 7] (by decide)

def wordAt (data : Bytes) (i : Nat) : Int :=
  (BitVec.ofNat 64 (ofLeBytes ((data.drop (8 * i)).take 8))).toInt

def InI64 (n : Int) : Prop := -2 ^ 63 ≤ n ∧ n < 2 ^ 63

instance (n : Int) : Decidable (InI64 n) := inferInstanceAs (Decidable (_ ∧ _))

def deltaLoop (data : Bytes) : Nat → Option (Int × List Int)
  | 0 => if 8 ≤ data.length then some (wordAt data 0, [wordAt data 0]) else none
  | i + 1 => (deltaLoop data i).bind fun (prev, result) =>
    if 8 * (i + 2) ≤ data.length ∧ InI64 (prev + wordAt data (i + 1)) then
      some (prev + wordAt data (i + 1), result ++ [prev + wordAt data (i + 1)])
    else none

def deltaDecode (data : Bytes) : Option (List Int) :=
  if data = [] then some [] else (deltaLoop data (data.length / 8 - 1)).map Prod.snd

/-- What `delta_decode` has after each delta, if nothing overflows. -/
def runningSum (data : Bytes) : Nat → Int
  | 0 => wordAt data 0
  | i + 1 => runningSum data i + wordAt data (i + 1)

variable (data : Bytes)

theorem deltaLoop_spec (k : Nat) (long : 8 * (k + 1) ≤ data.length) :
    (∀ p, deltaLoop data k = some p → p.1 = runningSum data k) ∧
      ((deltaLoop data k).isSome ↔ ∀ i ≤ k, InI64 (runningSum data i)) := by
  induction k with
  | zero =>
    rw [deltaLoop, if_pos (by omega)]
    refine ⟨fun p same => by cases same; rfl, fun _ i low => ?_, fun _ => rfl⟩
    obtain rfl := Nat.le_zero.mp low
    exact ⟨BitVec.le_toInt _, BitVec.toInt_lt⟩
  | succ k ih =>
    obtain ⟨value, total⟩ := ih (by omega)
    rw [deltaLoop]
    cases before : deltaLoop data k with
    | none =>
      refine ⟨nofun, nofun, fun all => ?_⟩
      rw [before] at total
      exact absurd (total.mpr fun i low => all i (by omega)) nofun
    | some p =>
      obtain ⟨prev, result⟩ := p
      obtain rfl : prev = runningSum data k := value _ before
      rw [before] at total
      have known := total.mp rfl
      rw [Option.bind_some]
      dsimp only
      constructor
      · intro q found
        split at found
        · cases found
          rfl
        · cases found
      · constructor
        · intro found i low
          split at found
          · next fits =>
            rcases Nat.lt_or_ge k i with last | early
            · obtain rfl : i = k + 1 := by omega
              exact fits.2
            · exact known i early
          · cases found
        · intro all
          rw [if_pos ⟨long, all (k + 1) (Nat.le_refl _)⟩]
          rfl

theorem deltaDecode_isSome_iff : (deltaDecode data).isSome ↔ data = [] ∨
    8 ≤ data.length ∧ ∀ i < data.length / 8, InI64 (runningSum data i) := by
  rw [deltaDecode]
  split
  · next empty => exact iff_of_true rfl (.inl empty)
  · next some =>
    rw [Option.isSome_map]
    by_cases long : 8 ≤ data.length
    · have spec := (deltaLoop_spec data (data.length / 8 - 1) (by omega)).2
      rw [spec]
      constructor
      · exact fun all => .inr ⟨long, fun i low => all i (by omega)⟩
      · rintro (empty | ⟨-, all⟩) i low
        · exact absurd empty some
        · exact all i (by omega)
    · have early : data.length / 8 - 1 = 0 := by omega
      rw [early, deltaLoop, if_neg long]
      exact iff_of_false nofun fun either => either.elim some fun both => long both.1

def plainEncode (values : List Bytes) : Bytes :=
  leBytes 4 values.length ++ values.flatMap lengthPrefixed

def plainLoop : Nat → Bytes → Option (List Bytes)
  | 0, _ => some []
  | n + 1, data =>
    if data.length < 4 then some []
    else (readLe 4 data).bind fun length =>
      if length.2.length < length.1 then some []
      else (readExact length.1 length.2).bind fun entry => (plainLoop n entry.2).map (entry.1 :: ·)

def plainDecode (data : Bytes) : Option (List Bytes) :=
  if data.length < 4 then some [] else (readLe 4 data).bind fun n => plainLoop n.1 n.2

theorem readExact_isSome {n : Nat} {data : Bytes} (long : n ≤ data.length) :
    ∃ read, readExact n data = some read :=
  ⟨_, if_pos long⟩

theorem plainLoop_eq_readMany (n : Nat) :
    ∀ data, plainLoop n data = some (entryReader.readMany n data) := by
  induction n with
  | zero => exact fun _ => rfl
  | succ n ih =>
    intro data
    rw [plainLoop, FrameReader.readMany, show entryReader.read data = readEntry data from rfl,
      readEntry]
    split
    · next short => rw [readLe, readExact, if_neg (by omega)]; rfl
    · next long =>
      obtain ⟨read, found⟩ := readExact_isSome (show 4 ≤ data.length by omega)
      rw [readLe, found, Option.map_some, Option.bind_some, Option.bind_some]
      split
      · next torn => rw [readExact, if_neg (by omega)]
      · next inside =>
        obtain ⟨entry, here⟩ := readExact_isSome (Nat.le_of_not_lt inside)
        rw [here, Option.bind_some, ih]
        rfl

theorem plainDecode_isSome : (plainDecode data).isSome := by
  rw [plainDecode]
  split
  · rfl
  · next long =>
    obtain ⟨read, found⟩ := readExact_isSome (show 4 ≤ data.length by omega)
    rw [readLe, found, Option.map_some, Option.bind_some, plainLoop_eq_readMany]
    rfl

/-- A page cut off anywhere gives the values it holds whole. -/
theorem plainDecode_take (values : List Bytes) (few : values.length < 256 ^ 4)
    (short : ∀ v ∈ values, v.length < 256 ^ 4) (cut : Nat) : ∃ kept,
      plainDecode ((plainEncode values).take cut) = some kept ∧
        FrameReader.LongestWithin lengthPrefixed (cut - 4) values kept := by
  have frames := entryReader.readAll_take (fun entry small rest =>
    (readEntry_eq_some_iff _ entry rest).mpr ⟨rfl, small⟩) short (cut - 4)
  refine ⟨_, ?_, frames⟩
  rw [plainEncode, take_append, length_leBytes]
  by_cases long : 4 ≤ cut
  · rw [take_of_length_le (by simpa using long), plainDecode, if_neg (by simp),
      (readLe_eq_some_iff 4 _ values.length _).mpr ⟨rfl, few⟩, Option.bind_some,
      plainLoop_eq_readMany, FrameReader.readMany_eq_take]
    exact congrArg some (take_of_length_le frames.isPrefix.length_le)
  · rw [plainDecode, if_pos (by simp; omega), show cut - 4 = 0 by omega]
    rfl

theorem plainDecode_cut_page : ∃ kept,
    plainDecode ((plainEncode [[7], [8, 9]]).take 13) = some kept ∧
      FrameReader.LongestWithin lengthPrefixed 9 [[7], [8, 9]] kept :=
  plainDecode_take [[7], [8, 9]] (by decide) (by decide) 13

theorem bitpackDecode_isSome_iff :
    (bitpackDecode data).isSome ↔ data.length < 5 ∨ data.headD 0 < 64 := by
  unfold bitpackDecode
  split
  · next octet b0 b1 b2 b3 payload =>
    have long : ¬(octet :: b0 :: b1 :: b2 :: b3 :: payload).length < 5 := by
      simp only [length_cons]
      omega
    rw [or_iff_right long, headD_cons, UInt8.lt_iff_toNat_lt]
    extract_lets width n
    split
    · next same => exact iff_of_true (decodeLoop_isSome (by omega) _ _ _ _ _) (show width < 64 by omega)
    · split
      · next large => exact iff_of_false nofun (Nat.not_lt.mpr large)
      · next small =>
        exact iff_of_true (decodeLoop_isSome (by omega) _ _ _ _ _) (Nat.lt_of_not_le small)
  · next other =>
    refine iff_of_true rfl (.inl ?_)
    match data with
    | [] | [_] | [_, _] | [_, _, _] | [_, _, _, _] => simp
    | octet :: b0 :: b1 :: b2 :: b3 :: payload => exact absurd rfl (other octet b0 b1 b2 b3 payload)

theorem DictDecoder.decode_isSome_iff :
    (decode dictBytes codesBytes).isSome ↔
      ∃ entries codes, DictFormat dictBytes codesBytes entries codes := by
  rw [Option.isSome_iff_exists]
  constructor
  · rintro ⟨values, decoded⟩
    obtain ⟨entries, codes, format, -⟩ := (decode_eq_some_iff _ _ values).mp decoded
    exact ⟨entries, codes, format⟩
  · rintro ⟨entries, codes, format⟩
    obtain ⟨values, read, -⟩ := Granules.exists_mapM codes (f := fun code => entries[code]?)
      (P := fun _ _ => True) fun code inside =>
        ⟨_, getElem?_eq_getElem (format.codes_lt.2 code inside), trivial⟩
    exact ⟨values, (decode_eq_some_iff _ _ values).mpr
      ⟨entries, codes, format, Granules.mapM_eq_some_iff.mp read⟩⟩

/-- Which octets each decoder takes. -/
theorem decoders_return_iff (data dictBytes codesBytes : Bytes) :
    (plainDecode data).isSome ∧
      ((bitpackDecode data).isSome ↔ data.length < 5 ∨ data.headD 0 < 64) ∧
      ((deltaDecode data).isSome ↔ data = [] ∨
        8 ≤ data.length ∧ ∀ i < data.length / 8, InI64 (runningSum data i)) ∧
      ((DictDecoder.decode dictBytes codesBytes).isSome ↔
        ∃ entries codes, DictFormat dictBytes codesBytes entries codes) :=
  ⟨plainDecode_isSome data, bitpackDecode_isSome_iff data, deltaDecode_isSome_iff data,
    DictDecoder.decode_isSome_iff dictBytes codesBytes⟩

theorem decoders_panic : DictDecoder.decode [] [] = none ∧ deltaDecode [1] = none ∧
    bitpackDecode [64, 0, 0, 0, 0] = none ∧
    DictDecoder.decode [0, 0, 0, 0] [1, 0, 0, 0, 0, 0, 0, 0] = none := by decide

end WowDb.Storage
