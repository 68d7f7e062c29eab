import WowDb.Lib.Int64

/-!
# Text in byte strings

UTF-8 encoding and decoding are those of the core library, on lists.
-/
namespace WowDb.Lib.Text
open List

def encode (text : List Char) : Bytes := text.flatMap String.utf8EncodeChar

def decode (bs : Bytes) : Option (List Char) := (bs.toByteArray.utf8Decode?).map Array.toList

theorem decode_encode (text : List Char) : decode (encode text) = some text := by
  have h := utf8Decode?_utf8Encode (l := text)
  unfold utf8Encode at h
  simp [decode, encode, h]

variable {text : List Char}

theorem encode_of_decode {bs : Bytes} (decoded : decode bs = some text) : encode text = bs := by
  obtain ⟨chars, found, rfl⟩ := Option.map_eq_some_iff.mp decoded
  have valid : bs.toByteArray.utf8Decode?.isSome = true := by rw [found]; rfl
  have whole := ByteArray.utf8Encode_get_utf8Decode? (h := valid)
  simp only [found, Option.get_some] at whole
  unfold utf8Encode at whole
  simpa [encode] using congrArg (fun b : ByteArray => b.data.toList) whole

@[simp] theorem encode_nil : encode [] = [] := rfl

@[simp] theorem encode_cons (c : Char) (text : List Char) :
    encode (c :: text) = String.utf8EncodeChar c ++ encode text := rfl

@[simp] theorem encode_append (a b : List Char) : encode (a ++ b) = encode a ++ encode b := by
  simp [encode]

variable {c : Char}

variable {b : UInt8}

theorem ascii_of_mem_encodeChar (hmem : b ∈ String.utf8EncodeChar c)
    (hb : b.toNat < 128) : c.toNat = b.toNat := by
  unfold String.utf8EncodeChar at hmem
  dsimp only at hmem
  split at hmem
  · rename_i hv
    simp only [mem_singleton] at hmem
    subst hmem
    rw [UInt8.toNat_ofNat', Nat.mod_eq_of_lt (by omega)]
    rfl
  · split at hmem
    · simp only [mem_cons, not_mem_nil, or_false] at hmem
      rcases hmem with rfl | rfl <;> rw [UInt8.toNat_ofNat'] at hb <;> omega
    · split at hmem
      · simp only [mem_cons, not_mem_nil, or_false] at hmem
        rcases hmem with rfl | rfl | rfl <;> rw [UInt8.toNat_ofNat'] at hb <;> omega
      · simp only [mem_cons, not_mem_nil, or_false] at hmem
        rcases hmem with rfl | rfl | rfl | rfl <;> rw [UInt8.toNat_ofNat'] at hb <;> omega

theorem head_of_ascii {bs : Bytes} (decoded : decode (b :: bs) = some text)
    (ascii : b.toNat < 128) : ∃ c rest, text = c :: rest ∧ c.toNat = b.toNat := by
  have encoded := encode_of_decode decoded
  cases text with
  | nil => cases encoded
  | cons c rest =>
    refine ⟨c, rest, rfl, ascii_of_mem_encodeChar ?_ ascii⟩
    cases octets : String.utf8EncodeChar c with
    | nil =>
      have size := String.length_utf8EncodeChar c
      rw [octets] at size
      exact absurd size.symm (Nat.ne_of_gt (Char.utf8Size_pos c))
    | cons first more =>
      rw [encode_cons, octets, cons_append] at encoded
      rw [(cons.inj encoded).1]
      exact mem_cons_self

theorem exists_char_of_ascii_mem (hmem : b ∈ encode text) (hb : b.toNat < 128) :
    ∃ c ∈ text, c.toNat = b.toNat := by
  obtain ⟨c, hc, hbc⟩ := mem_flatMap.mp hmem
  exact ⟨c, hc, ascii_of_mem_encodeChar hbc hb⟩

theorem prefix_of_encode {front : List Char} {rest : Bytes}
    (split : encode text = encode front ++ rest) : front <+: text := by
  induction front generalizing text with
  | nil => exact List.nil_prefix
  | cons c front ih =>
    have first : ∀ (d : Char) (bs : Bytes),
        (String.utf8EncodeChar d ++ bs).toByteArray.utf8DecodeChar? 0 = some d := by
      intro d bs
      rw [toByteArray_append]
      exact ByteArray.utf8DecodeChar?_utf8EncodeChar_append
    cases text with
    | nil =>
      have size := congrArg length split
      have positive := Char.utf8Size_pos c
      simp only [encode_nil, encode_cons, length_nil, length_append,
        String.length_utf8EncodeChar] at size
      omega
    | cons d text =>
      rw [encode_cons, encode_cons, append_assoc] at split
      have read := first d (encode text)
      rw [split, first] at read
      cases read
      exact cons_prefix_cons.mpr ⟨rfl, ih (append_cancel_left split)⟩

/-- `BufRead::lines` on octets. -/
def lines : Bytes → List Bytes
  | [] => []
  | b :: rest =>
    if b = 10 then [] :: lines rest
    else
      match lines rest with
      | [] => [[b]]
      | line :: more => (b :: line) :: more

theorem lines_append_newline {line : Bytes} (h : (10 : UInt8) ∉ line) (rest : Bytes) :
    lines (line ++ 10 :: rest) = line :: lines rest := by
  induction line with
  | nil => simp [lines]
  | cons b line ih =>
    have hb : b ≠ 10 := fun he => h (by simp [he])
    have htail := ih (fun hm => h (mem_cons_of_mem b hm))
    simp [lines, hb, htail]

theorem lines_of_notMem {line : Bytes} (h : (10 : UInt8) ∉ line) (nonempty : line ≠ []) :
    lines line = [line] := by
  induction line with
  | nil => exact absurd rfl nonempty
  | cons b line ih =>
    have hb : b ≠ 10 := fun he => h (by simp [he])
    cases line with
    | nil => simp [lines, hb]
    | cons c more =>
      have htail := ih (fun hm => h (mem_cons_of_mem b hm)) (cons_ne_nil c more)
      rw [lines, if_neg hb, htail]

def isWhitespace (c : Char) : Bool :=
  let n := c.toNat
  (9 ≤ n && n ≤ 13) || n = 32 || n = 0x85 || n = 0xa0 || n = 0x1680 ||
    (0x2000 ≤ n && n ≤ 0x200a) || n = 0x2028 || n = 0x2029 || n = 0x202f || n = 0x205f ||
    n = 0x3000

def trimStart (text : List Char) : List Char := text.dropWhile isWhitespace

def trimEnd (text : List Char) : List Char := (text.reverse.dropWhile isWhitespace).reverse

def trim (text : List Char) : List Char := trimEnd (trimStart text)

theorem trim_of_ends {first last : Char} {body : List Char} (hf : isWhitespace first = false)
    (hl : isWhitespace last = false) :
    trim (first :: (body ++ [last])) = first :: (body ++ [last]) := by
  simp [trim, trimStart, trimEnd, hf, hl]

theorem length_encode_le (text : List Char) : (encode text).length ≤ 4 * text.length := by
  induction text with
  | nil => simp
  | cons c rest ih =>
    have size : (String.utf8EncodeChar c).length ≤ 4 := by
      rw [String.length_utf8EncodeChar]
      exact Char.utf8Size_le_four c
    rw [encode_cons, length_append, length_cons]
    omega

def words (text : List Char) : List (List Char) :=
  (text.splitOnP isWhitespace).filter fun word => !word.isEmpty

def isAsciiWhitespace (c : Char) : Bool :=
  c = ' ' || c = '\t' || c = '\n' || c = '\x0c' || c = '\r'

def firstAsciiWord (text : List Char) : List Char :=
  (text.dropWhile isAsciiWhitespace).takeWhile fun c => !isAsciiWhitespace c

def trimEndMatches (c : Char) (text : List Char) : List Char :=
  (text.reverse.dropWhile (· = c)).reverse

def trimMatches (c : Char) (text : List Char) : List Char :=
  trimEndMatches c (text.dropWhile (· = c))

def find? (pattern : List Char) : List Char → Option Nat
  | [] => if pattern.isEmpty then some 0 else none
  | c :: text =>
    if pattern.isPrefixOf (c :: text) then some 0 else (find? pattern text).map (· + 1)

def contains (text pattern : List Char) : Bool := (find? pattern text).isSome

variable {pattern : List Char}

theorem find?_cons (c : Char) (text : List Char) : find? pattern (c :: text) =
      if pattern <+: c :: text then .some 0 else (find? pattern text).map (· + 1) := by
  simp only [find?, isPrefixOf_iff_prefix]

theorem trimEnd_prefix (text : List Char) : trimEnd text <+: text := by
  have dropped := dropWhile_suffix isWhitespace (l := text.reverse)
  rw [← reverse_prefix, reverse_reverse] at dropped
  exact dropped

theorem trim_front {rest : List Char} (solid : isWhitespace c = false) :
    trim (c :: rest) <+: c :: rest ∧ trim (c :: rest) ≠ [] := by
  have start : trim (c :: rest) = trimEnd (c :: rest) := by
    rw [trim, trimStart, dropWhile_cons_of_neg (by simp [solid])]
  rw [start]
  refine ⟨ trimEnd_prefix _, fun none => ?_⟩
  have blank := dropWhile_eq_nil_iff.mp (reverse_eq_nil_iff.mp none)
  have bad := blank c (by simp)
  rw [solid] at bad
  cases bad

theorem isWhitespace_of_trim {rest : List Char} (trimmed : trim text = c :: rest) :
    isWhitespace c = false := by
  obtain ⟨tail, whole⟩ := trimEnd_prefix (trimStart text)
  rw [show trimEnd (trimStart text) = c :: rest from trimmed, cons_append] at whole
  have first := head?_dropWhile_not isWhitespace text
  rw [show text.dropWhile isWhitespace = c :: (rest ++ tail) from whole.symm] at first
  simpa using first

theorem trimStart_append {blanks : List Char} (blank : ∀ c ∈ blanks, isWhitespace c = true)
    (text : List Char) : trimStart (blanks ++ text) = trimStart text := by
  induction blanks with
  | nil => rfl
  | cons c blanks ih =>
    rw [cons_append, trimStart, dropWhile_cons_of_pos (blank c mem_cons_self)]
    exact ih fun d member => blank d (mem_cons_of_mem _ member)

theorem trimStart_of_solid {word : List Char} (solid : ∀ c ∈ word, isWhitespace c = false)
    (some : word ≠ []) (rest : List Char) : trimStart (word ++ rest) = word ++ rest := by
  cases word with
  | nil => exact absurd rfl some
  | cons c word =>
    rw [cons_append, trimStart, dropWhile_cons_of_neg (by simp [solid c mem_cons_self])]

theorem prefix_trimEnd {word : List Char} (solid : ∀ c ∈ word, isWhitespace c = false)
    (rest : List Char) : word <+: trimEnd (word ++ rest) := by
  have whole : word.reverse.dropWhile isWhitespace = word.reverse := by
    cases turned : word.reverse with
    | nil => rfl
    | cons c cs =>
      have member : c ∈ word := mem_reverse.mp (turned ▸ mem_cons_self)
      rw [dropWhile_cons_of_neg (by simp [solid c member])]
  rw [trimEnd, ← reverse_suffix, reverse_reverse, reverse_append,
    dropWhile_append]
  split
  · exact ⟨[], whole.symm⟩
  · exact suffix_append _ _

def joinPath (dir rel : String) : String :=
  if dir.toList.getLast?.all (· = '/') then dir ++ rel else dir ++ "/" ++ rel

def pad10 (n : Nat) : String :=
  let digits := Nat.toDigits 10 n
  String.ofList (List.replicate (10 - digits.length) '0' ++ digits)

def splitOctets : Nat → List Char → Option (List Char × List Char)
  | 0, text => some ([], text)
  | _ + 1, [] => none
  | n + 1, c :: text =>
    if c.utf8Size ≤ n + 1 then
      (splitOctets (n + 1 - c.utf8Size) text).map fun (front, back) => (c :: front, back)
    else none

variable {n : Nat}

def parseU64 (text : List Char) : Option Nat :=
  let digits := match text with
    | '+' :: rest => rest
    | _ => text
  if digits.isEmpty || !digits.all Char.isDigit then none
  else (some (Nat.ofDigitChars 10 digits 0)).filter (· < 2 ^ 64)

def parseDigits (digits : List Char) : Option Nat :=
  if digits.isEmpty || !digits.all Char.isDigit then none
  else some (Nat.ofDigitChars 10 digits 0)

def parseI64 (text : List Char) : Option Int64 :=
  match text with
  | '-' :: digits => ((parseDigits digits).filter (· ≤ 2 ^ 63)).map fun n : Nat => Int64.ofInt (-n)
  | '+' :: digits => ((parseDigits digits).filter (· < 2 ^ 63)).map fun n : Nat => Int64.ofInt n
  | digits => ((parseDigits digits).filter (· < 2 ^ 63)).map fun n : Nat => Int64.ofInt n

def zeroPad (width n : Nat) : List Char :=
  let digits := Nat.toDigits 10 n
  List.replicate (width - digits.length) '0' ++ digits

theorem toList_pad10 (n : Nat) : (pad10 n).toList = zeroPad 10 n := by
  simp [pad10, zeroPad]

def signedPad (width : Nat) (n : Int) : List Char :=
  if n < 0 then '-' :: zeroPad (width - 1) n.natAbs else zeroPad width n.natAbs

theorem ofDigitChars_zeros (zeros : Nat) (cs : List Char) :
    Nat.ofDigitChars 10 (List.replicate zeros '0' ++ cs) 0 = Nat.ofDigitChars 10 cs 0 := by
  induction zeros with
  | zero => rfl
  | succ zeros ih =>
    rw [replicate_succ, cons_append, Nat.ofDigitChars_cons]
    exact ih

variable {width : Nat}

theorem zeroPad_inj {m : Nat} (same : zeroPad width m = zeroPad width n) : m = n := by
  have value := congrArg (fun cs => Nat.ofDigitChars 10 cs 0) same
  simpa only [zeroPad, ofDigitChars_zeros, Nat.ofDigitChars_ten_toDigits] using value

theorem isDigit_of_mem_zeroPad (mem : c ∈ zeroPad width n) : c.isDigit = true := by
  rcases mem_append.mp mem with zero | digit
  · rw [eq_of_mem_replicate zero]
    rfl
  · exact Nat.isDigit_of_mem_toDigits (by decide) (by decide) digit

theorem dropWhile_eq_self {p : Char → Bool} (front : ∀ c ∈ text.head?, p c = false) :
    text.dropWhile p = text := by
  cases text with
  | nil => rfl
  | cons c rest => rw [dropWhile_cons_of_neg (by simp [front c rfl])]

theorem trim_eq_self (front : ∀ c ∈ text.head?, isWhitespace c = false)
    (back : ∀ c ∈ text.getLast?, isWhitespace c = false) : trim text = text := by
  rw [trim, trimStart, dropWhile_eq_self front, trimEnd,
    dropWhile_eq_self (by simpa using back), reverse_reverse]

theorem trimMatches_eq_self (front : text.head? ≠ some c) (back : text.getLast? ≠ some c) :
    trimMatches c text = text := by
  have other : ∀ {o : Option Char}, o ≠ some c → ∀ d ∈ o, decide (d = c) = false := by
    rintro o none d found
    exact decide_eq_false fun same => none (same ▸ found)
  rw [trimMatches, dropWhile_eq_self (other front), trimEndMatches,
    dropWhile_eq_self (other (by simpa using back)), reverse_reverse]

theorem isWhitespace_of_isDigit (digit : c.isDigit = true) : isWhitespace c = false := by
  simp only [Char.isDigit, Bool.and_eq_true, decide_eq_true_eq] at digit
  have low : 48 ≤ c.toNat := digit.1
  have high : c.toNat ≤ 57 := digit.2
  simp only [isWhitespace, Bool.or_eq_false_iff, Bool.and_eq_false_iff, decide_eq_false_iff_not]
  omega

theorem zeroPad_ne_nil (width n : Nat) : zeroPad width n ≠ [] := by
  intro none
  have digits := (append_eq_nil_iff.mp none).2
  exact Nat.toDigits_ne_nil digits

theorem parseDigits_zeroPad (width n : Nat) : parseDigits (zeroPad width n) = some n := by
  have all : (zeroPad width n).all Char.isDigit = true :=
    all_eq_true.mpr fun _ mem => isDigit_of_mem_zeroPad mem
  have some : (zeroPad width n).isEmpty = false := by
    simp [zeroPad_ne_nil]
  rw [parseDigits, all, some]
  simp [zeroPad, ofDigitChars_zeros]

theorem parseI64_zeroPad (width : Nat) (small : n < 2 ^ 63) :
    parseI64 (zeroPad width n) = some (Int64.ofInt n) := by
  obtain ⟨c, rest, chars⟩ := exists_cons_of_ne_nil (zeroPad_ne_nil width n)
  have digit : c.isDigit = true := isDigit_of_mem_zeroPad (chars ▸ mem_cons_self)
  have unsigned : parseI64 (c :: rest) =
      ((parseDigits (c :: rest)).filter (· < 2 ^ 63)).map fun n : Nat => Int64.ofInt n := by
    unfold parseI64
    split
    next same =>
      cases same
      exact absurd digit (by decide)
    next same =>
      cases same
      exact absurd digit (by decide)
    next => rfl
  rw [chars, unsigned, ← chars, parseDigits_zeroPad]
  simpa [Option.filter] using small

theorem minus_cons_ne_zeroPad (cs : List Char) (width n : Nat) : '-' :: cs ≠ zeroPad width n := by
  intro same
  have digit : ('-' : Char).isDigit = true :=
    isDigit_of_mem_zeroPad (same ▸ mem_cons_self)
  exact absurd digit (by decide)

theorem signedPad_inj {m n : Int} (same : signedPad width m = signedPad width n) : m = n := by
  unfold signedPad at same
  split at same <;> split at same
  · have := zeroPad_inj (cons.inj same).2
    omega
  · exact absurd same (minus_cons_ne_zeroPad _ _ _)
  · exact absurd same.symm (minus_cons_ne_zeroPad _ _ _)
  · have := zeroPad_inj same
    omega

theorem notMem_zeroPad (other : c.isDigit = false) : c ∉ zeroPad width n := by
  intro mem
  rw [isDigit_of_mem_zeroPad mem] at other
  cases other

theorem notMem_signedPad {n : Int} (other : c.isDigit = false) (unsigned : c ≠ '-') :
    c ∉ signedPad width n := by
  unfold signedPad
  split
  · exact fun mem => (mem_cons.mp mem).elim unsigned (notMem_zeroPad other)
  · exact notMem_zeroPad other

theorem separated_inj {sep : Char} {x₁ x₂ rest₁ rest₂ : List Char} (free₁ : sep ∉ x₁)
    (free₂ : sep ∉ x₂) (same : x₁ ++ sep :: rest₁ = x₂ ++ sep :: rest₂) :
    x₁ = x₂ ∧ rest₁ = rest₂ := by
  have front {x rest : List Char} (free : sep ∉ x) : (x ++ sep :: rest).takeWhile (· ≠ sep) = x := by
    rw [takeWhile_append_of_pos fun c inside => by simpa using ne_of_mem_of_not_mem inside free]
    simp
  have fronts := congrArg (takeWhile (· ≠ sep)) same
  rw [front free₁, front free₂] at fronts
  subst fronts
  exact ⟨rfl, (cons.inj (append_cancel_left same)).2⟩

end WowDb.Lib.Text
