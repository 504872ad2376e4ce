import FlowRecovery.Proofs.Reading
import Mathlib.Data.Nat.Digits.Lemmas

/-!
# `FlowRecovery.Proofs.Codec`: numbers in memory

A number is read from memory by putting bytes together with shifts, in
the byte order of the image. Nothing is lost or mixed up on the way: the
number is the positional value of the bytes (`ByteOrder.toNat_decode`),
and `ByteOrder.value` and `ByteOrder.encode` undo each other
(`ByteOrder.value_encode`, `ByteOrder.encode_value`).

A number of twice the width is made of two halves that can be read on
their own (`toNat_of_readUInt_halves`). The second half is looked up at
an address of its own, and that it is found in the same segment takes
segments that do not overlap (`read_append`).
-/

set_option autoImplicit false

namespace FlowRecovery

namespace ByteOrder

variable (order : ByteOrder)

/-- Bytes in this order, listed from the lowest up. The same way leads
back. -/
def lowestFirst : ByteOrder → List UInt8 → List UInt8
  | .little, bytes => bytes
  | .big, bytes => bytes.reverse

/-- The number with these bytes as its digits to the base 256. -/
def value (bytes : List UInt8) : Nat :=
  Nat.ofDigits 256 ((order.lowestFirst bytes).map UInt8.toNat)

/-- The `count` lowest digits of a number, from the lowest up. -/
def digits : Nat → Nat → List UInt8
  | 0, _ => []
  | count + 1, n => UInt8.ofNat n :: digits count (n / 256)

/-- The `count` bytes that a number takes up. -/
def encode (count n : Nat) : List UInt8 :=
  order.lowestFirst (digits count n)

/-- The number that two halves of `k` bytes make up, in the order in which
they stand in memory. -/
def join : ByteOrder → Nat → Nat → Nat → Nat
  | .little, k, first, second => first + 2 ^ (8 * k) * second
  | .big, k, first, second => second + 2 ^ (8 * k) * first

/-- No byte is added or dropped. -/
@[simp] theorem length_lowestFirst (bytes : List UInt8) :
    (order.lowestFirst bytes).length = bytes.length := by
  cases order <;> simp [lowestFirst]

/-- Turning the bytes round twice changes nothing. -/
@[simp] theorem lowestFirst_lowestFirst (bytes : List UInt8) :
    order.lowestFirst (order.lowestFirst bytes) = bytes := by
  cases order <;> simp [lowestFirst]

/-- There are as many digits as are asked for. -/
@[simp] theorem length_digits (count n : Nat) : (digits count n).length = count := by
  induction count generalizing n with
  | zero => rfl
  | succ count ih => simp [digits, ih]

/-- A byte is a digit to the base 256. -/
theorem digit_lt (bytes : List UInt8) : ∀ d ∈ bytes.map UInt8.toNat, d < 256 := by
  intro d hd
  obtain ⟨b, -, rfl⟩ := List.mem_map.1 hd
  exact b.toNat_lt

/-- The number is below the bound that the count of its bytes sets. -/
theorem value_lt (bytes : List UInt8) : order.value bytes < 256 ^ bytes.length := by
  have h := Nat.ofDigits_lt_base_pow_length (by decide) (digit_lt (order.lowestFirst bytes))
  rwa [List.length_map, length_lowestFirst] at h

/-- The digits of a number make up the number again, if there are enough of
them. Induction on their count. -/
theorem ofDigits_digits {count n : Nat} (hn : n < 256 ^ count) :
    Nat.ofDigits 256 ((digits count n).map UInt8.toNat) = n := by
  induction count generalizing n with
  | zero =>
    rw [Nat.pow_zero, Nat.lt_one_iff] at hn
    rw [hn]
    rfl
  | succ count ih =>
    -- The lowest digit is the remainder, and the others are those of the quotient.
    have hhigh : n / 256 < 256 ^ count := Nat.div_lt_of_lt_mul (Nat.pow_succ' ▸ hn)
    rw [digits, List.map_cons, Nat.ofDigits_cons, ih hhigh, UInt8.toNat_ofNat']
    exact Nat.mod_add_div n 256

/-- A number that fits comes back from its bytes. -/
theorem value_encode {count n : Nat} (hn : n < 256 ^ count) :
    order.value (order.encode count n) = n := by
  rw [value, encode, lowestFirst_lowestFirst, ofDigits_digits hn]

/-- Different bytes of the same count make different numbers. -/
theorem value_inj {bytes bytes' : List UInt8} (hlength : bytes.length = bytes'.length)
    (h : order.value bytes = order.value bytes') : bytes = bytes' := by
  have hdigits := Nat.ofDigits_inj_of_len_eq (by decide) (by simpa) (digit_lt _) (digit_lt _) h
  have hlowest : order.lowestFirst bytes = order.lowestFirst bytes' :=
    List.map_injective_iff.2 (fun _ _ => UInt8.toNat_inj.1) hdigits
  rw [← order.lowestFirst_lowestFirst bytes, hlowest, lowestFirst_lowestFirst]

/-- The bytes come back from their number. With the same value and as many
of them, they are the same bytes. -/
theorem encode_value (bytes : List UInt8) :
    order.encode bytes.length (order.value bytes) = bytes :=
  order.value_inj (by simp [encode]) (order.value_encode (order.value_lt bytes))

/-- The number in two halves of memory. In either order, the half with the
higher digits is moved up by the width of the other. -/
theorem value_append {first second : List UInt8} {k : Nat} (hfirst : first.length = k)
    (hsecond : second.length = k) :
    order.value (first ++ second) = order.join k (order.value first) (order.value second) := by
  have hbase : 256 ^ k = 2 ^ (8 * k) := by rw [Nat.pow_mul]
  cases order with
  | little => simp only [value, lowestFirst, join, List.map_append, Nat.ofDigits_append,
      List.length_map, hfirst, hbase]
  | big => simp only [value, lowestFirst, join, List.reverse_append, List.map_append,
      Nat.ofDigits_append, List.length_map, List.length_reverse, hsecond, hbase]

/-- The number with one more byte at the low end. -/
def shiftIn (b : UInt8) (acc : Word) : Word := acc <<< 8 ||| b.toBitVec.setWidth 64

/-- Putting bytes in place one by one, from position `i` on, is shifting
them in from the highest one down. -/
theorem foldl_zipIdx_or (bytes : List UInt8) (acc : Word) (i : Nat) :
    (bytes.zipIdx i).foldl
        (fun acc b => acc ||| (b.1.toBitVec.setWidth 64 : Word) <<< (b.2 * 8)) acc =
      acc ||| bytes.foldr shiftIn 0 <<< (i * 8) := by
  induction bytes generalizing acc i with
  | nil => simp
  | cons b rest ih =>
    -- What is above `b` is moved by eight places more.
    have hplace : (i + 1) * 8 = 8 + i * 8 := by omega
    rw [List.zipIdx_cons, List.foldl_cons, ih, List.foldr_cons, shiftIn, hplace,
      BitVec.shiftLeft_add, BitVec.shiftLeft_or_distrib, BitVec.or_assoc]
    exact congrArg (acc ||| ·) (BitVec.or_comm _ _)

/-- In little-endian order the loop puts each byte in its place, and that
is shifting them in from the highest one down. -/
theorem decode_little_eq (bytes : List UInt8) : little.decode bytes = bytes.foldr shiftIn 0 := by
  rw [decode, foldl_zipIdx_or, Nat.zero_mul, BitVec.shiftLeft_zero]
  exact BitVec.zero_or

/-- Both orders put the same number together, from the highest byte
down. -/
theorem decode_eq (bytes : List UInt8) :
    order.decode bytes = (order.lowestFirst bytes).foldr shiftIn 0 := by
  cases order with
  | little => exact decode_little_eq bytes
  | big =>
    show _ = bytes.reverse.foldr shiftIn 0
    rw [List.foldr_reverse]
    rfl

/-- Shifting in a byte multiplies by 256 and adds it, as long as no bit is
pushed out at the top. -/
theorem toNat_shiftIn {acc : Word} (hacc : acc.toNat < 256 ^ 7) (b : UInt8) :
    (shiftIn b acc).toNat = b.toNat + 256 * acc.toNat := by
  have hbyte : (b.toBitVec.setWidth 64).toNat = b.toNat := by
    rw [BitVec.toNat_setWidth_of_le (by decide)]
    rfl
  have hshift : (acc <<< 8).toNat = acc.toNat <<< 8 := by
    rw [BitVec.toNat_shiftLeft, Nat.shiftLeft_eq, Nat.mod_eq_of_lt (by omega)]
  -- The byte goes where the shift has made room, so `or` adds it.
  rw [shiftIn, BitVec.toNat_or, hbyte, hshift, ← Nat.shiftLeft_add_eq_or_of_lt b.toNat_lt,
    Nat.shiftLeft_eq]
  omega

/-- Up to eight bytes are shifted in without a loss. Induction on the
bytes, from the highest one down. -/
theorem toNat_foldr_shiftIn {bytes : List UInt8} (h : bytes.length ≤ 8) :
    (bytes.foldr shiftIn 0).toNat = Nat.ofDigits 256 (bytes.map UInt8.toNat) := by
  induction bytes with
  | nil => rfl
  | cons b rest ih =>
    have hrest := ih (Nat.le_of_succ_le h)
    -- The bytes above `b` are seven at most, so the shift loses none of them.
    have hfits : (rest.foldr shiftIn 0).toNat < 256 ^ 7 := by
      rw [hrest]
      exact Nat.lt_of_lt_of_le (little.value_lt rest)
        (Nat.pow_le_pow_right (by decide) (Nat.le_of_succ_le_succ h))
    rw [List.foldr_cons, toNat_shiftIn hfits, hrest]
    exact Nat.ofDigits_cons.symm

/-- No more than eight bytes are put together without loss. -/
theorem toNat_decode {bytes : List UInt8} (h : bytes.length ≤ 8) :
    (order.decode bytes).toNat = order.value bytes := by
  rw [decode_eq, toNat_foldr_shiftIn (by rwa [length_lowestFirst]), value]

end ByteOrder

/-- The sizes of an access, as a list. -/
theorem isAccessSize_iff {count : Nat} : isAccessSize count = true ↔ count ∈ [1, 2, 4, 8] := by
  simp [isAccessSize, or_assoc]

namespace Image

variable {img : Image} {addr next : Word} {m n count : Nat} {bytes : List UInt8}

/-- A read that is answered gives as many bytes as it was asked for. -/
theorem length_of_read (h : img.read addr count = .ok bytes) : bytes.length = count := by
  unfold read at h
  split at h
  · split at h
    · cases h
    · cases h
      exact Segment.length_readZeroFilled _ _ _
  · cases h

/-- A read that is answered consists of two neighbouring reads, if these
are answered too. -/
theorem read_append (himg : Apart img.segments) (hnext : next.toNat = addr.toNat + m) (hn : 0 < n)
    {first second : List UInt8} (hread : img.read addr (m + n) = .ok bytes)
    (hfirst : img.read addr m = .ok first) (hsecond : img.read next n = .ok second) :
    bytes = first ++ second := by
  obtain ⟨s, hs, hspans, rfl⟩ := (read_eq_ok_iff himg).1 hread
  obtain ⟨t, ht, htspans, rfl⟩ := (read_eq_ok_iff himg).1 hfirst
  obtain ⟨u, hu, huspans, rfl⟩ := (read_eq_ok_iff himg).1 hsecond
  have hts : t = s := eq_of_covers_clamp himg hs ht hspans.1 htspans.1
  -- The second address is found before the largest one, so it is not past the segment either.
  have hcovers : s.Covers clamp next := by
    obtain ⟨⟨hbase, -⟩, hend⟩ := hspans
    have hlast := huspans.1.2
    simp only [Segment.Covers, clamp] at hend hlast ⊢
    omega
  have hus : u = s := eq_of_covers_clamp himg hs hu hcovers huspans.1
  rw [hts, hus, Segment.window_add wrap hspans.1.1 hnext]

/-- A number is read exactly if the size is one of an access and the bytes
can be read. -/
theorem readUInt_eq_ok_iff {w : Word} :
    img.readUInt addr count = .ok w ↔
      isAccessSize count = true ∧
        ∃ bytes, img.read addr count = .ok bytes ∧ w = img.order.decode bytes := by
  unfold readUInt
  by_cases hcount : isAccessSize count = true
  · rw [if_pos hcount]
    cases img.read addr count with
    | error e => simp [Except.map]
    | ok bytes => simp [Except.map, hcount, eq_comm]
  · rw [if_neg hcount]
    simp [hcount]

/-- The number that is read is the positional value of the bytes. -/
theorem toNat_decode_of_read (hcount : isAccessSize count = true)
    (hread : img.read addr count = .ok bytes) :
    (img.order.decode bytes).toNat = img.order.value bytes := by
  refine img.order.toNat_decode ?_
  rw [length_of_read hread]
  rw [isAccessSize_iff] at hcount
  simp only [List.mem_cons, List.not_mem_nil, or_false] at hcount
  omega

/-- The numbers in two neighbouring halves make up the number in both. -/
theorem toNat_of_readUInt_halves (himg : Apart img.segments) {k : Nat}
    (hnext : next.toNat = addr.toNat + k) {wide first second : Word}
    (hwide : img.readUInt addr (2 * k) = .ok wide) (hfirst : img.readUInt addr k = .ok first)
    (hsecond : img.readUInt next k = .ok second) :
    wide.toNat = img.order.join k first.toNat second.toNat := by
  obtain ⟨hcount, bytes, hread, rfl⟩ := readUInt_eq_ok_iff.1 hwide
  obtain ⟨hk, low, hlow, rfl⟩ := readUInt_eq_ok_iff.1 hfirst
  obtain ⟨-, high, hhigh, rfl⟩ := readUInt_eq_ok_iff.1 hsecond
  -- Zero is not the size of an access.
  have hpos : 0 < k := Nat.pos_of_ne_zero fun hzero => absurd hk (hzero ▸ by decide)
  rw [toNat_decode_of_read hcount hread, toNat_decode_of_read hk hlow,
    toNat_decode_of_read hk hhigh]
  rw [Nat.two_mul] at hread
  rw [read_append himg hnext hpos hread hlow hhigh,
    img.order.value_append (length_of_read hlow) (length_of_read hhigh)]

/-- Numbers are read exactly. The number is the positional value of its
bytes, in the order of the image, and is below the bound that their count
sets. Encoding it again gives the bytes back, and where the encoding of a
number stands that number is read. A number of twice the width is made of
the numbers in its two halves, where `next` is the address `k` bytes on;
a half past the end of the address space has none. -/
theorem readUInt_codec (order : ByteOrder) {segments : List Segment} {ids : List SegmentId}
    (h : addAll { order } segments = .ok (ids, img)) :
    (∀ addr, ∀ count ∈ [1, 2, 4, 8], ∀ bytes, img.read addr count = .ok bytes →
      ∃ w, img.readUInt addr count = .ok w ∧ w.toNat < 256 ^ count ∧
        w.toNat = order.value bytes ∧ order.encode count w.toNat = bytes) ∧
    (∀ addr, ∀ count ∈ [1, 2, 4, 8], ∀ n < 256 ^ count,
      img.read addr count = .ok (order.encode count n) →
        ∃ w, img.readUInt addr count = .ok w ∧ w.toNat = n) ∧
    ∀ (addr next : Word) (k : Nat) (wide first second : Word), next.toNat = addr.toNat + k →
      img.readUInt addr (2 * k) = .ok wide → img.readUInt addr k = .ok first →
        img.readUInt next k = .ok second →
          wide.toNat = order.join k first.toNat second.toNat := by
  obtain ⟨hapart, rfl, rfl⟩ := (addAll_eq_ok_iff List.Pairwise.nil).1 h
  refine ⟨?_, ?_, ?_⟩
  · intro addr count hcount bytes hread
    have hvalue := toNat_decode_of_read (isAccessSize_iff.2 hcount) hread
    refine ⟨_, readUInt_eq_ok_iff.2 ⟨isAccessSize_iff.2 hcount, bytes, hread, rfl⟩, ?_, hvalue, ?_⟩
    · rw [hvalue, ← length_of_read hread]
      exact order.value_lt bytes
    · rw [hvalue, ← length_of_read hread]
      exact order.encode_value bytes
  · intro addr count hcount n hn hread
    refine ⟨_, readUInt_eq_ok_iff.2 ⟨isAccessSize_iff.2 hcount, _, hread, rfl⟩, ?_⟩
    rw [toNat_decode_of_read (isAccessSize_iff.2 hcount) hread]
    exact order.value_encode hn
  · intro addr next k wide first second hnext hwide hfirst hsecond
    exact toNat_of_readUInt_halves hapart hnext hwide hfirst hsecond

/-- Three bytes of data and five more that are zero. -/
def tailSegment : Segment := ⟨0x1000, 8, [0x12, 0x34, 0x56], 4⟩

/-- The zeros begin inside of the second half. -/
theorem readUInt_codec_tail :
    ∃ img, addAll { order := .big } [tailSegment] = .ok ([0], img) ∧
      img.readUInt 0x1000 4 = .ok 0x12345600 ∧
      ByteOrder.big.encode 4 0x12345600 = [0x12, 0x34, 0x56, 0] ∧
      (0x12345600 : Word).toNat =
        ByteOrder.big.join 2 (0x1234 : Word).toNat (0x5600 : Word).toNat := by
  have hadd : addAll { order := .big } [tailSegment] =
      .ok ([0], { order := .big, segments := [tailSegment] }) := rfl
  obtain ⟨hvalue, -, hhalves⟩ := readUInt_codec .big hadd
  have hwide : readUInt { order := .big, segments := [tailSegment] } 0x1000 4 =
      .ok 0x12345600 := rfl
  refine ⟨_, hadd, hwide, ?_, hhalves 0x1000 0x1002 2 _ _ _ rfl hwide rfl rfl⟩
  obtain ⟨w, hw, -, -, hencode⟩ := hvalue 0x1000 4 (by decide) [0x12, 0x34, 0x56, 0] rfl
  cases hwide.symm.trans hw
  exact hencode

end Image

end FlowRecovery
