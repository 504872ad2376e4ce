import FlowRecovery.Proofs.Layout

/-!
# `FlowRecovery.Proofs.Reading`: what a read answers

A read is answered by the segment at its address, if the whole range lies
in that segment. `Image.ReadsWith` says so for any way to compute where
segments and ranges end, and which position of the data a byte comes from.

Ends are computed so that they stop at the largest address (`clamp`), and
positions so that they start over past the address space (`wrap`). With
these every read of an image is described (`readsWith_clamp`). If both are
computed without a bound, the same description holds of every read that
starts before the largest address and ends at or before it
(`readsWith_id_of_lt`), and it can fail at the top of the address space
(`reach_lt_of_readsWith_id`). An address is inside of a segment only if it
lies before the segment's end, so the largest address never is. And a
range that goes on past the address space stops where a segment may end
as well, so it is not seen to cross that end.

The initialised bytes from an address on, which instructions are decoded
from, are a second way to the same bytes. A read finds these bytes and
then zeros (`Segment.window_eq_bytesFrom`), as long as it stays within the
segment and does not go on past the address space. It is refused some of
the initialised bytes only if the segment has been given more data than
it has room for (`Segment.size_lt_of_not_spans`).
-/

set_option autoImplicit false

namespace FlowRecovery

/-- A number past the address space stands for the largest address. -/
def clamp (n : Nat) : Nat := min n 0xffffffffffffffff

/-- A position past the address space starts over at the first one. -/
def wrap (n : Nat) : Nat := n % 0x10000000000000000

namespace Segment

variable {s : Segment} {addr : Word} {len : Nat}

/-- The first number past the segment, which need not be an address. -/
def reach (s : Segment) : Nat := s.base.toNat + s.size.toNat

/-- The address lies in the segment, if ends are computed with `clip`. -/
def Covers (clip : Nat → Nat) (s : Segment) (addr : Word) : Prop :=
  s.base.toNat ≤ addr.toNat ∧ addr.toNat < clip s.reach

/-- All of the `len` bytes from the address on do. -/
def Spans (clip : Nat → Nat) (s : Segment) (addr : Word) (len : Nat) : Prop :=
  s.Covers clip addr ∧ clip (addr.toNat + len) ≤ clip s.reach

/-- What the segment has at the address: data, and zeros past its
data. Positions in the data are computed with `turn`. -/
def window (turn : Nat → Nat) (s : Segment) (addr : Word) (len : Nat) : List UInt8 :=
  (List.range len).map fun i => s.data[turn (addr.toNat - s.base.toNat + i)]?.getD 0

/-! ### Ends that stop at the largest address -/

/-- A segment ends at the largest address at most. -/
theorem toNat_limit (s : Segment) : s.limit.toNat = clamp s.reach :=
  Word.toNat_addSat s.base s.size.toNat

/-- What a segment contains. -/
theorem covers_clamp_iff : s.Covers clamp addr ↔ s.contains addr = true := by
  rw [contains_iff, BitVec.le_def, BitVec.lt_def, toNat_limit]
  rfl

/-- When a range does not leave a segment. -/
theorem spans_clamp_iff :
    s.Spans clamp addr len ↔ s.contains addr = true ∧ ¬s.limit < Word.addSat addr len := by
  rw [Spans, covers_clamp_iff, BitVec.lt_def, toNat_limit, Word.toNat_addSat, Nat.not_lt]
  rfl

/-- Before the largest address it makes no difference where ends
stop. -/
theorem covers_id_iff (haddr : addr.toNat < 0xffffffffffffffff) :
    s.Covers id addr ↔ s.Covers clamp addr := by
  simp only [Covers, clamp, id_eq]
  omega

/-- Nor does it for a range that ends there. -/
theorem spans_id_iff (haddr : addr.toNat < 0xffffffffffffffff)
    (hlen : addr.toNat + len ≤ 0xffffffffffffffff) :
    s.Spans id addr len ↔ s.Spans clamp addr len := by
  refine and_congr (covers_id_iff haddr) ?_
  simp only [clamp, id_eq]
  omega

/-- An empty segment has no address. -/
theorem not_covers_of_size_eq_zero (hsize : s.size = 0) {clip : Nat → Nat}
    (hclip : ∀ n, clip n ≤ n) : ¬s.Covers clip addr := by
  intro ⟨hbase, hreach⟩
  have hempty : s.reach = s.base.toNat := by
    rw [reach, hsize]
    rfl
  have := hclip s.reach
  omega

/-- Nor does it for a segment that ends before the largest address. -/
theorem covers_id_iff_of_reach_lt (h : s.size = 0 ∨ s.reach < 0xffffffffffffffff) :
    s.Covers id addr ↔ s.Covers clamp addr := by
  rcases h with hsize | hlt
  · exact iff_of_false (not_covers_of_size_eq_zero hsize fun _ => Nat.le_refl _)
      (not_covers_of_size_eq_zero hsize fun _ => Nat.min_le_left _ _)
  · simp only [Covers, clamp, id_eq]
    omega

/-- The same for ranges in such a segment. -/
theorem spans_id_iff_of_reach_lt (h : s.size = 0 ∨ s.reach < 0xffffffffffffffff) :
    s.Spans id addr len ↔ s.Spans clamp addr len := by
  rw [Spans, Spans, covers_id_iff_of_reach_lt h]
  refine and_congr_right fun hcovers => ?_
  rcases h with hsize | hlt
  · exact absurd hcovers (not_covers_of_size_eq_zero hsize fun _ => Nat.min_le_left _ _)
  · simp only [clamp, id_eq]
    omega

/-! ### The bytes of a segment -/

/-- Within a segment, offsets do not wrap around. -/
theorem toNat_sub_base (h : s.contains addr = true) :
    (addr - s.base).toNat = addr.toNat - s.base.toNat :=
  BitVec.toNat_sub_of_le ((contains_iff s addr).1 h).1

/-- How many initialised bytes there are from an address on. -/
theorem length_bytesFrom (h : s.contains addr = true) :
    (s.bytesFrom addr).length = s.data.length - (addr.toNat - s.base.toNat) := by
  rw [bytesFrom, List.length_drop, toNat_sub_base h]

/-- The position of a byte, computed with words. -/
theorem toNat_position (h : s.contains addr = true) (i : Nat) :
    (addr - s.base + BitVec.ofNat 64 i).toNat = wrap (addr.toNat - s.base.toNat + i) := by
  rw [BitVec.toNat_add, toNat_sub_base h, BitVec.toNat_ofNat, wrap]
  omega

/-- A read looks up one position after the other. -/
theorem readZeroFilled_eq_window (h : s.contains addr = true) (len : Nat) :
    s.readZeroFilled addr len = s.window wrap addr len := by
  refine List.map_congr_left fun i _ => ?_
  rw [toNat_position h, List.getD_eq_getElem?_getD]

/-- Within the address space positions do not start over. -/
theorem window_wrap_eq (h : addr.toNat - s.base.toNat + len ≤ 0x10000000000000000) :
    s.window wrap addr len = s.window id addr len := by
  refine List.map_congr_left fun i hi => ?_
  have hlt := List.mem_range.1 hi
  rw [wrap, Nat.mod_eq_of_lt (by omega)]
  rfl

/-- The initialised bytes, then zeros. -/
theorem window_eq_bytesFrom (h : s.contains addr = true) (len : Nat) :
    s.window id addr len =
      (s.bytesFrom addr).take len ++ List.replicate (len - (s.bytesFrom addr).length) 0 := by
  -- Both sides are `len` bytes long, and are compared byte by byte.
  have hlength : ((s.bytesFrom addr).take len ++
      List.replicate (len - (s.bytesFrom addr).length) 0).length = len := by
    rw [List.length_append, List.length_take, List.length_replicate]
    omega
  refine List.ext_getElem (by rw [hlength, window, List.length_map, List.length_range]) ?_
  intro i hi _
  rw [window, List.length_map, List.length_range] at hi
  have hbyte : (s.bytesFrom addr)[i]? = s.data[addr.toNat - s.base.toNat + i]? := by
    rw [bytesFrom, List.getElem?_drop, toNat_sub_base h]
  simp only [window, List.getElem_map, List.getElem_range, id_eq, ← hbyte]
  -- Either the byte is initialised, or it is one of the zeros that follow.
  by_cases hlt : i < (s.bytesFrom addr).length
  · rw [List.getElem_append_left (by rw [List.length_take]; omega), List.getElem_take,
      List.getElem?_eq_getElem hlt, Option.getD_some]
  · rw [List.getElem_append_right (by rw [List.length_take]; omega), List.getElem_replicate,
      List.getElem?_eq_none (Nat.le_of_not_lt hlt), Option.getD_none]

/-- A range of initialised bytes leaves the segment only if there is no
room for all of its data. -/
theorem size_lt_of_not_spans (h : s.contains addr = true) (hlen : len ≤ (s.bytesFrom addr).length)
    (hspans : clamp s.reach < clamp (addr.toNat + len)) : s.size.toNat < s.data.length := by
  obtain ⟨hbase, hlt⟩ := covers_clamp_iff.2 h
  rw [length_bytesFrom h] at hlen
  simp only [clamp, reach] at hspans hlt
  omega

/-- The bytes at an address are the first few of them and those behind
these. -/
theorem window_add (turn : Nat → Nat) {next : Word} {m : Nat} (hbase : s.base.toNat ≤ addr.toNat)
    (hnext : next.toNat = addr.toNat + m) (n : Nat) :
    s.window turn addr (m + n) = s.window turn addr m ++ s.window turn next n := by
  have hoffset : ∀ i, addr.toNat - s.base.toNat + (m + i) = next.toNat - s.base.toNat + i := by
    omega
  simp only [window, List.range_add, List.map_append, List.map_map, Function.comp_def, hoffset]

end Segment

namespace Image

variable {img : Image} {s : Segment} {addr : Word} {len : Nat}

/-- A read is answered with the bytes of a segment that has the whole
range, and is refused if there is none. The ends of ranges and segments
are computed with `clip`, and positions in the data with `turn`. -/
structure ReadsWith (clip turn : Nat → Nat) (img : Image) (addr : Word) (len : Nat) : Prop where
  ok_iff : (∃ bytes, img.read addr len = .ok bytes) ↔ ∃ s ∈ img.segments, s.Spans clip addr len
  bytes : ∀ s ∈ img.segments, s.Spans clip addr len →
    img.read addr len = .ok (s.window turn addr len)
  unmapped : (∀ s ∈ img.segments, ¬s.Covers clip addr) →
    img.read addr len = .error (.unmapped addr)
  crosses : (∃ s ∈ img.segments, s.Covers clip addr) →
    (∀ s ∈ img.segments, ¬s.Spans clip addr len) →
      img.read addr len = .error (.crossesSegment addr len)

/-! ### One read -/

/-- The segment at the address answers, or refuses because the range leaves
it. -/
theorem read_of_segmentAt? (h : img.segmentAt? addr = some s) (len : Nat) :
    img.read addr len =
      if s.limit < Word.addSat addr len then .error (.crossesSegment addr len)
      else .ok (s.readZeroFilled addr len) := by
  rw [read, h]

/-- A range within a segment is answered. -/
theorem read_of_spans (himg : Apart img.segments) (hs : s ∈ img.segments)
    (h : s.Spans clamp addr len) : img.read addr len = .ok (s.window wrap addr len) := by
  obtain ⟨hcontains, hlimit⟩ := Segment.spans_clamp_iff.1 h
  rw [read_of_segmentAt? ((segmentAt?_eq_some_iff himg).2 ⟨hs, hcontains⟩), if_neg hlimit,
    Segment.readZeroFilled_eq_window hcontains]

/-- A range that leaves its segment is refused. -/
theorem read_of_covers (himg : Apart img.segments) (hs : s ∈ img.segments)
    (h : s.Covers clamp addr) (hspans : ¬s.Spans clamp addr len) :
    img.read addr len = .error (.crossesSegment addr len) := by
  have hcontains := Segment.covers_clamp_iff.1 h
  rw [Segment.spans_clamp_iff, and_iff_right hcontains, not_not] at hspans
  rw [read_of_segmentAt? ((segmentAt?_eq_some_iff himg).2 ⟨hs, hcontains⟩), if_pos hspans]

/-- An address in no segment is refused. -/
theorem read_of_not_covers (h : ∀ s ∈ img.segments, ¬s.Covers clamp addr) (len : Nat) :
    img.read addr len = .error (.unmapped addr) := by
  have hnone : img.segmentAt? addr = none :=
    List.find?_eq_none.2 fun s hs hcontains => h s hs (Segment.covers_clamp_iff.2 hcontains)
  rw [read, hnone]

/-- No two segments have the same address. -/
theorem eq_of_covers_clamp (himg : Apart img.segments) {t : Segment} (hs : s ∈ img.segments)
    (ht : t ∈ img.segments) (hscovers : s.Covers clamp addr) (htcovers : t.Covers clamp addr) :
    t = s := by
  have hsome := (segmentAt?_eq_some_iff himg).2 ⟨hs, Segment.covers_clamp_iff.1 hscovers⟩
  rw [(segmentAt?_eq_some_iff himg).2 ⟨ht, Segment.covers_clamp_iff.1 htcovers⟩] at hsome
  exact Option.some.inj hsome

/-! ### All reads -/

/-- A way to compute ends and positions describes a read if it leads to
the same segments as `clamp`, and to the same bytes as `wrap`. -/
theorem readsWith_of_iff (himg : Apart img.segments) {clip turn : Nat → Nat}
    (hcovers : ∀ s ∈ img.segments, s.Covers clip addr ↔ s.Covers clamp addr)
    (hspans : ∀ s ∈ img.segments, s.Spans clip addr len ↔ s.Spans clamp addr len)
    (hwindow : ∀ s ∈ img.segments, s.Spans clip addr len →
      s.window turn addr len = s.window wrap addr len) :
    img.ReadsWith clip turn addr len := by
  have hbytes : ∀ s ∈ img.segments, s.Spans clip addr len →
      img.read addr len = .ok (s.window turn addr len) := by
    intro s hs h
    rw [hwindow s hs h]
    exact read_of_spans himg hs ((hspans s hs).1 h)
  have hunmapped : (∀ s ∈ img.segments, ¬s.Covers clip addr) →
      img.read addr len = .error (.unmapped addr) :=
    fun h => read_of_not_covers (fun s hs => (not_congr (hcovers s hs)).1 (h s hs)) len
  have hcrosses : (∃ s ∈ img.segments, s.Covers clip addr) →
      (∀ s ∈ img.segments, ¬s.Spans clip addr len) →
        img.read addr len = .error (.crossesSegment addr len) :=
    fun ⟨s, hs, h⟩ hnone => read_of_covers himg hs ((hcovers s hs).1 h)
      ((not_congr (hspans s hs)).1 (hnone s hs))
  refine ⟨⟨?_, fun ⟨s, hs, h⟩ => ⟨_, hbytes s hs h⟩⟩, hbytes, hunmapped, hcrosses⟩
  rintro ⟨bytes, hread⟩
  -- Without a segment for the whole range the read has one of the two errors.
  by_contra hnone
  have hnone : ∀ s ∈ img.segments, ¬s.Spans clip addr len := fun s hs h => hnone ⟨s, hs, h⟩
  by_cases hsome : ∃ s ∈ img.segments, s.Covers clip addr
  · rw [hcrosses hsome hnone] at hread
    cases hread
  · rw [hunmapped fun s hs h => hsome ⟨s, hs, h⟩] at hread
    cases hread

/-- Every read, computed as the machine does. -/
theorem readsWith_clamp (himg : Apart img.segments) (addr : Word) (len : Nat) :
    img.ReadsWith clamp wrap addr len :=
  readsWith_of_iff himg (fun _ _ => Iff.rfl) (fun _ _ => Iff.rfl) fun _ _ _ => rfl

/-- What can be read, and what is read then. -/
theorem read_eq_ok_iff (himg : Apart img.segments) {bytes : List UInt8} :
    img.read addr len = .ok bytes ↔
      ∃ s ∈ img.segments, s.Spans clamp addr len ∧ bytes = s.window wrap addr len := by
  constructor
  · intro hread
    obtain ⟨s, hs, hspans⟩ := (readsWith_clamp himg addr len).ok_iff.1 ⟨bytes, hread⟩
    rw [read_of_spans himg hs hspans] at hread
    exact ⟨s, hs, hspans, (Except.ok.inj hread).symm⟩
  · rintro ⟨s, hs, hspans, rfl⟩
    exact read_of_spans himg hs hspans

/-- Below the top of the address space reads are exact. -/
theorem readsWith_id_of_lt (himg : Apart img.segments) (haddr : addr.toNat < 0xffffffffffffffff)
    (hlen : addr.toNat + len ≤ 0xffffffffffffffff) : img.ReadsWith id id addr len :=
  readsWith_of_iff himg (fun _ _ => Segment.covers_id_iff haddr)
    (fun _ _ => Segment.spans_id_iff haddr hlen)
    fun _ _ _ => (Segment.window_wrap_eq (by omega)).symm

/-- They are exact everywhere if no segment gets there. -/
theorem readsWith_id_of_reach_lt (himg : Apart img.segments)
    (hreach : ∀ s ∈ img.segments, s.size = 0 ∨ s.reach < 0xffffffffffffffff) (addr : Word)
    (len : Nat) : img.ReadsWith id id addr len := by
  refine readsWith_of_iff himg (fun s hs => Segment.covers_id_iff_of_reach_lt (hreach s hs))
    (fun s hs => Segment.spans_id_iff_of_reach_lt (hreach s hs)) fun s hs hspans => ?_
  refine (Segment.window_wrap_eq ?_).symm
  rcases hreach s hs with hsize | hlt
  · exact absurd hspans.1 (Segment.not_covers_of_size_eq_zero hsize fun _ => Nat.le_refl _)
  · -- The range ends with the segment, so it does not get there either.
    have hend := hspans.2
    simp only [id_eq] at hend
    omega

/-- A segment that does get there is read wrongly: it is denied to have
the largest address, or it answers for bytes that it does not have. -/
theorem reach_lt_of_readsWith_id (himg : Apart img.segments)
    (hexact : ∀ addr len, img.ReadsWith id id addr len) (hs : s ∈ img.segments)
    (hsize : s.size.toNat ≠ 0) : s.reach < 0xffffffffffffffff := by
  by_contra hreach
  have hbase := s.base.isLt
  have hcovers : s.Covers id s.base := ⟨Nat.le_refl _, Nat.lt_add_of_pos_right (by omega)⟩
  by_cases hlt : s.base.toNat < 0xffffffffffffffff
  · -- One byte more than there is.
    have hlong : s.Spans clamp s.base (s.size.toNat + 1) := by
      refine ⟨(Segment.covers_id_iff hlt).1 hcovers, ?_⟩
      simp only [clamp]
      omega
    -- An exact image would have a segment for all of it, and that is this one.
    obtain ⟨t, ht, htcovers, htlen⟩ :=
      (hexact _ _).ok_iff.1 ⟨_, (readsWith_clamp himg _ _).bytes s hs hlong⟩
    have hts : t = s := eq_of_covers_clamp himg hs ht ((Segment.covers_id_iff hlt).1 hcovers)
      ((Segment.covers_id_iff hlt).1 htcovers)
    rw [hts] at htlen
    simp only [Segment.reach, id_eq] at htlen
    omega
  · -- No byte at the largest address.
    have hread : img.read s.base 0 = .error (.unmapped s.base) := by
      refine read_of_not_covers (fun t _ htcovers => hlt ?_) 0
      exact Nat.lt_of_lt_of_le htcovers.2 (Nat.min_le_right _ _)
    rw [(hexact _ 0).bytes s hs ⟨hcovers, Nat.le_of_lt hcovers.2⟩] at hread
    cases hread

/-- Every read of an image is described, if ends stop at the largest
address and positions start over past it. If both are computed without a
bound, the description holds of every read below the top of the address
space, and of all reads exactly if every segment that is not empty ends
below the largest address. -/
theorem addAll_readsWith_id_iff (order : ByteOrder) {segments : List Segment}
    {ids : List SegmentId} (h : addAll { order } segments = .ok (ids, img)) :
    (∀ addr len, img.ReadsWith clamp wrap addr len) ∧
    (∀ (addr : Word) (len : Nat), addr.toNat < 0xffffffffffffffff →
      addr.toNat + len ≤ 0xffffffffffffffff → img.ReadsWith id id addr len) ∧
    ((∀ addr len, img.ReadsWith id id addr len) ↔
      ∀ s ∈ segments, s.size = 0 ∨ s.reach < 0xffffffffffffffff) := by
  obtain ⟨hapart, rfl, rfl⟩ := (addAll_eq_ok_iff List.Pairwise.nil).1 h
  refine ⟨readsWith_clamp hapart, fun _ _ => readsWith_id_of_lt hapart, ?_,
    fun hreach => readsWith_id_of_reach_lt hapart hreach⟩
  intro hexact s hs
  by_cases hsize : s.size = 0
  · exact .inl hsize
  · exact .inr (reach_lt_of_readsWith_id hapart hexact hs fun hzero =>
      hsize (BitVec.eq_of_toNat_eq hzero))

/-- The last sixteen bytes of the address space. -/
def topSegment : Segment := ⟨0xfffffffffffffff0, 0x10, [7], 4⟩

/-- The reads of its first fifteen bytes are exact, and not all reads
are. -/
theorem addAll_readsWith_id_iff_top :
    ∃ img, addAll {} [topSegment] = .ok ([0], img) ∧ img.ReadsWith id id 0xfffffffffffffff0 0xf ∧
      ¬∀ addr len, img.ReadsWith id id addr len := by
  have hadd : addAll {} [topSegment] = .ok ([0], { segments := [topSegment] }) := rfl
  obtain ⟨-, hbelow, hiff⟩ := addAll_readsWith_id_iff .little hadd
  refine ⟨_, hadd, hbelow _ _ (by decide) (by decide), fun hexact => ?_⟩
  exact absurd (hiff.1 hexact topSegment (List.mem_singleton_self _)) (by decide)

/-- The last byte of the address space is not found, and more bytes than
there are can be read. -/
theorem not_readsWith_id_top :
    ∃ img, addAll {} [topSegment] = .ok ([0], img) ∧
      ¬img.ReadsWith id id 0xffffffffffffffff 1 ∧ ¬img.ReadsWith id id 0xfffffffffffffff0 0x11 := by
  have hadd : addAll {} [topSegment] = .ok ([0], { segments := [topSegment] }) := rfl
  refine ⟨_, hadd, fun hexact => ?_, fun hexact => ?_⟩
  · have hspans : topSegment.Spans id 0xffffffffffffffff 1 := by
      simp [Segment.Spans, Segment.Covers, Segment.reach, topSegment]
    have hread := hexact.bytes topSegment (List.mem_singleton_self _) hspans
    cases hread
  · obtain ⟨s, hs, hspans⟩ := hexact.ok_iff.1 ⟨_, rfl⟩
    rw [List.mem_singleton.1 hs] at hspans
    simp [Segment.Spans, Segment.Covers, Segment.reach, topSegment] at hspans

/-! ### Initialised bytes -/

/-- The segment at the address has the initialised bytes. -/
theorem bytesFrom_of_segmentAt? (h : img.segmentAt? addr = some s) :
    img.bytesFrom addr = .ok (s.bytesFrom addr) := by
  rw [bytesFrom, h]

/-- When a read in a segment is refused, and what it answers
otherwise. -/
theorem read_of_segmentAt?_eq (h : img.segmentAt? addr = some s) (len : Nat) :
    img.read addr len =
      if clamp s.reach < clamp (addr.toNat + len) then .error (.crossesSegment addr len)
      else .ok (s.window wrap addr len) := by
  have hlimit : s.limit < Word.addSat addr len ↔ clamp s.reach < clamp (addr.toNat + len) := by
    rw [BitVec.lt_def, Segment.toNat_limit, Word.toNat_addSat]
    rfl
  simp only [read_of_segmentAt? h, hlimit,
    Segment.readZeroFilled_eq_window (contains_of_segmentAt? h)]

/-- The initialised bytes from an address on agree with what is read
there. The same addresses have them, with the same error for the others.

Where a segment contains the address, a read is refused exactly if it
leaves that segment, as far as ends that stop at the largest address tell.
Any other read gives the initialised bytes, or the first of them, and then
zeros up to its length; past the address space it starts over with the
segment's first byte. Some of the initialised bytes are refused only if
the segment has more data than it has room for. -/
theorem bytesFrom_agrees (img : Image) (addr : Word) :
    (∀ e, img.bytesFrom addr = .error e ↔ img.read addr 0 = .error e) ∧
    ∀ bytes, img.bytesFrom addr = .ok bytes →
      ∃ s ∈ img.segments, s.contains addr = true ∧
        (∀ len, img.read addr len = .error (.crossesSegment addr len) ↔
          clamp s.reach < clamp (addr.toNat + len)) ∧
        (∀ len ≤ bytes.length, clamp s.reach < clamp (addr.toNat + len) →
          s.size.toNat < s.data.length) ∧
        (∀ len, clamp (addr.toNat + len) ≤ clamp s.reach →
          addr.toNat - s.base.toNat + len ≤ 0x10000000000000000 →
            img.read addr len =
              .ok (bytes.take len ++ List.replicate (len - bytes.length) 0)) ∧
        ∀ len, clamp (addr.toNat + len) ≤ clamp s.reach →
          0x10000000000000000 < addr.toNat - s.base.toNat + len →
            img.read addr len = .ok (s.window wrap addr len) := by
  cases hat : img.segmentAt? addr with
  | none =>
    have hbytes : img.bytesFrom addr = .error (.unmapped addr) := by rw [bytesFrom, hat]
    have hread : img.read addr 0 = .error (.unmapped addr) := by rw [read, hat]
    rw [hbytes, hread]
    refine ⟨fun _ => Iff.rfl, fun _ h => ?_⟩
    cases h
  | some s =>
    have hcontains := contains_of_segmentAt? hat
    have hbytes := bytesFrom_of_segmentAt? hat
    have hread {len : Nat} (hspans : clamp (addr.toNat + len) ≤ clamp s.reach) :
        img.read addr len = .ok (s.window wrap addr len) := by
      rw [read_of_segmentAt?_eq hat, if_neg (Nat.not_lt.2 hspans)]
    constructor
    · -- Wherever there is a segment, no bytes can be read without an error.
      have hzero : clamp (addr.toNat + 0) ≤ clamp s.reach :=
        Nat.le_trans (Nat.min_le_left _ _) (Nat.le_of_lt (Segment.covers_clamp_iff.2 hcontains).2)
      rw [hbytes, hread hzero]
      simp only [reduceCtorEq, implies_true]
    · intro bytes h
      cases hbytes.symm.trans h
      refine ⟨s, List.mem_of_find?_eq_some hat, hcontains, fun len => ?_,
        fun len hlen => Segment.size_lt_of_not_spans hcontains hlen, fun len hspans hend => ?_,
        fun len hspans _ => hread hspans⟩
      · rw [read_of_segmentAt?_eq hat]
        split
        · rename_i hlt
          exact iff_of_true rfl hlt
        · rename_i hle
          simp only [reduceCtorEq, hle]
      · rw [hread hspans, Segment.window_wrap_eq hend, Segment.window_eq_bytesFrom hcontains]

/-- A segment with room for twice its data. -/
def roomySegment : Segment := ⟨0x1000, 8, [1, 2, 3, 4], 5⟩

/-- The last six bytes of it: two with data, and four without. -/
theorem bytesFrom_agrees_roomy :
    ∃ img, addAll {} [roomySegment] = .ok ([0], img) ∧ img.bytesFrom 0x1002 = .ok [3, 4] ∧
      img.read 0x1002 1 = .ok [3] ∧ img.read 0x1002 6 = .ok [3, 4, 0, 0, 0, 0] ∧
      img.read 0x1002 7 = .error (.crossesSegment 0x1002 7) := by
  have hbytes : bytesFrom { segments := [roomySegment] } 0x1002 = .ok [3, 4] := rfl
  obtain ⟨s, hs, -, hrefused, -, hread, -⟩ := (bytesFrom_agrees _ _).2 _ hbytes
  rw [List.mem_singleton.1 hs] at hrefused hread
  exact ⟨_, rfl, hbytes, hread 1 (by decide) (by decide), hread 6 (by decide) (by decide),
    (hrefused 7).2 (by decide)⟩

/-- A segment with room for half of its data. -/
def crampedSegment : Segment := ⟨0x1000, 2, [1, 2, 3, 4], 5⟩

/-- Two of its four initialised bytes cannot be read. -/
theorem bytesFrom_disagrees_cramped :
    ∃ img, addAll {} [crampedSegment] = .ok ([0], img) ∧
      ¬∀ bytes, img.bytesFrom 0x1000 = .ok bytes →
        ∀ n ≤ bytes.length, img.read 0x1000 n = .ok (bytes.take n) := by
  refine ⟨{ segments := [crampedSegment] }, rfl, fun hagrees => ?_⟩
  exact nomatch hagrees [1, 2, 3, 4] rfl 4 (by decide)

end Image

end FlowRecovery
