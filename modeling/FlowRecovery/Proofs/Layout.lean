import FlowRecovery.Memory.Image
import Mathlib.Data.List.Pairwise

/-!
# `FlowRecovery.Proofs.Layout`: the order of segments does not matter

An image is built by adding segments one after the other, and an address
is looked up by taking the first segment that contains it. Both depend on
the order in which the segments were added. This file shows that nobody
can tell:

- `addAll_eq_ok_iff`: a list of segments is accepted exactly if any two of
  them are apart, which says nothing about their order;
- `segmentAt?_eq_some_iff`: in an accepted image an address lies in at
  most one segment, so the first one found is the only one;
- `answersLike_of_perm`: everything else is asked of that segment.

Two segments are apart when one ends before the other begins, and this
holds of an empty segment anywhere outside of the others, itself
included. A segment that would reach beyond the address space ends at
the largest address, which then lies in no segment at all. None of this
is a special case below: `apart` and `contains` compare with the same
`limit`.
-/

set_option autoImplicit false

namespace FlowRecovery

/-! ### Segments that are apart -/

namespace Segment

/-- Being apart does not depend on which segment comes first. -/
theorem apart_comm (s t : Segment) : s.apart t = t.apart s := Bool.or_comm _ _

/-- No address lies in two segments that are apart. -/
theorem not_contains_of_apart {s t : Segment} (h : s.apart t = true) {a : Word}
    (hs : s.contains a = true) : ¬t.contains a = true := by
  intro ht
  simp only [apart, Bool.or_eq_true, decide_eq_true_eq, BitVec.le_def] at h
  simp only [contains_iff, BitVec.le_def, BitVec.lt_def] at hs ht
  omega

end Segment

/-- Any two of the segments are apart. -/
abbrev Apart (segments : List Segment) : Prop :=
  segments.Pairwise fun s t => s.apart t = true

/-- Neither does it depend on the order in a list. -/
theorem Apart.perm {segments segments' : List Segment} (h : Apart segments)
    (hperm : segments.Perm segments') : Apart segments' := by
  refine (hperm.pairwise_iff ?_).1 h
  intro s t hst
  rw [Segment.apart_comm]
  exact hst

/-- An address that lies in two of the segments makes them the same
one. -/
theorem Apart.eq_of_contains {segments : List Segment} (h : Apart segments) {i j : Nat}
    {s t : Segment} (hi : segments[i]? = some s) (hj : segments[j]? = some t) {a : Word}
    (hs : s.contains a = true) (ht : t.contains a = true) : i = j := by
  obtain ⟨hilt, rfl⟩ := List.getElem?_eq_some_iff.1 hi
  obtain ⟨hjlt, rfl⟩ := List.getElem?_eq_some_iff.1 hj
  have hapart := List.pairwise_iff_getElem.1 h
  -- Whichever of the two comes first, it is apart from the other.
  rcases Nat.lt_trichotomy i j with hlt | heq | hgt
  · exact absurd ht (Segment.not_contains_of_apart (hapart i j hilt hjlt hlt) hs)
  · exact heq
  · exact absurd hs (Segment.not_contains_of_apart (hapart j i hjlt hilt hgt) ht)

/-- Positions are identifiers as long as there are few enough of them. -/
theorem SegmentId.ofPosition_of_lt {position : Nat} (h : position < 4294967296) :
    SegmentId.ofPosition position = position := Nat.min_eq_left (Nat.le_of_lt_succ h)

namespace Image

variable {img img' : Image}

/-! ### Adding segments -/

/-- Add segments one after the other. The result is the identifiers they
get and the image they make. -/
def addAll (img : Image) : List Segment → Except MemoryError (List SegmentId × Image)
  | [] => .ok ([], img)
  | s :: rest => do
    let (id, img) ← img.add s
    let (ids, img) ← img.addAll rest
    .ok (id :: ids, img)

/-- The identifiers of `count` segments that are added behind `first`
others. -/
def identifiers (first count : Nat) : List SegmentId :=
  (List.range' first count).map SegmentId.ofPosition

/-- Adding one segment more: it is apart from the present ones, and the
rest is added behind it. -/
theorem addAll_cons_eq_ok_iff {s : Segment} {rest : List Segment} {ids : List SegmentId} :
    img.addAll (s :: rest) = .ok (ids, img') ↔
      (∀ t ∈ img.segments, s.apart t = true) ∧
      ∃ more, { img with segments := img.segments ++ [s] }.addAll rest = .ok (more, img') ∧
        ids = .ofPosition img.segments.length :: more := by
  rw [addAll]
  cases hadd : img.add s with
  | error e =>
    -- The image refuses a segment only if it overlaps another.
    have hoverlap : ¬∀ t ∈ img.segments, s.apart t = true := by
      intro hapart
      rw [add_eq_ok_iff.2 ⟨hapart, rfl, rfl⟩] at hadd
      cases hadd
    simp only [hoverlap, false_and, iff_false]
    intro h
    cases h
  | ok found =>
    obtain ⟨id, grown⟩ := found
    obtain ⟨hapart, rfl, rfl⟩ := add_eq_ok_iff.1 hadd
    show (addAll _ rest >>= _) = _ ↔ _
    cases hrest : addAll { img with segments := img.segments ++ [s] } rest with
    | error e =>
      simp only [reduceCtorEq, false_and, exists_false, and_false, iff_false]
      intro h
      cases h
    | ok answer =>
      obtain ⟨more, last⟩ := answer
      constructor
      · intro h
        cases h
        exact ⟨hapart, more, rfl, rfl⟩
      · rintro ⟨-, _, h, rfl⟩
        cases h
        rfl

/-- Segments are accepted exactly if they are apart from the present ones
and from each other. They are kept in the order they come in. -/
theorem addAll_eq_ok_iff {segments : List Segment} {ids : List SegmentId}
    (himg : Apart img.segments) :
    img.addAll segments = .ok (ids, img') ↔
      Apart (img.segments ++ segments) ∧
        ids = identifiers img.segments.length segments.length ∧
        img' = { img with segments := img.segments ++ segments } := by
  induction segments generalizing img ids with
  | nil =>
    simp only [addAll, List.append_nil, Except.ok.injEq, Prod.mk.injEq, himg, true_and, identifiers,
      List.length_nil, List.range'_zero, List.map_nil]
    rw [eq_comm, @eq_comm _ img]
  | cons s rest ih =>
    -- The first segment joins the present ones, and the rest comes behind them.
    have happend : img.segments ++ s :: rest = (img.segments ++ [s]) ++ rest := by simp
    have hids : identifiers img.segments.length (rest.length + 1) =
        .ofPosition img.segments.length :: identifiers (img.segments.length + 1) rest.length := by
      rw [identifiers, List.range'_succ]
      rfl
    rw [addAll_cons_eq_ok_iff, happend, List.length_cons, hids]
    constructor
    · rintro ⟨hs, more, hrest, rfl⟩
      have hgrown : Apart (img.segments ++ [s]) := by
        refine List.pairwise_append.2 ⟨himg, List.pairwise_singleton _ s, fun t ht u hu => ?_⟩
        rw [List.mem_singleton.1 hu, Segment.apart_comm]
        exact hs t ht
      obtain ⟨hapart, rfl, rfl⟩ := (ih hgrown).1 hrest
      exact ⟨hapart, by simp, rfl⟩
    · rintro ⟨hapart, rfl, rfl⟩
      have hgrown : Apart (img.segments ++ [s]) := (List.pairwise_append.1 hapart).1
      refine ⟨fun t ht => ?_, _, (ih hgrown).2 ⟨hapart, rfl, rfl⟩, by simp⟩
      rw [Segment.apart_comm]
      exact (List.pairwise_append.1 hgrown).2.2 t ht s (by simp)

/-! ### Looking up an address -/

/-- The segment that is found contains the address. -/
theorem contains_of_segmentAt? {a : Word} {s : Segment} (h : img.segmentAt? a = some s) :
    s.contains a = true :=
  List.find?_some (p := fun s : Segment => s.contains a) h

/-- The segment that is found is the one that contains the address. -/
theorem segmentAt?_eq_some_iff (himg : Apart img.segments) {a : Word} {s : Segment} :
    img.segmentAt? a = some s ↔ s ∈ img.segments ∧ s.contains a = true := by
  constructor
  · intro h
    exact ⟨List.mem_of_find?_eq_some h, contains_of_segmentAt? h⟩
  · rintro ⟨hs, hcontains⟩
    cases hfound : img.segmentAt? a with
    | none => exact absurd hcontains (List.find?_eq_none.1 hfound s hs)
    | some t =>
      -- Both stand somewhere in the list, and the address makes the places the same.
      obtain ⟨i, hi⟩ := List.mem_iff_getElem?.1 (List.mem_of_find?_eq_some hfound)
      obtain ⟨j, hj⟩ := List.mem_iff_getElem?.1 hs
      have hij := himg.eq_of_contains hi hj (contains_of_segmentAt? hfound) hcontains
      rw [hij, hj] at hi
      exact hi.symm

/-- The identifier that is found leads to the segment that is found. -/
theorem segmentIdAt?_of_segmentAt? (hcount : img.segments.length < 4294967296) {a : Word}
    {s : Segment} (h : img.segmentAt? a = some s) :
    ∃ id, img.segmentIdAt? a = some id ∧ img.segment? id = some s := by
  -- The search has stopped at the first segment that contains the address.
  obtain ⟨i, hlt, hget, hcontains, hfirst⟩ : ∃ i, ∃ hlt : i < img.segments.length,
      img.segments[i] = s ∧ s.contains a = true ∧
        ∀ j, ∀ hj : j < i, ¬(img.segments[j].contains a = true) := by
    obtain ⟨hcontains, i, hlt, hget, hfirst⟩ := List.find?_eq_some_iff_getElem.1 h
    exact ⟨i, hlt, hget, hcontains, fun j hj => by simpa using hfirst j hj⟩
  refine ⟨i, ?_, by rw [segment?, List.getElem?_eq_getElem hlt, hget]⟩
  have hidx : img.segments.findIdx? (·.contains a) = some i :=
    List.findIdx?_eq_some_iff_getElem.2 ⟨hlt, hget ▸ hcontains, hfirst⟩
  rw [segmentIdAt?, hidx, Option.map_some, SegmentId.ofPosition_of_lt (Nat.lt_trans hlt hcount)]

/-- The identifiers of these segments, and those that lookups answer with,
lead to the right segment. -/
structure Identifies (img : Image) (segments : List Segment) (ids : List SegmentId) : Prop where
  added : ∀ (i : Nat) (s : Segment), segments[i]? = some s →
    ∃ id, ids[i]? = some id ∧ img.segment? id = some s
  found : ∀ a s, img.segmentAt? a = some s →
    ∃ id, img.segmentIdAt? a = some id ∧ img.segment? id = some s
  missing : ∀ a, img.segmentAt? a = none → img.segmentIdAt? a = none

/-- With few enough segments, positions are as good as identifiers. -/
theorem identifies_of_lt {segments : List Segment} (hcount : segments.length < 4294967296)
    (order : ByteOrder) :
    Identifies { order, segments } segments (identifiers 0 segments.length) where
  added i s hi := by
    have hlt : i < segments.length := (List.getElem?_eq_some_iff.1 hi).1
    refine ⟨i, ?_, hi⟩
    rw [identifiers, List.getElem?_map, List.getElem?_range' hlt, Option.map_some, Nat.one_mul,
      Nat.zero_add, SegmentId.ofPosition_of_lt (Nat.lt_trans hlt hcount)]
  found _ _ := segmentIdAt?_of_segmentAt? hcount
  missing a h := by
    rw [segmentIdAt?, List.findIdx?_eq_none_iff.2, Option.map_none]
    simpa [segmentAt?] using h

/-! ### What an image answers -/

/-- The images answer every question in the same way. Only identifiers
may differ. -/
structure AnswersLike (img' img : Image) : Prop where
  segmentAt? : ∀ a, img'.segmentAt? a = img.segmentAt? a
  isExecutable : ∀ a, img'.isExecutable a = img.isExecutable a
  isReadOnly : ∀ a, img'.isReadOnly a = img.isReadOnly a
  bytesFrom : ∀ a, img'.bytesFrom a = img.bytesFrom a
  read : ∀ a len, img'.read a len = img.read a len
  readUInt : ∀ a bytes, img'.readUInt a bytes = img.readUInt a bytes
  readOnlyUInt? : ∀ a bytes, img'.readOnlyUInt? a bytes = img.readOnlyUInt? a bytes

/-- Every question is put to the segment at the address. -/
theorem answersLike_of_segmentAt? (horder : img'.order = img.order)
    (h : ∀ a, img'.segmentAt? a = img.segmentAt? a) : img'.AnswersLike img := by
  have hread : ∀ a len, img'.read a len = img.read a len := by
    intro a len
    simp only [Image.read, h]
  have hreadUInt : ∀ a bytes, img'.readUInt a bytes = img.readUInt a bytes := by
    intro a bytes
    simp only [Image.readUInt, hread, horder]
  have hreadOnly : ∀ a, img'.isReadOnly a = img.isReadOnly a := by
    intro a
    simp only [Image.isReadOnly, h]
  refine ⟨h, fun a => ?_, hreadOnly, fun a => ?_, hread, hreadUInt, fun a bytes => ?_⟩
  · simp only [Image.isExecutable, h]
  · simp only [Image.bytesFrom, h]
  · simp only [Image.readOnlyUInt?, hreadOnly, hreadUInt]

/-- The order of the segments does not show in the answers. -/
theorem answersLike_of_perm (horder : img'.order = img.order) (himg : Apart img.segments)
    (hperm : img.segments.Perm img'.segments) : img'.AnswersLike img := by
  refine answersLike_of_segmentAt? horder fun a => Option.ext fun s => ?_
  rw [segmentAt?_eq_some_iff himg, segmentAt?_eq_some_iff (himg.perm hperm), hperm.mem_iff]

/-- Segments that are accepted one after the other are accepted in every
other order too. No address lies in two of them, the images answer in the
same way, and identifiers lead to the segments that they were given for. -/
theorem addAll_perm (order : ByteOrder) {segments : List Segment}
    (hcount : segments.length < 4294967296) {ids : List SegmentId}
    (h : addAll { order } segments = .ok (ids, img)) :
    (∀ (i j : Nat) (s t : Segment) (a : Word), segments[i]? = some s → segments[j]? = some t →
      s.contains a = true → t.contains a = true → i = j) ∧
    img.Identifies segments ids ∧
    ∀ segments', segments.Perm segments' →
      ∃ ids' img', addAll { order } segments' = .ok (ids', img') ∧
        img'.Identifies segments' ids' ∧ img'.AnswersLike img := by
  have hempty : Apart ({ order } : Image).segments := List.Pairwise.nil
  obtain ⟨hapart, rfl, rfl⟩ := (addAll_eq_ok_iff hempty).1 h
  refine ⟨fun i j s t a hi hj => hapart.eq_of_contains hi hj, identifies_of_lt hcount order, ?_⟩
  intro segments' hperm
  refine ⟨_, _, (addAll_eq_ok_iff hempty).2 ⟨hapart.perm hperm, rfl, rfl⟩, ?_, ?_⟩
  · exact identifies_of_lt (hperm.length_eq ▸ hcount) order
  · exact answersLike_of_perm rfl hapart hperm

/-- Code, an empty segment right behind it, and a segment that reaches
the end of the address space. -/
def looseSegments : List Segment :=
  [Segment.ofBytes 0x1000 [1, 2, 3, 4] Segment.codeFlags, ⟨0x1004, 0, [], 4⟩,
    ⟨0xfffffffffffffff0, 0x20, [9], 6⟩]

/-- The image is put together in two orders, and answers alike. Identifier
2 now leads to what identifier 0 led to. -/
theorem addAll_perm_loose :
    ∃ img img', addAll {} looseSegments = .ok ([0, 1, 2], img) ∧
      addAll {} looseSegments.reverse = .ok ([0, 1, 2], img') ∧ img'.AnswersLike img ∧
      img'.read 0xfffffffffffffff0 2 = .ok [9, 0] ∧ img'.segment? 2 = img.segment? 0 := by
  have hadd : addAll {} looseSegments = .ok ([0, 1, 2], { segments := looseSegments }) := rfl
  obtain ⟨-, -, hother⟩ := addAll_perm .little (by decide) hadd
  obtain ⟨ids', img', hadd', -, hlike⟩ :=
    hother looseSegments.reverse looseSegments.reverse_perm.symm
  have hreverse : addAll {} looseSegments.reverse =
      .ok ([0, 1, 2], { segments := looseSegments.reverse }) := rfl
  rw [hreverse] at hadd'
  cases hadd'
  exact ⟨_, _, hadd, hreverse, hlike, rfl, rfl⟩

end Image

end FlowRecovery
