import FlowRecovery.Memory.Image
import FlowRecovery.Proofs.Runtime
import Mathlib.Algebra.Group.Nat.Defs

/-!
# `FlowRecovery.Proofs.ByteMemory`: memory as bytes

A runtime leaves open what its memory is. `Runtime.Bytewise` says that it
consists of bytes: a load puts together the bytes from its address on, in
the order of the machine, and a store replaces those that its value takes
up. Addresses wrap around.

Two facts follow. A load gives back what was stored at its address, if it
is as wide (`load_store`), and it depends on no byte outside its range
(`load_congr`). `Runtime.flat` is such a runtime.
-/

set_option autoImplicit false

namespace FlowRecovery

/-- Where among `n` bytes the `k`-th lowest one stands. It is also the
rank of the byte that stands at `k`. -/
def ByteOrder.place : ByteOrder → Nat → Nat → Nat
  | .little, _, k => k
  | .big, n, k => n - 1 - k

/-- The place is one among the bytes. -/
theorem ByteOrder.place_lt (order : ByteOrder) {n k : Nat} (hk : k < n) : order.place n k < n := by
  cases order <;> simp only [place] <;> omega

/-- The place of a place is the rank again, whichever end comes first. -/
theorem ByteOrder.place_place (order : ByteOrder) {n k : Nat} (hk : k < n) :
    order.place n (order.place n k) = k := by
  cases order <;> simp only [place]
  omega

/-- The bytes that so many bits take up. -/
def byteCount (width : Nat) : Nat :=
  (width + 7) / 8

/-- The bytes that a datum of this type takes up. -/
def Ty.byteCount : Ty → Nat
  | .bool => 1
  | .bv width => FlowRecovery.byteCount width

/-- Whole bytes are counted exactly. -/
theorem byteCount_mul (bytes : Nat) : byteCount (bytes * 8) = bytes := by
  unfold byteCount
  omega

/-- The offsets inside of an address do not wrap around. -/
theorem toNat_ofNat_of_lt_div {width k : Nat} (hk : k < width / 8) :
    (BitVec.ofNat width k).toNat = k := by
  have hpow := Nat.lt_two_pow_self (n := width)
  rw [BitVec.toNat_ofNat, Nat.mod_eq_of_lt (by omega)]

/-- A range of bytes at the distance `d` from another one that it does
not meet, in front of it or behind it. -/
theorem le_toNat_add_of_apart {width first second : Nat} {d : BitVec width}
    (hfirst : first ≤ d.toNat) (hsecond : second ≤ (-d).toNat) {k : Nat} (hk : k < second) :
    first ≤ (d + BitVec.ofNat width k).toNat := by
  have hd := d.isLt
  rw [BitVec.toNat_neg] at hsecond
  have hne : d.toNat ≠ 0 := by
    intro hzero
    rw [hzero, Nat.sub_zero, Nat.mod_self] at hsecond
    omega
  rw [Nat.mod_eq_of_lt (by omega)] at hsecond
  rw [BitVec.toNat_add, BitVec.toNat_ofNat, Nat.mod_eq_of_lt (by omega : k < 2 ^ width),
    Nat.mod_eq_of_lt (by omega)]
  omega

/-- The address that the statement stores to. -/
def Stmt.storeAddr? : Stmt → Option Value
  | .store addr _ => some addr
  | _ => none

namespace Runtime

/-- The memory of the runtime consists of bytes at addresses of `width`
bits. -/
structure Bytewise (R : Runtime) (order : ByteOrder) (width : Nat) where
  peek : R.Memory → BitVec width → BitVec 8
  load : ∀ memory a bytes i, i < bytes * 8 →
    (R.load memory (.bits width a) bytes).getLsbD i =
      (peek memory (a + BitVec.ofNat width (order.place bytes (i / 8)))).getLsbD (i % 8)
  store : ∀ memory a size (x : BitVec size) b,
    peek (R.store memory (.bits width a) (.bits size x)) b =
      if (b - a).toNat < byteCount size then
        (x >>> (8 * order.place (byteCount size) (b - a).toNat)).setWidth 8
      else peek memory b

namespace Bytewise

variable {R : Runtime} {order : ByteOrder} {width : Nat} (B : R.Bytewise order width)
  {memory memory' : R.Memory} {a b : BitVec width}

/-- A load depends on the bytes that it reads. -/
theorem load_congr {bytes : Nat}
    (h : ∀ k < bytes, B.peek memory' (a + BitVec.ofNat width k) =
      B.peek memory (a + BitVec.ofNat width k)) :
    R.load memory' (.bits width a) bytes = R.load memory (.bits width a) bytes := by
  -- Each bit of the result comes from one byte of the memory.
  apply BitVec.eq_of_getLsbD_eq
  intro i hi
  rw [B.load _ _ _ _ hi, B.load _ _ _ _ hi, h _ (order.place_lt (by omega))]

include B in
/-- What was stored is loaded back. -/
theorem load_store {bytes size : Nat} (hsize : size = bytes * 8)
    (hfits : ∀ k < bytes, (BitVec.ofNat width k).toNat = k) (x : BitVec size) :
    Datum.bits (bytes * 8)
        (R.load (R.store memory (.bits width a) (.bits size x)) (.bits width a) bytes) =
      .bits size x := by
  subst hsize
  refine congrArg (Datum.bits (bytes * 8)) (BitVec.eq_of_getLsbD_eq fun i hi => ?_)
  have hplace := order.place_lt (n := bytes) (k := i / 8) (by omega)
  have hdistance : a + BitVec.ofNat width (order.place bytes (i / 8)) - a =
      BitVec.ofNat width (order.place bytes (i / 8)) := by
    rw [BitVec.add_comm, BitVec.add_sub_cancel]
  -- The byte that is read is the one that was written for these bits.
  rw [B.load _ _ _ _ hi, B.store, hdistance, hfits _ hplace, byteCount_mul, if_pos hplace,
    order.place_place (by omega), BitVec.getLsbD_setWidth, BitVec.getLsbD_ushiftRight]
  have hbit : 8 * (i / 8) + i % 8 = i := Nat.div_add_mod i 8
  rw [hbit, decide_eq_true (Nat.mod_lt i (by decide)), Bool.true_and]

/-- A byte that is not in the range of a store stays as it is. -/
theorem peek_store_of_le {size : Nat} {x : BitVec size} (h : byteCount size ≤ (b - a).toNat) :
    B.peek (R.store memory (.bits width a) (.bits size x)) b = B.peek memory b := by
  rw [B.store, if_neg (Nat.not_lt.2 h)]

end Bytewise

/-- Nothing but stores changes the memory, which consists of bytes.
Primitives pass on their first argument if it has their type, and a
clobbered value may be anything of its type. -/
def flat (order : ByteOrder) (width : Nat) : Runtime where
  Memory := BitVec width → BitVec 8
  load
    | memory, .bits _ a, bytes => (BitVec.iunfoldr (fun i _ => ((), (memory (a.setWidth width +
        BitVec.ofNat width (order.place bytes (i / 8)))).getLsbD (i % 8))) ()).2
    | _, .bool _, _ => 0
  store
    | memory, .bits _ a, .bits size x => fun b =>
      if (b - a.setWidth width).toNat < byteCount size then
        (x >>> (8 * order.place (byteCount size) (b - a.setWidth width).toNat)).setWidth 8
      else memory b
    | memory, _, _ => memory
  prim memory p data :=
    (match data.head? with
      | some x => if h : x.ty = p.ty then ⟨x, h⟩ else Datum.someOf p.ty
      | none => Datum.someOf p.ty, memory)
  arch memory _ _ _ := memory
  undef ty d := d.ty = ty
  ty_undef _ _ h := h
  exists_undef ty := ⟨.ofTy ty, Datum.ty_ofTy ty⟩

/-- The bits of a load are those of the bytes it reads, and a store
replaces the bytes it covers. -/
def flatBytewise (order : ByteOrder) (width : Nat) : (flat order width).Bytewise order width where
  peek memory := memory
  load memory a bytes i hi := by
    have hbits := BitVec.iunfoldr_getLsbD (w := bytes * 8)
      (f := fun i _ => ((), (memory (a.setWidth width +
        BitVec.ofNat width (order.place bytes (i / 8)))).getLsbD (i % 8))) (fun _ => ()) ⟨i, hi⟩
      (fun _ => rfl)
    rw [BitVec.setWidth_eq] at hbits
    simp only [flat, BitVec.setWidth_eq]
    exact hbits
  store memory a size x b := by
    simp only [flat, BitVec.setWidth_eq]

/-- In it only a store changes the memory. -/
theorem flat_memory_of_steps {order : ByteOrder} {width : Nat} {effects : Effects} {t : Stmt}
    {c c' : (flat order width).State} (h : (flat order width).Steps effects t c c')
    (ht : t.storeAddr? = none) : c'.memory = c.memory := by
  cases h with
  | app | load | instruction | comment => rfl
  | prim =>
    rw [State.prim]
    split <;> rfl
  | arch =>
    rw [State.arch]
    split <;> rfl
  | store => cases ht

/-- The return address stands at the address zero, where every register
points. -/
def flatEntry (order : ByteOrder) {width : Nat} (ret : BitVec width) :
    (flat order width).State where
  values :=
    { base := fun _ => 0
      symbol := fun v => if v = .returnAddr width then .bits width ret else .ofTy v.ty }
  memory := (flat order width).store (fun _ => 0) (.bits width 0) (.bits width ret)
  trace := []

/-- Every value is of its type at the entry. -/
theorem typed_flatEntry (order : ByteOrder) {width : Nat} (ret : BitVec width) :
    (flatEntry order ret).values.Typed := by
  intro v
  simp only [flatEntry]
  split
  · rename_i hv
    rw [hv]
    rfl
  · exact Datum.ty_ofTy v.ty

end Runtime

end FlowRecovery
