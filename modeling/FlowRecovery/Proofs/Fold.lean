import FlowRecovery.Proofs.Meaning
import Mathlib.Algebra.Group.Nat.Defs

/-!
# `FlowRecovery.Proofs.Fold`: folding keeps the meaning

`App.fold` computes in 64-bit words that it cuts to a width, and it uses
identities that read one operand only. This file holds both against the
operators on data (`FlowRecovery.Proofs.Meaning`). The theorem is
`fold_sound`: on a well-typed application with masked literals, whatever
`fold` returns has the type of the application, is masked again, and may
be exactly the data that the application may come to.

The last part says at once that a folded value is right and that nothing
clobbered is decided too early. An application of two clobbered operands
can come to more data than any rule for equal operands allows for.

* The word lemmas carry each 64-bit operation over to the bitvectors of
  the width: `evalWords_sound`.
* `Same` is the relation between a value and the application it may
  replace. The lemmas `same_*` are the kinds of identities: an operand
  that changes nothing, an operand that decides the result, equal
  operands.
* `simplify_same` goes through the identities operator by operator, and
  `fold_same` through the shapes of applications.
-/

set_option autoImplicit false

namespace FlowRecovery

namespace Word

/-! ### Words and the bitvectors in their low bits -/

/-- Cutting to `width` bits is the remainder modulo `2 ^ width`. -/
theorem toNat_keepLow (width : Nat) (w : Word) :
    (keepLow width w).toNat = w.toNat % 2 ^ width := by
  apply Nat.eq_of_testBit_eq
  intro i
  have h := getLsbD_keepLow width w i
  simp only [BitVec.getLsbD] at h
  rw [h, Nat.testBit_mod_two_pow, Bool.and_comm]

/-- Cutting changes nothing exactly if the word fits the width. -/
theorem keepLow_eq_self_iff {width : Nat} {w : Word} :
    keepLow width w = w ↔ w.toNat < 2 ^ width := by
  rw [← BitVec.toNat_inj, toNat_keepLow]
  refine ⟨fun h => ?_, Nat.mod_eq_of_lt⟩
  rw [← h]
  exact Nat.mod_lt _ (Nat.two_pow_pos width)

/-- Reading a word at a width makes the cut by itself. -/
@[simp] theorem setWidth_keepLow (width : Nat) (w : Word) :
    (keepLow width w).setWidth width = w.setWidth width := by
  apply BitVec.eq_of_toNat_eq
  simp [toNat_keepLow]

/-- Nothing is lost by reading a masked word at its width. -/
theorem toNat_setWidth_of_masked {width : Nat} {w : Word} (h : keepLow width w = w) :
    (w.setWidth width).toNat = w.toNat := by
  rw [BitVec.toNat_setWidth, Nat.mod_eq_of_lt (keepLow_eq_self_iff.1 h)]

/-- A masked word may be widened from its own width. -/
theorem setWidth_setWidth_of_masked {width : Nat} {w : Word} (h : keepLow width w = w)
    (target : Nat) : (w.setWidth width).setWidth target = w.setWidth target := by
  apply BitVec.eq_of_toNat_eq
  rw [BitVec.toNat_setWidth, toNat_setWidth_of_masked h, BitVec.toNat_setWidth]

/-- Masked words are equal as soon as their low bits are. -/
theorem setWidth_inj_of_masked {width : Nat} {a b : Word} (ha : keepLow width a = a)
    (hb : keepLow width b = b) : a.setWidth width = b.setWidth width ↔ a = b := by
  rw [← BitVec.toNat_inj, toNat_setWidth_of_masked ha, toNat_setWidth_of_masked hb,
    BitVec.toNat_inj]

/-- The signed number of a word is that of its low bits. -/
theorem toSigned_eq_toInt {width : Nat} (h : width ≤ 64) (w : Word) :
    toSigned width w = (w.setWidth width).toInt := by
  rw [toSigned, Nat.min_eq_left h]

/-- A signed number may be written as a word and then read at a width. -/
theorem setWidth_ofSigned {width : Nat} (h : width ≤ 64) (i : Int) :
    (ofSigned i).setWidth width = BitVec.ofInt width i := by
  -- Reducing modulo `2 ^ 64` first loses nothing: `2 ^ width` divides it.
  have hdvd : ((2 ^ width : Nat) : Int) ∣ ((2 ^ 64 : Nat) : Int) :=
    Int.natCast_dvd_natCast.2 (Nat.pow_dvd_pow 2 h)
  have hpos : ((2 ^ 64 : Nat) : Int) ≠ 0 := by decide
  apply BitVec.eq_of_toNat_eq
  rw [BitVec.toNat_setWidth, ofSigned, BitVec.toNat_ofInt, BitVec.toNat_ofInt]
  have hemod := Int.emod_emod_of_dvd i hdvd
  have hnonneg := Int.emod_nonneg i hpos
  rw [← hemod, Int.toNat_emod hnonneg (Int.natCast_nonneg _), Int.toNat_natCast]

/-- Differences carry over to fewer bits. The library has this for sums and
opposites. -/
theorem setWidth_sub {width : Nat} (h : width ≤ 64) (a b : Word) :
    (a - b).setWidth width = a.setWidth width - b.setWidth width := by
  rw [BitVec.sub_eq_add_neg, BitVec.setWidth_add _ _ h, BitVec.setWidth_neg_of_le h,
    ← BitVec.sub_eq_add_neg]

/-- A masked word has only zeros to shift in from above its width. -/
theorem setWidth_ushiftRight_of_masked {width : Nat} {w : Word} (h : keepLow width w = w)
    (n : Nat) : (w >>> n).setWidth width = w.setWidth width >>> n := by
  have hle : w.toNat >>> n ≤ w.toNat := by
    rw [Nat.shiftRight_eq_div_pow]
    exact Nat.div_le_self _ _
  apply BitVec.eq_of_toNat_eq
  rw [BitVec.toNat_setWidth, BitVec.toNat_ushiftRight, BitVec.toNat_ushiftRight,
    toNat_setWidth_of_masked h,
    Nat.mod_eq_of_lt (Nat.lt_of_le_of_lt hle (keepLow_eq_self_iff.1 h))]

end Word

/-- Shifting by more than the last position only repeats the sign. -/
theorem sshiftRight_min {width : Nat} (x : BitVec width) (n : Nat) :
    x.sshiftRight (min n (width - 1)) = x.sshiftRight n := by
  apply BitVec.eq_of_getLsbD_eq
  intro i hi
  -- Both sides are read bit by bit.
  rw [BitVec.getLsbD_sshiftRight, BitVec.getLsbD_sshiftRight]
  -- From the last position on, every bit that is read is the sign.
  rcases Nat.le_total n (width - 1) with h | h
  · rw [Nat.min_eq_left h]
  · rw [Nat.min_eq_right h, BitVec.msb_eq_getLsbD_last]
    rcases Nat.eq_zero_or_pos i with rfl | hpos
    · grind
    · grind

/-- Literals are made masked. -/
@[simp] theorem Value.masked_ofWord (width : Nat) (w : Word) : (ofWord width w).Masked :=
  Word.keepLow_keepLow width w

/-- Booleans have nothing to mask. -/
@[simp] theorem Value.masked_bool (b : Bool) : (Value.bool b).Masked := trivial

/-- A boolean literal denotes itself. -/
@[simp] theorem Valuation.denote_bool (ρ : Valuation) (b : Bool) :
    ρ.denote (.bool b) = .bool b := rfl

/-- A literal denotes its low bits. -/
@[simp] theorem Valuation.denote_bv (ρ : Valuation) (width : Nat) (w : Word) :
    ρ.denote (.bv width w) = .bits width (w.setWidth width) := rfl

/-- So does one that is made from a word that does not fit. -/
@[simp] theorem Valuation.denote_ofWord (ρ : Valuation) (width : Nat) (w : Word) :
    ρ.denote (.ofWord width w) = .bits width (w.setWidth width) := by
  rw [Value.ofWord, denote_bv, Word.setWidth_keepLow]

/-! ### Literals -/

/-- On literals of one width the words compute what the bitvectors
do. -/
theorem BinaryOp.evalWords_sound {op : BinaryOp} {width : Nat} {a b : Word} {v : Value}
    (hwidth : (Ty.bv width).isValid = true) (ha : a.keepLow width = a) (hb : b.keepLow width = b)
    (h : op.evalWords width a b = some v) (ρ : Valuation) :
    v.isClobbered = false ∧ v.Masked ∧
      op.onBits (a.setWidth width) (b.setWidth width) = some (ρ.denote v) := by
  obtain ⟨hpos, hle⟩ := (Ty.isValid_bv width).1 hwidth
  have hnat := Word.toNat_setWidth_of_masked hb
  simp only [evalWords, hwidth, Bool.not_true, Bool.false_eq_true, if_false] at h
  cases op with
  | add =>
    cases h
    exact ⟨rfl, by simp, by simp [onBits, BitVec.setWidth_add _ _ hle]⟩
  | sub =>
    cases h
    exact ⟨rfl, by simp, by simp [onBits, Word.setWidth_sub hle]⟩
  | mul =>
    cases h
    exact ⟨rfl, by simp, by simp [onBits, BitVec.setWidth_mul _ _ hle]⟩
  | and | or | xor =>
    cases h
    exact ⟨rfl, by simp, by simp [onBits]⟩
  | shl =>
    cases h
    refine ⟨rfl, by simp, ?_⟩
    rw [Valuation.denote_ofWord, onBits, hnat]
    -- From the width on all bits have been shifted out.
    split
    · rename_i hge
      simp [BitVec.shiftLeft_eq_zero hge]
    · rw [BitVec.setWidth_shiftLeft_of_le hle]
  | lshr =>
    cases h
    refine ⟨rfl, by simp, ?_⟩
    rw [Valuation.denote_ofWord, onBits, hnat]
    split
    · rename_i hge
      simp [BitVec.ushiftRight_eq_zero hge]
    · rw [Word.setWidth_ushiftRight_of_masked ha]
  | ashr =>
    cases h
    refine ⟨rfl, by simp, ?_⟩
    -- The words shift the signed number, and never by more than its last bit.
    rw [Valuation.denote_ofWord, onBits, hnat, Word.setWidth_ofSigned hle,
      Word.toSigned_eq_toInt hle, ← BitVec.toInt_sshiftRight, BitVec.ofInt_toInt,
      sshiftRight_min]
  | eq =>
    cases h
    refine ⟨rfl, trivial, ?_⟩
    simp [onBits, Valuation.denote, Word.setWidth_inj_of_masked ha hb, beq_eq_decide]
  | ne =>
    cases h
    refine ⟨rfl, trivial, ?_⟩
    simp [onBits, Valuation.denote, Word.setWidth_inj_of_masked ha hb, bne, beq_eq_decide]
  | ult | ule =>
    cases h
    refine ⟨rfl, trivial, ?_⟩
    simp only [onBits, Valuation.denote, hnat, Word.toNat_setWidth_of_masked ha,
      BitVec.lt_def, BitVec.le_def]
  | slt | sle =>
    cases h
    refine ⟨rfl, trivial, ?_⟩
    simp only [onBits, Valuation.denote, Word.toSigned_eq_toInt hle]
  | boolAnd | boolOr | boolXor => cases h

/-- On boolean literals folding computes what the operators do. -/
theorem BinaryOp.evalBools_sound {op : BinaryOp} {a b : Bool} {v : Value}
    (h : op.evalBools a b = some v) (ρ : Valuation) :
    v.isClobbered = false ∧ v.Masked ∧ op.onBools a b = some (ρ.denote v) := by
  cases op <;> simp only [evalBools, Option.some.injEq, reduceCtorEq] at h <;> subst h <;>
    exact ⟨rfl, trivial, by cases a <;> cases b <;> rfl⟩

/-! ### Where a folded value comes from

It is one of the operands, or it needs no context to be understood. -/

/-- A literal or an address, which mentions no symbol. -/
def Value.IsConstant : Value → Prop
  | .bool _ | .bv .. | .reloc .. => True
  | _ => False

/-- Nothing is clobbered about a constant. -/
theorem Value.IsConstant.isClobbered {v : Value} (h : v.IsConstant) : v.isClobbered = false := by
  cases v with
  | bool | bv | reloc => rfl
  | initial | returnAddr | clobbered | assign => cases h

/-- A constant names no assignment. -/
theorem Value.IsConstant.assignId? {v : Value} (h : v.IsConstant) : v.assignId? = none := by
  cases v with
  | bool | bv | reloc => rfl
  | initial | returnAddr | clobbered | assign => cases h

/-- An identity returns an operand, or a constant that is masked. -/
theorem BinaryOp.simplify_cases {op : BinaryOp} {left right v : Value}
    (h : op.simplify left right = some v) :
    (v.IsConstant ∧ v.Masked) ∨ v = left ∨ v = right := by
  have hzero (u : Value) : u.zeroLike.IsConstant ∧ u.zeroLike.Masked :=
    ⟨trivial, Value.masked_ofWord _ _⟩
  have hbool (b : Bool) : (Value.bool b).IsConstant ∧ (Value.bool b).Masked := ⟨trivial, trivial⟩
  have hmove {move : Word → Word → Word} {base delta : Value}
      (hv : Value.relocate move base delta = some v) : v.IsConstant ∧ v.Masked := by
    cases base <;> cases delta <;> cases hv
    exact ⟨trivial, trivial⟩
  cases op with
  | add =>
    simp only [simplify] at h
    split_ifs at h
    · cases h; simp
    · cases h; simp
    · -- The address may be on either side.
      exact .inl ((Option.or_eq_some_iff.1 h).elim hmove fun h => hmove h.2)
  | sub =>
    simp only [simplify] at h
    split_ifs at h
    · cases h; exact .inl (hzero left)
    · cases h; simp
    · exact .inl (hmove h)
  | mul | and | or | xor | shl | lshr | ashr | eq | ne | ult | ule | slt | sle
  | boolAnd | boolOr | boolXor =>
    simp only [simplify] at h
    split_ifs at h <;> cases h <;> simp [hzero, hbool]

/-- Folding makes no new names: a folded value is a constant or one of the
operands. -/
theorem App.fold_mem {app : App} {v : Value} (h : app.fold = some v) :
    v.IsConstant ∨ v ∈ app.operands := by
  cases app with
  | unary op arg =>
    left
    cases op <;> cases arg <;> cases h <;> trivial
  | ext op arg target =>
    simp only [fold, ExtOp.fold] at h
    split at h
    · cases h
      simp [operands]
    · left
      cases arg <;> cases h
      cases op <;> trivial
  | binary op left right =>
    simp only [fold, BinaryOp.fold] at h
    split at h
    · -- Two words, two booleans, or an identity.
      left
      unfold BinaryOp.evalWords at h
      split at h
      · cases h
      · cases op <;> cases h <;> trivial
    · left
      cases op <;> cases h <;> trivial
    · simp only [operands, List.mem_cons, List.not_mem_nil, or_false]
      exact (BinaryOp.simplify_cases h).imp_left And.left
  | select cond onTrue onFalse =>
    right
    simp only [fold, Value.foldSelect] at h
    split at h
    · cases h
      split <;> simp [operands]
    · split at h
      · cases h
        simp [operands]
      · cases h

/-! ### Identities

Every identity of `BinaryOp.simplify` is of one of these kinds: an
operand that changes nothing, an operand that decides the result, or
equal operands. Two operands that are surely equal are one datum,
whatever it is. -/

/-- What certainty means: the same value, and not a clobbered one. -/
theorem Value.surelyEqual_iff {left right : Value} :
    left.surelyEqual right = true ↔ left = right ∧ left.isClobbered = false := by
  simp [surelyEqual]

/-- Only an address can be moved, and only by a literal of its own width.
-/
theorem Value.relocate_eq_some {move : Word → Word → Word} {base delta v : Value} {width : Nat}
    (hbase : base.ty = .bv width) (hdelta : delta.ty = .bv width)
    (h : relocate move base delta = some v) :
    ∃ segment offset distance, base = .reloc segment offset width ∧ delta = .bv width distance ∧
      v = .reloc segment (Word.keepLow width (move offset distance)) width := by
  cases base <;> cases delta <;> cases h
  cases hbase
  cases hdelta
  exact ⟨_, _, _, rfl, rfl, rfl⟩

/-- The value may be exactly what the application may come to. -/
def Valuation.Same (ρ : Valuation) (v : Value) (app : App) : Prop :=
  ∀ d, ρ.Denotes v d ↔ ρ.Yields app d

namespace Valuation

variable {ρ : Valuation} {op : BinaryOp} {left right v : Value} {width : Nat}

/-- The right operand is a datum that changes nothing. -/
theorem same_left (hρ : ρ.Typed) {y : Datum} (hright : ∀ d, ρ.Denotes right d ↔ d = y)
    (hop : ∀ x, x.ty = left.ty → op.apply x y = some x) : ρ.Same left (.binary op left right) := by
  intro d
  rw [yields_binary]
  constructor
  · intro hd
    exact ⟨d, y, hd, (hright y).2 rfl, hop d (hd.ty_eq hρ)⟩
  · rintro ⟨x, y', hx, hy', happly⟩
    rw [(hright y').1 hy', hop x (hx.ty_eq hρ)] at happly
    cases happly
    exact hx

/-- The left operand is a datum that changes nothing. -/
theorem same_right (hρ : ρ.Typed) {x : Datum} (hleft : ∀ d, ρ.Denotes left d ↔ d = x)
    (hop : ∀ y, y.ty = right.ty → op.apply x y = some y) :
    ρ.Same right (.binary op left right) := by
  intro d
  rw [yields_binary]
  constructor
  · intro hd
    exact ⟨x, d, (hleft x).2 rfl, hd, hop d (hd.ty_eq hρ)⟩
  · rintro ⟨x', y, hx', hy, happly⟩
    rw [(hleft x').1 hx', hop y (hy.ty_eq hρ)] at happly
    cases happly
    exact hy

/-- The operands leave only one result. -/
theorem same_const (hρ : ρ.Typed) {c : Datum} (hv : ∀ d, ρ.Denotes v d ↔ d = c)
    (hop : ∀ x y, ρ.Denotes left x → ρ.Denotes right y → op.apply x y = some c) :
    ρ.Same v (.binary op left right) := by
  intro d
  rw [yields_binary, hv d]
  constructor
  · rintro rfl
    have hx := denotes_denote hρ left
    have hy := denotes_denote hρ right
    exact ⟨_, _, hx, hy, hop _ _ hx hy⟩
  · rintro ⟨x, y, hx, hy, happly⟩
    rw [hop x y hx hy] at happly
    cases happly
    rfl

/-- The left operand decides the result. -/
theorem same_const_left (hρ : ρ.Typed) {c x : Datum} (hv : ∀ d, ρ.Denotes v d ↔ d = c)
    (hleft : ∀ d, ρ.Denotes left d ↔ d = x) (hop : ∀ y, y.ty = right.ty → op.apply x y = some c) :
    ρ.Same v (.binary op left right) := by
  refine same_const hρ hv fun x' y hx' hy => ?_
  rw [(hleft x').1 hx']
  exact hop y (hy.ty_eq hρ)

/-- The right operand decides the result. -/
theorem same_const_right (hρ : ρ.Typed) {c y : Datum} (hv : ∀ d, ρ.Denotes v d ↔ d = c)
    (hright : ∀ d, ρ.Denotes right d ↔ d = y) (hop : ∀ x, x.ty = left.ty → op.apply x y = some c) :
    ρ.Same v (.binary op left right) := by
  refine same_const hρ hv fun x y' hx hy' => ?_
  rw [(hright y').1 hy']
  exact hop x (hx.ty_eq hρ)

/-- Equal operands decide the result. -/
theorem same_const_self (hρ : ρ.Typed) {c : Datum} (hv : ∀ d, ρ.Denotes v d ↔ d = c)
    (hsame : left.surelyEqual right = true) (hop : ∀ x, x.ty = left.ty → op.apply x x = some c) :
    ρ.Same v (.binary op left right) := by
  obtain ⟨rfl, hclobbered⟩ := Value.surelyEqual_iff.1 hsame
  refine same_const hρ hv fun x y hx hy => ?_
  rw [(denotes_iff hclobbered x).1 hx, (denotes_iff hclobbered y).1 hy]
  exact hop _ (ty_denote hρ left)

/-- Equal operands are the result. -/
theorem same_self (hρ : ρ.Typed) (hsame : left.surelyEqual right = true)
    (hop : ∀ x, x.ty = left.ty → op.apply x x = some x) : ρ.Same left (.binary op left right) := by
  obtain ⟨rfl, hclobbered⟩ := Value.surelyEqual_iff.1 hsame
  refine same_const hρ (denotes_iff hclobbered) fun x y hx hy => ?_
  rw [(denotes_iff hclobbered x).1 hx, (denotes_iff hclobbered y).1 hy]
  exact hop _ (ty_denote hρ left)

/-- A zero literal denotes zero bits, and nothing else. -/
theorem denotes_of_isZero (hv : v.isZero = true) (hty : v.ty = .bv width) (d : Datum) :
    ρ.Denotes v d ↔ d = .bits width 0 := by
  cases v with
  | bv w bits =>
    cases hty
    simp only [Value.isZero, beq_iff_eq] at hv
    subst hv
    simp [Denotes, denote]
  | bool | reloc | initial | returnAddr | clobbered | assign => cases hv

/-- A literal one denotes one. -/
theorem denotes_of_isOne (hv : v.isOne = true) (hty : v.ty = .bv width) (d : Datum) :
    ρ.Denotes v d ↔ d = .bits width 1 := by
  cases v with
  | bv w bits =>
    cases hty
    simp only [Value.isOne, beq_iff_eq] at hv
    subst hv
    have hone : (1 : Word).setWidth width = 1 := by
      apply BitVec.eq_of_toNat_eq
      simp
    rw [denotes_iff rfl, denote, hone]
  | bool | reloc | initial | returnAddr | clobbered | assign => cases hv

/-- A literal mask denotes the bitvector of ones, since it has just the
ones of its width. -/
theorem denotes_of_isAllOnes (hwidth : (Ty.bv width).isValid = true) (hv : v.isAllOnes = true)
    (hty : v.ty = .bv width) (d : Datum) :
    ρ.Denotes v d ↔ d = .bits width (BitVec.allOnes width) := by
  cases v with
  | bv w bits =>
    cases hty
    simp only [Value.isAllOnes, beq_iff_eq] at hv
    subst hv
    have hle := ((Ty.isValid_bv width).1 hwidth).2
    have hmask : (Word.mask width).setWidth width = BitVec.allOnes width := by
      rw [Word.mask, BitVec.setWidth_setWidth_of_le _ hle, BitVec.setWidth_eq]
    simp [Denotes, denote, hmask]
  | bool | reloc | initial | returnAddr | clobbered | assign => cases hv

/-- The zero that a rule returns in place of an operand. -/
theorem denotes_zeroLike (hty : v.ty = .bv width) (d : Datum) :
    ρ.Denotes v.zeroLike d ↔ d = .bits width 0 := by
  rw [denotes_iff rfl, Value.zeroLike, hty, denote_ofWord]
  simp [Ty.width?]

/-- A boolean that is known denotes itself. -/
theorem denotes_of_bool? {b : Bool} (hv : v.bool? = some b) (d : Datum) :
    ρ.Denotes v d ↔ d = .bool b := by
  rw [Value.bool?_eq_some.1 hv]
  exact Iff.rfl

/-- A boolean literal leaves no other datum. -/
theorem denotes_bool (b : Bool) (d : Datum) : ρ.Denotes (.bool b) d ↔ d = .bool b := Iff.rfl

/-! ### The operators one by one

Each lemma goes through the rules of one operator in the order in which
`BinaryOp.simplify` tries them. -/

section
variable (hρ : ρ.Typed) (hl : left.ty = .bv width) (hr : right.ty = .bv width)
include hρ hl hr

/-- Conjunction. -/
theorem and_same (hwidth : (Ty.bv width).isValid = true)
    (h : BinaryOp.simplify .and left right = some v) : ρ.Same v (.binary .and left right) := by
  simp only [BinaryOp.simplify] at h
  split_ifs at h with hkeep hones hzero <;> cases h
  · -- An operand with itself, or with all ones.
    rcases Bool.or_eq_true_iff.1 hkeep with hsame | hones
    · exact same_self hρ hsame (Datum.forall_bits hl fun x => by simp [BinaryOp.onBits])
    · exact same_left hρ (denotes_of_isAllOnes hwidth hones hr)
        (Datum.forall_bits hl fun x => by simp [BinaryOp.onBits])
  · exact same_right hρ (denotes_of_isAllOnes hwidth hones hl)
      (Datum.forall_bits hr fun y => by simp [BinaryOp.onBits])
  · -- Zero on either side decides.
    rcases Bool.or_eq_true_iff.1 hzero with hzero | hzero
    · exact same_const_left hρ (denotes_zeroLike hl) (denotes_of_isZero hzero hl)
        (Datum.forall_bits hr fun y => by simp [BinaryOp.onBits])
    · exact same_const_right hρ (denotes_zeroLike hl) (denotes_of_isZero hzero hr)
        (Datum.forall_bits hl fun x => by simp [BinaryOp.onBits])

/-- Disjunction. -/
theorem or_same (hwidth : (Ty.bv width).isValid = true)
    (h : BinaryOp.simplify .or left right = some v) : ρ.Same v (.binary .or left right) := by
  simp only [BinaryOp.simplify] at h
  split_ifs at h with hkeep hzero hones hones <;> cases h
  · -- An operand with itself, or with zero.
    rcases Bool.or_eq_true_iff.1 hkeep with hsame | hzero
    · exact same_self hρ hsame (Datum.forall_bits hl fun x => by simp [BinaryOp.onBits])
    · exact same_left hρ (denotes_of_isZero hzero hr)
        (Datum.forall_bits hl fun x => by simp [BinaryOp.onBits])
  · exact same_right hρ (denotes_of_isZero hzero hl)
      (Datum.forall_bits hr fun y => by simp [BinaryOp.onBits])
  · -- All ones on either side decide.
    have hleft := denotes_of_isAllOnes (ρ := ρ) hwidth hones hl
    exact same_const_left hρ hleft hleft
      (Datum.forall_bits hr fun y => by simp [BinaryOp.onBits])
  · have hright := denotes_of_isAllOnes (ρ := ρ) hwidth hones hr
    exact same_const_right hρ hright hright
      (Datum.forall_bits hl fun x => by simp [BinaryOp.onBits])

/-- Exclusive disjunction. -/
theorem xor_same (h : BinaryOp.simplify .xor left right = some v) :
    ρ.Same v (.binary .xor left right) := by
  simp only [BinaryOp.simplify] at h
  split_ifs at h with hsame hzero hzero <;> cases h
  · -- Equal operands cancel.
    exact same_const_self hρ (denotes_zeroLike hl) hsame
      (Datum.forall_bits hl fun x => by simp [BinaryOp.onBits])
  · -- Zero on either side changes nothing.
    exact same_left hρ (denotes_of_isZero hzero hr)
      (Datum.forall_bits hl fun x => by simp [BinaryOp.onBits])
  · exact same_right hρ (denotes_of_isZero hzero hl)
      (Datum.forall_bits hr fun y => by simp [BinaryOp.onBits])

/-- Product. -/
theorem mul_same (h : BinaryOp.simplify .mul left right = some v) :
    ρ.Same v (.binary .mul left right) := by
  simp only [BinaryOp.simplify] at h
  split_ifs at h with hone hone hzero <;> cases h
  · -- One on either side changes nothing.
    exact same_left hρ (denotes_of_isOne hone hr)
      (Datum.forall_bits hl fun x => by simp [BinaryOp.onBits])
  · exact same_right hρ (denotes_of_isOne hone hl)
      (Datum.forall_bits hr fun y => by simp [BinaryOp.onBits])
  · -- Zero on either side decides.
    rcases Bool.or_eq_true_iff.1 hzero with hzero | hzero
    · exact same_const_left hρ (denotes_zeroLike hl) (denotes_of_isZero hzero hl)
        (Datum.forall_bits hr fun y => by simp [BinaryOp.onBits])
    · exact same_const_right hρ (denotes_zeroLike hl) (denotes_of_isZero hzero hr)
        (Datum.forall_bits hl fun x => by simp [BinaryOp.onBits])

/-- Sum. The last rule moves an address by a literal. -/
theorem add_same (hwidth : (Ty.bv width).isValid = true)
    (h : BinaryOp.simplify .add left right = some v) : ρ.Same v (.binary .add left right) := by
  have hle := ((Ty.isValid_bv width).1 hwidth).2
  simp only [BinaryOp.simplify] at h
  split_ifs at h with hzero hzero
  · cases h
    exact same_left hρ (denotes_of_isZero hzero hr)
      (Datum.forall_bits hl fun x => by simp [BinaryOp.onBits])
  · cases h
    exact same_right hρ (denotes_of_isZero hzero hl)
      (Datum.forall_bits hr fun y => by simp [BinaryOp.onBits])
  · -- The segment stays, and its offset takes up the distance.
    rcases Option.or_eq_some_iff.1 h with hmove | ⟨-, hmove⟩
    · obtain ⟨segment, offset, delta, rfl, rfl, rfl⟩ := Value.relocate_eq_some hl hr hmove
      refine same_const hρ (denotes_iff rfl) fun x y hx hy => ?_
      rw [(denotes_iff rfl x).1 hx, (denotes_iff rfl y).1 hy]
      simp [denote, BinaryOp.onBits, BitVec.setWidth_add _ _ hle, BitVec.add_assoc]
    · obtain ⟨segment, offset, delta, rfl, rfl, rfl⟩ := Value.relocate_eq_some hr hl hmove
      refine same_const hρ (denotes_iff rfl) fun x y hx hy => ?_
      rw [(denotes_iff rfl x).1 hx, (denotes_iff rfl y).1 hy]
      simp only [denote, BinaryOp.apply_bits, BinaryOp.onBits, BitVec.setWidth_add _ _ hle,
        Word.setWidth_keepLow]
      ac_rfl

/-- Difference. An address can only be moved from the left. -/
theorem sub_same (hwidth : (Ty.bv width).isValid = true)
    (h : BinaryOp.simplify .sub left right = some v) : ρ.Same v (.binary .sub left right) := by
  have hle := ((Ty.isValid_bv width).1 hwidth).2
  simp only [BinaryOp.simplify] at h
  split_ifs at h with hsame hzero
  · -- Equal operands cancel.
    cases h
    exact same_const_self hρ (denotes_zeroLike hl) hsame
      (Datum.forall_bits hl fun x => by simp [BinaryOp.onBits])
  · cases h
    exact same_left hρ (denotes_of_isZero hzero hr)
      (Datum.forall_bits hl fun x => by simp [BinaryOp.onBits])
  · -- Going back is going on by the opposite distance.
    obtain ⟨segment, offset, delta, rfl, rfl, rfl⟩ := Value.relocate_eq_some hl hr h
    refine same_const hρ (denotes_iff rfl) fun x y hx hy => ?_
    rw [(denotes_iff rfl x).1 hx, (denotes_iff rfl y).1 hy]
    simp [denote, BinaryOp.onBits, BitVec.setWidth_add _ _ hle, BitVec.setWidth_neg_of_le hle,
      BitVec.sub_eq_add_neg, BitVec.add_assoc]

/-- The three shifts have one pair of rules. -/
theorem shift_same (hop : op = .shl ∨ op = .lshr ∨ op = .ashr)
    (h : op.simplify left right = some v) : ρ.Same v (.binary op left right) := by
  have hrules : op.simplify left right =
      if right.isZero then some left else if left.isZero then some left.zeroLike else none := by
    rcases hop with rfl | rfl | rfl <;> rfl
  rw [hrules] at h
  split_ifs at h with hzero hzero <;> cases h
  · -- A shift by nothing.
    exact same_left hρ (denotes_of_isZero hzero hr)
      (Datum.forall_bits hl fun x => by rcases hop with rfl | rfl | rfl <;> simp [BinaryOp.onBits])
  · -- Nothing to be shifted.
    exact same_const_left hρ (denotes_zeroLike hl) (denotes_of_isZero hzero hl)
      (Datum.forall_bits hr fun y => by rcases hop with rfl | rfl | rfl <;> simp [BinaryOp.onBits])

/-- The comparisons decide equal operands. The unsigned ones also know that
zero is least. -/
theorem order_same (hop : op = .ult ∨ op = .ule ∨ op = .slt ∨ op = .sle)
    (h : op.simplify left right = some v) : ρ.Same v (.binary op left right) := by
  rcases hop with rfl | rfl | rfl | rfl <;> simp only [BinaryOp.simplify] at h <;>
    split_ifs at h with hrule <;> cases h
  · -- Nothing is below itself or below zero.
    rcases Bool.or_eq_true_iff.1 hrule with hsame | hzero
    · exact same_const_self hρ (denotes_bool false) hsame
        (Datum.forall_bits hl fun x => by simp [BinaryOp.onBits])
    · exact same_const_right hρ (denotes_bool false) (denotes_of_isZero hzero hr)
        (Datum.forall_bits hl fun x => by simp [BinaryOp.onBits])
  · -- Zero is at most everything.
    rcases Bool.or_eq_true_iff.1 hrule with hsame | hzero
    · exact same_const_self hρ (denotes_bool true) hsame
        (Datum.forall_bits hl fun x => by simp [BinaryOp.onBits])
    · exact same_const_left hρ (denotes_bool true) (denotes_of_isZero hzero hl)
        (Datum.forall_bits hr fun y => by simp [BinaryOp.onBits])
  · -- The signed comparisons have the rule for equal operands only.
    exact same_const_self hρ (denotes_bool false) hrule
      (Datum.forall_bits hl fun x => by simp [BinaryOp.onBits])
  · exact same_const_self hρ (denotes_bool true) hrule
      (Datum.forall_bits hl fun x => by simp [BinaryOp.onBits])

end

/-- Equality and its negation take operands of any type. -/
theorem equality_same (hρ : ρ.Typed) (hop : op = .eq ∨ op = .ne)
    (h : op.simplify left right = some v) : ρ.Same v (.binary op left right) := by
  rcases hop with rfl | rfl <;> simp only [BinaryOp.simplify] at h <;>
    split_ifs at h with hsame <;> cases h
  · refine same_const_self hρ (denotes_bool true) hsame fun x _ => ?_
    cases x <;> simp [BinaryOp.onBits, BinaryOp.onBools]
  · refine same_const_self hρ (denotes_bool false) hsame fun x _ => ?_
    cases x <;> simp [BinaryOp.onBits, BinaryOp.onBools]

section
variable (hρ : ρ.Typed) (hl : left.ty = .bool) (hr : right.ty = .bool)
include hρ hl hr

/-- Conjunction of booleans. -/
theorem boolAnd_same (h : BinaryOp.simplify .boolAnd left right = some v) :
    ρ.Same v (.binary .boolAnd left right) := by
  simp only [BinaryOp.simplify, Bool.or_eq_true, decide_eq_true_eq] at h
  split_ifs at h with hfalse htrue hkeep <;> cases h
  · -- False on either side decides.
    rcases hfalse with hfalse | hfalse
    · exact same_const_left hρ (denotes_bool false) (denotes_of_bool? hfalse)
        (Datum.forall_bool hr fun b => by simp [BinaryOp.onBools])
    · exact same_const_right hρ (denotes_bool false) (denotes_of_bool? hfalse)
        (Datum.forall_bool hl fun a => by simp [BinaryOp.onBools])
  · exact same_right hρ (denotes_of_bool? htrue)
      (Datum.forall_bool hr fun b => by simp [BinaryOp.onBools])
  · -- True changes nothing, and neither does an operand with itself.
    rcases hkeep with htrue | hsame
    · exact same_left hρ (denotes_of_bool? htrue)
        (Datum.forall_bool hl fun a => by simp [BinaryOp.onBools])
    · exact same_self hρ hsame (Datum.forall_bool hl fun a => by simp [BinaryOp.onBools])

/-- Disjunction of booleans. -/
theorem boolOr_same (h : BinaryOp.simplify .boolOr left right = some v) :
    ρ.Same v (.binary .boolOr left right) := by
  simp only [BinaryOp.simplify, Bool.or_eq_true, decide_eq_true_eq] at h
  split_ifs at h with htrue hfalse hkeep <;> cases h
  · -- True on either side decides.
    rcases htrue with htrue | htrue
    · exact same_const_left hρ (denotes_bool true) (denotes_of_bool? htrue)
        (Datum.forall_bool hr fun b => by simp [BinaryOp.onBools])
    · exact same_const_right hρ (denotes_bool true) (denotes_of_bool? htrue)
        (Datum.forall_bool hl fun a => by simp [BinaryOp.onBools])
  · exact same_right hρ (denotes_of_bool? hfalse)
      (Datum.forall_bool hr fun b => by simp [BinaryOp.onBools])
  · -- False changes nothing, and neither does an operand with itself.
    rcases hkeep with hfalse | hsame
    · exact same_left hρ (denotes_of_bool? hfalse)
        (Datum.forall_bool hl fun a => by simp [BinaryOp.onBools])
    · exact same_self hρ hsame (Datum.forall_bool hl fun a => by simp [BinaryOp.onBools])

/-- Exclusive disjunction of booleans. -/
theorem boolXor_same (h : BinaryOp.simplify .boolXor left right = some v) :
    ρ.Same v (.binary .boolXor left right) := by
  simp only [BinaryOp.simplify] at h
  split_ifs at h with hsame hfalse hfalse <;> cases h
  · exact same_const_self hρ (denotes_bool false) hsame
      (Datum.forall_bool hl fun a => by simp [BinaryOp.onBools])
  · exact same_right hρ (denotes_of_bool? hfalse)
      (Datum.forall_bool hr fun b => by simp [BinaryOp.onBools])
  · exact same_left hρ (denotes_of_bool? hfalse)
      (Datum.forall_bool hl fun a => by simp [BinaryOp.onBools])

end

/-! ### Whole applications -/

/-- Every identity keeps the meaning of the application. -/
theorem simplify_same (hρ : ρ.Typed) {ty : Ty}
    (hty : (App.binary op left right).resultType = .ok ty)
    (h : op.simplify left right = some v) : ρ.Same v (.binary op left right) := by
  obtain ⟨hvalid, hright, hresult⟩ := App.resultType_binary.1 hty
  -- The type of the left operand says which operators there are.
  cases hl : left.ty with
  | bool =>
    rw [hl] at hright hresult
    cases op with
    | eq => exact equality_same hρ (.inl rfl) h
    | ne => exact equality_same hρ (.inr rfl) h
    | boolAnd => exact boolAnd_same hρ hl hright h
    | boolOr => exact boolOr_same hρ hl hright h
    | boolXor => exact boolXor_same hρ hl hright h
    | add | sub | mul | and | or | xor | shl | lshr | ashr | ult | ule | slt | sle => cases hresult
  | bv width =>
    rw [hl] at hvalid hright hresult
    cases op with
    | add => exact add_same hρ hl hright hvalid h
    | sub => exact sub_same hρ hl hright hvalid h
    | mul => exact mul_same hρ hl hright h
    | and => exact and_same hρ hl hright hvalid h
    | or => exact or_same hρ hl hright hvalid h
    | xor => exact xor_same hρ hl hright h
    | shl => exact shift_same hρ hl hright (.inl rfl) h
    | lshr => exact shift_same hρ hl hright (.inr (.inl rfl)) h
    | ashr => exact shift_same hρ hl hright (.inr (.inr rfl)) h
    | eq => exact equality_same hρ (.inl rfl) h
    | ne => exact equality_same hρ (.inr rfl) h
    | ult => exact order_same hρ hl hright (.inl rfl) h
    | ule => exact order_same hρ hl hright (.inr (.inl rfl)) h
    | slt => exact order_same hρ hl hright (.inr (.inr (.inl rfl))) h
    | sle => exact order_same hρ hl hright (.inr (.inr (.inr rfl))) h
    | boolAnd | boolOr | boolXor => cases hresult

/-- Nothing is clobbered, so both sides are one datum each. -/
theorem same_of_apply {app : App} (hops : ∀ u ∈ app.operands, u.isClobbered = false)
    (hv : v.isClobbered = false) (h : app.apply (app.operands.map ρ.denote) = some (ρ.denote v)) :
    ρ.Same v app := by
  intro d
  rw [denotes_iff hv, yields_iff hops, h, Option.some.injEq, eq_comm]

/-- Folding a unary application: complements and opposites of literals. -/
theorem unary_sound {op : UnaryOp} {arg : Value} {ty : Ty}
    (hty : (App.unary op arg).resultType = .ok ty) (h : op.fold arg = some v) :
    v.Masked ∧ ρ.Same v (.unary op arg) := by
  obtain ⟨hvalid, -⟩ := App.resultType_unary.1 hty
  cases arg with
  | bool b =>
    cases op <;> cases h
    exact ⟨trivial, same_of_apply (by simp [App.operands, Value.isClobbered]) rfl rfl⟩
  | bv width w =>
    have hle := ((Ty.isValid_bv width).1 hvalid).2
    cases op <;> cases h <;>
      refine ⟨Value.masked_ofWord _ _,
        same_of_apply (by simp [App.operands, Value.isClobbered]) rfl ?_⟩
    · simp [App.apply, App.operands, UnaryOp.apply, BitVec.setWidth_not hle]
    · simp [App.apply, App.operands, UnaryOp.apply, BitVec.setWidth_neg_of_le hle]
  | reloc | initial | returnAddr | clobbered | assign => cases op <;> cases h

/-- Folding a change of width: none at all, or that of a literal. -/
theorem ext_sound (hρ : ρ.Typed) {op : ExtOp} {arg : Value} {target : Nat} {ty : Ty}
    (hty : (App.ext op arg target).resultType = .ok ty) (harg : arg.Masked)
    (h : op.fold arg target = some v) : v.Masked ∧ ρ.Same v (.ext op arg target) := by
  obtain ⟨hvalid, hresult⟩ := App.resultType_ext.1 hty
  obtain ⟨-, -, -, htarget, -⟩ := ExtOp.resultType_eq_ok hresult
  unfold ExtOp.fold at h
  split at h
  · -- The width stays, and so does every datum of that width.
    rename_i heq
    have hop (x : Datum) (hx : x.ty = arg.ty) : op.apply target x = some x := by
      obtain ⟨bits, rfl⟩ := Datum.exists_bits (hx.trans heq)
      cases op <;> simp [ExtOp.apply]
    cases h
    refine ⟨harg, fun d => ?_⟩
    rw [yields_ext]
    constructor
    · intro hd
      exact ⟨d, hd, hop d (hd.ty_eq hρ)⟩
    · rintro ⟨x, hx, happly⟩
      rw [hop x (hx.ty_eq hρ)] at happly
      cases happly
      exact hx
  · cases arg with
    | bv width w =>
      have hle := ((Ty.isValid_bv width).1 hvalid).2
      have htle := ((Ty.isValid_bv target).1 htarget).2
      cases h
      cases op <;> refine ⟨Value.masked_ofWord _ _,
        same_of_apply (by simp [App.operands, Value.isClobbered]) rfl ?_⟩
      · -- Zeros are added, bits are dropped, or the sign is repeated.
        simp [App.apply, App.operands, ExtOp.apply, Word.setWidth_setWidth_of_masked harg]
      · simp [App.apply, App.operands, ExtOp.apply, Word.setWidth_setWidth_of_masked harg]
      · simp [App.apply, App.operands, ExtOp.apply, Word.setWidth_ofSigned htle,
          Word.toSigned_eq_toInt hle, BitVec.signExtend]
    | bool | reloc | initial | returnAddr | clobbered | assign => cases h

/-- Folding a choice: the condition is known, or it makes no difference. -/
theorem select_sound (hρ : ρ.Typed) {cond onTrue onFalse : Value} {ty : Ty}
    (hty : (App.select cond onTrue onFalse).resultType = .ok ty) (htrue : onTrue.Masked)
    (hfalse : onFalse.Masked) (h : cond.foldSelect onTrue onFalse = some v) :
    v.Masked ∧ ρ.Same v (.select cond onTrue onFalse) := by
  obtain ⟨-, hcond, -, -⟩ := App.resultType_select.1 hty
  have hx := denotes_denote hρ onTrue
  have hy := denotes_denote hρ onFalse
  unfold Value.foldSelect at h
  split at h
  · -- The arm not taken may be anything: some datum is all it takes.
    rename_i c
    cases h
    cases c with
    | true =>
      refine ⟨htrue, fun d => ?_⟩
      rw [yields_select]
      constructor
      · intro hd
        exact ⟨.bool true, d, _, rfl, hd, hy, rfl⟩
      · rintro ⟨b, x, y, rfl, hd, -, hchoose⟩
        cases hchoose
        exact hd
    | false =>
      refine ⟨hfalse, fun d => ?_⟩
      rw [yields_select]
      constructor
      · intro hd
        exact ⟨.bool false, _, d, rfl, hx, hd, rfl⟩
      · rintro ⟨b, x, y, rfl, -, hd, hchoose⟩
        cases hchoose
        exact hd
  · -- Equal arms are one datum, whatever the condition is.
    split_ifs at h with hsame
    cases h
    obtain ⟨rfl, hclear⟩ := Value.surelyEqual_iff.1 hsame
    have hchoose (c : Datum) (hc : ρ.Denotes cond c) (x : Datum) : c.choose x x = some x := by
      obtain ⟨b, rfl⟩ := Datum.exists_bool ((hc.ty_eq hρ).trans hcond)
      cases b <;> rfl
    refine ⟨htrue, fun d => ?_⟩
    rw [yields_select]
    constructor
    · intro hd
      exact ⟨_, d, d, denotes_denote hρ cond, hd, hd, hchoose _ (denotes_denote hρ cond) d⟩
    · rintro ⟨c, x, y, hc, hx, hy, happly⟩
      rw [(denotes_iff hclear x).1 hx, (denotes_iff hclear y).1 hy, hchoose c hc] at happly
      cases happly
      exact (denotes_iff hclear _).2 rfl

/-- Folding a binary application: two literals, or an identity. -/
theorem binary_sound (hρ : ρ.Typed) {ty : Ty}
    (hty : (App.binary op left right).resultType = .ok ty) (hleft : left.Masked)
    (hright : right.Masked) (h : op.fold left right = some v) :
    v.Masked ∧ ρ.Same v (.binary op left right) := by
  obtain ⟨hvalid, heq, -⟩ := App.resultType_binary.1 hty
  unfold BinaryOp.fold at h
  split at h
  · rename_i width a width' b
    cases heq
    obtain ⟨hclear, hmasked, hbits⟩ := BinaryOp.evalWords_sound hvalid hleft hright h ρ
    refine ⟨hmasked, same_of_apply (by simp [App.operands, Value.isClobbered]) hclear ?_⟩
    simp [App.apply, App.operands, hbits]
  · obtain ⟨hclear, hmasked, hbools⟩ := BinaryOp.evalBools_sound h ρ
    refine ⟨hmasked, same_of_apply (by simp [App.operands, Value.isClobbered]) hclear ?_⟩
    simp [App.apply, App.operands, hbools]
  · -- The identities return an operand or a masked constant.
    refine ⟨?_, simplify_same hρ hty h⟩
    rcases BinaryOp.simplify_cases h with ⟨-, hv⟩ | rfl | rfl
    · exact hv
    · exact hleft
    · exact hright

/-- A folded value is masked and keeps the meaning of the
application. -/
theorem fold_same (hρ : ρ.Typed) {app : App} {ty : Ty} (hmasked : ∀ u ∈ app.operands, u.Masked)
    (hty : app.resultType = .ok ty) (h : app.fold = some v) : v.Masked ∧ ρ.Same v app := by
  cases app with
  | unary op arg => exact unary_sound hty h
  | binary op left right =>
    exact binary_sound hρ hty (hmasked _ (by simp [App.operands]))
      (hmasked _ (by simp [App.operands])) h
  | ext op arg target => exact ext_sound hρ hty (hmasked _ (by simp [App.operands])) h
  | select cond onTrue onFalse =>
    exact select_sound hρ hty (hmasked _ (by simp [App.operands]))
      (hmasked _ (by simp [App.operands])) h

end Valuation

/-! ### Clobbered operands -/

/-- A clobbered value is not certain to be the same as anything. -/
theorem Value.surelyEqual_clobbered (ty : Ty) (v : Value) :
    (Value.clobbered ty).surelyEqual v = false := by
  simp [surelyEqual, isClobbered]

/-- No operator folds two clobbered operands. -/
theorem BinaryOp.fold_clobbered (op : BinaryOp) (s t : Ty) :
    op.fold (.clobbered s) (.clobbered t) = none := by
  -- Every rule wants a literal or operands that are certain to be equal.
  cases op <;> simp [fold, simplify, Value.surelyEqual_clobbered, Value.isAllOnes, Value.isZero,
    Value.isOne, Value.bool?, Value.relocate]

/-- A choice between two clobbered values is folded only by its condition.
-/
theorem Value.foldSelect_clobbered {cond v : Value} {s t : Ty}
    (h : cond.foldSelect (.clobbered s) (.clobbered t) = some v) : ∃ c, cond = .bool c := by
  unfold foldSelect at h
  split at h
  · exact ⟨_, rfl⟩
  · simp [surelyEqual_clobbered] at h

/-! ### Soundness -/

/-- Folding is sound. Take a well-typed application whose literals are
masked, any place for the segments and any data of the right types for
the symbols. A folded value then has the type of the application, is
masked, and may be exactly the data that the application may come to
when every operand that is clobbered is chosen for itself. Two clobbered
operands are never folded together; of a choice between them one is
taken only where the condition is known. -/
theorem fold_sound {ρ : Valuation} (hρ : ρ.Typed) {app : App} {ty : Ty} {v : Value}
    (hmasked : ∀ u ∈ app.operands, u.Masked) (hty : app.resultType = .ok ty)
    (hfold : app.fold = some v) :
    v.ty = ty ∧ v.Masked ∧ (∀ d, ρ.Denotes v d ↔ ρ.Yields app d) ∧
      (∀ op s t, app ≠ .binary op (.clobbered s) (.clobbered t)) ∧
      (∀ cond s t, app = .select cond (.clobbered s) (.clobbered t) → ∃ c, cond = .bool c) := by
  obtain ⟨hv, hsame⟩ := Valuation.fold_same hρ hmasked hty hfold
  refine ⟨?_, hv, hsame, ?_, ?_⟩
  · -- Operators respect types, so the type can be read off any datum.
    have hd := Valuation.denotes_denote hρ v
    rw [← hd.ty_eq hρ]
    exact ((hsame _).1 hd).ty_eq hρ hty
  · rintro op s t rfl
    rw [App.fold, op.fold_clobbered] at hfold
    cases hfold
  · rintro cond s t rfl
    exact Value.foldSelect_clobbered hfold

/-- Clearing no bit of a clobbered byte leaves it as free as it was. -/
theorem fold_sound_and_ones :
    (Valuation.zeros 0x1000).Typed ∧
      (∀ u ∈ (App.binary .and (.clobbered (.bv 8)) (.bv 8 0xff)).operands, u.Masked) ∧
      (App.binary .and (.clobbered (.bv 8)) (.bv 8 0xff)).resultType = .ok (.bv 8) ∧
      (App.binary .and (.clobbered (.bv 8)) (.bv 8 0xff)).fold = some (.clobbered (.bv 8)) ∧
      ∀ d, (Valuation.zeros 0x1000).Denotes (.clobbered (.bv 8)) d ↔
        (Valuation.zeros 0x1000).Yields (.binary .and (.clobbered (.bv 8)) (.bv 8 0xff)) d := by
  have hmasked : ∀ u ∈ (App.binary .and (.clobbered (.bv 8)) (.bv 8 0xff)).operands, u.Masked := by
    decide
  exact ⟨Valuation.typed_zeros _, hmasked, rfl, rfl,
    (fold_sound (Valuation.typed_zeros _) hmasked rfl rfl).2.2.1⟩

end FlowRecovery
