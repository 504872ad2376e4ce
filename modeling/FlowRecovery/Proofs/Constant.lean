import FlowRecovery.Proofs.Execution
import FlowRecovery.Proofs.Typing

/-!
# `FlowRecovery.Proofs.Constant`: constant expressions vanish

A well-typed tree over literals comes to a literal. It leaves no
statement behind, takes no number and needs no open block.

Folding looks at one application at a time and gives up on many of them,
but never on one whose operands are all literals (`App.fold_literals`):
there is a rule for every operator on every type it takes. The rule gives
a literal again, so the argument goes up the tree. That the literal is the
right one comes from the meaning of folded values (`Valuation.fold_same`);
what remains is that a masked literal and its datum determine each other
(`Value.eq_literal`).
-/

set_option autoImplicit false

namespace FlowRecovery

/-! ### Literals and data -/

/-- The datum of a literal. -/
def Value.datum? : Value → Option Datum
  | .bool b => some (.bool b)
  | .bv width w => some (.bits width (w.setWidth width))
  | _ => none

/-- The literal of a datum. -/
def Datum.literal : Datum → Value
  | .bool b => .bool b
  | .bits width x => .bv width (x.setWidth 64)

namespace Value

/-- Every valuation gives a literal its own datum. -/
theorem datum?_of_isLiteral {v : Value} (h : v.isLiteral = true) (ρ : Valuation) :
    v.datum? = some (ρ.denote v) := by
  cases v with
  | bool | bv => rfl
  | reloc | initial | returnAddr | clobbered | assign => cases h

/-- A literal is not clobbered. -/
theorem isClobbered_of_isLiteral {v : Value} (h : v.isLiteral = true) : v.isClobbered = false := by
  cases v with
  | clobbered => cases h
  | bool | bv | reloc | initial | returnAddr | assign => rfl

/-- Nothing of a masked literal is lost in its datum. -/
theorem eq_literal {v : Value} (hmasked : v.Masked) {d : Datum} (h : v.datum? = some d) :
    v = d.literal := by
  cases v with
  | bool b =>
    cases h
    rfl
  | bv width w =>
    cases h
    show Value.bv width w = .bv width ((w.setWidth width).setWidth 64)
    rw [Word.setWidth_setWidth_of_masked hmasked, BitVec.setWidth_eq]
  | reloc | initial | returnAddr | clobbered | assign => cases h

/-- A literal truth value. -/
theorem exists_bool {v : Value} (h : v.isLiteral = true) (hty : v.ty = .bool) :
    ∃ b, v = .bool b := by
  cases v with
  | bool b => exact ⟨b, rfl⟩
  | bv width w => cases hty
  | reloc | initial | returnAddr | clobbered | assign => cases h

/-- A literal of a width. -/
theorem exists_bv {v : Value} (h : v.isLiteral = true) {width : Nat} (hty : v.ty = .bv width) :
    ∃ w, v = .bv width w := by
  cases v with
  | bool b => cases hty
  | bv width' w =>
    cases hty
    exact ⟨w, rfl⟩
  | reloc | initial | returnAddr | clobbered | assign => cases h

end Value

/-! ### Every operator folds on literals -/

/-- A unary operator on a literal that it takes. Which operators take it is
decided by the type. -/
theorem UnaryOp.fold_literal {op : UnaryOp} {arg : Value} {ty : Ty}
    (hty : op.resultType arg.ty = .ok ty) (harg : arg.isLiteral = true) :
    ∃ v, op.fold arg = some v ∧ v.isLiteral = true := by
  cases hargty : arg.ty with
  | bool =>
    obtain ⟨b, rfl⟩ := Value.exists_bool harg hargty
    cases op with
    | boolNot => exact ⟨_, rfl, rfl⟩
    | not | neg => cases hty
  | bv width =>
    obtain ⟨w, rfl⟩ := Value.exists_bv harg hargty
    cases op with
    | not | neg => exact ⟨_, rfl, rfl⟩
    | boolNot => cases hty

/-- An extension or truncation of a literal. -/
theorem ExtOp.fold_literal {op : ExtOp} {arg : Value} {target : Nat} {ty : Ty}
    (hty : op.resultType arg.ty target = .ok ty) (harg : arg.isLiteral = true) :
    ∃ v, op.fold arg target = some v ∧ v.isLiteral = true := by
  obtain ⟨width, hargty, -, -, -⟩ := ExtOp.resultType_eq_ok hty
  obtain ⟨w, rfl⟩ := Value.exists_bv harg hargty
  unfold fold
  split
  · -- To its own width a literal stays as it is.
    exact ⟨_, rfl, harg⟩
  · cases op with
    | trunc | uext | sext => exact ⟨_, rfl, rfl⟩

/-- A binary operator on two literals of one type. Valid widths are needed,
since words are evaluated only at these. -/
theorem BinaryOp.fold_literals {op : BinaryOp} {left right : Value} {ty : Ty}
    (hvalid : left.ty.isValid = true) (heq : right.ty = left.ty)
    (hty : op.resultType left.ty = .ok ty) (hleft : left.isLiteral = true)
    (hright : right.isLiteral = true) : ∃ v, op.fold left right = some v ∧ v.isLiteral = true := by
  cases hleftty : left.ty with
  | bool =>
    rw [hleftty] at heq hty
    obtain ⟨a, rfl⟩ := Value.exists_bool hleft hleftty
    obtain ⟨b, rfl⟩ := Value.exists_bool hright heq
    cases op with
    | boolAnd | boolOr | boolXor | eq | ne => exact ⟨_, rfl, rfl⟩
    | add | sub | mul | and | or | xor | shl | lshr | ashr | ult | ule | slt | sle => cases hty
  | bv width =>
    rw [hleftty] at heq hty hvalid
    obtain ⟨a, rfl⟩ := Value.exists_bv hleft hleftty
    obtain ⟨b, rfl⟩ := Value.exists_bv hright heq
    -- Two literal words are evaluated, and no algebraic rule is tried.
    show ∃ v, op.evalWords width a b = some v ∧ v.isLiteral = true
    simp only [evalWords, hvalid, Bool.not_true, Bool.false_eq_true, if_false]
    cases op with
    | boolAnd | boolOr | boolXor => cases hty
    | add | sub | mul | and | or | xor | shl | lshr | ashr | eq | ne | ult | ule | slt | sle =>
      exact ⟨_, rfl, rfl⟩

/-- A well-typed application of literals folds to a literal. -/
theorem App.fold_literals {app : App} {ty : Ty} (hty : app.resultType = .ok ty)
    (hops : ∀ u ∈ app.operands, u.isLiteral = true) :
    ∃ v, app.fold = some v ∧ v.isLiteral = true := by
  cases app with
  | unary op arg =>
    simp only [operands, List.forall_mem_singleton] at hops
    exact UnaryOp.fold_literal (resultType_unary.1 hty).2 hops
  | ext op arg target =>
    simp only [operands, List.forall_mem_singleton] at hops
    exact ExtOp.fold_literal (resultType_ext.1 hty).2 hops
  | binary op left right =>
    simp only [operands, List.forall_mem_cons] at hops
    obtain ⟨hleft, hright, -⟩ := hops
    obtain ⟨hvalid, heq, hop⟩ := resultType_binary.1 hty
    exact BinaryOp.fold_literals hvalid heq hop hleft hright
  | select cond onTrue onFalse =>
    simp only [operands, List.forall_mem_cons] at hops
    obtain ⟨hcond, htrue, hfalse, -⟩ := hops
    obtain ⟨-, hbool, -, -⟩ := resultType_select.1 hty
    obtain ⟨c, rfl⟩ := Value.exists_bool hcond hbool
    cases c with
    | true => exact ⟨onTrue, rfl, htrue⟩
    | false => exact ⟨onFalse, rfl, hfalse⟩

/-! ### Evaluation -/

/-- A literal as folding leaves it. -/
def Value.IsNumeral (v : Value) : Prop :=
  v.isLiteral = true ∧ v.Masked

/-- Whether a value is a numeral can be computed. -/
instance : DecidablePred Value.IsNumeral := fun _ => inferInstanceAs (Decidable (_ ∧ _))

namespace Build

/-- An application of literals comes to a literal on any builder, and the
builder stays as it is. -/
theorem evaluateApp_numerals (app : App) {ty : Ty} (hty : app.resultType = .ok ty)
    (hops : ∀ u ∈ app.operands, u.IsNumeral) {ρ : Valuation} (hρ : ρ.Typed) :
    ∃ v : Value, v.IsNumeral ∧ v.ty = ty ∧ (∀ b, evaluateApp app b = (.ok v, b)) ∧
      app.apply (app.operands.map ρ.denote) = some (ρ.denote v) := by
  obtain ⟨v, hfold, hlit⟩ := App.fold_literals hty fun u hu => (hops u hu).1
  obtain ⟨hmasked, hsame⟩ := Valuation.fold_same hρ (fun u hu => (hops u hu).2) hty hfold
  refine ⟨v, ⟨hlit, hmasked⟩, App.ty_of_fold hty hfold, fun b => ?_, ?_⟩
  · exact evaluateApp_eq_ok_iff.2 ⟨ty, hty, Or.inl ⟨hfold, rfl⟩⟩
  · -- Literals are not clobbered, so there is one datum on both sides.
    have hclear := fun u hu => Value.isClobbered_of_isLiteral (hops u hu).1
    rw [← Valuation.yields_iff hclear, ← hsame]
    exact Valuation.denotes_denote hρ v

/-- The same for a tree, from the leaves up. -/
theorem evaluate_numerals {e : Expr Value} {ty : Ty} (hty : e.HasType ty)
    (hleaves : e.All Value.IsNumeral) {ρ : Valuation} (hρ : ρ.Typed) :
    ∃ v : Value, v.IsNumeral ∧ v.ty = ty ∧ (∀ b, evaluate e b = (.ok v, b)) ∧
      e.eval Value.datum? = some (ρ.denote v) := by
  induction hty with
  | leaf v => exact ⟨v, hleaves, rfl, fun b => rfl, Value.datum?_of_isLiteral hleaves.1 ρ⟩
  | @unary op arg _ ty _ h ih =>
    -- The operand has come to a literal, and the application to another.
    obtain ⟨a, ha, rfl, hevaluate, heval⟩ := ih hleaves
    obtain ⟨v, hv, hvty, happ, happly⟩ :=
      evaluateApp_numerals (.unary op a) h (by simpa [App.operands] using ha) hρ
    refine ⟨v, hv, hvty, fun b => ?_, ?_⟩
    · rw [evaluate, bind_apply_of_ok (hevaluate b), happ]
    · rw [Expr.eval, heval]
      exact happly
  | @ext op arg width _ ty _ h ih =>
    obtain ⟨a, ha, rfl, hevaluate, heval⟩ := ih hleaves
    obtain ⟨v, hv, hvty, happ, happly⟩ :=
      evaluateApp_numerals (.ext op a width) h (by simpa [App.operands] using ha) hρ
    refine ⟨v, hv, hvty, fun b => ?_, ?_⟩
    · rw [evaluate, bind_apply_of_ok (hevaluate b), happ]
    · rw [Expr.eval, heval]
      exact happly
  | @binary op left right _ _ ty _ _ h ihl ihr =>
    obtain ⟨l, hl, rfl, hevaluatel, hevall⟩ := ihl hleaves.1
    obtain ⟨r, hr, rfl, hevaluater, hevalr⟩ := ihr hleaves.2
    obtain ⟨v, hv, hvty, happ, happly⟩ :=
      evaluateApp_numerals (.binary op l r) h (by simpa [App.operands] using ⟨hl, hr⟩) hρ
    refine ⟨v, hv, hvty, fun b => ?_, ?_⟩
    · rw [evaluate, bind_apply_of_ok (hevaluatel b), bind_apply_of_ok (hevaluater b), happ]
    · rw [Expr.eval, hevall, hevalr]
      exact happly
  | @select cond onTrue onFalse _ _ _ ty _ _ _ h ihc iht ihf =>
    obtain ⟨c, hc, rfl, hevaluatec, hevalc⟩ := ihc hleaves.1
    obtain ⟨t, ht, rfl, hevaluatet, hevalt⟩ := iht hleaves.2.1
    obtain ⟨f, hf, rfl, hevaluatef, hevalf⟩ := ihf hleaves.2.2
    obtain ⟨v, hv, hvty, happ, happly⟩ :=
      evaluateApp_numerals (.select c t f) h (by simpa [App.operands] using ⟨hc, ht, hf⟩) hρ
    refine ⟨v, hv, hvty, fun b => ?_, ?_⟩
    · rw [evaluate, bind_apply_of_ok (hevaluatec b), bind_apply_of_ok (hevaluatet b),
        bind_apply_of_ok (hevaluatef b), happ]
    · rw [Expr.eval, hevalc, hevalt, hevalf]
      exact happly

/-- A well-typed tree of masked literals comes to the literal of its
datum. Whether or not a block is open, nothing changes: neither the
builder nor the run around it. -/
theorem evaluate_constant {e : Expr Value} (hleaves : e.All Value.IsNumeral) {ty : Ty}
    (hty : e.HasType ty) :
    ∃ d, e.eval Value.datum? = some d ∧ d.literal.datum? = some d ∧ d.literal.IsNumeral ∧
      d.literal.ty = ty ∧ (∀ b, evaluate e b = (.ok d.literal, b)) ∧
      ∀ p, Recipe.build (evaluate e) p = (.ok d.literal, p) := by
  -- Literals mean the same under every valuation, so any will do.
  have hzeros := Valuation.typed_zeros 0
  obtain ⟨v, hv, hvty, hevaluate, heval⟩ := evaluate_numerals hty hleaves hzeros
  have hdatum := Value.datum?_of_isLiteral hv.1 (Valuation.zeros 0)
  have hliteral := Value.eq_literal hv.2 hdatum
  rw [← heval] at hdatum
  refine ⟨(Valuation.zeros 0).denote v, heval, ?_⟩
  rw [← hliteral]
  refine ⟨hdatum.trans heval, hv, hvty, hevaluate, fun p => ?_⟩
  rw [Recipe.build_apply, hevaluate]

/-- If the byte `0x80` is negative, then `-16` shifted to the right by more
than its width, in 16 bits. -/
def constantTree : Expr Value :=
  let isNegative := .binary .slt (.ext .sext (.leaf (.bv 8 0x80)) 32) (.leaf (.bv 32 0))
  let shifted := .binary .ashr (.unary .neg (.leaf (.bv 32 0x10))) (.leaf (.bv 32 40))
  .select (.binary .boolXor isNegative (.binary .eq (.leaf (.bool true)) (.leaf (.bool false))))
    (.ext .trunc shifted 16) (.ext .uext (.leaf (.bv 8 0xff)) 16)

/-- The byte is negative, so the shifted number is taken: all ones, cut to
16 bits. -/
theorem evaluate_constant_tree :
    constantTree.All Value.IsNumeral ∧ constantTree.HasType (.bv 16) ∧
    ∀ b, evaluate constantTree b = (.ok (.bv 16 0xffff), b) := by
  have hleaves : constantTree.All Value.IsNumeral := by
    simp only [constantTree, Expr.All]
    decide
  have hty : constantTree.HasType (.bv 16) := Expr.hasType_of_typing (by decide +kernel)
  obtain ⟨d, heval, -, -, -, hevaluate, -⟩ := evaluate_constant hleaves hty
  have hd : constantTree.eval Value.datum? = some (.bits 16 0xffff) := by decide +kernel
  rw [hd] at heval
  cases heval
  exact ⟨hleaves, hty, hevaluate⟩

end Build

end FlowRecovery
