import FlowRecovery.Definitions
import FlowRecovery.Proofs.Fold

/-!
# `FlowRecovery.Proofs.Linear`: what a linear form says

A linear form names an entry register and an offset. In every valuation
that satisfies the recorded definitions, a value with such a form is what
the register held at entry plus the offset, at the width of the value
(`Definitions.linear_sound`). The walk that finds the form may go to any
depth, so the induction is on the depth alone, and definitions that run
in circles do no harm.

Definitions are well typed with respect to a table of types, one for each
assignment. Stored types on the values themselves would not do: an
operand could claim a type that the definition it refers to does not
have.
-/

set_option autoImplicit false

namespace FlowRecovery

/-- The value respects the types of the assignments, and a literal has no
bit set above its width. -/
def Value.Fits (types : AssignId → Ty) : Value → Prop
  | .bv width w => w.keepLow width = w
  | .assign id ty => ty = types id
  | _ => True

/-- Every recorded application has the type of its assignment, and its
operands respect the types of theirs. -/
structure Definitions.Typed (types : AssignId → Ty) (defs : Definitions) : Prop where
  result : ∀ id app, defs.assigned.lookup id = some (.app app) → app.resultType = .ok (types id)
  operands : ∀ id app, defs.assigned.lookup id = some (.app app) →
    ∀ v ∈ app.operands, v.Fits types

/-- Every assignment stands for something that its definition can come
to. -/
def Valuation.Satisfies (ρ : Valuation) (types : AssignId → Ty) (defs : Definitions) : Prop :=
  ∀ id app, defs.assigned.lookup id = some (.app app) →
    ρ.Yields app (ρ.denote (.assign id (types id)))

/-- An application is found for an assignment that has been recorded, and
for nothing else. -/
theorem Definitions.app?_eq_some_iff {defs : Definitions} {v : Value} {app : App} :
    defs.app? v = some app ↔
      ∃ id ty, v = .assign id ty ∧ defs.assigned.lookup id = some (.app app) := by
  have hrhs : defs.app? v = some app ↔ defs.rhs? v = some (.app app) := by
    rw [app?]
    cases defs.rhs? v with
    | none => simp
    | some rhs => cases rhs <;> simp
  rw [hrhs, rhs?, Option.bind_eq_some_iff]
  simp only [Value.assignId?_eq_some]
  constructor
  · rintro ⟨id, ⟨ty, rfl⟩, hid⟩
    exact ⟨id, ty, rfl, hid⟩
  · rintro ⟨id, ty, rfl, hid⟩
    exact ⟨id, ⟨ty, rfl⟩, hid⟩

/-- The definition of a value that respects its type. -/
theorem Definitions.Typed.of_app? {types : AssignId → Ty} {defs : Definitions}
    (hdefs : defs.Typed types) {v : Value} (hv : v.Fits types) {app : App}
    (h : defs.app? v = some app) :
    app.resultType = .ok v.ty ∧ (∀ u ∈ app.operands, u.Fits types) ∧ v.isClobbered = false ∧
      ∀ ρ : Valuation, ρ.Satisfies types defs → ρ.Yields app (ρ.denote v) := by
  obtain ⟨id, ty, rfl, hid⟩ := app?_eq_some_iff.1 h
  obtain rfl : ty = types id := hv
  exact ⟨hdefs.result id app hid, hdefs.operands id app hid, rfl, fun ρ hρ => hρ id app hid⟩

namespace Linear

variable {ρ : Valuation} {width : Nat} {a b form : Linear}

/-- The datum is the base plus the offset, at this width. -/
def Describes (ρ : Valuation) (width : Nat) (form : Linear) (d : Datum) : Prop :=
  match form.base with
  | none => d = .bits width (form.offset.setWidth width)
  | some r => ∃ x, ρ.denote (.initial r (.bv width)) = .bits width x ∧
      d = .bits width (x + form.offset.setWidth width)

/-- At its own width, cutting the offset makes no difference. -/
theorem describes_cut {d : Datum} : (form.cut width).Describes ρ width d ↔
    form.Describes ρ width d := by
  simp only [Describes, cut, Word.setWidth_keepLow]

/-- Forms add up, if one of them has no base. -/
theorem describes_add (hwidth : width ≤ 64) {x y : BitVec width} (h : a.add b = some form)
    (ha : a.Describes ρ width (.bits width x)) (hb : b.Describes ρ width (.bits width y)) :
    form.Describes ρ width (.bits width (x + y)) := by
  obtain ⟨abase, aoffset⟩ := a
  obtain ⟨bbase, boffset⟩ := b
  have hsum := BitVec.setWidth_add aoffset boffset hwidth
  cases abase with
  | none =>
    cases bbase with
    | none =>
      cases h
      cases ha
      cases hb
      exact congrArg (Datum.bits width) hsum.symm
    | some r =>
      cases h
      cases ha
      obtain ⟨z, hz, hb⟩ := hb
      cases hb
      refine ⟨z, hz, congrArg (Datum.bits width) ?_⟩
      rw [hsum]
      ac_rfl
  | some r =>
    cases bbase with
    | none =>
      cases h
      cases hb
      obtain ⟨z, hz, ha⟩ := ha
      cases ha
      refine ⟨z, hz, congrArg (Datum.bits width) ?_⟩
      rw [hsum, BitVec.add_assoc]
    | some r' =>
      -- Two bases do not add up to a form.
      cases h

/-- A form without a base may be subtracted. -/
theorem describes_sub (hwidth : width ≤ 64) {x y : BitVec width} (h : a.sub b = some form)
    (ha : a.Describes ρ width (.bits width x)) (hb : b.Describes ρ width (.bits width y)) :
    form.Describes ρ width (.bits width (x - y)) := by
  obtain ⟨abase, aoffset⟩ := a
  obtain ⟨bbase, boffset⟩ := b
  have hdiff := Word.setWidth_sub hwidth aoffset boffset
  -- What is subtracted has no base, and the result keeps the base of the other.
  cases bbase with
  | some r => cases h
  | none =>
    cases h
    cases hb
    cases abase with
    | none =>
      cases ha
      exact congrArg (Datum.bits width) hdiff.symm
    | some r =>
      obtain ⟨z, hz, ha⟩ := ha
      cases ha
      refine ⟨z, hz, congrArg (Datum.bits width) ?_⟩
      rw [hdiff, BitVec.sub_eq_add_neg, BitVec.sub_eq_add_neg, BitVec.add_assoc]

end Linear

namespace Definitions

variable {types : AssignId → Ty} {defs : Definitions} {ρ : Valuation}

/-- Only bitvectors have a linear form. -/
theorem ty_of_linearVia {operand : Value → Option Linear} {v : Value} {form : Linear}
    (h : defs.linearVia operand v = some form) : ∃ width, v.ty = .bv width := by
  obtain ⟨width, hwidth, -⟩ := Option.bind_eq_some_iff.1 h
  exact ⟨width, Ty.width?_eq_some_iff.1 hwidth⟩

/-- A clobbered value has no linear form. -/
theorem isClobbered_of_linearVia {operand : Value → Option Linear} {v : Value} {form : Linear}
    (h : defs.linearVia operand v = some form) : v.isClobbered = false := by
  cases v with
  | clobbered ty =>
    simp only [linearVia, Option.map_none, Option.bind_eq_some_iff] at h
    obtain ⟨_, _, h⟩ := h
    cases h
  | bool | bv | reloc | initial | returnAddr | assign => rfl

/-- Sums and differences have the type of their operands. -/
theorem ty_of_sum {op : BinaryOp} (hop : op = .add ∨ op = .sub) {ty : Ty} {width : Nat}
    (h : op.resultType ty = .ok (.bv width)) : ty = .bv width := by
  cases ty with
  | bool => rcases hop with rfl | rfl <;> cases h
  | bv w =>
    have hw : Ty.bv w = .bv width := by
      rcases hop with rfl | rfl <;> exact Except.ok.inj h
    exact hw

/-- The operands of a sum or a difference, where neither is clobbered,
have the type of the result, and the operator gives the result. -/
theorem operands_of_sum (hdefs : defs.Typed types) (hρ : ρ.Typed) (hsat : ρ.Satisfies types defs)
    {v left right : Value} (hv : v.Fits types) {width : Nat} (hty : v.ty = .bv width)
    {op : BinaryOp} (hop : op = .add ∨ op = .sub) (h : defs.app? v = some (.binary op left right))
    (hl : left.isClobbered = false) (hr : right.isClobbered = false) :
    width ≤ 64 ∧ (left.Fits types ∧ left.ty = .bv width) ∧
      (right.Fits types ∧ right.ty = .bv width) ∧
      ∃ x y, ρ.denote left = .bits width x ∧ ρ.denote right = .bits width y ∧
        op.onBits x y = some (ρ.denote v) := by
  obtain ⟨hresult, hfits, -, hyields⟩ := hdefs.of_app? hv h
  obtain ⟨hvalid, hright, hresult⟩ := App.resultType_binary.1 hresult
  have hleft : left.ty = .bv width := ty_of_sum hop (hty ▸ hresult)
  rw [hleft] at hright
  rw [hleft, Ty.isValid_bv] at hvalid
  refine ⟨hvalid.2, ⟨hfits left (by simp [App.operands]), hleft⟩,
    ⟨hfits right (by simp [App.operands]), hright⟩, ?_⟩
  obtain ⟨x, y, hx, hy, happly⟩ := Valuation.yields_binary.1 (hyields ρ hsat)
  -- An operand that is not clobbered is one datum only.
  rw [Valuation.denotes_iff hl] at hx
  rw [Valuation.denotes_iff hr] at hy
  obtain ⟨x, rfl⟩ := Datum.exists_bits (hx ▸ (ρ.ty_denote hρ left).trans hleft)
  obtain ⟨y, rfl⟩ := Datum.exists_bits (hy ▸ (ρ.ty_denote hρ right).trans hright)
  exact ⟨x, y, hx.symm, hy.symm, BinaryOp.apply_bits op x y ▸ happly⟩

/-- The form of a value is right if the forms of the operands are. -/
theorem linearVia_sound (hdefs : defs.Typed types) (hρ : ρ.Typed) (hsat : ρ.Satisfies types defs)
    {operand : Value → Option Linear}
    (hclobbered : ∀ u a, operand u = some a → u.isClobbered = false)
    (hoperand : ∀ u width a, u.Fits types → u.ty = .bv width → operand u = some a →
      a.Describes ρ width (ρ.denote u))
    {v : Value} (hv : v.Fits types) {width : Nat} (hty : v.ty = .bv width) {form : Linear}
    (h : defs.linearVia operand v = some form) : form.Describes ρ width (ρ.denote v) := by
  obtain ⟨width', hwidth', hform⟩ := Option.bind_eq_some_iff.1 h
  rw [hty] at hwidth'
  cases hwidth'
  -- The form has been cut to the width at the end.
  obtain ⟨raw, hraw, rfl⟩ := Option.map_eq_some_iff.1 hform
  rw [Linear.describes_cut]
  cases v with
  | bool | reloc | returnAddr | clobbered => cases hraw
  | initial r ty =>
    cases hraw
    obtain rfl : ty = .bv width := hty
    obtain ⟨x, hx⟩ := Datum.exists_bits (ρ.ty_denote hρ (.initial r (.bv width)))
    refine ⟨x, hx, ?_⟩
    rw [hx]
    simp
  | bv w bits =>
    cases hraw
    obtain rfl : w = width := Ty.bv.inj hty
    rfl
  | assign id ty =>
    -- A sum, a difference, or nothing that has a form.
    simp only at hraw
    split at hraw
    · rename_i left right happ
      obtain ⟨a, ha, hraw⟩ := Option.bind_eq_some_iff.1 hraw
      obtain ⟨b, hb, hsum⟩ := Option.bind_eq_some_iff.1 hraw
      obtain ⟨hle, ⟨hlf, hlt⟩, ⟨hrf, hrt⟩, x, y, hx, hy, hop⟩ :=
        operands_of_sum hdefs hρ hsat hv hty (Or.inl rfl) happ (hclobbered left a ha)
          (hclobbered right b hb)
      rw [← Option.some.inj hop]
      exact Linear.describes_add hle hsum (hx ▸ hoperand left width a hlf hlt ha)
        (hy ▸ hoperand right width b hrf hrt hb)
    · rename_i left right happ
      obtain ⟨a, ha, hraw⟩ := Option.bind_eq_some_iff.1 hraw
      obtain ⟨b, hb, hdiff⟩ := Option.bind_eq_some_iff.1 hraw
      obtain ⟨hle, ⟨hlf, hlt⟩, ⟨hrf, hrt⟩, x, y, hx, hy, hop⟩ :=
        operands_of_sum hdefs hρ hsat hv hty (Or.inr rfl) happ (hclobbered left a ha)
          (hclobbered right b hb)
      rw [← Option.some.inj hop]
      exact Linear.describes_sub hle hdiff (hx ▸ hoperand left width a hlf hlt ha)
        (hy ▸ hoperand right width b hrf hrt hb)
    · cases hraw

/-- Whatever the depth, a form is found in the same way. -/
theorem linearUpTo_eq_linearVia (defs : Definitions) (depth : Nat) :
    ∃ operand, defs.linearUpTo depth = defs.linearVia operand := by
  cases depth with
  | zero => exact ⟨_, rfl⟩
  | succ depth => exact ⟨_, rfl⟩

/-- Forms are right at any depth. Induction on the depth. -/
theorem linearUpTo_sound (hdefs : defs.Typed types) (hρ : ρ.Typed)
    (hsat : ρ.Satisfies types defs) {depth : Nat} {v : Value} (hv : v.Fits types) {width : Nat}
    (hty : v.ty = .bv width) {form : Linear} (h : defs.linearUpTo depth v = some form) :
    form.Describes ρ width (ρ.denote v) := by
  induction depth generalizing v width form with
  | zero =>
    -- No operand is looked at.
    exact linearVia_sound hdefs hρ hsat (fun _ _ hnone => by cases hnone)
      (fun _ _ _ _ _ hnone => by cases hnone) hv hty h
  | succ depth ih =>
    refine linearVia_sound hdefs hρ hsat (fun u a hu => ?_)
      (fun u width a hfits huty hu => ih hfits huty hu) hv hty h
    obtain ⟨operand, hvia⟩ := linearUpTo_eq_linearVia defs depth
    rw [hvia] at hu
    exact isClobbered_of_linearVia hu

/-- A value with a linear form is one bitvector, and the form says
which. -/
theorem linear_sound (hdefs : defs.Typed types) (hρ : ρ.Typed) (hsat : ρ.Satisfies types defs)
    {v : Value} (hv : v.Fits types) {form : Linear} (h : defs.linear v = some form) :
    v.isClobbered = false ∧ ∃ width, v.ty = .bv width ∧ form.Describes ρ width (ρ.denote v) := by
  obtain ⟨operand, hvia⟩ := linearUpTo_eq_linearVia defs defs.assigned.length
  have hform : defs.linearVia operand v = some form := hvia ▸ h
  obtain ⟨width, hty⟩ := ty_of_linearVia hform
  exact ⟨isClobbered_of_linearVia hform, width, hty, linearUpTo_sound hdefs hρ hsat hv hty h⟩

end Definitions

end FlowRecovery
