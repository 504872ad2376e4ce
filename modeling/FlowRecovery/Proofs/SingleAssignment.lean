import FlowRecovery.Proofs.Linear
import FlowRecovery.Proofs.Runtime
import FlowRecovery.Proofs.Scope
import FlowRecovery.Proofs.Simulation

/-!
# `FlowRecovery.Proofs.SingleAssignment`: a run makes its definitions true

In a single-assignment list, what a statement reads or names is not
assigned again after it. So when the whole list has been run, each
statement can still be read as an equation about the data at the end:
the result stands for what the operands, as they are now, were combined
to (`Runs.exists_step`). In particular the data at the end satisfy all
recorded definitions (`Runs.satisfies`), which is what linear forms and
classification are about.
-/

set_option autoImplicit false

namespace FlowRecovery

/-- None of the statements assigns the value. -/
def Value.Unassigned (stmts : List Stmt) (v : Value) : Prop :=
  ∀ id ∈ v.assignId?, ∀ t ∈ stmts, t.assignId? ≠ some id

instance (stmts : List Stmt) : DecidablePred (Value.Unassigned stmts) := fun v =>
  inferInstanceAs (Decidable (∀ id ∈ v.assignId?, ∀ t ∈ stmts, t.assignId? ≠ some id))

/-- What many statements do not assign, fewer do not. -/
theorem Value.Unassigned.mono {stmts fewer : List Stmt} {v : Value} (h : v.Unassigned stmts)
    (hsub : fewer ⊆ stmts) : v.Unassigned fewer :=
  fun id hid t ht => h id hid t (hsub ht)

/-- What a statement reads is assigned neither by itself nor later, and
what it names is not assigned later. -/
def SingleAssignment : List Stmt → Prop
  | [] => True
  | t :: rest => (∀ v ∈ t.uses, v.Unassigned (t :: rest)) ∧
      (∀ v ∈ t.result?, v.Unassigned rest) ∧ SingleAssignment rest

/-- Statement by statement. -/
instance decidableSingleAssignment : DecidablePred SingleAssignment
  | [] => inferInstanceAs (Decidable True)
  | t :: rest =>
    have := decidableSingleAssignment rest
    inferInstanceAs (Decidable ((∀ v ∈ t.uses, v.Unassigned (t :: rest)) ∧
      (∀ v ∈ t.result?, v.Unassigned rest) ∧ SingleAssignment rest))

/-- What has been read is not assigned in what is left. -/
theorem SingleAssignment.unassigned {pre rest : List Stmt} (h : SingleAssignment (pre ++ rest))
    {t : Stmt} (ht : t ∈ pre) {v : Value} (hv : v ∈ t.uses) : v.Unassigned rest := by
  induction pre with
  | nil => cases ht
  | cons first pre ih =>
    cases ht with
    | head => exact (h.1 v hv).mono fun s hs => List.mem_cons_of_mem _ (List.mem_append_right _ hs)
    | tail _ ht => exact ih h.2.2 ht

/-- A list stays single-assignment without its first statements. -/
theorem SingleAssignment.right {pre rest : List Stmt} (h : SingleAssignment (pre ++ rest)) :
    SingleAssignment rest := by
  induction pre with
  | nil => exact h
  | cons _ _ ih => exact ih h.2.2

/-- An application has the type of its result, a load reads as many bytes
from an address of `width` bits, and a primitive says its type. -/
def Rhs.WellTyped (width : Nat) (ty : Ty) : Rhs → Prop
  | .app a => a.resultType = .ok ty
  | .load addr bytes => ty = .bv (bytes * 8) ∧ addr.ty = .bv width
  | .prim p => ty = p.ty

/-- Operands and results respect the types of the assignments, and only
bitvectors are stored. -/
def Stmt.WellTyped (types : AssignId → Ty) (width : Nat) (t : Stmt) : Prop :=
  (∀ v ∈ t.uses, v.Fits types) ∧
    match t with
    | .assign id ty rhs => ty = types id ∧ rhs.WellTyped width ty
    | .store addr value => addr.ty = .bv width ∧ value.ty ≠ .bool
    | _ => True

instance (types : AssignId → Ty) : DecidablePred (Value.Fits types)
  | .bv width w => inferInstanceAs (Decidable (w.keepLow width = w))
  | .assign id ty => inferInstanceAs (Decidable (ty = types id))
  | .bool _ | .reloc .. | .initial .. | .returnAddr _ | .clobbered _ =>
    inferInstanceAs (Decidable True)

instance (width : Nat) (ty : Ty) : DecidablePred (Rhs.WellTyped width ty)
  | .app a => inferInstanceAs (Decidable (a.resultType = .ok ty))
  | .load addr bytes => inferInstanceAs (Decidable (ty = .bv (bytes * 8) ∧ addr.ty = .bv width))
  | .prim p => inferInstanceAs (Decidable (ty = p.ty))

instance (types : AssignId → Ty) (width : Nat) : DecidablePred (Stmt.WellTyped types width)
  | .assign id ty rhs => inferInstanceAs (Decidable
      ((∀ v ∈ rhs.operands, v.Fits types) ∧ ty = types id ∧ rhs.WellTyped width ty))
  | .store addr value => inferInstanceAs (Decidable
      ((∀ v ∈ [addr, value], v.Fits types) ∧ addr.ty = .bv width ∧ value.ty ≠ .bool))
  | .arch _ args => inferInstanceAs (Decidable ((∀ v ∈ args, v.Fits types) ∧ True))
  | .instruction .. | .comment _ =>
    inferInstanceAs (Decidable ((∀ v ∈ ([] : List Value), v.Fits types) ∧ True))

/-- What is recorded was assigned. -/
theorem Definitions.mem_of_lookup {stmts : List Stmt} {id : AssignId} {rhs : Rhs}
    (h : (ofStmts stmts).assigned.lookup id = some rhs) : ∃ ty, .assign id ty rhs ∈ stmts := by
  have hmem := mem_of_lookup_eq_some h
  rw [ofStmts, assigned_record, List.append_nil, List.mem_reverse] at hmem
  obtain ⟨t, ht, hentry⟩ := List.mem_filterMap.1 hmem
  cases t with
  | assign id' ty rhs' =>
    cases hentry
    exact ⟨ty, ht⟩
  | store | arch | instruction | comment => cases hentry

/-- Well-typed statements make typed definitions. -/
theorem Definitions.typed_ofStmts {types : AssignId → Ty} {width : Nat} {stmts : List Stmt}
    (h : ∀ t ∈ stmts, t.WellTyped types width) : (ofStmts stmts).Typed types where
  result id app hlookup := by
    obtain ⟨ty, hmem⟩ := mem_of_lookup hlookup
    obtain ⟨-, rfl, hrhs⟩ := h _ hmem
    exact hrhs
  operands id app hlookup := by
    obtain ⟨ty, hmem⟩ := mem_of_lookup hlookup
    exact (h _ hmem).1

/-- Assigning one value leaves the others alone. -/
theorem Valuation.denote_assign_of_ne (ρ : Valuation) {id : AssignId} (ty : Ty) (d : Datum)
    {v : Value} (hv : v.assignId? ≠ some id) : (ρ.assign id ty d).denote v = ρ.denote v := by
  have hne : v ≠ .assign id ty := by
    rintro rfl
    exact hv rfl
  cases v with
  | bool | bv | reloc => rfl
  | initial | returnAddr | clobbered | assign =>
    simp only [Valuation.denote, Valuation.assign, if_neg hne]

namespace Runtime

variable {R : Runtime} {effects : Effects} {t : Stmt} {stmts : List Stmt} {c c₁ c' : R.State}

/-- What a value is read as, it may be. -/
theorem Reads.denotes {ρ : Valuation} {v : Value} {d : Datum} (h : R.Reads ρ v d) :
    ρ.Denotes v d := by
  cases v with
  | clobbered ty => exact R.ty_undef ty d h
  | bool | bv | reloc | initial | returnAddr | assign => exact h

/-- A value that is not clobbered is read as its datum. -/
theorem Reads.eq_denote {ρ : Valuation} {v : Value} {d : Datum} (h : R.Reads ρ v d)
    (hv : v.isClobbered = false) : d = ρ.denote v :=
  (Valuation.denotes_iff hv d).1 h.denotes

/-- A value is read in the same way where it has the same datum. -/
theorem Reads.congr {ρ ρ' : Valuation} {v : Value} {d : Datum} (h : R.Reads ρ v d)
    (hv : ρ'.denote v = ρ.denote v) : R.Reads ρ' v d := by
  cases v with
  | clobbered ty => exact h
  | bool | bv | reloc | initial | returnAddr | assign => exact Eq.trans h hv.symm

/-- So are the values of a list. -/
theorem Reads.forall₂_congr {ρ ρ' : Valuation} {vs : List Value} {data : List Datum}
    (h : List.Forall₂ (R.Reads ρ) vs data) (hvs : ∀ v ∈ vs, ρ'.denote v = ρ.denote v) :
    List.Forall₂ (R.Reads ρ') vs data := by
  induction h with
  | nil => exact .nil
  | @cons v d rest _ hd _ ih =>
    exact .cons (hd.congr (hvs v List.mem_cons_self))
      (ih fun u hu => hvs u (List.mem_cons_of_mem v hu))

/-- What an application comes to is its operator applied to data that
its operands may be read as. -/
theorem Computes.exists_args {ρ : Valuation} {a : App} {result : Option Datum}
    (h : R.Computes ρ a result) :
    ∃ args, List.Forall₂ (R.Reads ρ) a.operands args ∧ result = a.apply args := by
  cases h with
  | unary hx => exact ⟨_, .cons hx .nil, rfl⟩
  | binary hx hy => exact ⟨_, .cons hx (.cons hy .nil), rfl⟩
  | ext hx => exact ⟨_, .cons hx .nil, rfl⟩
  | select hc hx hy => exact ⟨_, .cons hc (.cons hx (.cons hy .nil)), rfl⟩

/-- One statement changes the datum of its own result only. -/
theorem Steps.denote (h : R.Steps effects t c c₁) {v : Value} (hv : v.Unassigned [t]) :
    c₁.values.denote v = c.values.denote v := by
  have hother {id : AssignId} (hid : t.assignId? = some id) : v.assignId? ≠ some id :=
    fun heq => hv id heq t List.mem_cons_self hid
  cases h with
  | app => exact Valuation.denote_assign_of_ne _ _ _ (hother rfl)
  | load => exact Valuation.denote_assign_of_ne _ _ _ (hother rfl)
  | prim =>
    unfold State.prim
    split <;> exact Valuation.denote_assign_of_ne _ _ _ (hother rfl)
  | store | instruction | comment => rfl
  | arch =>
    unfold State.arch
    split <;> rfl

/-- A well-typed statement leaves a datum of the right type. -/
theorem Steps.typed {types : AssignId → Ty} {width : Nat} (h : R.Steps effects t c c₁)
    (ht : t.WellTyped types width) (hc : c.values.Typed) : c₁.values.Typed := by
  cases h with
  | @app _ id ty a result hresult =>
    obtain ⟨args, hargs, rfl⟩ := hresult.exists_args
    obtain ⟨d, hd, hty⟩ := App.apply_eq_some ht.2.2
      (hargs.imp fun _ _ hread => hread.denotes.ty_eq hc)
    rw [hd]
    exact hc.assign id hty
  | @load _ id ty addr bytes a =>
    exact hc.assign id (ht.2.2.1.symm)
  | @prim _ id ty p data =>
    have hty : (R.prim c.memory p data).1.1.ty = ty :=
      (R.prim c.memory p data).1.2.trans ht.2.2.symm
    unfold State.prim
    split <;> exact hc.assign id hty
  | store | instruction | comment => exact hc
  | arch =>
    unfold State.arch
    split <;> exact hc

/-- Steps of one kind that are steps of another. -/
theorem Runs.imp {σ : Type} {step step' : Stmt → σ → σ → Prop} {stmts : List Stmt} {s s' : σ}
    (h : Runs step stmts s s') (himp : ∀ t ∈ stmts, ∀ s s', step t s s' → step' t s s') :
    Runs step' stmts s s' := by
  induction h with
  | nil => exact .nil
  | cons hstep _ ih =>
    exact .cons (himp _ List.mem_cons_self _ _ hstep)
      (ih fun t ht => himp t (List.mem_cons_of_mem _ ht))

/-- The statements change the data of what they assign only. -/
theorem Runs.denote (h : Runs (R.Steps effects) stmts c c') {v : Value}
    (hv : v.Unassigned stmts) : c'.values.denote v = c.values.denote v := by
  induction h with
  | nil => rfl
  | cons hstep _ ih =>
    rw [ih (hv.mono (List.subset_cons_self _ _)),
      hstep.denote (hv.mono fun s hs => List.mem_singleton.1 hs ▸ List.mem_cons_self)]

/-- Well-typed statements keep the data typed. -/
theorem Runs.typed {types : AssignId → Ty} {width : Nat} (h : Runs (R.Steps effects) stmts c c')
    (hstmts : ∀ t ∈ stmts, t.WellTyped types width) (hc : c.values.Typed) : c'.values.Typed := by
  induction h with
  | nil => exact hc
  | cons hstep _ ih =>
    refine ih (fun t ht => hstmts t (List.mem_cons_of_mem _ ht)) ?_
    exact hstep.typed (hstmts _ List.mem_cons_self) hc

/-- Each statement has been carried out on the way, with operands that
are still the same at the end and a result that is, too. -/
theorem Runs.exists_step {types : AssignId → Ty} {width : Nat}
    (h : Runs (R.Steps effects) stmts c c') (hsingle : SingleAssignment stmts)
    (hstmts : ∀ t ∈ stmts, t.WellTyped types width) (hc : c.values.Typed) (ht : t ∈ stmts) :
    ∃ c₁ c₂, R.Steps effects t c₁ c₂ ∧ c₁.values.Typed ∧
      (∀ v ∈ t.uses, c'.values.denote v = c₁.values.denote v) ∧
      ∀ v ∈ t.result?, c'.values.denote v = c₂.values.denote v := by
  induction h with
  | nil => cases ht
  | @cons s rest c c₁ c' hstep hrest ih =>
    cases ht with
    | head =>
      -- Nothing from here on assigns the operands, and nothing later the result.
      have hall : Runs (R.Steps effects) (t :: rest) c c' := .cons hstep hrest
      exact ⟨c, c₁, hstep, hc, fun v hv => hall.denote (hsingle.1 v hv),
        fun v hv => hrest.denote (hsingle.2.1 v hv)⟩
    | tail _ ht =>
      exact ih hsingle.2.2 (fun t ht => hstmts t (List.mem_cons_of_mem _ ht))
        (hstep.typed (hstmts _ List.mem_cons_self) hc) ht

/-- The data at the end satisfy all definitions. -/
theorem Runs.satisfies {types : AssignId → Ty} {width : Nat}
    (h : Runs (R.Steps effects) stmts c c') (hsingle : SingleAssignment stmts)
    (hstmts : ∀ t ∈ stmts, t.WellTyped types width) (hc : c.values.Typed) :
    c'.values.Satisfies types (.ofStmts stmts) := by
  intro id a hlookup
  obtain ⟨ty, hmem⟩ := Definitions.mem_of_lookup hlookup
  obtain ⟨c₁, c₂, hstep, hc₁, huses, hresult⟩ := h.exists_step hsingle hstmts hc hmem
  obtain ⟨-, rfl, happ⟩ := hstmts _ hmem
  -- Operands and result are the same at the end, so the equation still holds there.
  rw [hresult _ rfl]
  cases hstep with
  | app hcomputes =>
    obtain ⟨args, hargs, rfl⟩ := hcomputes.exists_args
    obtain ⟨d, hd, -⟩ := App.apply_eq_some happ
      (hargs.imp fun _ _ hread => hread.denotes.ty_eq hc₁)
    refine ⟨args, (Reads.forall₂_congr hargs huses).imp fun _ _ hread => hread.denotes, ?_⟩
    rw [hd]
    exact congrArg some (Valuation.denote_assign _ id (types id) d).symm

end Runtime

end FlowRecovery
