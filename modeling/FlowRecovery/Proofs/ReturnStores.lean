import FlowRecovery.Proofs.ReturnDomain
import FlowRecovery.Proofs.Walk
import FlowRecovery.Target.Arm

/-!
# `FlowRecovery.Proofs.ReturnStores`: more stores, fewer returns

The return domain goes through the stores in order and forgets slots. What
it still trusts decides which values it calls the return address, and these
values in turn decide which stores are harmless. So a store that is left out
can make later stores look harmless, but it can never make one look worse.

`ReturnDomain.Within` compares two domains over the same assignments: one
trusts every slot that the other trusts. A value that the smaller one calls
the return address is called so by the larger one (`Within.transfer`), a
store to both keeps the comparison (`Within.store`), and a store to the
smaller one alone does too (`within_store`). Stores inserted anywhere are a
list of these steps (`Within.foldl_store`).
-/

set_option autoImplicit false

namespace FlowRecovery

/-- The second says no less than the first. -/
def AbsValue.Implies (a b : AbsValue) : Prop :=
  a = .returnAddr → b = .returnAddr

namespace PrimEval

/-- To know more of the arguments is to know no less of the result. -/
def Monotone (eval : PrimEval) : Prop :=
  ∀ p args args', List.Forall₂ AbsValue.Implies args args' →
    eval p args = some .returnAddr → eval p args' = some .returnAddr

/-- Every primitive passes its first argument on. -/
def first : PrimEval := fun _ args => args.head?

/-- Knowing more of the first argument is enough. -/
theorem monotone_first : Monotone first := by
  intro p args args' hargs h
  cases hargs with
  | nil => cases h
  | cons hhead _ => exact congrArg some (hhead (Option.some.inj h))

/-- The interworking primitive does the same, and nothing is known of
others. -/
theorem monotone_evalInterworking : Monotone Arm.evalInterworking := by
  intro p args args' hargs h
  by_cases hname : p.name = Arm.interworkingTarget
  · simp only [Arm.evalInterworking, if_pos hname] at h ⊢
    exact monotone_first p args args' hargs h
  · simp only [Arm.evalInterworking, if_neg hname] at h
    cases h

end PrimEval

/-- A linear form is found from the assignments alone. -/
theorem Definitions.linear_congr {defs defs' : Definitions} (h : defs.assigned = defs'.assigned) :
    defs.linear = defs'.linear := by
  have hvia : defs.linearVia = defs'.linearVia := by
    unfold linearVia app? rhs?
    rw [h]
  have hdepth (depth : Nat) : defs.linearUpTo depth = defs'.linearUpTo depth := by
    induction depth with
    | zero => rw [linearUpTo, linearUpTo, hvia]
    | succ depth ih => rw [linearUpTo, linearUpTo, hvia, ih]
  -- The depth of the walk is the number of assignments too.
  funext v
  rw [linear, linear, h, hdepth]

namespace ReturnDomain

variable {dom dom' : ReturnDomain} {v : Value}

/-- The four reasons are all there are. -/
theorem transferVia_eq_returnAddr_iff {operand : Value → AbsValue} :
    dom.transferVia operand v = .returnAddr ↔ dom.Carries operand v := by
  refine ⟨carries_of_transferVia, fun h => ?_⟩
  have hrhs (id : AssignId) (ty : Ty) :
      dom.defs.rhs? (.assign id ty) = dom.defs.assigned.lookup id := rfl
  cases h with
  | entry => rfl
  | load hid hform hslot =>
    simp [transferVia, hrhs, hid, isReturnSlot, hform, hslot]
  | masked hid hmask =>
    simp [transferVia, hrhs, hid, hmask]
  | prim hid heval hprim =>
    simp [transferVia, hrhs, hid, heval, hprim]

/-! ### Walks -/

/-- The operands whose own answers the answer about `v` is made of: those of
a mask, or the arguments of a primitive. -/
def transferCalls (dom : ReturnDomain) (v : Value) : List Value :=
  match dom.defs.rhs? v with
  | some (.app (.binary .and left right)) => [left, right]
  | some (.prim p) => p.args
  | _ => []

/-- They are operands of the assignment. -/
theorem mem_operands_of_transferCalls {u : Value} (h : u ∈ dom.transferCalls v) :
    ∃ rhs, dom.defs.rhs? v = some rhs ∧ u ∈ rhs.operands := by
  unfold transferCalls at h
  split at h
  · rename_i hrhs
    exact ⟨_, hrhs, h⟩
  · rename_i hrhs
    exact ⟨_, hrhs, h⟩
  · cases h

/-- Other operands make no difference. -/
theorem transferVia_congr {f g : Value → AbsValue} (h : ∀ u ∈ dom.transferCalls v, f u = g u) :
    dom.transferVia f v = dom.transferVia g v := by
  cases v with
  | bool | bv | reloc | initial | returnAddr | clobbered => rfl
  | assign id ty =>
    unfold transferCalls at h
    simp only [transferVia]
    split
    · rfl
    · rename_i left right hrhs
      simp only [hrhs] at h
      rw [h left (by simp), h right (by simp)]
    · rename_i p hrhs
      simp only [hrhs] at h
      have hargs : p.args.map f = p.args.map g := List.map_congr_left h
      rw [hargs]
    · rfl

/-- So the answer about a value rests on those about its operands. -/
theorem shallow_transferVia (dom : ReturnDomain) : dom.defs.Shallow dom.transferVia := by
  intro f g v h
  refine transferVia_congr fun u hu => ?_
  obtain ⟨rhs, hrhs, hmem⟩ := mem_operands_of_transferCalls hu
  exact h rhs hrhs u hmem

/-- What is known of a value follows from what is known of its operands. -/
theorem transfer_eq (hacyclic : dom.defs.Acyclic) (v : Value) :
    dom.transfer v = dom.transferVia dom.transfer v :=
  hacyclic.walk_eq dom.shallow_transferVia rfl (fun _ => rfl) v

/-! ### One domain within another -/

/-- The second domain goes by the same assignments and primitives and trusts
every slot that the first trusts. -/
structure Within (dom dom' : ReturnDomain) : Prop where
  assigned : dom.defs.assigned = dom'.defs.assigned
  primEval : dom.primEval = dom'.primEval
  slots : dom.slots ⊆ dom'.slots

namespace Within

/-- A reason to call a value the return address stays one. -/
theorem carries (hin : dom.Within dom') (hmono : ∀ eval ∈ dom.primEval, PrimEval.Monotone eval)
    {f g : Value → AbsValue} (hfg : ∀ u, (f u).Implies (g u)) (h : dom.Carries f v) :
    dom'.Carries g v := by
  cases h with
  | entry => exact .entry
  | load hid hform hslot =>
    rw [hin.assigned] at hid
    rw [Definitions.linear_congr hin.assigned] at hform
    exact .load hid hform (hin.slots hslot)
  | masked hid hmask =>
    rw [hin.assigned] at hid
    exact .masked hid (hmask.imp (And.imp_right (hfg _)) (And.imp_right (hfg _)))
  | prim hid heval hprim =>
    rw [hin.assigned] at hid
    refine .prim hid (hin.primEval ▸ heval) (hmono _ heval _ _ _ ?_ hprim)
    rw [List.forall₂_map_left_iff, List.forall₂_map_right_iff]
    exact List.forall₂_same.2 fun u _ => hfg u

/-- The comparison at a bounded depth. -/
theorem transferUpTo (hin : dom.Within dom') (hmono : ∀ eval ∈ dom.primEval, PrimEval.Monotone eval)
    (depth : Nat) (v : Value) : (dom.transferUpTo depth v).Implies (dom'.transferUpTo depth v) := by
  -- One step down in both at a time: what the operands are called is compared
  -- before the values are.
  induction depth generalizing v with
  | zero =>
    intro h
    exact transferVia_eq_returnAddr_iff.2
      (hin.carries hmono (fun _ => id) (transferVia_eq_returnAddr_iff.1 h))
  | succ depth ih =>
    intro h
    exact transferVia_eq_returnAddr_iff.2
      (hin.carries hmono ih (transferVia_eq_returnAddr_iff.1 h))

/-- A domain that trusts more slots calls more values the return address. -/
theorem transfer (hin : dom.Within dom') (hmono : ∀ eval ∈ dom.primEval, PrimEval.Monotone eval)
    (v : Value) : (dom.transfer v).Implies (dom'.transfer v) := by
  rw [ReturnDomain.transfer, ReturnDomain.transfer, ← hin.assigned]
  exact hin.transferUpTo hmono _ v

end Within

/-! ### Stores -/

/-- A store leaves the slots that it does not go to, and all of them if it
stores the return address. -/
theorem mem_slots_store {addr value : Value} {slot : Linear} :
    slot ∈ (dom.store addr value).slots ↔
      slot ∈ dom.slots ∧ (dom.defs.linear addr = some slot → dom.transfer value = .returnAddr) := by
  unfold store
  cases dom.defs.linear addr with
  | none => simp
  | some form =>
    by_cases hvalue : dom.transfer value = .returnAddr
    · simp [hvalue]
    · simp only [hvalue, if_false, List.mem_filter, decide_eq_true_eq, Option.some.injEq]
      exact and_congr_right fun _ => not_congr eq_comm

/-- A store only makes it trust less. -/
theorem within_store (dom : ReturnDomain) (addr value : Value) :
    (dom.store addr value).Within dom := by
  obtain ⟨slots, hslots, heq⟩ := dom.store_eq addr value
  rw [heq]
  exact ⟨rfl, rfl, hslots⟩

/-- A store changes nothing about primitives. -/
theorem primEval_store (dom : ReturnDomain) (addr value : Value) :
    (dom.store addr value).primEval = dom.primEval :=
  (dom.within_store addr value).primEval

namespace Within

/-- One comparison after the other. -/
theorem trans {dom'' : ReturnDomain} (h : dom.Within dom') (h' : dom'.Within dom'') :
    dom.Within dom'' :=
  ⟨h.assigned.trans h'.assigned, h.primEval.trans h'.primEval,
    List.Subset.trans h.slots h'.slots⟩

/-- The same store to both. It is harmless to the larger domain if it is
harmless to the smaller one. -/
theorem store (hin : dom.Within dom') (hmono : ∀ eval ∈ dom.primEval, PrimEval.Monotone eval)
    (addr value : Value) : (dom.store addr value).Within (dom'.store addr value) := by
  refine ⟨?_, ?_, fun slot hslot => ?_⟩
  · rw [(dom.within_store addr value).assigned, (dom'.within_store addr value).assigned,
      hin.assigned]
  · rw [primEval_store, primEval_store, hin.primEval]
  · obtain ⟨hmem, hvalue⟩ := mem_slots_store.1 hslot
    refine mem_slots_store.2 ⟨hin.slots hmem, fun hform => hin.transfer hmono value (hvalue ?_)⟩
    rw [Definitions.linear_congr hin.assigned, hform]

/-- Stores to the smaller domain among which are those to the larger one,
in their order. -/
theorem foldl_store {stores stores' : List (Value × Value)} (hsub : stores.Sublist stores')
    (hin : dom.Within dom') (hmono : ∀ eval ∈ dom.primEval, PrimEval.Monotone eval) :
    (stores'.foldl (fun dom s => dom.store s.1 s.2) dom).Within
      (stores.foldl (fun dom s => dom.store s.1 s.2) dom') := by
  induction hsub generalizing dom dom' with
  | slnil => exact hin
  | cons s _ ih =>
    -- A store that only the smaller domain sees.
    exact ih ((dom.within_store s.1 s.2).trans hin) (primEval_store dom s.1 s.2 ▸ hmono)
  | cons_cons s _ ih =>
    exact ih (hin.store hmono s.1 s.2) (primEval_store dom s.1 s.2 ▸ hmono)

end Within

/-- Stores only ever make it trust less. -/
theorem within_foldl_store (dom : ReturnDomain) (stores : List (Value × Value)) :
    (stores.foldl (fun dom s => dom.store s.1 s.2) dom).Within dom := by
  induction stores generalizing dom with
  | nil => exact ⟨rfl, rfl, List.Subset.refl _⟩
  | cons s rest ih => exact (ih (dom.store s.1 s.2)).trans (dom.within_store s.1 s.2)

/-- A value that is called the return address in view of some stores is
called so in view of fewer of them, whatever else is asked for: any seeds,
any width, any primitives that are monotone. Without cycles the answer is
the one that the rules for one assignment give, at any depth. -/
theorem transfer_of_more_stores :
    (PrimEval.Monotone Arm.evalInterworking ∧ PrimEval.Monotone PrimEval.first) ∧
    ∀ (assigned : List (AssignId × Rhs)) (stores stores' : List (Value × Value))
      (seeds : List StackSlot) (width : Nat) (primEval : Option PrimEval),
      Definitions.Acyclic { assigned } → (∀ eval ∈ primEval, PrimEval.Monotone eval) →
      stores.Sublist stores' →
      (∀ seen v, (ofSeeds ⟨assigned, seen⟩ seeds width primEval).transfer v =
        (ofSeeds ⟨assigned, seen⟩ seeds width primEval).transferVia
          (ofSeeds ⟨assigned, seen⟩ seeds width primEval).transfer v) ∧
      ∀ v, (ofSeeds ⟨assigned, stores'⟩ seeds width primEval).transfer v = .returnAddr →
        (ofSeeds ⟨assigned, stores⟩ seeds width primEval).transfer v = .returnAddr := by
  refine ⟨⟨PrimEval.monotone_evalInterworking, PrimEval.monotone_first⟩, ?_⟩
  intro assigned stores stores' seeds width primEval hacyclic hmono hsub
  refine ⟨fun seen v => transfer_eq ?_ v, fun v => ?_⟩
  · exact hacyclic.congr (within_foldl_store _ seen).assigned
  · have hstart : Within ⟨⟨assigned, stores'⟩, seedSlots seeds width, primEval⟩
        ⟨⟨assigned, stores⟩, seedSlots seeds width, primEval⟩ :=
      ⟨rfl, rfl, List.Subset.refl _⟩
    refine (hstart.foldl_store hsub hmono).transfer ?_ v
    rw [(within_foldl_store _ stores').primEval]
    exact hmono

/-- The return address is in two slots. It is loaded from the first, passed
through a primitive, and the second slot is loaded after it. -/
def passingOn : List (AssignId × Rhs) :=
  [(4, .app (.binary .and (.returnAddr 64) (.bv 64 0xfffffffffffffffe))),
    (3, .load (.assign 2 (.bv 64)) 8),
    (2, .app (.binary .add (.initial 4 (.bv 64)) (.bv 64 8))),
    (1, .prim ⟨"pass", [.assign 0 (.bv 64)], .bv 64, true⟩),
    (0, .load (.initial 4 (.bv 64)) 8)]

/-- Every assignment reads earlier ones only. -/
theorem acyclic_passingOn : Definitions.Acyclic { assigned := passingOn } := by
  refine Definitions.acyclic_of_lt ?_
  rintro id other ⟨rhs, hrhs, u, hu, hother⟩
  have hmem : (id, rhs) ∈ passingOn := mem_of_lookup_eq_some hrhs
  simp only [passingOn, List.mem_cons, Prod.mk.injEq, List.not_mem_nil, or_false] at hmem
  obtain ⟨rfl, rfl⟩ | ⟨rfl, rfl⟩ | ⟨rfl, rfl⟩ | ⟨rfl, rfl⟩ | ⟨rfl, rfl⟩ := hmem <;>
    simp only [Rhs.operands, App.operands, List.mem_cons, List.not_mem_nil, or_false] at hu <;>
    rcases hu with rfl | rfl <;> cases hother <;> decide

/-- What the primitive passes on is stored to the second slot, and nothing
else. -/
def putBack : List (Value × Value) := [(.assign 2 (.bv 64), .assign 1 (.bv 64))]

/-- The first slot has been overwritten before. -/
def overwriteThenPutBack : List (Value × Value) := (.initial 4 (.bv 64), .bv 64 5) :: putBack

/-- Two slots, one of them above the other, and a primitive that passes its
argument on. -/
def passingDomain (stores : List (Value × Value)) : ReturnDomain :=
  ofSeeds ⟨passingOn, stores⟩ [⟨4, 0⟩, ⟨4, 8⟩] 64 (some PrimEval.first)

/-- To put the address back is harmless alone, and costs the second slot too
if the first has been overwritten. -/
theorem transfer_of_more_stores_passingOn :
    (passingDomain putBack).transfer (.assign 3 (.bv 64)) = .returnAddr ∧
      (passingDomain overwriteThenPutBack).transfer (.assign 3 (.bv 64)) = .other ∧
      (passingDomain overwriteThenPutBack).transfer (.assign 4 (.bv 64)) = .returnAddr ∧
      (passingDomain putBack).transfer (.assign 4 (.bv 64)) = .returnAddr := by
  have hmany : (passingDomain overwriteThenPutBack).transfer (.assign 4 (.bv 64)) =
      .returnAddr := by decide
  have hmono : ∀ eval ∈ some PrimEval.first, PrimEval.Monotone eval := by
    rintro eval ⟨⟩
    exact PrimEval.monotone_first
  have hsub : putBack.Sublist overwriteThenPutBack := List.sublist_cons_self _ putBack
  exact ⟨by decide, by decide, hmany,
    (transfer_of_more_stores.2 passingOn _ _ _ 64 _ acyclic_passingOn hmono hsub).2 _ hmany⟩

end ReturnDomain

end FlowRecovery
