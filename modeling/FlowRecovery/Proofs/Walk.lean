import FlowRecovery.Proofs.Flow
import Mathlib.Data.List.Perm.Subperm

/-!
# `FlowRecovery.Proofs.Walk`: following definitions to their end

Two questions about a value are answered by walking back through the
definitions: its linear form, and whether it is the return address. A walk
goes no deeper than there are assignments. This file says that this is deep
enough, and what the linear form that a walk finds is worth.

A walk that takes one more step passes through one more assignment. If no
assignment depends on itself (`Definitions.Acyclic`), these are all
different ones, a `Trail`, and there are no more of them than have been
recorded. So the answer at full depth rests on the answers for the operands
at full depth (`Acyclic.walk_eq`), as if there were no bound.

The linear form of a value is then the value, in every valuation that
satisfies the definitions (`linear_denotes`).
-/

set_option autoImplicit false

namespace FlowRecovery

namespace Definitions

variable {defs : Definitions}

/-! ### Walks through acyclic definitions -/

/-- The definition of the first assignment reads the second. -/
def Reads (defs : Definitions) (id other : AssignId) : Prop :=
  ∃ rhs, defs.assigned.lookup id = some rhs ∧ ∃ u ∈ rhs.operands, u.assignId? = some other

/-- No assignment depends on itself. -/
def Acyclic (defs : Definitions) : Prop :=
  ∀ id, ¬Relation.TransGen defs.Reads id id

/-- It is a matter of the assignments alone. -/
theorem Acyclic.congr {defs' : Definitions} (h : defs.Acyclic)
    (hassigned : defs'.assigned = defs.assigned) : defs'.Acyclic := by
  have hreads : defs'.Reads = defs.Reads := by
    unfold Reads
    rw [hassigned]
  unfold Acyclic
  rwa [hreads]

/-- Assignments that read only those with smaller numbers do not depend on
themselves. -/
theorem acyclic_of_lt (h : ∀ id other, defs.Reads id other → other < id) : defs.Acyclic := by
  have hlt {a b : AssignId} (hab : Relation.TransGen defs.Reads a b) : b < a := by
    induction hab with
    | single hread => exact h _ _ hread
    | tail _ hread ih => exact Nat.lt_trans (h _ _ hread) ih
  exact fun id hcycle => Nat.lt_irrefl id (hlt hcycle)

/-- The answer about a value rests on the answers about the operands of its
definition, and on no others. -/
def Shallow {α : Type} (defs : Definitions) (via : (Value → α) → Value → α) : Prop :=
  ∀ f g v, (∀ rhs, defs.rhs? v = some rhs → ∀ u ∈ rhs.operands, f u = g u) → via f v = via g v

/-- Different assignments that a walk has passed through on its way to the
value. -/
structure Trail (defs : Definitions) (path : List AssignId) (v : Value) : Prop where
  nodup : path.Nodup
  recorded : ∀ id ∈ path, ∃ rhs, defs.assigned.lookup id = some rhs
  leads : ∀ id ∈ path, ∀ other, v.assignId? = some other → Relation.TransGen defs.Reads id other

/-- At first no assignment has been passed through. -/
theorem Trail.nil (v : Value) : defs.Trail [] v where
  nodup := List.nodup_nil
  recorded _ h := absurd h List.not_mem_nil
  leads _ h := absurd h List.not_mem_nil

/-- There are no more assignments to pass through than there are. -/
theorem Trail.length_le {path : List AssignId} {v : Value} (h : defs.Trail path v) :
    path.length ≤ defs.assigned.length := by
  have hsub : path ⊆ defs.assigned.map Prod.fst := fun id hid => by
    obtain ⟨rhs, hrhs⟩ := h.recorded id hid
    exact List.mem_map_of_mem (f := Prod.fst) (mem_of_lookup_eq_some hrhs)
  -- No assignment is on the trail twice, so the inclusion bounds its length.
  have hle := (List.subperm_of_subset h.nodup hsub).length_le
  rwa [List.length_map] at hle

/-- The next step passes through an assignment that has not been passed
through before. -/
theorem Trail.step (hacyclic : defs.Acyclic) {path : List AssignId} {v : Value}
    (h : defs.Trail path v) {rhs : Rhs} (hrhs : defs.rhs? v = some rhs) :
    ∃ id, ∀ u ∈ rhs.operands, defs.Trail (id :: path) u := by
  obtain ⟨id, hid, hlookup⟩ := Option.bind_eq_some_iff.1 hrhs
  -- An assignment that is on the trail leads here, so it would depend on itself.
  have hnew : id ∉ path := fun hmem => hacyclic id (h.leads id hmem id hid)
  refine ⟨id, fun u hu => ⟨List.nodup_cons.2 ⟨hnew, h.nodup⟩, ?_, fun a ha other hother => ?_⟩⟩
  · exact List.forall_mem_cons.2 ⟨⟨rhs, hlookup⟩, h.recorded⟩
  · have hread : defs.Reads id other := ⟨rhs, hlookup, u, hu, hother⟩
    rcases List.mem_cons.1 ha with rfl | hold
    · exact .single hread
    · exact (h.leads a hold id hid).tail hread

section

variable {α : Type} {via : (Value → α) → Value → α} {walk : Nat → Value → α} {unknown : Value → α}

/-- A walk that has passed through all but `depth` assignments gains nothing
by going deeper. -/
theorem Trail.walk_eq (hacyclic : defs.Acyclic) (hvia : defs.Shallow via)
    (hzero : walk 0 = via unknown) (hsucc : ∀ depth, walk (depth + 1) = via (walk depth))
    {path : List AssignId} {v : Value} (h : defs.Trail path v) {depth : Nat}
    (hdepth : defs.assigned.length ≤ path.length + depth) : walk depth v = walk (depth + 1) v := by
  -- With each step down the depth falls by one and the trail grows by one.
  induction depth generalizing path v with
  | zero =>
    rw [hsucc, hzero]
    refine hvia _ _ v fun rhs hrhs u hu => ?_
    -- Every assignment is on the trail already, so there is none to read.
    obtain ⟨id, hnext⟩ := h.step hacyclic hrhs
    have hle := (hnext u hu).length_le
    rw [List.length_cons] at hle
    omega
  | succ depth ih =>
    rw [hsucc depth, hsucc (depth + 1)]
    refine hvia _ _ v fun rhs hrhs u hu => ?_
    obtain ⟨id, hnext⟩ := h.step hacyclic hrhs
    refine ih (hnext u hu) ?_
    rw [List.length_cons]
    omega

/-- As deep as there are assignments is deep enough. -/
theorem Acyclic.walk_eq (hacyclic : defs.Acyclic) (hvia : defs.Shallow via)
    (hzero : walk 0 = via unknown) (hsucc : ∀ depth, walk (depth + 1) = via (walk depth))
    (v : Value) : walk defs.assigned.length v = via (walk defs.assigned.length) v := by
  rw [← hsucc]
  exact (Trail.nil v).walk_eq hacyclic hvia hzero hsucc (by simp)

end

/-- The operands that the linear form of `v` is made of: those of a sum or a
difference. -/
def linearCalls (defs : Definitions) (v : Value) : List Value :=
  match defs.app? v with
  | some (.binary .add left right) => [left, right]
  | some (.binary .sub left right) => [left, right]
  | _ => []

/-- They are operands of the definition. -/
theorem mem_operands_of_linearCalls {u v : Value} (h : u ∈ defs.linearCalls v) :
    ∃ rhs, defs.rhs? v = some rhs ∧ u ∈ rhs.operands := by
  unfold linearCalls at h
  split at h
  · rename_i left right happ
    obtain ⟨id, ty, rfl, hlookup⟩ := app?_eq_some_iff.1 happ
    exact ⟨_, hlookup, h⟩
  · rename_i left right happ
    obtain ⟨id, ty, rfl, hlookup⟩ := app?_eq_some_iff.1 happ
    exact ⟨_, hlookup, h⟩
  · cases h

/-- Other operands make no difference. -/
theorem linearVia_congr {f g : Value → Option Linear} {v : Value}
    (h : ∀ u ∈ defs.linearCalls v, f u = g u) : defs.linearVia f v = defs.linearVia g v := by
  cases v with
  | bool | bv | reloc | initial | returnAddr | clobbered => rfl
  | assign id ty =>
    simp only [linearVia]
    refine congrArg _ (funext fun width => congrArg _ ?_)
    unfold linearCalls at h
    -- Only sums and differences look at their operands.
    split
    · rename_i left right happ
      simp only [happ] at h
      rw [h left (by simp), h right (by simp)]
    · rename_i left right happ
      simp only [happ] at h
      rw [h left (by simp), h right (by simp)]
    · rfl

/-- So a linear form rests on those of the operands. -/
theorem shallow_linearVia (defs : Definitions) : defs.Shallow defs.linearVia := by
  intro f g v h
  refine linearVia_congr fun u hu => ?_
  obtain ⟨rhs, hrhs, hmem⟩ := mem_operands_of_linearCalls hu
  exact h rhs hrhs u hmem

/-- The linear form of a value is made of those of its operands. -/
theorem Acyclic.linear_eq (hacyclic : defs.Acyclic) (v : Value) :
    defs.linear v = defs.linearVia defs.linear v :=
  hacyclic.walk_eq defs.shallow_linearVia rfl (fun _ => rfl) v

end Definitions

/-! ### What a linear form is worth -/

namespace Linear.Describes

variable {ρ : Valuation} {width : Nat} {form : Linear} {d e : Datum}

/-- A form without a base is a constant. -/
theorem eq_ofNat (h : form.Describes ρ width d) (hbase : form.base = none) :
    d = .bits width (.ofNat width form.offset.toNat) := by
  obtain ⟨base, offset⟩ := form
  cases hbase
  rw [BitVec.ofNat_toNat]
  exact h

/-- A form with a base is what the register held at entry plus the offset,
wrapping at the width. -/
theorem eq_ofNat_add (h : form.Describes ρ width d) {r : Reg} (hbase : form.base = some r) :
    ∃ x, ρ.denote (.initial r (.bv width)) = .bits width x ∧
      d = .bits width (.ofNat width (x.toNat + form.offset.toNat)) := by
  obtain ⟨base, offset⟩ := form
  cases hbase
  obtain ⟨x, hx, hd⟩ := h
  refine ⟨x, hx, hd.trans (congrArg _ ?_)⟩
  rw [BitVec.ofNat_add, BitVec.ofNat_toNat, BitVec.ofNat_toNat, BitVec.setWidth_eq]

/-- A form describes one datum at most. -/
theorem unique (hd : form.Describes ρ width d) (he : form.Describes ρ width e) : d = e := by
  cases hbase : form.base with
  | none => rw [hd.eq_ofNat hbase, he.eq_ofNat hbase]
  | some r =>
    obtain ⟨x, hx, hd⟩ := hd.eq_ofNat_add hbase
    obtain ⟨y, hy, he⟩ := he.eq_ofNat_add hbase
    obtain rfl : x = y := by simpa using hx.symm.trans hy
    rw [hd, he]

end Linear.Describes

namespace Definitions

variable {defs : Definitions} {types : AssignId → Ty} {ρ : Valuation}

/-- The offset of a form has no bit set above the width of the value. -/
theorem offset_lt_of_linearVia {operand : Value → Option Linear} {v : Value} {width : Nat}
    (hty : v.ty = .bv width) {form : Linear} (h : defs.linearVia operand v = some form) :
    form.offset.toNat < 2 ^ width := by
  obtain ⟨width', hwidth', hform⟩ := Option.bind_eq_some_iff.1 h
  rw [hty] at hwidth'
  cases hwidth'
  -- Whatever the form was made of, it was cut to the width in the end.
  obtain ⟨raw, -, rfl⟩ := Option.map_eq_some_iff.1 hform
  rw [Linear.cut, Word.toNat_keepLow]
  exact Nat.mod_lt _ (Nat.two_pow_pos width)

/-- Whatever the value may be is what its form describes. -/
theorem describes_of_linear (hdefs : defs.Typed types) (hρ : ρ.Typed)
    (hsat : ρ.Satisfies types defs) {v : Value} (hv : v.Fits types) {width : Nat}
    (hty : v.ty = .bv width) {form : Linear} (h : defs.linear v = some form) {d : Datum}
    (hd : ρ.Denotes v d) : form.Describes ρ width d := by
  obtain ⟨hclobbered, width', hty', hform⟩ := linear_sound hdefs hρ hsat hv h
  obtain rfl : width' = width := Ty.bv.inj (hty'.symm.trans hty)
  rwa [(Valuation.denotes_iff hclobbered d).1 hd]

/-- The linear form of a value is made of those of its operands, however far
back they reach, and says what the value is: the entry value of its base
plus its offset, wrapping at the width, or its offset alone. So two
addresses of one width with one form are one address, and the stack pointer
counts as back where it was only if it is. -/
theorem linear_denotes (hacyclic : defs.Acyclic) (hdefs : defs.Typed types) (hρ : ρ.Typed)
    (hsat : ρ.Satisfies types defs) :
    (∀ v, defs.linear v = defs.linearVia defs.linear v) ∧
    (∀ v width form, v.Fits types → v.ty = .bv width → defs.linear v = some form →
      form.offset.toNat < 2 ^ width ∧ ∀ d, ρ.Denotes v d →
        (∀ r, form.base = some r → ∃ x, ρ.denote (.initial r (.bv width)) = .bits width x ∧
          d = .bits width (.ofNat width (x.toNat + form.offset.toNat))) ∧
        (form.base = none → d = .bits width (.ofNat width form.offset.toNat))) ∧
    (∀ u v width form, u.Fits types → v.Fits types → u.ty = .bv width → v.ty = .bv width →
      defs.linear u = some form → defs.linear v = some form →
        ∀ d e, ρ.Denotes u d → ρ.Denotes v e → d = e) ∧
    ∀ c : Candidate, c.setting.defs = defs → c.regs.Typed c.setting.machine types →
      c.stackAtEntry = true → ∃ ty, c.setting.machine.regTy? c.setting.machine.sp = some ty ∧
        c.regs.Always ρ c.setting.machine.sp (· = ρ.denote (.initial c.setting.machine.sp ty)) := by
  refine ⟨hacyclic.linear_eq, fun v width form hv hty h => ⟨?_, fun d hd => ?_⟩, ?_, ?_⟩
  · exact offset_lt_of_linearVia hty (hacyclic.linear_eq v ▸ h)
  · have hform := describes_of_linear hdefs hρ hsat hv hty h hd
    exact ⟨fun r => hform.eq_ofNat_add, hform.eq_ofNat⟩
  · intro u v width form hu hv hut hvt huform hvform d e hd he
    exact (describes_of_linear hdefs hρ hsat hu hut huform hd).unique
      (describes_of_linear hdefs hρ hsat hv hvt hvform he)
  · rintro c rfl hregs h
    exact c.always_stackAtEntry hdefs hregs hρ hsat h

/-- An eight-bit stack pointer goes down by 300 and up by 44, once round. -/
def onceRound : Definitions where
  assigned := [
    (2, .app (.binary .add (.bv 8 44) (.assign 1 (.bv 8)))),
    (1, .app (.binary .sub (.assign 0 (.bv 8)) (.bv 8 100))),
    (0, .app (.binary .sub (.initial 1 (.bv 8)) (.bv 8 200)))]

/-- The stack pointer is 7 at entry. -/
def onceRoundValues : Valuation where
  base _ := 0
  symbol
    | .initial 1 (.bv 8) => .bits 8 7
    | .assign 0 (.bv 8) => .bits 8 63
    | .assign 1 (.bv 8) => .bits 8 219
    | .assign 2 (.bv 8) => .bits 8 7
    | v => .ofTy v.ty

/-- A machine with registers of eight bits. -/
def smallMachine : Machine where
  name := "small"
  addrWidth := 8
  order := .little
  registers := [⟨"ip", .bv 8, rfl⟩, ⟨"sp", .bv 8, rfl⟩]
  ip := 0
  sp := 1

/-- A block at whose end the stack pointer has gone once round. -/
def onceRoundCandidate : Candidate where
  setting := {
    machine := smallMachine
    image := .ofCode .little 0x10 []
    defs := onceRound
    recognizers := .stacked smallMachine
    abs := fun _ => .other
    feasible := .ofCondition
    known := [] }
  index := 0
  addr := 0x10
  stmts := []
  regs := ⟨[.bv 8 0x12, .assign 2 (.bv 8)]⟩

/-- There are three assignments. -/
theorem onceRound_cases {id : AssignId} {rhs : Rhs} (h : onceRound.assigned.lookup id = some rhs) :
    (id = 2 ∧ rhs = .app (.binary .add (.bv 8 44) (.assign 1 (.bv 8)))) ∨
    (id = 1 ∧ rhs = .app (.binary .sub (.assign 0 (.bv 8)) (.bv 8 100))) ∨
    (id = 0 ∧ rhs = .app (.binary .sub (.initial 1 (.bv 8)) (.bv 8 200))) := by
  simpa [onceRound] using mem_of_lookup_eq_some h

/-- Every assignment reads earlier ones only. -/
theorem acyclic_onceRound : onceRound.Acyclic := by
  refine acyclic_of_lt ?_
  rintro id other ⟨rhs, hrhs, u, hu, hother⟩
  obtain ⟨rfl, rfl⟩ | ⟨rfl, rfl⟩ | ⟨rfl, rfl⟩ := onceRound_cases hrhs <;>
    rcases List.mem_pair.1 hu with rfl | rfl <;> cases hother <;> decide

/-- All of them are of eight bits. -/
theorem typed_onceRound : onceRound.Typed fun _ => .bv 8 where
  result := by
    intro id app h
    obtain ⟨-, heq⟩ | ⟨-, heq⟩ | ⟨-, heq⟩ := onceRound_cases h <;> cases heq <;> decide
  operands := by
    intro id app h v hv
    have hliteral (w : Word) (hw : w.keepLow 8 = w) : (Value.bv 8 w).Fits fun _ => .bv 8 := hw
    obtain ⟨-, heq⟩ | ⟨-, heq⟩ | ⟨-, heq⟩ := onceRound_cases h <;> cases heq <;>
      rcases List.mem_pair.1 hv with rfl | rfl <;>
      first | exact hliteral _ (by decide) | trivial

/-- All data have their types. -/
theorem typed_onceRoundValues : onceRoundValues.Typed := by
  intro v
  unfold onceRoundValues
  simp only
  split <;> simp [Value.ty]

/-- The data are what the assignments say. -/
theorem satisfies_onceRound : onceRoundValues.Satisfies (fun _ => .bv 8) onceRound := by
  intro id app h
  obtain ⟨rfl, heq⟩ | ⟨rfl, heq⟩ | ⟨rfl, heq⟩ := onceRound_cases h <;> cases heq <;>
    exact (Valuation.yields_iff (by decide) _).2 (by decide)

/-- Halfway round the form is wrapped, and all the way round the stack
pointer counts as back where it was. -/
theorem linear_denotes_onceRound :
    onceRound.linear (.assign 1 (.bv 8)) = some ⟨some 1, 212⟩ ∧
    (∀ d, onceRoundValues.Denotes (.assign 1 (.bv 8)) d → d = .bits 8 (.ofNat 8 (7 + 212))) ∧
    onceRound.linear (.assign 2 (.bv 8)) = onceRound.linear (.initial 1 (.bv 8)) ∧
    onceRoundCandidate.stackAtEntry = true ∧
    onceRoundCandidate.regs.Always onceRoundValues 1 (· = .bits 8 7) := by
  have hhalf : onceRound.linear (.assign 1 (.bv 8)) = some ⟨some 1, 212⟩ := by decide
  have hregs : onceRoundCandidate.regs.Typed onceRoundCandidate.setting.machine fun _ => .bv 8 := by
    intro r v hv
    cases r with
    | zero =>
      cases hv
      exact ⟨rfl, (by decide : Word.keepLow 8 0x12 = 0x12)⟩
    | succ r =>
      cases r with
      | zero =>
        cases hv
        exact ⟨rfl, rfl⟩
      | succ r => cases hv
  obtain ⟨-, hform, -, hstack⟩ := linear_denotes acyclic_onceRound typed_onceRound
    typed_onceRoundValues satisfies_onceRound
  -- `212` is `-300` at eight bits, and `7 + 212` does not wrap.
  refine ⟨hhalf, fun d hd => ?_, by decide, by decide, ?_⟩
  · obtain ⟨x, hx, hd⟩ := ((hform (.assign 1 (.bv 8)) 8 _ rfl rfl hhalf).2 d hd).1 1 rfl
    cases hx
    exact hd
  · obtain ⟨ty, hty, hsp⟩ := hstack onceRoundCandidate rfl hregs (by decide)
    cases hty
    exact hsp

end Definitions

end FlowRecovery
