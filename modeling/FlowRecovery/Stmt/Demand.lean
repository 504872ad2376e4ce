import FlowRecovery.Stmt

/-!
# `FlowRecovery.Stmt.Demand`: removing assignments nobody reads

`prune` sweeps a block backwards. A statement stays when it has an
effect or when it is an assignment whose number is demanded, and a
statement that stays demands the assignments it reads. Which of the
machine's own statements and primitives have an effect is the machine's
choice, an `Effects` record.

Nothing is reordered or added (`prune_sublist`). What is demanded in the
end are the roots and what the kept statements read
(`mem_pruneSweep_iff`).
-/

set_option autoImplicit false

namespace FlowRecovery

/-- Which machine-specific statements and primitives must be kept. -/
structure Effects where
  ofStmt : String → List Value → Bool
  ofPrim : Prim → Bool

namespace Effects

/-- Every machine statement has an effect, and every primitive that is
not pure. -/
def standard : Effects where
  ofStmt _ _ := true
  ofPrim prim := !prim.isPure

/-- Must the statement be kept even if nothing reads its result? A load
counts: it may trap. -/
def has (effects : Effects) : Stmt → Bool
  | .assign _ _ (.app _) => false
  | .assign _ _ (.load ..) => true
  | .assign _ _ (.prim prim) => effects.ofPrim prim
  | .store .. | .instruction .. | .comment _ => true
  | .arch name args => effects.ofStmt name args

end Effects

/-- Must the statement stay when these assignments are demanded after
it? -/
def Stmt.isLive (effects : Effects) (demanded : List AssignId) (s : Stmt) : Bool :=
  s.assignId?.any demanded.contains || effects.has s

/-- One step of the backward sweep. The state is what is demanded after
the statement and what has been kept so far. -/
def pruneStep (effects : Effects) (s : Stmt) (after : List AssignId × List Stmt) :
    List AssignId × List Stmt :=
  if s.isLive effects after.1 then (s.usedIds ++ after.1, s :: after.2) else after

/-- The sweep over a block, from the last statement to the first. -/
def pruneSweep (effects : Effects) (roots : List Value) (stmts : List Stmt) :
    List AssignId × List Stmt :=
  stmts.foldr (pruneStep effects) (roots.filterMap Value.assignId?, [])

/-- The statements that have an effect or are needed, directly or not,
by such a statement or by a root. -/
def prune (effects : Effects) (roots : List Value) (stmts : List Stmt) : List Stmt :=
  (pruneSweep effects roots stmts).2

/-- Nothing is kept of nothing. -/
@[simp] theorem prune_nil (effects : Effects) (roots : List Value) :
    prune effects roots [] = [] := rfl

/-- The first statement is the last one that the sweep comes to. -/
theorem pruneSweep_cons (effects : Effects) (roots : List Value) (s : Stmt) (rest : List Stmt) :
    pruneSweep effects roots (s :: rest) =
      pruneStep effects s (pruneSweep effects roots rest) := rfl

/-- The first statement stays if it is live among what the rest
demands. -/
theorem prune_cons (effects : Effects) (roots : List Value) (s : Stmt) (rest : List Stmt) :
    prune effects roots (s :: rest) =
      if s.isLive effects (pruneSweep effects roots rest).1 then s :: prune effects roots rest
      else prune effects roots rest := by
  rw [prune, pruneSweep_cons, pruneStep]
  split <;> rfl

/-! ### What is live and what is demanded -/

/-- A statement is live if it has an effect or its result is demanded. -/
theorem Stmt.isLive_iff {effects : Effects} {demanded : List AssignId} {s : Stmt} :
    s.isLive effects demanded = true ↔
      effects.has s = true ∨ ∃ id, s.assignId? = some id ∧ id ∈ demanded := by
  rw [isLive, Bool.or_eq_true, or_comm, Option.any_eq_true]
  simp only [List.contains_iff_mem]

/-- With more demanded, more is live. -/
theorem Stmt.isLive_mono {effects : Effects} {demanded more : List AssignId} {s : Stmt}
    (hsub : demanded ⊆ more) (h : s.isLive effects demanded = true) :
    s.isLive effects more = true := by
  rw [isLive_iff] at h ⊢
  exact h.imp_right fun ⟨id, hid, hmem⟩ => ⟨id, hid, hsub hmem⟩

/-- What a list demands when its first statement stays. -/
theorem pruneSweep_cons_of_live {effects : Effects} {roots : List Value} {s : Stmt}
    {rest : List Stmt} (hlive : s.isLive effects (pruneSweep effects roots rest).1 = true) :
    (pruneSweep effects roots (s :: rest)).1 =
      s.usedIds ++ (pruneSweep effects roots rest).1 := by
  rw [pruneSweep_cons, pruneStep, if_pos hlive]

/-- The sweep passes over a statement that goes. -/
theorem pruneSweep_cons_of_dead {effects : Effects} {roots : List Value} {s : Stmt}
    {rest : List Stmt} (hdead : ¬ s.isLive effects (pruneSweep effects roots rest).1 = true) :
    pruneSweep effects roots (s :: rest) = pruneSweep effects roots rest := by
  rw [pruneSweep_cons, pruneStep, if_neg hdead]

/-- What is demanded are the roots and what the kept statements read. -/
theorem mem_pruneSweep_iff {effects : Effects} {roots : List Value} {stmts : List Stmt}
    {id : AssignId} :
    id ∈ (pruneSweep effects roots stmts).1 ↔
      id ∈ roots.filterMap Value.assignId? ∨
        ∃ s ∈ prune effects roots stmts, id ∈ s.usedIds := by
  induction stmts with
  | nil => simp [pruneSweep]
  | cons s rest ih =>
    rw [prune_cons]
    by_cases hlive : s.isLive effects (pruneSweep effects roots rest).1 = true
    · rw [pruneSweep_cons_of_live hlive, if_pos hlive, List.mem_append, ih]
      simp only [List.mem_cons, exists_eq_or_imp]
      exact or_left_comm
    · rw [pruneSweep_cons_of_dead hlive, if_neg hlive, ih]

/-! ### What is kept -/

/-- What is kept stays in order. -/
theorem prune_sublist (effects : Effects) (roots : List Value) (stmts : List Stmt) :
    (prune effects roots stmts).Sublist stmts := by
  induction stmts with
  | nil => exact List.Sublist.refl _
  | cons s rest ih =>
    rw [prune_cons]
    split
    · exact ih.cons_cons s
    · exact ih.cons s

end FlowRecovery
