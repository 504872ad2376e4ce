import FlowRecovery.Stmt.Demand
import Mathlib.Data.Set.Basic
import Mathlib.Order.Bounds.Defs

/-!
# `FlowRecovery.Proofs.Demand`: pruning keeps the least closed set

A set of statements is closed (`DemandClosed`) when it has every
statement with an effect, every assignment of a root, and every
assignment of something that a statement of the set reads. What pruning
keeps is closed (`AssignedFirst.demandClosed_prune`) and part of every
closed set (`DemandClosed.prune_subset`), although the sweep passes each
statement only once.

That one pass is enough rests on the order of the list: nothing is read
before it is assigned (`AssignedFirst`). When the sweep decides about a
statement it has seen all of its readers, and what is demanded later in
the sweep makes no difference to it (`AssignedFirst.isLive_cons`). So a
statement stays exactly if it is live among everything that is demanded
in the end (`AssignedFirst.prune_eq_filter`).
-/

set_option autoImplicit false

namespace FlowRecovery

/-- The statement assigns what the value stands for. -/
def Stmt.Assigns (s : Stmt) (v : Value) : Prop :=
  ∃ id ∈ s.assignId?, v.assignId? = some id

/-- Whether a statement assigns a value can be computed. -/
instance (s : Stmt) : DecidablePred s.Assigns := fun v =>
  inferInstanceAs (Decidable (∃ id ∈ s.assignId?, v.assignId? = some id))

/-- No statement reads what a later one assigns. -/
abbrev AssignedFirst (stmts : List Stmt) : Prop :=
  stmts.Pairwise fun s t => ∀ v ∈ s.uses, ¬t.Assigns v

/-- The set has every statement of the list that has an effect, that
assigns a root, or that assigns what a statement of the set reads. -/
structure DemandClosed (effects : Effects) (roots : List Value) (stmts : List Stmt)
    (kept : Set Stmt) : Prop where
  effect : ∀ s ∈ stmts, effects.has s = true → s ∈ kept
  root : ∀ s ∈ stmts, ∀ v ∈ roots, s.Assigns v → s ∈ kept
  operand : ∀ s ∈ stmts, ∀ t ∈ kept, ∀ v ∈ t.uses, s.Assigns v → s ∈ kept

variable {effects : Effects} {roots : List Value} {s t : Stmt} {stmts rest : List Stmt}

/-! ### What is live in the end -/

/-- In terms of numbers: one of the values is assigned if its number is
among theirs. -/
theorem Stmt.exists_assigns_iff {values : List Value} :
    (∃ v ∈ values, s.Assigns v) ↔
      ∃ id, s.assignId? = some id ∧ id ∈ values.filterMap Value.assignId? := by
  simp only [Assigns, List.mem_filterMap]
  constructor
  · rintro ⟨v, hv, id, hid, hvid⟩
    exact ⟨id, hid, v, hv, hvid⟩
  · rintro ⟨id, hid, v, hv, hvid⟩
    exact ⟨v, hv, id, hid, hvid⟩

/-- Live in the end is what has an effect and what assigns a root or
something that a kept statement reads. -/
theorem isLive_pruneSweep_iff :
    s.isLive effects (pruneSweep effects roots stmts).1 = true ↔
      effects.has s = true ∨ (∃ v ∈ roots, s.Assigns v) ∨
        ∃ t ∈ prune effects roots stmts, ∃ v ∈ t.uses, s.Assigns v := by
  simp only [Stmt.isLive_iff, mem_pruneSweep_iff, Stmt.exists_assigns_iff, Stmt.usedIds]
  constructor
  · rintro (hhas | ⟨id, hid, hroot | ⟨t, ht, huse⟩⟩)
    · exact .inl hhas
    · exact .inr (.inl ⟨id, hid, hroot⟩)
    · exact .inr (.inr ⟨t, ht, id, hid, huse⟩)
  · rintro (hhas | ⟨id, hid, hroot⟩ | ⟨t, ht, id, hid, huse⟩)
    · exact .inl hhas
    · exact .inr ⟨id, hid, .inl hroot⟩
    · exact .inr ⟨id, hid, .inr ⟨t, ht, huse⟩⟩

namespace AssignedFirst

/-- Whether a statement is live does not depend on what stands before
it. -/
theorem isLive_cons (h : AssignedFirst (t :: rest)) (hs : s ∈ rest) (effects : Effects)
    (roots : List Value) :
    s.isLive effects (pruneSweep effects roots (t :: rest)).1 =
      s.isLive effects (pruneSweep effects roots rest).1 := by
  by_cases hlive : t.isLive effects (pruneSweep effects roots rest).1 = true
  · -- Before `t` the numbers that it reads are demanded as well, but `s` assigns none of them.
    have hunread : ∀ id, s.assignId? = some id → id ∉ t.usedIds := by
      intro id hid hused
      obtain ⟨v, hv, hvid⟩ := List.mem_filterMap.1 hused
      exact (List.pairwise_cons.1 h).1 s hs v hv ⟨id, hid, hvid⟩
    rw [Bool.eq_iff_iff, Stmt.isLive_iff, Stmt.isLive_iff, pruneSweep_cons_of_live hlive]
    refine or_congr_right (exists_congr fun id => and_congr_right fun hid => ?_)
    rw [List.mem_append, or_iff_right (hunread id hid)]
  · rw [pruneSweep_cons_of_dead hlive]

/-- The sweep keeps what is live in the end. -/
theorem prune_eq_filter (h : AssignedFirst stmts) (effects : Effects) (roots : List Value) :
    prune effects roots stmts =
      stmts.filter (·.isLive effects (pruneSweep effects roots stmts).1) := by
  induction stmts with
  | nil => rfl
  | cons s rest ih =>
    -- Nothing changes for the rest, so only the first statement is to be decided.
    have hrest := List.filter_congr fun t ht => h.isLive_cons ht effects roots
    rw [prune_cons, List.filter_cons, hrest, ← ih (List.pairwise_cons.1 h).2]
    by_cases hlive : s.isLive effects (pruneSweep effects roots rest).1 = true
    · have hstill : s.isLive effects (pruneSweep effects roots (s :: rest)).1 = true := by
        rw [pruneSweep_cons_of_live hlive]
        exact Stmt.isLive_mono (List.subset_append_right _ _) hlive
      rw [if_pos hlive, if_pos hstill]
    · rw [pruneSweep_cons_of_dead hlive]

/-- Membership in what is kept. -/
theorem mem_prune_iff (h : AssignedFirst stmts) :
    s ∈ prune effects roots stmts ↔
      s ∈ stmts ∧ s.isLive effects (pruneSweep effects roots stmts).1 = true := by
  rw [h.prune_eq_filter, List.mem_filter]

/-- What is kept is closed: effects, roots and operands are what makes a
statement live in the end. -/
theorem demandClosed_prune (h : AssignedFirst stmts) (effects : Effects) (roots : List Value) :
    DemandClosed effects roots stmts {s | s ∈ prune effects roots stmts} where
  effect _ hs hhas := h.mem_prune_iff.2 ⟨hs, isLive_pruneSweep_iff.2 (.inl hhas)⟩
  root _ hs v hv hassigns :=
    h.mem_prune_iff.2 ⟨hs, isLive_pruneSweep_iff.2 (.inr (.inl ⟨v, hv, hassigns⟩))⟩
  operand _ hs t ht v hv hassigns :=
    h.mem_prune_iff.2 ⟨hs, isLive_pruneSweep_iff.2 (.inr (.inr ⟨t, ht, v, hv, hassigns⟩))⟩

end AssignedFirst

/-- Nothing is kept that a closed set could do without. -/
theorem DemandClosed.prune_subset {kept : Set Stmt} (h : DemandClosed effects roots stmts kept)
    (hrest : rest ⊆ stmts) : ∀ s ∈ prune effects roots rest, s ∈ kept := by
  -- Backwards over the list: a statement is live because of roots and of what is kept behind it.
  induction rest with
  | nil => exact fun s hs => absurd hs List.not_mem_nil
  | cons t rest ih =>
    obtain ⟨ht, hrest⟩ := List.cons_subset.1 hrest
    have hkept := ih hrest
    rw [prune_cons]
    by_cases hlive : t.isLive effects (pruneSweep effects roots rest).1 = true
    · rw [if_pos hlive]
      refine List.forall_mem_cons.2 ⟨?_, hkept⟩
      obtain hhas | ⟨v, hv, hassigns⟩ | ⟨u, hu, v, hv, hassigns⟩ := isLive_pruneSweep_iff.1 hlive
      · exact h.effect t ht hhas
      · exact h.root t ht v hv hassigns
      · exact h.operand t ht u (hkept u hu) v hv hassigns
    · rw [if_neg hlive]
      exact hkept

/-! ### Sweeping again -/

/-- A second sweep demands and keeps the same. -/
theorem pruneSweep_prune (effects : Effects) (roots : List Value) (stmts : List Stmt) :
    pruneSweep effects roots (prune effects roots stmts) = pruneSweep effects roots stmts := by
  induction stmts with
  | nil => rfl
  | cons s rest ih =>
    rw [prune_cons]
    by_cases hlive : s.isLive effects (pruneSweep effects roots rest).1 = true
    · rw [if_pos hlive, pruneSweep_cons, pruneSweep_cons, ih]
    · rw [if_neg hlive, pruneSweep_cons_of_dead hlive, ih]

/-- With more roots more is demanded and more is kept. -/
theorem pruneSweep_mono {roots' : List Value} (h : roots ⊆ roots') (effects : Effects)
    (stmts : List Stmt) :
    (pruneSweep effects roots stmts).1 ⊆ (pruneSweep effects roots' stmts).1 ∧
      (prune effects roots stmts).Sublist (prune effects roots' stmts) := by
  induction stmts with
  | nil => exact ⟨List.filterMap_subset _ h, List.Sublist.refl _⟩
  | cons s rest ih =>
    obtain ⟨hdemanded, hkept⟩ := ih
    rw [prune_cons, prune_cons]
    by_cases hlive : s.isLive effects (pruneSweep effects roots rest).1 = true
    · have hlive' := Stmt.isLive_mono hdemanded hlive
      rw [pruneSweep_cons_of_live hlive, pruneSweep_cons_of_live hlive', if_pos hlive,
        if_pos hlive']
      exact ⟨List.append_subset.2 ⟨List.subset_append_left _ _,
        List.subset_append_of_subset_right _ hdemanded⟩, hkept.cons_cons s⟩
    · -- With more roots the statement may be live after all.
      rw [pruneSweep_cons_of_dead hlive, if_neg hlive]
      by_cases hlive' : s.isLive effects (pruneSweep effects roots' rest).1 = true
      · rw [pruneSweep_cons_of_live hlive', if_pos hlive']
        exact ⟨List.subset_append_of_subset_right _ hdemanded, hkept.cons s⟩
      · rw [pruneSweep_cons_of_dead hlive', if_neg hlive']
        exact ⟨hdemanded, hkept⟩

/-- Pruning keeps the least closed set of statements, each as often as it
stands in the list and in the same order. Pruning again changes nothing,
and with more roots more is kept. It does not matter whether several
statements assign the same number, as long as all of them come before its
first use. -/
theorem prune_isLeast (effects : Effects) (roots : List Value) {stmts : List Stmt}
    (h : AssignedFirst stmts) :
    IsLeast {kept : Set Stmt | DemandClosed effects roots stmts kept}
      {s | s ∈ prune effects roots stmts} ∧
    prune effects roots stmts = stmts.filter (· ∈ prune effects roots stmts) ∧
    prune effects roots (prune effects roots stmts) = prune effects roots stmts ∧
    ∀ roots', roots ⊆ roots' →
      (prune effects roots stmts).Sublist (prune effects roots' stmts) := by
  refine ⟨⟨h.demandClosed_prune effects roots, fun kept hkept => ?_⟩, ?_, ?_, ?_⟩
  · exact hkept.prune_subset (List.Subset.refl stmts)
  · rw [h.prune_eq_filter]
    refine List.filter_congr fun s hs => ?_
    rw [Bool.eq_iff_iff, decide_eq_true_iff, List.mem_filter, and_iff_right hs]
  · exact congrArg Prod.snd (pruneSweep_prune effects roots stmts)
  · exact fun roots' hroots => (pruneSweep_mono hroots effects stmts).2

/-- A hint has no effect here, and primitives only if they are not
pure. -/
def hintEffects : Effects :=
  { Effects.standard with ofStmt := fun name _ => name != "hint" }

/-- A chain of three assignments ends in a store and another one in a
hint. One assignment reads from both, and nobody reads it. -/
def hintedStmts : List Stmt :=
  [.assign 0 (.bv 8) (.app (.unary .not (.initial 1 (.bv 8)))),
    .assign 1 (.bv 8) (.app (.unary .neg (.assign 0 (.bv 8)))),
    .assign 2 (.bv 8) (.prim ⟨"parity", [.assign 1 (.bv 8)], .bv 8, true⟩),
    .assign 3 (.bv 8) (.app (.unary .not (.assign 9 (.bv 8)))),
    .arch "hint" [.assign 3 (.bv 8)],
    .assign 4 (.bv 8) (.app (.binary .add (.assign 3 (.bv 8)) (.assign 2 (.bv 8)))),
    .store (.initial 4 (.bv 64)) (.assign 2 (.bv 8)),
    .comment "done"]

/-- Without roots the chain of the store is kept. The root adds the
assignment that nobody reads and the one that it needs. -/
theorem prune_isLeast_hinted :
    AssignedFirst hintedStmts ∧
    IsLeast {kept : Set Stmt | DemandClosed hintEffects [] hintedStmts kept}
      {s | s ∈ prune hintEffects [] hintedStmts} ∧
    (prune hintEffects [] hintedStmts).filterMap Stmt.assignId? = [0, 1, 2] ∧
    (prune hintEffects [.assign 4 (.bv 8)] hintedStmts).filterMap Stmt.assignId? =
      [0, 1, 2, 3, 4] ∧
    (prune hintEffects [] hintedStmts).Sublist
      (prune hintEffects [.assign 4 (.bv 8)] hintedStmts) := by
  have hfirst : AssignedFirst hintedStmts := by decide
  obtain ⟨hleast, -, -, hmore⟩ := prune_isLeast hintEffects [] hfirst
  exact ⟨hfirst, hleast, by decide, by decide, hmore _ (List.nil_subset _)⟩

end FlowRecovery
