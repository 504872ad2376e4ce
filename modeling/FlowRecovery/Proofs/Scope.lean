import FlowRecovery.Target
import Mathlib.Data.List.Nodup

/-!
# `FlowRecovery.Proofs.Scope`: values and where they are defined

A value that names the result of an assignment means something only
where that assignment is known. `Value.Known known v` says that `v` is no
such name or is among `known`, and `Scoped known stmts` that every
statement reads only names that are known there or assigned before it.

- `Scoped.prune`: removing assignments that nobody reads leaves no name
  without its assignment;
- `Definitions.Closed`: the definition of a known value reads known
  values. This holds of definitions that agree with scoped statements
  (`Definitions.Closed.append`);
- `RunScoped` and `BlocksScoped` say the same of lists of blocks, where
  later blocks may read what earlier ones assign.
-/

set_option autoImplicit false

namespace FlowRecovery

/-! ### Known values -/

/-- The value is not the result of an assignment, or of a known one. -/
def Value.Known (known : List Value) (v : Value) : Prop :=
  v.assignId? = none ∨ v ∈ known

/-- A value stays known where more is known. -/
theorem Value.Known.mono {known known' : List Value} {v : Value} (h : v.Known known)
    (hsub : known ⊆ known') : v.Known known' :=
  h.imp id fun hv => hsub hv

/-- A name that is known is among the known ones. -/
theorem Value.Known.of_assign {known : List Value} {id : AssignId} {ty : Ty}
    (h : (Value.assign id ty).Known known) : Value.assign id ty ∈ known := by
  cases h with
  | inl hnone => cases hnone
  | inr hmem => exact hmem

/-- The values that statements give names to. -/
def results (stmts : List Stmt) : List Value :=
  stmts.filterMap Stmt.result?

/-- Without statements there are no results. -/
@[simp] theorem results_nil : results [] = [] := rfl

/-- The results come in the order of the statements. -/
theorem results_append (first second : List Stmt) :
    results (first ++ second) = results first ++ results second :=
  List.filterMap_append

/-- The result of the first statement, if it has one, comes first. -/
theorem results_cons (s : Stmt) (rest : List Stmt) :
    results (s :: rest) = s.result?.toList ++ results rest := by
  cases h : s.result? with
  | none => rw [results, List.filterMap_cons_none h]; rfl
  | some v => rw [results, List.filterMap_cons_some h]; rfl

/-- Results are the names of assignments. -/
theorem mem_results {stmts : List Stmt} {v : Value} :
    v ∈ results stmts ↔ ∃ id ty rhs, v = .assign id ty ∧ Stmt.assign id ty rhs ∈ stmts := by
  rw [results, List.mem_filterMap]
  constructor
  · rintro ⟨s, hs, hv⟩
    cases s with
    | assign id ty rhs =>
      cases hv
      exact ⟨id, ty, rhs, rfl, hs⟩
    | store | arch | instruction | comment => cases hv
  · rintro ⟨id, ty, rhs, hv, hs⟩
    exact ⟨_, hs, hv ▸ rfl⟩

/-! ### Statements -/

/-- The statements that are assignments. -/
def assignments (stmts : List Stmt) : List Stmt :=
  stmts.filter (·.assignId?.isSome)

/-- The assignments of two lists, one after the other. -/
theorem assignments_append (first second : List Stmt) :
    assignments (first ++ second) = assignments first ++ assignments second :=
  List.filter_append first second

/-- Every assignment is among them. -/
theorem mem_assignments {stmts : List Stmt} {id : AssignId} {ty : Ty} {rhs : Rhs} :
    Stmt.assign id ty rhs ∈ assignments stmts ↔ Stmt.assign id ty rhs ∈ stmts := by
  simp [assignments, Stmt.assignId?]

/-- What looks only at assignments sees the same in them alone. -/
theorem filterMap_assignments {α : Type} {f : Stmt → Option α}
    (hf : ∀ s, s.assignId? = none → f s = none) (stmts : List Stmt) :
    (assignments stmts).filterMap f = stmts.filterMap f := by
  rw [assignments, List.filterMap_filter]
  congr 1
  funext s
  by_cases hs : s.assignId?.isSome = true
  · rw [if_pos hs]
  · rw [if_neg hs, hf s (by simpa using hs)]

/-- Results come from assignments only. -/
theorem results_assignments (stmts : List Stmt) : results (assignments stmts) = results stmts := by
  refine filterMap_assignments (fun s hs => ?_) stmts
  cases s with
  | assign => cases hs
  | store | arch | instruction | comment => rfl

/-- Every statement reads only what is known before the first one or
assigned by an earlier one. -/
def Scoped (known : List Value) : List Stmt → Prop
  | [] => True
  | s :: rest => (∀ v ∈ s.uses, v.Known known) ∧ Scoped (known ++ s.result?.toList) rest

namespace Scoped

variable {known known' : List Value} {stmts first second : List Stmt}

/-- Statements stay in scope where more is known. -/
theorem mono (h : Scoped known stmts) (hsub : known ⊆ known') : Scoped known' stmts := by
  induction stmts generalizing known known' with
  | nil => trivial
  | cons s rest ih =>
    refine ⟨fun v hv => (h.1 v hv).mono hsub, ih h.2 ?_⟩
    exact List.append_subset.2
      ⟨fun v hv => List.mem_append_left _ (hsub hv), List.subset_append_right _ _⟩

/-- Statements one after the other. The second part may read the results of
the first. -/
theorem append_iff :
    Scoped known (first ++ second) ↔
      Scoped known first ∧ Scoped (known ++ results first) second := by
  induction first generalizing known with
  | nil => simp [Scoped]
  | cons s rest ih =>
    rw [List.cons_append, Scoped, Scoped, ih, results_cons, List.append_assoc, and_assoc]

/-- What a statement reads is known before the first one or assigned by
an earlier one. -/
theorem known_of_mem {s : Stmt} {v : Value} (h : Scoped known (first ++ s :: second))
    (hv : v ∈ s.uses) : v.Known (known ++ results first) :=
  (append_iff.1 h).2.1 v hv

/-- A value that no statement reads need not be known. -/
theorem forget {v : Value} (h : Scoped (known ++ [v]) stmts) (hv : ∀ s ∈ stmts, v ∉ s.uses) :
    Scoped known stmts := by
  induction stmts generalizing known with
  | nil => trivial
  | cons s rest ih =>
    refine ⟨?_, ih ?_ fun t ht => hv t (List.mem_cons_of_mem s ht)⟩
    · intro u hu
      cases h.1 u hu with
      | inl hnone => exact Or.inl hnone
      | inr hmem =>
        cases List.mem_append.1 hmem with
        | inl hknown => exact Or.inr hknown
        | inr hsame =>
          rw [List.mem_singleton.1 hsame] at hu
          exact absurd hu (hv s List.mem_cons_self)
    · -- Only the order of the known values changes.
      refine h.2.mono fun u hu => ?_
      simp only [List.mem_append, List.mem_singleton] at hu ⊢
      grind

end Scoped

/-! ### Pruning -/

/-- Roots stay demanded through the whole sweep. -/
theorem mem_pruneSweep_of_root {effects : Effects} {roots : List Value} {v : Value}
    {id : AssignId} (hv : v ∈ roots) (hid : v.assignId? = some id) (stmts : List Stmt) :
    id ∈ (pruneSweep effects roots stmts).1 :=
  mem_pruneSweep_iff.2 (.inl (List.mem_filterMap.2 ⟨v, hv, hid⟩))

/-- So is everything that a kept statement reads. -/
theorem mem_pruneSweep_of_use {effects : Effects} {roots : List Value} {stmts : List Stmt}
    {s : Stmt} (hs : s ∈ prune effects roots stmts) {v : Value} (hv : v ∈ s.uses) {id : AssignId}
    (hid : v.assignId? = some id) : id ∈ (pruneSweep effects roots stmts).1 :=
  mem_pruneSweep_iff.2 (.inr ⟨s, hs, List.mem_filterMap.2 ⟨v, hv, hid⟩⟩)

/-- An assignment is dropped only if nobody demands its result. -/
theorem not_mem_pruneSweep_of_not_isLive {effects : Effects} {demanded : List AssignId}
    {id : AssignId} {ty : Ty} {rhs : Rhs}
    (h : ¬ (Stmt.assign id ty rhs).isLive effects demanded = true) : id ∉ demanded := by
  intro hmem
  exact h (Stmt.isLive_iff.2 (.inr ⟨id, rfl, hmem⟩))

/-- Pruning keeps the definition of everything that is still read, by a
statement that stays or by a root. -/
theorem Scoped.prune {known roots : List Value} {stmts : List Stmt} (h : Scoped known stmts)
    (effects : Effects) (hroots : ∀ v ∈ roots, v.Known (known ++ results stmts)) :
    Scoped known (prune effects roots stmts) ∧
      ∀ v ∈ roots, v.Known (known ++ results (FlowRecovery.prune effects roots stmts)) := by
  induction stmts generalizing known with
  | nil => exact ⟨trivial, hroots⟩
  | cons s rest ih =>
    have hroots' : ∀ v ∈ roots, v.Known (known ++ s.result?.toList ++ results rest) := by
      intro v hv
      rw [List.append_assoc, ← results_cons]
      exact hroots v hv
    obtain ⟨hrest, hkept⟩ := ih h.2 hroots'
    rw [prune_cons]
    -- A statement that stays keeps its result for the rest of the list. A statement
    -- that goes is one that nobody asks for.
    by_cases hlive : s.isLive effects (pruneSweep effects roots rest).1 = true
    · rw [if_pos hlive]
      refine ⟨⟨h.1, hrest⟩, fun v hv => ?_⟩
      rw [results_cons, ← List.append_assoc]
      exact hkept v hv
    · rw [if_neg hlive]
      cases s with
      | store | arch | instruction | comment =>
        simp only [Stmt.result?, Option.toList_none, List.append_nil] at hrest hkept
        exact ⟨hrest, hkept⟩
      | assign id ty rhs =>
        -- The dropped result is read neither by what stays nor by a root.
        have hunread := not_mem_pruneSweep_of_not_isLive hlive
        simp only [Stmt.result?, Option.toList_some] at hrest hkept
        refine ⟨hrest.forget fun t ht hv => hunread (mem_pruneSweep_of_use ht hv rfl), ?_⟩
        intro v hv
        cases hkept v hv with
        | inl hnone => exact Or.inl hnone
        | inr hmem =>
          rw [List.append_assoc, List.mem_append, List.singleton_append, List.mem_cons] at hmem
          cases hmem with
          | inl hknown => exact Or.inr (List.mem_append_left _ hknown)
          | inr hmem =>
            cases hmem with
            | inl hsame =>
              exact absurd (mem_pruneSweep_of_root hv (hsame ▸ rfl) rest) hunread
            | inr hlater => exact Or.inr (List.mem_append_right _ hlater)

/-! ### Definitions -/

namespace Definitions

/-- Definitions of values in `scope` read only values known in
`scope`. -/
def Closed (d : Definitions) (scope : List Value) : Prop :=
  ∀ v ∈ scope, ∀ rhs, d.rhs? v = some rhs → ∀ u ∈ rhs.operands, u.Known scope

/-- The assignments among `stmts` are recorded as they are. -/
def Agrees (d : Definitions) (stmts : List Stmt) : Prop :=
  ∀ id ty rhs, Stmt.assign id ty rhs ∈ stmts → d.assigned.lookup id = some rhs

variable {d : Definitions} {known scope : List Value} {stmts : List Stmt}

/-- Definitions that agree with more statements agree with fewer of them.
Only assignments count. -/
theorem Agrees.anti {more : List Stmt} (h : d.Agrees more)
    (hsub : assignments stmts ⊆ assignments more) : d.Agrees stmts :=
  fun id ty rhs hmem => h id ty rhs (mem_assignments.1 (hsub (mem_assignments.2 hmem)))

/-- Definitions that agree with two lists agree with both together. -/
theorem Agrees.append {more : List Stmt} (h : d.Agrees stmts) (hmore : d.Agrees more) :
    d.Agrees (stmts ++ more) := by
  intro id ty rhs hmem
  cases List.mem_append.1 hmem with
  | inl hfirst => exact h id ty rhs hfirst
  | inr hsecond => exact hmore id ty rhs hsecond

/-- With nothing in scope there is nothing to check. -/
theorem closed_nil (d : Definitions) : d.Closed [] := by
  intro v hv
  cases hv

/-- The operands of a known value are known. -/
theorem Closed.known_operand (h : d.Closed scope) {v u : Value} (hv : v.Known scope) {rhs : Rhs}
    (hrhs : d.rhs? v = some rhs) (hu : u ∈ rhs.operands) : u.Known scope := by
  cases hv with
  | inl hnone => simp [rhs?, hnone] at hrhs
  | inr hmem => exact h v hmem rhs hrhs u hu

/-- One more assignment that reads only known values. -/
theorem Closed.concat {s : Stmt} (h : d.Closed known) (hs : ∀ v ∈ s.uses, v.Known known)
    (hagrees : d.Agrees [s]) : d.Closed (known ++ s.result?.toList) := by
  cases s with
  | store | arch | instruction | comment =>
    simp only [Stmt.result?, Option.toList_none, List.append_nil]
    exact h
  | assign id ty rhs =>
    intro v hv rhs' hrhs u hu
    refine Value.Known.mono ?_ (List.subset_append_left _ _)
    cases List.mem_append.1 hv with
    | inl hknown => exact h v hknown rhs' hrhs u hu
    | inr hnew =>
      have hsame : v = .assign id ty := by simpa [Stmt.result?] using hnew
      -- The recorded definition is the statement itself.
      have hrhs' : d.assigned.lookup id = some rhs' := by
        rw [hsame] at hrhs
        exact hrhs
      rw [hagrees id ty rhs List.mem_cons_self, Option.some.injEq] at hrhs'
      rw [← hrhs'] at hu
      exact hs u hu

/-- Definitions stay closed when the results of scoped statements that
they agree with come in. -/
theorem Closed.append (h : d.Closed known) (hscoped : Scoped known stmts)
    (hagrees : d.Agrees stmts) : d.Closed (known ++ results stmts) := by
  induction stmts generalizing known with
  | nil =>
    rw [results_nil, List.append_nil]
    exact h
  | cons s rest ih =>
    have hhead : d.Agrees [s] := fun id ty rhs hmem =>
      hagrees id ty rhs (List.mem_singleton.1 hmem ▸ List.mem_cons_self)
    have htail : d.Agrees rest := fun id ty rhs hmem =>
      hagrees id ty rhs (List.mem_cons_of_mem s hmem)
    rw [results_cons, ← List.append_assoc]
    exact ih (h.concat hscoped.1 hhead) hscoped.2 htail

/-- The assignments, in the form in which they are recorded. -/
def entry? : Stmt → Option (AssignId × Rhs)
  | .assign id _ rhs => some (id, rhs)
  | _ => none

/-- The latest assignment comes first in the record. -/
theorem assigned_record (d : Definitions) (stmts : List Stmt) :
    (d.record stmts).assigned = (stmts.filterMap entry?).reverse ++ d.assigned := by
  induction stmts generalizing d with
  | nil => rfl
  | cons s rest ih =>
    show ((d.recordStmt s).record rest).assigned = _
    rw [ih]
    cases s with
    | assign id ty rhs =>
      have hcons : (Stmt.assign id ty rhs :: rest).filterMap entry? =
          (id, rhs) :: rest.filterMap entry? := rfl
      rw [hcons, List.reverse_cons, List.append_assoc]
      rfl
    | store | arch | instruction | comment =>
      rw [List.filterMap_cons_none rfl]
      rfl

/-- An entry has the number of its assignment. -/
theorem map_fst_entry? (stmts : List Stmt) :
    (stmts.filterMap entry?).map Prod.fst = stmts.filterMap Stmt.assignId? := by
  rw [List.map_filterMap]
  congr 1
  funext s
  cases s <;> rfl

/-- Under a key that occurs once stands its entry. -/
theorem lookup_of_nodup {entries : List (AssignId × Rhs)} (h : (entries.map Prod.fst).Nodup)
    {id : AssignId} {rhs : Rhs} (hmem : (id, rhs) ∈ entries) : entries.lookup id = some rhs := by
  induction entries with
  | nil => cases hmem
  | cons e rest ih =>
    obtain ⟨key, value⟩ := e
    rw [List.map_cons, List.nodup_cons] at h
    cases hmem with
    | head => exact List.lookup_cons_self
    | tail _ hmem =>
      have hne : id ≠ key := by
        intro heq
        rw [heq] at hmem
        exact h.1 (List.mem_map.2 ⟨(key, rhs), hmem, rfl⟩)
      rw [List.lookup_cons, beq_false_of_ne hne]
      exact ih h.2 hmem

/-- Assignments with different numbers are recorded as they are. -/
theorem agrees_record (d : Definitions) (hnodup : (stmts.filterMap Stmt.assignId?).Nodup) :
    (d.record stmts).Agrees stmts := by
  intro id ty rhs hmem
  have hentry : (id, rhs) ∈ (stmts.filterMap entry?).reverse :=
    List.mem_reverse.2 (List.mem_filterMap.2 ⟨_, hmem, rfl⟩)
  have hkeys : ((stmts.filterMap entry?).reverse.map Prod.fst).Nodup := by
    rw [List.map_reverse, List.nodup_reverse, map_fst_entry?]
    exact hnodup
  rw [assigned_record, List.lookup_append, lookup_of_nodup hkeys hentry]
  rfl

/-- Recording assignments with other numbers changes nothing for the
earlier ones. -/
theorem Agrees.record {new : List Stmt} (h : d.Agrees stmts)
    (hnew : ∀ id ∈ new.filterMap Stmt.assignId?, id ∉ stmts.filterMap Stmt.assignId?) :
    (d.record new).Agrees stmts := by
  intro id ty rhs hmem
  have hnone : (new.filterMap entry?).reverse.lookup id = none := by
    refine List.lookup_eq_none_iff.2 fun e he => bne_iff_ne.2 fun heq => ?_
    refine hnew id ?_ (List.mem_filterMap.2 ⟨_, hmem, rfl⟩)
    rw [← map_fst_entry?, heq]
    exact List.mem_map_of_mem (List.mem_reverse.1 he)
  rw [assigned_record, List.lookup_append, hnone]
  exact h id ty rhs hmem

end Definitions

/-! ### Blocks -/

/-- The values that an exit reads. -/
def Exit.values : Exit → List Value
  | .fetch regs | .failed regs _ _ => regs.values
  | .branch cond _ _ => [cond]
  | .arch regs _ args => regs.values ++ args

/-- What later blocks of a run may read of this one's: everything if it
was split, else nothing. -/
def Block.passedOn (b : Block) : List Value :=
  match b.exit with
  | .branch .. => results b.stmts
  | _ => []

/-- Statements and exit read only what is known before the block or
assigned in it. -/
structure Block.Scoped (known : List Value) (b : Block) : Prop where
  stmts : FlowRecovery.Scoped known b.stmts
  exit : ∀ v ∈ b.exit.values, v.Known (known ++ results b.stmts)

/-- So do the blocks of a run, which may also read what split blocks
before them pass on. -/
def RunScoped (known : List Value) : List Block → Prop
  | [] => True
  | b :: rest => b.Scoped known ∧ RunScoped (known ++ b.passedOn) rest

/-- Runs one after the other. The second may read what the first passes
on. -/
theorem RunScoped.append_iff {known : List Value} {first second : List Block} :
    RunScoped known (first ++ second) ↔
      RunScoped known first ∧ RunScoped (known ++ first.flatMap Block.passedOn) second := by
  induction first generalizing known with
  | nil => simp [RunScoped]
  | cons b rest ih =>
    rw [List.cons_append, RunScoped, RunScoped, ih, List.flatMap_cons, List.append_assoc, and_assoc]

/-- Statements and flow read only what is known before the block or
assigned in it. -/
structure FlowBlock.Scoped (known : List Value) (b : FlowBlock) : Prop where
  stmts : FlowRecovery.Scoped known b.stmts
  roots : ∀ v ∈ b.flow.roots, v.Known (known ++ results b.stmts)

/-- The blocks of a function, each of which may read what the blocks
before it assign. -/
def BlocksScoped (known : List Value) : List FlowBlock → Prop
  | [] => True
  | b :: rest => b.Scoped known ∧ BlocksScoped (known ++ results b.stmts) rest

namespace BlocksScoped

variable {known known' : List Value} {blocks first second : List FlowBlock}

/-- Blocks one after the other. The second part may read the results of the
first. -/
theorem append_iff :
    BlocksScoped known (first ++ second) ↔
      BlocksScoped known first ∧
        BlocksScoped (known ++ results (first.flatMap FlowBlock.stmts)) second := by
  induction first generalizing known with
  | nil => simp [BlocksScoped]
  | cons b rest ih =>
    rw [List.cons_append, BlocksScoped, BlocksScoped, ih, List.flatMap_cons, results_append,
      List.append_assoc, and_assoc]

/-- Blocks stay in scope where more is known. -/
theorem mono (h : BlocksScoped known blocks) (hsub : known ⊆ known') :
    BlocksScoped known' blocks := by
  induction blocks generalizing known known' with
  | nil => trivial
  | cons b rest ih =>
    have hsub' (more : List Value) : known ++ more ⊆ known' ++ more :=
      List.append_subset.2
        ⟨fun v hv => List.mem_append_left _ (hsub hv), List.subset_append_right _ _⟩
    refine ⟨⟨h.1.stmts.mono hsub, fun v hv => (h.1.roots v hv).mono (hsub' _)⟩, ih h.2 (hsub' _)⟩

/-- All statements together are scoped too. -/
theorem stmts (h : BlocksScoped known blocks) :
    Scoped known (blocks.flatMap FlowBlock.stmts) := by
  induction blocks generalizing known with
  | nil => trivial
  | cons b rest ih =>
    rw [List.flatMap_cons]
    exact Scoped.append_iff.2 ⟨h.1.stmts, ih h.2⟩

/-- What a flow reads is known at the end. -/
theorem known_root (h : BlocksScoped known blocks) {b : FlowBlock} (hb : b ∈ blocks) {v : Value}
    (hv : v ∈ b.flow.roots) : v.Known (known ++ results (blocks.flatMap FlowBlock.stmts)) := by
  induction blocks generalizing known with
  | nil => cases hb
  | cons c rest ih =>
    rw [List.flatMap_cons, results_append, ← List.append_assoc]
    cases hb with
    | head => exact (h.1.roots v hv).mono (List.subset_append_left _ _)
    | tail _ hb => exact ih h.2 hb

end BlocksScoped

end FlowRecovery
