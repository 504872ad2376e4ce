import FlowRecovery.Proofs.Recipe

/-!
# `FlowRecovery.Proofs.OpenBlock`: work inside the open block

Most operations of construction stay inside the open block. They append
statements, write registers and take assignment numbers, and they leave
the ledger alone. `Builder.Continues` is what such work can do to a
builder, and `Local` says that a part of a run does nothing else, whether
or not it succeeds. A part that is local does not fail because the ledger
refuses a block either.

Only closing a block and returning to a checkpoint go beyond the open
block, so every other step of a recipe is local (`Recipe.Step.local_run`).
-/

set_option autoImplicit false

namespace FlowRecovery

/-! ### Refusals -/

/-- Is this the ledger refusing a block? -/
def Violation.isRefusal : Violation → Bool
  | .duplicateBlock _ | .unallocatedBlock _ | .outOfOrderBlock .. => true
  | _ => false

@[inherit_doc Violation.isRefusal]
def BuildError.isRefusal : BuildError → Bool
  | .decode .. => false
  | .violation v => v.isRefusal

/-- A register file refuses writes for reasons of its own. -/
theorem RegFile.set_not_refusal {regs : RegFile} {r : Reg} {v : Value} {e : Violation}
    (h : regs.set r v = .error e) : e.isRefusal = false := by
  unfold RegFile.set at h
  cases hr : regs.get? r with
  | none =>
    rw [hr] at h
    cases h
    rfl
  | some held =>
    simp only [hr] at h
    split at h
    · cases h
    · cases h
      rfl

/-- Typing fails for reasons of its own. -/
theorem App.resultType_not_refusal {app : App} {e : Violation} (h : app.resultType = .error e) :
    e.isRefusal = false := by
  unfold App.resultType at h
  cases hfault : app.resultFault with
  | error fault =>
    rw [hfault] at h
    cases h
    rfl
  | ok ty =>
    rw [hfault] at h
    cases h

/-! ### Numbered statements -/

/-- The assignments among the statements have different numbers, from
`low` on and below `high`. -/
structure Numbered (low high : Nat) (stmts : List Stmt) : Prop where
  nodup : (stmts.filterMap Stmt.assignId?).Nodup
  bounds : ∀ id ∈ stmts.filterMap Stmt.assignId?, low ≤ id ∧ id < high

namespace Numbered

variable {low mid high : Nat} {first second stmts : List Stmt}

/-- Statements without results use no numbers. -/
theorem of_unnamed (h : ∀ s ∈ stmts, s.assignId? = none) : Numbered low high stmts := by
  have hnone : stmts.filterMap Stmt.assignId? = [] := List.filterMap_eq_nil_iff.2 h
  refine ⟨by simp [hnone], ?_⟩
  intro id hid
  rw [hnone] at hid
  cases hid

/-- No statements use no numbers. -/
theorem nil : Numbered low high [] := .of_unnamed fun _ hs => absurd hs List.not_mem_nil

/-- The next number, used once. -/
theorem next (n : Nat) (ty : Ty) (rhs : Rhs) : Numbered n (n + 1) [.assign n ty rhs] := by
  refine ⟨List.pairwise_singleton _ n, ?_⟩
  intro id hid
  rw [List.mem_singleton.1 hid]
  exact ⟨Nat.le_refl n, Nat.lt_succ_self n⟩

/-- Numbers from one stretch and numbers from the next are different ones.
-/
theorem append (h₁ : Numbered low mid first) (h₂ : Numbered mid high second) (hlow : low ≤ mid)
    (hhigh : mid ≤ high) : Numbered low high (first ++ second) := by
  constructor
  · rw [List.filterMap_append, List.nodup_append]
    refine ⟨h₁.nodup, h₂.nodup, ?_⟩
    -- A number below the middle cannot be one from the middle on.
    intro i hi j hj hij
    have hlt := (h₁.bounds i hi).2
    have hle := (h₂.bounds j hj).1
    rw [hij] at hlt
    exact Nat.not_le.2 hlt hle
  · intro id hid
    rw [List.filterMap_append, List.mem_append] at hid
    cases hid with
    | inl hid => exact ⟨(h₁.bounds id hid).1, Nat.lt_of_lt_of_le (h₁.bounds id hid).2 hhigh⟩
    | inr hid => exact ⟨Nat.le_trans hlow (h₂.bounds id hid).1, (h₂.bounds id hid).2⟩

/-- More numbers may have been taken than are used. -/
theorem mono (h : Numbered low mid stmts) (hhigh : mid ≤ high) : Numbered low high stmts :=
  ⟨h.nodup, fun id hid => ⟨(h.bounds id hid).1, Nat.lt_of_lt_of_le (h.bounds id hid).2 hhigh⟩⟩

end Numbered

/-! ### Going on in the open block -/

/-- What a block is known by from outside: its number and its address. -/
def OpenBlock.place (blk : OpenBlock) : BlockIndex × Word := (blk.index, blk.addr)

/-- The builder has gone on in its open block. If the assignments are all
its `own`, the new ones have new numbers; a statement that is appended as
it is could bring any number along. -/
structure Builder.Continues (own : Prop) (b b' : Builder) : Prop where
  ledger : b'.ledger = b.ledger
  place : b'.current.map OpenBlock.place = b.current.map OpenBlock.place
  issued_le : b.issued ≤ b'.issued
  stmts : ∃ more, b'.stmts = b.stmts ++ more ∧ (own → Numbered b.issued b'.issued more)

namespace Builder.Continues

variable {own : Prop} {b b' b'' : Builder}

/-- Nothing is done to the open block. Numbers may have been taken. -/
theorem of_eq (hledger : b'.ledger = b.ledger) (hcurrent : b'.current = b.current)
    (hissued : b.issued ≤ b'.issued) : b.Continues own b' := by
  refine ⟨hledger, by rw [hcurrent], hissued, [], ?_, fun _ => .nil⟩
  rw [Builder.stmts, Builder.stmts, hcurrent, List.append_nil]

/-- Nothing is done at all. -/
theorem refl (b : Builder) : b.Continues own b := of_eq rfl rfl (Nat.le_refl _)

/-- One stretch after the other. -/
theorem trans (h : b.Continues own b') (h' : b'.Continues own b'') : b.Continues own b'' := by
  obtain ⟨more, hmore, hnew⟩ := h.stmts
  obtain ⟨more', hmore', hnew'⟩ := h'.stmts
  refine ⟨h'.ledger.trans h.ledger, h'.place.trans h.place,
    Nat.le_trans h.issued_le h'.issued_le, more ++ more', ?_, fun hown => ?_⟩
  · rw [hmore', hmore, List.append_assoc]
  · exact (hnew hown).append (hnew' hown) h.issued_le h'.issued_le

/-- The open block is replaced by one that continues it. -/
theorem of_update {blk : OpenBlock} (blk' : OpenBlock) (more : List Stmt) (issued : Nat)
    (hblk : b.current = some blk) (hplace : blk'.place = blk.place)
    (hstmts : blk'.stmts = blk.stmts ++ more) (hissued : b.issued ≤ issued)
    (hmore : own → Numbered b.issued issued more) :
    b.Continues own { b with issued, current := some blk' } := by
  refine ⟨rfl, by simp [hblk, hplace], hissued, more, ?_, hmore⟩
  show blk'.stmts = b.stmts ++ more
  rw [hstmts, Builder.stmts, hblk]
  rfl

/-- A closed builder stays closed. -/
theorem current_eq_none_iff (h : b.Continues own b') : b'.current = none ↔ b.current = none := by
  rw [← Option.map_eq_none_iff, h.place, Option.map_eq_none_iff]

end Builder.Continues

/-! ### Local parts -/

/-- The part only goes on in the open block, whether or not it succeeds,
and does not run into a refusal of the ledger. `view` is the builder that
the state holds. -/
structure Local {σ α : Type} (own : Prop) (view : σ → Builder)
    (x : ExceptT BuildError (StateM σ) α) : Prop where
  continues : ∀ s, (view s).Continues own (view (x s).2)
  harmless : ∀ s e, (x s).1 = .error e → e.isRefusal = false

namespace Local

variable {σ α β : Type} {own : Prop} {view : σ → Builder}

/-- A result that is there needs no work. -/
theorem pure (a : α) : Local own view (Pure.pure a : ExceptT BuildError (StateM σ) α) where
  continues s := .refl (view s)
  harmless s e h := by cases h

/-- Failing leaves everything as it is. -/
theorem fail {e : BuildError} (he : e.isRefusal = false) :
    Local own view (throw e : ExceptT BuildError (StateM σ) α) where
  continues s := .refl (view s)
  harmless s e' h := by
    cases h
    exact he

/-- One part after the other. If the first one fails, that is all. -/
theorem bind {x : ExceptT BuildError (StateM σ) α} {f : α → ExceptT BuildError (StateM σ) β}
    (hx : Local own view x) (hf : ∀ a, Local own view (f a)) : Local own view (x >>= f) := by
  constructor
  · intro s
    have hs := hx.continues s
    rw [bind_run]
    cases hxs : x s with
    | mk result t =>
      rw [hxs] at hs
      cases result with
      | error e => exact hs
      | ok a => exact hs.trans ((hf a).continues t)
  · intro s e he
    have hs := hx.harmless s
    rw [bind_run] at he
    cases hxs : x s with
    | mk result t =>
      rw [hxs] at hs he
      cases result with
      | error e' =>
        cases he
        exact hs e rfl
      | ok a => exact (hf a).harmless t e he

/-- What is made of the result changes nothing. -/
theorem map {x : ExceptT BuildError (StateM σ) α} (f : α → β) (hx : Local own view x) :
    Local own view (f <$> x) := by
  rw [map_eq_pure_bind]
  exact hx.bind fun a => pure (f a)

/-- A part that succeeds and goes on in the open block. -/
theorem of_ok {x : ExceptT BuildError (StateM σ) α}
    (h : ∀ s, ∃ a t, x s = (.ok a, t) ∧ (view s).Continues own (view t)) : Local own view x := by
  constructor
  · intro s
    obtain ⟨a, t, hx, ht⟩ := h s
    rw [hx]
    exact ht
  · intro s e he
    obtain ⟨a, t, hx, -⟩ := h s
    rw [hx] at he
    cases he

end Local

/-! ### Operations -/

namespace Build

variable {α : Type} {own : Prop}

/-- A local operation on the builder itself. -/
abbrev IsLocal (own : Prop) (x : Build α) : Prop := Local own id x

namespace IsLocal

/-- A violation that is not a refusal. -/
theorem violate {v : Violation} (hv : v.isRefusal = false) :
    IsLocal own (Build.violate v : Build α) :=
  Local.fail hv

/-- A check whose violations are not refusals. -/
theorem check {r : Except Violation α} (hr : ∀ v, r = .error v → v.isRefusal = false) :
    IsLocal own (Build.check r) := by
  cases r with
  | error v => exact violate (hr v rfl)
  | ok a => exact .pure a

/-- An operation that needs an open block. -/
theorem openBlock_bind {f : OpenBlock → Build α}
    (hf : ∀ (b : Builder) (blk : OpenBlock), b.current = some blk →
      b.Continues own (f blk b).2 ∧ ∀ e, (f blk b).1 = .error e → e.isRefusal = false) :
    IsLocal own (openBlock >>= f) := by
  constructor
  · intro b
    cases hb : b.current with
    | none =>
      rw [openBlock_bind_of_closed hb]
      exact .refl b
    | some blk =>
      rw [openBlock_bind_of_open hb]
      exact (hf b blk hb).1
  · intro b e he
    cases hb : b.current with
    | none =>
      rw [openBlock_bind_of_closed hb] at he
      cases he
      rfl
    | some blk =>
      rw [openBlock_bind_of_open hb] at he
      exact (hf b blk hb).2 e he

/-- Reading a register. -/
theorem getRegister (r : Reg) : IsLocal own (Build.getRegister r) := by
  refine openBlock_bind fun b blk _ => ?_
  cases blk.regs.get? r with
  | none =>
    refine ⟨.refl b, fun e he => ?_⟩
    cases he
    rfl
  | some v => exact ⟨.refl b, fun e he => by cases he⟩

/-- Writing a register. -/
theorem setRegister (m : Machine) (r : Reg) (v : Value) :
    IsLocal own (Build.setRegister m r v) := by
  refine openBlock_bind fun b blk hblk => ?_
  split
  · exact ⟨.refl b, fun e he => by cases he⟩
  · cases hset : blk.regs.set r v with
    | error e =>
      refine ⟨.refl b, fun e' he => ?_⟩
      cases he
      exact RegFile.set_not_refusal hset
    | ok regs =>
      refine ⟨?_, fun e he => by cases he⟩
      exact .of_update { blk with regs } [] b.issued hblk rfl (List.append_nil _).symm
        (Nat.le_refl _) fun _ => .nil

/-- A statement is appended as it is. -/
theorem emit {s : Stmt} (hs : own → s.assignId? = none) : IsLocal own (Build.emit s) := by
  refine openBlock_bind fun b blk hblk => ⟨?_, fun e he => by cases he⟩
  refine .of_update { blk with stmts := blk.stmts ++ [s] } [s] b.issued hblk rfl rfl
    (Nat.le_refl _) fun hown => .of_unnamed fun t ht => ?_
  rw [List.mem_singleton.1 ht]
  exact hs hown

/-- A name is used again, or the next number is taken for a new one. -/
theorem define (rhs : Rhs) (ty : Ty) (memoize : Bool) :
    IsLocal own (Build.define rhs ty memoize) := by
  refine openBlock_bind fun b blk hblk => ?_
  dsimp only
  -- Whether an earlier name is found, with or without looking for one.
  generalize
    (if memoize && !rhs.operands.any Value.isClobbered then blk.memo.lookup rhs else none) = found
  cases found with
  | some v => exact ⟨.refl b, fun e he => by cases he⟩
  | none =>
    refine ⟨?_, fun e he => by cases he⟩
    exact .of_update { blk with stmts := blk.stmts ++ [.assign b.issued ty rhs], memo := _ }
      [.assign b.issued ty rhs] (b.issued + 1) hblk rfl rfl (Nat.le_succ _) fun _ =>
        .next b.issued ty rhs

/-- An application is checked, and then folded or named. -/
theorem evaluateApp (app : App) : IsLocal own (Build.evaluateApp app) := by
  refine (check fun v hv => App.resultType_not_refusal hv).bind fun ty => ?_
  split
  · exact .pure _
  · exact define _ _ _

/-- So is one application after the other, from the leaves up. -/
theorem evaluate (e : Expr Value) : IsLocal own (Build.evaluate e) := by
  induction e with
  | leaf v => exact .pure v
  | unary op arg ih => exact ih.bind fun _ => evaluateApp _
  | ext op arg width ih => exact ih.bind fun _ => evaluateApp _
  | binary op left right ihl ihr => exact ihl.bind fun _ => ihr.bind fun _ => evaluateApp _
  | select cond onTrue onFalse ihc iht ihf =>
    exact ihc.bind fun _ => iht.bind fun _ => ihf.bind fun _ => evaluateApp _

/-- An address is checked. -/
theorem checkAddress (m : Machine) (op : String) (addr : Value) :
    IsLocal own (Build.checkAddress m op addr) := by
  unfold Build.checkAddress
  split
  · exact .pure ()
  · exact violate rfl

/-- A load is checked, and then read from the image or named. -/
theorem load (m : Machine) (img : Image) (addr : Value) (bytes : Nat) :
    IsLocal own (Build.load m img addr bytes) := by
  refine (checkAddress m _ addr).bind fun _ => ?_
  split
  · split
    · exact .pure _
    · exact define _ _ _
  · exact violate rfl

/-- A store is checked and appended. -/
theorem store (m : Machine) (addr value : Value) : IsLocal own (Build.store m addr value) := by
  refine (checkAddress m _ addr).bind fun _ => ?_
  split
  · exact violate rfl
  · exact emit fun _ => rfl

/-- A condition is checked. -/
theorem checkCondition (cond : Value) : IsLocal own (Build.checkCondition cond) := by
  unfold Build.checkCondition
  split
  · exact .pure ()
  · exact violate rfl

end IsLocal

end Build

/-! ### Recipes -/

/-- A local part of a run. -/
abbrev Recipe.IsLocal {α : Type} (own : Prop) (x : Recipe.RunM α) : Prop :=
  Local own Recipe.Progress.builder x

namespace Local

variable {α : Type} {own : Prop}

/-- A local operation, as part of a recipe. -/
theorem build {x : Build α} (hx : x.IsLocal own) : Recipe.IsLocal own (Recipe.build x) where
  continues p := hx.continues p.builder
  harmless p := hx.harmless p.builder

/-- Failing to decode is not a refusal. -/
theorem failDecoding (site : Recipe.Site) (reason : String) :
    Recipe.IsLocal own (Recipe.failDecoding site reason : Recipe.RunM α) := fail rfl

end Local

namespace Recipe

variable {own : Prop} {site : Site} {temps : Temps}

/-- Looking up a leaf reads a register at most. -/
theorem Leaf.local_resolve (l : Leaf) : IsLocal own (l.resolve site temps) := by
  cases l with
  | value v => exact .pure v
  | reg r => exact .build (.getRegister r)
  | undecodable reason => exact .failDecoding site reason
  | temp name =>
    simp only [Leaf.resolve]
    split
    · exact .pure _
    · exact .failDecoding site _

/-- A term is looked up leaf by leaf, and then evaluated. -/
theorem local_evalTerm (e : Term) : IsLocal own (evalTerm site temps e) := by
  have hresolve : IsLocal own (e.resolve (Leaf.resolve site temps)) := by
    induction e with
    | leaf l => exact (Leaf.local_resolve l).map _
    | unary op arg ih => exact ih.map _
    | ext op arg width ih => exact ih.map _
    | binary op left right ihl ihr => exact ihl.bind fun _ => ihr.bind fun _ => .pure _
    | select cond onTrue onFalse ihc iht ihf =>
      exact ihc.bind fun _ => iht.bind fun _ => ihf.bind fun _ => .pure _
  exact hresolve.bind fun _ => .build (.evaluate _)

/-- So is a list of terms. -/
theorem local_evalTerms (es : List Term) : IsLocal own (evalTerms site temps es) := by
  induction es with
  | nil => exact .pure _
  | cons e rest ih => exact (local_evalTerm e).bind fun _ => ih.bind fun _ => .pure _

/-- The step does not leave the open block. -/
def Step.StaysOpen : Step → Prop
  | .close _ | .restore _ => False
  | _ => True

/-- The step appends no assignment as it is. -/
def Step.Unnamed : Step → Prop
  | .emit s => s.assignId? = none
  | _ => True

/-- Every step but closing a block and returning to a checkpoint is
local. -/
theorem Step.local_run {s : Step} (hs : s.StaysOpen) (hunnamed : own → s.Unnamed) :
    IsLocal own (s.run site temps) := by
  cases s with
  | bind name e => exact (local_evalTerm e).bind fun _ => .pure _
  | load name addr bytes =>
    exact (local_evalTerm addr).bind fun _ =>
      (Local.build (.load _ _ _ _)).bind fun _ => .pure _
  | prim name primitive args ty isPure =>
    exact (local_evalTerms args).bind fun _ =>
      (Local.build (.define _ _ _)).bind fun _ => .pure _
  | set r e =>
    exact (local_evalTerm e).bind fun _ =>
      (Local.build (.setRegister _ _ _)).bind fun _ => .pure _
  | setIp addr => exact (Local.build (.setRegister _ _ _)).bind fun _ => .pure _
  | advance => exact (Local.build (.setRegister _ _ _)).bind fun _ => .pure _
  | store addr value =>
    exact (local_evalTerm addr).bind fun _ => (local_evalTerm value).bind fun _ =>
      (Local.build (.store _ _ _)).bind fun _ => .pure _
  | emit s => exact (Local.build (.emit hunnamed)).bind fun _ => .pure _
  | arch name args =>
    exact (local_evalTerms args).bind fun _ =>
      (Local.build (.emit fun _ => rfl)).bind fun _ => .pure _
  | close c => exact hs.elim
  | fail reason => exact .failDecoding site reason
  | moveTo addr =>
    exact .of_ok fun p => ⟨_, _, rfl, .of_eq rfl rfl (Nat.le_refl _)⟩
  | save name => exact .of_ok fun p => ⟨_, _, rfl, .refl p.builder⟩
  | restore name => exact hs.elim
  | look => exact .pure _

/-- Every step of the recipe, those of its arms included, has the
property. -/
def AllSteps (P : Step → Prop) : Recipe → Prop
  | .done => True
  | .step s rest => P s ∧ rest.AllSteps P
  | .branch _ onTrue onFalse rest => onTrue.AllSteps P ∧ onFalse.AllSteps P ∧ rest.AllSteps P

/-- The weaker the property, the more recipes have it. -/
theorem AllSteps.imp {P Q : Step → Prop} (hPQ : ∀ s, P s → Q s) {r : Recipe}
    (h : r.AllSteps P) : r.AllSteps Q := by
  induction r with
  | done => trivial
  | step s rest ih => exact ⟨hPQ s h.1, ih h.2⟩
  | branch cond onTrue onFalse rest iht ihf ihr => exact ⟨iht h.1, ihf h.2.1, ihr h.2.2⟩

/-- Properties of steps are inherited by the parts of a recipe. -/
theorem heritable_allSteps {P : Step → Prop} (hP : ∀ name, ¬P (.restore name)) :
    Heritable (AllSteps P) where
  step := by
    intro s rest h
    refine ⟨?_, h.2⟩
    rintro name rfl
    exact hP name h.1
  branch h := h

/-! ### Properties that a recipe keeps -/

/-- A recipe keeps what its steps and its splits keep. A split is taken
together with what happens once its arms are queued. -/
theorem exec_preserves_of_allSteps {I : Progress → Prop} {P : Step → Prop} {settle : RunM Unit}
    (hrecord : ∀ p step result, I p → I { p with trace := ⟨step, result, p.builder⟩ :: p.trace })
    (hstep : ∀ s temps, P s → Preserves I (Step.run site temps s))
    (hterm : ∀ e temps, Preserves I (evalTerm site temps e))
    (hcheck : ∀ v, Preserves I (build (Build.checkCondition v)))
    (hsplit : ∀ v onTrue onFalse temps, onTrue.AllSteps P → onFalse.AllSteps P →
      Preserves I (queueArms v onTrue onFalse temps >>= fun _ => settle))
    {r : Recipe} (hr : r.AllSteps P) (temps : Temps) : Preserves I (exec site settle r temps) := by
  -- The state after each step is noted, which the property has to allow.
  have hrecorded {α : Type} {x : RunM α} (hx : Preserves I x) (step : Option Step)
      (outcome : α → Outcome) : Preserves I (recorded step outcome x) := fun p hp =>
    hrecord _ _ _ (hx p hp)
  induction r generalizing temps with
  | done => exact .pure ()
  | step s rest ih =>
    exact (hrecorded (hstep s temps hr.1) (some s) Prod.snd).bind fun _ => ih hr.2 _
  | branch cond onTrue onFalse rest iht ihf ihr =>
    obtain ⟨htrue, hfalse, hrest⟩ := hr
    refine Preserves.bind (hrecorded ?_ none fun _ => .nothing) fun _ => ihr hrest temps
    refine (hterm cond temps).bind fun v => (hcheck v).bind fun _ => ?_
    -- A literal takes its arm at once; anything else splits.
    split
    · exact iht htrue temps
    · exact ihf hfalse temps
    · exact hsplit _ onTrue onFalse temps htrue hfalse

/-- What every waiting arm keeps is kept by working off the queue. It must
not rest on arms that wait no longer. -/
theorem drain_preserves {I : Progress → Prop} {J : Progress → Arm → Prop}
    (hpending : ∀ p pending, I p → ∀ arm ∈ p.pending, J { p with pending } arm)
    (hfewer : ∀ p pending, pending ⊆ p.pending → I p → I { p with pending })
    (harm : ∀ p arm, J p arm → I p → I (arm.run site p).2) : Preserves I (drain site) := by
  -- An arm leaves the queue before it is carried out.
  have hturn {p : Progress} {arm : Arm} {rest : List Arm} (hqueue : p.pending = arm :: rest)
      (hp : I p) : I (arm.run site { p with pending := rest }).2 := by
    refine harm _ arm (hpending p rest hp arm ?_) (hfewer p rest ?_ hp)
    · rw [hqueue]
      exact List.mem_cons_self
    · rw [hqueue]
      exact List.subset_cons_self arm rest
  refine drain_induction site (motive := fun p result => I p → I result.2) ?_ ?_ ?_
  · exact fun p _ hp => hp
  · intro p arm rest p' hqueue hrun ih hp
    have hp' := hturn hqueue hp
    rw [hrun] at hp'
    exact ih hp'
  · -- A failed arm ends the work, but takes nothing back.
    intro p arm rest e p' hqueue hrun hp
    have hp' := hturn hqueue hp
    rw [hrun] at hp'
    exact hfewer p' [] (List.nil_subset _) hp'

/-- What all steps have, every recipe has. -/
theorem allSteps_of_forall {P : Step → Prop} (h : ∀ s, P s) (r : Recipe) : r.AllSteps P := by
  induction r with
  | done => trivial
  | step s rest ih => exact ⟨h s, ih⟩
  | branch cond onTrue onFalse rest iht ihf ihr => exact ⟨iht, ihf, ihr⟩

/-- What every step keeps is kept by every recipe. -/
theorem exec_preserves {I : Progress → Prop} {settle : RunM Unit}
    (hrecord : ∀ p trace, I p → I { p with trace })
    (hstep : ∀ s temps, Preserves I (Step.run site temps s))
    (hterm : ∀ e temps, Preserves I (evalTerm site temps e))
    (hcheck : ∀ v, Preserves I (build (Build.checkCondition v)))
    (hsplit : ∀ v onTrue onFalse temps,
      Preserves I (queueArms v onTrue onFalse temps >>= fun _ => settle))
    (r : Recipe) (temps : Temps) : Preserves I (exec site settle r temps) :=
  exec_preserves_of_allSteps (P := fun _ => True) (fun p _ _ => hrecord p _)
    (fun s temps _ => hstep s temps) hterm hcheck
    (fun v onTrue onFalse temps _ _ => hsplit v onTrue onFalse temps)
    (allSteps_of_forall (fun _ => trivial) r) temps

/-- The queue is empty. -/
def Progress.Settled (p : Progress) : Prop := p.pending = []

/-- A part that leaves the queue alone leaves it empty. -/
theorem KeepsQueue.preserves_settled {α : Type} {x : RunM α} (hx : KeepsQueue x) :
    Preserves Progress.Settled x := fun p hp => (hx p).trans hp

/-- A split that fails has queued nothing. -/
theorem queueArms_of_error {v : Value} {onTrue onFalse : Recipe} {p q : Progress} {e : BuildError}
    (h : queueArms v onTrue onFalse temps p = (.error e, q)) : q.pending = p.pending := by
  have hkept := KeepsQueue.build (Build.split v) p
  rw [queueArms, bind_apply] at h
  cases hsplit : build (Build.split v) p with
  | mk result q' =>
    rw [hsplit] at h hkept
    cases result with
    | error e' =>
      cases h
      exact hkept
    | ok arms => cases h

/-- Outside of arms the queue is empty between steps: what a split queues
is worked off at once. -/
theorem exec_settled (site : Site) (r : Recipe) (temps : Temps) :
    Preserves Progress.Settled (exec site (drain site) r temps) := by
  refine exec_preserves (fun _ _ h => h)
    (fun s temps => (Step.run_keepsQueue site temps s).preserves_settled)
    (fun e temps => (evalTerm_keepsQueue site temps e).preserves_settled)
    (fun v => (KeepsQueue.build (Build.checkCondition v)).preserves_settled) ?_ r temps
  intro v onTrue onFalse temps p hp
  rw [bind_apply]
  cases hqueue : queueArms v onTrue onFalse temps p with
  | mk result q =>
    cases result with
    | ok u => rfl
    | error e => exact (queueArms_of_error hqueue).trans hp

end Recipe

end FlowRecovery
