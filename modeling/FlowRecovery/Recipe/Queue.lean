import FlowRecovery.Recipe.Run

/-!
# `FlowRecovery.Recipe.Queue`: the queue of arms runs empty

`drain` works on a bounded number of arms. This file shows that the
bound is never reached: carrying out a recipe leaves arms behind whose
sizes add up to less than the recipe's own (`exec_leaves`), so the sizes
in the queue only go down (`Arm.run_leaves`). Hence the bound can be
forgotten, and `drain` obeys the equations of the loop it stands for:

* `drain_of_empty`: an empty queue is left alone.
* `drain_of_cons`: otherwise the first arm is done, and what it leaves
  behind is worked off after the arms that wait already.
-/

set_option autoImplicit false

namespace FlowRecovery.Recipe

/-- An empty queue is no work. -/
@[simp] theorem load_nil : load [] = 0 := rfl

/-- An arm is as much work as the size of its body. -/
@[simp] theorem load_cons (arm : Arm) (arms : List Arm) :
    load (arm :: arms) = arm.body.size + load arms := rfl

/-- The work of two queues adds up. -/
@[simp] theorem load_append (arms more : List Arm) :
    load (arms ++ more) = load arms + load more := by
  induction arms with
  | nil => rw [List.nil_append, load_nil, Nat.zero_add]
  | cons arm arms ih => rw [List.cons_append, load_cons, load_cons, ih, Nat.add_assoc]

/-- Sequencing spelled out: the second part starts from the state that
the first one left, unless the first one failed. -/
theorem bind_apply {α β : Type} (x : RunM α) (f : α → RunM β) (p : Progress) :
    (x >>= f) p =
      match x p with
      | (.ok a, p') => f a p'
      | (.error e, p') => (.error e, p') := by
  show ExceptT.bindCont f (x p).1 (x p).2 = _
  rcases x p with ⟨_ | _, _⟩ <;> rfl

/-! ### Parts that leave the queue alone -/

/-- The part leaves the queue as it is, whether or not it fails. -/
def KeepsQueue {α : Type} (x : RunM α) : Prop :=
  ∀ p, (x p).2.pending = p.pending

namespace KeepsQueue

/-- A result that is there at once. -/
theorem pure {α : Type} (a : α) : KeepsQueue (Pure.pure a : RunM α) := fun _ => rfl

/-- A decoding failure. -/
theorem fail {α : Type} (site : Site) (reason : String) :
    KeepsQueue (failDecoding site reason : RunM α) := fun _ => rfl

/-- An operation of construction knows no queue. -/
theorem build {α : Type} (x : Build α) : KeepsQueue (Recipe.build x) := fun _ => rfl

/-- One part after the other, or the first part alone if it fails. -/
theorem bind {α β : Type} {x : RunM α} {f : α → RunM β} (hx : KeepsQueue x)
    (hf : ∀ a, KeepsQueue (f a)) : KeepsQueue (x >>= f) := by
  intro p
  rw [bind_apply]
  have h := hx p
  rcases hxp : x p with ⟨_ | a, p'⟩ <;> rw [hxp] at h
  · exact h
  · exact (hf a p').trans h

/-- What is made of the result does not matter. -/
theorem map {α β : Type} {x : RunM α} (f : α → β) (hx : KeepsQueue x) : KeepsQueue (f <$> x) :=
  hx.bind fun a => KeepsQueue.pure (f a)

end KeepsQueue

/-- Neither does a record of what was done. -/
theorem KeepsQueue.recorded {α : Type} {x : RunM α} (hx : KeepsQueue x) (step : Option Step)
    (outcome : α → Outcome) : KeepsQueue (recorded step outcome x) := hx

/-- A leaf is looked up without the queue. -/
theorem Leaf.resolve_keepsQueue (site : Site) (temps : Temps) (l : Leaf) :
    KeepsQueue (l.resolve site temps) := by
  cases l with
  | value v => exact .pure v
  | reg r => exact .build _
  | undecodable reason => exact .fail site reason
  | temp name =>
    simp only [Leaf.resolve]
    split
    · exact .pure _
    · exact .fail site _

/-- So is a term, leaf by leaf. -/
theorem resolve_keepsQueue (site : Site) (temps : Temps) (e : Term) :
    KeepsQueue (e.resolve (Leaf.resolve site temps)) := by
  induction e with
  | leaf l => exact (Leaf.resolve_keepsQueue site temps l).map _
  | unary op arg ih => exact ih.map _
  | ext op arg width ih => exact ih.map _
  | binary op left right ihl ihr => exact ihl.bind fun _ => ihr.bind fun _ => .pure _
  | select cond onTrue onFalse ihc iht ihf =>
    exact ihc.bind fun _ => iht.bind fun _ => ihf.bind fun _ => .pure _

/-- It is evaluated without the queue. -/
theorem evalTerm_keepsQueue (site : Site) (temps : Temps) (e : Term) :
    KeepsQueue (evalTerm site temps e) :=
  (resolve_keepsQueue site temps e).bind fun _ => .build _

/-- So is a list of terms. -/
theorem evalTerms_keepsQueue (site : Site) (temps : Temps) (es : List Term) :
    KeepsQueue (evalTerms site temps es) := by
  induction es with
  | nil => exact .pure _
  | cons e rest ih =>
    exact (evalTerm_keepsQueue site temps e).bind fun _ => ih.bind fun _ => .pure _

/-- A block is closed without the queue. -/
theorem Closing.run_keepsQueue (site : Site) (temps : Temps) (c : Closing) :
    KeepsQueue (c.run site temps) := by
  cases c with
  | fetch => exact .build _
  | branch cond onTrue onFalse => exact (evalTerm_keepsQueue site temps cond).bind fun _ => .build _
  | failed addr reason => exact .build _
  | arch name args => exact (evalTerms_keepsQueue site temps args).bind fun _ => .build _

/-- Going back spelled out: it depends on whether there is a checkpoint of
the name. -/
theorem Step.restore_apply (site : Site) (temps : Temps) (name : String) (p : Progress) :
    (Step.restore name).run site temps p =
      (match p.saved.lookup name with
        | some c => build (Build.rollback c) >>= fun _ => pure (temps, Outcome.nothing)
        | none => failDecoding site s!"unknown checkpoint {name}" :
        RunM (Temps × Outcome)) p := rfl

/-- No single step touches the queue. -/
theorem Step.run_keepsQueue (site : Site) (temps : Temps) (s : Step) :
    KeepsQueue (s.run site temps) := by
  cases s with
  | bind name e => exact (evalTerm_keepsQueue site temps e).bind fun _ => .pure _
  | load name addr bytes =>
    exact (evalTerm_keepsQueue site temps addr).bind fun _ =>
      (KeepsQueue.build _).bind fun _ => .pure _
  | prim name primitive args ty isPure =>
    exact (evalTerms_keepsQueue site temps args).bind fun _ =>
      (KeepsQueue.build _).bind fun _ => .pure _
  | set r e =>
    exact (evalTerm_keepsQueue site temps e).bind fun _ =>
      (KeepsQueue.build _).bind fun _ => .pure _
  | setIp addr => exact (KeepsQueue.build _).bind fun _ => .pure _
  | advance => exact (KeepsQueue.build _).bind fun _ => .pure _
  | store addr value =>
    exact (evalTerm_keepsQueue site temps addr).bind fun _ =>
      (evalTerm_keepsQueue site temps value).bind fun _ =>
        (KeepsQueue.build _).bind fun _ => .pure _
  | emit s => exact (KeepsQueue.build _).bind fun _ => .pure _
  | arch name args =>
    exact (evalTerms_keepsQueue site temps args).bind fun _ =>
      (KeepsQueue.build _).bind fun _ => .pure _
  | close c => exact (Closing.run_keepsQueue site temps c).bind fun _ => .pure _
  | fail reason => exact .fail site reason
  | moveTo addr => exact (KeepsQueue.build _).bind fun _ => .pure _
  | save name => exact fun _ => rfl
  | restore name =>
    intro p
    rw [Step.restore_apply]
    cases p.saved.lookup name with
    | none => rfl
    | some c => exact (KeepsQueue.build _).bind (fun _ => .pure _) p
  | look => exact .pure _

/-! ### What a recipe leaves behind -/

/-- The part adds arms of at most this size to the end of the queue. -/
def Leaves {α : Type} (x : RunM α) (size : Nat) : Prop :=
  ∀ p, ∃ arms, (x p).2.pending = p.pending ++ arms ∧ load arms ≤ size

/-- Leaving the queue alone adds no arms. -/
theorem KeepsQueue.leaves {α : Type} {x : RunM α} (hx : KeepsQueue x) (size : Nat) :
    Leaves x size := fun p => ⟨[], by simp [hx p], Nat.zero_le _⟩

/-- Few arms are no more than many. -/
theorem Leaves.mono {α : Type} {x : RunM α} {small large : Nat} (hx : Leaves x small)
    (h : small ≤ large) : Leaves x large := fun p =>
  let ⟨arms, hp, hl⟩ := hx p
  ⟨arms, hp, Nat.le_trans hl h⟩

/-- A record of what was done adds no arms. -/
theorem Leaves.recorded {α : Type} {x : RunM α} {size : Nat} (hx : Leaves x size)
    (step : Option Step) (outcome : α → Outcome) : Leaves (recorded step outcome x) size := hx

/-- The arms of the second part come after those of the first. -/
theorem Leaves.bind {α β : Type} {x : RunM α} {f : α → RunM β} {first second : Nat}
    (hx : Leaves x first) (hf : ∀ a, Leaves (f a) second) : Leaves (x >>= f) (first + second) := by
  intro p
  rw [bind_apply]
  obtain ⟨arms, hp, hl⟩ := hx p
  rcases hxp : x p with ⟨_ | a, p'⟩ <;> rw [hxp] at hp
  · exact ⟨arms, hp, Nat.le_add_right_of_le hl⟩
  · obtain ⟨more, hp', hl'⟩ := hf a p'
    refine ⟨arms ++ more, ?_, ?_⟩
    · rw [hp', hp, List.append_assoc]
    · rw [load_append]
      exact Nat.add_le_add hl hl'

/-- A split leaves its two arms. -/
theorem queueArms_leaves (cond : Value) (onTrue onFalse : Recipe) (temps : Temps) :
    Leaves (queueArms cond onTrue onFalse temps) (onTrue.size + onFalse.size) := by
  have hmodify (arms : List Arm) :
      Leaves (modify fun p => { p with pending := p.pending ++ arms } : RunM Unit) (load arms) :=
    fun p => ⟨arms, rfl, Nat.le_refl _⟩
  rw [← Nat.zero_add (onTrue.size + onFalse.size)]
  refine ((KeepsQueue.build (Build.split cond)).leaves 0).bind ?_
  rintro ⟨t, f, regs⟩
  exact (hmodify _).mono (by simp)

/-- Carried out inside an arm, a recipe leaves less than its own size. -/
theorem exec_leaves (site : Site) (r : Recipe) (temps : Temps) :
    Leaves (exec site (pure ()) r temps) (r.size - 1) := by
  induction r generalizing temps with
  | done => exact (KeepsQueue.pure ()).leaves _
  | step s rest ih =>
    have hstep := ((Step.run_keepsQueue site temps s).recorded (some s) Prod.snd).leaves 0
    simpa [exec, size] using hstep.bind fun result => ih result.1
  | branch cond onTrue onFalse rest iht ihf ihr =>
    have htrue := (iht temps).mono
      (Nat.le_trans (Nat.sub_le onTrue.size 1) (Nat.le_add_right _ onFalse.size))
    have hfalse := (ihf temps).mono
      (Nat.le_trans (Nat.sub_le onFalse.size 1) (Nat.le_add_left _ onTrue.size))
    have h : Leaves (exec site (pure ()) (.branch cond onTrue onFalse rest) temps)
        (0 + (0 + (onTrue.size + onFalse.size)) + (rest.size - 1)) := by
      refine Leaves.bind (.recorded ?_ none fun _ => .nothing) fun _ => ihr temps
      refine ((evalTerm_keepsQueue site temps cond).leaves 0).bind fun v =>
        ((KeepsQueue.build (Build.checkCondition v)).leaves 0).bind fun _ => ?_
      -- A literal takes its arm at once; anything else splits.
      split
      · exact htrue
      · exact hfalse
      · exact (queueArms_leaves _ onTrue onFalse temps).bind fun _ => (KeepsQueue.pure ()).leaves 0
    refine Leaves.mono h ?_
    have := size_pos rest
    simp only [size]
    omega

/-- An arm leaves less than its own size behind. -/
theorem Arm.run_leaves (site : Site) (arm : Arm) : Leaves (arm.run site) (arm.body.size - 1) := by
  have h := ((KeepsQueue.build (Build.enter arm.index arm.regs)).leaves 0).bind fun _ =>
    (exec_leaves site arm.body arm.temps).bind fun _ =>
      (KeepsQueue.build Build.closeIfOpen).leaves 0
  simpa [Arm.run] using h

/-! ### The bound does not matter -/

/-- One turn of the queue spelled out. -/
theorem drainUpTo_succ_apply (site : Site) (limit : Nat) (p : Progress) :
    drainUpTo site (limit + 1) p =
      (match p.pending with
        | [] => pure ()
        | arm :: rest => do
          modify fun p => { p with pending := rest }
          arm.run site
          drainUpTo site limit : RunM Unit) p := rfl

/-- An empty queue is left alone, whatever the bound. -/
theorem drainUpTo_of_empty (site : Site) (limit : Nat) {p : Progress} (h : p.pending = []) :
    drainUpTo site limit p = (.ok (), p) := by
  cases limit with
  | zero => rfl
  | succ limit =>
    rw [drainUpTo_succ_apply, h]
    rfl

/-- One turn does the first arm and goes on with one turn less, unless the
arm fails. -/
theorem drainUpTo_of_cons (site : Site) (limit : Nat) {p : Progress} {arm : Arm} {rest : List Arm}
    (h : p.pending = arm :: rest) :
    drainUpTo site (limit + 1) p =
      match arm.run site { p with pending := rest } with
      | (.ok (), p') => drainUpTo site limit p'
      | (.error e, p') => (.error e, p') := by
  rw [drainUpTo_succ_apply, h]
  show (arm.run site >>= fun _ => drainUpTo site limit) { p with pending := rest } = _
  rw [bind_apply]
  rcases arm.run site { p with pending := rest } with ⟨_ | _, _⟩ <;> rfl

/-- Any two bounds that the queue fits in give the same run. -/
theorem drainUpTo_eq (site : Site) {n m : Nat} {p : Progress} (hn : load p.pending ≤ n)
    (hm : load p.pending ≤ m) : drainUpTo site n p = drainUpTo site m p := by
  induction n generalizing m p with
  | zero =>
    cases hp : p.pending with
    | nil => rw [drainUpTo_of_empty site _ hp, drainUpTo_of_empty site _ hp]
    | cons arm rest =>
      have := size_pos arm.body
      rw [hp, load_cons] at hn
      omega
  | succ n ih =>
    cases hp : p.pending with
    | nil => rw [drainUpTo_of_empty site _ hp, drainUpTo_of_empty site _ hp]
    | cons arm rest =>
      have hpos := size_pos arm.body
      rw [hp, load_cons] at hn hm
      obtain ⟨m, rfl⟩ : ∃ k, m = k + 1 := ⟨m - 1, by omega⟩
      rw [drainUpTo_of_cons site n hp, drainUpTo_of_cons site m hp]
      obtain ⟨arms, hleft, hload⟩ := Arm.run_leaves site arm { p with pending := rest }
      rcases hrun : arm.run site { p with pending := rest } with ⟨_ | _, p'⟩
      · rfl
      · rw [hrun] at hleft
        have hle : load p'.pending + 1 ≤ arm.body.size + load rest := by
          rw [hleft, load_append]
          simp only
          omega
        exact ih (by omega) (by omega)

/-- Working off spelled out: the queue is cleared in any case. -/
theorem drain_apply (site : Site) (p : Progress) :
    drain site p =
      ((drainUpTo site (load p.pending) p).1,
        { (drainUpTo site (load p.pending) p).2 with pending := [] }) := rfl

/-- An empty queue is left alone. -/
theorem drain_of_empty (site : Site) {p : Progress} (h : p.pending = []) :
    drain site p = (.ok (), p) := by
  have hp : { p with pending := [] } = p := by rw [← h]
  rw [drain_apply, drainUpTo_of_empty site _ h]
  exact congrArg (Prod.mk (Except.ok ())) hp

/-- The first arm is done; a failure clears the queue, else the rest is
worked off. -/
theorem drain_of_cons (site : Site) {p : Progress} {arm : Arm} {rest : List Arm}
    (h : p.pending = arm :: rest) :
    drain site p =
      match arm.run site { p with pending := rest } with
      | (.ok (), p') => drain site p'
      | (.error e, p') => (.error e, { p' with pending := [] }) := by
  have hpos := size_pos arm.body
  obtain ⟨n, hn⟩ : ∃ n, load p.pending = n + 1 := ⟨load p.pending - 1, by rw [h, load_cons]; omega⟩
  obtain ⟨arms, hleft, hload⟩ := Arm.run_leaves site arm { p with pending := rest }
  rw [drain_apply, hn, drainUpTo_of_cons site n h]
  rcases hrun : arm.run site { p with pending := rest } with ⟨_ | _, p'⟩
  · rfl
  · rw [hrun] at hleft
    have hle : load p'.pending ≤ n := by
      rw [h, load_cons] at hn
      rw [hleft, load_append]
      simp only
      omega
    show ((drainUpTo site n p').1, { (drainUpTo site n p').2 with pending := [] }) = drain site p'
    rw [drainUpTo_eq site hle (Nat.le_refl (load p'.pending))]
    rfl

end FlowRecovery.Recipe
