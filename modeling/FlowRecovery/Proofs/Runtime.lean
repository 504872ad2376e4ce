import FlowRecovery.Proofs.Execution
import FlowRecovery.Stmt.Demand

/-!
# `FlowRecovery.Proofs.Runtime`: running statements when values are clobbered

A clobbered value may be a different datum at each place where it is
read, so a list of statements can be run in more than one way. `Steps`
relates the states before and after one statement, and `Runs` those
before and after a list.

What the statements leave open is the `Runtime`: the memory, how it is
loaded from and stored to, what primitives and the machine's own
statements do, and what a clobbered value may turn out to be. Which
primitives and machine statements count as effects is again an `Effects`
record. Only those are written to the trace, and a runtime `Respects` the
record if the others leave the memory alone.

Statements run to an end from every state (`exists_runs`). An application
to data that its operator does not take comes to some datum of the
assignment's type, so that lists that are not well typed run as well.
-/

set_option autoImplicit false

namespace FlowRecovery

/-- Some datum of the type. -/
def Datum.someOf (ty : Ty) : { d : Datum // d.ty = ty } :=
  ⟨.ofTy ty, ty_ofTy ty⟩

/-- What statements act on, and how. A primitive and a machine statement
may do different things at each place where they occur. -/
structure Runtime where
  Memory : Type
  load : Memory → Datum → (bytes : Nat) → BitVec (bytes * 8)
  store : Memory → Datum → Datum → Memory
  prim : Memory → (p : Prim) → List Datum → { d : Datum // d.ty = p.ty } × Memory
  arch : Memory → String → List Value → List Datum → Memory
  /-- What a clobbered value of this type may turn out to be. -/
  undef : Ty → Datum → Prop
  ty_undef : ∀ ty d, undef ty d → d.ty = ty
  exists_undef : ∀ ty, ∃ d, undef ty d

namespace Runtime

variable {R : Runtime}

/-- The data of all values so far, the memory, and the effects so far. -/
structure State (R : Runtime) where
  values : Valuation
  memory : R.Memory
  trace : List Action

namespace State

/-- Give an assignment its datum. -/
def assign (c : R.State) (id : AssignId) (ty : Ty) (d : Datum) : R.State :=
  { c with values := c.values.assign id ty d }

/-- Write to the trace. -/
def note (c : R.State) (a : Action) : R.State :=
  { c with trace := c.trace ++ [a] }

/-- A load is an effect and has a result. -/
def load (c : R.State) (id : AssignId) (ty : Ty) (addr : Datum) (bytes : Nat) : R.State :=
  let result := Datum.bits (bytes * 8) (R.load c.memory addr bytes)
  (c.note (.load addr bytes result)).assign id ty result

/-- A store is an effect. -/
def store (c : R.State) (addr value : Datum) : R.State :=
  { c with memory := R.store c.memory addr value }.note (.store addr value)

/-- A primitive has a result, may change the memory, and is traced if it
counts as an effect. -/
def prim (c : R.State) (effects : Effects) (id : AssignId) (ty : Ty) (p : Prim)
    (args : List Datum) : R.State :=
  let result := R.prim c.memory p args
  let after : R.State := { c with memory := result.2 }.assign id ty result.1
  if effects.ofPrim p then after.note (.prim p.name args result.1) else after

/-- A machine statement may change the memory, and is traced if it counts
as an effect. -/
def arch (c : R.State) (effects : Effects) (name : String) (args : List Value)
    (data : List Datum) : R.State :=
  let after : R.State := { c with memory := R.arch c.memory name args data }
  if effects.ofStmt name args then after.note (.arch name data) else after

end State

/-- The value may be read as this datum. -/
def Reads (R : Runtime) (ρ : Valuation) : Value → Datum → Prop
  | .clobbered ty, d => R.undef ty d
  | v, d => d = ρ.denote v

/-- The application may come to this, or to nothing if the operator does
not take such data. -/
inductive Computes (R : Runtime) (ρ : Valuation) : App → Option Datum → Prop
  | unary {op : UnaryOp} {arg : Value} {x : Datum} (hx : R.Reads ρ arg x) :
      Computes R ρ (.unary op arg) (op.apply x)
  | binary {op : BinaryOp} {left right : Value} {x y : Datum} (hx : R.Reads ρ left x)
      (hy : R.Reads ρ right y) : Computes R ρ (.binary op left right) (op.apply x y)
  | ext {op : ExtOp} {arg : Value} {target : Nat} {x : Datum} (hx : R.Reads ρ arg x) :
      Computes R ρ (.ext op arg target) (op.apply target x)
  | select {cond onTrue onFalse : Value} {c x y : Datum} (hc : R.Reads ρ cond c)
      (hx : R.Reads ρ onTrue x) (hy : R.Reads ρ onFalse y) :
      Computes R ρ (.select cond onTrue onFalse) (c.choose x y)

/-- One statement takes the first state to the second. -/
inductive Steps (R : Runtime) (effects : Effects) : Stmt → R.State → R.State → Prop
  | app {c : R.State} {id : AssignId} {ty : Ty} {a : App} {result : Option Datum}
      (h : R.Computes c.values a result) :
      Steps R effects (.assign id ty (.app a)) c (c.assign id ty (result.getD (.ofTy ty)))
  | load {c : R.State} {id : AssignId} {ty : Ty} {addr : Value} {bytes : Nat} {a : Datum}
      (h : R.Reads c.values addr a) :
      Steps R effects (.assign id ty (.load addr bytes)) c (c.load id ty a bytes)
  | prim {c : R.State} {id : AssignId} {ty : Ty} {p : Prim} {data : List Datum}
      (h : List.Forall₂ (R.Reads c.values) p.args data) :
      Steps R effects (.assign id ty (.prim p)) c (c.prim effects id ty p data)
  | store {c : R.State} {addr value : Value} {a x : Datum} (ha : R.Reads c.values addr a)
      (hx : R.Reads c.values value x) : Steps R effects (.store addr value) c (c.store a x)
  | arch {c : R.State} {name : String} {args : List Value} {data : List Datum}
      (h : List.Forall₂ (R.Reads c.values) args data) :
      Steps R effects (.arch name args) c (c.arch effects name args data)
  | instruction {c : R.State} {addr : Word} {size : Nat} :
      Steps R effects (.instruction addr size) c (c.note (.instruction addr size))
  | comment {c : R.State} {text : String} :
      Steps R effects (.comment text) c (c.note (.comment text))

/-- Statements in order, each taking a step of the given kind. -/
inductive Runs {σ : Type} (step : Stmt → σ → σ → Prop) : List Stmt → σ → σ → Prop
  | nil {c : σ} : Runs step [] c c
  | cons {s : Stmt} {rest : List Stmt} {c c₁ c' : σ} (h : step s c c₁)
      (hrest : Runs step rest c₁ c') : Runs step (s :: rest) c c'

/-- What does not count as an effect leaves the memory alone. -/
structure Respects (R : Runtime) (effects : Effects) : Prop where
  prim : ∀ p, effects.ofPrim p = false → ∀ memory args, (R.prim memory p args).2 = memory
  arch : ∀ name args, effects.ofStmt name args = false →
    ∀ memory data, R.arch memory name args data = memory

/-! ### Every statement can be run -/

/-- Every value can be read. -/
theorem exists_reads (ρ : Valuation) (v : Value) : ∃ d, R.Reads ρ v d := by
  cases v with
  | clobbered ty => exact R.exists_undef ty
  | bool | bv | reloc | initial | returnAddr | assign => exact ⟨_, rfl⟩

/-- So can a list of values. -/
theorem exists_forall₂_reads (ρ : Valuation) (vs : List Value) :
    ∃ data, List.Forall₂ (R.Reads ρ) vs data := by
  induction vs with
  | nil => exact ⟨[], .nil⟩
  | cons v rest ih =>
    obtain ⟨d, hd⟩ := exists_reads (R := R) ρ v
    obtain ⟨data, hdata⟩ := ih
    exact ⟨d :: data, .cons hd hdata⟩

/-- Every application comes to something. -/
theorem exists_computes (ρ : Valuation) (a : App) : ∃ result, R.Computes ρ a result := by
  have read := exists_reads (R := R) ρ
  cases a with
  | unary op arg =>
    obtain ⟨x, hx⟩ := read arg
    exact ⟨_, .unary hx⟩
  | binary op left right =>
    obtain ⟨x, hx⟩ := read left
    obtain ⟨y, hy⟩ := read right
    exact ⟨_, .binary hx hy⟩
  | ext op arg target =>
    obtain ⟨x, hx⟩ := read arg
    exact ⟨_, .ext hx⟩
  | select cond onTrue onFalse =>
    obtain ⟨c, hc⟩ := read cond
    obtain ⟨x, hx⟩ := read onTrue
    obtain ⟨y, hy⟩ := read onFalse
    exact ⟨_, .select hc hx hy⟩

/-- Every statement can be run. -/
theorem exists_steps (effects : Effects) (s : Stmt) (c : R.State) :
    ∃ c', R.Steps effects s c c' := by
  cases s with
  | assign id ty rhs =>
    cases rhs with
    | app a =>
      obtain ⟨result, h⟩ := exists_computes (R := R) c.values a
      exact ⟨_, .app h⟩
    | load addr bytes =>
      obtain ⟨a, h⟩ := exists_reads (R := R) c.values addr
      exact ⟨_, .load h⟩
    | prim p =>
      obtain ⟨data, h⟩ := exists_forall₂_reads (R := R) c.values p.args
      exact ⟨_, .prim h⟩
  | store addr value =>
    obtain ⟨a, ha⟩ := exists_reads (R := R) c.values addr
    obtain ⟨x, hx⟩ := exists_reads (R := R) c.values value
    exact ⟨_, .store ha hx⟩
  | arch name args =>
    obtain ⟨data, h⟩ := exists_forall₂_reads (R := R) c.values args
    exact ⟨_, .arch h⟩
  | instruction | comment =>
    exact ⟨_, by constructor⟩

/-- So can a list of statements. -/
theorem exists_runs (effects : Effects) (stmts : List Stmt) (c : R.State) :
    ∃ c', Runs (R.Steps effects) stmts c c' := by
  induction stmts generalizing c with
  | nil => exact ⟨c, .nil⟩
  | cons s rest ih =>
    obtain ⟨c₁, h⟩ := exists_steps effects s c
    obtain ⟨c', hrest⟩ := ih c₁
    exact ⟨c', .cons h hrest⟩

/-! ### One way to run where clobbered values are fixed -/

/-- A clobbered value is the same datum wherever it is read. -/
def Fixed (R : Runtime) : Prop :=
  ∀ ty d d', R.undef ty d → R.undef ty d' → d' = d

namespace Fixed

variable (hfixed : R.Fixed) {effects : Effects} {ρ : Valuation}
include hfixed

/-- There is one way to read a value. -/
theorem reads {v : Value} {d d' : Datum} (h : R.Reads ρ v d) (h' : R.Reads ρ v d') : d' = d := by
  cases v with
  | clobbered ty => exact hfixed ty d d' h h'
  | bool | bv | reloc | initial | returnAddr | assign => exact Eq.trans h' (Eq.symm h)

/-- There is one way to read a list of values. -/
theorem forall₂_reads {vs : List Value} {data data' : List Datum}
    (h : List.Forall₂ (R.Reads ρ) vs data) (h' : List.Forall₂ (R.Reads ρ) vs data') :
    data' = data := by
  induction h generalizing data' with
  | nil => exact List.forall₂_nil_left_iff.1 h'
  | cons hd _ ih =>
    obtain ⟨d', rest', hd', hrest', rfl⟩ := List.forall₂_cons_left_iff.1 h'
    rw [hfixed.reads hd hd', ih hrest']

/-- There is one thing that an application comes to. -/
theorem computes {a : App} {result result' : Option Datum} (h : R.Computes ρ a result)
    (h' : R.Computes ρ a result') : result' = result := by
  cases h with
  | unary hx =>
    cases h' with
    | unary hx' => rw [hfixed.reads hx hx']
  | binary hx hy =>
    cases h' with
    | binary hx' hy' => rw [hfixed.reads hx hx', hfixed.reads hy hy']
  | ext hx =>
    cases h' with
    | ext hx' => rw [hfixed.reads hx hx']
  | select hc hx hy =>
    cases h' with
    | select hc' hx' hy' =>
      rw [hfixed.reads hc hc', hfixed.reads hx hx', hfixed.reads hy hy']

/-- There is one way to run a statement. -/
theorem steps {s : Stmt} {c c₁ c₂ : R.State} (h₁ : R.Steps effects s c c₁)
    (h₂ : R.Steps effects s c c₂) : c₂ = c₁ := by
  cases h₁ with
  | app h =>
    cases h₂ with
    | app h' => rw [hfixed.computes h h']
  | load h =>
    cases h₂ with
    | load h' => rw [hfixed.reads h h']
  | prim h =>
    cases h₂ with
    | prim h' => rw [hfixed.forall₂_reads h h']
  | store ha hx =>
    cases h₂ with
    | store ha' hx' => rw [hfixed.reads ha ha', hfixed.reads hx hx']
  | arch h =>
    cases h₂ with
    | arch h' => rw [hfixed.forall₂_reads h h']
  | instruction | comment => cases h₂; rfl

/-- There is one way to run a list of statements. -/
theorem runs {stmts : List Stmt} {c c₁ c₂ : R.State} (h₁ : Runs (R.Steps effects) stmts c c₁)
    (h₂ : Runs (R.Steps effects) stmts c c₂) : c₂ = c₁ := by
  induction h₁ with
  | nil => cases h₂; rfl
  | cons h _ ih =>
    cases h₂ with
    | cons h' hrest' =>
      cases hfixed.steps h h'
      exact ih hrest'

end Fixed

end Runtime

end FlowRecovery
