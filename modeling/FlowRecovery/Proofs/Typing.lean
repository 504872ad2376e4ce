import FlowRecovery.Proofs.Reachable

/-!
# `FlowRecovery.Proofs.Typing`: evaluation accepts the well-typed trees

`Expr.HasType` gives a tree a type without evaluating anything: a leaf has
the type of its value, and an application has the type that its operator
computes from the types of the operands. Evaluation never looks at the
tree that way. It checks each application on the values that the operands
came to, after folding and with results that were found in the table.

The two agree because nothing on the way changes a type:

- folding keeps the type (`App.ty_of_fold`), also of literals that have
  bits above their width;
- the table holds each application with a value of its type
  (`Builder.Reachable.memoTyped`), in every builder there can be;
- the operators look at the types of their operands only, so a clobbered
  value of the same type can stand in for any other.

So evaluation and `Expr.typing` go through the tree side by side
(`Build.Types`), and they stop at the same application: the first one in
post-order that has no type though its operands have (`Expr.FirstFault`).
-/

set_option autoImplicit false

namespace FlowRecovery

/-! ### Folding keeps types -/

/-- A value that is always what the application is has its type. -/
theorem Valuation.Same.ty_eq {ρ : Valuation} (hρ : ρ.Typed) {app : App} {ty : Ty} {v : Value}
    (hty : app.resultType = .ok ty) (h : ρ.Same v app) : v.ty = ty := by
  have hd := Valuation.denotes_denote hρ v
  rw [← hd.ty_eq hρ]
  exact ((h _).1 hd).ty_eq hρ hty

/-- Two words come to a value of the type of the result. -/
theorem BinaryOp.ty_of_evalWords {op : BinaryOp} {width : Nat} {a b : Word} {ty : Ty} {v : Value}
    (hty : op.resultType (.bv width) = .ok ty) (h : op.evalWords width a b = some v) :
    v.ty = ty := by
  unfold evalWords at h
  split at h
  · cases h
  · cases op <;> cases h <;> cases hty <;> rfl

/-- So do two booleans. -/
theorem BinaryOp.ty_of_evalBools {op : BinaryOp} {a b : Bool} {ty : Ty} {v : Value}
    (hty : op.resultType .bool = .ok ty) (h : op.evalBools a b = some v) : v.ty = ty := by
  cases op <;> cases h <;> cases hty <;> rfl

/-- A well-typed application folds to a value of its type. -/
theorem App.ty_of_fold {app : App} {ty : Ty} {v : Value} (hty : app.resultType = .ok ty)
    (h : app.fold = some v) : v.ty = ty := by
  cases app with
  | unary op arg =>
    -- Each operator folds on literals of the one kind it takes.
    obtain ⟨-, hop⟩ := resultType_unary.1 hty
    cases op <;> cases arg <;> cases h <;> cases hop <;> rfl
  | ext op arg target =>
    obtain ⟨-, hop⟩ := resultType_ext.1 hty
    obtain ⟨width, -, rfl, -, -⟩ := ExtOp.resultType_eq_ok hop
    simp only [fold, ExtOp.fold] at h
    split at h
    · rename_i harg
      cases h
      exact harg
    · cases arg <;> cases h
      cases op <;> rfl
  | select cond onTrue onFalse =>
    obtain ⟨-, -, hfalse, htrue⟩ := resultType_select.1 hty
    simp only [fold, Value.foldSelect] at h
    split at h
    · cases h
      split
      · exact htrue
      · exact hfalse.trans htrue
    · split at h
      · cases h
        exact htrue
      · cases h
  | binary op left right =>
    obtain ⟨-, -, hop⟩ := resultType_binary.1 hty
    simp only [fold, BinaryOp.fold] at h
    split at h
    · exact BinaryOp.ty_of_evalWords hop h
    · exact BinaryOp.ty_of_evalBools hop h
    · -- An identity keeps the datum, so it keeps the type.
      have hzeros := Valuation.typed_zeros 0
      exact (Valuation.simplify_same hzeros hty h).ty_eq hzeros hty

/-! ### The table of results -/

/-- The table has a value of the right type for each application. -/
def OpenBlock.MemoTyped (blk : OpenBlock) : Prop :=
  ∀ app v, (Rhs.app app, v) ∈ blk.memo → app.resultType = .ok v.ty

/-- If a block is open, its table is typed. -/
def Builder.MemoTyped (b : Builder) : Prop :=
  ∀ blk, b.current = some blk → blk.MemoTyped

/-- What is named has a type, and so has what is remembered of it. -/
theorem Builder.MemoTyped.named {b : Builder} {blk : OpenBlock} (hblk : b.current = some blk)
    (hb : b.MemoTyped) {rhs : Rhs} {ty : Ty} (hrhs : rhs.Arises ty) :
    (b.named blk rhs ty
      (if rhs.isShared then (rhs, .assign b.issued ty) :: blk.memo else blk.memo)).MemoTyped := by
  intro _ h
  cases h
  intro app v hv
  have hold := hb blk hblk app v
  have hnew : (Rhs.app app, v) = (rhs, Value.assign b.issued ty) → app.resultType = .ok v.ty := by
    intro heq
    cases heq
    cases hrhs with
    | app hty => exact hty
  dsimp only at hv
  split at hv
  · exact (List.mem_cons.1 hv).elim hnew hold
  · exact hold hv

/-- Work in the open block changes the table only to name things. -/
theorem Builder.kept_memoTyped :
    Builder.Kept (fun _ => True) (fun _ => True) Builder.MemoTyped := by
  have hput {b : Builder} {blk blk' : OpenBlock} (hblk : b.current = some blk) (hb : b.MemoTyped)
      (hmemo : blk'.memo = blk.memo) : Builder.MemoTyped { b with current := some blk' } := by
    intro _ h
    cases h
    intro app v hv
    rw [hmemo] at hv
    exact hb blk hblk app v hv
  exact ⟨fun _ _ hblk hb => hput hblk hb rfl, fun _ hblk hb => hput hblk hb rfl,
    fun hrhs hblk hb => .named hblk hb hrhs⟩

/-- The table of results is typed in every builder there can be. -/
theorem Builder.Reachable.memoTyped {b : Builder} (h : b.Reachable) : b.MemoTyped :=
  h.of_kept (fun _ _ _ _ _ hv => absurd hv List.not_mem_nil) Builder.kept_memoTyped

/-! ### The type of a tree -/

namespace Expr

/-- The tree has this type. A clobbered value stands in for an operand of
which nothing but the type is known. -/
inductive HasType : Expr Value → Ty → Prop
  | leaf (v : Value) : HasType (.leaf v) v.ty
  | unary {op : UnaryOp} {arg : Expr Value} {a ty : Ty} (harg : HasType arg a)
      (h : (App.unary op (.clobbered a)).resultType = .ok ty) : HasType (.unary op arg) ty
  | binary {op : BinaryOp} {left right : Expr Value} {l r ty : Ty} (hleft : HasType left l)
      (hright : HasType right r)
      (h : (App.binary op (.clobbered l) (.clobbered r)).resultType = .ok ty) :
      HasType (.binary op left right) ty
  | ext {op : ExtOp} {arg : Expr Value} {width : Nat} {a ty : Ty} (harg : HasType arg a)
      (h : (App.ext op (.clobbered a) width).resultType = .ok ty) : HasType (.ext op arg width) ty
  | select {cond onTrue onFalse : Expr Value} {c t f ty : Ty} (hcond : HasType cond c)
      (htrue : HasType onTrue t) (hfalse : HasType onFalse f)
      (h : (App.select (.clobbered c) (.clobbered t) (.clobbered f)).resultType = .ok ty) :
      HasType (.select cond onTrue onFalse) ty

/-- The operands have types, and the application at the root has none for
this reason. -/
inductive Faulty : Expr Value → Violation → Prop
  | unary {op : UnaryOp} {arg : Expr Value} {a : Ty} {v : Violation} (harg : HasType arg a)
      (h : (App.unary op (.clobbered a)).resultType = .error v) : Faulty (.unary op arg) v
  | binary {op : BinaryOp} {left right : Expr Value} {l r : Ty} {v : Violation}
      (hleft : HasType left l) (hright : HasType right r)
      (h : (App.binary op (.clobbered l) (.clobbered r)).resultType = .error v) :
      Faulty (.binary op left right) v
  | ext {op : ExtOp} {arg : Expr Value} {width : Nat} {a : Ty} {v : Violation}
      (harg : HasType arg a) (h : (App.ext op (.clobbered a) width).resultType = .error v) :
      Faulty (.ext op arg width) v
  | select {cond onTrue onFalse : Expr Value} {c t f : Ty} {v : Violation}
      (hcond : HasType cond c) (htrue : HasType onTrue t) (hfalse : HasType onFalse f)
      (h : (App.select (.clobbered c) (.clobbered t) (.clobbered f)).resultType = .error v) :
      Faulty (.select cond onTrue onFalse) v

/-- All subtrees in post-order: the operands from left to right, each with
its own subtrees before it, and the tree itself last. -/
def subtrees : Expr Value → List (Expr Value)
  | .leaf v => [.leaf v]
  | .unary op arg => arg.subtrees ++ [.unary op arg]
  | .binary op left right => left.subtrees ++ right.subtrees ++ [.binary op left right]
  | .ext op arg width => arg.subtrees ++ [.ext op arg width]
  | .select cond onTrue onFalse =>
    cond.subtrees ++ onTrue.subtrees ++ onFalse.subtrees ++ [.select cond onTrue onFalse]

/-- The first tree of the list that has no type is faulty at its root. -/
def FirstFault (trees : List (Expr Value)) (v : Violation) : Prop :=
  ∃ before first after, trees = before ++ first :: after ∧
    (∀ t ∈ before, ∃ ty, t.HasType ty) ∧ first.Faulty v

/-- The type of a tree, or what is wrong with the first application that
has none. -/
def typing : Expr Value → Except Violation Ty
  | .leaf v => .ok v.ty
  | .unary op arg => do
    let a ← arg.typing
    (App.unary op (.clobbered a)).resultType
  | .binary op left right => do
    let l ← left.typing
    let r ← right.typing
    (App.binary op (.clobbered l) (.clobbered r)).resultType
  | .ext op arg width => do
    let a ← arg.typing
    (App.ext op (.clobbered a) width).resultType
  | .select cond onTrue onFalse => do
    let c ← cond.typing
    let t ← onTrue.typing
    let f ← onFalse.typing
    (App.select (.clobbered c) (.clobbered t) (.clobbered f)).resultType

/-- A part that succeeds, and then the rest. -/
theorem bind_eq_ok {ε α β : Type} {x : Except ε α} {f : α → Except ε β} {b : β}
    (h : x >>= f = .ok b) : ∃ a, x = .ok a ∧ f a = .ok b := by
  cases x with
  | error e => cases h
  | ok a => exact ⟨a, rfl, h⟩

/-- The first part fails, or it succeeds and the rest fails. -/
theorem bind_eq_error {ε α β : Type} {x : Except ε α} {f : α → Except ε β} {e : ε}
    (h : x >>= f = .error e) : x = .error e ∨ ∃ a, x = .ok a ∧ f a = .error e := by
  cases x with
  | error e' =>
    cases h
    exact Or.inl rfl
  | ok a => exact Or.inr ⟨a, rfl, h⟩

/-- The type that is computed is the type of the tree. -/
theorem hasType_of_typing {e : Expr Value} {ty : Ty} (h : e.typing = .ok ty) : e.HasType ty := by
  induction e generalizing ty with
  | leaf v =>
    cases h
    exact .leaf v
  | unary op arg ih =>
    obtain ⟨a, harg, h⟩ := bind_eq_ok h
    exact .unary (ih harg) h
  | ext op arg width ih =>
    obtain ⟨a, harg, h⟩ := bind_eq_ok h
    exact .ext (ih harg) h
  | binary op left right ihl ihr =>
    obtain ⟨l, hleft, h⟩ := bind_eq_ok h
    obtain ⟨r, hright, h⟩ := bind_eq_ok h
    exact .binary (ihl hleft) (ihr hright) h
  | select cond onTrue onFalse ihc iht ihf =>
    obtain ⟨c, hcond, h⟩ := bind_eq_ok h
    obtain ⟨t, htrue, h⟩ := bind_eq_ok h
    obtain ⟨f, hfalse, h⟩ := bind_eq_ok h
    exact .select (ihc hcond) (iht htrue) (ihf hfalse) h

/-- A tree has no other type than the one that is computed. -/
theorem typing_of_hasType {e : Expr Value} {ty : Ty} (h : e.HasType ty) : e.typing = .ok ty := by
  induction h with
  | leaf v => rfl
  | unary _ h ih => rw [typing, ih]; exact h
  | ext _ h ih => rw [typing, ih]; exact h
  | binary _ _ h ihl ihr => rw [typing, ihl, ihr]; exact h
  | select _ _ _ h ihc iht ihf => rw [typing, ihc, iht, ihf]; exact h

/-! ### The first fault -/

/-- A tree with a type has subtrees with types. -/
theorem HasType.subtrees {e : Expr Value} {ty : Ty} (h : e.HasType ty) :
    ∀ t ∈ e.subtrees, ∃ ty, t.HasType ty := by
  -- The tree itself comes last, after the subtrees of its operands.
  have hlast {trees : List (Expr Value)} {e : Expr Value} {ty : Ty} (he : e.HasType ty)
      (htrees : ∀ t ∈ trees, ∃ ty, t.HasType ty) : ∀ t ∈ trees ++ [e], ∃ ty, t.HasType ty :=
    List.forall_mem_append.2 ⟨htrees, List.forall_mem_singleton.2 ⟨ty, he⟩⟩
  induction h with
  | leaf v => exact List.forall_mem_singleton.2 ⟨v.ty, .leaf v⟩
  | unary harg h ih => exact hlast (.unary harg h) ih
  | ext harg h ih => exact hlast (.ext harg h) ih
  | binary hleft hright h ihl ihr =>
    exact hlast (.binary hleft hright h) (List.forall_mem_append.2 ⟨ihl, ihr⟩)
  | select hcond htrue hfalse h ihc iht ihf =>
    exact hlast (.select hcond htrue hfalse h)
      (List.forall_mem_append.2 ⟨List.forall_mem_append.2 ⟨ihc, iht⟩, ihf⟩)

namespace FirstFault

variable {trees : List (Expr Value)} {v : Violation}

/-- What comes later does not matter. -/
theorem append (h : FirstFault trees v) (more : List (Expr Value)) :
    FirstFault (trees ++ more) v := by
  obtain ⟨before, first, after, rfl, hbefore, hfirst⟩ := h
  exact ⟨before, first, after ++ more, by simp, hbefore, hfirst⟩

/-- Subtrees of a tree with a type have no fault, so the first one comes
later. -/
theorem of_typed {e : Expr Value} {ty : Ty} (he : e.HasType ty) (h : FirstFault trees v) :
    FirstFault (e.subtrees ++ trees) v := by
  obtain ⟨before, first, after, rfl, hbefore, hfirst⟩ := h
  exact ⟨e.subtrees ++ before, first, after, by simp,
    List.forall_mem_append.2 ⟨he.subtrees, hbefore⟩, hfirst⟩

/-- The root is the first one if there is no other. -/
theorem root {e : Expr Value} (h : e.Faulty v) : FirstFault [e] v :=
  ⟨[], e, [], rfl, fun _ ht => absurd ht List.not_mem_nil, h⟩

end FirstFault

/-- The operands are looked at from left to right, the root after all of
them. -/
theorem firstFault_of_typing {e : Expr Value} {v : Violation} (h : e.typing = .error v) :
    FirstFault e.subtrees v := by
  induction e with
  | leaf u => cases h
  | unary op arg ih =>
    rcases bind_eq_error h with harg | ⟨a, harg, h⟩
    · exact (ih harg).append _
    · have harg := hasType_of_typing harg
      exact .of_typed harg (.root (.unary harg h))
  | ext op arg width ih =>
    rcases bind_eq_error h with harg | ⟨a, harg, h⟩
    · exact (ih harg).append _
    · have harg := hasType_of_typing harg
      exact .of_typed harg (.root (.ext harg h))
  | binary op left right ihl ihr =>
    rw [subtrees, List.append_assoc]
    -- The left operand has the first fault, or it has a type and the fault comes later.
    rcases bind_eq_error h with hleft | ⟨l, hleft, h⟩
    · exact (ihl hleft).append _
    have hleft := hasType_of_typing hleft
    refine .of_typed hleft ?_
    rcases bind_eq_error h with hright | ⟨r, hright, h⟩
    · exact (ihr hright).append _
    · have hright := hasType_of_typing hright
      exact .of_typed hright (.root (.binary hleft hright h))
  | select cond onTrue onFalse ihc iht ihf =>
    rw [subtrees, List.append_assoc, List.append_assoc]
    rcases bind_eq_error h with hcond | ⟨c, hcond, h⟩
    · exact (ihc hcond).append _
    have hcond := hasType_of_typing hcond
    refine .of_typed hcond ?_
    rcases bind_eq_error h with htrue | ⟨t, htrue, h⟩
    · exact (iht htrue).append _
    have htrue := hasType_of_typing htrue
    refine .of_typed htrue ?_
    rcases bind_eq_error h with hfalse | ⟨f, hfalse, h⟩
    · exact (ihf hfalse).append _
    · have hfalse := hasType_of_typing hfalse
      exact .of_typed hfalse (.root (.select hcond htrue hfalse h))

end Expr

/-- A fault is always one of types. -/
theorem Expr.FirstFault.illTyped {trees : List (Expr Value)} {v : Violation}
    (h : FirstFault trees v) : ∃ op fault, v = .illTyped op fault := by
  obtain ⟨_, _, _, _, _, hfirst⟩ := h
  cases hfirst with
  | unary _ h | binary _ _ h | ext _ h | select _ _ _ h => exact ⟨_, App.resultType_eq_error h⟩

/-! ### Evaluation -/

namespace Build

/-- Carried out on any open block, the operation comes to a value of this
type, or breaks this rule. -/
def Types (x : Build Value) (t : Except Violation Ty) : Prop :=
  ∀ b : Builder, b.isOpen = true → b.MemoTyped →
    (x b).2.isOpen = true ∧ (x b).2.MemoTyped ∧ (x b).1.map Value.ty = t.mapError .violation

namespace Types

/-- A value has its type at once. -/
theorem pure (v : Value) : Types (Pure.pure v) (.ok v.ty) := fun _ hopen hb => ⟨hopen, hb, rfl⟩

/-- What follows may use the value; for the type it is enough to know the
type of the value. -/
theorem bind {x : Build Value} {f : Value → Build Value} {t : Except Violation Ty}
    {g : Ty → Except Violation Ty} (hx : Types x t) (hf : ∀ v, Types (f v) (g v.ty)) :
    Types (x >>= f) (t >>= g) := by
  intro b hopen hb
  obtain ⟨hopen', hb', htype⟩ := hx b hopen hb
  rw [bind_run]
  cases hxb : x b with
  | mk result b' =>
    rw [hxb] at hopen' hb' htype
    cases result with
    | error e =>
      cases t with
      | ok ty => cases htype
      | error v => exact ⟨hopen', hb', htype⟩
    | ok v =>
      cases t with
      | error v => cases htype
      | ok ty =>
        cases htype
        exact hf v b' hopen' hb'

/-- An application has a type or a fault by its operands, whether it is
folded, found in the table or named. -/
theorem evaluateApp (app : App) : Types (Build.evaluateApp app) app.resultType := by
  intro b hopen hb
  unfold Build.evaluateApp
  cases hty : app.resultType with
  | error v => exact ⟨hopen, hb, rfl⟩
  | ok ty =>
    cases hfold : app.fold with
    | some v => exact ⟨hopen, hb, congrArg Except.ok (App.ty_of_fold hty hfold)⟩
    | none =>
      obtain ⟨blk, hblk⟩ := Option.isSome_iff_exists.1 hopen
      show (define (.app app) ty true b).2.isOpen = true ∧
        (define (.app app) ty true b).2.MemoTyped ∧
        (define (.app app) ty true b).1.map Value.ty = .ok ty
      have hshared : remembers (.app app) true = (Rhs.app app).isShared := rfl
      rcases define_cases hblk hshared ty with ⟨v, -, hv, hdefine⟩ | ⟨-, hdefine⟩
      · -- The table has the value, with the type it had when it was named.
        have hold := hb blk hblk app v (mem_of_lookup_eq_some hv)
        rw [hty] at hold
        cases hold
        rw [hdefine]
        exact ⟨hopen, hb, rfl⟩
      · rw [hdefine]
        exact ⟨rfl, .named hblk hb (.app hty hfold), rfl⟩

/-- Evaluation goes through the tree as typing does. -/
theorem evaluate (e : Expr Value) : Types (Build.evaluate e) e.typing := by
  induction e with
  | leaf v => exact .pure v
  | unary op arg ih => exact ih.bind fun v => evaluateApp (.unary op v)
  | ext op arg width ih => exact ih.bind fun v => evaluateApp (.ext op v width)
  | binary op left right ihl ihr =>
    exact ihl.bind fun l => ihr.bind fun r => evaluateApp (.binary op l r)
  | select cond onTrue onFalse ihc iht ihf =>
    exact ihc.bind fun c => iht.bind fun t => ihf.bind fun f => evaluateApp (.select c t f)

/-- With a type there is a value. -/
theorem eq_ok {x : Build Value} {ty : Ty} (h : Types x (.ok ty)) {b : Builder}
    (hopen : b.isOpen = true) (hb : b.MemoTyped) : ∃ v b', x b = (.ok v, b') ∧ v.ty = ty := by
  obtain ⟨-, -, htype⟩ := h b hopen hb
  cases hx : x b with
  | mk result b' =>
    rw [hx] at htype
    cases result with
    | error e => cases htype
    | ok v => exact ⟨v, b', rfl, Except.ok.inj htype⟩

/-- Without one there is the fault. -/
theorem eq_error {x : Build Value} {v : Violation} (h : Types x (.error v)) {b : Builder}
    (hopen : b.isOpen = true) (hb : b.MemoTyped) : ∃ b', x b = (.error (.violation v), b') := by
  obtain ⟨-, -, htype⟩ := h b hopen hb
  cases hx : x b with
  | mk result b' =>
    rw [hx] at htype
    cases result with
    | ok v => cases htype
    | error e =>
      cases htype
      exact ⟨b', rfl⟩

end Types

/-- Evaluation succeeds on the trees that have a type, with a value of that
type. On all others it fails, with what is wrong with the first
application that has no type. -/
theorem evaluate_accepts_hasType {b : Builder} (hb : b.Reachable) (hopen : b.isOpen = true)
    (e : Expr Value) :
    (∀ ty, (∃ v b', evaluate e b = (.ok v, b') ∧ v.ty = ty) ↔ e.HasType ty) ∧
    ((¬ ∃ ty, e.HasType ty) → ∃ op fault b',
      evaluate e b = (.error (.violation (.illTyped op fault)), b') ∧
        Expr.FirstFault e.subtrees (.illTyped op fault)) := by
  have htypes := Types.evaluate e
  cases htyping : e.typing with
  | ok ty =>
    rw [htyping] at htypes
    have he := Expr.hasType_of_typing htyping
    obtain ⟨v, b', hevaluate, rfl⟩ := htypes.eq_ok hopen hb.memoTyped
    -- The tree has one type only, which is the one that typing gives.
    refine ⟨fun ty' => ⟨?_, fun he' => ?_⟩, fun hnone => absurd ⟨v.ty, he⟩ hnone⟩
    · rintro ⟨v', b'', hagain, rfl⟩
      rw [hevaluate] at hagain
      cases hagain
      exact he
    · rw [Expr.typing_of_hasType he'] at htyping
      cases htyping
      exact ⟨v, b', hevaluate, rfl⟩
  | error viol =>
    rw [htyping] at htypes
    obtain ⟨b', hevaluate⟩ := htypes.eq_error hopen hb.memoTyped
    have hfault := Expr.firstFault_of_typing htyping
    obtain ⟨op, fault, rfl⟩ := hfault.illTyped
    refine ⟨fun ty' => ⟨?_, fun he' => ?_⟩, fun _ => ⟨op, fault, b', hevaluate, hfault⟩⟩
    · rintro ⟨v', b'', hagain, -⟩
      rw [hevaluate] at hagain
      cases hagain
    · rw [Expr.typing_of_hasType he'] at htyping
      cases htyping

/-- A sum is named, then a branch is taken and undone. -/
def undoneBranch : Recipe.Operation where
  site := Recipe.flagsSite
  recipe :=
    .step (.bind "sum" (.binary .add (.leaf (.reg 0)) (.leaf (.reg 0)))) <|
    .step (.save "here") <|
    .branch (.leaf (.reg 1)) .done .done <|
    .step (.restore "here") .done
  temps := []

/-- Back in the first block, where the sum is remembered. -/
def afterUndoneBranch : Builder :=
  (Recipe.Action.runAll [.perform .outermost undoneBranch]
    { builder := .start {} 0x1000 (.symbolic Recipe.flagsMachine) }).2.builder

/-- The remembered sum. -/
def rememberedSum : Expr Value :=
  .binary .add (.leaf (.initial 0 (.bv 64))) (.leaf (.initial 0 (.bv 64)))

/-- A choice that folds to the arm on the right. -/
def foldingChoice (onTrue : Expr Value) : Expr Value :=
  .select (.binary .ult rememberedSum (.leaf (.bv 64 0))) onTrue
    (.binary .mul (.leaf (.bv 64 1)) rememberedSum)

/-- The arm that is not taken has to have a type, too. -/
theorem evaluate_accepts_hasType_undone :
    afterUndoneBranch.Reachable ∧ afterUndoneBranch.isOpen = true ∧
    afterUndoneBranch.issued = 1 ∧ afterUndoneBranch.ledger.next = 1 ∧
    (∃ v b', evaluate (foldingChoice rememberedSum) afterUndoneBranch = (.ok v, b') ∧
      v.ty = .bv 64) ∧
    ∃ op fault b',
      evaluate (foldingChoice (.unary .boolNot rememberedSum)) afterUndoneBranch =
        (.error (.violation (.illTyped op fault)), b') ∧
      Expr.FirstFault (foldingChoice (.unary .boolNot rememberedSum)).subtrees
        (.illTyped op fault) := by
  have hreach : afterUndoneBranch.Reachable := (Recipe.reachable_runAll ..).builder
  have hopen : afterUndoneBranch.isOpen = true := by decide +kernel
  have hgood : (foldingChoice rememberedSum).HasType (.bv 64) :=
    Expr.hasType_of_typing (by decide +kernel)
  have hbad : ¬ ∃ ty, (foldingChoice (.unary .boolNot rememberedSum)).HasType ty := by
    rintro ⟨ty, h⟩
    have hok := Expr.typing_of_hasType h
    have herror : (foldingChoice (.unary .boolNot rememberedSum)).typing =
      .error (.illTyped "bool_not" (.operandType (.bv 64))) := by decide +kernel
    rw [herror] at hok
    cases hok
  exact ⟨hreach, hopen, by decide +kernel, by decide +kernel,
    ((evaluate_accepts_hasType hreach hopen _).1 _).2 hgood,
    (evaluate_accepts_hasType hreach hopen _).2 hbad⟩

end Build

end FlowRecovery
