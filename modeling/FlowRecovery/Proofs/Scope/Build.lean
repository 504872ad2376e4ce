import FlowRecovery.Proofs.Builder
import FlowRecovery.Proofs.Fold
import FlowRecovery.Proofs.Scope

/-!
# `FlowRecovery.Proofs.Scope.Build`: construction stays in scope

While blocks are built, every value at hand is known: it is a symbol or
a literal, or it was assigned in the open block, in a block that was
split on the way here, or before the run. `Builder.Rooted` says so of all
that a builder holds, and each operation preserves it (`Build.Keeps`).
What whole recipes preserve is in `FlowRecovery.Proofs.Scope.Recipe`.
-/

set_option autoImplicit false

namespace FlowRecovery

/-! ### What a builder knows -/

namespace Builder

/-- What is known when a block is opened: what split blocks have passed
on, beside what was known before the run. -/
def outer (known : List Value) (b : Builder) : List Value :=
  known ++ b.ledger.finished.flatMap Block.passedOn

/-- What is known at the end of the open block. -/
def scope (known : List Value) (b : Builder) : List Value :=
  b.outer known ++ results b.stmts

/-- The numbers of all assignments made so far. -/
def assigned (b : Builder) : List AssignId :=
  (b.ledger.finished.flatMap Block.stmts ++ b.stmts).filterMap Stmt.assignId?

/-- All that the builder holds is known, and its assignments have
different numbers, none of them below `n₀`. -/
structure Rooted (known : List Value) (n₀ : Nat) (b : Builder) : Prop where
  finished : RunScoped known b.ledger.finished
  stmts : Scoped (b.outer known) b.stmts
  regs : ∀ blk, b.current = some blk → ∀ v ∈ blk.regs.values, v.Known (b.scope known)
  memo : ∀ blk, b.current = some blk → ∀ e ∈ blk.memo, e.2.Known (b.scope known)
  nodup : b.assigned.Nodup
  issued : ∀ id ∈ b.assigned, n₀ ≤ id ∧ id < b.issued
  le_issued : n₀ ≤ b.issued

/-- The value is known as long as the block is open. What is at hand
after the block has been closed cannot be used any more. -/
def Sees (known : List Value) (b : Builder) (v : Value) : Prop :=
  b.current ≠ none → v.Known (b.scope known)

/-- What was known stays known, and a closed block stays closed. -/
structure Leads (known : List Value) (b b' : Builder) : Prop where
  outer : b.outer known ⊆ b'.outer known
  isOpen : b'.current ≠ none → b.current ≠ none ∧ b.scope known ⊆ b'.scope known

variable {known : List Value} {n₀ : Nat} {b b' b'' : Builder} {v : Value}

/-- The statements of the builder are those of its open block. -/
theorem stmts_of_current {blk : OpenBlock} (h : b.current = some blk) : b.stmts = blk.stmts := by
  simp [stmts, h]

/-- The invariant is a matter of the blocks and the numbers. -/
theorem Rooted.congr (h : b.Rooted known n₀) (hfinished : b'.ledger.finished = b.ledger.finished)
    (hcurrent : b'.current = b.current) (hissued : b.issued ≤ b'.issued) : b'.Rooted known n₀ := by
  have hstmts : b'.stmts = b.stmts := by rw [Builder.stmts, Builder.stmts, hcurrent]
  have houter : b'.outer known = b.outer known := by rw [outer, outer, hfinished]
  have hscope : b'.scope known = b.scope known := by rw [scope, scope, houter, hstmts]
  have hassigned : b'.assigned = b.assigned := by rw [assigned, assigned, hfinished, hstmts]
  refine ⟨hfinished ▸ h.finished, ?_, ?_, ?_, hassigned ▸ h.nodup, ?_, ?_⟩
  · rw [houter, hstmts]
    exact h.stmts
  · rw [hcurrent, hscope]
    exact h.regs
  · rw [hcurrent, hscope]
    exact h.memo
  · intro id hid
    obtain ⟨hle, hlt⟩ := h.issued id (hassigned ▸ hid)
    exact ⟨hle, Nat.lt_of_lt_of_le hlt hissued⟩
  · exact Nat.le_trans h.le_issued hissued

/-- Nothing has been done. -/
theorem Leads.refl (b : Builder) : b.Leads known b :=
  ⟨List.Subset.refl _, fun h => ⟨h, List.Subset.refl _⟩⟩

/-- What is known at first is known all the way. -/
theorem Leads.trans (h : b.Leads known b') (h' : b'.Leads known b'') : b.Leads known b'' := by
  refine ⟨List.Subset.trans h.outer h'.outer, fun hopen => ?_⟩
  obtain ⟨hopen', hsub'⟩ := h'.isOpen hopen
  obtain ⟨hopen, hsub⟩ := h.isOpen hopen'
  exact ⟨hopen, List.Subset.trans hsub hsub'⟩

/-- A value stays known as long as its block is open. -/
theorem Sees.leads (h : b.Sees known v) (hleads : b.Leads known b') : b'.Sees known v := by
  intro hopen
  obtain ⟨hopen', hsub⟩ := hleads.isOpen hopen
  exact (h hopen').mono hsub

/-- A value that is known on opening a block is known in it. -/
theorem Sees.of_outer (h : v.Known (b.outer known)) : b.Sees known v :=
  fun _ => h.mono (List.subset_append_left _ _)

/-- A value that is no name is known everywhere. -/
theorem Sees.of_constant (h : v.assignId? = none) : b.Sees known v :=
  fun _ => Or.inl h

end Builder

/-! ### Operations -/

namespace Build

variable {known : List Value} {n₀ : Nat} {b b' b'' : Builder}

/-- The invariant is preserved on the way from `b` to `b'`. -/
structure Keeps (known : List Value) (n₀ : Nat) (b b' : Builder) : Prop where
  rooted : b'.Rooted known n₀
  leads : b.Leads known b'

/-- Nothing has been done. -/
theorem Keeps.refl (h : b.Rooted known n₀) : Keeps known n₀ b b := ⟨h, .refl b⟩

/-- One part after the other. -/
theorem Keeps.trans (h : Keeps known n₀ b b') (h' : Keeps known n₀ b' b'') :
    Keeps known n₀ b b'' :=
  ⟨h'.rooted, h.leads.trans h'.leads⟩

/-- The open block goes on: statements that read known values are added,
with new numbers for what they assign, and the registers and the memory
of results hold what is known by then. -/
theorem keeps_of_update {blk : OpenBlock} (blk' : OpenBlock) (more : List Stmt) (issued : Nat)
    (h : b.Rooted known n₀) (hblk : b.current = some blk)
    (hstmts : blk'.stmts = blk.stmts ++ more) (hmore : Scoped (b.scope known) more)
    (hregs : ∀ v ∈ blk'.regs.values, v.Known (b.scope known ++ results more))
    (hmemo : ∀ e ∈ blk'.memo, e.2.Known (b.scope known ++ results more))
    (hissued : b.issued ≤ issued) (hnodup : (more.filterMap Stmt.assignId?).Nodup)
    (hnew : ∀ id ∈ more.filterMap Stmt.assignId?, b.issued ≤ id ∧ id < issued) :
    Keeps known n₀ b { b with issued, current := some blk' } := by
  have hall : Builder.stmts { b with issued, current := some blk' } = b.stmts ++ more := by
    rw [Builder.stmts_of_current hblk, ← hstmts]
    rfl
  have hscope : Builder.scope known { b with issued, current := some blk' } =
      b.scope known ++ results more := by
    rw [Builder.scope, hall, results_append, ← List.append_assoc]
    rfl
  have hassigned : Builder.assigned { b with issued, current := some blk' } =
      b.assigned ++ more.filterMap Stmt.assignId? := by
    rw [Builder.assigned, hall, ← List.append_assoc, List.filterMap_append]
    rfl
  refine ⟨⟨h.finished, ?_, ?_, ?_, ?_, ?_, Nat.le_trans h.le_issued hissued⟩,
    ⟨List.Subset.refl _, fun _ => ⟨by simp [hblk], ?_⟩⟩⟩
  · rw [hall]
    exact Scoped.append_iff.2 ⟨h.stmts, hmore⟩
  · intro blk'' hblk'' v hv
    cases hblk''
    rw [hscope]
    exact hregs v hv
  · intro blk'' hblk'' e he
    cases hblk''
    rw [hscope]
    exact hmemo e he
  · -- New numbers are above all that were handed out before.
    rw [hassigned, List.nodup_append]
    refine ⟨h.nodup, hnodup, ?_⟩
    intro old hold id hid heq
    have hlt := (h.issued old hold).2
    rw [heq] at hlt
    exact Nat.not_le.2 hlt (hnew id hid).1
  · intro id hid
    rw [hassigned, List.mem_append] at hid
    cases hid with
    | inl hold =>
      obtain ⟨hle, hlt⟩ := h.issued id hold
      exact ⟨hle, Nat.lt_of_lt_of_le hlt hissued⟩
    | inr hid =>
      obtain ⟨hle, hlt⟩ := hnew id hid
      exact ⟨Nat.le_trans h.le_issued hle, hlt⟩
  · rw [hscope]
    exact List.subset_append_left _ _

/-- A statement that assigns nothing is appended. -/
theorem emit_keeps {s : Stmt} {u : Unit} (hemit : emit s b = (.ok u, b')) (h : b.Rooted known n₀)
    (hs : ∀ v ∈ s.uses, b.Sees known v) (hid : s.assignId? = none) : Keeps known n₀ b b' := by
  obtain ⟨blk, hblk, rfl⟩ := emit_eq_ok_iff.1 hemit
  have hopen : b.current ≠ none := by simp [hblk]
  have hids : [s].filterMap Stmt.assignId? = [] := List.filterMap_cons_none hid
  refine keeps_of_update { blk with stmts := blk.stmts ++ [s] } [s] b.issued h hblk rfl
    ⟨fun v hv => hs v hv hopen, trivial⟩ ?_ ?_ (Nat.le_refl _) ?_ ?_
  · intro v hv
    exact (h.regs blk hblk v hv).mono (List.subset_append_left _ _)
  · intro e he
    exact (h.memo blk hblk e he).mono (List.subset_append_left _ _)
  · rw [hids]
    exact List.nodup_nil
  · intro id hmem
    rw [hids] at hmem
    cases hmem

/-- A right-hand side gets a name, or has one already. Either way the name
is known. -/
theorem define_keeps {rhs : Rhs} {ty : Ty} {memoize : Bool} {v : Value}
    (hdefine : define rhs ty memoize b = (.ok v, b')) (h : b.Rooted known n₀)
    (hrhs : ∀ u ∈ rhs.operands, b.Sees known u) :
    Keeps known n₀ b b' ∧ b'.Sees known v := by
  obtain ⟨blk, hblk, hcases⟩ := define_eq_ok_iff.1 hdefine
  have hopen : b.current ≠ none := by simp [hblk]
  -- A name is used again, or the next number is taken for a new one.
  cases hcases with
  | inl hreused =>
    obtain ⟨-, hlookup, rfl⟩ := hreused
    exact ⟨.refl h, fun _ => h.memo blk hblk _ (mem_of_lookup_eq_some hlookup)⟩
  | inr hnamed =>
    obtain ⟨-, rfl, rfl⟩ := hnamed
    have hnew : Value.assign b.issued ty ∈ results [.assign b.issued ty rhs] := List.mem_cons_self
    have hold {w : Value} (hw : w.Known (b.scope known)) :
        w.Known (b.scope known ++ results [.assign b.issued ty rhs]) :=
      hw.mono (List.subset_append_left _ _)
    refine ⟨keeps_of_update _ [.assign b.issued ty rhs] (b.issued + 1) h hblk rfl
      ⟨fun u hu => hrhs u hu hopen, trivial⟩ (fun w hw => hold (h.regs blk hblk w hw)) ?_
      (Nat.le_succ _) (List.nodup_singleton _) ?_, fun _ => Or.inr ?_⟩
    · intro e he
      -- A memoized result is remembered under its new name.
      split at he
      · cases he with
        | head => exact Or.inr (List.mem_append_right _ hnew)
        | tail _ he => exact hold (h.memo blk hblk e he)
      · exact hold (h.memo blk hblk e he)
    · intro id hid
      rw [List.mem_singleton.1 hid]
      exact ⟨Nat.le_refl _, Nat.lt_succ_self _⟩
    · show _ ∈ b.outer known ++ results (blk.stmts ++ [.assign b.issued ty rhs])
      rw [results_append]
      exact List.mem_append_right _ (List.mem_append_right _ hnew)

/-- Folding brings in no name that the operands do not have. -/
theorem evaluateApp_keeps {app : App} {v : Value} (h : b.Rooted known n₀)
    (happ : ∀ u ∈ app.operands, b.Sees known u) (heval : evaluateApp app b = (.ok v, b')) :
    Keeps known n₀ b b' ∧ b'.Sees known v := by
  obtain ⟨ty, -, hcases⟩ := evaluateApp_eq_ok_iff.1 heval
  cases hcases with
  | inr hnamed => exact define_keeps hnamed.2 h happ
  | inl hfolded =>
    obtain ⟨hfold, rfl⟩ := hfolded
    refine ⟨.refl h, ?_⟩
    cases App.fold_mem hfold with
    | inl hconstant => exact .of_constant hconstant.assignId?
    | inr hoperand => exact happ v hoperand

/-- An expression of known values. Induction on it, from the leaves up. -/
theorem evaluate_keeps {e : Expr Value} {v : Value} (h : b.Rooted known n₀)
    (he : e.All (b.Sees known)) (heval : evaluate e b = (.ok v, b')) :
    Keeps known n₀ b b' ∧ b'.Sees known v := by
  induction e generalizing b b' v with
  | leaf u =>
    obtain ⟨rfl, rfl⟩ := pure_eq_ok_iff.1 heval
    exact ⟨.refl h, he⟩
  | unary op arg ih =>
    obtain ⟨u, b₁, harg, happ⟩ := bind_eq_ok_iff.1 heval
    obtain ⟨hkeeps, hu⟩ := ih h he harg
    obtain ⟨hkeeps', hv⟩ := evaluateApp_keeps hkeeps.rooted (by simpa [App.operands] using hu) happ
    exact ⟨hkeeps.trans hkeeps', hv⟩
  | ext op arg width ih =>
    obtain ⟨u, b₁, harg, happ⟩ := bind_eq_ok_iff.1 heval
    obtain ⟨hkeeps, hu⟩ := ih h he harg
    obtain ⟨hkeeps', hv⟩ := evaluateApp_keeps hkeeps.rooted (by simpa [App.operands] using hu) happ
    exact ⟨hkeeps.trans hkeeps', hv⟩
  -- The first operand stays known while the second one is evaluated.
  | binary op left right ihl ihr =>
    obtain ⟨u, b₁, hleft, heval⟩ := bind_eq_ok_iff.1 heval
    obtain ⟨w, b₂, hright, happ⟩ := bind_eq_ok_iff.1 heval
    obtain ⟨hkeeps₁, hu⟩ := ihl h he.1 hleft
    obtain ⟨hkeeps₂, hw⟩ := ihr hkeeps₁.rooted (he.2.imp fun _ hv => hv.leads hkeeps₁.leads) hright
    have hu := hu.leads hkeeps₂.leads
    obtain ⟨hkeeps₃, hv⟩ :=
      evaluateApp_keeps hkeeps₂.rooted (by simpa [App.operands] using ⟨hu, hw⟩) happ
    exact ⟨(hkeeps₁.trans hkeeps₂).trans hkeeps₃, hv⟩
  | select cond onTrue onFalse ihc iht ihf =>
    obtain ⟨u, b₁, hcond, heval⟩ := bind_eq_ok_iff.1 heval
    obtain ⟨w, b₂, htrue, heval⟩ := bind_eq_ok_iff.1 heval
    obtain ⟨x, b₃, hfalse, happ⟩ := bind_eq_ok_iff.1 heval
    obtain ⟨hkeeps₁, hu⟩ := ihc h he.1 hcond
    obtain ⟨hkeeps₂, hw⟩ :=
      iht hkeeps₁.rooted (he.2.1.imp fun _ hv => hv.leads hkeeps₁.leads) htrue
    have hu := hu.leads hkeeps₂.leads
    have hkeeps₂ := hkeeps₁.trans hkeeps₂
    obtain ⟨hkeeps₃, hx⟩ :=
      ihf hkeeps₂.rooted (he.2.2.imp fun _ hv => hv.leads hkeeps₂.leads) hfalse
    have hu := hu.leads hkeeps₃.leads
    have hw := hw.leads hkeeps₃.leads
    obtain ⟨hkeeps₄, hv⟩ :=
      evaluateApp_keeps hkeeps₃.rooted (by simpa [App.operands] using ⟨hu, hw, hx⟩) happ
    exact ⟨(hkeeps₂.trans hkeeps₃).trans hkeeps₄, hv⟩

/-- A load from a known address is a literal or gets a name. -/
theorem load_keeps {m : Machine} {img : Image} {addr v : Value} {bytes : Nat}
    (h : b.Rooted known n₀) (haddr : b.Sees known addr)
    (hload : load m img addr bytes b = (.ok v, b')) :
    Keeps known n₀ b b' ∧ b'.Sees known v := by
  obtain ⟨-, -, hcases⟩ := load_eq_ok_iff.1 hload
  cases hcases with
  | inl hconstant =>
    obtain ⟨hv, rfl⟩ := hconstant
    -- What is read ahead of time is a literal.
    obtain ⟨a, -, hread⟩ := Option.bind_eq_some_iff.1 hv
    obtain ⟨w, -, rfl⟩ := Option.map_eq_some_iff.1 hread
    exact ⟨.refl h, .of_constant rfl⟩
  | inr hnamed =>
    refine define_keeps hnamed.2 h ?_
    intro u hu
    rw [List.mem_singleton.1 hu]
    exact haddr

/-- Everything in a file after `set` was there before or is the new
value. -/
theorem mem_of_set {regs regs' : RegFile} {r : Reg} {v u : Value} (h : regs.set r v = .ok regs')
    (hu : u ∈ regs'.values) : u ∈ regs.values ∨ u = v := by
  obtain ⟨-, rfl⟩ := RegFile.set_eq_ok_iff.1 h
  exact List.mem_or_eq_of_mem_set hu

/-- A known value is written to a register, or the write is dropped. -/
theorem setRegister_keeps {m : Machine} {r : Reg} {v : Value} {u : Unit} (h : b.Rooted known n₀)
    (hv : b.Sees known v) (hset : setRegister m r v b = (.ok u, b')) : Keeps known n₀ b b' := by
  obtain ⟨blk, hblk, hcases⟩ := setRegister_eq_ok_iff.1 hset
  have hopen : b.current ≠ none := by simp [hblk]
  cases hcases with
  -- A write to the zero register changes nothing.
  | inl hzero =>
    rw [hzero.2]
    exact .refl h
  | inr hwritten =>
    obtain ⟨-, regs, hregs, rfl⟩ := hwritten
    have hsame {w : Value} (hw : w.Known (b.scope known)) : w.Known (b.scope known ++ results []) :=
      hw.mono (List.subset_append_left _ _)
    refine keeps_of_update { blk with regs } [] b.issued h hblk (List.append_nil _).symm trivial
      ?_ (fun e he => hsame (h.memo blk hblk e he)) (Nat.le_refl _) List.nodup_nil
      fun _ hid => absurd hid List.not_mem_nil
    intro w hw
    cases mem_of_set hregs hw with
    | inl hheld => exact hsame (h.regs blk hblk w hheld)
    | inr hnew => exact hnew ▸ hsame (hv hopen)

/-- A known value is stored to a known address. -/
theorem store_keeps {m : Machine} {addr value : Value} {u : Unit} (h : b.Rooted known n₀)
    (haddr : b.Sees known addr) (hvalue : b.Sees known value)
    (hstore : store m addr value b = (.ok u, b')) : Keeps known n₀ b b' := by
  obtain ⟨-, -, hemit⟩ := store_eq_ok_iff.1 hstore
  refine emit_keeps hemit h ?_ rfl
  intro v hv
  simp only [Stmt.uses, List.mem_cons, List.not_mem_nil, or_false] at hv
  cases hv with
  | inl heq => exact heq ▸ haddr
  | inr heq => exact heq ▸ hvalue

/-- The open block is closed with an exit that reads known values. -/
theorem keeps_of_close {closed : Block} {l l' : Ledger} (h : b.Rooted known n₀)
    (hstmts : b.stmts = closed.stmts) (hfinished : l.finished = b.ledger.finished)
    (hpush : l.push closed = .ok l')
    (hexit : ∀ v ∈ closed.exit.values, v.Known (b.scope known)) :
    Keeps known n₀ b { b with ledger := l', current := none } := by
  obtain ⟨-, rfl⟩ := Ledger.push_eq_ok_iff.1 hpush
  -- The statements move from the open block to a finished one.
  have hassigned : ((l.finished ++ [closed]).flatMap Block.stmts ++ []).filterMap Stmt.assignId? =
      b.assigned := by
    rw [Builder.assigned, hstmts, hfinished, List.flatMap_append]
    simp
  refine ⟨⟨?_, trivial, ?_, ?_, ?_, ?_, h.le_issued⟩, ⟨?_, fun hopen => absurd rfl hopen⟩⟩
  · show RunScoped known (l.finished ++ [_])
    rw [hfinished]
    refine RunScoped.append_iff.2 ⟨h.finished, ⟨?_, ?_⟩, trivial⟩
    · exact hstmts ▸ h.stmts
    · intro v hv
      have hv := hexit v hv
      rw [Builder.scope, hstmts] at hv
      exact hv
  · intro blk' hblk'
    cases hblk'
  · intro blk' hblk'
    cases hblk'
  · show (_ : List AssignId).Nodup
    rw [Builder.assigned]
    exact hassigned ▸ h.nodup
  · intro id hid
    exact h.issued id (hassigned ▸ hid)
  · show b.outer known ⊆ known ++ (l.finished ++ [_]).flatMap Block.passedOn
    rw [hfinished, List.flatMap_append, ← List.append_assoc]
    exact List.subset_append_left _ _

/-- The open block is closed with an exit that its registers determine. -/
theorem close_keeps {exit : RegFile → Exit} {i : BlockIndex} (hclose : close exit b = (.ok i, b'))
    (h : b.Rooted known n₀)
    (hexit : ∀ blk, b.current = some blk → ∀ v ∈ (exit blk.regs).values, v.Known (b.scope known)) :
    Keeps known n₀ b b' := by
  obtain ⟨blk, hblk, -, l, hpush, rfl⟩ := close_eq_ok_iff.1 hclose
  exact keeps_of_close h (Builder.stmts_of_current hblk) rfl hpush (hexit blk hblk)

/-- After a split, all that was known on the way there is known to
both sides. -/
theorem split_keeps {cond : Value} {t f : BlockIndex} {regs : RegFile} (h : b.Rooted known n₀)
    (hcond : b.Sees known cond) (hsplit : split cond b = (.ok (t, f, regs), b')) :
    Keeps known n₀ b b' ∧ b'.current = none ∧ b.scope known ⊆ b'.outer known ∧
      ∀ v ∈ regs.values, v.Known (b'.outer known) := by
  obtain ⟨blk, hblk, rfl, rfl, rfl, l, hpush, rfl⟩ := split_eq_ok_iff.1 hsplit
  have hopen : b.current ≠ none := by simp [hblk]
  have hstmts := Builder.stmts_of_current hblk
  have hkeeps := keeps_of_close (l := { b.ledger with next := b.ledger.next + 2 }) h hstmts rfl
    hpush (by simpa [Exit.values] using hcond hopen)
  -- A split block passes on all of its results.
  have hpassed : b.scope known ⊆
      Builder.outer known { b with ledger := l, current := none } := by
    obtain ⟨-, rfl⟩ := Ledger.push_eq_ok_iff.1 hpush
    show b.scope known ⊆ known ++ (b.ledger.finished ++ [_]).flatMap Block.passedOn
    rw [List.flatMap_append, ← List.append_assoc, Builder.scope, hstmts]
    simp [Builder.outer, Block.passedOn]
  exact ⟨hkeeps, rfl, hpassed, fun v hv => (h.regs blk hblk v hv).mono hpassed⟩

/-- Opening the block of an arm whose registers are known. -/
theorem rooted_of_enter (blk : OpenBlock) (h : b.Rooted known n₀) (hclosed : b.current = none)
    (hstmts : blk.stmts = []) (hmemo : blk.memo = [])
    (hregs : ∀ v ∈ blk.regs.values, v.Known (b.outer known)) :
    Builder.Rooted known n₀ { b with current := some blk } := by
  have hassigned : Builder.assigned { b with current := some blk } = b.assigned := by
    show (_ ++ blk.stmts).filterMap _ = _
    rw [Builder.assigned, hstmts, Builder.stmts, hclosed]
    rfl
  refine ⟨h.finished, ?_, ?_, ?_, hassigned ▸ h.nodup, hassigned ▸ h.issued, h.le_issued⟩
  · show Scoped _ blk.stmts
    rw [hstmts]
    trivial
  · intro blk' hblk' v hv
    cases hblk'
    exact (hregs v hv).mono (List.subset_append_left _ _)
  · intro blk' hblk' e he
    cases hblk'
    rw [hmemo] at he
    cases he

end Build

end FlowRecovery
