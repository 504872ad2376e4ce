import FlowRecovery.Proofs.Simulation.Step

/-!
# `FlowRecovery.Proofs.Refinement`: blocks do what their recipe says

Building blocks from a recipe is a small compiler. It folds constants,
uses results again, loads from read-only memory ahead of time, copies
the registers at every split, and works its arms off a queue. This file
shows that nothing of that can be seen from outside: running the blocks
that were built comes to the same registers and the same world as
performing the recipe, and does the same things on the way, except that
loads of constants may be missing (`run_refines`).

The argument follows the construction. A recipe on a closed block can
only be idle (`exec_rests`). On an open block it either keeps adding
statements, or splits the block and leaves two arms (`exec_ends`). What
becomes of the arms depends on where the split is. Inside an arm they
wait in the queue (`settles_pure`). At the top the queue is worked off
(`settles_drain`), and an arm comes out right if all arms that it leaves
behind do (`Arm.good_of_run`), so all of them do (`drain_good`).
-/

set_option autoImplicit false

namespace FlowRecovery.Recipe

/-! ### Plain recipes -/

/-- The parts of a plain recipe are plain. -/
theorem heritable_plain (n : Nat) : Heritable (Plain n) where
  step := by
    intro s rest h
    refine ⟨fun name hs => ?_, h.2⟩
    rw [hs] at h
    exact h.1
  branch h := h.2

variable {site : Site} {W : World site.machine site.image} {ρ₀ ρ ρ' : Valuation} {n₀ n n' : Nat}
  {temps temps' : Temps} {data data' : DataTemps} {regs regs' : List Datum} {p p' : Progress}
  {current current' : Option OpenBlock}

namespace Mirrors

/-- Older temporaries are still mirrored. -/
theorem restore (h : Mirrors W ρ₀ n₀ n current temps ρ data regs)
    (h' : Mirrors W ρ₀ n₀ n' current' temps' ρ' data' regs') (hagree : ρ.Agrees n ρ')
    (hle : n ≤ n') : Mirrors W ρ₀ n₀ n' current' temps ρ' data regs' :=
  { h' with
    temps_settled := fun t ht => (h.temps_settled t ht).mono hle
    data_eq := by
      rw [h.data_eq]
      refine List.map_congr_left fun t ht => ?_
      rw [hagree.denote_eq (h.temps_settled t ht)] }

/-- More numbers may have been taken in the meantime. -/
theorem mono (h : Mirrors W ρ₀ n₀ n current temps ρ data regs) (hle : n ≤ n') :
    Mirrors W ρ₀ n₀ n' current temps ρ data regs :=
  { h with
    fits := h.fits.mono hle (.refl _ _) h.fits.typed
    start_le := Nat.le_trans h.start_le hle
    temps_settled := fun t ht => (h.temps_settled t ht).mono hle }

/-- Once the block is closed, all that counts is what was bound. -/
theorem close (h : Mirrors W ρ₀ n₀ n current temps ρ data regs) (hle : n ≤ n')
    (regs' : List Datum) : Mirrors W ρ₀ n₀ n' none temps ρ data regs' :=
  { h.mono hle with
    fits := ⟨h.fits.typed, h.fits.places, by simp, by simp⟩
    regs_eq := by simp }

end Mirrors

/-! ### On a closed block

Once a branch has split the block, the rest of the recipe can still be
carried out as long as it asks for nothing that needs a block. Then it
does nothing but read constants. -/

/-- From one to the other nothing happened but loads of constants. -/
structure Idles (σ σ' : Scene W) : Prop where
  regs : σ'.regs = σ.regs
  moment : ∀ μ : Moment W, μ.Elides σ.moment → μ.Elides σ'.moment

/-- Nothing has happened at all. -/
theorem Idles.refl (σ : Scene W) : Idles σ σ := ⟨rfl, fun _ h => h⟩

/-- One stretch after the other. -/
theorem Idles.trans {σ₁ σ₂ σ₃ : Scene W} (h : Idles σ₁ σ₂) (h' : Idles σ₂ σ₃) : Idles σ₁ σ₃ :=
  ⟨h'.regs.trans h.regs, fun μ hμ => h'.moment μ (h.moment μ hμ)⟩

/-- Without a block a step can only read constants, and the builder stays
as it is. -/
theorem Step.Builds.idles (W : World site.machine site.image) (ρ₀ : Valuation) {b b' : Builder}
    {s : Step} (h : s.Builds site temps b temps' b') (hs : s.Plain n₀)
    (hclosed : b.current = none) :
    b' = b ∧ ∀ (ρ : Valuation) (data : DataTemps) (σ : Scene W),
      Mirrors W ρ₀ n₀ b.issued none temps ρ data σ.regs →
      ∃ data' σ', s.perform ρ₀ data σ = some (data', σ') ∧ Idles σ σ' ∧
        Mirrors W ρ₀ n₀ b.issued none temps' ρ data' σ'.regs := by
  obtain ⟨new, hext, hsim⟩ := h.simulates W ρ₀ hs
  obtain ⟨rfl, rfl⟩ := hext.closed hclosed
  refine ⟨rfl, fun ρ data σ hmirror => ?_⟩
  rw [← hclosed] at hmirror
  -- No statement has been added, so the configuration stays the same.
  obtain ⟨c, data', σ', hc, hperform, hmirror', -, hregs⟩ :=
    hsim ⟨ρ, σ.moment⟩ data σ hmirror (.refl _)
  cases hc.exec
  rw [hclosed] at hmirror'
  refine ⟨data', σ', hperform, ⟨hregs hclosed, fun μ hμ => ?_⟩, hmirror'⟩
  -- Performing does not depend on what the other side has recorded.
  obtain ⟨c, data'', σ'', hc, hperform', -, helides, -⟩ := hsim ⟨ρ, μ⟩ data σ hmirror hμ
  cases hc.exec
  rw [hperform] at hperform'
  cases hperform'
  exact helides

/-- Performing the arm that the condition picks. -/
def performArm (ρ : Valuation) (cond : Term) (onTrue onFalse : Recipe) (data : DataTemps)
    (σ : Scene W) : Option (Scene W) :=
  (cond.eval (Leaf.datum? ρ data σ.regs)).bind fun
    | .bool taken => (if taken then onTrue else onFalse).perform ρ data σ
    | .bits .. => none

/-- A condition that is known picks its arm. -/
theorem performArm_eq {cond : Term} {onTrue onFalse : Recipe} {σ : Scene W} {taken : Bool}
    (h : cond.eval (Leaf.datum? ρ₀ data σ.regs) = some (.bool taken)) :
    performArm ρ₀ cond onTrue onFalse data σ =
      (if taken then onTrue else onFalse).perform ρ₀ data σ := by
  rw [performArm, h]
  rfl

/-- A branch performs the arm that its condition picks, then goes on. -/
theorem perform_branch (cond : Term) (onTrue onFalse rest : Recipe) (σ : Scene W) :
    (branch cond onTrue onFalse rest).perform ρ₀ data σ =
      (performArm ρ₀ cond onTrue onFalse data σ).bind (rest.perform ρ₀ data) := by
  rw [perform, performArm]
  cases cond.eval (Leaf.datum? ρ₀ data σ.regs) with
  | none => rfl
  | some d =>
    cases d with
    | bits => rfl
    | bool taken => cases taken <;> rfl

/-- Carrying out the recipe left everything as it is, and performing it
is idle. -/
structure Rests (W : World site.machine site.image) (ρ₀ : Valuation) (n₀ : Nat) (temps : Temps)
    (r : Recipe) (p p' : Progress) : Prop where
  builder : p'.builder = p.builder
  pending : p'.pending = p.pending
  perform : ∀ (ρ : Valuation) (data : DataTemps) (σ : Scene W),
    Mirrors W ρ₀ n₀ p.builder.issued none temps ρ data σ.regs →
    ∃ σ', r.perform ρ₀ data σ = some σ' ∧ Idles σ σ'

/-- So a recipe leaves everything as it is. Induction on the recipe. -/
theorem exec_rests (W : World site.machine site.image) (ρ₀ : Valuation) {settle : RunM Unit}
    {r : Recipe} (h : exec site settle r temps p = (.ok (), p')) (hr : r.Plain n₀)
    (hclosed : p.builder.current = none) : Rests W ρ₀ n₀ temps r p p' := by
  induction r generalizing temps p p' with
  | done =>
    cases h
    exact ⟨rfl, rfl, fun ρ data σ _ => ⟨σ, rfl, .refl σ⟩⟩
  | step s rest ih =>
    obtain ⟨temps', out, q, hrun, hrest⟩ := exec_step_eq_ok_iff.1 h
    have hbuilds := Step.builds_of_run ((heritable_plain n₀).step hr).1 hrun
    have hqueue := Step.run_keepsQueue site temps s p
    rw [hrun] at hqueue
    obtain ⟨hq, hstep⟩ := hbuilds.idles W ρ₀ hr.1 hclosed
    have hrests := ih hrest hr.2 (by rw [hq]; exact hclosed)
    refine ⟨hrests.builder.trans hq, hrests.pending.trans hqueue, fun ρ data σ hmirror => ?_⟩
    obtain ⟨data₁, σ₁, hσ₁, hidle, hmirror₁⟩ := hstep ρ data σ hmirror
    rw [← hq] at hmirror₁
    obtain ⟨σ₂, hσ₂, hidle'⟩ := hrests.perform ρ data₁ σ₁ hmirror₁
    refine ⟨σ₂, ?_, hidle.trans hidle'⟩
    rw [Recipe.perform, hσ₁]
    exact hσ₂
  | branch cond onTrue onFalse rest iht ihf ihr =>
    obtain ⟨v, b, q, hcond, -, htakes, hrest⟩ := exec_branch_eq_ok h
    -- Without a block the condition must be a literal, or splitting would fail.
    obtain ⟨-, new, hext, hsim⟩ := hcond.simulates W ρ₀ hr.1
    obtain ⟨rfl, rfl⟩ := hext.closed hclosed
    cases htakes with
    | split _ hsplit => exact absurd hclosed (Build.split_isOpen hsplit)
    | @arm taken htaken =>
      have harm : Rests W ρ₀ n₀ temps (if taken then onTrue else onFalse) p q := by
        cases taken with
        | true => exact iht htaken hr.2.1 hclosed
        | false => exact ihf htaken hr.2.2.1 hclosed
      have hrests := ihr hrest hr.2.2.2 (by rw [harm.builder]; exact hclosed)
      refine ⟨hrests.builder.trans harm.builder, hrests.pending.trans harm.pending,
        fun ρ data σ hmirror => ?_⟩
      obtain ⟨σ₁, hσ₁, hidle⟩ := harm.perform ρ data σ hmirror
      obtain ⟨σ₂, hσ₂, hidle'⟩ := hrests.perform ρ data σ₁ (by
        rw [harm.builder]
        exact hmirror.close (Nat.le_refl _) _)
      refine ⟨σ₂, ?_, hidle.trans hidle'⟩
      rw [← hclosed] at hmirror
      obtain ⟨c, hc, -, -, -, heval⟩ := hsim ⟨ρ, σ.moment⟩ data σ.regs hmirror
      cases hc.exec
      rw [perform_branch, performArm_eq heval, hσ₁]
      exact hσ₂

/-! ### On an open block -/

/-- The block in which an arm starts. -/
def Arm.block (arm : Arm) (addr : Word) : OpenBlock :=
  { index := arm.index, addr, regs := arm.regs }

section Open

variable (W ρ₀ n₀) (Served : Progress → Nat → Arm → Prop) (k : Nat)

/-- What has to be known of what happens once a split has queued its
arms. `Served` is what becomes of the arms. -/
structure Settles (settle : RunM Unit) : Prop where
  /-- It is a matter of the builder and the queue alone. -/
  congr : ∀ {q q' : Progress} {n : Nat} {arm : Arm}, q'.builder = q.builder →
    q'.pending = q.pending → Served q n arm → Served q' n arm
  served : ∀ {q q' : Progress}, settle q = (.ok (), q') → q.builder.current = none →
    k ≤ q.builder.ledger.finished.length → (∀ arm ∈ q.pending, arm.body.Plain n₀) →
    q'.builder.current = none ∧ q.builder.Grows q'.builder ∧
      ∀ arm ∈ q.pending, Served q' q.builder.issued arm

/-- The end of a split block: the condition picks an arm, which starts
from data that mirror the performance so far, and `goal` is what
performing the arm comes to. -/
def Forks (p' : Progress) (cond : Value) (t f : BlockIndex) (c : Config W)
    (goal : Option (Scene W)) : Prop :=
  ∃ (taken : Bool) (arm : Arm) (n : Nat) (addr : Word) (data : DataTemps) (σ : Scene W),
    c.values.denote cond = .bool taken ∧ arm.index = (if taken then t else f) ∧
      Served p' n arm ∧ Mirrors W ρ₀ n₀ n (some (arm.block addr)) arm.temps c.values data σ.regs ∧
      c.moment.Elides σ.moment ∧
      ∀ σ', arm.body.perform ρ₀ data σ = some σ' → ∃ σ'', goal = some σ'' ∧ Idles σ' σ''

/-- How carrying out part of a recipe on an open block ends, if `goal` is
what performing that part comes to. Either the block is still open, and
running what was added gets to the goal. Or it was split, and running it
gets to one of the arms. -/
inductive Ends (p p' : Progress) (blk : OpenBlock) (temps : Temps)
    (goal : DataTemps → Scene W → Option (Scene W)) : Prop
  | stays {new : List Stmt} (hext : p.builder.Extends p'.builder new)
      (hpending : p'.pending = p.pending)
      (hsim : ∀ (c : Config W) (data : DataTemps) (σ : Scene W),
        Mirrors W ρ₀ n₀ p.builder.issued p.builder.current temps c.values data σ.regs →
        c.moment.Elides σ.moment →
        ∃ c' σ', Simulates new p.builder p'.builder c c' ∧ goal data σ = some σ' ∧
          Mirrors W ρ₀ n₀ p'.builder.issued p'.builder.current temps c'.values data σ'.regs ∧
          c'.moment.Elides σ'.moment)
  | splits {new : List Stmt} {cond : Value} {t f : BlockIndex}
      (hclosed : p'.builder.current = none) (hle : p.builder.issued ≤ p'.builder.issued)
      (hblock : (⟨blk.index, blk.addr, blk.stmts ++ new, .branch cond t f⟩ : Block) ∈
        p'.builder.ledger.finished.drop k)
      (hsim : ∀ (c : Config W) (data : DataTemps) (σ : Scene W),
        Mirrors W ρ₀ n₀ p.builder.issued p.builder.current temps c.values data σ.regs →
        c.moment.Elides σ.moment →
        ∃ c₁, execAll new c = some c₁ ∧
          Forks W ρ₀ n₀ Served p' cond t f c₁ (goal data σ))

end Open

section Open

variable {Served : Progress → Nat → Arm → Prop} {k : Nat}

/-- What ends well from a later point ends well from an earlier one, if
the statements in between simulate what is performed in between. -/
theorem Ends.prepend {q : Progress} {blk blk₁ : OpenBlock} {new : List Stmt}
    {goal goal₁ : DataTemps → Scene W → Option (Scene W)}
    (h : Ends W ρ₀ n₀ Served k q p' blk₁ temps' goal₁)
    (hext : p.builder.Extends q.builder new) (hpending : q.pending = p.pending)
    (hindex : blk₁.index = blk.index) (haddr : blk₁.addr = blk.addr)
    (hstmts : blk₁.stmts = blk.stmts ++ new)
    (hfirst : ∀ (c : Config W) (data : DataTemps) (σ : Scene W),
      Mirrors W ρ₀ n₀ p.builder.issued p.builder.current temps c.values data σ.regs →
      c.moment.Elides σ.moment →
      ∃ c₁ data₁ σ₁, Simulates new p.builder q.builder c c₁ ∧
        Mirrors W ρ₀ n₀ q.builder.issued q.builder.current temps' c₁.values data₁ σ₁.regs ∧
        c₁.moment.Elides σ₁.moment ∧ goal data σ = goal₁ data₁ σ₁) :
    Ends W ρ₀ n₀ Served k p p' blk temps goal := by
  cases h with
  | stays hext' hpending' hsim =>
    refine .stays (hext.trans hext') (hpending'.trans hpending) fun c data σ hmirror htrace => ?_
    obtain ⟨c₁, data₁, σ₁, hc₁, hmirror₁, htrace₁, hgoal⟩ := hfirst c data σ hmirror htrace
    obtain ⟨c₂, σ₂, hc₂, hσ₂, hmirror₂, htrace₂⟩ := hsim c₁ data₁ σ₁ hmirror₁ htrace₁
    have hall := hc₁.trans hext.issued_le hc₂
    -- The temporaries bound in between are out of scope at the end.
    refine ⟨c₂, σ₂, hall, hgoal.trans hσ₂, ?_, htrace₂⟩
    exact hmirror.restore hmirror₂ hall.agrees (hext.trans hext').issued_le
  | splits hclosed hle hblock hsim =>
    rw [hindex, haddr, hstmts, List.append_assoc] at hblock
    refine .splits hclosed (Nat.le_trans hext.issued_le hle) hblock
      fun c data σ hmirror htrace => ?_
    obtain ⟨c₁, data₁, σ₁, hc₁, hmirror₁, htrace₁, hgoal⟩ := hfirst c data σ hmirror htrace
    obtain ⟨c₂, hc₂, hforks⟩ := hsim c₁ data₁ σ₁ hmirror₁ htrace₁
    refine ⟨c₂, ?_, hgoal ▸ hforks⟩
    rw [execAll_append, hc₁.exec]
    exact hc₂

/-- A split block is the end of its block, and what is left of the
recipe does not matter. -/
theorem Ends.rest {q : Progress} {events : List Event} {blk : OpenBlock} {settle : RunM Unit}
    {rest : Recipe} {goal : DataTemps → Scene W → Option (Scene W)}
    (hsettle : Settles n₀ Served k settle)
    (hrest : exec site settle rest temps { q with trace := events } = (.ok (), p'))
    (hplain : rest.Plain n₀)
    (hclosed : q.builder.current = none) {new : List Stmt} {cond : Value} {t f : BlockIndex}
    (hblock : (⟨blk.index, blk.addr, blk.stmts ++ new, .branch cond t f⟩ : Block) ∈
      q.builder.ledger.finished.drop k) (hle : p.builder.issued ≤ q.builder.issued)
    (hsim : ∀ (c : Config W) (data : DataTemps) (σ : Scene W),
      Mirrors W ρ₀ n₀ p.builder.issued p.builder.current temps c.values data σ.regs →
      c.moment.Elides σ.moment →
      ∃ c₁, execAll new c = some c₁ ∧ Forks W ρ₀ n₀ Served q cond t f c₁ (goal data σ)) :
    Ends W ρ₀ n₀ Served k p p' blk temps fun data σ =>
      (goal data σ).bind (rest.perform ρ₀ data) := by
  -- The block is closed, so the rest of the recipe leaves everything as it is.
  have hrests := exec_rests W ρ₀ hrest hplain hclosed
  refine .splits (by rw [hrests.builder]; exact hclosed) (by rw [hrests.builder]; exact hle)
    (by rw [hrests.builder]; exact hblock) fun c data σ hmirror htrace => ?_
  obtain ⟨c₁, hc₁, taken, arm, n, addr, data₁, σ₁, hcond, hindex, hserved, hmirror₁, htrace₁,
    hgoal⟩ := hsim c data σ hmirror htrace
  refine ⟨c₁, hc₁, taken, arm, n, addr, data₁, σ₁, hcond, hindex,
    hsettle.congr (q := q) hrests.builder hrests.pending hserved, hmirror₁, htrace₁,
    fun σ' hσ' => ?_⟩
  obtain ⟨σ₂, hσ₂, hidle⟩ := hgoal σ' hσ'
  obtain ⟨σ₃, hσ₃, hidle'⟩ := hrests.perform c.values data σ₂ (hmirror.close hle _)
  refine ⟨σ₃, ?_, hidle.trans hidle'⟩
  rw [hσ₂]
  exact hσ₃

/-- A split: the block goes to the ledger, and the condition picks one
of the two arms. -/
theorem forks_of_split (W : World site.machine site.image) (ρ₀ : Valuation) (p : Progress)
    {q : Progress} {blk : OpenBlock} {settle : RunM Unit} {cond : Value}
    {onTrue onFalse : Recipe} {t f : BlockIndex} {regs : RegFile} {b : Builder}
    (hsettle : Settles n₀ Served k settle) (hblk : p.builder.current = some blk)
    (hk : k ≤ p.builder.ledger.finished.length) (hpending : ∀ arm ∈ p.pending, arm.body.Plain n₀)
    (ht : onTrue.Plain n₀) (hf : onFalse.Plain n₀) (hty : cond.ty = .bool)
    (hsplit : Build.split cond p.builder = (.ok (t, f, regs), b))
    (h : settle { p with
      builder := b, pending := p.pending ++ splitArms t f regs temps onTrue onFalse } =
        (.ok (), q)) :
    q.builder.current = none ∧ p.builder.issued ≤ q.builder.issued ∧
      (⟨blk.index, blk.addr, blk.stmts ++ [], .branch cond t f⟩ : Block) ∈
        q.builder.ledger.finished.drop k ∧
      ∀ (c : Config W) (data : DataTemps) (σ : Scene W),
        Mirrors W ρ₀ n₀ p.builder.issued p.builder.current temps c.values data σ.regs →
        c.moment.Elides σ.moment →
        ∃ taken, c.values.denote cond = .bool taken ∧
          Forks W ρ₀ n₀ Served q cond t f c
            ((if taken then onTrue else onFalse).perform ρ₀ data σ) := by
  obtain ⟨blk', hblk', -, -, rfl, l, hl, rfl⟩ := Build.split_eq_ok_iff.1 hsplit
  rw [hblk] at hblk'
  cases hblk'
  obtain ⟨-, rfl⟩ := Ledger.push_eq_ok_iff.1 hl
  have harms : ∀ arm ∈ p.pending ++ splitArms t f blk.regs temps onTrue onFalse,
      arm.body.Plain n₀ := by
    simp only [splitArms, List.mem_append, List.mem_cons, List.not_mem_nil, or_false]
    rintro arm (harm | rfl | rfl)
    · exact hpending arm harm
    · exact ht
    · exact hf
  -- Both arms wait in the queue when it is settled, so both are served.
  obtain ⟨hclosed, hgrows, hserved⟩ := hsettle.served h rfl (by simp; omega) harms
  obtain ⟨more, hfinished, -, -⟩ := hgrows.reaches.finished_eq
  refine ⟨hclosed, hgrows.issued_le, ?_, fun c data σ hmirror htrace => ?_⟩
  · rw [hfinished, List.append_assoc, List.drop_append_of_le_length hk, List.append_nil]
    simp
  · -- The arm that is picked starts from the registers at the split.
    obtain ⟨taken, htaken⟩ := Datum.exists_bool
      ((Valuation.ty_denote hmirror.fits.typed cond).trans hty)
    refine ⟨taken, htaken, taken, ⟨if taken then t else f, blk.regs, temps,
      if taken then onTrue else onFalse⟩, p.builder.issued, 0, data, σ, htaken, rfl,
      hserved _ ?_, ?_, htrace, fun σ' hσ' => ⟨σ', hσ', .refl σ'⟩⟩
    · cases taken <;> simp [splitArms]
    · rw [hblk] at hmirror
      exact { hmirror with
        fits := ⟨hmirror.fits.typed, hmirror.fits.places,
          by rintro _ ⟨⟩; exact hmirror.fits.regs blk rfl, by rintro _ ⟨⟩; simp [Arm.block]⟩
        regs_eq := by rintro _ ⟨⟩; exact hmirror.regs_eq blk rfl }

/-- Carrying out a plain recipe on an open block ends as performing it
does. -/
theorem exec_ends (W : World site.machine site.image) (ρ₀ : Valuation) {settle : RunM Unit}
    {r : Recipe} {blk : OpenBlock} (hsettle : Settles n₀ Served k settle)
    (h : exec site settle r temps p = (.ok (), p')) (hr : r.Plain n₀)
    (hblk : p.builder.current = some blk) (hk : k ≤ p.builder.ledger.finished.length)
    (hpending : ∀ arm ∈ p.pending, arm.body.Plain n₀) :
    Ends W ρ₀ n₀ Served k p p' blk temps (r.perform ρ₀) := by
  induction r generalizing temps p p' blk with
  | done =>
    cases h
    exact .stays (.refl _) rfl fun c data σ hmirror htrace =>
      ⟨c, σ, .refl hmirror.fits, rfl, hmirror, htrace⟩
  | step s rest ih =>
    obtain ⟨temps', out, q, hrun, hrest⟩ := exec_step_eq_ok_iff.1 h
    have hbuilds := Step.builds_of_run ((heritable_plain n₀).step hr).1 hrun
    have hqueue : q.pending = p.pending := by
      have hkeeps := Step.run_keepsQueue site temps s p
      rw [hrun] at hkeeps
      exact hkeeps
    obtain ⟨new, hext, hsim⟩ := hbuilds.simulates W ρ₀ hr.1
    obtain ⟨blk₁, hblk₁, hindex, haddr, hstmts⟩ := hext.opened blk hblk
    have hends := ih hrest hr.2 hblk₁ (by rw [hext.ledger]; exact hk)
      (by rw [hqueue]; exact hpending)
    refine hends.prepend hext hqueue hindex haddr hstmts fun c data σ hmirror htrace => ?_
    obtain ⟨c₁, data₁, σ₁, hc₁, hσ₁, hmirror₁, htrace₁, -⟩ := hsim c data σ hmirror htrace
    refine ⟨c₁, data₁, σ₁, hc₁, hmirror₁, htrace₁, ?_⟩
    rw [perform, hσ₁]
    rfl
  | branch cond onTrue onFalse rest iht ihf ihr =>
    obtain ⟨v, b, q, hcond, hty, htakes, hrest⟩ := exec_branch_eq_ok h
    obtain ⟨-, new, hext, hsim⟩ := hcond.simulates W ρ₀ hr.1
    obtain ⟨blk₁, hblk₁, hindex, haddr, hstmts⟩ := hext.opened blk hblk
    have hk₁ : k ≤ b.ledger.finished.length := by
      rw [hext.ledger]
      exact hk
    have hgoal : (branch cond onTrue onFalse rest).perform ρ₀ = fun data (σ : Scene W) =>
        (performArm ρ₀ cond onTrue onFalse data σ).bind (rest.perform ρ₀ data) := by
      funext data σ
      exact perform_branch cond onTrue onFalse rest σ
    -- Either the block is split here, or one arm is carried out in it and the
    -- rest of the recipe follows.
    rw [hgoal]
    cases htakes with
    | split _ hsplit hsettled =>
      obtain ⟨hclosed, hle, hblock, hforks⟩ := forks_of_split W ρ₀ { p with builder := b } hsettle
        hblk₁ hk₁ hpending hr.2.1 hr.2.2.1 hty hsplit hsettled
      rw [hindex, haddr, hstmts, List.append_nil] at hblock
      refine .rest hsettle hrest hr.2.2.2 hclosed hblock (Nat.le_trans hext.issued_le hle)
        fun c data σ hmirror htrace => ?_
      obtain ⟨c₁, hc₁, hmoment, hmirror₁, -, heval⟩ := hsim c data σ.regs hmirror
      obtain ⟨taken, htaken, hforks⟩ := hforks c₁ data σ hmirror₁ (hmoment ▸ htrace)
      rw [htaken] at heval
      rw [performArm_eq heval]
      exact ⟨c₁, hc₁.exec, hforks⟩
    | @arm taken htaken =>
      have harm : Ends W ρ₀ n₀ Served k { p with builder := b } q blk₁ temps
          ((if taken then onTrue else onFalse).perform ρ₀) := by
        cases taken with
        | true => exact iht htaken hr.2.1 hblk₁ hk₁ hpending
        | false => exact ihf htaken hr.2.2.1 hblk₁ hk₁ hpending
      have hboth : Ends W ρ₀ n₀ Served k { p with builder := b } p' blk₁ temps
          fun data σ => ((if taken then onTrue else onFalse).perform ρ₀ data σ).bind
            (rest.perform ρ₀ data) := by
        -- The arm itself may have split the block.
        cases harm with
        | splits hclosed hle hblock hforks =>
          exact .rest hsettle hrest hr.2.2.2 hclosed hblock hle hforks
        | stays hext₁ hpending₁ hsim₁ =>
          obtain ⟨blk₂, hblk₂, hindex₂, haddr₂, hstmts₂⟩ := hext₁.opened blk₁ hblk₁
          have hends := ihr hrest hr.2.2.2 hblk₂ (by rw [hext₁.ledger]; exact hk₁)
            (by rw [hpending₁]; exact hpending)
          refine hends.prepend hext₁ hpending₁ hindex₂ haddr₂ hstmts₂
            fun c data σ hmirror htrace => ?_
          obtain ⟨c₁, σ₁, hc₁, hσ₁, hmirror₁, htrace₁⟩ := hsim₁ c data σ hmirror htrace
          exact ⟨c₁, data, σ₁, hc₁, hmirror₁, htrace₁, by rw [hσ₁]; rfl⟩
      refine hboth.prepend hext rfl hindex haddr hstmts fun c data σ hmirror htrace => ?_
      obtain ⟨c₁, hc₁, hmoment, hmirror₁, -, heval⟩ := hsim c data σ.regs hmirror
      refine ⟨c₁, data, σ, hc₁, hmirror₁, hmoment ▸ htrace, ?_⟩
      rw [performArm_eq heval]

end Open

/-! ### The queue of arms -/

/-- Running the blocks from the arm's own gets to where performing the
arm gets, with `n` numbers issued when the arm was queued. -/
def Good (W : World site.machine site.image) (ρ₀ : Valuation) (n₀ : Nat) (blocks : List Block)
    (n : Nat) (arm : Arm) : Prop :=
  ∀ (addr : Word) (c : Config W) (data : DataTemps) (σ : Scene W),
    Mirrors W ρ₀ n₀ n (some (arm.block addr)) arm.temps c.values data σ.regs →
    c.moment.Elides σ.moment →
    ∃ σ' c' regs, arm.body.perform ρ₀ data σ = some σ' ∧ Executes blocks arm.index c c' regs ∧
      σ'.regs = regs.values.map c'.values.denote ∧ c'.moment.Elides σ'.moment

/-- More blocks do no harm, and the arm may have been queued earlier. -/
theorem Good.mono {blocks more : List Block} {arm : Arm} (h : Good W ρ₀ n₀ blocks n' arm)
    (hsub : blocks ⊆ more) (hle : n ≤ n') : Good W ρ₀ n₀ more n arm := by
  intro addr c data σ hmirror htrace
  obtain ⟨σ', c', regs, hperform, hexec, hregs, htrace'⟩ :=
    h addr c data σ (hmirror.mono hle) htrace
  exact ⟨σ', c', regs, hperform, hexec.mono hsub, hregs, htrace'⟩

/-- Where a block ends well and its arms are good, running it gets to
where performing gets. -/
theorem Ends.reaches {Served : Progress → Nat → Arm → Prop} {k : Nat} {blk : OpenBlock}
    {q : Progress} {b : Builder} {blocks : List Block}
    {goal : DataTemps → Scene W → Option (Scene W)}
    (h : Ends W ρ₀ n₀ Served k p q blk temps goal) (hblk : p.builder.current = some blk)
    (hclose : Build.closeIfOpen q.builder = (.ok (), b))
    (hk : k ≤ p.builder.ledger.finished.length)
    (hblocks : b.ledger.finished.drop k ⊆ blocks)
    (hserved : ∀ n arm, Served q n arm → Good W ρ₀ n₀ blocks n arm)
    (hstmts : blk.stmts = []) {c : Config W} {data : DataTemps} {σ : Scene W}
    (hmirror : Mirrors W ρ₀ n₀ p.builder.issued p.builder.current temps c.values data σ.regs)
    (htrace : c.moment.Elides σ.moment) :
    ∃ σ' c' regs, goal data σ = some σ' ∧ Executes blocks blk.index c c' regs ∧
      σ'.regs = regs.values.map c'.values.denote ∧ c'.moment.Elides σ'.moment := by
  cases h with
  | stays hext _ hsim =>
    obtain ⟨blk', hblk', hindex, haddr, hstmts'⟩ := hext.opened blk hblk
    obtain ⟨c', σ', hc', hσ', hmirror', htrace'⟩ := hsim c data σ hmirror htrace
    -- The block is still open, so it is closed now and ends in a fetch.
    rcases Build.closeIfOpen_eq_ok_iff.1 hclose with ⟨hnone, -⟩ | ⟨i, hclose⟩
    · rw [hblk'] at hnone
      cases hnone
    · obtain ⟨blk'', hblk'', -, l, hl, rfl⟩ := Build.close_eq_ok_iff.1 hclose
      rw [hblk'] at hblk''
      cases hblk''
      obtain ⟨-, rfl⟩ := Ledger.push_eq_ok_iff.1 hl
      refine ⟨σ', c', blk'.regs, hσ', ?_, hmirror'.regs_eq blk' hblk', htrace'⟩
      have hmem : (⟨blk'.index, blk'.addr, blk'.stmts, .fetch blk'.regs⟩ : Block) ∈ blocks := by
        refine hblocks ?_
        rw [hext.ledger, List.drop_append_of_le_length hk]
        simp
      rw [← hindex]
      refine .fetch hmem ?_ rfl
      rw [hstmts', hstmts]
      exact hc'.exec
  | splits hclosed _ hblock hsim =>
    obtain ⟨c₁, hc₁, taken, arm, n, addr, data₁, σ₁, hcond, hindex, harm, hmirror₁, htrace₁,
      hgoal⟩ := hsim c data σ hmirror htrace
    -- The block was split, so there is nothing left to close.
    have hb : b = q.builder := by
      rcases Build.closeIfOpen_eq_ok_iff.1 hclose with ⟨-, hb⟩ | ⟨i, hclose⟩
      · exact hb
      · obtain ⟨blk', hblk', -⟩ := Build.close_eq_ok_iff.1 hclose
        rw [hclosed] at hblk'
        cases hblk'
    rw [hb] at hblocks
    obtain ⟨σ₂, c₂, regs, hσ₂, hexec, hregs, htrace₂⟩ :=
      hserved n arm harm addr c₁ data₁ σ₁ hmirror₁ htrace₁
    obtain ⟨σ₃, hσ₃, hidle⟩ := hgoal σ₂ hσ₂
    refine ⟨σ₃, c₂, regs, hσ₃, ?_, hidle.regs.trans hregs, hidle.moment _ htrace₂⟩
    rw [hindex] at hexec
    rw [hstmts] at hblock
    exact .branch (hblocks hblock) hc₁ rfl hcond hexec

/-- Inside an arm, arms that split off wait in the queue. -/
theorem settles_pure (n₀ k : Nat) :
    Settles n₀ (fun q n arm => arm ∈ q.pending ∧ n ≤ q.builder.issued) k (pure ()) where
  congr hb hp h := by rwa [hb, hp]
  served h hclosed _ _ := by
    cases h
    exact ⟨hclosed, .refl _, fun arm harm => ⟨harm, Nat.le_refl _⟩⟩

/-- Where an arm's block starts does not matter to what it does. -/
theorem Mirrors.block {arm : Arm} {addr : Word} (addr' : Word)
    (h : Mirrors W ρ₀ n₀ n (some (arm.block addr)) temps ρ data regs) :
    Mirrors W ρ₀ n₀ n (some (arm.block addr')) temps ρ data regs :=
  { h with
    fits := ⟨h.fits.typed, h.fits.places, by rintro _ ⟨⟩; exact h.fits.regs (arm.block addr) rfl,
      by rintro _ ⟨⟩; exact h.fits.memo (arm.block addr) rfl⟩
    regs_eq := by rintro _ ⟨⟩; exact h.regs_eq (arm.block addr) rfl }

/-- An arm comes out good if the arms that it leaves behind do. -/
theorem Arm.good_of_run (W : World site.machine site.image) (ρ₀ : Valuation) {k : Nat} {arm : Arm}
    {blocks : List Block} (h : arm.run site p = (.ok (), p')) (harm : arm.body.Plain n₀)
    (hpending : ∀ a ∈ p.pending, a.body.Plain n₀) (hk : k ≤ p.builder.ledger.finished.length)
    (hblocks : p'.builder.ledger.finished.drop k ⊆ blocks)
    (hleft : ∀ a ∈ p'.pending, Good W ρ₀ n₀ blocks p'.builder.issued a) :
    Good W ρ₀ n₀ blocks p.builder.issued arm := by
  obtain ⟨q, b, hexec, hclose, rfl⟩ := Arm.run_eq_ok_iff.1 h
  have hends := exec_ends W ρ₀ (settles_pure n₀ k) hexec harm rfl hk hpending
  have hissued : q.builder.issued ≤ b.issued := by
    have hgrows := Build.Grows.closeIfOpen q.builder
    rw [hclose] at hgrows
    exact hgrows.issued_le
  intro addr c data σ hmirror htrace
  exact hends.reaches rfl hclose hk hblocks
    (fun n a ha => (hleft a ha.1).mono (List.Subset.refl _) (Nat.le_trans ha.2 hissued)) rfl
    (hmirror.block _) htrace

/-- Every arm that waits in the queue comes out good. -/
theorem drain_good (W : World site.machine site.image) (ρ₀ : Valuation) {k : Nat}
    (h : drain site p = (.ok (), p')) (hclosed : p.builder.current = none)
    (hk : k ≤ p.builder.ledger.finished.length)
    (hpending : ∀ arm ∈ p.pending, arm.body.Plain n₀) :
    p'.builder.current = none ∧ ∀ arm ∈ p.pending,
      Good W ρ₀ n₀ (p'.builder.ledger.finished.drop k) p.builder.issued arm := by
  revert p' hclosed hk hpending
  refine drain_induction site (motive := fun p result => ∀ {p' : Progress}, result = (.ok (), p') →
    p.builder.current = none → k ≤ p.builder.ledger.finished.length →
    (∀ arm ∈ p.pending, arm.body.Plain n₀) →
    p'.builder.current = none ∧ ∀ arm ∈ p.pending,
      Good W ρ₀ n₀ (p'.builder.ledger.finished.drop k) p.builder.issued arm) ?_ ?_ ?_ p
  · intro p hp p' h hclosed _ _
    cases h
    exact ⟨hclosed, by simp [hp]⟩
  · intro p arm rest p₁ hp hrun ih p' h _ hk hpending
    have hturn := Progress.advances_of_cons (heritable_plain n₀) site hp hpending
    rw [hrun] at hturn
    obtain ⟨hgrows, hpending₁⟩ := hturn
    have hclosed₁ : p₁.builder.current = none := by
      obtain ⟨q, b, -, hclose, rfl⟩ := Arm.run_eq_ok_iff.1 hrun
      exact Build.closeIfOpen_current hclose
    obtain ⟨hclosed', hgood⟩ := ih h hclosed₁ (Nat.le_trans hk hgrows.reaches.length_le) hpending₁
    have hdrain := drain_grows (heritable_plain n₀) site p₁ hpending₁
    rw [h] at hdrain
    obtain ⟨arms, hleft, -⟩ := Arm.run_leaves site arm { p with pending := rest }
    rw [hrun] at hleft
    rw [hp] at hpending ⊢
    -- The arms behind this one are good by induction, and so are those that it
    -- has queued.
    refine ⟨hclosed', List.forall_mem_cons.2 ⟨?_, fun a ha => ?_⟩⟩
    · exact Arm.good_of_run W ρ₀ (p := { p with pending := rest }) hrun
        (hpending arm List.mem_cons_self)
        (fun a ha => hpending a (List.mem_cons_of_mem arm ha)) hk (hdrain.1.reaches.drop_subset k)
        hgood
    · refine (hgood a ?_).mono (List.Subset.refl _) hgrows.issued_le
      rw [hleft]
      exact List.mem_append_left arms ha
  · intro p arm rest e p₁ hp hrun p' h
    cases h

/-- At the top the queue is worked off at once. -/
theorem settles_drain (W : World site.machine site.image) (ρ₀ : Valuation) (n₀ k : Nat) :
    Settles n₀ (fun q n arm => Good W ρ₀ n₀ (q.builder.ledger.finished.drop k) n arm) k
      (drain site) where
  congr hb _ h := by rwa [hb]
  served := by
    intro q q' h hclosed hk hpending
    have hgrows := drain_grows (heritable_plain n₀) site q hpending
    rw [h] at hgrows
    obtain ⟨hclosed', hgood⟩ := drain_good W ρ₀ h hclosed hk hpending
    exact ⟨hclosed', hgrows.1, hgood⟩

/-! ### The whole run -/

/-- The blocks built from a recipe do what the recipe says.

Take a plain recipe that is carried out without error on a fresh block,
and close the block at the end if it is still open. Nothing in the
registers or the recipe is clobbered, and what they mention of earlier
assignments has been made. Then for all data of the symbols, all worlds
and all their states, the recipe can be performed, and the new blocks can
be run from the head block in exactly one way. Both come to the same
registers and the same state of the world, and record the same actions
with the same data, but for loads of constants that running the blocks
does not need. -/
theorem run_refines (W : World site.machine site.image) {r : Recipe} {d : Discovery} {addr : Word}
    {regs : RegFile} {b : Builder} (hr : r.Plain d.issued)
    (hregs : ∀ v ∈ regs.values, v.Settled d.issued)
    (hrun : (r.run site >>= fun _ => Build.closeIfOpen) (.start d addr regs) = (.ok (), b))
    {ρ : Valuation} (htyped : ρ.Typed) (hplaces : ρ.Places site.image) (s : W.State) :
    ∃ blocks, b.ledger.finished = d.ledger.finished ++ blocks ∧
      ∃ (σ : Scene W) (c : Config W) (final : RegFile),
        r.perform ρ [] ⟨regs.values.map ρ.denote, { state := s }⟩ = some σ ∧
        (∀ c' final', Executes blocks d.ledger.next ⟨ρ, { state := s }⟩ c' final' ↔
          c' = c ∧ final' = final) ∧
        final.values.map c.values.denote = σ.regs ∧
        c.moment.state = σ.moment.state ∧
        Elides site.machine site.image c.moment.trace σ.moment.trace := by
  obtain ⟨q, hexec, hclose⟩ := run_bind_eq_ok_iff.1 hrun
  have hstart := start_grows (heritable_plain d.issued) site hr (.start d addr regs)
  have hlast := Build.Grows.closeIfOpen q.builder
  rw [hexec] at hstart
  rw [hclose] at hlast
  obtain ⟨blocks, hfinished, hnodup, -⟩ := (hstart.trans hlast).reaches.finished_eq
  have hblocks : b.ledger.finished.drop d.ledger.finished.length = blocks := by
    rw [hfinished]
    exact List.drop_left
  -- Blocks finished before this run are left out of account.
  have hends := exec_ends W ρ (settles_drain W ρ d.issued d.ledger.finished.length) hexec hr rfl
    (Nat.le_refl _) (by simp)
  have hmirror : Mirrors W ρ d.issued d.issued (Builder.start d addr regs).current [] ρ []
      (regs.values.map ρ.denote) := by
    refine ⟨⟨htyped, hplaces, ?_, ?_⟩, Nat.le_refl _, .refl _ _, by simp, rfl, ?_⟩
    · rintro _ ⟨⟩
      exact hregs
    · rintro _ ⟨⟩
      simp
    · rintro _ ⟨⟩
      rfl
  -- Closing the last block takes no finished block away.
  have hlater : q.builder.ledger.finished.drop d.ledger.finished.length ⊆ blocks := by
    rw [← hblocks]
    exact hlast.reaches.drop_subset _
  have hinit : Moment.Elides (W := W) { state := s } { state := s } := .refl _
  obtain ⟨σ, c, final, hperform, hruns, hfinal, htrace⟩ := hends.reaches rfl hclose (Nat.le_refl _)
    (hblocks ▸ List.Subset.refl _) (fun n arm harm => harm.mono hlater (Nat.le_refl _)) rfl
    (c := ⟨ρ, { state := s }⟩) (σ := ⟨regs.values.map ρ.denote, { state := s }⟩) hmirror hinit
  refine ⟨blocks, hfinished, σ, c, final, hperform, fun c' final' => ⟨fun h => ?_, ?_⟩,
    hfinal.symm, htrace.state, htrace.trace⟩
  · exact hruns.unique hnodup h
  · rintro ⟨rfl, rfl⟩
    exact hruns

/-- A machine with a flag, and one byte of read-only memory. -/
def flagSite : Site where
  machine := flagMachine
  image := .ofCode .little 0x1000 [0x2a]
  addr := 0x1000
  size := 1

/-- Two branches, one inside the other, around a constant that is loaded
before them. -/
def flagRecipe : Recipe :=
  .step (.load "c" (.leaf (.value (.bv 64 0x1000))) 1) <|
  .branch (.leaf (.reg 1))
    (.step (.bind "s" (.binary .add (.leaf (.reg 2)) (.ext .uext (.leaf (.temp "c")) 64))) <|
      .branch (.binary .eq (.leaf (.temp "s")) (.leaf (.value (.bv 64 0))))
        (.step (.set 2 (.leaf (.temp "s"))) .done)
        (.step (.store (.leaf (.temp "s")) (.leaf (.temp "c"))) .done)
        .done)
    (.step .advance .done)
    .done

/-- Five blocks are built from it, and they do what it says. -/
theorem run_refines_flagRecipe :
    flagRecipe.Plain 0 ∧ (∀ v ∈ (RegFile.symbolic flagMachine).values, v.Settled 0) ∧
      (Valuation.zeros 0x1000).Typed ∧ (Valuation.zeros 0x1000).Places flagSite.image ∧
      ∃ b, (flagRecipe.run flagSite >>= fun _ => Build.closeIfOpen)
          (.start {} 0x1000 (.symbolic flagMachine)) = (.ok (), b) ∧
        b.ledger.finished.length = 5 ∧
        ∃ (σ : Scene (World.still flagSite.machine flagSite.image))
          (c : Config (World.still flagSite.machine flagSite.image)) (final : RegFile),
          flagRecipe.perform (Valuation.zeros 0x1000) []
            ⟨(RegFile.symbolic flagMachine).values.map (Valuation.zeros 0x1000).denote,
              { state := () }⟩ = some σ ∧
          Executes b.ledger.finished 0 ⟨Valuation.zeros 0x1000, { state := () }⟩ c final ∧
          final.values.map c.values.denote = σ.regs ∧
          Elides flagMachine flagSite.image c.moment.trace σ.moment.trace := by
  have hplain : flagRecipe.Plain 0 := by
    simp only [flagRecipe, Plain, Step.Plain, Expr.All, Leaf.Plain]
    decide
  have hregs : ∀ v ∈ (RegFile.symbolic flagMachine).values, v.Settled 0 := by decide
  have hplaces : (Valuation.zeros 0x1000).Places flagSite.image := by
    intro id s hs
    cases id with
    | zero => cases hs; rfl
    | succ id => cases hs
  obtain ⟨b, hrun, hlength⟩ : ∃ b, (flagRecipe.run flagSite >>= fun _ => Build.closeIfOpen)
      (.start {} 0x1000 (.symbolic flagMachine)) = (.ok (), b) ∧ b.ledger.finished.length = 5 := by
    have hok : ((flagRecipe.run flagSite >>= fun _ => Build.closeIfOpen)
        (.start {} 0x1000 (.symbolic flagMachine))).1 = .ok () := by decide +kernel
    have hlength : ((flagRecipe.run flagSite >>= fun _ => Build.closeIfOpen)
        (.start {} 0x1000 (.symbolic flagMachine))).2.ledger.finished.length = 5 := by
      decide +kernel
    -- Without this the next step computes the blocks.
    generalize (flagRecipe.run flagSite >>= fun _ => Build.closeIfOpen)
      (.start {} 0x1000 (.symbolic flagMachine)) = after at hok hlength
    exact ⟨after.2, Prod.ext hok rfl, hlength⟩
  obtain ⟨blocks, hblocks, σ, c, final, hperform, hruns, hfinal, -, htrace⟩ :=
    run_refines (World.still flagSite.machine flagSite.image) hplain hregs hrun
      (Valuation.typed_zeros 0x1000) hplaces ()
  refine ⟨hplain, hregs, Valuation.typed_zeros _, hplaces, b, hrun, hlength, σ, c, final, hperform,
    ?_, hfinal, htrace⟩
  rw [hblocks]
  exact (hruns c final).2 ⟨rfl, rfl⟩

end FlowRecovery.Recipe
