import FlowRecovery.Proofs.Recipe
import FlowRecovery.Proofs.Simulation

/-!
# `FlowRecovery.Proofs.Simulation.Step`: each step of a recipe

A step can be carried out on the open block, or performed on concrete
data. `Mirrors` says that the two are at the same point: temporaries and
registers hold values on one side, and what these values stand for on
the other. `Step.Builds.simulates` is the step lemma: from such a point
both sides get to such a point again, and the statements added in
between do to the world what performing the step does, up to loads of
constants.

The lemmas before it do the same for what steps are made of: terms, a
register write, a load, a primitive, a statement that names nothing.
-/

set_option autoImplicit false

namespace FlowRecovery

/-! ### Recipes and their data -/

namespace Recipe

/-- The leaf brings in nothing but settled values. -/
def Leaf.Plain (n : Nat) : Leaf → Prop
  | .value v => v.Settled n
  | .reg _ | .temp _ | .undecodable _ => True

/-- The step works on the open block alone, and brings in nothing but
settled values. -/
def Step.Plain (n : Nat) : Step → Prop
  | .bind _ e | .set _ e | .load _ e _ => e.All (Leaf.Plain n)
  | .prim _ _ args _ _ | .arch _ args => ∀ e ∈ args, e.All (Leaf.Plain n)
  | .store addr value => addr.All (Leaf.Plain n) ∧ value.All (Leaf.Plain n)
  | .emit s => s.assignId? = none ∧ ∀ v ∈ s.uses, v.Settled n
  | .setIp _ | .advance | .fail _ | .look => True
  | .close _ | .moveTo _ | .save _ | .restore _ => False

/-- All steps are plain, in the arms too. -/
def Plain (n : Nat) : Recipe → Prop
  | .done => True
  | .step s rest => s.Plain n ∧ rest.Plain n
  | .branch cond onTrue onFalse rest =>
    cond.All (Leaf.Plain n) ∧ onTrue.Plain n ∧ onFalse.Plain n ∧ rest.Plain n

variable {site : Site} (W : World site.machine site.image) (ρ₀ : Valuation)

/-- Construction and performance agree. Temporaries and registers hold
values on one side and the data of these values on the other. The
recipe was written when `n₀` numbers were issued and its symbols stood
for what `ρ₀` says. -/
structure Mirrors (n₀ n : Nat)
    (current : Option OpenBlock) (temps : Temps) (ρ : Valuation) (data : DataTemps)
    (regs : List Datum) : Prop where
  fits : Fits W n current ρ
  start_le : n₀ ≤ n
  agrees : ρ₀.Agrees n₀ ρ
  temps_settled : ∀ t ∈ temps, t.2.Settled n
  data_eq : data = temps.map fun t => (t.1, ρ.denote t.2)
  regs_eq : ∀ blk ∈ current, regs = blk.regs.values.map ρ.denote

variable {W ρ₀} {ρ : Valuation} {n₀ : Nat} {temps : Temps} {data : DataTemps} {regs : List Datum}
  {b b' : Builder}

/-- What is found under a name, when all entries have been mapped. -/
theorem lookup_map_snd {α β : Type} (f : α → β) (entries : List (String × α)) (name : String) :
    (entries.map fun t => (t.1, f t.2)).lookup name = (entries.lookup name).map f := by
  induction entries with
  | nil => rfl
  | cons t rest ih =>
    obtain ⟨key, value⟩ := t
    simp only [List.map_cons, List.lookup_cons]
    cases name == key with
    | true => rfl
    | false => exact ih

/-- A leaf has on one side the value and on the other its datum. -/
theorem Mirrors.leaf (h : Mirrors W ρ₀ n₀ b.issued b.current temps ρ data regs) {l : Leaf}
    {v : Value} (hl : l.Plain n₀) (hheld : l.held? temps b = some v) :
    v.Settled b.issued ∧ l.datum? ρ₀ data regs = some (ρ.denote v) := by
  cases l with
  | value u =>
    cases hheld
    exact ⟨hl.mono h.start_le, congrArg some (h.agrees.denote_eq hl).symm⟩
  | reg r =>
    simp only [Leaf.held?, Builder.regs?, Option.bind_eq_some_iff, Option.map_eq_some_iff] at hheld
    obtain ⟨_, ⟨blk, hblk, rfl⟩, hr⟩ := hheld
    refine ⟨h.fits.regs blk hblk v (List.mem_of_getElem? hr), ?_⟩
    rw [Leaf.datum?, h.regs_eq blk hblk, List.getElem?_map]
    exact congrArg (Option.map ρ.denote) hr
  | temp name =>
    refine ⟨h.temps_settled _ (mem_of_lookup_eq_some hheld), ?_⟩
    rw [Leaf.datum?, h.data_eq, lookup_map_snd]
    exact congrArg (Option.map ρ.denote) hheld
  | undecodable reason => cases hheld

/-- Terms: resolved for construction, they come to the same datum. -/
theorem Mirrors.term (h : Mirrors W ρ₀ n₀ b.issued b.current temps ρ data regs) {e : Term}
    {e' : Expr Value} (he : e.All (Leaf.Plain n₀))
    (hresolve : e.resolve (Leaf.held? temps b) = some e') :
    e'.All (Value.Settled b.issued) ∧
      e.eval (Leaf.datum? ρ₀ data regs) = e'.eval fun u => some (ρ.denote u) := by
  have hresolves := Expr.resolves_of_resolve hresolve
  clear hresolve
  induction hresolves with
  | leaf hv => exact h.leaf he hv
  | unary op _ ih | ext op _ _ ih =>
    obtain ⟨hall, heval⟩ := ih he
    exact ⟨hall, by simp only [Expr.eval, heval]⟩
  | binary op _ _ ihl ihr =>
    obtain ⟨hall, heval⟩ := ihl he.1
    obtain ⟨hall', heval'⟩ := ihr he.2
    exact ⟨⟨hall, hall'⟩, by simp only [Expr.eval, heval, heval']⟩
  | select _ _ _ ihc iht ihf =>
    obtain ⟨hall, heval⟩ := ihc he.1
    obtain ⟨hall', heval'⟩ := iht he.2.1
    obtain ⟨hall'', heval''⟩ := ihf he.2.2
    exact ⟨⟨hall, hall', hall''⟩, by simp only [Expr.eval, heval, heval', heval'']⟩

/-- Terms in a list, one by one. -/
theorem Mirrors.terms (h : Mirrors W ρ₀ n₀ b.issued b.current temps ρ data regs) {es : List Term}
    {es' : List (Expr Value)} (hes : ∀ e ∈ es, e.All (Leaf.Plain n₀))
    (hresolve : List.Forall₂ (fun e e' => e.resolve (Leaf.held? temps b) = some e') es es') :
    (∀ e' ∈ es', e'.All (Value.Settled b.issued)) ∧
      es.map (Expr.eval (Leaf.datum? ρ₀ data regs)) =
        es'.map (Expr.eval fun u => some (ρ.denote u)) := by
  induction hresolve with
  | nil => exact ⟨by simp, rfl⟩
  | @cons e e' _ _ he _ ih =>
    obtain ⟨hall, heval⟩ := h.term (hes e List.mem_cons_self) he
    obtain ⟨halls, hevals⟩ := ih fun u hu => hes u (List.mem_cons_of_mem e hu)
    refine ⟨List.forall_mem_cons.2 ⟨hall, halls⟩, ?_⟩
    rw [List.map_cons, List.map_cons, heval, hevals]

/-- What a leaf holds depends on the registers only. -/
theorem Leaf.held?_congr (h : b'.regs? = b.regs?) : Leaf.held? temps b' = Leaf.held? temps b := by
  funext l
  cases l with
  | reg r => rw [Leaf.held?, Leaf.held?, h]
  | value | temp | undecodable => rfl

/-- Terms are worked out as the expressions that they resolve to. -/
theorem EvaluatesAll.computes {es : List Term} {vs : List Value}
    (h : EvaluatesAll temps es b vs b') :
    ∃ es', List.Forall₂ (fun e e' => e.resolve (Leaf.held? temps b) = some e') es es' ∧
      Computes W es' b vs b' := by
  induction es generalizing b vs with
  | nil =>
    obtain ⟨rfl, rfl⟩ := h
    exact ⟨[], .nil, .nil b'⟩
  | cons e rest ih =>
    obtain ⟨v, b₁, vs', ⟨e', hresolve, hv⟩, hrest, rfl⟩ := h
    obtain ⟨es', hresolves, hes⟩ := ih hrest
    have hfirst := Build.evaluate_computes (W := W) hv
    -- The first term has left the registers alone, so the others resolve as before.
    rw [Leaf.held?_congr hfirst.1] at hresolves
    exact ⟨e' :: es', .cons hresolve hresolves, hfirst.cons hes⟩

/-- The agreement outlasts statements that leave registers alone. -/
theorem Mirrors.advance {new : List Stmt} {c c' : Config W}
    (h : Mirrors W ρ₀ n₀ b.issued b.current temps c.values data regs)
    (hsim : Simulates new b b' c c') (hle : b.issued ≤ b'.issued) (hregs : b'.regs? = b.regs?) :
    Mirrors W ρ₀ n₀ b'.issued b'.current temps c'.values data regs where
  fits := hsim.fits
  start_le := Nat.le_trans h.start_le hle
  agrees := h.agrees.trans (hsim.agrees.mono h.start_le)
  temps_settled t ht := (h.temps_settled t ht).mono hle
  data_eq := by
    rw [h.data_eq]
    refine List.map_congr_left fun t ht => ?_
    rw [hsim.agrees.denote_eq (h.temps_settled t ht)]
  regs_eq blk' hblk' := by
    have hsome : b.regs? = some blk'.regs := by
      rw [← hregs, Builder.regs?, hblk']
      rfl
    obtain ⟨blk, hblk, hsame⟩ := Option.map_eq_some_iff.1 hsome
    rw [h.regs_eq blk hblk, ← hsame]
    exact (hsim.agrees.map_denote_eq (h.fits.regs blk hblk)).symm

/-- Terms evaluated for construction stand for what they come to in
performance. -/
theorem EvaluatesAll.simulates (W : World site.machine site.image) (ρ₀ : Valuation)
    {es : List Term} {vs : List Value} (h : EvaluatesAll temps es b vs b')
    (hes : ∀ e ∈ es, e.All (Leaf.Plain n₀)) :
    b'.regs? = b.regs? ∧ ∃ new, b.Extends b' new ∧
      ∀ (c : Config W) (data : DataTemps) (regs : List Datum),
        Mirrors W ρ₀ n₀ b.issued b.current temps c.values data regs →
        ∃ c', Simulates new b b' c c' ∧ c'.moment = c.moment ∧
          Mirrors W ρ₀ n₀ b'.issued b'.current temps c'.values data regs ∧
          (∀ v ∈ vs, v.Settled b'.issued) ∧
          es.map (Expr.eval (Leaf.datum? ρ₀ data regs)) =
            (vs.map c'.values.denote).map some := by
  obtain ⟨es', hresolves, hregs, new, hext, hsim⟩ := h.computes (W := W)
  refine ⟨hregs, new, hext, ?_⟩
  intro c data regs hmirror
  obtain ⟨hall, hdata⟩ := hmirror.terms hes hresolves
  obtain ⟨c', hc', hmoment, hvs, hevals⟩ := hsim c hmirror.fits hall
  refine ⟨c', hc', hmoment, hmirror.advance hc' hext.issued_le hregs, hvs, ?_⟩
  rw [hdata, hevals, List.map_map]
  rfl

/-- The same for a single term. -/
theorem Evaluates.simulates (W : World site.machine site.image) (ρ₀ : Valuation) {e : Term}
    {v : Value} (h : Evaluates temps e b v b') (he : e.All (Leaf.Plain n₀)) :
    b'.regs? = b.regs? ∧ ∃ new, b.Extends b' new ∧
      ∀ (c : Config W) (data : DataTemps) (regs : List Datum),
        Mirrors W ρ₀ n₀ b.issued b.current temps c.values data regs →
        ∃ c', Simulates new b b' c c' ∧ c'.moment = c.moment ∧
          Mirrors W ρ₀ n₀ b'.issued b'.current temps c'.values data regs ∧
          v.Settled b'.issued ∧
          e.eval (Leaf.datum? ρ₀ data regs) = some (c'.values.denote v) := by
  have hall : EvaluatesAll temps [e] b [v] b' := ⟨v, b', [], h, ⟨rfl, rfl⟩, rfl⟩
  obtain ⟨hregs, new, hext, hsim⟩ := hall.simulates W ρ₀ (by simpa using he)
  refine ⟨hregs, new, hext, ?_⟩
  intro c data regs hmirror
  obtain ⟨c', hc', hmoment, hmirror', hv, heval⟩ := hsim c data regs hmirror
  refine ⟨c', hc', hmoment, hmirror', by simpa using hv, ?_⟩
  simpa using heval

/-! ### Steps -/

/-- A value whose address is known stands for that address. -/
theorem denote_of_address? {a : Value} {addr : Word} (hty : a.ty = site.machine.addrTy)
    (ha : a.Masked) (hplaces : ρ.Places site.image) (h : a.address? site.image = some addr) :
    ∃ x : BitVec site.machine.addrWidth,
      ρ.denote a = .bits site.machine.addrWidth x ∧ x.setWidth 64 = addr := by
  have hwide {width : Nat} {w : Word} (hw : w.keepLow width = w) :
      (w.setWidth width).setWidth 64 = w := by
    rw [Word.setWidth_setWidth_of_masked hw, BitVec.setWidth_eq]
  cases a with
  | bv width w =>
    cases h
    cases hty
    exact ⟨_, rfl, hwide ha⟩
  | reloc segment offset width =>
    cases hty
    obtain ⟨s, hs, rfl⟩ := Option.map_eq_some_iff.1 h
    refine ⟨_, rfl, ?_⟩
    rw [hplaces segment s hs, ← Word.setWidth_keepLow]
    exact hwide (Word.keepLow_keepLow _ _)
  | bool | initial | returnAddr | clobbered | assign => cases h

/-- A load from read-only memory is the constant that is there. -/
theorem load_constant {a v : Value} {bytes : Nat} (hty : a.ty = site.machine.addrTy)
    (ha : a.Masked) (hplaces : ρ.Places site.image)
    (h : Build.constantAt? site.image a bytes = some v) (μ : Moment W) :
    ∃ act : Action, act.IsConstant site.machine site.image ∧
      μ.load (ρ.denote a) bytes = (ρ.denote v, μ.note act) := by
  obtain ⟨addr, haddr, hread⟩ := Option.bind_eq_some_iff.1 h
  obtain ⟨w, hw, rfl⟩ := Option.map_eq_some_iff.1 hread
  obtain ⟨x, hx, rfl⟩ := denote_of_address? hty ha hplaces haddr
  obtain ⟨act, hact, hload⟩ := μ.load_readOnly hw
  refine ⟨act, hact, ?_⟩
  rw [hx, hload, Valuation.denote_ofWord]

/-- A register is written in an open block only. -/
theorem setRegister_isOpen {r : Reg} {v : Value} {u : Unit}
    (h : Build.setRegister site.machine r v b = (.ok u, b')) : b.current ≠ none := by
  obtain ⟨blk, hblk, -⟩ := Build.setRegister_eq_ok_iff.1 h
  simp [hblk]

/-- Writing a register on both sides. -/
theorem setRegister_simulates (W : World site.machine site.image) (ρ₀ : Valuation) (n₀ : Nat)
    (temps : Temps) {r : Reg} {v : Value} {u : Unit}
    (h : Build.setRegister site.machine r v b = (.ok u, b')) :
    b.Extends b' [] ∧ ∀ (c : Config W) (data : DataTemps) (σ : Scene W),
      Mirrors W ρ₀ n₀ b.issued b.current temps c.values data σ.regs → v.Settled b.issued →
      Simulates [] b b' c c ∧
        Mirrors W ρ₀ n₀ b'.issued b'.current temps c.values data
          (σ.set r (c.values.denote v)).regs ∧
        (σ.set r (c.values.denote v)).moment = σ.moment := by
  obtain ⟨blk, hblk, ⟨hzero, rfl⟩ | ⟨hzero, regs, hset, rfl⟩⟩ := Build.setRegister_eq_ok_iff.1 h
  · -- The write is dropped on both sides.
    refine ⟨.refl b', fun c data σ hmirror hv => ⟨.refl hmirror.fits, ?_, σ.moment_set _ _⟩⟩
    rw [Scene.set, if_pos hzero]
    exact hmirror
  · obtain ⟨-, rfl⟩ := RegFile.set_eq_ok_iff.1 hset
    -- No statement is added: the new value waits in the register file.
    refine ⟨⟨rfl, Nat.le_refl _, fun blk' hblk' => ?_, fun hnone => ?_⟩, ?_⟩
    · rw [hblk] at hblk'
      cases hblk'
      exact ⟨_, rfl, rfl, rfl, by simp⟩
    · rw [hblk] at hnone
      cases hnone
    · intro c data σ hmirror hv
      have hfits : Fits W b.issued (some { blk with regs := ⟨blk.regs.values.set r v⟩ })
          c.values := by
        refine ⟨hmirror.fits.typed, hmirror.fits.places, fun blk' hblk' u hu => ?_,
          fun blk' hblk' => ?_⟩
        · cases hblk'
          rcases List.mem_or_eq_of_mem_set hu with hu | rfl
          · exact hmirror.fits.regs blk hblk u hu
          · exact hv
        · cases hblk'
          exact hmirror.fits.memo blk hblk
      refine ⟨⟨rfl, .refl _ _, hfits⟩, { hmirror with fits := hfits, regs_eq := ?_ },
        σ.moment_set _ _⟩
      intro blk' hblk'
      cases hblk'
      rw [Scene.set, if_neg hzero, hmirror.regs_eq blk hblk, List.map_set]

/-- A statement does the same under data that agree on what it reads. -/
theorem act_congr {n : Nat} {ρ ρ' : Valuation} (h : ρ.Agrees n ρ') {s : Stmt}
    (hs : ∀ v ∈ s.uses, v.Settled n) (μ : Moment W) : s.act ρ' μ = s.act ρ μ := by
  cases s with
  | assign | instruction | comment => rfl
  | store addr value =>
    have haddr := h.denote_eq (hs addr (by simp [Stmt.uses]))
    have hvalue := h.denote_eq (hs value (by simp [Stmt.uses]))
    rw [Stmt.act, Stmt.act, haddr, hvalue]
  | arch name args =>
    have hargs : args.map ρ'.denote = args.map ρ.denote := h.map_denote_eq hs
    rw [Stmt.act, Stmt.act, hargs]

/-- A statement that names nothing, emitted on one side and performed on
the other. -/
theorem emit_simulates (W : World site.machine site.image) {s : Stmt} {u : Unit}
    (h : Build.emit s b = (.ok u, b')) :
    b'.regs? = b.regs? ∧ b.Extends b' [s] ∧
      ∀ (c : Config W) (μ : Moment W), Fits W b.issued b.current c.values →
        s.act c.values c.moment = some μ → Simulates [s] b b' c { c with moment := μ } := by
  obtain ⟨blk, hblk, hb⟩ := Build.emit_eq_ok_iff.1 h
  refine ⟨?_, .emit h, ?_⟩
  · rw [hb, Builder.regs?, Builder.regs?, hblk]
    rfl
  · intro c μ hfits hact
    subst hb
    refine ⟨?_, .refl _ _, hfits.typed, hfits.places, fun blk' hblk' => ?_, fun blk' hblk' => ?_⟩
    · rw [execAll_singleton, Stmt.exec_of_act hact]
    · cases hblk'
      exact hfits.regs blk hblk
    · cases hblk'
      exact hfits.memo blk hblk

/-- A name is bound to the value on one side and to its datum on the
other. -/
theorem Mirrors.bind {n : Nat} {current : Option OpenBlock}
    (h : Mirrors W ρ₀ n₀ n current temps ρ data regs) {v : Value} (hv : v.Settled n)
    (name : String) :
    Mirrors W ρ₀ n₀ n current ((name, v) :: temps) ρ ((name, ρ.denote v) :: data) regs :=
  { h with
    temps_settled := List.forall_mem_cons.2 ⟨hv, h.temps_settled⟩
    data_eq := by rw [h.data_eq, List.map_cons] }

/-- All elements are mapped without a failure. -/
theorem mapM_eq_some {α β : Type} {f : α → Option β} {xs : List α} {ys : List β}
    (h : xs.map f = ys.map some) : xs.mapM f = some ys := by
  induction xs generalizing ys with
  | nil =>
    rw [List.map_eq_nil_iff.1 h.symm]
    rfl
  | cons x xs ih =>
    obtain ⟨y, ys', rfl, hy, hys⟩ := List.map_eq_cons_iff.1 h.symm
    rw [List.mapM_cons, ih hys.symm, ← hy]
    rfl

/-- A load, of a constant that is known ahead of time or from the world. -/
theorem load_simulates (W : World site.machine site.image) {a v : Value} {bytes : Nat}
    (h : Build.load site.machine site.image a bytes b = (.ok v, b')) :
    b'.regs? = b.regs? ∧ ∃ new, b.Extends b' new ∧
      ∀ (c : Config W) (ν : Moment W), Fits W b.issued b.current c.values → a.Settled b.issued →
        c.moment.Elides ν →
        ∃ c', Simulates new b b' c c' ∧ v.Settled b'.issued ∧
          (ν.load (c.values.denote a) bytes).1 = c'.values.denote v ∧
          c'.moment.Elides (ν.load (c.values.denote a) bytes).2 := by
  obtain ⟨hty, -, ⟨hconst, rfl⟩ | ⟨-, hdefine⟩⟩ := Build.load_eq_ok_iff.1 h
  · refine ⟨rfl, [], .refl b', ?_⟩
    intro c ν hfits ha htrace
    -- Only the performance loads; its trace has one more load of a constant.
    obtain ⟨act, hact, hload⟩ := load_constant hty ha.1 hfits.places hconst ν
    obtain ⟨_, _, hread⟩ := Option.bind_eq_some_iff.1 hconst
    obtain ⟨w, _, rfl⟩ := Option.map_eq_some_iff.1 hread
    rw [hload]
    exact ⟨c, .refl hfits, .ofWord _ _, rfl, htrace.drop hact⟩
  · obtain ⟨hregs, new, hext, hsim⟩ := Build.define_simulates (W := W) hdefine
    refine ⟨hregs, new, hext, ?_⟩
    intro c ν hfits ha htrace
    obtain ⟨hsame, htrace'⟩ := htrace.load (c.values.denote a) bytes
    obtain ⟨c', hc', hmoment, hv, hvalue⟩ := hsim c (c.moment.load (c.values.denote a) bytes).1
      (c.moment.load (c.values.denote a) bytes).2 hfits (by simpa [Rhs.operands] using ha) rfl rfl
      (by simp)
    exact ⟨c', hc', hv, by rw [hvalue, hsame], hmoment ▸ htrace'⟩

/-- A primitive is applied to the same data on both sides. -/
theorem evaluatePrim_simulates (W : World site.machine site.image) {name : String}
    {args : List Value} {ty : Ty} {isPure : Bool} {v : Value}
    (h : Build.evaluatePrim { name, args, ty, isPure } b = (.ok v, b')) :
    b'.regs? = b.regs? ∧ ∃ new, b.Extends b' new ∧
      ∀ (c : Config W) (ν : Moment W), Fits W b.issued b.current c.values →
        (∀ u ∈ args, u.Settled b.issued) → c.moment.Elides ν →
        ∃ c', Simulates new b b' c c' ∧ v.Settled b'.issued ∧
          (ν.prim name (args.map c.values.denote) ty isPure).1 = c'.values.denote v ∧
          c'.moment.Elides (ν.prim name (args.map c.values.denote) ty isPure).2 := by
  obtain ⟨hregs, new, hext, hsim⟩ := Build.define_simulates (W := W) h
  refine ⟨hregs, new, hext, ?_⟩
  intro c ν hfits hargs htrace
  obtain ⟨hsame, htrace'⟩ := htrace.prim name (args.map c.values.denote) ty isPure
  -- A pure primitive may be remembered, as it neither reads nor changes the world.
  have hpure (hp : isPure = true) (ν : Moment W) :
      ν.prim name (args.map c.values.denote) ty isPure =
        ((c.moment.prim name (args.map c.values.denote) ty isPure).1, ν) := by
    subst hp
    rfl
  obtain ⟨c', hc', hmoment, hv, hvalue⟩ := hsim c
    (c.moment.prim name (args.map c.values.denote) ty isPure).1
    (c.moment.prim name (args.map c.values.denote) ty isPure).2 hfits hargs rfl
    (c.moment.ty_prim _ _ _ _) fun hp ν => congrArg some (hpure hp ν)
  exact ⟨c', hc', hv, by rw [hvalue, hsame], hmoment ▸ htrace'⟩

/-- The instruction pointer is set, by a step that does nothing else. -/
theorem setIp_simulates (W : World site.machine site.image) (ρ₀ : Valuation) {s : Step}
    {addr : Word} (h : Build.setIp site.machine addr b = (.ok (), b'))
    (hs : ∀ (data : DataTemps) (σ : Scene W), s.perform ρ₀ data σ = some (data, σ.setIp addr)) :
    ∃ new, b.Extends b' new ∧ ∀ (c : Config W) (data : DataTemps) (σ : Scene W),
      Mirrors W ρ₀ n₀ b.issued b.current temps c.values data σ.regs →
      c.moment.Elides σ.moment →
      ∃ c' data' σ', Simulates new b b' c c' ∧ s.perform ρ₀ data σ = some (data', σ') ∧
        Mirrors W ρ₀ n₀ b'.issued b'.current temps c'.values data' σ'.regs ∧
        c'.moment.Elides σ'.moment ∧ (b.current = none → σ'.regs = σ.regs) := by
  obtain ⟨hext, hset⟩ := setRegister_simulates W ρ₀ n₀ temps h
  refine ⟨[], hext, ?_⟩
  intro c data σ hmirror htrace
  obtain ⟨hc, hmirror', hmoment⟩ := hset c data σ hmirror (.ofWord _ _)
  have hip : σ.setIp addr = σ.set site.machine.ip (c.values.denote (site.machine.addr addr)) := by
    rw [Machine.addr, Valuation.denote_ofWord]
    rfl
  refine ⟨c, data, _, hc, hs data σ, ?_, ?_, fun hclosed => absurd hclosed (setRegister_isOpen h)⟩
  · rw [hip]
    exact hmirror'
  · rw [hip, hmoment]
    exact htrace

/-- Every step does on the open block what it does when it is
performed. -/
theorem Step.Builds.simulates (W : World site.machine site.image) (ρ₀ : Valuation) {s : Step}
    {temps' : Temps} (h : s.Builds site temps b temps' b') (hs : s.Plain n₀) :
    ∃ new, b.Extends b' new ∧ ∀ (c : Config W) (data : DataTemps) (σ : Scene W),
      Mirrors W ρ₀ n₀ b.issued b.current temps c.values data σ.regs →
      c.moment.Elides σ.moment →
      ∃ c' data' σ', Simulates new b b' c c' ∧ s.perform ρ₀ data σ = some (data', σ') ∧
        Mirrors W ρ₀ n₀ b'.issued b'.current temps' c'.values data' σ'.regs ∧
        c'.moment.Elides σ'.moment ∧ (b.current = none → σ'.regs = σ.regs) := by
  cases h with
  | bind h =>
    obtain ⟨-, new, hext, hsim⟩ := h.simulates W ρ₀ hs
    refine ⟨new, hext, ?_⟩
    intro c data σ hmirror htrace
    obtain ⟨c', hc', hmoment, hmirror', hv, heval⟩ := hsim c data σ.regs hmirror
    refine ⟨c', _, σ, hc', ?_, hmirror'.bind hv _, hmoment ▸ htrace, fun _ => rfl⟩
    rw [Step.perform, heval]
    rfl
  | @load name addr bytes a v _ b₁ _ ha h =>
    obtain ⟨-, new, hext, hsim⟩ := ha.simulates W ρ₀ hs
    obtain ⟨hregs, more, hext', hload⟩ := load_simulates W h
    refine ⟨new ++ more, hext.trans hext', ?_⟩
    intro c data σ hmirror htrace
    obtain ⟨c₁, hc₁, hmoment, hmirror₁, ha, heval⟩ := hsim c data σ.regs hmirror
    obtain ⟨c₂, hc₂, hv, hvalue, htrace₂⟩ :=
      hload c₁ σ.moment hmirror₁.fits ha (hmoment ▸ htrace)
    -- The statements of the load leave registers and temporaries alone.
    have hmirror₂ := hmirror₁.advance hc₂ hext'.issued_le hregs
    refine ⟨c₂, _, { σ with moment := (σ.moment.load (c₁.values.denote a) bytes).2 },
      hc₁.trans hext.issued_le hc₂, ?_, hmirror₂.bind hv name, htrace₂,
      fun _ => rfl⟩
    rw [Step.perform, heval, ← hvalue]
    rfl
  | @prim name primitive args ty isPure vs v _ b₁ _ hargs h =>
    obtain ⟨-, new, hext, hsim⟩ := hargs.simulates W ρ₀ hs
    obtain ⟨hregs, more, hext', hprim⟩ := evaluatePrim_simulates W h
    refine ⟨new ++ more, hext.trans hext', ?_⟩
    intro c data σ hmirror htrace
    obtain ⟨c₁, hc₁, hmoment, hmirror₁, hvs, hevals⟩ := hsim c data σ.regs hmirror
    obtain ⟨c₂, hc₂, hv, hvalue, htrace₂⟩ :=
      hprim c₁ σ.moment hmirror₁.fits hvs (hmoment ▸ htrace)
    have hmirror₂ := hmirror₁.advance hc₂ hext'.issued_le hregs
    refine ⟨c₂, _, { σ with
        moment := (σ.moment.prim primitive (vs.map c₁.values.denote) ty isPure).2 },
      hc₁.trans hext.issued_le hc₂, ?_, hmirror₂.bind hv name, htrace₂,
      fun _ => rfl⟩
    rw [Step.perform, mapM_eq_some hevals, ← hvalue]
    rfl
  | set hv h =>
    obtain ⟨-, new, hext, hsim⟩ := hv.simulates W ρ₀ hs
    obtain ⟨hext', hset⟩ := setRegister_simulates W ρ₀ n₀ temps h
    refine ⟨new ++ [], hext.trans hext', ?_⟩
    intro c data σ hmirror htrace
    obtain ⟨c₁, hc₁, hmoment, hmirror₁, hv, heval⟩ := hsim c data σ.regs hmirror
    obtain ⟨hc₂, hmirror₂, hset⟩ := hset c₁ data σ hmirror₁ hv
    refine ⟨c₁, data, _, hc₁.trans hext.issued_le hc₂, ?_, hmirror₂, ?_, fun hclosed => ?_⟩
    · rw [Step.perform, heval]
      rfl
    · rw [hset, hmoment]
      exact htrace
    · -- A register can only be set while a block is open.
      rw [(hext.closed hclosed).1] at h
      exact absurd hclosed (setRegister_isOpen h)
  | setIp h => exact setIp_simulates W ρ₀ h fun _ _ => rfl
  | advance h => exact setIp_simulates W ρ₀ h fun _ _ => rfl
  | @store addr value a v _ b₁ b₂ _ ha hv h =>
    obtain ⟨-, new, hext, hsim⟩ := ha.simulates W ρ₀ hs.1
    obtain ⟨-, more, hext', hsim'⟩ := hv.simulates W ρ₀ hs.2
    obtain ⟨-, -, hemit⟩ := Build.store_eq_ok_iff.1 h
    obtain ⟨hregs, hext'', hstore⟩ := emit_simulates W hemit
    refine ⟨_, (hext.trans hext').trans hext'', ?_⟩
    intro c data σ hmirror htrace
    obtain ⟨c₁, hc₁, hmoment₁, hmirror₁, ha, heval₁⟩ := hsim c data σ.regs hmirror
    obtain ⟨c₂, hc₂, hmoment₂, hmirror₂, hv, heval₂⟩ := hsim' c₁ data σ.regs hmirror₁
    have hc₃ := hstore c₂ _ hmirror₂.fits rfl
    -- Working out address and value leaves the world alone.
    have htrace₂ : c₂.moment.Elides σ.moment := by
      rw [hmoment₂, hmoment₁]
      exact htrace
    refine ⟨_, data, { σ with
        moment := σ.moment.store (c₂.values.denote a) (c₂.values.denote v) },
      (hc₁.trans hext.issued_le hc₂).trans (hext.trans hext').issued_le hc₃, ?_,
      hmirror₂.advance hc₃ hext''.issued_le hregs, htrace₂.store _ _, fun _ => rfl⟩
    rw [Step.perform, heval₁, heval₂, hc₂.agrees.denote_eq ha]
    rfl
  | @emit s _ _ h =>
    obtain ⟨hassign, huses⟩ := hs
    obtain ⟨hregs, hext, hemit⟩ := emit_simulates W h
    refine ⟨[s], hext, ?_⟩
    intro c data σ hmirror htrace
    -- The statement is carried out under the current data and performed under
    -- those of the start; they agree on what it reads.
    obtain ⟨μ, hμ⟩ := Stmt.exists_act hassign c.values c.moment
    obtain ⟨ν, hν, htrace'⟩ := htrace.act hμ
    have hc' := hemit c μ hmirror.fits hμ
    refine ⟨_, data, { σ with moment := ν }, hc', ?_,
      hmirror.advance hc' hext.issued_le hregs, htrace', fun _ => rfl⟩
    rw [Step.perform, ← act_congr hmirror.agrees huses, hν]
    rfl
  | @arch name args vs _ b₁ _ hargs h =>
    obtain ⟨-, new, hext, hsim⟩ := hargs.simulates W ρ₀ hs
    obtain ⟨hregs, hext', hemit⟩ := emit_simulates W h
    refine ⟨_, hext.trans hext', ?_⟩
    intro c data σ hmirror htrace
    obtain ⟨c₁, hc₁, hmoment, hmirror₁, hvs, hevals⟩ := hsim c data σ.regs hmirror
    have hc₂ := hemit c₁ _ hmirror₁.fits rfl
    have htrace₁ : c₁.moment.Elides σ.moment := hmoment ▸ htrace
    refine ⟨_, data, { σ with moment := σ.moment.arch name (vs.map c₁.values.denote) },
      hc₁.trans hext.issued_le hc₂, ?_, hmirror₁.advance hc₂ hext'.issued_le hregs,
      htrace₁.arch _ _, fun _ => rfl⟩
    rw [Step.perform, mapM_eq_some hevals]
    rfl
  | look =>
    exact ⟨[], .refl b, fun c data σ hmirror htrace =>
      ⟨c, data, σ, .refl hmirror.fits, rfl, hmirror, htrace, fun _ => rfl⟩⟩
  | close | moveTo | save => cases hs

end Recipe

end FlowRecovery
