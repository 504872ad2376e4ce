import FlowRecovery.Proofs.Builder
import FlowRecovery.Proofs.Execution
import FlowRecovery.Proofs.Fold

/-!
# `FlowRecovery.Proofs.Simulation`: what is built does what was asked

While a block is under construction its statements can already be run.
This file shows that every operation on the open block is right in this
sense: run the statements it adds, and the value it returned stands for
what was to be computed.

Two things make this work. A value that is settled, which is to say that
its assignment has been made, keeps its datum, because later assignments
have larger numbers (`Valuation.Agrees`). And the results that the block
remembers stay right for the same reason (`Recalls`), so one of them can
be used in place of a new statement.

* `Build.define_simulates`: a right-hand side gets a name that stands for
  its result.
* `Build.evaluate_computes`: an expression tree comes to a value that
  stands for its datum. Folding is sound by `Valuation.fold_same`.
-/

set_option autoImplicit false

namespace FlowRecovery

variable {m : Machine} {img : Image} {W : World m img}

/-! ### Values that are settled -/

/-- The value stands for one datum, which no assignment numbered `n` or
above can change. -/
def Value.Settled (n : Nat) (v : Value) : Prop :=
  v.Masked ∧ v.isClobbered = false ∧ ∀ id ∈ v.assignId?, id < n

instance (n : Nat) : DecidablePred (Value.Settled n) := fun v => by
  unfold Value.Settled
  infer_instance

namespace Value.Settled

variable {n k : Nat} {v : Value}

/-- A settled value stays settled. -/
theorem mono (h : v.Settled n) (hle : n ≤ k) : v.Settled k :=
  ⟨h.1, h.2.1, fun id hid => Nat.lt_of_lt_of_le (h.2.2 id hid) hle⟩

/-- A name that has been given is settled. -/
theorem assign {id : AssignId} {ty : Ty} (h : id < n) : (Value.assign id ty).Settled n := by
  refine ⟨trivial, rfl, ?_⟩
  intro id' hid
  cases hid
  exact h

/-- A literal is settled. -/
theorem ofWord (width : Nat) (w : Word) : (Value.ofWord width w).Settled n := by
  refine ⟨masked_ofWord width w, rfl, ?_⟩
  intro id hid
  cases hid

end Value.Settled

/-- The second valuation differs from the first in assignments numbered
`n` or above at most. -/
structure Valuation.Agrees (n : Nat) (ρ ρ' : Valuation) : Prop where
  base : ρ'.base = ρ.base
  symbol : ∀ v : Value, (∀ id ∈ v.assignId?, id < n) → ρ'.symbol v = ρ.symbol v

namespace Valuation.Agrees

variable {n k : Nat} {ρ ρ₁ ρ₂ : Valuation}

/-- Nothing has been assigned. -/
theorem refl (n : Nat) (ρ : Valuation) : ρ.Agrees n ρ := ⟨rfl, fun _ _ => rfl⟩

/-- If fewer values count as settled, there is less to agree on. -/
theorem mono (h : ρ.Agrees k ρ₁) (hle : n ≤ k) : ρ.Agrees n ρ₁ :=
  ⟨h.base, fun v hv => h.symbol v fun id hid => Nat.lt_of_lt_of_le (hv id hid) hle⟩

/-- One stretch after the other. -/
theorem trans (h : ρ.Agrees n ρ₁) (h' : ρ₁.Agrees n ρ₂) : ρ.Agrees n ρ₂ :=
  ⟨h'.base.trans h.base, fun v hv => (h'.symbol v hv).trans (h.symbol v hv)⟩

/-- An assignment with a larger number changes no settled value. -/
theorem assign {id : AssignId} (hle : n ≤ id) (ρ : Valuation) (ty : Ty) (d : Datum) :
    ρ.Agrees n (ρ.assign id ty d) := by
  refine ⟨rfl, fun v hv => ?_⟩
  have hne : v ≠ .assign id ty := by
    intro h
    subst h
    exact Nat.not_lt.2 hle (hv id rfl)
  exact if_neg hne

/-- A settled value stands for the same datum. -/
theorem denote_eq (h : ρ.Agrees n ρ₁) {v : Value} (hv : v.Settled n) :
    ρ₁.denote v = ρ.denote v := by
  cases v with
  | bool | bv => rfl
  | reloc segment offset width => simp only [denote, h.base]
  | initial | returnAddr | clobbered | assign => exact h.symbol _ hv.2.2

/-- So do the values of a list. -/
theorem map_denote_eq (h : ρ.Agrees n ρ₁) {vs : List Value} (hvs : ∀ v ∈ vs, v.Settled n) :
    vs.map ρ₁.denote = vs.map ρ.denote :=
  List.map_congr_left fun v hv => h.denote_eq (hvs v hv)

/-- A right-hand side that reads settled values comes to the same. -/
theorem eval_eq (h : ρ.Agrees n ρ₁) {rhs : Rhs} (hrhs : ∀ v ∈ rhs.operands, v.Settled n)
    (μ : Moment W) : rhs.eval ρ₁ μ = rhs.eval ρ μ := by
  cases rhs with
  | app a =>
    have hargs : a.operands.map ρ₁.denote = a.operands.map ρ.denote := h.map_denote_eq hrhs
    rw [Rhs.eval, Rhs.eval, hargs]
  | load addr bytes => rw [Rhs.eval, Rhs.eval, h.denote_eq (hrhs addr List.mem_cons_self)]
  | prim p =>
    have hargs : p.args.map ρ₁.denote = p.args.map ρ.denote := h.map_denote_eq hrhs
    rw [Rhs.eval, Rhs.eval, hargs]

end Valuation.Agrees

/-- An assignment of the right type keeps data typed. -/
theorem Valuation.Typed.assign {ρ : Valuation} (hρ : ρ.Typed) (id : AssignId) {ty : Ty} {d : Datum}
    (hd : d.ty = ty) : (ρ.assign id ty d).Typed := by
  intro v
  by_cases h : v = .assign id ty
  · subst h
    show (if Value.assign id ty = .assign id ty then d else _).ty = ty
    rw [if_pos rfl, hd]
  · show (if v = .assign id ty then d else ρ.symbol v).ty = v.ty
    rw [if_neg h, hρ v]

/-- A name stands for what it was given. -/
theorem Valuation.denote_assign (ρ : Valuation) (id : AssignId) (ty : Ty) (d : Datum) :
    (ρ.assign id ty d).denote (.assign id ty) = d :=
  if_pos rfl

/-- The segments of the image lie where the image has them. -/
def Valuation.Places (ρ : Valuation) (img : Image) : Prop :=
  ∀ id s, img.segment? id = some s → ρ.base id = s.base

/-- Assignments move no segment. -/
theorem Valuation.Agrees.places {n : Nat} {ρ ρ' : Valuation} (h : ρ.Agrees n ρ')
    (hρ : ρ.Places img) : ρ'.Places img := by
  intro id s hs
  rw [h.base, hρ id s hs]

/-! ### Straight-line construction -/

/-- From `b` to `b'` the statements `new` were added to the open block;
if none was open nothing has happened. -/
structure Builder.Extends (b b' : Builder) (new : List Stmt) : Prop where
  ledger : b'.ledger = b.ledger
  issued_le : b.issued ≤ b'.issued
  opened : ∀ blk ∈ b.current, ∃ blk' ∈ b'.current, blk'.index = blk.index ∧
    blk'.addr = blk.addr ∧ blk'.stmts = blk.stmts ++ new
  closed : b.current = none → b' = b ∧ new = []

namespace Builder.Extends

variable {b b₁ b₂ : Builder} {new more : List Stmt}

/-- Nothing has been added. -/
theorem refl (b : Builder) : b.Extends b [] :=
  ⟨rfl, Nat.le_refl _, fun blk hblk => ⟨blk, hblk, rfl, rfl, by simp⟩, fun _ => ⟨rfl, rfl⟩⟩

/-- Statements are added one after the other. -/
theorem trans (h : b.Extends b₁ new) (h' : b₁.Extends b₂ more) : b.Extends b₂ (new ++ more) := by
  refine ⟨h'.ledger.trans h.ledger, Nat.le_trans h.issued_le h'.issued_le, ?_, ?_⟩
  · intro blk hblk
    obtain ⟨blk₁, hblk₁, hi, ha, hs⟩ := h.opened blk hblk
    obtain ⟨blk₂, hblk₂, hi', ha', hs'⟩ := h'.opened blk₁ hblk₁
    refine ⟨blk₂, hblk₂, hi'.trans hi, ha'.trans ha, ?_⟩
    rw [hs', hs, List.append_assoc]
  · intro hclosed
    obtain ⟨rfl, rfl⟩ := h.closed hclosed
    obtain ⟨rfl, rfl⟩ := h'.closed hclosed
    exact ⟨rfl, rfl⟩

/-- One statement is added. -/
theorem emit {s : Stmt} {u : Unit} (h : Build.emit s b = (.ok u, b₁)) : b.Extends b₁ [s] := by
  obtain ⟨blk, hblk, rfl⟩ := Build.emit_eq_ok_iff.1 h
  refine ⟨rfl, Nat.le_refl _, ?_, fun hnone => ?_⟩
  · intro blk' hblk'
    rw [hblk] at hblk'
    cases hblk'
    exact ⟨_, rfl, rfl, rfl, rfl⟩
  · rw [hblk] at hnone
    cases hnone

end Builder.Extends

/-- An entry of the memory of a block is right: its value is what the
right-hand side comes to, in any state of the world. -/
structure Recalls (W : World m img) (n : Nat) (ρ : Valuation) (entry : Rhs × Value) : Prop where
  value : entry.2.Settled n
  operands : ∀ v ∈ entry.1.operands, v.Settled n
  eval : ∀ μ : Moment W, entry.1.eval ρ μ = some (ρ.denote entry.2, μ)

/-- An entry stays right as numbers are taken. -/
theorem Recalls.mono {n k : Nat} {ρ ρ' : Valuation} {entry : Rhs × Value}
    (h : Recalls W n ρ entry) (hle : n ≤ k) (hagree : ρ.Agrees n ρ') : Recalls W k ρ' entry := by
  refine ⟨h.value.mono hle, fun v hv => (h.operands v hv).mono hle, fun μ => ?_⟩
  rw [hagree.eval_eq h.operands, hagree.denote_eq h.value, h.eval]

/-- The data are right for construction to go on from here, with `n`
numbers issued: values have their types, segments their places, and the
open block knows only settled values and correct results. -/
structure Fits (W : World m img) (n : Nat) (current : Option OpenBlock) (ρ : Valuation) : Prop where
  typed : ρ.Typed
  places : ρ.Places img
  regs : ∀ blk ∈ current, ∀ v ∈ blk.regs.values, v.Settled n
  memo : ∀ blk ∈ current, ∀ entry ∈ blk.memo, Recalls W n ρ entry

/-- The data stay right as numbers are taken, as long as they keep their
types. -/
theorem Fits.mono {n k : Nat} {current : Option OpenBlock} {ρ ρ' : Valuation}
    (h : Fits W n current ρ) (hle : n ≤ k) (hagree : ρ.Agrees n ρ') (htyped : ρ'.Typed) :
    Fits W k current ρ' where
  typed := htyped
  places := hagree.places h.places
  regs blk hblk v hv := (h.regs blk hblk v hv).mono hle
  memo blk hblk entry hentry := (h.memo blk hblk entry hentry).mono hle hagree

/-- Construction went from `b` to `b'` and added the statements `new`.
Running them takes `c` to `c'`, where the data are right again and all
values settled before are what they were. -/
structure Simulates (new : List Stmt) (b b' : Builder) (c c' : Config W) : Prop where
  exec : execAll new c = some c'
  agrees : c.values.Agrees b.issued c'.values
  fits : Fits W b'.issued b'.current c'.values

/-- No statement is run. -/
theorem Simulates.refl {b : Builder} {c : Config W} (h : Fits W b.issued b.current c.values) :
    Simulates [] b b c c :=
  ⟨rfl, .refl _ _, h⟩

/-- The statements of one part are run, and then those of the next. -/
theorem Simulates.trans {new more : List Stmt} {b b₁ b₂ : Builder} {c c₁ c₂ : Config W}
    (h : Simulates new b b₁ c c₁) (hle : b.issued ≤ b₁.issued)
    (h' : Simulates more b₁ b₂ c₁ c₂) : Simulates (new ++ more) b b₂ c c₂ := by
  refine ⟨?_, h.agrees.trans (h'.agrees.mono hle), h'.fits⟩
  rw [execAll_append, h.exec, Option.bind_some, h'.exec]

/-- Naming a result emits at most one statement, and running it gives
the name that result. -/
theorem Build.define_simulates {rhs : Rhs} {ty : Ty} {memoize : Bool} {v : Value} {b b' : Builder}
    (h : define rhs ty memoize b = (.ok v, b')) :
    b'.regs? = b.regs? ∧ ∃ new, b.Extends b' new ∧
      ∀ (c : Config W) (d : Datum) (μ : Moment W), Fits W b.issued b.current c.values →
        (∀ u ∈ rhs.operands, u.Settled b.issued) →
        rhs.eval c.values c.moment = some (d, μ) → d.ty = ty →
        (memoize = true → ∀ ν : Moment W, rhs.eval c.values ν = some (d, ν)) →
        ∃ c', Simulates new b b' c c' ∧ c'.moment = μ ∧ v.Settled b'.issued ∧
          c'.values.denote v = d := by
  obtain ⟨blk, hblk, ⟨hm, hlookup, rfl⟩ | ⟨-, rfl, rfl⟩⟩ := define_eq_ok_iff.1 h
  · -- The name is used again: its entry is right in any state of the world.
    refine ⟨rfl, [], .refl b', ?_⟩
    intro c d μ hfits hops heval hty hpure
    have hrecall := hfits.memo blk hblk _ (mem_of_lookup_eq_some hlookup)
    rw [hrecall.eval] at heval
    cases heval
    exact ⟨c, .refl hfits, rfl, hrecall.value, rfl⟩
  · refine ⟨by simp [Builder.regs?, hblk], [.assign b.issued ty rhs], ?_, ?_⟩
    · refine ⟨rfl, Nat.le_succ _, fun blk' hblk' => ?_, fun hnone => ?_⟩
      · rw [hblk] at hblk'
        cases hblk'
        exact ⟨_, rfl, rfl, rfl, rfl⟩
      · rw [hblk] at hnone
        cases hnone
    · intro c d μ hfits hops heval hty hpure
      -- The new name has a number that no settled value mentions.
      have hagree := Valuation.Agrees.assign (Nat.le_refl b.issued) c.values ty d
      have hfits' := hfits.mono (Nat.le_succ _) hagree (hfits.typed.assign b.issued hty)
      have hvalue : (c.values.assign b.issued ty d).denote (.assign b.issued ty) = d :=
        Valuation.denote_assign _ _ _ _
      have hsettled : (Value.assign b.issued ty).Settled (b.issued + 1) :=
        .assign (Nat.lt_succ_self _)
      refine ⟨⟨c.values.assign b.issued ty d, μ⟩, ⟨?_, hagree, ?_⟩, rfl, hsettled, hvalue⟩
      · rw [execAll_singleton, Stmt.exec, heval]
        rfl
      · refine ⟨hfits'.typed, hfits'.places, fun blk' hblk' => ?_, fun blk' hblk' => ?_⟩
        · cases hblk'
          exact hfits'.regs blk hblk
        · cases hblk'
          intro entry hentry
          -- A remembered result does not depend on the world.
          cases hm : remembers rhs memoize with
          | false =>
            simp only [hm, Bool.false_eq_true, if_false] at hentry
            exact hfits'.memo blk hblk entry hentry
          | true =>
            simp only [hm, if_true, List.mem_cons] at hentry
            rcases hentry with rfl | hentry
            · have hmemo : memoize = true := (Bool.and_eq_true_iff.1 hm).1
              refine ⟨hsettled, fun u hu => (hops u hu).mono (Nat.le_succ _), fun ν => ?_⟩
              rw [hagree.eval_eq hops, hvalue, hpure hmemo]
            · exact hfits'.memo blk hblk entry hentry

/-! ### Applications and expressions -/

/-- What folding gives is as settled as the operands. -/
theorem App.fold_settled {n : Nat} {app : App} {ty : Ty} {v : Value} (hty : app.resultType = .ok ty)
    (hops : ∀ u ∈ app.operands, u.Settled n) (h : app.fold = some v) : v.Settled n := by
  -- A constant mentions no assignment; an operand is settled already.
  rcases App.fold_mem h with hv | hv
  · have hmasked := (Valuation.fold_same (Valuation.typed_zeros 0) (fun u hu => (hops u hu).1)
      hty h).1
    refine ⟨hmasked, hv.isClobbered, ?_⟩
    simp [hv.assignId?]
  · exact hops v hv

/-- An application is folded or named, and the value stands for its
result. -/
theorem Build.evaluateApp_simulates {app : App} {v : Value} {b b' : Builder}
    (h : evaluateApp app b = (.ok v, b')) :
    b'.regs? = b.regs? ∧ ∃ new, b.Extends b' new ∧
      ∀ c : Config W, Fits W b.issued b.current c.values →
        (∀ u ∈ app.operands, u.Settled b.issued) →
        ∃ c', Simulates new b b' c c' ∧ c'.moment = c.moment ∧ v.Settled b'.issued ∧
          app.apply (app.operands.map c.values.denote) = some (c'.values.denote v) := by
  obtain ⟨ty, hty, ⟨hfold, rfl⟩ | ⟨-, hdefine⟩⟩ := evaluateApp_eq_ok_iff.1 h
  · -- It folds, and there is no statement to run.
    refine ⟨rfl, [], .refl b', ?_⟩
    intro c hfits hops
    have hv := App.fold_settled hty hops hfold
    refine ⟨c, .refl hfits, rfl, hv, ?_⟩
    have hsame := (Valuation.fold_same hfits.typed (fun u hu => (hops u hu).1) hty hfold).2
    have hclear : ∀ u ∈ app.operands, u.isClobbered = false := fun u hu => (hops u hu).2.1
    -- Nothing is clobbered, so what the application may be it is.
    rw [← Valuation.yields_iff hclear, ← hsame]
    exact Valuation.denotes_denote hfits.typed v
  · obtain ⟨hregs, new, hext, hsim⟩ := define_simulates (W := W) hdefine
    refine ⟨hregs, new, hext, ?_⟩
    intro c hfits hops
    -- It is well typed, so it comes to a datum of its type on any data of the operands'
    -- types.
    have hargs : List.Forall₂ (fun u d => Datum.ty d = Value.ty u) app.operands
        (app.operands.map c.values.denote) := by
      rw [List.forall₂_map_right_iff, List.forall₂_same]
      exact fun u _ => Valuation.ty_denote hfits.typed u
    obtain ⟨d, hd, hdty⟩ := App.apply_eq_some hty hargs
    have heval (ν : Moment W) : (Rhs.app app).eval c.values ν = some (d, ν) := by
      rw [Rhs.eval, hd]
      rfl
    obtain ⟨c', hsim, hmoment, hv, hvd⟩ :=
      hsim c d c.moment hfits hops (heval _) hdty fun _ => heval
    exact ⟨c', hsim, hmoment, hv, by rw [hd, hvd]⟩

/-- So does an expression over settled values. -/
theorem Valuation.Agrees.expr_eval_eq {n : Nat} {ρ ρ' : Valuation} (h : ρ.Agrees n ρ')
    {e : Expr Value} (he : e.All (Value.Settled n)) :
    e.eval (fun u => some (ρ'.denote u)) = e.eval fun u => some (ρ.denote u) := by
  induction e with
  | leaf u => simp only [Expr.eval, h.denote_eq he]
  | unary op arg ih => simp only [Expr.eval, ih he]
  | ext op arg width ih => simp only [Expr.eval, ih he]
  | binary op left right ihl ihr => simp only [Expr.eval, ihl he.1, ihr he.2]
  | select cond onTrue onFalse ihc iht ihf =>
    simp only [Expr.eval, ihc he.1, iht he.2.1, ihf he.2.2]

/-- Construction works out expressions over settled values and comes to
the values `vs`: once the statements it added have been run, these
values stand for what the expressions come to. -/
def Computes (W : World m img) (es : List (Expr Value)) (b : Builder) (vs : List Value)
    (b' : Builder) : Prop :=
  b'.regs? = b.regs? ∧ ∃ new, b.Extends b' new ∧
    ∀ c : Config W, Fits W b.issued b.current c.values →
      (∀ e ∈ es, e.All (Value.Settled b.issued)) →
      ∃ c', Simulates new b b' c c' ∧ c'.moment = c.moment ∧
        (∀ v ∈ vs, v.Settled b'.issued) ∧
        es.map (Expr.eval fun u => some (c.values.denote u)) =
          vs.map fun v => some (c'.values.denote v)

namespace Computes

variable {e : Expr Value} {es : List (Expr Value)} {v : Value} {vs : List Value}
  {b b₁ b' : Builder}

/-- Nothing is to be worked out. -/
theorem nil (b : Builder) : Computes W [] b [] b :=
  ⟨rfl, [], .refl b, fun c hfits _ => ⟨c, .refl hfits, rfl, by simp, rfl⟩⟩

/-- A leaf is its own value. -/
theorem leaf (b : Builder) (v : Value) : Computes W [.leaf v] b [v] b :=
  ⟨rfl, [], .refl b, fun c hfits hes => ⟨c, .refl hfits, rfl,
    by simpa [Expr.All] using hes, rfl⟩⟩

/-- One expression after the other: what was worked out first keeps its
datum. -/
theorem cons (h : Computes W [e] b [v] b₁) (h' : Computes W es b₁ vs b') :
    Computes W (e :: es) b (v :: vs) b' := by
  obtain ⟨hregs, new, hext, hsim⟩ := h
  obtain ⟨hregs', more, hext', hsim'⟩ := h'
  refine ⟨hregs'.trans hregs, new ++ more, hext.trans hext', ?_⟩
  intro c hfits hes
  have he : e.All (Value.Settled b.issued) := hes e List.mem_cons_self
  have hrest : ∀ e' ∈ es, e'.All (Value.Settled b.issued) := fun e' he' =>
    hes e' (List.mem_cons_of_mem e he')
  obtain ⟨c₁, hc₁, hmoment, hv, heval⟩ := hsim c hfits (by simpa using he)
  obtain ⟨c₂, hc₂, hmoment', hvs, hevals⟩ := hsim' c₁ hc₁.fits fun e' he' =>
    (hrest e' he').imp fun _ hu => hu.mono hext.issued_le
  have hv : v.Settled b₁.issued := by simpa using hv
  have hfirst : e.eval (fun u => some (c.values.denote u)) = some (c₂.values.denote v) := by
    rw [hc₂.agrees.denote_eq hv]
    simpa using heval
  -- The statements for the first expression change nothing for the others.
  have hothers : es.map (Expr.eval fun u => some (c.values.denote u)) =
      es.map (Expr.eval fun u => some (c₁.values.denote u)) :=
    List.map_congr_left fun e' he' => (hc₁.agrees.expr_eval_eq (hrest e' he')).symm
  refine ⟨c₂, hc₁.trans hext.issued_le hc₂, hmoment'.trans hmoment, ?_, ?_⟩
  · intro u hu
    rcases List.mem_cons.1 hu with rfl | hu
    · exact hv.mono hext'.issued_le
    · exact hvs u hu
  · rw [List.map_cons, List.map_cons, hfirst, hothers, hevals]

/-- An application of what was worked out. -/
theorem app {a : App} (h : Computes W es b a.operands b₁)
    (happ : Build.evaluateApp a b₁ = (.ok v, b'))
    (hall : ∀ p : Value → Prop, e.All p → ∀ e' ∈ es, e'.All p)
    (heval : ∀ (leaf : Value → Option Datum) (ds : List Datum),
      es.map (Expr.eval leaf) = ds.map some → e.eval leaf = a.apply ds) :
    Computes W [e] b [v] b' := by
  obtain ⟨hregs, new, hext, hsim⟩ := h
  obtain ⟨hregs', more, hext', hsim'⟩ := Build.evaluateApp_simulates (W := W) happ
  refine ⟨hregs'.trans hregs, new ++ more, hext.trans hext', ?_⟩
  intro c hfits he
  have he : e.All (Value.Settled b.issued) := he e List.mem_cons_self
  obtain ⟨c₁, hc₁, hmoment, hops, hevals⟩ := hsim c hfits (hall _ he)
  obtain ⟨c₂, hc₂, hmoment', hv, happly⟩ := hsim' c₁ hc₁.fits hops
  refine ⟨c₂, hc₁.trans hext.issued_le hc₂, hmoment'.trans hmoment, by simpa using hv, ?_⟩
  have hdata : es.map (Expr.eval fun u => some (c.values.denote u)) =
      (a.operands.map c₁.values.denote).map some := by
    rw [hevals, List.map_map]
    rfl
  rw [List.map_singleton, List.map_singleton, heval _ _ hdata, happly]

end Computes

/-- An expression tree comes to a value that stands for its datum.
Induction on the tree: the operands are worked out in order, and then the
application. -/
theorem Build.evaluate_computes {e : Expr Value} {v : Value} {b b' : Builder}
    (h : evaluate e b = (.ok v, b')) : Computes W [e] b [v] b' := by
  induction e generalizing v b b' with
  | leaf u =>
    rw [evaluate, pure_eq_ok_iff] at h
    obtain ⟨rfl, rfl⟩ := h
    exact .leaf b' v
  | unary op arg ih =>
    obtain ⟨x, b₁, harg, happ⟩ := bind_eq_ok_iff.1 h
    refine (ih harg).app happ (by simp [Expr.All]) fun leaf ds hds => ?_
    obtain ⟨d, _, rfl, hd, hnil⟩ := List.map_eq_cons_iff.1 hds.symm
    obtain rfl := List.map_eq_nil_iff.1 hnil
    simp [Expr.eval, App.apply, ← hd]
  | ext op arg width ih =>
    obtain ⟨x, b₁, harg, happ⟩ := bind_eq_ok_iff.1 h
    refine (ih harg).app happ (by simp [Expr.All]) fun leaf ds hds => ?_
    obtain ⟨d, _, rfl, hd, hnil⟩ := List.map_eq_cons_iff.1 hds.symm
    obtain rfl := List.map_eq_nil_iff.1 hnil
    simp [Expr.eval, App.apply, ← hd]
  | binary op left right ihl ihr =>
    obtain ⟨x, b₁, hleft, h⟩ := bind_eq_ok_iff.1 h
    obtain ⟨y, b₂, hright, happ⟩ := bind_eq_ok_iff.1 h
    refine ((ihl hleft).cons (ihr hright)).app happ (by simp [Expr.All]) fun leaf ds hds => ?_
    obtain ⟨d, _, rfl, hd, hrest⟩ := List.map_eq_cons_iff.1 hds.symm
    obtain ⟨d', _, rfl, hd', hnil⟩ := List.map_eq_cons_iff.1 hrest
    obtain rfl := List.map_eq_nil_iff.1 hnil
    simp [Expr.eval, App.apply, ← hd, ← hd']
  | select cond onTrue onFalse ihc iht ihf =>
    obtain ⟨c, b₁, hcond, h⟩ := bind_eq_ok_iff.1 h
    obtain ⟨x, b₂, htrue, h⟩ := bind_eq_ok_iff.1 h
    obtain ⟨y, b₃, hfalse, happ⟩ := bind_eq_ok_iff.1 h
    refine ((ihc hcond).cons ((iht htrue).cons (ihf hfalse))).app happ (by simp [Expr.All])
      fun leaf ds hds => ?_
    obtain ⟨d, _, rfl, hd, hrest⟩ := List.map_eq_cons_iff.1 hds.symm
    obtain ⟨d', _, rfl, hd', hrest'⟩ := List.map_eq_cons_iff.1 hrest
    obtain ⟨d'', _, rfl, hd'', hnil⟩ := List.map_eq_cons_iff.1 hrest'
    obtain rfl := List.map_eq_nil_iff.1 hnil
    simp [Expr.eval, App.apply, ← hd, ← hd', ← hd'']

end FlowRecovery
