import FlowRecovery.Proofs.OpenBlock
import FlowRecovery.Proofs.Scope.Build
import FlowRecovery.Proofs.Undo
import Mathlib.Data.List.Perm.Subperm

/-!
# `FlowRecovery.Proofs.Scope.Path`: recipes on their own path

A recipe keeps to its own path (`Recipe.OwnPath`) if it takes its values
from registers, literals and results of its own that it has not given up.
It may return to a checkpoint. After that it must not use what was bound
in between, and it must not return to a checkpoint that was taken in
between. The checkpoints of a branch arm are for that arm alone.

This file has the condition and what a step forward does under it: all
that is at hand stays known (`Recipe.Step.Builds.keeps`), no number is
handed out and no block is begun (`Recipe.Step.stays_of_run`). Returning to
a checkpoint is left to `FlowRecovery.Proofs.Scope.Recipe`.
-/

set_option autoImplicit false

namespace FlowRecovery

/-! ### Numbers and blocks -/

/-- Every number that has come back was handed out, and came back once. -/
structure Ledger.Sound (l : Ledger) : Prop where
  nodup : l.emitted.Nodup
  lt_next : ∀ i ∈ l.emitted, i < l.next

namespace Ledger.Sound

variable {l l' : Ledger}

/-- So no more blocks have been finished than numbers handed out. -/
theorem length_le (h : l.Sound) : l.emitted.length ≤ l.next := by
  have hsub : l.emitted ⊆ List.range l.next := fun i hi => List.mem_range.2 (h.lt_next i hi)
  have hle := (h.nodup.subperm hsub).length_le
  rwa [List.length_range] at hle

/-- A block that is accepted brings back a number that was out. -/
theorem push {b : Block} (h : l.Sound) (hpush : l.push b = .ok l') : l'.Sound := by
  obtain ⟨⟨hlt, hnew, -⟩, rfl⟩ := Ledger.push_eq_ok_iff.1 hpush
  exact ⟨List.nodup_cons.2 ⟨hnew, h.nodup⟩, List.forall_mem_cons.2 ⟨hlt, h.lt_next⟩⟩

/-- Handing out numbers does no harm. -/
theorem of_le (h : l.Sound) (hemitted : l'.emitted = l.emitted) (hle : l.next ≤ l'.next) :
    l'.Sound := by
  refine ⟨hemitted ▸ h.nodup, fun i hi => ?_⟩
  exact Nat.lt_of_lt_of_le (h.lt_next i (hemitted ▸ hi)) hle

end Ledger.Sound

/-- How many blocks have been begun: the finished ones and the open one. -/
def Builder.begun (b : Builder) : Nat :=
  b.ledger.emitted.length + b.current.toList.length

/-- No number is handed out on the way, and no other block is begun. -/
structure Builder.Stays (b b' : Builder) : Prop where
  next : b'.ledger.next = b.ledger.next
  begun : b'.begun = b.begun
  sound : b.ledger.Sound → b'.ledger.Sound

namespace Builder.Stays

variable {b b' b'' : Builder}

/-- One part after the other. -/
theorem trans (h : b.Stays b') (h' : b'.Stays b'') : b.Stays b'' :=
  ⟨h'.next.trans h.next, h'.begun.trans h.begun, fun hb => h'.sound (h.sound hb)⟩

/-- Work in the open block takes no number. -/
theorem of_continues {own : Prop} (h : b.Continues own b') : b.Stays b' := by
  have hopen : b'.current.toList.length = b.current.toList.length := by
    have hplace := congrArg (fun o => o.toList.length) h.place
    cases hcurrent : b.current <;> cases hcurrent' : b'.current <;>
      simp_all
  refine ⟨by rw [h.ledger], ?_, fun hb => h.ledger ▸ hb⟩
  rw [Builder.begun, Builder.begun, h.ledger, hopen]

/-- Closing turns the open block into a finished one. -/
theorem of_close {exit : RegFile → Exit} {i : BlockIndex} (h : Build.close exit b = (.ok i, b')) :
    b.Stays b' := by
  obtain ⟨blk, hblk, -, l, hpush, rfl⟩ := Build.close_eq_ok_iff.1 h
  have hsound := fun hb : b.ledger.Sound => hb.push hpush
  obtain ⟨-, rfl⟩ := Ledger.push_eq_ok_iff.1 hpush
  refine ⟨rfl, ?_, hsound⟩
  simp [Builder.begun, hblk]

/-- The end of an arm closes its block, unless that has been done. -/
theorem of_closeIfOpen {u : Unit} (h : Build.closeIfOpen b = (.ok u, b')) : b.Stays b' := by
  rcases Build.closeIfOpen_eq_ok_iff.1 h with ⟨-, rfl⟩ | ⟨i, hclose⟩
  · exact ⟨rfl, rfl, id⟩
  · exact of_close hclose

end Builder.Stays

/-- A split takes two numbers, and closes the open block. -/
theorem Builder.split_numbers {b b' : Builder} {cond : Value} {t f : BlockIndex} {regs : RegFile}
    (h : Build.split cond b = (.ok (t, f, regs), b')) :
    b'.ledger.next = b.ledger.next + 2 ∧ b'.begun = b.begun ∧
      (b.ledger.Sound → b'.ledger.Sound) := by
  obtain ⟨blk, hblk, -, -, -, l, hpush, rfl⟩ := Build.split_eq_ok_iff.1 h
  have hsound (hb : b.ledger.Sound) : l.Sound := by
    have htaken : Ledger.Sound { b.ledger with next := b.ledger.next + 2 } :=
      hb.of_le rfl (Nat.le_add_right _ _)
    exact htaken.push hpush
  obtain ⟨-, rfl⟩ := Ledger.push_eq_ok_iff.1 hpush
  refine ⟨rfl, ?_, hsound⟩
  simp [Builder.begun, hblk]

/-- Work in the open block loses nothing. -/
theorem Builder.Continues.since {own : Prop} {b b' : Builder} (h : b.Continues own b') :
    b.Since b' :=
  ⟨h.issued_le, Nat.le_of_eq (by rw [h.ledger]), h.ledger ▸ .refl _⟩

namespace Recipe

/-! ### Recipes on their own path -/

/-- What a recipe has given up on its way. -/
structure Path where
  /-- The names whose last binding was undone. -/
  stale : List String := []
  /-- The checkpoints that can be returned to, the newest first, and the
  names that are stale after the return. -/
  marks : List (String × List String) := []
deriving DecidableEq, Repr

namespace Path

/-- The name is bound. It will be stale after a return to a checkpoint that
was taken before. -/
def bind (path : Path) (name : String) : Path where
  stale := path.stale.filter (· ≠ name)
  marks := path.marks.map fun mark => (mark.1, name :: mark.2)

/-- A checkpoint is taken. An older one of the same name is forgotten. -/
def save (path : Path) (name : String) : Path :=
  { path with marks := (name, path.stale) :: path.marks.filter (·.1 ≠ name) }

/-- A checkpoint is returned to. Those taken since are given up. -/
def restore (path : Path) (name : String) : Path :=
  match path.marks.dropWhile (·.1 ≠ name) with
  | [] => path
  | mark :: older => { stale := mark.2, marks := mark :: older }

/-- Others have taken checkpoints of these names. -/
def without (path : Path) (names : List String) : Path :=
  { path with marks := path.marks.filter fun mark => !names.contains mark.1 }

/-- The path after a step. -/
def after (path : Path) : Step → Path
  | .bind name _ | .load name _ _ | .prim name _ _ _ _ => path.bind name
  | .save name => path.save name
  | .restore name => path.restore name
  | .set .. | .setIp _ | .advance | .store .. | .emit _ | .arch .. | .close _ | .fail _ | .moveTo _
  | .look => path

end Path

/-- The leaf names no assignment by itself and no result that was undone. -/
def Leaf.OwnPath (stale : List String) : Leaf → Prop
  | .value v => v.assignId? = none
  | .temp name => name ∉ stale
  | .reg _ | .undecodable _ => True

/-- The exit reads no result that was undone. -/
def Closing.OwnPath (stale : List String) : Closing → Prop
  | .fetch | .failed .. => True
  | .branch cond _ _ => cond.All (Leaf.OwnPath stale)
  | .arch _ args => ∀ e ∈ args, e.All (Leaf.OwnPath stale)

/-- The step takes values from registers, literals and results that were
not undone, emits no assignment of its own, and returns to no checkpoint
that has been given up. -/
def Step.OwnPath (path : Path) : Step → Prop
  | .bind _ e | .load _ e _ | .set _ e => e.All (Leaf.OwnPath path.stale)
  | .store addr value => addr.All (Leaf.OwnPath path.stale) ∧ value.All (Leaf.OwnPath path.stale)
  | .prim _ _ args _ _ | .arch _ args => ∀ e ∈ args, e.All (Leaf.OwnPath path.stale)
  | .emit s => s.assignId? = none ∧ s.usedIds = []
  | .close c => c.OwnPath path.stale
  | .restore name => name ∈ path.marks.map Prod.fst
  | .setIp _ | .advance | .fail _ | .moveTo _ | .save _ | .look => True

/-- The checkpoint that the step takes. -/
def Step.saves : Step → List String
  | .save name => [name]
  | _ => []

/-- The checkpoints that the recipe takes, those of its arms included. -/
def saves : Recipe → List String
  | .done => []
  | .step s rest => s.saves ++ rest.saves
  | .branch _ onTrue onFalse rest => onTrue.saves ++ onFalse.saves ++ rest.saves

/-- All steps of the recipe keep to its own path. An arm returns to no
checkpoint from before its branch. -/
def OwnPath : Path → Recipe → Prop
  | _, .done => True
  | path, .step s rest => s.OwnPath path ∧ OwnPath (path.after s) rest
  | path, .branch cond onTrue onFalse rest =>
    cond.All (Leaf.OwnPath path.stale) ∧ OwnPath { path with marks := [] } onTrue ∧
      OwnPath { path with marks := [] } onFalse ∧
      OwnPath (path.without (onTrue.saves ++ onFalse.saves)) rest

variable {site : Site} {temps temps' : Temps} {known : List Value} {n₀ : Nat} {b b' : Builder}
  {stale : List String} {path : Path}

/-! ### Steps forward -/

/-- What is bound to a name that is not stale is known. -/
def Temps.Seen (known : List Value) (b : Builder) (stale : List String) (temps : Temps) : Prop :=
  ∀ name v, temps.lookup name = some v → name ∉ stale → b.Sees known v

/-- What is known stays known. -/
theorem Temps.Seen.leads (h : Temps.Seen known b stale temps) (hleads : b.Leads known b') :
    Temps.Seen known b' stale temps :=
  fun name v hv hname => (h name v hv hname).leads hleads

/-- A name that is bound is no longer stale. -/
theorem Temps.Seen.bind (h : Temps.Seen known b path.stale temps) (name : String) {v : Value}
    (hv : b.Sees known v) : Temps.Seen known b (path.bind name).stale ((name, v) :: temps) := by
  intro other u hu hother
  rw [List.lookup_cons] at hu
  by_cases hname : other = name
  · rw [hname, beq_self_eq_true] at hu
    cases hu
    exact hv
  · rw [beq_false_of_ne hname] at hu
    refine h other u hu fun hstale => hother ?_
    exact List.mem_filter.2 ⟨hstale, decide_eq_true hname⟩

/-- What a leaf stands for is known. -/
theorem Leaf.held?_sees (hb : b.Rooted known n₀) (htemps : Temps.Seen known b stale temps)
    {l : Leaf} (hl : l.OwnPath stale) {v : Value} (h : l.held? temps b = some v) :
    b.Sees known v := by
  cases l with
  | value u =>
    cases h
    exact .of_constant hl
  | reg r =>
    obtain ⟨regs, hregs, hv⟩ := Option.bind_eq_some_iff.1 h
    obtain ⟨blk, hblk, rfl⟩ := Option.map_eq_some_iff.1 hregs
    exact fun _ => hb.regs blk hblk v (List.mem_of_getElem? hv)
  | temp name => exact htemps name v h hl
  | undecodable reason => cases h

/-- What is looked up in a term is known, leaf by leaf. -/
theorem resolve_sees (hb : b.Rooted known n₀) (htemps : Temps.Seen known b stale temps) {e : Term}
    (he : e.All (Leaf.OwnPath stale)) {e' : Expr Value}
    (h : e.resolve (Leaf.held? temps b) = some e') : e'.All (b.Sees known) := by
  have hresolves := Expr.resolves_of_resolve h
  clear h
  induction hresolves with
  | leaf hv => exact Leaf.held?_sees hb htemps he hv
  | unary _ _ ih | ext _ _ _ ih => exact ih he
  | binary _ _ _ ihl ihr => exact ⟨ihl he.1, ihr he.2⟩
  | select _ _ _ ihc iht ihf => exact ⟨ihc he.1, iht he.2.1, ihf he.2.2⟩

/-- A term is evaluated. -/
theorem Evaluates.keeps {e : Term} {v : Value} (h : Evaluates temps e b v b')
    (he : e.All (Leaf.OwnPath stale)) (hb : b.Rooted known n₀)
    (htemps : Temps.Seen known b stale temps) :
    Build.Keeps known n₀ b b' ∧ b'.Sees known v := by
  obtain ⟨e', hresolve, heval⟩ := h
  exact Build.evaluate_keeps hb (resolve_sees hb htemps he hresolve) heval

/-- Terms are evaluated one after the other. Induction on the list. -/
theorem EvaluatesAll.keeps {es : List Term} {vs : List Value} (h : EvaluatesAll temps es b vs b')
    (hes : ∀ e ∈ es, e.All (Leaf.OwnPath stale)) (hb : b.Rooted known n₀)
    (htemps : Temps.Seen known b stale temps) :
    Build.Keeps known n₀ b b' ∧ ∀ v ∈ vs, b'.Sees known v := by
  induction es generalizing b vs with
  | nil =>
    obtain ⟨rfl, rfl⟩ := h
    exact ⟨.refl hb, fun _ hv => absurd hv List.not_mem_nil⟩
  | cons e rest ih =>
    obtain ⟨v, b₁, vs', hv, hrest, rfl⟩ := h
    obtain ⟨hkeeps, hsees⟩ := hv.keeps (hes e List.mem_cons_self) hb htemps
    obtain ⟨hkeeps', hsees'⟩ := ih hrest (fun e he => hes e (List.mem_cons_of_mem _ he))
      hkeeps.rooted (htemps.leads hkeeps.leads)
    refine ⟨hkeeps.trans hkeeps', fun u hu => ?_⟩
    cases hu with
    | head => exact hsees.leads hkeeps'.leads
    | tail _ hu => exact hsees' u hu

/-- An exit that a recipe makes reads known values. -/
theorem Closing.Builds.keeps {c : Closing} {exit : RegFile → Exit} (h : c.Builds temps b exit b')
    (hc : c.OwnPath stale) (hb : b.Rooted known n₀) (htemps : Temps.Seen known b stale temps) :
    Build.Keeps known n₀ b b' ∧ ∀ blk, b'.current = some blk →
      ∀ v ∈ (exit blk.regs).values, v.Known (b'.scope known) := by
  cases h with
  | fetch => exact ⟨.refl hb, hb.regs⟩
  | failed => exact ⟨.refl hb, hb.regs⟩
  | branch hcond =>
    obtain ⟨hkeeps, hsees⟩ := hcond.keeps hc hb htemps
    refine ⟨hkeeps, fun blk hblk v hv => ?_⟩
    rw [List.mem_singleton.1 hv]
    exact hsees (by simp [hblk])
  | arch hargs =>
    obtain ⟨hkeeps, hsees⟩ := hargs.keeps hc hb htemps
    refine ⟨hkeeps, fun blk hblk v hv => ?_⟩
    cases List.mem_append.1 hv with
    | inl hreg => exact hkeeps.rooted.regs blk hblk v hreg
    | inr harg => exact hsees v harg (by simp [hblk])

/-- One step forward: all that the builder holds stays known, and so do
the temporaries. -/
theorem Step.Builds.keeps {s : Step} (h : s.Builds site temps b temps' b') (hs : s.OwnPath path)
    (hb : b.Rooted known n₀) (htemps : Temps.Seen known b path.stale temps) :
    Build.Keeps known n₀ b b' ∧ Temps.Seen known b' (path.after s).stale temps' := by
  -- Temporaries from before the step stay known as the builder goes on.
  have hkept {b' : Builder} (hkeeps : Build.Keeps known n₀ b b') :
      Build.Keeps known n₀ b b' ∧ Temps.Seen known b' path.stale temps :=
    ⟨hkeeps, htemps.leads hkeeps.leads⟩
  have hbound {b' : Builder} {name : String} {v : Value} (hkeeps : Build.Keeps known n₀ b b')
      (hv : b'.Sees known v) :
      Build.Keeps known n₀ b b' ∧ Temps.Seen known b' (path.bind name).stale ((name, v) :: temps) :=
    ⟨hkeeps, (htemps.leads hkeeps.leads).bind name hv⟩
  have hip (addr : Word) : b.Sees known (site.machine.addr addr) :=
    .of_constant rfl
  cases h with
  | bind hv =>
    obtain ⟨hkeeps, hsees⟩ := hv.keeps hs hb htemps
    exact hbound hkeeps hsees
  | load ha hload =>
    obtain ⟨hkeeps, hsees⟩ := ha.keeps hs hb htemps
    obtain ⟨hkeeps', hsees'⟩ := Build.load_keeps hkeeps.rooted hsees hload
    exact hbound (hkeeps.trans hkeeps') hsees'
  | prim hargs hprim =>
    obtain ⟨hkeeps, hsees⟩ := hargs.keeps hs hb htemps
    obtain ⟨hkeeps', hsees'⟩ := Build.define_keeps hprim hkeeps.rooted hsees
    exact hbound (hkeeps.trans hkeeps') hsees'
  | set hv hset =>
    obtain ⟨hkeeps, hsees⟩ := hv.keeps hs hb htemps
    exact hkept (hkeeps.trans (Build.setRegister_keeps hkeeps.rooted hsees hset))
  | setIp hset => exact hkept (Build.setRegister_keeps hb (hip _) hset)
  | advance hset => exact hkept (Build.setRegister_keeps hb (hip _) hset)
  | store ha hv hstore =>
    obtain ⟨hkeeps₁, ha⟩ := ha.keeps hs.1 hb htemps
    obtain ⟨hkeeps₂, hv⟩ := hv.keeps hs.2 hkeeps₁.rooted (htemps.leads hkeeps₁.leads)
    have hstore := Build.store_keeps hkeeps₂.rooted (ha.leads hkeeps₂.leads) hv hstore
    exact hkept ((hkeeps₁.trans hkeeps₂).trans hstore)
  | emit hemit =>
    refine hkept (Build.emit_keeps hemit hb (fun v hv => .of_constant ?_) hs.1)
    exact List.filterMap_eq_nil_iff.1 hs.2 v hv
  | arch hargs hemit =>
    obtain ⟨hkeeps, hsees⟩ := hargs.keeps hs hb htemps
    exact hkept (hkeeps.trans (Build.emit_keeps hemit hkeeps.rooted hsees rfl))
  | close hc hclose =>
    obtain ⟨hkeeps, hexit⟩ := hc.keeps hs hb htemps
    exact hkept (hkeeps.trans (Build.close_keeps hclose hkeeps.rooted hexit))
  | moveTo =>
    refine hkept ⟨hb.congr rfl rfl (Nat.le_refl _), ?_⟩
    exact ⟨List.Subset.refl _, fun h => ⟨h, List.Subset.refl _⟩⟩
  | save => exact hkept (.refl hb)
  | look => exact hkept (.refl hb)

/-! ### Steps forward, counted -/

/-- Evaluating a term is work in the open block. -/
theorem Evaluates.continues {e : Term} {v : Value} (h : Evaluates temps e b v b') :
    b.Continues False b' := by
  obtain ⟨e', -, heval⟩ := h
  have hlocal : Build.IsLocal False (Build.evaluate e') := .evaluate e'
  have hcontinues := hlocal.continues b
  rwa [heval] at hcontinues

/-- So is evaluating a list of terms. -/
theorem EvaluatesAll.continues {es : List Term} {vs : List Value}
    (h : EvaluatesAll temps es b vs b') : b.Continues False b' := by
  induction es generalizing b vs with
  | nil =>
    obtain ⟨-, rfl⟩ := h
    exact .refl _
  | cons e rest ih =>
    obtain ⟨v, b₁, vs', hv, hrest, -⟩ := h
    exact hv.continues.trans (ih hrest)

/-- So is evaluating what an exit mentions. -/
theorem Closing.Builds.continues {c : Closing} {exit : RegFile → Exit}
    (h : c.Builds temps b exit b') : b.Continues False b' := by
  cases h with
  | fetch | failed => exact .refl _
  | branch hcond => exact hcond.continues
  | arch hargs => exact hargs.continues

variable {p p' : Progress}

/-- A step forward hands out no number and begins no block. -/
theorem Step.stays_of_run {s : Step} {out : Outcome} (hs : ∀ name, s ≠ .restore name)
    (h : s.run site temps p = (.ok (temps', out), p')) : p.builder.Stays p'.builder := by
  -- All other steps are work in the open block.
  have hlocal (hopen : s.StaysOpen) : p.builder.Stays p'.builder := by
    have hlocal : IsLocal False (s.run site temps) := Step.local_run hopen False.elim
    have hcontinues := hlocal.continues p
    rw [h] at hcontinues
    exact .of_continues hcontinues
  cases s with
  | close c =>
    cases Step.builds_of_run hs h with
    | close hc hclose => exact (Builder.Stays.of_continues hc.continues).trans (.of_close hclose)
  | restore name => exact absurd rfl (hs name)
  | bind | load | prim | set | setIp | advance | store | emit | arch | fail | moveTo | save
  | look => exact hlocal trivial

/-- A step forward loses nothing. -/
theorem Step.since_of_run {s : Step} {out : Outcome} (hs : ∀ name, s ≠ .restore name)
    (h : s.run site temps p = (.ok (temps', out), p')) : p.builder.Since p'.builder := by
  have hgrows : Grows (fun _ => True) (s.run site temps) := Step.run_grows hs
  obtain ⟨hadvances, -⟩ := hgrows p fun _ _ => trivial
  rw [h] at hadvances
  exact hadvances.since

/-- A step forward binds a name, or leaves the temporaries alone. -/
theorem Step.Builds.binds {s : Step} (h : s.Builds site temps b temps' b')
    (hs : ∀ name, s ≠ .save name) (path : Path) :
    path.after s = path ∧ temps' = temps ∨
      ∃ name v, path.after s = path.bind name ∧ temps' = (name, v) :: temps := by
  cases h with
  | bind | load | prim => exact Or.inr ⟨_, _, rfl, rfl⟩
  | set | setIp | advance | store | emit | arch | close | moveTo | look => exact Or.inl ⟨rfl, rfl⟩
  | save => exact absurd rfl (hs _)

end Recipe

end FlowRecovery
