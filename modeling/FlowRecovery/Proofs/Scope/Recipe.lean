import FlowRecovery.Proofs.Scope.Path

/-!
# `FlowRecovery.Proofs.Scope.Recipe`: recipes stay in scope

If a recipe on its own path succeeds, all that the builder holds is still
known (`Recipe.start_whole`). The steps forward are simple: each of them
keeps what is known. Returning to a checkpoint is not. It drops the blocks
that were finished since, but the arms of a branch that is undone stay in
the queue, and their registers may hold results that are gone.

Such a recipe does not succeed, and the proof is a count. A number is
handed out for every block, so there are as many numbers as there are blocks
and waiting arms (`Stage.Accounted`). If arms are left over, there are more
of them than numbers. Nothing that a recipe does on its own path makes up
for that (`Stage.Follows`), and at the end every block would need a number
of its own (`Ledger.Sound.length_le`). So the invariant of a run says what
is known only as long as the numbers keep up (`Stage.Sound`).

Which checkpoints a path can return to is known from the recipe alone, and
the run has a stage for each of them (`Marked`).
-/

set_option autoImplicit false

namespace FlowRecovery

namespace Recipe

variable {site : Site} {temps temps' : Temps} {known : List Value} {n₀ : Nat} {b b' : Builder}
  {stale : List String} {path : Path} {p p' : Progress}

/-! ### Stages of a run -/

/-- What a return to a checkpoint looks at: the builder and the queue. -/
structure Stage where
  builder : Builder
  pending : List Arm

/-- The stage at which a run is. -/
def Progress.stage (p : Progress) : Stage := ⟨p.builder, p.pending⟩

/-- The arm keeps to its own path. If all arms are `sure` to have their
numbers, it starts from known values. -/
structure Arm.Rooted (sure : Prop) (outer : List Value) (arm : Arm) : Prop where
  regs : sure → ∀ v ∈ arm.regs.values, v.Known outer
  path : ∃ stale, arm.body.OwnPath { stale } ∧
    (sure → ∀ name v, arm.temps.lookup name = some v → name ∉ stale → v.Known outer)

/-- An arm that waits needs to know less if it is sure of less, and may
know more. -/
theorem Arm.Rooted.imp {sure sure' : Prop} {outer outer' : List Value} {arm : Arm}
    (h : arm.Rooted sure outer) (himp : sure' → sure ∧ outer ⊆ outer') :
    arm.Rooted sure' outer' := by
  obtain ⟨stale, hbody, htemps⟩ := h.path
  refine ⟨fun hsure v hv => ?_, stale, hbody, fun hsure name v hv hname => ?_⟩
  · exact (h.regs (himp hsure).1 v hv).mono (himp hsure).2
  · exact (htemps (himp hsure).1 name v hv hname).mono (himp hsure).2

namespace Stage

/-- There are as many numbers as blocks and waiting arms. -/
def Accounted (s : Stage) : Prop :=
  s.builder.ledger.next = s.builder.begun + s.pending.length

/-- The invariant of a run. Numbers never run ahead of the blocks and the
arms, and as long as they keep up, all that is at hand is known. Outside of
arms (`top`) nothing is left in the queue. -/
structure Sound (known : List Value) (n₀ : Nat) (top : Prop) (s : Stage) : Prop where
  ledger : s.builder.ledger.Sound
  covered : s.builder.ledger.next ≤ s.builder.begun + s.pending.length
  builder : s.Accounted → s.builder.Rooted known n₀
  pending : ∀ arm ∈ s.pending, arm.Rooted s.Accounted (s.builder.outer known)
  settled : top → s.pending = [] ∧ s.Accounted

/-- From one stage of a run to a later one. Once there are too few numbers
there always will be. -/
structure Later (known : List Value) (q s : Stage) : Prop where
  since : q.builder.Since s.builder
  accounted : s.Accounted → q.Accounted
  leads : s.Accounted → q.builder.Leads known s.builder

/-- A later stage from which the run can return to the earlier one. The
arms that waited still do, and no block was begun without a number. -/
structure Follows (known : List Value) (q s : Stage) : Prop extends Later known q s where
  pending : q.pending <+: s.pending
  begun : s.builder.begun + q.builder.ledger.next ≤ q.builder.begun + s.builder.ledger.next

variable {q s s' : Stage} {top : Prop}

/-- A stage is later than itself. -/
theorem Later.refl (s : Stage) : Later known s s := ⟨.refl _, id, fun _ => .refl _⟩

/-- Later stages of later stages. -/
theorem Later.trans (h : Later known q s) (h' : Later known s s') : Later known q s' :=
  ⟨h.since.trans h'.since, fun hs => h.accounted (h'.accounted hs),
    fun hs => (h.leads (h'.accounted hs)).trans (h'.leads hs)⟩

/-- A stage follows itself. -/
theorem Follows.refl (s : Stage) : Follows known s s :=
  ⟨.refl s, List.prefix_rfl, Nat.le_refl _⟩

/-- What follows can be followed. The counts add up. -/
theorem Follows.trans (h : Follows known q s) (h' : Follows known s s') : Follows known q s' := by
  refine ⟨h.toLater.trans h'.toLater, h.pending.trans h'.pending, ?_⟩
  have hbegun := h.begun
  have hbegun' := h'.begun
  omega

/-- With no block open and no arm waiting, all numbers are accounted for:
there are not more blocks than numbers. -/
theorem Sound.accounted (h : s.Sound known n₀ top) (hclosed : s.builder.current = none)
    (hpending : s.pending = []) : s.Accounted := by
  have hle := h.ledger.length_le
  have hcovered := h.covered
  simp only [Accounted, Builder.begun, hclosed, hpending, Option.toList_none, List.length_nil]
    at hcovered ⊢
  exact Nat.le_antisymm hcovered hle

/-- A part that stays with its block and leaves the queue alone. -/
theorem Sound.build (h : s.Sound known n₀ top) (hstays : s.builder.Stays b)
    (hsince : s.builder.Since b) (hkeeps : s.Accounted → Build.Keeps known n₀ s.builder b) :
    Sound known n₀ top { s with builder := b } ∧ Follows known s { s with builder := b } := by
  have haccounted : Accounted { s with builder := b } ↔ s.Accounted := by
    rw [Accounted, Accounted, hstays.next, hstays.begun]
  have hnumbers : b.begun + s.builder.ledger.next = s.builder.begun + b.ledger.next := by
    rw [hstays.next, hstays.begun]
  refine ⟨⟨hstays.sound h.ledger, ?_, ?_, ?_, ?_⟩, ⟨hsince, haccounted.1, ?_⟩, List.prefix_rfl,
    Nat.le_of_eq hnumbers⟩
  · show b.ledger.next ≤ b.begun + s.pending.length
    rw [hstays.next, hstays.begun]
    exact h.covered
  · exact fun hs => (hkeeps (haccounted.1 hs)).rooted
  · refine fun arm harm => (h.pending arm harm).imp fun hs => ⟨haccounted.1 hs, ?_⟩
    exact (hkeeps (haccounted.1 hs)).leads.outer
  · exact fun htop => ⟨(h.settled htop).1, haccounted.2 (h.settled htop).2⟩
  · exact fun hs => (hkeeps (haccounted.1 hs)).leads

/-- Returning to a stage. If arms were queued since, they are too many now.
Else all is as it was. -/
theorem Sound.restore (h : s.Sound known n₀ top) (hq : q.Sound known n₀ top)
    (hfollows : Follows known q s) :
    Sound known n₀ top { s with builder := s.builder.rollback q.builder.checkpoint } ∧
      Follows known q { s with builder := s.builder.rollback q.builder.checkpoint } := by
  have hsince := hfollows.since.rollback (c := q.builder.checkpoint) (Nat.le_refl _) (Nat.le_refl _)
  generalize hb : s.builder.rollback q.builder.checkpoint = b at hsince ⊢
  rw [hfollows.since.rollback_eq] at hb
  have hnext : b.ledger.next = q.builder.ledger.next := by rw [← hb]
  have hbegun : b.begun = q.builder.begun := by rw [← hb]; rfl
  have houter : b.outer known = q.builder.outer known := by rw [← hb]; rfl
  -- The numbers are those of the earlier stage, so no arm can have come in between.
  have hsame (hs : Accounted { s with builder := b }) : s.pending = q.pending ∧ q.Accounted := by
    have hlength := hfollows.pending.length_le
    have hcovered := hq.covered
    change b.ledger.next = b.begun + s.pending.length at hs
    rw [hnext, hbegun] at hs
    have hpending : q.pending.length = s.pending.length :=
      Nat.le_antisymm hlength (Nat.le_of_add_le_add_left (hs ▸ hcovered))
    refine ⟨(hfollows.pending.eq_of_length hpending).symm, ?_⟩
    rw [Accounted, hpending]
    exact hs
  refine ⟨⟨?_, ?_, fun hs => ?_, fun arm harm => ?_, fun htop => ?_⟩,
    ⟨hsince, fun hs => (hsame hs).2, fun _ => ?_⟩, hfollows.pending, ?_⟩
  · exact hq.ledger.of_le (by rw [← hb]) (Nat.le_of_eq hnext.symm)
  · show b.ledger.next ≤ b.begun + s.pending.length
    rw [hnext, hbegun]
    exact Nat.le_trans hq.covered (Nat.add_le_add_left hfollows.pending.length_le _)
  · refine (hq.builder (hsame hs).2).congr ?_ ?_ ?_
    · rw [← hb]
    · rw [← hb]
    · rw [← hb]
      exact hfollows.since.issued_le
  · -- If no arm has come in between, the arms that wait are those of the earlier stage.
    -- Otherwise nothing is said of them.
    by_cases hs : Accounted { s with builder := b }
    · have harm := hq.pending arm ((hsame hs).1 ▸ harm)
      refine harm.imp fun _ => ⟨(hsame hs).2, ?_⟩
      show q.builder.outer known ⊆ b.outer known
      exact houter ▸ List.Subset.refl _
    · exact (h.pending arm harm).imp fun hs' => absurd hs' hs
  · obtain ⟨hnone, -⟩ := h.settled htop
    obtain ⟨hnone', hcounted⟩ := hq.settled htop
    rw [Accounted, hnone'] at hcounted
    refine ⟨hnone, ?_⟩
    show b.ledger.next = b.begun + s.pending.length
    rw [hnext, hbegun, hnone]
    exact hcounted
  · rw [← hb]
    exact ⟨List.Subset.refl _, fun hopen => ⟨hopen, List.Subset.refl _⟩⟩
  · show b.begun + q.builder.ledger.next ≤ q.builder.begun + b.ledger.next
    exact Nat.le_of_eq (by rw [hnext, hbegun])

end Stage

/-! ### Checkpoints -/

/-- The checkpoints of a path stand for stages of the run, each of them
later than the next older one, and the oldest later than `base`. -/
inductive Marked (known : List Value) (n₀ : Nat) (top : Prop) (base : Stage)
    (saved : List (String × Checkpoint)) (temps : Temps) :
    Stage → List (String × List String) → Prop
  | base {s : Stage} (h : base.Follows known s) : Marked known n₀ top base saved temps s []
  | mark {q s : Stage} {name : String} {stale : List String} {older : List (String × List String)}
      (hq : q.Sound known n₀ top) (h : q.Follows known s)
      (hsaved : saved.lookup name = some q.builder.checkpoint)
      (htemps : q.Accounted → Temps.Seen known q.builder stale temps)
      (holder : Marked known n₀ top base saved temps q older) :
      Marked known n₀ top base saved temps s ((name, stale) :: older)

namespace Marked

variable {top : Prop} {base s s' : Stage} {saved saved' : List (String × Checkpoint)}
  {marks : List (String × List String)}

/-- The present stage follows the first one. -/
theorem follows (h : Marked known n₀ top base saved temps s marks) : base.Follows known s := by
  induction h with
  | base h => exact h
  | mark _ h _ _ _ ih => exact ih.trans h

/-- The run goes on, with the same checkpoints. -/
theorem extend (h : Marked known n₀ top base saved temps s marks) (hs : s.Follows known s') :
    Marked known n₀ top base saved temps s' marks := by
  cases h with
  | base h => exact .base (h.trans hs)
  | mark hq h hsaved htemps holder => exact .mark hq (h.trans hs) hsaved htemps holder

/-- A name that is bound is stale after any return. -/
theorem bind (h : Marked known n₀ top base saved temps s marks) (name : String) (v : Value) :
    Marked known n₀ top base saved ((name, v) :: temps) s
      (marks.map fun mark => (mark.1, name :: mark.2)) := by
  induction h with
  | base h => exact .base h
  | mark hq h hsaved htemps _ ih =>
    refine .mark hq h hsaved (fun hcounted other u hu hother => ?_) ih
    rw [List.mem_cons, not_or] at hother
    rw [List.lookup_cons, beq_false_of_ne hother.1] at hu
    exact htemps hcounted other u hu hother.2

/-- Checkpoints that others may have replaced are left out. -/
theorem filter (h : Marked known n₀ top base saved temps s marks) (keep : String → Bool)
    (hkeep : ∀ name, keep name = true → saved'.lookup name = saved.lookup name) :
    Marked known n₀ top base saved' temps s (marks.filter fun mark => keep mark.1) := by
  induction h with
  | base h => exact .base h
  | @mark q s name stale older hq h hsaved htemps _ ih =>
    rw [List.filter_cons]
    split
    · rename_i hname
      exact .mark hq h ((hkeep name hname).trans hsaved) htemps ih
    · exact ih.extend h

/-- The stage behind one of the names. -/
theorem restore {name : String} (h : Marked known n₀ top base saved temps s marks)
    (hname : name ∈ marks.map Prod.fst) :
    ∃ q stale older, marks.dropWhile (·.1 ≠ name) = (name, stale) :: older ∧
      q.Sound known n₀ top ∧ q.Follows known s ∧
      saved.lookup name = some q.builder.checkpoint ∧
      (q.Accounted → Temps.Seen known q.builder stale temps) ∧
      Marked known n₀ top base saved temps q older := by
  induction h with
  | base => cases hname
  | @mark q s other stale older hq h hsaved htemps holder ih =>
    rw [List.dropWhile_cons]
    by_cases hother : other = name
    · subst hother
      exact ⟨q, stale, older, by simp, hq, h, hsaved, htemps, holder⟩
    · have hname : name ∈ older.map Prod.fst := by
        rw [List.map_cons, List.mem_cons] at hname
        exact hname.resolve_left fun hsame => hother hsame.symm
      obtain ⟨q', stale', older', hdrop, hq', hfollows, hrest⟩ := ih hname
      exact ⟨q', stale', older', by simpa [hother] using hdrop, hq', hfollows.trans h, hrest⟩

end Marked

/-- Where a run stands on a path. -/
structure Stands (known : List Value) (n₀ : Nat) (top : Prop) (base : Stage) (path : Path)
    (temps : Temps) (p : Progress) : Prop where
  sound : p.stage.Sound known n₀ top
  seen : p.stage.Accounted → Temps.Seen known p.builder path.stale temps
  marks : Marked known n₀ top base p.saved temps p.stage path.marks

namespace Stands

variable {top : Prop} {base : Stage}

/-- The start of a recipe without checkpoints. -/
theorem start (hp : p.stage.Sound known n₀ top)
    (htemps : p.stage.Accounted → Temps.Seen known p.builder stale temps) :
    Stands known n₀ top p.stage { stale } temps p :=
  ⟨hp, htemps, .base (.refl _)⟩

/-- Something was done that leads to a later stage, and left alone the
checkpoints of some names. -/
theorem later (keep : String → Bool) (h : Stands known n₀ top base path temps p)
    (hp' : p'.stage.Sound known n₀ top) (hfollows : p.stage.Follows known p'.stage)
    (hsaved : ∀ name, keep name = true → p'.saved.lookup name = p.saved.lookup name) :
    Stands known n₀ top base { path with marks := path.marks.filter fun mark => keep mark.1 } temps
      p' := by
  refine ⟨hp', fun hcounted => ?_, (h.marks.filter keep hsaved).extend hfollows⟩
  exact (h.seen (hfollows.accounted hcounted)).leads (hfollows.leads hcounted)

/-- One step of a recipe. -/
theorem step {s : Step} {out : Outcome} (h : Stands known n₀ top base path temps p)
    (hs : s.OwnPath path) (hrun : s.run site temps p = (.ok (temps', out), p')) :
    Stands known n₀ top base (path.after s) temps' p' := by
  -- A step forward, one that neither takes a checkpoint nor returns to one.
  have hforward (hsave : ∀ name, s ≠ .save name) (hrestore : ∀ name, s ≠ .restore name)
      (honward : s.Onward) : Stands known n₀ top base (path.after s) temps' p' := by
    have hbuilds := Step.builds_of_run hrestore hrun
    have hkeeps (hcounted : p.stage.Accounted) :=
      hbuilds.keeps hs (h.sound.builder hcounted) (h.seen hcounted)
    have honly : OnlyBuilds (s.run site temps) := Step.run_onlyBuilds honward
    obtain ⟨b, -, hp'⟩ := honly p
    rw [hrun] at hp'
    cases hp'
    obtain ⟨hsound, hfollows⟩ := h.sound.build (Step.stays_of_run hrestore hrun)
      (Step.since_of_run hrestore hrun) fun hcounted => (hkeeps hcounted).1
    refine ⟨hsound, fun hcounted => (hkeeps (hfollows.accounted hcounted)).2, ?_⟩
    have hmarks := h.marks.extend hfollows
    rcases hbuilds.binds hsave path with ⟨hpath, htemps⟩ | ⟨name, v, hpath, htemps⟩
    · rw [hpath, htemps]
      exact hmarks
    · rw [hpath, htemps]
      exact hmarks.bind name v
  cases s with
  | save name =>
    cases hrun
    refine ⟨h.sound, h.seen, .mark h.sound (.refl _) (List.lookup_cons_self ..) h.seen ?_⟩
    -- An older checkpoint of the same name cannot be found any more.
    refine h.marks.filter (fun other => decide (other ≠ name)) fun other hother => ?_
    rw [List.lookup_cons, beq_false_of_ne (of_decide_eq_true hother)]
  | restore name =>
    obtain ⟨q, stale, older, hdrop, hq, hfollows, hsaved, htemps, holder⟩ := h.marks.restore hs
    rw [Step.restore_apply, hsaved] at hrun
    obtain ⟨_, b, hrollback, hpure⟩ := build_bind_eq_ok_iff.1 hrun
    obtain ⟨heq, rfl⟩ := pure_eq_ok_iff.1 hpure
    cases heq
    obtain ⟨-, rfl⟩ := Build.rollback_eq_ok_iff.1 hrollback
    obtain ⟨hsound, hback⟩ := h.sound.restore hq hfollows
    have hpath : path.after (.restore name) = { stale, marks := (name, stale) :: older } := by
      simp only [Path.after, Path.restore, hdrop]
    rw [hpath]
    refine ⟨hsound, fun hcounted => ?_, .mark hq hback hsaved htemps holder⟩
    exact (htemps (hback.accounted hcounted)).leads (hback.leads hcounted)
  | bind | load | prim | set | setIp | advance | store | emit | arch | close | fail | moveTo
  | look => exact hforward (by simp) (by simp) trivial

end Stands

/-! ### Checkpoints that others take -/

/-- The checkpoint of this name is what it was. Outside of arms (`top`) no
arm that waits takes one of the name. -/
structure Progress.Holds (top : Prop) (name : String) (c : Option Checkpoint) (p : Progress) :
    Prop where
  saved : p.saved.lookup name = c
  pending : top → ∀ arm ∈ p.pending, arm.body.AllSteps (· ≠ .save name)

/-- A recipe that takes no checkpoint of this name. -/
theorem allSteps_of_not_mem_saves {name : String} {r : Recipe} (h : name ∉ r.saves) :
    r.AllSteps (· ≠ .save name) := by
  induction r with
  | done => trivial
  | step s rest ih =>
    rw [saves, List.mem_append, not_or] at h
    refine ⟨?_, ih h.2⟩
    rintro rfl
    exact h.1 List.mem_cons_self
  | branch cond onTrue onFalse rest iht ihf ihr =>
    rw [saves, List.mem_append, List.mem_append, not_or, not_or] at h
    exact ⟨iht h.1.1, ihf h.1.2, ihr h.2⟩

section Holds

variable {top : Prop} {name : String} {c : Option Checkpoint}

/-- What only builds takes no checkpoint. -/
theorem OnlyBuilds.preserves_holds {α : Type} {x : RunM α} (hx : OnlyBuilds x) :
    Preserves (Progress.Holds top name c) x := by
  intro p hp
  obtain ⟨b, -, hp'⟩ := hx p
  rw [hp']
  exact ⟨hp.saved, hp.pending⟩

/-- Neither does an operation of construction. -/
theorem preserves_holds_build {α : Type} (x : Build α) :
    Preserves (Progress.Holds top name c) (build x) := fun _ hp => ⟨hp.saved, hp.pending⟩

/-- A step that takes another checkpoint leaves this one alone. -/
theorem Step.preserves_holds {s : Step} (hs : s ≠ .save name) :
    Preserves (Progress.Holds top name c) (s.run site temps) := by
  cases s with
  | save other =>
    refine fun p hp => ⟨?_, hp.pending⟩
    have hother : name ≠ other := fun hsame => hs (hsame ▸ rfl)
    show List.lookup name ((other, p.builder.checkpoint) :: p.saved) = c
    rw [List.lookup_cons, beq_false_of_ne hother]
    exact hp.saved
  | restore other =>
    intro p hp
    rw [Step.restore_apply]
    cases p.saved.lookup other with
    | none => exact hp
    | some c => exact (preserves_holds_build _).bind (fun _ => .pure _) p hp
  | bind | load | prim | set | setIp | advance | store | emit | arch | close | fail | moveTo
  | look => exact OnlyBuilds.preserves_holds (Step.run_onlyBuilds trivial)

/-- So does a recipe, with what follows its splits. -/
theorem exec_preserves_holds (site : Site) {settle : RunM Unit}
    (hsettle : Preserves (Progress.Holds top name c) settle) {r : Recipe}
    (hr : r.AllSteps (· ≠ .save name)) (temps : Temps) :
    Preserves (Progress.Holds top name c) (exec site settle r temps) := by
  refine exec_preserves_of_allSteps (fun _ _ _ hp => ⟨hp.saved, hp.pending⟩)
    (fun _ _ => Step.preserves_holds) (fun e _ => (evalTerm_onlyBuilds e).preserves_holds)
    (fun _ => preserves_holds_build _) (fun v onTrue onFalse temps htrue hfalse => ?_) hr temps
  refine Preserves.bind ((preserves_holds_build _).bind fun arms p hp => ?_) fun _ => hsettle
  -- The new arms take no checkpoint of the name either.
  refine ⟨hp.saved, fun htop arm harm => ?_⟩
  rcases List.mem_append.1 harm with harm | harm
  · exact hp.pending htop arm harm
  · simp only [List.mem_cons, List.not_mem_nil, or_false] at harm
    rcases harm with rfl | rfl
    · exact htrue
    · exact hfalse

/-- A branch leaves the checkpoints of other names alone. -/
theorem Takes.lookup_saved {settle : RunM Unit} {onTrue onFalse : Recipe} {v : Value}
    (hsettle : ∀ name c, Preserves (Progress.Holds top name c) settle)
    (h : Takes site settle onTrue onFalse temps p p' v) (hp : top → p.pending = [])
    (hname : name ∉ onTrue.saves ++ onFalse.saves) :
    p'.saved.lookup name = p.saved.lookup name := by
  rw [List.mem_append, not_or] at hname
  have htrue := allSteps_of_not_mem_saves hname.1
  have hfalse := allSteps_of_not_mem_saves hname.2
  cases h with
  | @arm taken h =>
    have hbody : Recipe.AllSteps (· ≠ .save name) (if taken then onTrue else onFalse) := by
      cases taken with
      | true => exact htrue
      | false => exact hfalse
    have hexec : Preserves (Progress.Holds top name (p.saved.lookup name)) _ :=
      exec_preserves_holds site (hsettle name _) hbody temps
    have hp' := hexec p ⟨rfl, fun htop arm harm => by simp [hp htop] at harm⟩
    rw [h] at hp'
    exact hp'.saved
  | @split _ t f regs b _ _ h =>
    have hqueued : Progress.Holds top name (p.saved.lookup name)
        { p with
          builder := b, pending := p.pending ++ splitArms t f regs temps onTrue onFalse } := by
      refine ⟨rfl, fun htop arm harm => ?_⟩
      simp only [hp htop, splitArms, List.nil_append, List.mem_cons, List.not_mem_nil, or_false]
        at harm
      rcases harm with rfl | rfl
      · exact htrue
      · exact hfalse
    have hp' := hsettle name (p.saved.lookup name) _ hqueued
    rw [h] at hp'
    exact hp'.saved

/-- So does working off the queue. -/
theorem drain_preserves_holds (site : Site) :
    Preserves (Progress.Holds True name c) (drain site) := by
  refine drain_preserves (J := fun _ arm => arm.body.AllSteps (· ≠ .save name))
    (fun p _ hp => hp.pending trivial) (fun p pending hsub hp => ?_) (fun p arm harm hp => ?_)
  · exact ⟨hp.saved, fun htop arm harm => hp.pending htop arm (hsub harm)⟩
  · have hrun : Preserves (Progress.Holds True name c) (arm.run site) :=
      (preserves_holds_build _).bind fun _ =>
        (exec_preserves_holds site (.pure ()) harm arm.temps).bind fun _ => preserves_holds_build _
    exact hrun p hp

end Holds

/-! ### Recipes -/

/-- A split closes the block and queues both arms with the numbers that it
takes. -/
theorem split_sound {s : Stage} {top : Prop} {cond : Value} {t f : BlockIndex} {regs : RegFile}
    {onTrue onFalse : Recipe} (h : s.Sound known n₀ top)
    (hcond : s.Accounted → s.builder.Sees known cond)
    (htemps : s.Accounted → Temps.Seen known s.builder stale temps)
    (htrue : onTrue.OwnPath { stale }) (hfalse : onFalse.OwnPath { stale })
    (hsplit : Build.split cond s.builder = (.ok (t, f, regs), b)) :
    Stage.Sound known n₀ False ⟨b, s.pending ++ splitArms t f regs temps onTrue onFalse⟩ ∧
      s.Follows known ⟨b, s.pending ++ splitArms t f regs temps onTrue onFalse⟩ ∧
      b.current = none := by
  obtain ⟨hnext, hbegun, hledger⟩ := Builder.split_numbers hsplit
  have hopen : s.builder.current ≠ none := Build.split_isOpen hsplit
  have hgrows := Build.Grows.split cond s.builder
  rw [hsplit] at hgrows
  have hclosed : b.current = none := by
    obtain ⟨_, -, -, -, -, _, -, rfl⟩ := Build.split_eq_ok_iff.1 hsplit
    rfl
  -- Two numbers are taken, and two arms wait for them.
  have hlength : (s.pending ++ splitArms t f regs temps onTrue onFalse).length =
      s.pending.length + 2 := List.length_append
  have hcounts : Stage.Accounted ⟨b, s.pending ++ splitArms t f regs temps onTrue onFalse⟩ ↔
      s.Accounted := by
    rw [Stage.Accounted, Stage.Accounted, hnext, hbegun, hlength, ← Nat.add_assoc]
    exact Nat.add_right_cancel_iff
  have hkeeps (hcounted : s.Accounted) :=
    Build.split_keeps (h.builder hcounted) (hcond hcounted) hsplit
  refine ⟨⟨hledger h.ledger, ?_, ?_, ?_, False.elim⟩, ⟨⟨hgrows.since, hcounts.1, ?_⟩, ?_, ?_⟩,
    hclosed⟩
  · show b.ledger.next ≤ b.begun + _
    rw [hnext, hbegun, hlength, ← Nat.add_assoc]
    exact Nat.add_le_add_right h.covered 2
  · exact fun hcounted => (hkeeps (hcounts.1 hcounted)).1.rooted
  · intro arm harm
    cases List.mem_append.1 harm with
    | inl hold =>
      refine (h.pending arm hold).imp fun hcounted => ⟨hcounts.1 hcounted, ?_⟩
      exact (hkeeps (hcounts.1 hcounted)).1.leads.outer
    | inr hnew =>
      -- Both arms start from what was known at the split.
      have hregs : Stage.Accounted _ → ∀ v ∈ regs.values, v.Known (b.outer known) :=
        fun hcounted => (hkeeps (hcounts.1 hcounted)).2.2.2
      have htemps' : Stage.Accounted _ → ∀ name v, temps.lookup name = some v → name ∉ stale →
          v.Known (b.outer known) := fun hcounted name v hv hname =>
        (htemps (hcounts.1 hcounted) name v hv hname hopen).mono (hkeeps (hcounts.1 hcounted)).2.2.1
      simp only [splitArms, List.mem_cons, List.not_mem_nil, or_false] at hnew
      cases hnew with
      | inl hsame => exact hsame ▸ ⟨hregs, stale, htrue, htemps'⟩
      | inr hsame => exact hsame ▸ ⟨hregs, stale, hfalse, htemps'⟩
  · exact fun hcounted => (hkeeps (hcounts.1 hcounted)).1.leads
  · exact List.prefix_append _ _
  · show b.begun + s.builder.ledger.next ≤ s.builder.begun + b.ledger.next
    rw [hnext, hbegun]
    exact Nat.add_le_add_left (Nat.le_add_right _ _) _

/-- What happens once a split has queued its arms comes to a later stage of
the same kind. -/
def Settling (known : List Value) (n₀ : Nat) (top : Prop) (settle : RunM Unit) : Prop :=
  ∀ (s : Stage) (p p' : Progress), s.Sound known n₀ top → p.stage.Sound known n₀ False →
    s.Follows known p.stage → p.builder.current = none → settle p = (.ok (), p') →
    p'.stage.Sound known n₀ top ∧ s.Follows known p'.stage

/-- A recipe on its own path comes to a later stage. -/
theorem exec_sound {top : Prop} {base : Stage} {settle : RunM Unit}
    (hsettle : Settling known n₀ top settle)
    (hholds : ∀ name c, Preserves (Progress.Holds top name c) settle) {r : Recipe}
    (h : exec site settle r temps p = (.ok (), p')) (hr : r.OwnPath path)
    (hp : Stands known n₀ top base path temps p) :
    p'.stage.Sound known n₀ top ∧ base.Follows known p'.stage := by
  induction r generalizing temps path base p p' with
  | done =>
    cases h
    exact ⟨hp.sound, hp.marks.follows⟩
  | step s rest ih =>
    obtain ⟨temps', out, q, hrun, hrest⟩ := exec_step_eq_ok_iff.1 h
    have hq := hp.step hr.1 hrun
    exact ih hrest hr.2 ⟨hq.sound, hq.seen, hq.marks⟩
  | branch cond onTrue onFalse rest iht ihf ihr =>
    obtain ⟨hcond, htrue, hfalse, hrest⟩ := hr
    obtain ⟨v, b, q, hv, -, htakes, hexec⟩ := exec_branch_eq_ok h
    have hkeeps (hcounted : p.stage.Accounted) :=
      hv.keeps hcond (hp.sound.builder hcounted) (hp.seen hcounted)
    obtain ⟨hsound, hfollows⟩ := hp.sound.build (.of_continues hv.continues) hv.continues.since
      fun hcounted => (hkeeps hcounted).1
    -- Evaluating the condition has only added to what is known.
    have hseen : Stage.Accounted ⟨b, p.pending⟩ → Temps.Seen known b path.stale temps :=
      fun hcounted => (hp.seen (hfollows.accounted hcounted)).leads (hfollows.leads hcounted)
    have htaken : q.stage.Sound known n₀ top ∧ Stage.Follows known ⟨b, p.pending⟩ q.stage := by
      cases htakes with
      | @arm taken harm =>
        have hstart : Stands known n₀ top _ { stale := path.stale } temps
            { p with builder := b } := .start hsound hseen
        cases taken with
        | true => exact iht harm htrue hstart
        | false => exact ihf harm hfalse hstart
      | @split _ t f regs b' _ hsplit hsettled =>
        obtain ⟨hqueued, hsplits, hclosed⟩ := split_sound hsound
          (fun hcounted => (hkeeps (hfollows.accounted hcounted)).2) hseen htrue hfalse hsplit
        exact hsettle ⟨b, p.pending⟩ { p with
          builder := b', pending := p.pending ++ splitArms t f regs temps onTrue onFalse } q
          hsound hqueued hsplits hclosed hsettled
    -- The arms may have taken checkpoints, and those are lost to the rest.
    have hsaved (name : String) (hname : (!(onTrue.saves ++ onFalse.saves).contains name) = true) :
        q.saved.lookup name = p.saved.lookup name :=
      Takes.lookup_saved (p := { p with builder := b }) hholds htakes
        (fun htop => (hsound.settled htop).1) (by simpa using hname)
    have hq := hp.later (fun name => !(onTrue.saves ++ onFalse.saves).contains name) htaken.1
      (hfollows.trans htaken.2) hsaved
    exact ihr hexec hrest ⟨hq.sound, hq.seen, hq.marks⟩

/-- Inside an arm the new arms wait, and nothing happens. -/
theorem settling_pure : Settling known n₀ False (pure () : RunM Unit) := by
  intro s p p' _ hp hfollows _ h
  cases h
  exact ⟨hp, hfollows⟩

/-- At the end of an arm its block is closed with its own registers. -/
theorem closeIfOpen_keeps {u : Unit} (h : Build.closeIfOpen b = (.ok u, b'))
    (hb : b.Rooted known n₀) : Build.Keeps known n₀ b b' := by
  cases Build.closeIfOpen_eq_ok_iff.1 h with
  | inl hclosed =>
    rw [hclosed.2]
    exact .refl hb
  | inr hopen =>
    obtain ⟨i, hclose⟩ := hopen
    exact Build.close_keeps hclose hb hb.regs

/-- An arm begins the block that its number was taken for. -/
theorem enter_sound {arm : Arm} {rest : List Arm}
    (h : Stage.Sound known n₀ False ⟨b, arm :: rest⟩) (hclosed : b.current = none)
    (blk : OpenBlock) (hstmts : blk.stmts = []) (hmemo : blk.memo = [])
    (hregs : blk.regs = arm.regs) :
    Stage.Sound known n₀ False ⟨{ b with current := some blk }, rest⟩ ∧
      (Stage.Accounted ⟨{ b with current := some blk }, rest⟩ ↔
        Stage.Accounted ⟨b, arm :: rest⟩) := by
  have hbegun : Builder.begun { b with current := some blk } = b.begun + 1 := by
    simp [Builder.begun, hclosed]
  have hlength : Builder.begun { b with current := some blk } + rest.length =
      b.begun + (arm :: rest).length := by
    rw [hbegun, List.length_cons, Nat.add_assoc, Nat.add_comm 1]
  have hcounts : Stage.Accounted ⟨{ b with current := some blk }, rest⟩ ↔
      Stage.Accounted ⟨b, arm :: rest⟩ := by
    show b.ledger.next = _ ↔ b.ledger.next = _
    rw [hlength]
  refine ⟨⟨h.ledger, ?_, fun hcounted => ?_, fun other hother => ?_, False.elim⟩, hcounts⟩
  · exact hlength ▸ h.covered
  · refine Build.rooted_of_enter blk (h.builder (hcounts.1 hcounted)) hclosed hstmts hmemo ?_
    rw [hregs]
    exact (h.pending arm List.mem_cons_self).regs (hcounts.1 hcounted)
  · refine (h.pending other (List.mem_cons_of_mem _ hother)).imp fun hcounted => ?_
    exact ⟨hcounts.1 hcounted, List.Subset.refl _⟩

/-- One arm: it opens its block, carries out its body and closes. -/
theorem Arm.run_sound {arm : Arm} (h : arm.run site p = (.ok (), p'))
    (hp : Stage.Sound known n₀ False ⟨p.builder, arm :: p.pending⟩)
    (hclosed : p.builder.current = none) :
    p'.stage.Sound known n₀ False ∧ p'.builder.current = none ∧
      Stage.Later known ⟨p.builder, arm :: p.pending⟩ p'.stage := by
  obtain ⟨q, b, hexec, hclose, rfl⟩ := Arm.run_eq_ok_iff.1 h
  obtain ⟨hentered, hcounts⟩ := enter_sound hp hclosed
    { index := arm.index, addr := p.builder.instrAddr, regs := arm.regs } rfl rfl rfl
  obtain ⟨stale, hbody, htemps⟩ := (hp.pending arm List.mem_cons_self).path
  have hstart := Stands.start (p := { p with builder := { p.builder with current := some _ } })
    hentered fun hcounted name v hv hname =>
      .of_outer (htemps (hcounts.1 hcounted) name v hv hname)
  obtain ⟨hdone, hlater⟩ := exec_sound settling_pure (fun _ _ => .pure ()) hexec hbody hstart
  have hgrows := Build.Grows.closeIfOpen q.builder
  rw [hclose] at hgrows
  have hnone := Build.closeIfOpen_current hclose
  obtain ⟨hsound, hcloses⟩ := hdone.build (.of_closeIfOpen hclose) hgrows.since
    fun hcounted => closeIfOpen_keeps hclose (hdone.builder hcounted)
  have hall := hlater.trans hcloses
  -- The block of the arm is closed, so only what it passes on counts.
  refine ⟨hsound, hnone, ⟨hall.since.issued_le, hall.since.next_le, hall.since.ledger⟩,
    fun hcounted => hcounts.1 (hall.accounted hcounted), fun hcounted => ?_⟩
  exact ⟨(hall.leads hcounted).outer, fun hopen => absurd hnone hopen⟩

/-- Working off the queue. At its end no number is left over, because no
arm is. -/
theorem drain_sound (h : drain site p = (.ok (), p')) (hp : p.stage.Sound known n₀ False)
    (hclosed : p.builder.current = none) :
    p'.stage.Sound known n₀ True ∧ Stage.Later known p.stage p'.stage := by
  have hall := drain_induction site (motive := fun p result => ∀ p', result = (.ok (), p') →
    p.stage.Sound known n₀ False → p.builder.current = none →
    p'.stage.Sound known n₀ True ∧ Stage.Later known p.stage p'.stage) ?_ ?_ ?_ p
  · exact hall p' h hp hclosed
  · -- The queue is empty and no block is open, so the count is exact.
    intro p hpending p' h hp hclosed
    cases h
    have hcounted := hp.accounted hclosed hpending
    exact ⟨{ hp with settled := fun _ => ⟨hpending, hcounted⟩ }, .refl _⟩
  · intro p arm rest q hpending hrun ih p' h hp hclosed
    have hstage : p.stage = ⟨p.builder, arm :: rest⟩ := by rw [Progress.stage, hpending]
    rw [hstage] at hp ⊢
    obtain ⟨hq, hnone, hturn⟩ := Arm.run_sound hrun hp hclosed
    obtain ⟨hp', hmore⟩ := ih p' h hq hnone
    exact ⟨hp', hturn.trans hmore⟩
  · intro p arm rest e q _ _ p' h
    cases h

/-- Outside of arms nothing waits before a split, and nothing does once its
arms are worked off. -/
theorem settling_drain (site : Site) : Settling known n₀ True (drain site) := by
  intro s p p' hs hp hfollows hclosed h
  obtain ⟨hp', hlater⟩ := drain_sound h hp hclosed
  obtain ⟨hnone, hcounted⟩ := hs.settled trivial
  obtain ⟨hnone', hcounted'⟩ := hp'.settled trivial
  rw [Stage.Accounted, hnone] at hcounted
  rw [Stage.Accounted, hnone'] at hcounted'
  refine ⟨hp', hfollows.toLater.trans hlater, hnone ▸ List.nil_prefix, ?_⟩
  rw [hcounted, hcounted']
  exact Nat.le_of_eq (Nat.add_comm _ _)

end Recipe

/-- All that the builder holds is known, and it has taken a number for each
of its blocks and for nothing else. -/
structure Builder.Whole (known : List Value) (n₀ : Nat) (b : Builder) : Prop where
  rooted : b.Rooted known n₀
  ledger : b.ledger.Sound
  counted : b.ledger.next = b.begun

namespace Builder.Whole

variable {known : List Value} {n₀ : Nat} {b b' : Builder}

/-- Work that takes no number, and after which all is known. -/
theorem build (h : b.Whole known n₀) (hstays : b.Stays b') (hrooted : b'.Rooted known n₀) :
    b'.Whole known n₀ := by
  refine ⟨hrooted, hstays.sound h.ledger, ?_⟩
  rw [hstays.next, hstays.begun]
  exact h.counted

/-- The open block is closed with its own registers. -/
theorem close {i : BlockIndex} {exit : RegFile → Exit} (h : b.Whole known n₀)
    (hclose : Build.close exit b = (.ok i, b'))
    (hexit : ∀ regs, ∀ v ∈ (exit regs).values, v ∈ regs.values) : b'.Whole known n₀ := by
  refine h.build (.of_close hclose)
    (Build.close_keeps hclose h.rooted fun blk hblk v hv => ?_).rooted
  exact h.rooted.regs blk hblk v (hexit blk.regs v hv)

/-- Whatever was done since, going back undoes it. -/
theorem rollback (h : b.Whole known n₀) (hsince : b.Since b') :
    (b'.rollback b.checkpoint).Whole known n₀ := by
  rw [hsince.rollback_eq]
  exact ⟨h.rooted.congr rfl rfl hsince.issued_le, h.ledger.of_le rfl (Nat.le_refl _), h.counted⟩

end Builder.Whole

/-- A recipe on its own path leaves a whole builder, if it succeeds. -/
theorem Recipe.start_whole {site : Site} {known : List Value} {n₀ : Nat} {b : Builder} {r : Recipe}
    {q : Progress} (h : r.start site b = (.ok (), q)) (hr : r.OwnPath {})
    (hb : b.Whole known n₀) : q.builder.Whole known n₀ := by
  have hstart : Stage.Sound known n₀ True ⟨b, []⟩ :=
    ⟨hb.ledger, Nat.le_of_eq hb.counted, fun _ => hb.rooted,
      fun _ harm => absurd harm List.not_mem_nil, fun _ => ⟨rfl, hb.counted⟩⟩
  have htemps : Temps.Seen known b [] [] := by
    intro name v hv
    cases hv
  have hstands := Stands.start (p := { builder := b }) hstart fun _ => htemps
  obtain ⟨hq, -⟩ := exec_sound (settling_drain site) (fun _ _ => drain_preserves_holds site) h hr
    hstands
  obtain ⟨hnone, hcounted⟩ := hq.settled trivial
  refine ⟨hq.builder hcounted, hq.ledger, ?_⟩
  rw [Stage.Accounted, hnone] at hcounted
  exact hcounted

end FlowRecovery
