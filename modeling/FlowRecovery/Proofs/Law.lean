import FlowRecovery.Proofs.Failure
import FlowRecovery.Proofs.Operation
import FlowRecovery.Proofs.Rollback

/-!
# `FlowRecovery.Proofs.Law`: what all blocks that are ever built keep to

A `BlockLaw` says which statements a block may have, what its registers
must look like and how it may end. It only has to admit what construction
itself produces: applications that cannot be folded, loads, primitives and
statements without a result, registers after one of them was written, and
every exit but a failure. A law may also forbid writes to some registers;
it then holds on the machines whose zero register takes the writes that
would break it (`BlockLaw.Admits`).

Then everything that is built keeps to the law, whether or not the
operations succeed: the open block, the finished ones, the blocks that
checkpoints hold, the registers that waiting arms start from, and every
state that was passed through on the way (`Progress.Lawful`). A law says
nothing about numbers or about the order of blocks, which is why going
back to a checkpoint cannot break it.
-/

set_option autoImplicit false

namespace FlowRecovery

/-- Rules for statements, for registers and for exits. -/
structure BlockLaw where
  stmt : Stmt → Prop
  regs : RegFile → Prop
  exit : Exit → Prop
  /-- The registers that may be written. -/
  writable : Reg → Prop
  app : ∀ id ty a, a.resultType = .ok ty → a.fold = none → stmt (.assign id ty (.app a))
  load : ∀ id addr bytes, stmt (.assign id (.bv (bytes * 8)) (.load addr bytes))
  prim : ∀ id p, stmt (.assign id p.ty (.prim p))
  unnamed : ∀ s, s.assignId? = none → stmt s
  set : ∀ file r v file', regs file → writable r → file.set r v = .ok file' → regs file'
  fetch : ∀ file, exit (.fetch file)
  branch : ∀ cond t f, exit (.branch cond t f)
  arch : ∀ file name args, exit (.arch file name args)

/-- Whatever the machine writes may be written: writes to its zero
register are dropped. -/
def BlockLaw.Admits (L : BlockLaw) (m : Machine) : Prop :=
  ∀ r, m.zero ≠ some r → L.writable r

/-- The law is about statements and registers only, and allows all
writes. -/
structure BlockLaw.Lenient (L : BlockLaw) : Prop where
  exit : ∀ e, L.exit e
  writable : ∀ r, L.writable r

/-- A lenient law holds on every machine. -/
theorem BlockLaw.Lenient.admits {L : BlockLaw} (h : L.Lenient) (m : Machine) : L.Admits m :=
  fun r _ => h.writable r

/-- The statements and the registers keep to the law. -/
structure OpenBlock.Lawful (L : BlockLaw) (blk : OpenBlock) : Prop where
  stmts : ∀ s ∈ blk.stmts, L.stmt s
  regs : L.regs blk.regs

/-- The statements, the exit and the registers there keep to the law. -/
structure Block.Lawful (L : BlockLaw) (b : Block) : Prop where
  stmts : ∀ s ∈ b.stmts, L.stmt s
  regs : ∀ file, b.exit.regs? = some file → L.regs file
  exit : L.exit b.exit

/-- All blocks keep to the law, the open one and those finished and not
yet taken. -/
structure Builder.Lawful (L : BlockLaw) (b : Builder) : Prop where
  current : ∀ blk, b.current = some blk → blk.Lawful L
  finished : ∀ blk ∈ b.ledger.finished, blk.Lawful L

variable {L : BlockLaw}

/-- An exit has the registers it is given, or none. -/
def Exit.Keeps (exit : RegFile → Exit) : Prop :=
  ∀ file held, (exit file).regs? = some held → held = file

/-- A statement that keeps to the law may be appended. -/
theorem OpenBlock.Lawful.append {blk : OpenBlock} (hblk : blk.Lawful L) {s : Stmt}
    (hs : L.stmt s) (memo : List (Rhs × Value)) :
    OpenBlock.Lawful L { blk with stmts := blk.stmts ++ [s], memo } := by
  refine ⟨fun t ht => ?_, hblk.regs⟩
  cases List.mem_append.1 ht with
  | inl hold => exact hblk.stmts t hold
  | inr hnew => exact List.mem_singleton.1 hnew ▸ hs

/-- Going back brings no new blocks: they were finished before, or the
checkpoint holds them. -/
theorem Builder.Lawful.rollback {b : Builder} (h : b.Lawful L) {c : Checkpoint}
    (hc : ∀ blk, c.current = some blk → blk.Lawful L) : (b.rollback c).Lawful L :=
  ⟨hc, fun blk hblk => h.finished blk (List.mem_of_mem_take hblk)⟩

/-! ### Operations -/

/-- The operation keeps to the law, whether or not it succeeds. -/
abbrev Build.Lawful (L : BlockLaw) {α : Type} (x : Build α) : Prop :=
  Preserves (Builder.Lawful L) x

/-- What construction names and appends keeps to the law, and so do
registers that may be written. -/
theorem Builder.kept_lawful (L : BlockLaw) :
    Builder.Kept L.writable L.stmt (Builder.Lawful L) where
  write hr hset hblk hb := by
    refine ⟨fun other hother => ?_, hb.finished⟩
    cases hother
    have hopen := hb.current _ hblk
    exact ⟨hopen.stmts, L.set _ _ _ _ hopen.regs hr hset⟩
  append hs hblk hb := by
    refine ⟨fun other hother => ?_, hb.finished⟩
    cases hother
    exact (hb.current _ hblk).append hs _
  name harises hblk hb := by
    refine ⟨fun other hother => ?_, hb.finished⟩
    cases hother
    refine (hb.current _ hblk).append ?_ _
    cases harises with
    | app hty hfold => exact L.app _ _ _ hty hfold
    | load addr bytes => exact L.load _ addr bytes
    | prim p => exact L.prim _ p

namespace Build.Lawful

/-- Work in the open block keeps to the law, if what it writes and appends
does. -/
theorem op {o : Build.Op} (ho : o.Allowed L.writable L.stmt) : Build.Lawful L o.run :=
  (Builder.kept_lawful L).preserves_op (fun _ _ => L.unnamed _ rfl) ho

/-- So does closing a block, if its exit does. -/
theorem close {exit : RegFile → Exit} (hexit : Exit.Keeps exit)
    (hlaw : ∀ file, L.exit (exit file)) : Build.Lawful L (Build.close exit) := by
  refine preserves_close (fun b hb => ⟨fun _ h => (by cases h), hb.finished⟩)
    fun b blk l hblk hl hb => ⟨fun _ h => (by cases h), ?_⟩
  -- The block is finished as it stood, with the exit that the registers give.
  have hopen := hb.current blk hblk
  rw [hl]
  refine List.forall_mem_append.2 ⟨hb.finished, List.forall_mem_singleton.2 ⟨hopen.stmts, ?_, ?_⟩⟩
  · exact fun file hfile => hexit blk.regs file hfile ▸ hopen.regs
  · exact hlaw blk.regs

/-- Splitting closes a block with a branch, which the law has to admit. -/
theorem split (cond : Value) : Build.Lawful L (Build.split cond) :=
  preserves_split (fun _ hb => ⟨hb.current, hb.finished⟩) fun _ _ =>
    close (fun _ _ h => by cases h) fun _ => L.branch _ _ _

/-- A new block has no statements yet, and starts from lawful registers. -/
theorem enter (index : BlockIndex) {file : RegFile} (hfile : L.regs file) :
    Build.Lawful L (Build.enter index file) := by
  intro b hb
  refine ⟨fun blk hblk => ?_, hb.finished⟩
  cases hblk
  exact ⟨fun _ h => absurd h List.not_mem_nil, hfile⟩

/-- A block may always end where its instruction pointer leads. -/
theorem closeFetch : Build.Lawful L (Build.close .fetch) :=
  close (fun _ _ h => by cases h; rfl) L.fetch

/-- The end of an arm closes its block in that way. -/
theorem closeIfOpen : Build.Lawful L Build.closeIfOpen :=
  preserves_closeIfOpen closeFetch

/-- A checkpoint may be returned to if the block it holds is lawful. -/
theorem rollback {c : Checkpoint} (hc : ∀ blk, c.current = some blk → blk.Lawful L) :
    Build.Lawful L (Build.rollback c) :=
  preserves_rollback fun _ hb => hb.rollback hc

end Build.Lawful

/-! ### Recipes -/

namespace Recipe

variable {site : Site} {temps : Temps}

/-- What the step appends as it is keeps to the law, and so does a
failure that it closes its block with. -/
def Step.Lawful (L : BlockLaw) : Step → Prop
  | .emit s => L.stmt s
  | .close (.failed addr reason) => ∀ file, L.exit (.failed file addr reason)
  | _ => True

/-- If the law allows every exit, only what is appended as it is matters. -/
theorem Step.lawful_of_emit (hexit : ∀ e, L.exit e) {s : Step}
    (hemit : ∀ t, s = .emit t → L.stmt t) : s.Lawful L := by
  cases s with
  | emit t => exact hemit t rfl
  | close c =>
    cases c with
    | failed addr reason => exact fun file => hexit _
    | fetch | branch | arch => trivial
  | bind | load | prim | set | setIp | advance | store | arch | fail | moveTo | save
  | restore | look => trivial

/-- Under a lenient law all that matters is that no assignment is appended
as it is. -/
theorem Step.lawful_of_unnamed (hL : L.Lenient) {s : Step} (hs : s.Unnamed) : s.Lawful L := by
  refine lawful_of_emit hL.exit fun t ht => L.unnamed t ?_
  subst ht
  exact hs

/-- The arm can be carried out without breaking the law. -/
structure Arm.Lawful (L : BlockLaw) (arm : Arm) : Prop where
  regs : L.regs arm.regs
  body : arm.body.AllSteps (Step.Lawful L)

/-- Everything that the run holds or has passed through keeps to the
law. -/
structure Progress.Lawful (L : BlockLaw) (p : Progress) : Prop where
  builder : p.builder.Lawful L
  pending : ∀ arm ∈ p.pending, arm.Lawful L
  saved : ∀ entry ∈ p.saved, ∀ blk, entry.2.current = some blk → blk.Lawful L
  trace : ∀ event ∈ p.trace, event.after.Lawful L

/-- The states that a run has passed through, and the one it is in. -/
def Progress.builders (p : Progress) : List Builder :=
  p.builder :: p.trace.map Event.after

/-- The law, for every state that was passed through. -/
theorem Progress.Lawful.builders {p : Progress} (h : p.Lawful L) :
    ∀ b ∈ p.builders, b.Lawful L := by
  intro b hb
  cases hb with
  | head => exact h.builder
  | tail _ hb =>
    obtain ⟨event, hevent, rfl⟩ := List.mem_map.1 hb
    exact h.trace event hevent

/-- The part of a run keeps to the law, whether or not it succeeds. -/
abbrev KeepsLaw (L : BlockLaw) {α : Type} (x : RunM α) : Prop :=
  Preserves (Progress.Lawful L) x

/-- What the builder does touches neither arms nor checkpoints. -/
theorem keepsLaw_build {α : Type} {x : Build α} (hx : Build.Lawful L x) :
    KeepsLaw L (build x) := fun p hp =>
  ⟨hx p.builder hp.builder, hp.pending, hp.saved, hp.trace⟩

/-- Work in the open block, as part of a recipe. -/
theorem keepsLaw_op (op : Build.Op) (hop : op.Allowed L.writable L.stmt) :
    KeepsLaw L (build op.run) := keepsLaw_build (.op hop)

/-- The law allows every exit that the block is closed with. -/
theorem keepsLaw_close {c : Closing} (hc : Step.Lawful L (.close c)) (exit : RegFile → Exit)
    (hexit : c.Gives exit) : KeepsLaw L (build (Build.close exit)) := by
  cases c with
  | fetch =>
    cases hexit
    exact keepsLaw_build .closeFetch
  | failed addr reason =>
    cases hexit
    exact keepsLaw_build (.close (fun _ _ h => by cases h; rfl) hc)
  | branch cond t f =>
    obtain ⟨v, rfl⟩ := hexit
    exact keepsLaw_build (.close (fun _ _ h => by cases h) fun _ => L.branch _ _ _)
  | arch name args =>
    obtain ⟨vs, rfl⟩ := hexit
    exact keepsLaw_build (.close (fun _ _ h => by cases h; rfl) fun _ => L.arch _ _ _)

/-- A lawful step appends lawful statements. -/
theorem Step.Lawful.emits {s : Step} (hs : s.Lawful L) : s.Emits L.stmt := by
  cases s with
  | emit t => exact hs
  | bind | load | prim | set | setIp | advance | store | arch | close | fail | moveTo | save
  | restore | look => trivial

/-- Every step of a recipe keeps to the law. -/
theorem Step.keepsLaw_run (hsite : L.Admits site.machine) {s : Step} (hs : s.Lawful L) :
    KeepsLaw L (s.run site temps) := by
  cases s with
  | close c =>
    exact (Closing.preserves_of_ops keepsLaw_op (keepsLaw_close hs)).bind fun _ => .pure _
  | moveTo addr =>
    exact fun p hp => ⟨⟨hp.builder.current, hp.builder.finished⟩, hp.pending, hp.saved, hp.trace⟩
  | save name =>
    intro p hp
    refine ⟨hp.builder, hp.pending, fun entry hentry => ?_, hp.trace⟩
    cases hentry with
    | head => exact hp.builder.current
    | tail _ hold => exact hp.saved entry hold
  | restore name =>
    intro p hp
    rw [Step.restore_apply]
    cases hsaved : p.saved.lookup name with
    | none => exact hp
    | some c =>
      have hc := hp.saved _ (mem_of_lookup_eq_some hsaved)
      exact (keepsLaw_build (.rollback hc)).bind (fun _ => .pure _) p hp
  | bind | load | prim | set | setIp | advance | store | emit | arch | fail | look =>
    exact Step.preserves_of_ops keepsLaw_op hsite (fun _ _ => L.unnamed _ rfl) trivial hs.emits

/-- Both arms start from the registers of the block that was split. -/
theorem keepsLaw_queueArms (v : Value) {onTrue onFalse : Recipe}
    (htrue : onTrue.AllSteps (Step.Lawful L)) (hfalse : onFalse.AllSteps (Step.Lawful L)) :
    KeepsLaw L (queueArms v onTrue onFalse temps) := by
  intro p hp
  have hsplit := keepsLaw_build (.split v) p hp
  rw [queueArms, bind_apply]
  cases hbuild : build (Build.split v) p with
  | mk result q =>
    rw [hbuild] at hsplit
    cases result with
    | error e => exact hsplit
    | ok arms =>
      obtain ⟨t, f, file⟩ := arms
      obtain ⟨b, hok, rfl⟩ := build_eq_ok_iff.1 hbuild
      obtain ⟨blk, hblk, -, -, rfl, -⟩ := Build.split_eq_ok_iff.1 hok
      have hregs : L.regs blk.regs := (hp.builder.current blk hblk).regs
      refine ⟨hsplit.builder, fun arm harm => ?_, hsplit.saved, hsplit.trace⟩
      cases List.mem_append.1 harm with
      | inl hold => exact hsplit.pending arm hold
      | inr hnew =>
        simp only [List.mem_cons, List.not_mem_nil, or_false] at hnew
        cases hnew with
        | inl heq => exact heq ▸ ⟨hregs, htrue⟩
        | inr heq => exact heq ▸ ⟨hregs, hfalse⟩

/-- A recipe keeps to the law if its steps do. The state after each step is
noted in the trace, and is lawful at that moment. -/
theorem keepsLaw_exec (hsite : L.Admits site.machine) {settle : RunM Unit}
    (hsettle : KeepsLaw L settle) {r : Recipe} (hr : r.AllSteps (Step.Lawful L)) (temps : Temps) :
    KeepsLaw L (exec site settle r temps) := by
  refine exec_preserves_of_allSteps (fun p step result hp => ?_)
    (fun _ _ hs => Step.keepsLaw_run hsite hs) (fun e _ => preserves_evalTerm keepsLaw_op e)
    (fun v => keepsLaw_build (preserves_checkCondition v))
    (fun v _ _ _ htrue hfalse => (keepsLaw_queueArms v htrue hfalse).bind fun _ => hsettle) hr temps
  refine ⟨hp.builder, hp.pending, hp.saved, fun event hevent => ?_⟩
  cases hevent with
  | head => exact hp.builder
  | tail _ hold => exact hp.trace event hold

/-- An arm starts from the registers that it was queued with. -/
theorem Arm.keepsLaw_run (hsite : L.Admits site.machine) {arm : Arm} (harm : arm.Lawful L) :
    KeepsLaw L (arm.run site) :=
  (keepsLaw_build (.enter _ harm.regs)).bind fun _ =>
    (keepsLaw_exec hsite (.pure ()) harm.body arm.temps).bind fun _ => keepsLaw_build .closeIfOpen

/-- Every arm that waits is carried out, and none of them is queued anew.
-/
theorem keepsLaw_drain (hsite : L.Admits site.machine) : KeepsLaw L (drain site) :=
  drain_preserves (J := fun _ => Arm.Lawful L) (fun _ _ hp => hp.pending)
    (fun _ _ hfewer hp => ⟨hp.builder, fun arm harm => hp.pending arm (hfewer harm), hp.saved,
      hp.trace⟩)
    fun p _ harm => Arm.keepsLaw_run hsite harm p

/-- Before anything is done, only the builder has to be lawful. -/
theorem Progress.lawful_of_builder {b : Builder} (hb : b.Lawful L) :
    Progress.Lawful L { builder := b } :=
  ⟨hb, fun _ h => absurd h List.not_mem_nil, fun _ h => absurd h List.not_mem_nil,
    fun _ h => absurd h List.not_mem_nil⟩

/-- A whole recipe keeps to the law. -/
theorem lawful_run (hsite : L.Admits site.machine) {r : Recipe}
    (hr : r.AllSteps (Step.Lawful L)) : Build.Lawful L (r.run site) := fun _ hb =>
  (keepsLaw_exec hsite (keepsLaw_drain hsite) hr [] _ (Progress.lawful_of_builder hb)).builder

/-! ### Runs of the builder -/

/-- The action appends no assignment as it is. -/
def Action.Unnamed : Action → Prop
  | .perform _ op => op.recipe.AllSteps Step.Unnamed
  | _ => True

/-- The recipes of the action keep to the law, and so do the machines
that they are carried out on. -/
def Action.Lawful (L : BlockLaw) : Action → Prop
  | .perform _ op => L.Admits op.site.machine ∧ op.recipe.AllSteps (Step.Lawful L)
  | .drain site => L.Admits site.machine
  | .enter | .leave => True

/-- Actions that append no assignment as it is obey every lenient law. -/
theorem Action.lawful_of_unnamed (hL : L.Lenient) {a : Action} (ha : a.Unnamed) : a.Lawful L := by
  cases a with
  | perform level op =>
    exact ⟨hL.admits _, AllSteps.imp (fun _ => Step.lawful_of_unnamed hL) ha⟩
  | drain site => exact hL.admits _
  | enter | leave => trivial

/-- Every action keeps to the law. -/
theorem Action.keepsLaw_run {a : Action} (ha : a.Lawful L) : KeepsLaw L a.run := by
  cases a with
  | perform level op =>
    cases level with
    | outermost => exact keepsLaw_exec ha.1 (keepsLaw_drain ha.1) ha.2 op.temps
    | arm => exact keepsLaw_exec ha.1 (.pure ()) ha.2 op.temps
  | leave => exact keepsLaw_build .closeIfOpen
  | drain site => exact keepsLaw_drain ha
  | enter =>
    intro p hp
    rw [enter_apply]
    cases hpending : p.pending with
    | nil => exact hp
    | cons arm rest =>
      have hall := hp.pending
      rw [hpending] at hall
      refine keepsLaw_build (.enter arm.index (hall arm List.mem_cons_self).regs)
        { p with pending := rest } ⟨hp.builder, ?_, hp.saved, hp.trace⟩
      exact fun other hother => hall other (List.mem_cons_of_mem arm hother)

/-- So does a list of actions. Induction on the actions is in
`runAll_preserves`. -/
theorem Action.lawful_runAll {actions : List Action} (h : ∀ a ∈ actions, a.Lawful L)
    {p : Progress} (hp : p.Lawful L) : (runAll actions p).2.Lawful L :=
  runAll_preserves (fun a ha => keepsLaw_run (h a ha)) hp

end Recipe

/-! ### Disassembly -/

/-- A run starts with an empty block. -/
theorem Builder.lawful_start {d : Discovery} (hd : ∀ b ∈ d.ledger.finished, b.Lawful L)
    (addr : Word) {file : RegFile} (hfile : L.regs file) :
    (Builder.start d addr file).Lawful L := by
  refine ⟨fun blk hblk => ?_, hd⟩
  cases hblk
  exact ⟨fun _ h => absurd h List.not_mem_nil, hfile⟩

namespace Disassembly

variable {src : Source}

/-- The recipes of all instructions keep to the law, and so does the
machine. -/
structure Source.Lawful (L : BlockLaw) (src : Source) : Prop where
  machine : L.Admits src.machine
  recipes : ∀ instr addr size,
    (src.isa.recipe instr addr size).AllSteps (Recipe.Step.Lawful L)

/-- An instruction keeps to the law, its marker included. -/
theorem lawful_step (hsrc : src.Lawful L) (pc : Word) : Build.Lawful L (step src pc) := by
  refine Preserves.bind (fun _ hb => hb) fun found => ?_
  exact ((Builder.kept_lawful L).emit (L.unnamed _ rfl)).bind fun _ =>
    (Recipe.lawful_run hsrc.machine (hsrc.recipes found.1 pc found.2)).bind fun _ => .pure _

/-- Whether it is carried out or undone: what it leaves behind then was
there before it, closed by a failure. -/
theorem lawful_decodeOne (hsrc : src.Lawful L)
    (hfailed : ∀ file addr reason, L.exit (.failed file addr reason)) (pc : Word) :
    Build.Lawful L (decodeOne src pc) :=
  decodeOne_preserves Build.Lawful.closeFetch (fun _ hb => ⟨hb.current, hb.finished⟩)
    (lawful_step hsrc pc) (fun b hb => (lawful_step hsrc pc b hb).rollback hb.current)
    fun reason => Build.Lawful.close (fun _ _ h => by cases h; rfl)
      fun file => hfailed file pc reason

/-- So does a run of instructions. -/
theorem lawful_decodeFrom (hsrc : src.Lawful L)
    (hfailed : ∀ file addr reason, L.exit (.failed file addr reason)) (more : Nat) (pc : Word) :
    Build.Lawful L (decodeFrom src more pc) :=
  decodeFrom_preserves Build.Lawful.closeFetch (lawful_decodeOne hsrc hfailed) more pc

/-- The blocks that a run gives and those that it leaves behind keep to
the law, whether or not it succeeds. -/
theorem lawful_session (hsrc : src.Lawful L)
    (hfailed : ∀ file addr reason, L.exit (.failed file addr reason)) {limit : Nat}
    {addr : Word} {regs : RegFile} (hregs : L.regs regs) {s s' : Session}
    (hs : ∀ b ∈ s.discovery.ledger.finished, b.Lawful L) {result : Except BuildError Disassembly}
    (h : run src limit addr regs s = (result, s')) :
    (∀ out, result = .ok out → ∀ b ∈ out.blocks, b.Lawful L) ∧
      ∀ b ∈ s'.discovery.ledger.finished, b.Lawful L := by
  have hb := lawful_decodeFrom hsrc hfailed (limit - 1) addr _ (Builder.lawful_start hs addr hregs)
  unfold run at h
  cases hdecode : decodeFrom src (limit - 1) addr (.start s.discovery addr regs) with
  | mk decoded b =>
    rw [hdecode] at h hb
    cases decoded with
    | error e =>
      cases h
      refine ⟨fun _ hout => ?_, hb.finished⟩
      cases hout
    | ok failure =>
      -- What is given is taken from the ledger, so nothing is left there.
      cases h
      refine ⟨fun out hout => ?_, fun _ hmem => absurd hmem List.not_mem_nil⟩
      cases hout
      exact hb.finished

/-- The blocks of a run keep to the law, and nothing is left behind for
the next one. -/
theorem lawful_run (hsrc : src.Lawful L)
    (hfailed : ∀ file addr reason, L.exit (.failed file addr reason)) {limit : Nat}
    {addr : Word} {regs : RegFile} (hregs : L.regs regs) {s s' : Session}
    (hs : s.discovery.ledger.finished = []) {out : Disassembly}
    (h : run src limit addr regs s = (.ok out, s')) :
    (∀ b ∈ out.blocks, b.Lawful L) ∧ s'.discovery.ledger.finished = [] := by
  refine ⟨(lawful_session hsrc hfailed hregs (by simp [hs]) h).1 out rfl, ?_⟩
  obtain ⟨failure, b, -, -, rfl⟩ := run_eq_ok_iff.1 h
  rfl

end Disassembly

end FlowRecovery
