import FlowRecovery.Proofs.Explore
import FlowRecovery.Proofs.Head

/-!
# `FlowRecovery.Proofs.Runs`: the runs that an exploration makes

An exploration is described in one way in this library, by two relations
that have no bound of their own. `Makes task p visits q` lists the runs
that lead from one state to another, each of them within the limit on
blocks. `Ends task q last answer` says how it ends there: nothing is left
to do, it is cut short, or one last run fails.

- `follow_ends` says that every exploration makes such runs and then ends,
  unless it was given too few runs;
- `follow_works` says that it never is, because every run has a block
  (`Disassembly.run_head`), and so the runs that are allowed last as long
  as the blocks;
- what every run preserves holds in all states in between
  (`Makes.preserves`, `follow_preserves`);
- `exists_makes_of_function` reads a discovered function off its runs.

`Meets task entry defs b` says that the block `b` was disassembled on the
way and is classified by `defs`, whether or not that succeeds.
-/

set_option autoImplicit false

namespace FlowRecovery.Explore

variable {task : Task} {p q : Progress} {visits : List Visit}

/-! ### A run has a block -/

/-- Everything that was finished has been taken out. -/
def Progress.Taken (p : Progress) : Prop :=
  p.session.discovery.ledger.finished = []

/-- A run that succeeds records a block and leaves none behind. -/
theorem taken_of_nextVisit? {v : Visit} (hv : nextVisit? task p = some v) (hp : p.Taken) :
    p.blocks.length < v.after.blocks.length ∧ v.after.Taken := by
  obtain ⟨rest, -, hbefore, hvisit⟩ := nextVisit?_eq_some_iff.1 hv
  rw [hbefore] at hvisit
  obtain ⟨out, session, found, tally, hrun, hfound, hafter⟩ := visit_eq_ok hvisit
  rw [hafter]
  constructor
  · -- The first block of the run has been classified and recorded.
    obtain ⟨first, others, hout, -⟩ := Disassembly.run_head hp hrun
    rw [hout, List.mapM_cons] at hfound
    obtain ⟨head, -, hfound⟩ := Option.bind_eq_some_iff.1 hfound
    obtain ⟨more, -, hfound⟩ := Option.bind_eq_some_iff.1 hfound
    cases hfound
    simp [Progress.withFound, Progress.visiting]
  · obtain ⟨failure, b, -, -, rfl⟩ := Disassembly.run_eq_ok_iff.1 hrun
    rfl

/-! ### Run after run -/

/-- These runs are made from the first state on, and lead to the
second. -/
inductive Makes (task : Task) : Progress → List Visit → Progress → Prop
  | nil {p : Progress} : Makes task p [] p
  | cons {p q : Progress} {v : Visit} {more : List Visit}
      (hlimit : p.blocks.length < task.limits.maxBlocks) (hv : nextVisit? task p = some v)
      (hmore : Makes task v.after more q) : Makes task p (v :: more) q

namespace Makes

/-- What every run preserves is preserved by all of them. -/
theorem preserves (h : Makes task p visits q) {I : Progress → Prop}
    (hvisit : ∀ p v, nextVisit? task p = some v → I p → I v.after) (hp : I p) : I q := by
  induction h with
  | nil => exact hp
  | cons _ hv _ ih => exact ih (hvisit _ _ hv hp)

/-- Every run is the next one in the state that the runs before it lead
to. -/
theorem of_append {earlier later : List Visit} {v : Visit}
    (h : Makes task p (earlier ++ v :: later) q) :
    ∃ p', Makes task p earlier p' ∧ nextVisit? task p' = some v ∧ Makes task v.after later q := by
  induction earlier generalizing p with
  | nil =>
    cases h with
    | cons _ hv hmore => exact ⟨p, .nil, hv, hmore⟩
  | cons w earlier ih =>
    cases h with
    | cons hlimit hw hmore =>
      obtain ⟨p', hearlier, hv, hlater⟩ := ih hmore
      exact ⟨p', .cons hlimit hw hearlier, hv, hlater⟩

/-- The same for a run that is only known to be one of them. -/
theorem split (h : Makes task p visits q) {v : Visit} (hv : v ∈ visits) :
    ∃ earlier later p', visits = earlier ++ v :: later ∧ Makes task p earlier p' ∧
      nextVisit? task p' = some v ∧ Makes task v.after later q := by
  obtain ⟨earlier, later, rfl⟩ := List.append_of_mem hv
  obtain ⟨p', hearlier, hnext, hlater⟩ := h.of_append
  exact ⟨earlier, later, p', rfl, hearlier, hnext, hlater⟩

/-- Between the runs nothing finished is left behind. -/
theorem taken (h : Makes task p visits q) (hp : p.Taken) : q.Taken :=
  h.preserves (fun _ _ hv hp => (taken_of_nextVisit? hv hp).2) hp

/-- There are no more runs than blocks that they record. -/
theorem length_add_le (h : Makes task p visits q) (hp : p.Taken) :
    visits.length + p.blocks.length ≤ q.blocks.length := by
  induction h with
  | nil => exact Nat.le_of_eq (Nat.zero_add _)
  | cons _ hv _ ih =>
    obtain ⟨hblocks, htaken⟩ := taken_of_nextVisit? hv hp
    have hrest := ih htaken
    rw [List.length_cons]
    omega

/-- Every run brings the limit nearer by a block. -/
theorem length_le (h : Makes task p visits q) (hp : p.Taken) :
    visits.length ≤ task.limits.maxBlocks - p.blocks.length := by
  induction h with
  | nil => exact Nat.zero_le _
  | cons hlimit hv _ ih =>
    obtain ⟨hblocks, htaken⟩ := taken_of_nextVisit? hv hp
    have hrest := ih htaken
    rw [List.length_cons]
    omega

end Makes

/-- How an exploration ends once it has made its runs. The list holds the
run that has failed, if one has. -/
inductive Ends (task : Task) (p : Progress) :
    List Visit → Except ExploreError Unit × Progress → Prop
  | done (hnext : nextUnvisited? p.visited p.worklist = none) : Ends task p [] (.ok (), p)
  | cut (hnext : nextUnvisited? p.visited p.worklist ≠ none)
      (hlimit : task.limits.maxBlocks ≤ p.blocks.length) :
      Ends task p [] (.ok (), { p with truncated := true })
  | failed {addr : Word} {regs : RegFile} {rest : List (Word × RegFile)} {e : ExploreError}
      {after : Progress} (hlimit : p.blocks.length < task.limits.maxBlocks)
      (hnext : nextUnvisited? p.visited p.worklist = some ((addr, regs), rest))
      (hvisit : visit task addr regs (p.visiting addr rest) = (.error e, after)) :
      Ends task p [⟨addr, regs, p.visiting addr rest, after⟩] (.error e, after)

/-- One more run is made, or the exploration ends here. -/
theorem follow_succ (task : Task) (left : Nat) (p : Progress) :
    (∃ last, Ends task p last (follow task (left + 1) p)) ∨
      ∃ v, p.blocks.length < task.limits.maxBlocks ∧ nextVisit? task p = some v ∧
        follow task (left + 1) p = follow task left v.after := by
  rw [follow, get_bind_apply]
  cases hnext : nextUnvisited? p.visited p.worklist with
  | none => exact Or.inl ⟨_, .done hnext⟩
  | some work =>
    obtain ⟨⟨addr, regs⟩, rest⟩ := work
    by_cases hlimit : task.limits.maxBlocks ≤ p.blocks.length
    · -- The limit has been reached.
      simp only [hlimit, if_true]
      exact Or.inl ⟨_, .cut (by simp [hnext]) hlimit⟩
    · -- One more run is made.
      simp only [hlimit, if_false]
      have hlimit : p.blocks.length < task.limits.maxBlocks := Nat.lt_of_not_le hlimit
      show (∃ last, Ends _ _ last ((visit task addr regs >>= fun _ => follow task left)
        (p.visiting addr rest))) ∨ ∃ v, _ ∧ _ ∧
          (visit task addr regs >>= fun _ => follow task left) (p.visiting addr rest) = _
      cases hvisit : visit task addr regs (p.visiting addr rest) with
      | mk result after =>
        cases result with
        | error e =>
          rw [bind_run, hvisit]
          exact Or.inl ⟨_, .failed hlimit hnext hvisit⟩
        | ok u =>
          rw [bind_apply_of_ok hvisit]
          refine Or.inr ⟨⟨addr, regs, p.visiting addr rest, after⟩, hlimit, ?_, rfl⟩
          exact nextVisit?_eq_some_iff.2 ⟨rest, hnext, rfl, hvisit⟩

/-- An exploration makes runs and ends. It may also have made all runs that
it was given, and leave off with work to do. -/
theorem follow_ends (task : Task) (limit : Nat) (p : Progress) :
    ∃ visits q, Makes task p visits q ∧
      ((∃ last, Ends task q last (follow task limit p)) ∨
        visits.length = limit ∧ nextUnvisited? q.visited q.worklist ≠ none ∧
          follow task limit p = (.ok (), { q with truncated := true })) := by
  induction limit generalizing p with
  | zero =>
    refine ⟨[], p, .nil, ?_⟩
    rw [follow, get_bind_apply]
    cases hnext : nextUnvisited? p.visited p.worklist with
    | none => exact Or.inl ⟨_, .done hnext⟩
    | some work => exact Or.inr ⟨rfl, by simp, rfl⟩
  | succ limit ih =>
    rcases follow_succ task limit p with hends | ⟨v, hlimit, hv, hfollow⟩
    · exact ⟨[], p, .nil, Or.inl hends⟩
    · obtain ⟨visits, q, hmakes, hends⟩ := ih v.after
      rw [hfollow]
      exact ⟨v :: visits, q, .cons hlimit hv hmakes, hends.imp id (.imp (congrArg (· + 1)) id)⟩

/-- What every run preserves, whether or not it succeeds, is preserved by
the whole exploration. -/
theorem follow_preserves {I : Progress → Prop}
    (hvisit : ∀ p addr regs rest, nextUnvisited? p.visited p.worklist = some ((addr, regs), rest) →
      I p → I (visit task addr regs (p.visiting addr rest)).2)
    (htruncate : ∀ p, I p → I { p with truncated := true }) (limit : Nat) :
    Preserves I (follow task limit) := by
  intro p hp
  obtain ⟨visits, q, hmakes, hends⟩ := follow_ends task limit p
  have hq : I q := by
    refine hmakes.preserves (fun p v hv hp => ?_) hp
    obtain ⟨rest, hnext, hbefore, hafter⟩ := nextVisit?_eq_some_iff.1 hv
    have hkept := hvisit p v.addr v.regs rest hnext hp
    rw [← hbefore, hafter] at hkept
    exact hkept
  generalize follow task limit p = answer at hends ⊢
  rcases hends with ⟨last, hends⟩ | ⟨-, -, rfl⟩
  · cases hends with
    | done => exact hq
    | cut => exact htruncate q hq
    | failed _ hnext hfails =>
      have hkept := hvisit q _ _ _ hnext hq
      rw [hfails] at hkept
      exact hkept
  · exact htruncate q hq

/-- If the runs that are left are at least as many as the blocks, there are
enough of them. -/
theorem follow_works (hp : p.Taken) {left : Nat}
    (hleft : task.limits.maxBlocks ≤ p.blocks.length + left) :
    ∃ visits q last, Makes task p visits q ∧ Ends task q last (follow task left p) := by
  obtain ⟨visits, q, hmakes, ⟨last, hends⟩ | ⟨hlength, hnext, hcut⟩⟩ := follow_ends task left p
  · exact ⟨visits, q, last, hmakes, hends⟩
  · -- Each run took one from what was left, and has recorded a block for it.
    have hblocks := hmakes.length_add_le hp
    rw [hcut]
    exact ⟨visits, q, [], hmakes, .cut hnext (by omega)⟩

/-- At the entry nothing has been finished yet. -/
theorem taken_atEntry (task : Task) (entry : Word) : (atEntry task entry).Taken := rfl

/-- An exploration from the entry. -/
theorem follow_atEntry (task : Task) (entry : Word) :
    ∃ visits q last, Makes task (atEntry task entry) visits q ∧
      Ends task q last (follow task task.limits.maxBlocks (atEntry task entry)) :=
  follow_works (taken_atEntry task entry) (Nat.le_add_left _ _)

/-- A function is what its runs have found; it is whole if nothing is
left to do, and cut short at the limit otherwise. -/
theorem exists_makes_of_function {entry : Word} {f : Function} {tally : Tally}
    (h : function task entry = (.ok f, tally)) :
    ∃ visits p, Makes task (atEntry task entry) visits p ∧ f.blocks = p.blocks ∧
      f.newFunctions = sortedAddresses (p.newFunctions.filter (· ≠ entry)) ∧
      (f.truncated = p.truncated ∧ nextUnvisited? p.visited p.worklist = none ∨
        f.truncated = true ∧ task.limits.maxBlocks ≤ p.blocks.length) := by
  obtain ⟨p', hfollow, rfl, -⟩ := follow_of_function h
  obtain ⟨visits, p, last, hmakes, hends⟩ := follow_atEntry task entry
  rw [hfollow] at hends
  refine ⟨visits, p, hmakes, ?_⟩
  cases hends with
  | done hnext => exact ⟨rfl, rfl, Or.inl ⟨rfl, hnext⟩⟩
  | cut hnext hlimit => exact ⟨rfl, rfl, Or.inr ⟨rfl, hlimit⟩⟩

/-! ### The runs as a list -/

/-- The runs from a state on, at most `runs` of them. -/
def history (task : Task) : Nat → Progress → List Visit
  | 0, _ => []
  | runs + 1, p =>
    match nextVisit? task p with
    | none => []
    | some v => v :: history task runs v.after

/-- Runs after which nothing is left to do are all that there are. -/
theorem Makes.eq_history (h : Makes task p visits q)
    (hend : nextUnvisited? q.visited q.worklist = none) {n : Nat} (hn : visits.length ≤ n) :
    visits = history task n p := by
  induction h generalizing n with
  | nil =>
    cases n with
    | zero => rfl
    | succ n => simp only [history, nextVisit?, hend]
  | cons _ hv _ ih =>
    obtain ⟨m, rfl⟩ : ∃ m, n = m + 1 := Nat.exists_eq_succ_of_ne_zero (by
      rw [List.length_cons] at hn
      omega)
    rw [history, hv]
    exact congrArg _ (ih hend (Nat.le_of_succ_le_succ hn))

/-- The runs of the exploration from `entry`. -/
def runs (task : Task) (entry : Word) : List Visit :=
  history task task.limits.maxBlocks (atEntry task entry)

/-- They are what a complete exploration makes. -/
theorem Makes.eq_runs {entry : Word} (h : Makes task (atEntry task entry) visits q)
    (hend : nextUnvisited? q.visited q.worklist = none) : visits = runs task entry :=
  h.eq_history hend (h.length_le (taken_atEntry task entry))

/-! ### The blocks on the way -/

/-- The exploration from `entry` disassembles `b` and classifies it by
what `defs` records. -/
def Meets (task : Task) (entry : Word) (defs : Definitions) (b : Block) : Prop :=
  ∃ visits p addr regs rest out session,
    Makes task (atEntry task entry) visits p ∧
    p.blocks.length < task.limits.maxBlocks ∧
    nextUnvisited? p.visited p.worklist = some ((addr, regs), rest) ∧
    Disassembly.run task.source task.limits.maxInstructions addr regs p.session =
      (.ok out, session) ∧
    b ∈ out.blocks ∧ defs = withBlocks p.defs out.blocks

/-- A run that fails to classify fails at one of its blocks. -/
theorem visitBlocks_eq_error {blocks : List Block} {p' : Progress} {e : ExploreError}
    (h : blocks.forM (visitBlock task) p = (.error e, p')) :
    ∃ b ∈ blocks, ∃ cause, e = .classify cause ∧
      task.target.chain.classifyExit (task.setting p.defs) b = .error cause := by
  induction blocks generalizing p with
  | nil => cases h
  | cons b rest ih =>
    have hbind : (visitBlock task b >>= fun _ => rest.forM (visitBlock task)) p = (.error e, p') :=
      h
    rcases bind_eq_error_iff.1 hbind with hb | ⟨u, q, hb, hrest⟩
    · refine ⟨b, List.mem_cons_self, ?_⟩
      cases hexit : task.target.chain.classifyExit (task.setting p.defs) b with
      | ok raw =>
        rw [visitBlock_of_ok hexit] at hb
        cases hb
      | error cause =>
        rw [visitBlock_of_error hexit] at hb
        cases hb
        exact ⟨cause, rfl, rfl⟩
    · -- Recording a block does not change the definitions.
      obtain ⟨found, tally, -, rfl⟩ := visitBlock_eq_ok hb
      obtain ⟨c, hc, hcause⟩ := ih hrest
      exact ⟨c, List.mem_cons_of_mem b hc, hcause⟩

/-- A run fails in the disassembly, or at a block that it cannot
classify. -/
theorem visit_eq_error {addr : Word} {regs : RegFile} {p' : Progress} {cause : ClassifyError}
    (h : visit task addr regs p = (.error (.classify cause), p')) :
    ∃ out session, Disassembly.run task.source task.limits.maxInstructions addr regs p.session =
        (.ok out, session) ∧
      ∃ b ∈ out.blocks,
        task.target.chain.classifyExit (task.setting (withBlocks p.defs out.blocks)) b =
          .error cause := by
  cases hrun : Disassembly.run task.source task.limits.maxInstructions addr regs p.session with
  | mk result session =>
    cases result with
    | error e =>
      rw [visit_of_run_eq_error hrun] at h
      cases h
    | ok out =>
      rw [visit_of_run_eq_ok hrun] at h
      obtain ⟨b, hb, cause', hcause, herror⟩ := visitBlocks_eq_error h
      cases hcause
      exact ⟨out, session, rfl, b, hb, herror⟩

/-- A function whose exploration ends with a block that cannot be
classified. -/
theorem function_eq_classify_error {entry : Word} {tally : Tally} {cause : ClassifyError}
    (h : function task entry = (.error (.classify cause), tally)) :
    ∃ defs b, Meets task entry defs b ∧
      task.target.chain.classifyExit (task.setting defs) b = .error cause := by
  obtain ⟨p', hfollow, -⟩ := function_eq_error h
  obtain ⟨visits, p, last, hmakes, hends⟩ := follow_atEntry task entry
  rw [hfollow] at hends
  cases hends with
  | failed hlimit hnext hvisit =>
    obtain ⟨out, session, hrun, b, hb, herror⟩ := visit_eq_error hvisit
    exact ⟨_, b, ⟨visits, p, _, _, _, out, session, hmakes, hlimit, hnext, hrun, hb, rfl⟩, herror⟩

end FlowRecovery.Explore
