import FlowRecovery.Proofs.Recipe

/-!
# `FlowRecovery.Proofs.Undo`: back to a checkpoint

A checkpoint holds the open block and two lengths of the ledger. That is
enough as long as the blocks that were finished at the checkpoint are
still there, with whatever was finished since behind them
(`Ledger.Extends`). Then rolling back restores the builder, but for the
assignment numbers that were taken and for the number that counts as
finished last (`Builder.Since.rollback_eq`).

Construction extends a ledger, and so does going back to any point after
the checkpoint (`Ledger.Extends.truncate`).
-/

set_option autoImplicit false

namespace FlowRecovery

namespace Ledger

variable {l l' l'' : Ledger}

/-- The second ledger holds the blocks of the first and others that were
finished since, under numbers that were not finished before. -/
def Extends (l l' : Ledger) : Prop :=
  ∃ more, l'.finished = l.finished ++ more ∧
    l'.emitted = (more.map Block.index).reverse ++ l.emitted ∧
    (more.map Block.index).Nodup ∧ ∀ b ∈ more, b.index ∉ l.emitted

/-- No number is taken back. -/
theorem Reaches.next_le (h : Reaches l l') : l.next ≤ l'.next := by
  induction h with
  | refl => exact Nat.le_refl _
  | tail _ hlast ih =>
    cases hlast with
    | alloc => exact Nat.le_succ_of_le ih
    | push h =>
      obtain ⟨-, rfl⟩ := push_eq_ok_iff.1 h
      exact ih

namespace Extends

/-- Nothing has been finished since. -/
theorem refl (l : Ledger) : l.Extends l := ⟨[], by simp⟩

/-- What was finished first comes before what was finished later. -/
theorem trans (h : l.Extends l') (h' : l'.Extends l'') : l.Extends l'' := by
  obtain ⟨more, hfinished, hemitted, hnodup, hnew⟩ := h
  obtain ⟨more', hfinished', hemitted', hnodup', hnew'⟩ := h'
  -- What was finished last has other numbers than all that was finished before it.
  have hapart : ∀ b ∈ more', b.index ∉ more.map Block.index ∧ b.index ∉ l.emitted := by
    intro b hb
    have hb := hnew' b hb
    rw [hemitted, List.mem_append, List.mem_reverse, not_or] at hb
    exact hb
  refine ⟨more ++ more', ?_, ?_, ?_, ?_⟩
  · rw [hfinished', hfinished, List.append_assoc]
  · rw [hemitted', hemitted, List.map_append, List.reverse_append, List.append_assoc]
  · rw [List.map_append, List.nodup_append]
    refine ⟨hnodup, hnodup', fun i hi j hj hij => ?_⟩
    obtain ⟨b, hb, rfl⟩ := List.mem_map.1 hj
    exact (hapart b hb).1 (hij ▸ hi)
  · exact List.forall_mem_append.2 ⟨hnew, fun b hb => (hapart b hb).2⟩

/-- No block is lost. -/
theorem length_le (h : l.Extends l') : l.finished.length ≤ l'.finished.length := by
  obtain ⟨more, hfinished, -⟩ := h
  rw [hfinished, List.length_append]
  exact Nat.le_add_right _ _

/-- Handing out numbers and finishing blocks extends a ledger. Induction on
the moves. -/
theorem reaches (h : l.Extends l') (hmoves : Reaches l' l'') : l.Extends l'' := by
  induction hmoves with
  | refl => exact h
  | tail _ hlast ih =>
    obtain ⟨more, hfinished, hemitted, hnodup, hnew⟩ := ih
    cases hlast with
    | alloc => exact ⟨more, hfinished, hemitted, hnodup, hnew⟩
    | @push _ b h =>
      -- The ledger refuses a number that was finished before, so `b` is new.
      obtain ⟨⟨-, hfresh, -⟩, rfl⟩ := push_eq_ok_iff.1 h
      rw [hemitted, List.mem_append, List.mem_reverse, not_or] at hfresh
      refine ⟨more ++ [b], ?_, ?_, ?_, ?_⟩
      · rw [hfinished, List.append_assoc]
      · rw [hemitted]
        simp
      · rw [List.map_append, List.nodup_append]
        refine ⟨hnodup, by simp, ?_⟩
        intro i hi j hj hij
        rw [List.mem_singleton.1 hj] at hij
        exact hfresh.1 (hij ▸ hi)
      · intro c hc
        cases List.mem_append.1 hc with
        | inl hold => exact hnew c hold
        | inr hb => exact List.mem_singleton.1 hb ▸ hfresh.2

end Extends

/-- Dropping the blocks behind some point takes back their numbers and no
others. -/
theorem truncate_of_append {kept dropped : List Block} {emitted : List BlockIndex} {k : Nat}
    (next : BlockIndex) (hkept : l.finished.take k = kept) (hdropped : l.finished.drop k = dropped)
    (hemitted : l.emitted = (dropped.map Block.index).reverse ++ emitted)
    (hnew : ∀ b ∈ dropped, b.index ∉ emitted) :
    l.truncate k next =
      { next, last := kept.getLast?.map Block.index, finished := kept, emitted } := by
  unfold truncate
  dsimp only
  rw [hkept, hdropped, hemitted, List.filter_append]
  have hgone : (dropped.map Block.index).reverse.filter
      (fun i => !(dropped.map Block.index).contains i) = [] := by
    rw [List.filter_eq_nil_iff]
    intro i hi
    simp only [List.mem_reverse] at hi
    simp [hi]
  have hstays : emitted.filter (fun i => !(dropped.map Block.index).contains i) = emitted := by
    rw [List.filter_eq_self]
    intro i hi
    simp only [List.contains_eq_mem, Bool.not_eq_eq_eq_not, Bool.not_true, decide_eq_false_iff_not]
    intro hmem
    obtain ⟨b, hb, rfl⟩ := List.mem_map.1 hmem
    exact hnew b hb hi
  rw [hgone, hstays, List.nil_append]

namespace Extends

/-- Going back to the point itself restores the ledger, but for the number
that counts as finished last: blocks taken out before do not count for it
any more. -/
theorem truncate_eq (h : l.Extends l') :
    l'.truncate l.finished.length l.next =
      { l with last := l.finished.getLast?.map Block.index } := by
  obtain ⟨more, hfinished, hemitted, -, hnew⟩ := h
  refine truncate_of_append l.next ?_ ?_ hemitted hnew
  · rw [hfinished, List.take_left]
  · rw [hfinished, List.drop_left]

/-- Going back to a later point leaves what was there before it. -/
theorem truncate (h : l.Extends l') {k : Nat} (hk : l.finished.length ≤ k) (next : BlockIndex) :
    l.Extends (l'.truncate k next) := by
  obtain ⟨more, hfinished, hemitted, hnodup, hnew⟩ := h
  obtain ⟨j, rfl⟩ := Nat.exists_eq_add_of_le hk
  -- Of the blocks finished since, the first `j` stay.
  have hparts : more.map Block.index =
      (more.take j).map Block.index ++ (more.drop j).map Block.index := by
    rw [← List.map_append, List.take_append_drop]
  rw [hparts, List.nodup_append] at hnodup
  obtain ⟨hnodup, -, hapart⟩ := hnodup
  have hkept : l'.finished.take (l.finished.length + j) = l.finished ++ more.take j := by
    rw [hfinished, List.take_length_add_append]
  have hdropped : l'.finished.drop (l.finished.length + j) = more.drop j := by
    rw [hfinished, List.drop_length_add_append]
  have hsplit : l'.emitted =
      ((more.drop j).map Block.index).reverse ++
        (((more.take j).map Block.index).reverse ++ l.emitted) := by
    rw [hemitted, hparts, List.reverse_append, List.append_assoc]
  rw [truncate_of_append next hkept hdropped hsplit]
  · exact ⟨more.take j, rfl, rfl, hnodup, fun b hb => hnew b (List.mem_of_mem_take hb)⟩
  · -- The numbers that are taken back are not among those that stay.
    intro b hb hmem
    cases List.mem_append.1 hmem with
    | inl hkept =>
      exact hapart _ (List.mem_reverse.1 hkept) _ (List.mem_map_of_mem hb) rfl
    | inr hold => exact hnew b (List.mem_of_mem_drop hb) hold

end Extends

end Ledger

/-- The second builder has what the first one had finished, and has taken
at least as many numbers for assignments and for blocks. -/
structure Builder.Since (b b' : Builder) : Prop where
  issued_le : b.issued ≤ b'.issued
  next_le : b.ledger.next ≤ b'.ledger.next
  ledger : b.ledger.Extends b'.ledger

namespace Builder

variable {b b' b'' : Builder}

/-- Nothing has happened. -/
theorem Since.refl (b : Builder) : b.Since b := ⟨Nat.le_refl _, Nat.le_refl _, .refl _⟩

/-- One stretch after the other. -/
theorem Since.trans (h : b.Since b') (h' : b'.Since b'') : b.Since b'' :=
  ⟨Nat.le_trans h.issued_le h'.issued_le, Nat.le_trans h.next_le h'.next_le,
    h.ledger.trans h'.ledger⟩

/-- Construction goes on. -/
theorem Since.grows (h : b.Since b') (hgrows : b'.Grows b'') : b.Since b'' :=
  ⟨Nat.le_trans h.issued_le hgrows.issued_le, Nat.le_trans h.next_le hgrows.reaches.next_le,
    h.ledger.reaches hgrows.reaches⟩

/-- Construction loses nothing. -/
theorem Grows.since (h : b.Grows b') : b.Since b' := (Since.refl b).grows h

/-- Going back to a later point loses nothing that was there before. -/
theorem Since.rollback (h : b.Since b') {c : Checkpoint}
    (hfinished : b.ledger.finished.length ≤ c.finished) (hnext : b.ledger.next ≤ c.next) :
    b.Since (b'.rollback c) :=
  ⟨h.issued_le, hnext, h.ledger.truncate hfinished c.next⟩

/-- Going back to the point itself restores the builder, but for the
numbers of assignments and for the number that counts as finished last. -/
theorem Since.rollback_eq (h : b.Since b') :
    b'.rollback b.checkpoint =
      { b with
        issued := b'.issued
        ledger := { b.ledger with last := b.ledger.finished.getLast?.map Block.index } } := by
  rw [Builder.rollback, Builder.checkpoint]
  simp only [h.ledger.truncate_eq]

end Builder

end FlowRecovery
