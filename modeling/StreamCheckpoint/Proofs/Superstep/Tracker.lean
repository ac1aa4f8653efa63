import StreamCheckpoint.Proofs.Channel.Flags
import StreamCheckpoint.Superstep

/-! What a tracker of supersteps remembers.  Its flags say which channels have ended at some time,
and which have reached the end of the superstep since the last one began (`Recalls`); every answer
is read off what was delivered. -/

namespace StreamCheckpoint

namespace SuperstepTracker

/-- Every channel delivers the end of a superstep in `piece`, or has ended before `piece` is
over. -/
def Complete (n : Nat) (past piece : List (Nat × Event)) : Prop :=
  ∀ c < n, (c, .endOfSuperstep) ∈ piece ∨ (c, .endOfPartition) ∈ past ++ piece

/-- Every channel has ended. -/
def AllEnded (n : Nat) (past : List (Nat × Event)) : Prop := ∀ c < n, (c, .endOfPartition) ∈ past

section History

variable {n c : Nat} {past piece : List (Nat × Event)}

theorem Complete.mono (h : Complete n past piece) (more : List (Nat × Event)) :
    Complete n past (piece ++ more) := by
  intro c hc
  rw [List.mem_append, ← List.append_assoc]
  exact (h c hc).imp .inl fun h => List.mem_append_left _ h

theorem complete_nil : Complete n past [] ↔ AllEnded n past := by
  simp [Complete, AllEnded]

/-- A channel that is still open stands for the others: it cannot be passed over. -/
theorem Complete.exists_of_not_allEnded (h : Complete n past piece)
    (hopen : ¬AllEnded n (past ++ piece)) : ∃ c < n, (c, .endOfSuperstep) ∈ piece := by
  refine Classical.byContradiction fun hnone => hopen fun c hc => ?_
  exact (h c hc).resolve_left fun hm => hnone ⟨c, hc, hm⟩

theorem mem_concat_of_ne {x y : Nat × Event} (h : x ≠ y) : x ∈ past ++ [y] ↔ x ∈ past := by
  simp [h]

end History

/-- A flag that says of each channel whether it delivered `e` says so after the next `e` too. -/
theorem getD_set_iff {xs : List Bool} {c d : Nat} {e : Event} {past : List (Nat × Event)}
    (hc : c < xs.length) (h : xs.getD d false = true ↔ (d, e) ∈ past) :
    (xs.set c true).getD d false = true ↔ (d, e) ∈ past ++ [(c, e)] := by
  rw [getD_set]
  by_cases hcd : c = d
  · subst hcd
    simp [hc]
  · rw [if_neg fun hand => hcd hand.1, h, mem_concat_of_ne]
    simp [Ne.symm hcd]

/-- The tracker has `n` channels, the current superstep began after `past`, and `piece` was
delivered since. -/
structure Recalls (t : SuperstepTracker) (n : Nat) (past piece : List (Nat × Event)) : Prop where
  partitions : t.partitionEnded.length = n
  supersteps : t.superstepEnded.length = n
  ended : ∀ c < n, t.partitionEnded.getD c false = true ↔ (c, .endOfPartition) ∈ past ++ piece
  arrived : ∀ c < n, t.superstepEnded.getD c false = true ↔ (c, .endOfSuperstep) ∈ piece

theorem recalls_new (n : Nat) : (new n).Recalls n [] [] where
  partitions := List.length_replicate
  supersteps := List.length_replicate
  ended c hc := by simp [new, hc]
  arrived c hc := by simp [new, hc]

namespace Recalls

variable {t : SuperstepTracker} {n c : Nat} {e : Event} {past piece : List (Nat × Event)}

theorem isFinished_iff (h : t.Recalls n past piece) :
    t.isFinished = true ↔ AllEnded n (past ++ piece) := by
  rw [isFinished, all_iff_getD, h.partitions]
  exact forall₂_congr h.ended

theorem isSuperstepOver_iff (h : t.Recalls n past piece) : t.isSuperstepOver = true ↔
    (∃ c < n, (c, .endOfSuperstep) ∈ piece) ∧ Complete n past piece := by
  rw [isSuperstepOver, Bool.and_eq_true, any_iff_getD,
    zip_all_iff_getD (h.supersteps.trans h.partitions.symm), h.supersteps]
  refine and_congr (exists_congr fun c => and_congr_right fun hc => h.arrived c hc) ?_
  exact forall₂_congr fun c hc => or_congr (h.arrived c hc) (h.ended c hc)

/-- Events that no flag is kept for are recalled by the flags as they are. -/
theorem concat (h : t.Recalls n past piece) {x : Nat × Event}
    (hx : ∀ c < n, x ≠ (c, .endOfPartition) ∧ x ≠ (c, .endOfSuperstep)) :
    t.Recalls n past (piece ++ [x]) where
  partitions := h.partitions
  supersteps := h.supersteps
  ended c hc := by
    rw [← List.append_assoc, mem_concat_of_ne (hx c hc).1.symm]
    exact h.ended c hc
  arrived c hc := by
    rw [mem_concat_of_ne (hx c hc).2.symm]
    exact h.arrived c hc

/-- After any event, on any channel, the tracker recalls that event too. -/
theorem handle (h : t.Recalls n past piece) (c : Nat) (e : Event) :
    (t.handle c e).tracker.Recalls n past (piece ++ [(c, e)]) := by
  unfold SuperstepTracker.handle
  by_cases hc : c < t.channels
  · rw [if_pos hc]
    have hp : c < t.partitionEnded.length := hc
    have hs : c < t.superstepEnded.length := by rwa [h.supersteps, ← h.partitions]
    cases e with
    | endOfPartition =>
      refine ⟨List.length_set.trans h.partitions, h.supersteps, fun d hd => ?_, fun d hd => ?_⟩
      · rw [← List.append_assoc]
        exact getD_set_iff hp (h.ended d hd)
      · rw [mem_concat_of_ne (by simp)]
        exact h.arrived d hd
    | endOfSuperstep =>
      refine ⟨h.partitions, List.length_set.trans h.supersteps, fun d hd => ?_, fun d hd => ?_⟩
      · rw [← List.append_assoc, mem_concat_of_ne (by simp)]
        exact h.ended d hd
      · exact getD_set_iff hs (h.arrived d hd)
    | custom kind payload => exact h.concat (by simp)
    | barrier b => exact h.concat (by simp)
  · rw [if_neg hc]
    refine h.concat fun d hd => ?_
    have hne : c ≠ d := by rw [channels, h.partitions] at hc; omega
    simp [hne]

/-- A superstep that begins has seen nothing yet. -/
theorem startNext (h : t.Recalls n past piece) : t.startNext.Recalls n (past ++ piece) [] where
  partitions := h.partitions
  supersteps := by rw [SuperstepTracker.startNext, List.length_map, h.supersteps]
  ended c hc := by rw [List.append_nil]; exact h.ended c hc
  arrived c hc := by simp [SuperstepTracker.startNext, h.supersteps, hc]

section Answers

variable {c : Nat} (h : t.Recalls n past piece) (hc : c < n)
include h hc

theorem lt_channels : c < t.channels := by rwa [channels, h.partitions]

/-- While some channel goes on, an end of partition or of superstep ends the superstep exactly if
no channel is missing. -/
theorem answer_of_open {e : Event} (he : e = .endOfSuperstep ∨ e = .endOfPartition)
    (hopen : ¬AllEnded n (past ++ (piece ++ [(c, e)]))) :
    ∃ outcome, (t.handle c e).answer = .ok outcome ∧ outcome ≠ .finished ∧
      (outcome = .endOfSuperstep ↔ Complete n past (piece ++ [(c, e)])) := by
  have hafter := h.handle c e
  have hover : (t.handle c e).tracker.isSuperstepOver = true ↔
      Complete n past (piece ++ [(c, e)]) := by
    rw [hafter.isSuperstepOver_iff, and_iff_right_iff_imp]
    exact fun hcomplete => hcomplete.exists_of_not_allEnded hopen
  rw [← hafter.isFinished_iff] at hopen
  rw [← hover]
  refine ⟨if (t.handle c e).tracker.isSuperstepOver then .endOfSuperstep else .proceed, ?_, ?_, ?_⟩
  · unfold SuperstepTracker.handle at hopen ⊢
    rw [if_pos (h.lt_channels hc)] at hopen ⊢
    obtain rfl | rfl := he
    · rfl
    · exact congrArg Except.ok (if_neg hopen)
  · split <;> simp
  · split <;> simp_all

/-- The last channel to end finishes the input. -/
theorem answer_of_allEnded (hend : AllEnded n (past ++ (piece ++ [(c, .endOfPartition)]))) :
    (t.handle c .endOfPartition).answer = .ok .finished := by
  rw [← (h.handle c .endOfPartition).isFinished_iff] at hend
  unfold SuperstepTracker.handle at hend ⊢
  rw [if_pos (h.lt_channels hc)] at hend ⊢
  exact congrArg Except.ok (if_pos hend)

end Answers

end Recalls

end SuperstepTracker

end StreamCheckpoint
