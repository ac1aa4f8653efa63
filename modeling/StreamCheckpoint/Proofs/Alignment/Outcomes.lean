import StreamCheckpoint.Proofs.Alignment.Operations

/-! How checkpoints end, over a whole run.  A notice is about the checkpoint in flight or about one
that is newer than every checkpoint seen, and once it is sent the checkpoint is over.  That composes
over calls (`Progress.trans`), so every checkpoint has at most one outcome, and outcomes come in
increasing order (`outcomes_increase`). -/

namespace StreamCheckpoint

namespace Aligner

/-- There was a barrier of the checkpoint `k` or of a newer one. -/
def Seen (a : Aligner) (k : Nat) : Prop := ∃ l, a.latest = some l ∧ k ≤ l

/-- `a'` comes after `a`, and `ns` was sent in between. -/
structure Progress (a : Aligner) (ns : List Notice) (a' : Aligner) : Prop where
  increasing : (ns.map (·.checkpoint)).Pairwise (· < ·)
  fresh : ∀ x ∈ ns, a.current = some x.checkpoint ∨ ¬a.Seen x.checkpoint
  ended : ∀ x ∈ ns, a'.Seen x.checkpoint ∧ a'.current ≠ some x.checkpoint
  seen : ∀ k, a.Seen k → a'.Seen k
  current : ∀ k, a'.current = some k → a.current = some k ∨ ¬a.Seen k

section Progress

variable {a a' a'' : Aligner} {ns ms : List Notice} {f : Alignment} {b : Barrier} {channel k : Nat}

theorem seen_iff {l : Nat} (h : a.latest = some l) : a.Seen k ↔ k ≤ l := by
  simp [Seen, h]

theorem not_seen_iff : ¬a.Seen k ↔ ∀ l, a.latest = some l → l < k := by
  simp [Seen]

theorem Sound.latest_of_current (hs : a.Sound) (h : a.current = some k) : a.latest = some k := by
  obtain ⟨f, flight, rfl⟩ := Option.map_eq_some_iff.mp h
  exact (hs f flight).latest

theorem current_of_inFlight (h : a.inFlight = some f) : a.current = some f.barrier.id := by
  rw [current, h, Option.map_some]

theorem current_of_idle (h : a.inFlight = none) : a.current = none := by
  rw [current, h, Option.map_none]

theorem Progress.trans (h : a.Progress ns a') (hs : a'.Sound) (h' : a'.Progress ms a'') :
    a.Progress (ns ++ ms) a'' := by
  refine ⟨?_, fun x hx => ?_, fun x hx => ?_, fun k hk => h'.seen k (h.seen k hk), fun k hk => ?_⟩
  · rw [List.map_append, List.pairwise_append]
    refine ⟨h.increasing, h'.increasing, ?_⟩
    intro i hi j hj
    obtain ⟨x, hx, rfl⟩ := List.mem_map.mp hi
    obtain ⟨y, hy, rfl⟩ := List.mem_map.mp hj
    obtain ⟨⟨l, hl, hle⟩, hne⟩ := h.ended x hx
    rcases h'.fresh y hy with hc | hn
    · obtain rfl := Option.some.inj (hl.symm.trans (hs.latest_of_current hc))
      refine Nat.lt_of_le_of_ne hle fun e => hne ?_
      rw [hc, e]
    · exact Nat.lt_of_le_of_lt hle (not_seen_iff.mp hn l hl)
  · rcases List.mem_append.mp hx with hx | hx
    · exact h.fresh x hx
    · rcases h'.fresh x hx with hc | hn
      · exact h.current _ hc
      · exact .inr fun hk => hn (h.seen _ hk)
  · rcases List.mem_append.mp hx with hx | hx
    · obtain ⟨hk, hne⟩ := h.ended x hx
      exact ⟨h'.seen _ hk, fun hc => (h'.current _ hc).elim hne fun hn => hn hk⟩
    · exact h'.ended x hx
  · rcases h'.current k hk with hc | hn
    · exact h.current k hc
    · exact .inr fun hk => hn (h.seen k hk)

theorem progress_of_same (latest : a'.latest = a.latest) (current : a'.current = a.current) :
    a.Progress [] a' := by
  refine ⟨.nil, nofun, nofun, fun k hk => ?_, fun k hk => .inl (current ▸ hk)⟩
  unfold Seen
  rwa [latest]

/-- The alignment in flight ends, with or without a notice. -/
theorem progress_of_ended (hs : a.Sound) (flight : a.inFlight = some f)
    (latest : a'.latest = a.latest) (idle : a'.inFlight = none)
    (about : ∀ x ∈ ns, x.checkpoint = f.barrier.id) (one : ns.length ≤ 1) : a.Progress ns a' := by
  have hc := current_of_idle idle
  refine ⟨?_, fun x hx => ?_, fun x hx => ⟨?_, ?_⟩, fun k hk => ?_, fun k hk => ?_⟩
  · match ns with
    | [] => exact .nil
    | [x] => exact List.pairwise_singleton _ _
    | _ :: _ :: _ => simp at one
  · rw [about x hx]
    exact .inl (current_of_inFlight flight)
  · rw [about x hx]
    exact ⟨_, latest.trans (hs f flight).latest, Nat.le_refl _⟩
  · rw [hc]
    exact nofun
  · unfold Seen
    rwa [latest]
  · rw [hc] at hk
    cases hk

/-- A checkpoint that is newer than every other is begun, and ended at once or not. -/
theorem progress_of_begun (newer : ¬a.Seen b.id)
    (latest : a'.latest = some b.id)
    (outcome : ns = [] ∧ a'.current = some b.id ∨
      a'.current = none ∧ ∃ x, ns = [x] ∧ x.checkpoint = b.id) : a.Progress ns a' := by
  have hseen : ∀ k, a.Seen k → a'.Seen k := by
    intro k hk
    obtain ⟨l, hl, hle⟩ := hk
    have := not_seen_iff.mp newer l hl
    exact (seen_iff latest).mpr (by omega)
  rcases outcome with ⟨rfl, hc⟩ | ⟨hc, x, rfl, hx⟩
  · refine ⟨.nil, nofun, nofun, hseen, fun k hk => ?_⟩
    obtain rfl := Option.some.inj (hc.symm.trans hk)
    exact .inr newer
  · refine ⟨List.pairwise_singleton _ _, ?_, ?_, hseen, fun k hk => ?_⟩
    · simpa [hx] using .inr newer
    · simp [hc, hx, seen_iff latest]
    · rw [hc] at hk
      cases hk

theorem Clears.progress (h : a.Clears b ns a') (hs : a.Sound) :
    a.Progress ns a' ∧ ¬a'.Seen b.id := by
  have hn : ¬a.Seen b.id := not_seen_iff.mpr (h.newer hs)
  cases h with
  | idle => exact ⟨progress_of_same rfl rfl, hn⟩
  | superseded flight newer =>
    exact ⟨progress_of_ended hs flight rfl rfl (by simp [Notice.checkpoint]) (Nat.le_refl _), hn⟩

theorem Offers.progress {o : Reaction (Except AlignmentError Unit)} (h : a.Offers channel b o)
    (hs : a.Sound) : a.Progress o.notices o.aligner := by
  cases h with
  | stale => exact progress_of_same rfl rfl
  | duplicate => exact progress_of_same rfl rfl
  | joined flight => exact progress_of_same rfl (by rw [current, current, flight]; rfl)
  | cancelled flight =>
    exact progress_of_ended hs flight rfl rfl (by simp [Notice.checkpoint]) (Nat.le_refl _)
  | completed flight =>
    exact progress_of_ended hs flight rfl rfl (by simp [Notice.checkpoint]) (Nat.le_refl _)
  | refused clear =>
    obtain ⟨hp, hn⟩ := clear.progress hs
    have idle := clear.closed.2
    exact hp.trans (sound_of_idle idle)
      (progress_of_begun hn rfl (.inr ⟨current_of_idle idle, _, rfl, rfl⟩))
  | instant clear =>
    obtain ⟨hp, hn⟩ := clear.progress hs
    have idle := clear.closed.2
    exact hp.trans (sound_of_idle idle)
      (progress_of_begun hn rfl (.inr ⟨current_of_idle idle, _, rfl, rfl⟩))
  | @begun ended a' clear =>
    obtain ⟨hp, hn⟩ := clear.progress hs
    have begun : a'.Progress []
        { a' with latest := some b.id, inFlight := some (.first a.channels channel b) } :=
      progress_of_begun hn rfl (.inl ⟨rfl, rfl⟩)
    simpa using hp.trans (sound_of_idle clear.closed.2) begun

theorem Closes.progress {o : Reaction (Except AlignmentError Unit)} (h : a.Closes channel o)
    (hs : a.Sound) : a.Progress o.notices o.aligner := by
  cases h with
  | completed _ flight =>
    exact progress_of_ended hs flight rfl rfl (by simp [Notice.checkpoint]) (Nat.le_refl _)
  | aborted _ flight =>
    exact progress_of_ended hs flight rfl rfl (by simp [Notice.checkpoint]) (Nat.le_refl _)
  | _ => exact progress_of_same rfl rfl

theorem Performs.progress {op : Operation} {r : Reaction (Except AlignmentError Answer)}
    (h : a.Performs op r) (hs : a.Sound) : a.Progress r.notices r.aligner := by
  cases h with
  | offered _ offers => exact offers.progress hs
  | closed _ closes => exact closes.progress hs
  | overflowed flight =>
    exact progress_of_ended hs flight rfl rfl (by simp [Notice.checkpoint]) (Nat.le_refl _)
  | dropped =>
    cases flight : a.inFlight with
    | none => exact progress_of_same rfl (current_of_idle flight).symm
    | some f => exact progress_of_ended hs flight rfl rfl (by simp) (Nat.zero_le _)
  | kept => exact progress_of_same rfl rfl

theorem Clears.reason_eq {reason : AbortReason} (h : a.Clears b ns a')
    (hk : .aborted k reason ∈ ns) : reason = .newerCheckpoint b.id := by
  cases h with
  | idle => cases hk
  | superseded =>
    cases List.mem_singleton.mp hk
    rfl

/-- A barrier gives a checkpoint up because it abandons it or because it is newer. -/
theorem Offers.reason_eq {o : Reaction (Except AlignmentError Unit)} {reason : AbortReason}
    (h : a.Offers channel b o) (hk : .aborted k reason ∈ o.notices) :
    reason = .cancelled ∨ reason = .newerCheckpoint b.id := by
  cases h with
  | cancelled =>
    cases List.mem_singleton.mp hk
    exact .inl rfl
  | refused clear =>
    rcases List.mem_append.mp hk with hk | hk
    · exact .inr (clear.reason_eq hk)
    · cases List.mem_singleton.mp hk
      exact .inl rfl
  | instant clear =>
    rcases List.mem_append.mp hk with hk | hk
    · exact .inr (clear.reason_eq hk)
    · simp at hk
  | begun clear => exact .inr (clear.reason_eq hk)
  | _ => simp at hk

/-- What is held back does not matter to the progress of checkpoints. -/
theorem Progress.of_bare (h : a.bare.Progress ns a'.bare) : a.Progress ns a' := by
  obtain ⟨increasing, fresh, ended, seen, current⟩ := h
  simp only [current_bare] at fresh ended current
  exact ⟨increasing, fresh, ended, seen, current⟩

theorem progress_run (hs : a.bare.Sound) (ops : List Operation) :
    a.Progress (a.run ops).1 (a.run ops).2 := by
  refine .of_bare (run_induction (P := fun _ ns s => a.bare.Progress ns s ∧ s.Sound)
    ⟨progress_of_same rfl rfl, hs⟩ (fun _ _ s _ _ hs h => ?_) ops).1
  exact ⟨hs.1.trans hs.2 (h.progress hs.2), h.sound hs.2⟩

end Progress

/-- The outcomes of checkpoints come in strictly increasing order.  The newest checkpoint never
becomes an older one, and it is the one in flight if there is any.  No checkpoint up to it is begun
again: unless it is in flight it never is, and there is no notice of it, also if it was dropped. -/
theorem outcomes_increase {channels : Nat} {settings : AlignmentSettings} {a : Aligner}
    (h : new channels settings = .ok a) (ops more : List Operation) :
    let s := (a.run ops).2
    ((a.run ops).1.map (·.checkpoint)).Pairwise (· < ·) ∧
    (∀ x ∈ (a.run ops).1, s.current ≠ some x.checkpoint ∧
      ∃ l, s.latest = some l ∧ x.checkpoint ≤ l) ∧
    (∀ l, s.latest = some l → ∃ l', (s.run more).2.latest = some l' ∧ l ≤ l') ∧
    (∀ k, s.current = some k → s.latest = some k) ∧
    (∀ k l, s.latest = some l → k ≤ l → s.current ≠ some k →
      (s.run more).2.current ≠ some k ∧ ∀ x ∈ (s.run more).1, x.checkpoint ≠ k) ∧
    ∀ k, s.current = some k → ∀ x ∈ (s.cleanup.run more).1, k < x.checkpoint := by
  intro s
  obtain ⟨-, rfl⟩ := new_spec h
  have hfirst := sound_of_idle (a := Aligner.bare
    { closed := List.replicate channels false, settings }) rfl
  have hs : s.bare.Sound := sound_run hfirst ops
  have past := progress_run hfirst ops
  have next := progress_run hs more
  have hcurrent : ∀ k, s.current = some k → s.latest = some k := by
    intro k hk
    rw [← current_bare] at hk
    exact hs.latest_of_current hk
  refine ⟨past.increasing, fun x hx => (past.ended x hx).symm,
    fun l hl => next.seen l ⟨l, hl, Nat.le_refl l⟩, hcurrent, fun k l hl hle hne => ?_,
    fun k hk x hx => ?_⟩
  · have hk : s.Seen k := ⟨l, hl, hle⟩
    refine ⟨fun hc => (next.current k hc).elim hne fun hn => hn hk, ?_⟩
    rintro x hx rfl
    exact (next.fresh x hx).elim hne fun hn => hn hk
  · -- what is dropped is no longer in flight, but still the newest checkpoint
    have later := progress_run (a := s.cleanup) (sound_of_idle rfl) more
    rcases later.fresh x hx with hc | hn
    · cases hc
    · exact not_seen_iff.mp hn k (hcurrent k hk)

/-- The second barrier takes the place of the first and abandons its own checkpoint.  The third is
in flight until it is dropped, and its checkpoint is not begun again. -/
def supersededCalls : List Operation :=
  [.offer 0 (.barrier (.plain 1 0)), .offer 1 (.barrier ⟨2, 0, Barrier.cancelBit⟩),
    .offer 0 (.barrier (.plain 3 0))]

def droppedCalls : List Operation :=
  [.offer 1 (.barrier (.plain 3 0)), .offer 2 (.barrier (.plain 4 0)), .close 0, .close 1]

theorem outcomes_increase_superseded :
    let a : Aligner := { closed := List.replicate 3 false }
    let s := (a.run supersededCalls).2
    new 3 = .ok a ∧ s.current = some 3 ∧
      (a.run supersededCalls).1 = [.aborted 1 (.newerCheckpoint 2), .aborted 2 .cancelled] ∧
      (s.cleanup.run droppedCalls).1 = [.complete (.plain 4 0)] ∧
      ((a.run supersededCalls).1.map (·.checkpoint)).Pairwise (· < ·) ∧
      ∀ x ∈ (s.cleanup.run droppedCalls).1, 3 < x.checkpoint := by
  intro a s
  obtain ⟨increasing, -, -, -, -, dropped⟩ :=
    outcomes_increase (show new 3 = .ok a from rfl) supersededCalls droppedCalls
  exact ⟨rfl, by decide, by decide, by decide, increasing, dropped 3 (by decide)⟩

end Aligner

end StreamCheckpoint
