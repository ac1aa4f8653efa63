import StreamCheckpoint.Proofs.Channel.Flags
import StreamCheckpoint.Proofs.Gate.Moves

/-! What goes through a gate.  Every move keeps the state in step with the log (`Serves`), so that
what the gate answers next is read off the log and the queue (`Reads`).  The traffic of each channel
comes out in order and up to its end, whatever the writers do (`delivers_of_run`). -/

namespace StreamCheckpoint

namespace ChannelGate

/-- The gate serves `n` channels, and `log` is what happened since it was made. -/
structure Serves (g : ChannelGate) (n : Nat) (log : List Occurrence) : Prop where
  isOpen : g.isOpen = true
  channels : g.finished.length = n
  writers : g.writers.length = n
  range : ∀ i ∈ g.queue, i.channel < n
  ended : ∀ c < n, g.finished.getD c false = true ↔ HasEnded c log
  held : ∀ c < n, g.hasWriter c = true ↔ .gaveUp c ∉ log
  account : ∀ c, Account (written c log) (returned c log) (contentsOf c g.queue) (rejections c log)

theorem serves_new {n capacity : Nat} {g : ChannelGate} (h : new n capacity = .ok g) :
    g.Serves n [] := by
  unfold new at h
  split at h
  · cases h
  · cases h
    refine ⟨rfl, List.length_replicate, List.length_replicate, by simp, fun c hc => ?_,
      fun c hc => ?_, fun c => .nil⟩
    · simp [hc, HasEnded, returned]
    · simp [hc, hasWriter]

namespace Serves

variable {g : ChannelGate} {n : Nat} {log : List Occurrence}

/-- What is neither a success nor the loss of a writer or of an item leaves everything as it
is. -/
theorem quiet (h : g.Serves n log) {o : Occurrence} (hput : o.put? = none) (hgot : o.got? = none)
    (hlost : ∀ c, o ≠ .gaveUp c ∧ o ≠ .read (.arrival (.failed (.channelClosed c)))) :
    g.Serves n (log ++ [o]) where
  isOpen := h.isOpen
  channels := h.channels
  writers := h.writers
  range := h.range
  ended c hc := (h.ended c hc).trans (hasEnded_of_got hgot).symm
  held c hc := by
    rw [h.held c hc]
    simp [(hlost c).1.symm]
  account c := by
    rw [written_append, written_of_put hput, returned_append, returned_of_got hgot,
      rejections_append, rejections_of_ne (hlost c).2, List.append_nil, List.append_nil]
    exact h.account c

/-- What is put into the queue is on the account of its channel. -/
theorem put (h : g.Serves n log) {c : Nat} (hc : c < n) (x : Content) :
    Serves { g with queue := g.queue ++ [⟨c, x⟩] } n (log ++ [.wrote c x .sent]) where
  isOpen := h.isOpen
  channels := h.channels
  writers := h.writers
  range i hi := by
    obtain hi | hi := List.mem_append.mp hi
    · exact h.range i hi
    · rw [List.mem_singleton.mp hi]
      exact hc
  ended d hd := (h.ended d hd).trans (hasEnded_of_got rfl).symm
  held d hd := (h.held d hd).trans (by simp)
  account d := by
    have hd := h.account d
    rw [written_append, written_sent, returned_append, returned_of_got rfl, List.append_nil,
      rejections_append, rejections_of_ne (by simp), contentsOf_append, contentsOf_cons,
      contentsOf_nil, List.append_nil]
    split
    · exact hd.put x
    · rwa [List.append_nil, List.append_nil]

theorem lt_of_hasWriter (h : g.Serves n log) {c : Nat} (hc : g.hasWriter c = true) : c < n := by
  rw [← h.writers]
  refine Classical.byContradiction fun hge => ?_
  simp [hasWriter, Nat.le_of_not_lt hge] at hc

theorem send (h : g.Serves n log) (c : Nat) (x : Content) :
    (g.send c x).2.Serves n (log ++ [.wrote c x (g.send c x).1]) := by
  unfold ChannelGate.send
  by_cases hwriter : g.hasWriter c
  · simp only [hwriter, h.isOpen, Bool.not_true, Bool.false_eq_true, if_false]
    split
    · exact h.quiet rfl rfl (by simp)
    · rw [← h.isOpen]
      exact h.put (h.lt_of_hasWriter hwriter) x
  · simp only [hwriter, Bool.not_false, if_true]
    exact h.quiet rfl rfl (by simp)

theorem dropWriter (h : g.Serves n log) (c : Nat) :
    (g.dropWriter c).Serves n (log ++ [.gaveUp c]) where
  isOpen := h.isOpen
  channels := h.channels
  writers := List.length_set.trans h.writers
  range := h.range
  ended d hd := (h.ended d hd).trans (hasEnded_of_got rfl).symm
  held d hd := by
    rw [hasWriter, ChannelGate.dropWriter, getD_set, List.mem_append, List.mem_singleton]
    by_cases hcd : c = d
    · subst hcd
      simp [h.writers, hd]
    · rw [if_neg fun hand => hcd hand.1, ← hasWriter, h.held d hd]
      simp [Ne.symm hcd]
  account d := by
    rw [written_append, written_of_put rfl, returned_append, returned_of_got rfl,
      rejections_append, rejections_of_ne (by simp), List.append_nil, List.append_nil]
    exact h.account d

theorem close (h : g.Serves n log) (c : Nat) :
    (g.act (.close c)).2.Serves n (log ++ (g.act (.close c)).1) := by
  have hsent := h.send c (.event .endOfPartition)
  simp only [act, ChannelGate.close]
  by_cases hblock : (g.send c (.event .endOfPartition)).1 = .wouldBlock
  · simpa [hblock] using hsent
  · simpa [hblock] using hsent.dropWriter c

theorem isFinished_iff (h : g.Serves n log) :
    g.isFinished = true ↔ ∀ c < n, HasEnded c log := by
  rw [isFinished, all_iff_getD, h.channels]
  exact forall₂_congr h.ended

theorem any_writers_iff (h : g.Serves n log) :
    g.writers.any id = true ↔ ∃ c < n, .gaveUp c ∉ log := by
  rw [any_iff_getD, h.writers]
  exact exists_congr fun c => and_congr_right fun hc => h.held c hc

theorem openChannels_eq (h : g.Serves n log) :
    g.openChannels = (List.range n).countP (¬HasEnded · log) := by
  rw [openChannels, countP_eq_range, h.channels]
  refine List.countP_congr fun c hc => ?_
  rw [decide_eq_true_iff, ← h.ended c (List.mem_range.mp hc), Bool.not_eq_true', Bool.not_eq_true]

section Next

variable {i : Item} {rest : List Item}

theorem next_of_all (h : g.Serves n log) (hall : ∀ c < n, HasEnded c log) :
    g.next = (.arrival .exhausted, g) := by
  rw [ChannelGate.next, if_neg (by simp [h.isOpen]), if_pos (h.isFinished_iff.mpr hall)]

/-- While some channel goes on, the answer depends on the queue. -/
theorem next_of_open (h : g.Serves n log) (hopen : ∃ c < n, ¬HasEnded c log) :
    g.next = match g.queue with
      | item :: queue =>
        (.arrival (receive g.finished item).1, { g with
          queue, finished := (receive g.finished item).2 })
      | [] =>
        if g.writers.any id then (.wouldBlock, g)
        else (.arrival (.failed (.disconnected g.openChannels)), g) := by
  obtain ⟨c, hc, hend⟩ := hopen
  have hnot : ¬g.isFinished = true := fun hall => hend (h.isFinished_iff.mp hall c hc)
  unfold ChannelGate.next
  exact (if_neg (by simp [h.isOpen])).trans (if_neg hnot)

theorem next_of_item (h : g.Serves n log) (hq : g.queue = i :: rest)
    (hgoes : ¬HasEnded i.channel log) :
    g.next = (.arrival (.item i), { g with
      queue := rest
      finished := if i.content = .event .endOfPartition then g.finished.set i.channel true
        else g.finished }) := by
  have hi := h.range i (hq ▸ List.mem_cons_self)
  rw [h.next_of_open ⟨_, hi, hgoes⟩, hq]
  rw [← h.ended i.channel hi] at hgoes
  dsimp only
  rw [receive, if_neg hgoes]
  split <;> rfl

theorem next_of_late (h : g.Serves n log) (hopen : ∃ c < n, ¬HasEnded c log)
    (hq : g.queue = i :: rest) (hended : HasEnded i.channel log) :
    g.next = (.arrival (.failed (.channelClosed i.channel)), { g with queue := rest }) := by
  have hi := h.range i (hq ▸ List.mem_cons_self)
  rw [h.next_of_open hopen, hq]
  dsimp only
  rw [receive, if_pos ((h.ended i.channel hi).mpr hended)]

theorem next_of_waiting (h : g.Serves n log) (hopen : ∃ c < n, ¬HasEnded c log)
    (hq : g.queue = []) (hwriter : ∃ c < n, .gaveUp c ∉ log) : g.next = (.wouldBlock, g) := by
  rw [h.next_of_open hopen, hq]
  exact if_pos (h.any_writers_iff.mpr hwriter)

theorem next_of_disconnected (h : g.Serves n log) (hopen : ∃ c < n, ¬HasEnded c log)
    (hq : g.queue = []) (hwriters : ∀ c < n, .gaveUp c ∈ log) :
    g.next = (.arrival (.failed (.disconnected g.openChannels)), g) := by
  rw [h.next_of_open hopen, hq]
  refine if_neg fun hany => ?_
  obtain ⟨c, hc, hno⟩ := h.any_writers_iff.mp hany
  exact hno (hwriters c hc)

end Next

end Serves

/-- What a call for the next item can come to, read off the log and the queue. -/
inductive Reads (g : ChannelGate) (n : Nat) (log : List Occurrence) : Received × ChannelGate → Prop
  | exhausted (all : ∀ c < n, HasEnded c log) : Reads g n log (.arrival .exhausted, g)
  | item {i : Item} {rest : List Item} (queue : g.queue = i :: rest)
      (goesOn : ¬HasEnded i.channel log) :
      Reads g n log (.arrival (.item i), { g with
        queue := rest
        finished := if i.content = .event .endOfPartition then g.finished.set i.channel true
          else g.finished })
  | rejected {i : Item} {rest : List Item} (queue : g.queue = i :: rest)
      (unfinished : ∃ c < n, ¬HasEnded c log) (ended : HasEnded i.channel log) :
      Reads g n log
        (.arrival (.failed (.channelClosed i.channel)), { g with queue := rest })
  | waits (queue : g.queue = []) (unfinished : ∃ c < n, ¬HasEnded c log)
      (writer : ∃ c < n, .gaveUp c ∉ log) : Reads g n log (.wouldBlock, g)
  | disconnected (queue : g.queue = []) (unfinished : ∃ c < n, ¬HasEnded c log)
      (writers : ∀ c < n, .gaveUp c ∈ log) :
      Reads g n log (.arrival (.failed (.disconnected g.openChannels)), g)

namespace Serves

variable {g : ChannelGate} {n : Nat} {log : List Occurrence}

theorem reads (h : g.Serves n log) : g.Reads n log g.next := by
  by_cases hall : ∀ c < n, HasEnded c log
  · rw [h.next_of_all hall]
    exact .exhausted hall
  have hopen : ∃ c < n, ¬HasEnded c log := by simpa using hall
  cases hq : g.queue with
  | nil =>
    by_cases hwriters : ∀ c < n, .gaveUp c ∈ log
    · rw [h.next_of_disconnected hopen hq hwriters]
      exact .disconnected hq hopen hwriters
    · have hwriter : ∃ c < n, .gaveUp c ∉ log := by simpa using hwriters
      rw [h.next_of_waiting hopen hq hwriter]
      exact .waits hq hopen hwriter
  | cons i rest =>
    by_cases hended : HasEnded i.channel log
    · rw [h.next_of_late hopen hq hended]
      exact .rejected hq hopen hended
    · rw [h.next_of_item hq hended]
      exact .item hq hended

/-- What the queue holds for its first item's channel, and for the others. -/
theorem account_cons (h : g.Serves n log) {i : Item} {rest : List Item} (hq : g.queue = i :: rest)
    (c : Nat) : Account (written c log) (returned c log)
      ((if i.channel = c then [i.content] else []) ++ contentsOf c rest) (rejections c log) := by
  rw [← contentsOf_cons, ← hq]
  exact h.account c

/-- An item that the task is given. -/
theorem give (h : g.Serves n log) {i : Item} {rest : List Item} (hq : g.queue = i :: rest)
    (hopen : ¬HasEnded i.channel log) :
    Serves { g with
      queue := rest
      finished := if i.content = .event .endOfPartition then g.finished.set i.channel true
        else g.finished } n (log ++ [.read (.arrival (.item i))]) where
  isOpen := h.isOpen
  channels := by
    rw [← h.channels]
    split
    · exact List.length_set
    · rfl
  writers := h.writers
  range j hj := h.range j (hq ▸ List.mem_cons_of_mem i hj)
  ended c hc := by
    rw [hasEnded_append, hasEnded_item, ← h.ended c hc]
    by_cases hend : i.content = .event .endOfPartition
    · rw [if_pos hend, getD_set, h.channels]
      by_cases hic : i.channel = c
      · simp [hic, hend, hc]
      · simp [hic]
    · simp [hend]
  held c hc := (h.held c hc).trans (by simp)
  account c := by
    have hacc := h.account_cons hq c
    rw [written_append, written_of_put rfl, List.append_nil, returned_append, returned_item,
      rejections_append, rejections_of_ne (by simp), contentsOf_cons, contentsOf_nil,
      List.append_nil]
    by_cases hic : i.channel = c
    · rw [if_pos hic] at hacc ⊢
      exact hacc.give (hic ▸ hopen)
    · rw [if_neg hic] at hacc ⊢
      rwa [List.append_nil]

/-- An item that comes after the end of its channel. -/
theorem reject (h : g.Serves n log) {i : Item} {rest : List Item} (hq : g.queue = i :: rest)
    (hended : HasEnded i.channel log) :
    Serves { g with queue := rest } n
      (log ++ [.read (.arrival (.failed (.channelClosed i.channel)))]) where
  isOpen := h.isOpen
  channels := h.channels
  writers := h.writers
  range j hj := h.range j (hq ▸ List.mem_cons_of_mem i hj)
  ended c hc := (h.ended c hc).trans (hasEnded_of_got rfl).symm
  held c hc := (h.held c hc).trans (by simp)
  account c := by
    have hacc := h.account_cons hq c
    rw [written_append, written_of_put rfl, List.append_nil, returned_append, returned_of_got rfl,
      List.append_nil, rejections_append]
    by_cases hic : i.channel = c
    · rw [if_pos hic] at hacc
      subst hic
      rw [rejections, rejections, List.count_singleton_self]
      exact hacc.reject hended
    · rw [if_neg hic] at hacc
      rw [rejections_of_ne (by simpa using hic)]
      exact hacc

theorem next (h : g.Serves n log) : g.next.2.Serves n (log ++ [.read g.next.1]) := by
  have hreads := h.reads
  generalize g.next = answer at hreads
  cases hreads with
  | exhausted => exact h.quiet rfl rfl (by simp)
  | item queue goesOn => exact h.give queue goesOn
  | rejected queue _ ended => exact h.reject queue ended
  | waits => exact h.quiet rfl rfl (by simp)
  | disconnected => exact h.quiet rfl rfl (by simp)

theorem act (h : g.Serves n log) (m : Move) : (g.act m).2.Serves n (log ++ (g.act m).1) := by
  cases m with
  | send channel content => exact h.send channel content
  | close channel => exact h.close channel
  | drop channel => exact h.dropWriter channel
  | next => exact h.next

theorem run (h : g.Serves n log) (moves : List Move) :
    (g.run moves).2.Serves n (log ++ (g.run moves).1) := by
  induction moves generalizing g log with
  | nil => simpa [ChannelGate.run] using h
  | cons m moves ih =>
    rw [ChannelGate.run, ← List.append_assoc]
    exact ih (h.act m)

end Serves

/-- What the writers and the task can rely on, `log` being what happened so far. -/
structure Delivers (g : ChannelGate) (n : Nat) (log : List Occurrence) : Prop where
  /-- A channel's items are given in order, without a gap, up to its end. -/
  account : ∀ c,
    Account (written c log) (returned c log) (contentsOf c g.queue) (rejections c log)
  given : ∀ i, g.next.1 = .arrival (.item i) ↔
    (∃ rest, g.queue = i :: rest) ∧ ¬HasEnded i.channel log
  rejected : ∀ c, g.next.1 = .arrival (.failed (.channelClosed c)) ↔
    (∃ x rest, g.queue = ⟨c, x⟩ :: rest) ∧ HasEnded c log ∧ ∃ d < n, ¬HasEnded d log
  /-- An item that comes too late is taken from the queue, and nothing else changes. -/
  skipped : ∀ c, g.next.1 = .arrival (.failed (.channelClosed c)) →
    g.next.2 = { g with queue := g.queue.tail }
  exhausted : g.next.1 = .arrival .exhausted ↔ ∀ c < n, HasEnded c log
  /-- Whatever is done to an exhausted gate, it stays exhausted. -/
  forever : g.next.1 = .arrival .exhausted →
    ∀ moves, (g.run moves).2.next.1 = .arrival .exhausted
  disconnected : ∀ k, g.next.1 = .arrival (.failed (.disconnected k)) ↔
    g.queue = [] ∧ (∀ c < n, .gaveUp c ∈ log) ∧
      1 ≤ k ∧ k = (List.range n).countP (¬HasEnded · log)

namespace Serves

variable {g : ChannelGate} {n : Nat} {log : List Occurrence}

theorem next_item_iff (h : g.Serves n log) (i : Item) : g.next.1 = .arrival (.item i) ↔
    (∃ rest, g.queue = i :: rest) ∧ ¬HasEnded i.channel log := by
  constructor
  · intro hanswer
    have hreads := h.reads
    generalize g.next = answer at hreads hanswer
    cases hreads with
    | item queue goesOn =>
      cases hanswer
      exact ⟨⟨_, queue⟩, goesOn⟩
    | _ => cases hanswer
  · rintro ⟨⟨rest, hq⟩, hgoes⟩
    rw [h.next_of_item hq hgoes]

theorem next_channelClosed_iff (h : g.Serves n log) (c : Nat) :
    g.next.1 = .arrival (.failed (.channelClosed c)) ↔
      (∃ x rest, g.queue = ⟨c, x⟩ :: rest) ∧ HasEnded c log ∧ ∃ d < n, ¬HasEnded d log := by
  constructor
  · intro hanswer
    have hreads := h.reads
    generalize g.next = answer at hreads hanswer
    cases hreads with
    | rejected queue goesOn ended =>
      cases hanswer
      exact ⟨⟨_, _, queue⟩, ended, goesOn⟩
    | _ => cases hanswer
  · rintro ⟨⟨x, rest, hq⟩, hended, hopen⟩
    rw [h.next_of_late hopen hq hended]

theorem next_exhausted_iff (h : g.Serves n log) :
    g.next.1 = .arrival .exhausted ↔ ∀ c < n, HasEnded c log := by
  constructor
  · intro hanswer
    have hreads := h.reads
    generalize g.next = answer at hreads hanswer
    cases hreads with
    | exhausted all => exact all
    | _ => cases hanswer
  · intro hall
    rw [h.next_of_all hall]

theorem one_le_openChannels (h : g.Serves n log) (hopen : ∃ c < n, ¬HasEnded c log) :
    1 ≤ g.openChannels := by
  obtain ⟨c, hc, hend⟩ := hopen
  rw [h.openChannels_eq]
  exact List.countP_pos_iff.mpr ⟨c, List.mem_range.mpr hc, by simpa using hend⟩

theorem next_disconnected_iff (h : g.Serves n log) (k : Nat) :
    g.next.1 = .arrival (.failed (.disconnected k)) ↔ g.queue = [] ∧
      (∀ c < n, .gaveUp c ∈ log) ∧ 1 ≤ k ∧ k = (List.range n).countP (¬HasEnded · log) := by
  constructor
  · intro hanswer
    have hreads := h.reads
    generalize g.next = answer at hreads hanswer
    cases hreads with
    | disconnected queue goesOn writers =>
      cases hanswer
      exact ⟨queue, writers, h.one_le_openChannels goesOn, h.openChannels_eq⟩
    | _ => cases hanswer
  · rintro ⟨hq, hwriters, hpos, hk⟩
    have hopen : ∃ c < n, ¬HasEnded c log := by
      rw [hk, Nat.one_le_iff_ne_zero, Nat.ne_zero_iff_zero_lt, List.countP_pos_iff] at hpos
      simpa using hpos
    rw [h.next_of_disconnected hopen hq hwriters, h.openChannels_eq, hk]

theorem delivers (h : g.Serves n log) : g.Delivers n log where
  account := h.account
  given := h.next_item_iff
  rejected := h.next_channelClosed_iff
  skipped c hanswer := by
    obtain ⟨⟨x, rest, hq⟩, hended, hopen⟩ := (h.next_channelClosed_iff c).mp hanswer
    rw [h.next_of_late hopen hq hended, hq, List.tail_cons]
  exhausted := h.next_exhausted_iff
  forever hanswer moves := by
    have hall := h.next_exhausted_iff.mp hanswer
    exact (h.run moves).next_exhausted_iff.mpr fun c hc => hasEnded_append.mpr (.inl (hall c hc))
  disconnected := h.next_disconnected_iff

end Serves

/-- A gate of any number of channels but zero is made, and for every run of writes, closings, lost
writers and reads it delivers the traffic of each channel in order and up to its end. -/
theorem delivers_of_run {n : Nat} (hn : 0 < n) (capacity : Nat) :
    ∃ g, new n capacity = .ok g ∧
      ∀ moves, (g.run moves).2.Delivers n (g.run moves).1 := by
  obtain ⟨g, hg⟩ : ∃ g, new n capacity = .ok g := by
    rw [new, if_neg (by omega)]
    exact ⟨_, rfl⟩
  exact ⟨g, hg, fun moves => ((serves_new hg).run moves).delivers⟩

theorem delivers_of_run_two : 0 < 2 ∧ ∃ g, new 2 1 = .ok g ∧
    ∀ moves, (g.run moves).2.Delivers 2 (g.run moves).1 :=
  ⟨by decide, delivers_of_run (by decide) 1⟩

/-- The first channel goes on after its end, and the second is dropped without one. -/
example : ((new 2 4).map fun g => (g.run [.send 0 (.event .endOfPartition), .send 0 (.buffer []),
      .drop 0, .drop 1, .next, .next, .next]).1) =
    .ok [.wrote 0 (.event .endOfPartition) .sent, .wrote 0 (.buffer []) .sent, .gaveUp 0, .gaveUp 1,
      .read (.arrival (.item ⟨0, .event .endOfPartition⟩)),
      .read (.arrival (.failed (.channelClosed 0))),
      .read (.arrival (.failed (.disconnected 1)))] :=
  rfl

end ChannelGate

end StreamCheckpoint
