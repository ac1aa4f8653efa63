import StreamCheckpoint.Gate.Channel
import StreamCheckpoint.Proofs.Channel.Contents

/-! The moves that the writers of a gate and the task can make, in any order, and the log of what
came of them.  What a log says of one channel is what was `written` on it, what of that was
`returned`, and how many items were refused; `Account` says how the three fit together. -/

namespace StreamCheckpoint

namespace ChannelGate

/-- Something that a writer or the task does. -/
inductive Move
  | send (channel : Nat) (content : Content)
  | close (channel : Nat)
  | drop (channel : Nat)
  | next
deriving DecidableEq, Repr

/-- What came of a move. -/
inductive Occurrence
  /-- An attempt to write on a channel. -/
  | wrote (channel : Nat) (content : Content) (s : Sent)
  /-- The writer of a channel is gone. -/
  | gaveUp (channel : Nat)
  | read (r : Received)
deriving DecidableEq, Repr

/-- Makes a move.  To close a channel is to write its end and to give up the writer, unless the
writer has to wait. -/
def act (g : ChannelGate) : Move → List Occurrence × ChannelGate
  | .send channel content =>
    let (s, g) := g.send channel content
    ([.wrote channel content s], g)
  | .close channel =>
    let (s, g) := g.close channel
    (.wrote channel (.event .endOfPartition) s ::
      if s = .wouldBlock then [] else [.gaveUp channel], g)
  | .drop channel => ([.gaveUp channel], g.dropWriter channel)
  | .next =>
    let (r, g) := g.next
    ([.read r], g)

/-- Makes the moves one after the other. -/
def run (g : ChannelGate) : List Move → List Occurrence × ChannelGate
  | [] => ([], g)
  | m :: moves =>
    let (log, g) := g.act m
    let (rest, last) := g.run moves
    (log ++ rest, last)

/-- The item that was put into the queue. -/
def Occurrence.put? : Occurrence → Option Item
  | .wrote channel content .sent => some ⟨channel, content⟩
  | _ => none

/-- The item that the task was given. -/
def Occurrence.got? : Occurrence → Option Item
  | .read (.arrival (.item i)) => some i
  | _ => none

/-- What was written on a channel, as far as the gate took it. -/
def written (channel : Nat) (log : List Occurrence) : List Content :=
  contentsOf channel (log.filterMap (·.put?))

/-- What the task was given of a channel. -/
def returned (channel : Nat) (log : List Occurrence) : List Content :=
  contentsOf channel (log.filterMap (·.got?))

/-- How often the gate said that the channel goes on after its end. -/
def rejections (channel : Nat) (log : List Occurrence) : Nat :=
  log.count (.read (.arrival (.failed (.channelClosed channel))))

/-- The task was given the end of the channel. -/
def HasEnded (channel : Nat) (log : List Occurrence) : Prop :=
  .event .endOfPartition ∈ returned channel log

instance (channel : Nat) (log : List Occurrence) : Decidable (HasEnded channel log) :=
  inferInstanceAs (Decidable (_ ∈ _))

/-- Where everything is that was written on a channel: first what the task was given, which goes no
further than the first end of partition, then what it was given an error for, and then what waits
in the queue. -/
def Account (written returned queued : List Content) (rejections : Nat) : Prop :=
  ∃ lost, written = returned ++ lost ++ queued ∧ EndsLast returned ∧
    (lost ≠ [] → .event .endOfPartition ∈ returned) ∧ lost.length = rejections

namespace Account

variable {written returned queued : List Content} {rejections : Nat} {x : Content}

theorem nil : Account [] [] [] 0 :=
  ⟨[], rfl, by simp [EndsLast], fun h => absurd rfl h, rfl⟩

theorem put (h : Account written returned queued rejections) (x : Content) :
    Account (written ++ [x]) returned (queued ++ [x]) rejections := by
  obtain ⟨lost, rfl, hrest⟩ := h
  exact ⟨lost, by simp only [List.append_assoc], hrest⟩

theorem give (h : Account written returned (x :: queued) rejections)
    (hopen : .event .endOfPartition ∉ returned) :
    Account written (returned ++ [x]) queued rejections := by
  obtain ⟨lost, rfl, -, hlost, hlength⟩ := h
  obtain rfl : lost = [] := Classical.byContradiction fun hne => hopen (hlost hne)
  refine ⟨[], by simp, ?_, fun h => absurd rfl h, hlength⟩
  rw [endsLast_iff, List.dropLast_concat]
  exact hopen

theorem reject (h : Account written returned (x :: queued) rejections)
    (hended : .event .endOfPartition ∈ returned) :
    Account written returned queued (rejections + 1) := by
  obtain ⟨lost, rfl, hends, -, hlength⟩ := h
  refine ⟨lost ++ [x], by simp only [List.append_assoc, List.singleton_append], hends,
    fun _ => hended, ?_⟩
  rw [List.length_append, hlength, List.length_singleton]

end Account

section Log

variable {c d : Nat} {x : Content} {o : Occurrence} {log more : List Occurrence}

@[simp] theorem written_append : written c (log ++ more) = written c log ++ written c more := by
  simp [written]

@[simp] theorem returned_append : returned c (log ++ more) = returned c log ++ returned c more := by
  simp [returned]

@[simp] theorem rejections_append :
    rejections c (log ++ more) = rejections c log + rejections c more :=
  List.count_append

theorem written_of_put (h : o.put? = none) : written c [o] = [] := by
  simp [written, h]

theorem written_sent : written c [.wrote d x .sent] = contentsOf c [⟨d, x⟩] := rfl

theorem returned_of_got (h : o.got? = none) : returned c [o] = [] := by
  simp [returned, h]

theorem returned_item (i : Item) : returned c [.read (.arrival (.item i))] = contentsOf c [i] := rfl

theorem rejections_of_ne (h : o ≠ .read (.arrival (.failed (.channelClosed c)))) :
    rejections c [o] = 0 := by
  simp [rejections, h]

theorem hasEnded_append : HasEnded c (log ++ more) ↔ HasEnded c log ∨ HasEnded c more := by
  simp [HasEnded]

theorem hasEnded_of_got (h : o.got? = none) : HasEnded c (log ++ [o]) ↔ HasEnded c log := by
  rw [HasEnded, returned_append, returned_of_got h, List.append_nil, HasEnded]

theorem hasEnded_item {i : Item} : HasEnded c [.read (.arrival (.item i))] ↔
    i.channel = c ∧ i.content = .event .endOfPartition := by
  rw [HasEnded, returned_item, contentsOf_cons, contentsOf_nil, List.append_nil]
  split <;> simp_all [eq_comm]

end Log

end ChannelGate

end StreamCheckpoint
