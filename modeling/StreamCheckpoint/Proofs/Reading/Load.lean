import Mathlib.Algebra.GroupWithZero.Nat
import StreamCheckpoint.Proofs.Reading.WellFormed
import StreamCheckpoint.Proofs.Record.Frames

/-! How much reading is ahead of a reader.  The load of a reader counts what the gate has still to
answer, what is held back and every byte that no decoder has read yet.  No turn adds to it, and
every answer but the last takes from it: a record is completed by at least one byte, and everything
else that is answered is an answer of the gate that is used up.  So there are only so many answers
until the input is exhausted (`finished_mem_serve`). -/

namespace StreamCheckpoint

variable {α : Type}

/-- The bytes in the buffers among the items. -/
def bytesOf (items : List Item) : Nat :=
  (items.map fun i => (i.content.buffer?.elim 0 (·.length))).sum

namespace Decoder

/-- The bytes of the current buffer. -/
def unread (d : Decoder α) : Nat := d.buffer.elim 0 (·.length)

/-- The decoder has read a part of a frame, and not all of it. -/
def Framed (d : Decoder α) : Prop := ∃ bs, d.frame.Holds d.limit bs

theorem unread_of_none {d : Decoder α} (h : d.buffer = none) : d.unread = 0 := by
  rw [unread, h]
  rfl

variable [Record α] {d : Decoder α}

theorem unread_nextBody (d : Decoder α) (length : Nat) (seen bytes : Bytes) :
    (d.nextBody length seen bytes).2.unread ≤ bytes.length - (length - seen.length) := by
  simp only [nextBody]
  split
  · exact Nat.zero_le _
  · have h : ∀ rest : Bytes, ((if rest.isEmpty then none else some rest : Option Bytes).elim 0
        (·.length)) ≤ rest.length := by
      intro rest
      split
      · exact Nat.zero_le _
      · exact Nat.le_refl _
    rw [← List.length_drop]
    split <;> exact h _

/-- No record is completed, and none is refused, without another byte. -/
theorem unread_next (hf : d.Framed) {o : Except DecodeError α} (h : outcome? d.next.1 = some o) :
    d.next.2.unread < d.unread := by
  obtain ⟨bs, hf⟩ := hf
  unfold unread
  cases hb : d.buffer with
  | none => simp [next, hb, outcome?, Fetch.record?] at h
  | some bytes =>
    cases hfr : d.frame with
    | body length seen =>
      rw [hfr] at hf
      obtain ⟨p, -, -, -, hs, -⟩ := hf
      have hle := d.unread_nextBody length seen bytes
      simp only [next, hb, hfr, Option.elim_some] at h ⊢
      have hm : ¬bytes.length < length - seen.length := by
        intro hm
        simp [nextBody, if_pos hm, outcome?, Fetch.record?] at h
      unfold unread at hle
      omega
    | length seen =>
      rw [hfr] at hf
      obtain ⟨-, hs⟩ := hf
      simp only [next, hb, hfr, Option.elim_some] at h ⊢
      split at h
      · simp [outcome?, Fetch.record?] at h
      · next hm =>
        rw [if_neg hm]
        split
        · simp only [Option.elim_some, List.length_drop]
          omega
        · have hle := d.unread_nextBody (bigEndian (seen ++ bytes.take (lengthBytes - seen.length)))
            [] (bytes.drop (lengthBytes - seen.length))
          rw [List.length_drop] at hle
          unfold unread at hle
          omega

theorem framed_next (hf : d.Framed) : d.next.2.Framed := by
  obtain ⟨bs, hf⟩ := hf
  cases hb : d.buffer with
  | none => rw [next_of_none hb]; exact ⟨bs, hf⟩
  | some bytes =>
    have h := progress_next hb hf
    generalize d.next = r at h
    cases h with
    | through hold => exact ⟨_, hold⟩
    | last => exact ⟨_, holds_between _⟩
    | more => exact ⟨_, holds_between _⟩

end Decoder

theorem sum_map_set {β : Type} (f : β → Nat) {xs : List β} {i : Nat} {x : β} (h : xs[i]? = some x)
    (y : β) : ((xs.set i y).map f).sum + f x = (xs.map f).sum + f y := by
  induction xs generalizing i with
  | nil => cases h
  | cons z xs ih => cases i with
    | zero =>
      obtain rfl := Option.some.inj h
      simp only [List.set_cons_zero, List.map_cons, List.sum_cons]
      omega
    | succ i =>
      have := ih h
      simp only [List.set_cons_succ, List.map_cons, List.sum_cons]
      omega

@[simp] theorem bytesOf_append (items more : List Item) :
    bytesOf (items ++ more) = bytesOf items + bytesOf more := by
  simp [bytesOf]

@[simp] theorem bytesOf_cons (item : Item) (items : List Item) :
    bytesOf (item :: items) = item.content.buffer?.elim 0 (·.length) + bytesOf items := by
  simp [bytesOf]

namespace Reader

/-- How much reading is ahead. -/
def load (r : Reader α) : Nat :=
  r.outstanding + bytesOf r.pending + (r.decoders.map (·.unread)).sum

/-- Every decoder is in the middle of a frame or between two. -/
def Framed (r : Reader α) : Prop := ∀ d ∈ r.decoders, d.Framed

variable {r s : Reader α}

theorem Takes.outstanding {item : Item} (h : r.Takes item s) :
    r.outstanding = s.outstanding + 1 := by
  cases h with
  | replayed replay =>
    simp only [Reader.outstanding, Aligner.held, Aligner.queue, replay, List.length_cons]
    omega
  | arrived empty feed =>
    simp only [Reader.outstanding, feed, List.length_cons]
    omega

theorem Takes.load {item : Item} (h : r.Takes item s) :
    r.load = s.load + 1 + item.content.buffer?.elim 0 (·.length) := by
  obtain ⟨rest, hr, hs, -⟩ := h.pending
  unfold Reader.load
  rw [h.outstanding, h.decoders, hr, hs]
  simp only [bytesOf_append, bytesOf_cons]
  omega

theorem handle_decoders (r : Reader α) (channel : Nat) (e : Event) :
    (r.handle channel e).reader.decoders = r.decoders := by
  unfold handle
  split
  · rfl
  · simp only
    split <;> rfl

theorem dispatchEvent_reader (r : Reader α) (channel : Nat) (e : Event) :
    (r.dispatchEvent channel e).reader.feed = r.feed ∧
      (r.dispatchEvent channel e).reader.aligner.items = r.aligner.items ∧
      (r.dispatchEvent channel e).reader.decoders = r.decoders := by
  unfold dispatchEvent
  split
  · simp only
    split <;> simp
  · simp only
    split
    · simp
    · simp [handle_reader, handle_decoders]
  · simp [handle_reader, handle_decoders]

theorem load_dispatchEvent (r : Reader α) (channel : Nat) (e : Event) :
    (r.dispatchEvent channel e).reader.load = r.load := by
  obtain ⟨feed, items, decoders⟩ := r.dispatchEvent_reader channel e
  unfold load
  rw [outstanding_dispatchEvent, decoders]
  unfold pending
  rw [feed, items]

theorem Settles.load {t : Turn α} (h : r.Settles t) : t.reader.load = r.load := by
  unfold Reader.load
  rw [h.pending, h.same.1]
  cases h <;> simp [outstanding]

theorem unread_modify {ds : List (Decoder α)} {channel : Nat} (hc : channel < ds.length)
    (bytes : Bytes) :
    ((ds.modify channel (·.setBuffer bytes)).map (·.unread)).sum ≤
      (ds.map (·.unread)).sum + bytes.length := by
  have h := sum_map_set (β := Decoder α) (·.unread) (List.getElem?_eq_getElem hc)
    (ds[channel].setBuffer bytes)
  have e : ds.modify channel (·.setBuffer bytes) =
      ds.set channel (ds[channel].setBuffer bytes) := by
    refine List.ext_getElem? fun i => ?_
    rw [List.getElem?_modify, List.getElem?_set]
    by_cases hi : channel = i
    · simp [hi, hi ▸ hc]
    · simp [hi]
  have hb : (ds[channel].setBuffer bytes).unread = bytes.length := rfl
  rw [e]
  omega

theorem load_decoders (r : Reader α) (decoders : List (Decoder α)) (current : Option Nat) :
    ({ r with decoders, current } : Reader α).load =
      r.outstanding + bytesOf r.pending + (decoders.map (·.unread)).sum := rfl

/-- Taking an item adds nothing to the load, and an answer to it, unless it is the last, takes from
the load. -/
theorem Advances.load {t : Turn α} (h : r.Advances t) (unfailing : r.feed.failure = none) :
    t.reader.load ≤ r.load ∧
      (t.answer ≠ none → t.answer ≠ some (.ok .finished) → t.reader.load < r.load) := by
  cases h with
  | @held item s take range blocked =>
    refine ⟨Nat.le_of_eq ?_, fun h => absurd rfl h⟩
    unfold Reader.load
    rw [pending_held take blocked (Aligner.stores _ _), take.outstanding]
    simp only [Reader.outstanding, Aligner.held_store, take.decoders]
    omega
  | @fed channel bytes s take range free =>
    refine ⟨?_, fun h => absurd rfl h⟩
    have ht := take.load
    have hm := unread_modify range bytes
    have hs : s.load = s.outstanding + bytesOf s.pending + (s.decoders.map (·.unread)).sum := rfl
    simp only [Content.buffer?, Option.elim_some] at ht
    rw [load_decoders]
    omega
  | dispatched take range free =>
    have ht := take.load
    rw [load_dispatchEvent]
    exact ⟨by omega, fun _ _ => by omega⟩
  | @stray item s take =>
    have ht := take.load
    exact ⟨show s.load ≤ r.load by omega, fun _ _ => show s.load < r.load by omega⟩
  | @settled feed _ dry settle =>
    have hl : t.reader.load ≤ r.load := by
      rw [settle.load]
      cases dry with
      | ended => exact Nat.le_refl _
      | paused empty feed =>
        simp [Reader.load, Reader.outstanding, Reader.pending, feed, Arrival.item?]
    refine ⟨hl, fun ha hf => ?_⟩
    cases settle with
    | exhausted => exact absurd rfl hf
    | emptied => exact absurd rfl hf
    | released => exact absurd rfl ha
  | @failed e feed empty fails =>
    have hl : ({ r with feed } : Reader α).load < r.load := by
      unfold Feed.next at fails
      cases hf : r.feed.arrivals with
      | nil => simp [hf, unfailing] at fails
      | cons a arrivals =>
        simp only [hf, Prod.mk.injEq] at fails
        obtain ⟨rfl, rfl⟩ := fails
        simp [Reader.load, Reader.outstanding, Reader.pending, hf, Arrival.item?]
    exact ⟨Nat.le_of_lt hl, fun _ _ => hl⟩

section Turns

variable [Record α]

theorem Decodes.load {t : Turn α} (h : r.Decodes t) (framed : r.Framed) :
    t.reader.load ≤ r.load ∧ (t.answer ≠ none → t.reader.load < r.load) := by
  cases h with
  | idle => exact ⟨Nat.le_refl _, fun h => absurd rfl h⟩
  | @through c d current decoder buffer answer =>
    refine ⟨?_, fun h => absurd rfl h⟩
    have hs := sum_map_set (·.unread) decoder d.next.2
    have hr : r.load = r.outstanding + bytesOf r.pending + (r.decoders.map (·.unread)).sum := rfl
    rw [d.next.2.unread_of_none (d.buffer_next answer rfl)] at hs
    rw [load_decoders]
    omega
  | @outcome c d o current' current decoder buffer answer =>
    have hs := sum_map_set (·.unread) decoder d.next.2
    have hr : r.load = r.outstanding + bytesOf r.pending + (r.decoders.map (·.unread)).sum := rfl
    have hn := Decoder.unread_next (framed d (List.mem_of_getElem? decoder)) answer
    rw [load_decoders]
    exact ⟨by omega, fun _ => by omega⟩

omit [Record α] in
theorem Framed.of_decoders (framed : r.Framed) (h : s.decoders = r.decoders) : s.Framed :=
  fun d hd => framed d (h ▸ hd)

omit [Record α] in
theorem framed_set {c : Nat} {d : Decoder α} (framed : r.Framed) (hd : d.Framed)
    (current : Option Nat) :
    ({ r with decoders := r.decoders.set c d, current } : Reader α).Framed := by
  intro d' hd'
  rcases List.mem_or_eq_of_mem_set hd' with h | rfl
  · exact framed d' h
  · exact hd

theorem Decodes.framed {t : Turn α} (h : r.Decodes t) (framed : r.Framed) : t.reader.Framed := by
  cases h with
  | idle => exact framed
  | through current decoder =>
    exact framed_set framed (Decoder.framed_next (framed _ (List.mem_of_getElem? decoder))) none
  | outcome current decoder =>
    exact framed_set framed (Decoder.framed_next (framed _ (List.mem_of_getElem? decoder))) _

omit [Record α] in
theorem Advances.framed {t : Turn α} (h : r.Advances t) (framed : r.Framed) : t.reader.Framed := by
  cases h with
  | held take => exact framed.of_decoders take.decoders
  | @fed channel bytes s take =>
    have framed' := framed.of_decoders take.decoders
    intro d hd
    obtain ⟨i, hi⟩ := List.getElem?_of_mem hd
    rw [List.getElem?_modify] at hi
    obtain ⟨d', hd', rfl⟩ := Option.map_eq_some_iff.mp hi
    have hf := framed' d' (List.mem_of_getElem? hd')
    split
    · exact hf
    · exact hf
  | @dispatched channel e s take =>
    exact framed.of_decoders ((s.dispatchEvent_reader channel e).2.2.trans take.decoders)
  | stray take => exact framed.of_decoders take.decoders
  | settled dry settle => exact framed.of_decoders settle.same.1
  | failed => exact framed

omit [Record α] in
theorem Takes.failure {item : Item} (h : r.Takes item s) : s.feed.failure = r.feed.failure := by
  cases h <;> rfl

omit [Record α] in
theorem Advances.failure {t : Turn α} (h : r.Advances t) :
    t.reader.feed.failure = r.feed.failure := by
  cases h with
  | held take => exact take.failure
  | fed take => exact take.failure
  | @dispatched channel e s take =>
    rw [(s.dispatchEvent_reader channel e).1]
    exact take.failure
  | stray take => exact take.failure
  | settled dry settle =>
    have hd : ∀ {feed}, r.Dry feed → feed.failure = r.feed.failure := by
      intro feed hd
      cases hd <;> rfl
    rw [← hd dry]
    cases settle <;> rfl
  | failed empty fails =>
    unfold Feed.next at fails
    cases hf : r.feed.arrivals with
    | nil =>
      cases hn : r.feed.failure with
      | none => simp [hf, hn] at fails
      | some e' =>
        simp only [hf, hn, Prod.mk.injEq] at fails
        rw [← fails.2]
        exact hn
    | cons a arrivals =>
      simp only [hf, Prod.mk.injEq] at fails
      rw [← fails.2]

/-- No turn adds to the load, and a turn with an answer, unless it is the last, takes from it. -/
theorem load_turn (framed : r.Framed) (unfailing : r.feed.failure = none) :
    r.turn.reader.load ≤ r.load ∧
      (r.turn.answer ≠ none → r.turn.answer ≠ some (.ok .finished) →
        r.turn.reader.load < r.load) := by
  have hd := r.decodes.load framed
  cases ha : r.decodeCurrent.answer with
  | some answer =>
    rw [turn_of_answer (by simp [ha])]
    exact ⟨hd.1, fun h _ => hd.2 h⟩
  | none =>
    rw [turn_of_quiet ha]
    have hf : r.decodeCurrent.reader.feed.failure = none := by
      rw [r.decodeCurrent_reader.1, unfailing]
    have h := r.decodeCurrent.reader.advances.load hf
    exact ⟨by omega, fun h1 h2 => Nat.lt_of_lt_of_le (h.2 h1 h2) hd.1⟩

/-- The gate does not fail for ever, and the decoders are in the middle of frames or between
them. -/
structure Steady (r : Reader α) : Prop where
  framed : r.Framed
  unfailing : r.feed.failure = none

theorem Steady.turn (h : r.Steady) : r.turn.reader.Steady := by
  cases ha : r.decodeCurrent.answer with
  | some answer =>
    rw [turn_of_answer (by simp [ha])]
    exact ⟨r.decodes.framed h.framed, by rw [r.decodeCurrent_reader.1, h.unfailing]⟩
  | none =>
    rw [turn_of_quiet ha]
    refine ⟨(advances _).framed (r.decodes.framed h.framed), ?_⟩
    rw [(advances _).failure, r.decodeCurrent_reader.1, h.unfailing]

theorem load_read (h : r.Steady) :
    r.read.reader.Steady ∧ (r.read.answer ≠ .ok .finished → r.read.reader.load < r.load) := by
  induction r using read.induct with
  | case1 r answer ha =>
    rw [read_of_some ha]
    refine ⟨h.turn, fun hf => (load_turn h.framed h.unfailing).2 (by simp [ha]) ?_⟩
    rw [ha]
    exact fun e => hf (Option.some.inj e)
  | case2 r ha _ ih =>
    rw [read_of_none ha]
    obtain ⟨hs, hl⟩ := ih h.turn
    exact ⟨hs, fun hf => Nat.lt_of_lt_of_le (hl hf) (load_turn h.framed h.unfailing).1⟩

omit [Record α] in
theorem load_startNextSuperstep (r : Reader α) : r.startNextSuperstep.load = r.load := by
  unfold startNextSuperstep
  split <;> rfl

omit [Record α] in
theorem Steady.startNextSuperstep (h : r.Steady) : r.startNextSuperstep.Steady := by
  unfold Reader.startNextSuperstep
  split
  · exact ⟨h.framed, h.unfailing⟩
  · exact h

theorem answers_of_finished (hf : r.isFinished = true) (calls : List Call) :
    (r.serve calls).1.map (·.answer) = List.replicate (calls.count .next) (.ok .finished) := by
  induction calls generalizing r with
  | nil => rfl
  | cons call calls ih => cases call with
    | startNextSuperstep =>
      rw [serve, ih (by rwa [isFinished_startNextSuperstep]), List.count_cons_of_ne (by decide)]
    | next =>
      rw [serve, next_of_finished hf, List.count_cons_self, List.replicate_succ, List.map_cons,
        ih hf]

/-- At most as many answers as the load come before the one that the input is exhausted, and that
one is given from then on. -/
theorem answers_serve (h : r.Steady) (calls : List Call) :
    ∃ before m, (r.serve calls).1.map (·.answer) = before ++ List.replicate m (.ok .finished) ∧
      .ok .finished ∉ before ∧ before.length ≤ r.load ∧
      before.length + m = calls.count .next := by
  induction calls generalizing r with
  | nil => exact ⟨[], 0, rfl, List.not_mem_nil, Nat.zero_le _, rfl⟩
  | cons call calls ih => cases call with
    | startNextSuperstep =>
      have hrest := ih h.startNextSuperstep
      rw [load_startNextSuperstep] at hrest
      rwa [serve, List.count_cons_of_ne (by decide)]
    | next =>
      rw [serve, List.count_cons_self, List.map_cons]
      cases hf : r.isFinished with
      | true =>
        refine ⟨[], calls.count .next + 1, ?_, List.not_mem_nil, Nat.zero_le _, Nat.zero_add _⟩
        rw [next_of_finished hf, answers_of_finished hf]
        rfl
      | false =>
        rw [next_of_unfinished hf]
        by_cases ha : r.read.answer = .ok .finished
        · refine ⟨[], calls.count .next + 1, ?_, List.not_mem_nil, Nat.zero_le _, Nat.zero_add _⟩
          rw [ha, answers_of_finished (isFinished_read ha)]
          rfl
        · obtain ⟨hs, hl⟩ := load_read h
          obtain ⟨before, m, heq, hnot, hle, hcount⟩ := ih hs
          have hless := hl ha
          refine ⟨r.read.answer :: before, m, by rw [heq, List.cons_append], ?_, ?_, ?_⟩
          · exact fun hmem => (List.mem_cons.1 hmem).elim (fun e => ha e.symm) hnot
          · rw [List.length_cons]
            omega
          · rw [List.length_cons]
            omega

/-- A reader that is asked for more than its load answers that the input is exhausted. -/
theorem finished_mem_serve {calls : List Call} (h : r.Steady) (hl : r.load < calls.count .next) :
    .ok .finished ∈ (r.serve calls).1.map (·.answer) := by
  obtain ⟨before, m, heq, -, hle, hcount⟩ := answers_serve h calls
  rw [heq]
  exact List.mem_append_right _ (List.mem_replicate.2 ⟨by omega, rfl⟩)

omit [Record α] in
theorem load_start {feed : Feed} {settings : ReaderSettings} {listener : Listener}
    (unfailing : feed.failure = none) (h : new feed settings listener = .ok r) :
    r.Steady ∧ r.load = feed.arrivals.length + bytesOf (feed.arrivals.filterMap (·.item?)) := by
  rw [new_of_pos feed (channels_pos h) settings listener] at h
  obtain rfl := Except.ok.inj h
  refine ⟨⟨fun d hd => ?_, unfailing⟩, ?_⟩
  · obtain ⟨-, rfl⟩ := List.mem_replicate.mp hd
    exact ⟨[], Decoder.holds_between _⟩
  · simp [load, pending, outstanding, Aligner.items, Aligner.queue, Aligner.held, Decoder.new,
      Decoder.unread]

omit [Record α] in
theorem load_new {n : Nat} {script : List Item} {settings : ReaderSettings} {listener : Listener}
    (h : new (Feed.ofScript n script) settings listener = .ok r) :
    r.Steady ∧ r.load = script.length + bytesOf script := by
  have hstart := load_start rfl h
  rwa [pending_ofScript, Feed.ofScript, List.length_map] at hstart

end Turns

end Reader

end StreamCheckpoint
