import Mathlib.Data.List.Induction
import StreamCheckpoint.Proofs.Alignment.Queue

/-! The byte limit of an alignment.  What an alignment holds back is what was stored since it began
(`queue_of_underway`), and its bytes are counted exactly, so that an item is one too many exactly if
it does not fit in with all of these (`limit_exact`).  The limit bounds the number of control events
as well, except for those that carry no bytes and count nothing (`bounds_events_iff`). -/

namespace StreamCheckpoint

/-- There is a limit, and `bytes` are more than it. -/
def AlignmentSettings.Exceeded (settings : AlignmentSettings) (bytes : Nat) : Prop :=
  ∃ m, settings.byteLimit = some m ∧ m < bytes

theorem AlignmentSettings.exceeded_iff {settings : AlignmentSettings} {bytes : Nat} :
    settings.Exceeded bytes ↔ settings.byteLimit.any (· < bytes) = true := by
  cases h : settings.byteLimit <;> simp [Exceeded, h]

/-- A control event that counts nothing against a byte limit: an event of the application that
carries no bytes. -/
def Item.Weightless (i : Item) : Prop := ∃ kind, i.content = .event (.custom kind [])

theorem Item.Weightless.size_eq {i : Item} (h : i.Weightless) : i.size = 0 := by
  obtain ⟨kind, h⟩ := h
  rw [size, h]
  rfl

theorem Item.Weightless.isBuffer_eq {i : Item} (h : i.Weightless) : i.isBuffer = false := by
  obtain ⟨kind, h⟩ := h
  rw [isBuffer, h]

theorem Item.size_pos {i : Item} (event : i.isBuffer = false) (h : ¬i.Weightless) :
    0 < i.size := by
  obtain ⟨channel, content⟩ := i
  cases content with
  | buffer bytes => cases event
  | event e =>
    cases e with
    | custom kind payload =>
      cases payload with
      | nil => exact absurd ⟨kind, rfl⟩ h
      | cons byte payload => exact Nat.succ_pos payload.length
    | barrier | endOfPartition | endOfSuperstep => exact Nat.succ_pos 23

theorem countP_event_le {items : List Item} (h : ∀ i ∈ items, ¬i.Weightless) :
    items.countP (!·.isBuffer) ≤ sizes items := by
  induction items with
  | nil => exact Nat.le_refl 0
  | cons i items ih =>
    have hle := ih fun j hj => h j (List.mem_cons_of_mem i hj)
    rw [List.countP_cons, sizes_cons]
    cases event : i.isBuffer with
    | true => simp; omega
    | false =>
      have := Item.size_pos event (h i List.mem_cons_self)
      simp; omega

namespace Aligner

/-- What is held back is counted, and no more than the limit allows. -/
structure Counted (a : Aligner) : Prop where
  bytes : a.heldBytes = sizes a.queue
  limit : ∀ m, a.settings.byteLimit = some m → a.heldBytes ≤ m

section Counted

variable {a a' : Aligner} {op : Operation} {item : Item} {r : List Notice × Aligner}

theorem counted_of_idle (h : a.inFlight = none) : a.Counted := by
  have bytes : a.heldBytes = 0 := by rw [heldBytes, h, Option.elim_none]
  refine ⟨?_, fun m _ => ?_⟩
  · rw [bytes, queue_of_idle h, sizes_nil]
  · rw [bytes]
    exact Nat.zero_le m

theorem Stores.counted (h : a.Stores item r) (hc : a.Counted) : r.2.Counted := by
  cases h with
  | idle none => exact counted_of_idle none
  | overflowed => exact counted_of_idle rfl
  | @held f flight room =>
    have bytes : f.bytes = sizes f.queue := by
      rw [← heldBytes_of_inFlight flight, ← queue_of_inFlight flight]
      exact hc.bytes
    refine ⟨?_, fun m hm => ?_⟩
    · rw [heldBytes_of_inFlight rfl, queue_of_inFlight rfl, Alignment.hold, sizes_append, bytes,
        sizes_singleton]
    · rw [heldBytes_of_inFlight rfl]
      simpa [show a.settings.byteLimit = some m from hm] using room

theorem Shifts.counted (h : a.Shifts op a') (settings : a'.settings = a.settings)
    (hc : a.Counted) : a'.Counted := by
  cases h with
  | kept _ _ queue bytes _ =>
    refine ⟨?_, fun m hm => ?_⟩
    · rw [bytes, queue]
      exact hc.bytes
    · rw [settings] at hm
      rw [bytes]
      exact hc.limit m hm
  | released _ _ queue bytes _ =>
    refine ⟨?_, fun m _ => ?_⟩
    · rw [bytes, queue, sizes_nil]
    · rw [bytes]
      exact Nat.zero_le m
  | stored stores => exact stores.counted hc
  | taken => exact ⟨hc.bytes, hc.limit⟩
  | dropped => exact counted_of_idle rfl

theorem counted_run (h : a.Counted) (ops : List Operation) : (a.run ops).2.Counted := by
  induction ops generalizing a with
  | nil => exact h
  | cons op ops ih => exact ih ((a.shifts op).counted (a.settings_perform op) h)

theorem settings_run (a : Aligner) (ops : List Operation) :
    (a.run ops).2.settings = a.settings := by
  induction ops generalizing a with
  | nil => rfl
  | cons op ops ih => exact (ih _).trans (a.settings_perform op)

theorem counted_of_new {n : Nat} {settings : AlignmentSettings} (h : new n settings = .ok a)
    (ops : List Operation) : (a.run ops).2.Counted ∧ (a.run ops).2.settings = settings := by
  obtain ⟨-, rfl⟩ := new_spec h
  exact ⟨counted_run (counted_of_idle rfl) ops, settings_run _ ops⟩

end Counted

section Underway

variable {n : Nat} {settings : AlignmentSettings} {a : Aligner} {op : Operation} {b : Barrier}
  {past since : List Operation}

theorem aligning_iff_underway (h : new n settings = .ok a) (past : List Operation) :
    (a.run past).2.aligning = some b ↔ ∃ since, Underway n past (a.run past).1 b since := by
  rw [← aligning_bare]
  exact (remembers_run h past).aligning b

/-- A call that keeps the checkpoint in flight adds to what is held back what it stores. -/
theorem Shifts.queue_of_current {a' : Aligner} {k : Nat} (h : a.Shifts op a')
    (before : a.current = some k) (after : a'.current = some k) :
    a'.queue = a.queue ++ op.stored?.toList := by
  cases h with
  | kept passive _ queue => simp [queue, passive.stored?_eq]
  | released _ current => exact absurd (after.trans before.symm) current
  | stored stores =>
    cases stores with
    | idle none => exact absurd before (current_ne_of_idle none)
    | held flight =>
      rw [queue_of_inFlight rfl, queue_of_inFlight flight]
      rfl
    | overflowed => exact absurd after (current_ne_of_idle rfl)
  | taken => exact (List.append_nil _).symm
  | dropped => exact absurd after (current_ne_of_idle rfl)

/-- A call that puts another checkpoint in flight leaves nothing held back. -/
theorem Shifts.queue_of_ne {a' : Aligner} (h : a.Shifts op a') (ne : a'.current ≠ a.current) :
    a'.queue = [] := by
  cases h with
  | kept _ current => exact absurd current ne
  | released _ _ queue => exact queue
  | stored stores =>
    cases stores with
    | idle none => exact queue_of_idle none
    | held flight =>
      refine absurd ?_ ne
      rw [current_of_inFlight rfl, current_of_inFlight flight]
      rfl
    | overflowed => exact queue_of_idle rfl
  | taken => exact absurd rfl ne
  | dropped => exact queue_of_idle rfl

/-- An alignment holds back what was stored since it began. -/
theorem queue_of_underway (h : new n settings = .ok a) (past : List Operation) :
    ∀ b since, Underway n past (a.run past).1 b since → (a.run past).2.queue = storedBy since := by
  induction past using List.reverseRecOn with
  | nil =>
    rintro b since ⟨⟨before, op, after, e, rfl, -⟩, -, -⟩
    simp at e
  | append_singleton past op ih =>
    intro b since underway
    have hafter := current_of_aligning ((aligning_iff_underway h _).mpr ⟨since, underway⟩)
    rw [run_concat] at underway hafter ⊢
    obtain ⟨begun, kept, pending⟩ := (underway_notices.mp underway).1
    have shifts := (a.run past).2.shifts op
    rcases since_snoc.mp begun with ⟨earlier, rfl, hs⟩ | ⟨rfl, begins⟩
    · -- the alignment went on
      have underway : Underway n past (a.run past).1 b earlier :=
        ⟨hs, fun hc => kept (List.mem_append_left _ hc), pending⟩
      have hbefore := current_of_aligning ((aligning_iff_underway h _).mpr ⟨earlier, underway⟩)
      rw [shifts.queue_of_current hbefore hafter, ih b earlier underway, storedBy_append,
        storedBy_singleton]
    · -- the alignment began with this call, so no alignment of its checkpoint was in flight
      obtain ⟨channel, -, rfl⟩ := begins.offers
      refine shifts.queue_of_ne fun e => ?_
      have remembers := remembers_run h past
      rw [hafter, ← current_bare] at e
      obtain ⟨x, hx, hle⟩ := (remembers.newest b.id).mp (remembers.sound.seen_of_current e.symm)
      exact Nat.not_lt.mpr hle (begins.newest x hx)

theorem inFlight_of_underway (h : new n settings = .ok a)
    (underway : Underway n past (a.run past).1 b since) :
    ∃ f, (a.run past).2.inFlight = some f ∧ f.barrier = b ∧ f.queue = storedBy since ∧
      f.bytes = sizes (storedBy since) := by
  obtain ⟨f, flight, rfl⟩ : ∃ f, (a.run past).2.inFlight = some f ∧ f.barrier = b :=
    Option.map_eq_some_iff.mp ((aligning_iff_underway h past).mpr ⟨since, underway⟩)
  have queue := queue_of_underway h past _ since underway
  have bytes := (counted_of_new h past).1.bytes
  rw [queue, heldBytes_of_inFlight flight] at bytes
  rw [queue_of_inFlight flight] at queue
  exact ⟨f, flight, rfl, queue, bytes⟩

theorem mem_storedBy_of_queue (h : new n settings = .ok a) {item : Item}
    (hi : item ∈ (a.run past).2.queue) : item ∈ storedBy past := by
  cases flight : (a.run past).2.inFlight with
  | none =>
    rw [queue_of_idle flight] at hi
    cases hi
  | some f =>
    obtain ⟨since, underway⟩ := (aligning_iff_underway h past).mp (aligning_of_inFlight flight)
    rw [queue_of_underway h past _ since underway] at hi
    obtain ⟨before, op, after, rfl, -⟩ := underway.begun
    rw [storedBy_append]
    exact List.mem_append_right _ hi

end Underway

section Limit

variable {n k : Nat} {settings : AlignmentSettings} {a : Aligner} {op : Operation} {b : Barrier}
  {item : Item} {f : Alignment}

theorem Performs.store_of_byteLimit {r : Reaction (Except AlignmentError Answer)}
    (h : a.Performs op r) (hk : .aborted k .byteLimit ∈ r.notices) :
    ∃ item, op = .store item := by
  cases h with
  | offered _ offers => simpa using offers.reason_eq hk
  | closed _ closes =>
    cases closes with
    | completed => simp at hk
    | aborted => simp at hk
    | _ => cases hk
  | overflowed => exact ⟨_, rfl⟩
  | dropped => cases hk
  | kept => cases hk

theorem store_of_idle (h : a.inFlight = none) (item : Item) :
    a.store item = ([], { a with replay := a.replay ++ [item] }) := by
  rw [store, h]

theorem store_of_exceeded (flight : a.inFlight = some f)
    (exceeded : a.settings.Exceeded (f.bytes + item.size)) :
    a.store item =
      ([.aborted f.barrier.id .byteLimit], (a.abort (f.hold item) .byteLimit).2) := by
  rw [AlignmentSettings.exceeded_iff] at exceeded
  rw [store, flight]
  exact if_pos exceeded

theorem store_of_room (flight : a.inFlight = some f)
    (room : ¬a.settings.Exceeded (f.bytes + item.size)) :
    a.store item = ([], { a with inFlight := some (f.hold item) }) := by
  rw [AlignmentSettings.exceeded_iff] at room
  rw [store, flight]
  exact if_neg room

theorem store_of_unlimited (unlimited : a.settings.byteLimit = none) (item : Item) :
    (a.store item).1 = [] := by
  cases flight : a.inFlight with
  | none => rw [store_of_idle flight]
  | some f =>
    have room : ¬a.settings.Exceeded (f.bytes + item.size) := by
      rintro ⟨m, hm, -⟩
      rw [unlimited] at hm
      cases hm
    rw [store_of_room flight room]

/-- Only an item that is stored gives a checkpoint up for its bytes, and only the one in flight. -/
theorem store_of_notice (hk : .aborted k .byteLimit ∈ (a.perform op).notices) :
    ∃ item, op = .store item ∧ a.current = some k := by
  obtain ⟨item, rfl⟩ := (a.performs op).store_of_byteLimit hk
  refine ⟨item, rfl, ?_⟩
  have stores := a.stores item
  simp only [perform] at hk
  generalize a.store item = r at stores hk
  cases stores with
  | idle => cases hk
  | held => cases hk
  | overflowed flight =>
    cases List.mem_singleton.mp hk
    exact current_of_inFlight flight

/-- The bytes that an alignment counts are those of the items stored since it began, and never more
than the limit.  An item that is more than the limit together with these gives the checkpoint up,
and then the items of the alignment, that one last, are in front of what was waiting for replay; any
other item does not.  Nothing else gives a checkpoint up in this way, and nothing does if there is
no limit.  The next alignment counts from nothing. -/
theorem limit_exact (h : new n settings = .ok a) (past : List Operation) :
    let notices := (a.run past).1
    let s := (a.run past).2
    (∀ b, s.aligning = some b ↔ ∃ since, Underway n past notices b since) ∧
    (∀ b since, Underway n past notices b since →
      s.heldBytes = sizes (storedBy since) ∧
      (∀ m, settings.byteLimit = some m → s.heldBytes ≤ m) ∧
      ∀ item, let r := s.perform (.store item)
        (settings.Exceeded (sizes (storedBy since ++ [item])) →
          r.notices = [.aborted b.id .byteLimit] ∧ r.aligner.isAligning = false ∧
            r.aligner.replay = storedBy since ++ [item] ++ s.replay) ∧
        (¬settings.Exceeded (sizes (storedBy since ++ [item])) →
          r.notices = [] ∧ r.aligner.aligning = some b)) ∧
    (∀ op k, .aborted k .byteLimit ∈ (s.perform op).notices →
      ∃ item, op = .store item ∧ s.current = some k) ∧
    (∀ op, (s.perform op).aligner.current ≠ s.current → (s.perform op).aligner.heldBytes = 0) ∧
    (settings.byteLimit = none → ∀ item, (s.perform (.store item)).notices = []) := by
  intro notices s
  obtain ⟨counted, hsettings⟩ := counted_of_new h past
  refine ⟨fun b => aligning_iff_underway h past, fun b since underway => ?_,
    fun op k => store_of_notice, fun op ne => ?_, fun unlimited => ?_⟩
  · obtain ⟨f, flight, rfl, queue, bytes⟩ := inFlight_of_underway h underway
    refine ⟨?_, fun m hm => counted.limit m (hsettings ▸ hm), fun item => ?_⟩
    · rw [heldBytes_of_inFlight flight, bytes]
    · rw [sizes_append, sizes_singleton, ← bytes, ← hsettings]
      constructor
      · intro exceeded
        have hstore := store_of_exceeded flight exceeded
        simp [perform, s, hstore, abort, release, isAligning, Alignment.hold, queue]
      · intro room
        have hstore := store_of_room flight room
        simp [perform, s, hstore, aligning, Alignment.hold]
  · have counted' := ((s.shifts op).counted (s.settings_perform op) counted).bytes
    rwa [(s.shifts op).queue_of_ne ne, sizes_nil] at counted'
  · exact store_of_unlimited (hsettings ▸ unlimited)

/-- Four bytes are held back for the first checkpoint, and then six for the second, which takes its
place. -/
def supersededStores : List Operation :=
  [.offer 0 (.barrier (.plain 1 0)), .store (.buffer 0 [1, 1, 1, 1]),
    .offer 1 (.barrier (.plain 2 0)), .store (.buffer 1 [2, 2, 2, 2, 2, 2])]

/-- Five bytes more are too much for a limit of ten. -/
theorem limit_exact_superseded :
    let settings : AlignmentSettings := { byteLimit := some 10 }
    let a : Aligner := { closed := [false, false], settings }
    let s := (a.run supersededStores).2
    let r := s.perform (.store (.buffer 1 [3, 3, 3, 3, 3]))
    new 2 settings = .ok a ∧
      Underway 2 supersededStores (a.run supersededStores).1 (.plain 2 0)
        (supersededStores.drop 2) ∧
      settings.Exceeded 11 ∧ s.heldBytes = 6 ∧ r.notices = [.aborted 2 .byteLimit] ∧
      r.aligner.replay =
        [.buffer 1 [2, 2, 2, 2, 2, 2], .buffer 1 [3, 3, 3, 3, 3], .buffer 0 [1, 1, 1, 1]] := by
  intro settings a s r
  have begins : Begins 2 (supersededStores.take 2) (.offer 1 (.barrier (.plain 2 0)))
      (.plain 2 0) := ⟨⟨1, by decide, rfl⟩, rfl, by decide⟩
  have underway : Underway 2 supersededStores (a.run supersededStores).1 (.plain 2 0)
      (supersededStores.drop 2) :=
    ⟨⟨supersededStores.take 2, _, _, rfl, rfl, begins⟩, by decide, by decide⟩
  have exceeded : settings.Exceeded 11 := ⟨10, rfl, by decide⟩
  obtain ⟨-, counts, -⟩ := limit_exact (show new 2 settings = .ok a from rfl) supersededStores
  obtain ⟨bytes, -, stores⟩ := counts _ _ underway
  obtain ⟨notices, -, replay⟩ := (stores (.buffer 1 [3, 3, 3, 3, 3])).1 exceeded
  have held : storedBy (supersededStores.drop 2) = [.buffer 1 [2, 2, 2, 2, 2, 2]] := rfl
  have waiting : s.replay = [.buffer 0 [1, 1, 1, 1]] := by decide
  rw [held, waiting] at replay
  refine ⟨rfl, underway, exceeded, bytes, notices, ?_⟩
  rw [replay]
  rfl

end Limit

section Events

variable {n m k : Nat} {settings : AlignmentSettings} {a : Aligner} {f : Alignment} {i : Item}

/-- The number of control events that are held back. -/
def heldEvents (a : Aligner) : Nat := a.queue.countP (!·.isBuffer)

/-- With a single channel there is nobody to wait for. -/
theorem idle_of_one (h : new 1 settings = .ok a) (past : List Operation) :
    (a.run past).2.inFlight = none := by
  cases flight : (a.run past).2.inFlight with
  | none => rfl
  | some f =>
    have hb := aligning_of_inFlight flight
    obtain ⟨since, underway⟩ := (aligning_iff_underway h past).mp hb
    obtain ⟨before, op, after, rfl, rfl, begins⟩ := underway.begun
    obtain ⟨channel, hc, rfl⟩ := begins.offers
    have remembers := remembers_run h (before ++ .offer channel (.barrier f.barrier) :: after)
    have hk := current_of_inFlight flight
    rw [← current_bare] at hk
    -- the channel on which the alignment began is blocked, and another one is not
    have blocked := (remembers.blocked _ hk channel hc).mpr
      ⟨_, by simp, f.barrier, rfl, rfl, begins.plain⟩
    obtain ⟨c, hcn, -, free⟩ := remembers.sound.exists_waiting hk
    rw [remembers.channels] at hcn
    obtain rfl : c = channel := by omega
    exact absurd (free.symm.trans blocked) Bool.false_ne_true

theorem inFlight_first (h : new n settings = .ok a) (hn : n ≠ 1) {b : Barrier}
    (plain : b.isCancel = false) : (a.perform (.offer 0 (.barrier b))).aligner.inFlight =
      some (.first n 0 b) := by
  obtain ⟨hpos, rfl⟩ := new_spec h
  have waiting :
      ¬requiredChannels (List.replicate n false) (Alignment.first n 0 b).blocked ≤ 1 := by
    have hc : 0 < ({ closed := List.replicate n false, settings } : Aligner).channels := by
      simpa [channels] using hpos
    have hiff := first_complete_iff hc b
    simp only [channels, List.length_replicate] at hiff
    rw [hiff]
    intro all
    have hopen : (List.replicate n false).getD 1 false = false := by
      simp only [List.getD_eq_getElem?_getD, List.getElem?_replicate]
      split <;> rfl
    rcases all 1 (by omega) with hclosed | hone
    · exact Bool.false_ne_true (hopen.symm.trans hclosed)
    · cases hone
  rw [Alignment.first] at waiting
  simp [perform, offer, offerBarrier, start, channels, hpos, plain, waiting, Alignment.first]

theorem queue_stores (flight : a.inFlight = some f) (room : ¬a.settings.Exceeded f.bytes)
    (hi : i.size = 0) (k : Nat) :
    (a.run (List.replicate k (.store i))).2.queue = f.queue ++ List.replicate k i := by
  induction k generalizing a f with
  | zero =>
    rw [List.replicate_zero, run_nil, queue_of_inFlight flight, List.replicate_zero,
      List.append_nil]
  | succ k ih =>
    have hold : ¬a.settings.Exceeded (f.hold i).bytes := by
      rwa [Alignment.hold, hi, Nat.add_zero]
    have hstore : a.store i = ([], { a with inFlight := some (f.hold i) }) :=
      store_of_room flight hold
    have hrest := ih (a := { a with inFlight := some (f.hold i) }) rfl hold
    rw [List.replicate_succ, run_cons]
    simp only [perform, hstore]
    rw [hrest, Alignment.hold, List.replicate_succ, List.append_assoc, List.singleton_append]

/-- With more than one channel any number of control events without bytes is held back. -/
theorem heldEvents_flood (h : new n settings = .ok a) (hn : n ≠ 1) (weightless : i.Weightless)
    (k : Nat) : (a.run (.offer 0 (.barrier (.plain 1 0)) ::
      List.replicate k (.store i))).2.heldEvents = k := by
  have flight := inFlight_first h hn (b := .plain 1 0) rfl
  have room : ¬(a.perform (.offer 0 (.barrier (.plain 1 0)))).aligner.settings.Exceeded
      (Alignment.first n 0 (.plain 1 0)).bytes := by
    rintro ⟨m, -, hm⟩
    exact Nat.not_lt_zero m hm
  rw [heldEvents, run_cons, queue_stores flight room weightless.size_eq, Alignment.first,
    List.nil_append, List.countP_replicate, weightless.isBuffer_eq]
  rfl

/-- A limit of `m` bytes is a limit of `m` control events too, whatever is called, exactly if there
is a single channel or none of the items that are stored is a control event without bytes. -/
theorem bounds_events_iff (h : new n settings = .ok a) (limit : settings.byteLimit = some m)
    (P : Item → Prop) :
    (∀ ops, (∀ i ∈ storedBy ops, P i) → (a.run ops).2.heldEvents ≤ m) ↔
      n = 1 ∨ ∀ i, P i → ¬i.Weightless := by
  constructor
  · intro bounds
    by_contra hc
    rw [not_or, Classical.not_forall] at hc
    obtain ⟨hn, i, hi⟩ := hc
    obtain ⟨hi, weightless⟩ := Classical.not_imp.mp hi
    have weightless : i.Weightless := Classical.not_not.mp weightless
    -- one more of them than the limit is held back
    have flood := bounds (.offer 0 (.barrier (.plain 1 0)) :: List.replicate (m + 1) (.store i))
      (by simpa [storedBy, Operation.stored?] using hi)
    rw [heldEvents_flood h hn weightless] at flood
    exact Nat.not_succ_le_self m flood
  · rintro (rfl | heavy) ops hops
    · rw [heldEvents, queue_of_idle (idle_of_one h ops)]
      exact Nat.zero_le m
    · obtain ⟨counted, hsettings⟩ := counted_of_new h ops
      calc (a.run ops).2.heldEvents
        _ ≤ sizes (a.run ops).2.queue :=
            countP_event_le fun i hi => heavy i (hops i (mem_storedBy_of_queue h hi))
        _ = (a.run ops).2.heldBytes := counted.bytes.symm
        _ ≤ m := counted.limit m (by rw [hsettings, limit])

/-- Ends of supersteps count, and events without bytes do not. -/
theorem bounds_events_iff_three :
    let settings : AlignmentSettings := { byteLimit := some 2 }
    let a : Aligner := { closed := [false, false, false], settings }
    new 3 settings = .ok a ∧ settings.byteLimit = some 2 ∧
      (∀ ops, (∀ i ∈ storedBy ops, i.content = .event .endOfSuperstep) →
        (a.run ops).2.heldEvents ≤ 2) ∧
      ¬∀ ops, (∀ i ∈ storedBy ops, i.content = .event (.custom 7 [])) →
        (a.run ops).2.heldEvents ≤ 2 := by
  intro settings a
  have bounds := bounds_events_iff (show new 3 settings = .ok a from rfl)
    (show settings.byteLimit = some 2 from rfl)
  refine ⟨rfl, rfl, (bounds _).mpr (.inr ?_), fun flood => ?_⟩
  · rintro i hi ⟨kind, h⟩
    rw [hi] at h
    cases h
  · rcases (bounds _).mp flood with hn | heavy
    · cases hn
    · exact heavy (.event 0 (.custom 7 [])) rfl ⟨7, rfl⟩

/-- An event without bytes is held back even where nothing may be. -/
theorem bounds_events_fails :
    ¬∀ (n m : Nat) (settings : AlignmentSettings) (a : Aligner), new n settings = .ok a →
      settings.byteLimit = some m → ∀ ops, (a.run ops).2.heldEvents ≤ m := by
  intro bounds
  have flood := bounds 2 0 { byteLimit := some 0 } _ rfl rfl
    [.offer 0 (.barrier (.plain 1 0)), .store (.event 0 (.custom 0 []))]
  exact absurd flood (by decide)

end Events

end Aligner

end StreamCheckpoint
