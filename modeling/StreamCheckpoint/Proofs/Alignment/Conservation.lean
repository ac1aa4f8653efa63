import Mathlib.Data.List.Induction
import Mathlib.Data.List.Perm.Basic
import StreamCheckpoint.Proofs.Alignment.Renaming

/-! Where the items are that an aligner was given to store.  The aligner does not look at the
channels of items, so that a number can stand in place of each channel, and a run of the same calls
then tells the items apart (`places`).  Every item is in exactly one place at any time, and those
that were stored during one alignment, or during none, stay in the order in which they were stored
(`stored_once`). -/

namespace StreamCheckpoint

section Numbered

variable {ops more : List Operation} {op : Operation} {k : Nat}

/-- The calls with a number in place of the channel of each item that they store, from `k` on. -/
def numberedFrom (k : Nat) : List Operation → List Operation
  | [] => []
  | op :: ops => op.rename (fun _ => k) :: numberedFrom (k + op.stored?.toList.length) ops

theorem storedBy_cons (op : Operation) (ops : List Operation) :
    storedBy (op :: ops) = op.stored?.toList ++ storedBy ops := by
  rw [← storedBy_singleton, ← storedBy_append, List.singleton_append]

theorem stored?_rename (f : Nat → Nat) (op : Operation) :
    (op.rename f).stored? = op.stored?.map (·.rename f) := by
  cases op <;> rfl

theorem numberedFrom_append (k : Nat) (ops more : List Operation) :
    numberedFrom k (ops ++ more) =
      numberedFrom k ops ++ numberedFrom (k + (storedBy ops).length) more := by
  induction ops generalizing k with
  | nil => rfl
  | cons op ops ih =>
    rw [List.cons_append, numberedFrom, ih, numberedFrom, storedBy_cons, List.length_append,
      Nat.add_assoc, List.cons_append]

theorem numberedFrom_concat (ops : List Operation) (op : Operation) :
    numberedFrom 0 (ops ++ [op]) =
      numberedFrom 0 ops ++ [op.rename fun _ => (storedBy ops).length] := by
  rw [numberedFrom_append, Nat.zero_add]
  rfl

theorem storedBy_numberedFrom (k : Nat) (ops : List Operation) : storedBy (numberedFrom k ops) =
    ((storedBy ops).zipIdx k).map fun x => x.1.rename fun _ => x.2 := by
  induction ops generalizing k with
  | nil => rfl
  | cons op ops ih =>
    rw [numberedFrom, storedBy_cons, ih, storedBy_cons, stored?_rename]
    cases op.stored? <;> rfl

/-- The channel of the item with the number `i`. -/
def channelOf (items : List Item) (i : Nat) : Nat := items[i]?.elim 0 (·.channel)

theorem rename_numberedFrom {f : Nat → Nat}
    (h : ∀ i (x : Item), (storedBy ops)[i]? = some x → f (k + i) = x.channel) :
    (numberedFrom k ops).map (·.rename f) = ops := by
  induction ops generalizing k with
  | nil => rfl
  | cons op ops ih =>
    rw [storedBy_cons] at h
    rw [numberedFrom, List.map_cons, List.cons.injEq]
    constructor
    · cases op with
      | store item =>
        have channel : f k = item.channel := h 0 item rfl
        simp [Operation.rename, Item.rename, channel]
      | _ => rfl
    · refine ih fun i x hx => ?_
      rw [Nat.add_assoc]
      refine h _ x ?_
      rw [List.getElem?_append_right (Nat.le_add_right _ i), Nat.add_sub_cancel_left, hx]

/-- The numbers stand for the items that were stored. -/
theorem getElem?_numbered {i : Item} (hi : i ∈ storedBy (numberedFrom 0 ops)) :
    (storedBy ops)[i.channel]? = some (i.rename (channelOf (storedBy ops))) := by
  rw [storedBy_numberedFrom] at hi
  obtain ⟨⟨x, j⟩, hx, rfl⟩ := List.mem_map.mp hi
  have hx : (storedBy ops)[j]? = some x := List.mem_zipIdx_iff_getElem?.mp hx
  simp [Item.rename, channelOf, hx]

end Numbered

/-- The numbers of the items in each place, in order: those that were given back, those that are
held back, those that wait for replay, and those that were dropped. -/
structure Places where
  returned : List Nat
  held : List Nat
  waiting : List Nat
  dropped : List Nat
deriving DecidableEq, Repr

namespace Aligner

/-- What `f` says of each call in the state in which it is made. -/
def collect {β : Type} (f : Aligner → Operation → List β) (a : Aligner) : List Operation → List β
  | [] => []
  | op :: ops => f a op ++ collect f (a.perform op).aligner ops

/-- The item that the call gives back. -/
def taken (a : Aligner) (op : Operation) : List Item :=
  match (a.perform op).answer with
  | .ok (.replayed item) => item.toList
  | _ => []

/-- The items that the call drops. -/
def discarded (a : Aligner) (op : Operation) : List Item := if op = .cleanup then a.items else []

/-- What is aligned when the call stores an item: a checkpoint or none. -/
def phase (a : Aligner) (op : Operation) : List (Option Nat) :=
  op.stored?.toList.map fun _ => a.current

/-- The items that the calls give back, in order. -/
def returned (a : Aligner) (ops : List Operation) : List Item := a.collect taken ops

def dropped (a : Aligner) (ops : List Operation) : List Item := a.collect discarded ops

/-- For each item that the calls store, what was aligned then. -/
def phases (a : Aligner) (ops : List Operation) : List (Option Nat) := a.collect phase ops

/-- Where the items are, once the aligner has given back `back` and dropped `gone`. -/
def spread (a : Aligner) (back gone : List Item) : Places where
  returned := back.map (·.channel)
  held := a.queue.map (·.channel)
  waiting := a.replay.map (·.channel)
  dropped := gone.map (·.channel)

/-- Where the items are after the calls. -/
def places (a : Aligner) (ops : List Operation) : Places :=
  let calls := numberedFrom 0 ops
  (a.run calls).2.spread (a.returned calls) (a.dropped calls)

section Collect

variable {β : Type} {op : Operation}

theorem collect_append (f : Aligner → Operation → List β) (a : Aligner)
    (ops more : List Operation) :
    a.collect f (ops ++ more) = a.collect f ops ++ (a.run ops).2.collect f more := by
  induction ops generalizing a with
  | nil => rfl
  | cons op ops ih => rw [List.cons_append, collect, ih, collect, run_cons, List.append_assoc]

theorem collect_concat (f : Aligner → Operation → List β) (a : Aligner) (ops : List Operation)
    (op : Operation) : a.collect f (ops ++ [op]) = a.collect f ops ++ f (a.run ops).2 op := by
  rw [collect_append, collect, collect, List.append_nil]

theorem taken_rename (g : Nat → Nat) (a : Aligner) (op : Operation) :
    (a.rename g).taken (op.rename g) = (a.taken op).map (·.rename g) := by
  rw [taken, perform_rename, taken]
  cases (a.perform op).answer with
  | error => rfl
  | ok answer =>
    cases answer with
    | replayed item => cases item <;> rfl
    | _ => rfl

theorem returned_rename (g : Nat → Nat) (a : Aligner) (ops : List Operation) :
    (a.rename g).returned (ops.map (·.rename g)) = (a.returned ops).map (·.rename g) := by
  unfold returned
  induction ops generalizing a with
  | nil => rfl
  | cons op ops ih =>
    rw [List.map_cons, collect, taken_rename, perform_rename, ih, collect, List.map_append]

theorem length_phases (a : Aligner) (ops : List Operation) :
    (a.phases ops).length = (storedBy ops).length := by
  unfold phases
  induction ops generalizing a with
  | nil => rfl
  | cons op ops ih =>
    rw [collect, List.length_append, ih, storedBy_cons, List.length_append, phase, List.length_map]

theorem taken_of_passive (passive : op.Passive) (a : Aligner) : a.taken op = [] := by
  have quiet := answer_of_passive passive a
  rw [taken]
  split
  · next item answer => exact absurd answer (quiet item)
  · rfl

theorem taken_replayNext (a : Aligner) : a.taken .replayNext = a.replay.take 1 := by
  obtain ⟨_, _, _, _, replay, _, _⟩ := a
  cases replay <;> rfl

theorem discarded_of_ne (a : Aligner) (h : op ≠ .cleanup) : a.discarded op = [] := if_neg h

end Collect

section Conserved

variable {n : Nat} {settings : AlignmentSettings} {a a' : Aligner} {op : Operation}
  {ops : List Operation}

theorem Shifts.items (passive : op.Passive) (h : a.Shifts op a') : a'.items = a.items := by
  cases h with
  | kept _ _ queue _ replay => rw [Aligner.items, queue, replay, Aligner.items]
  | released _ _ queue _ replay => rw [Aligner.items, queue, replay, List.nil_append]
  | _ => exact passive.elim

/-- A call gives back or drops what it takes away, and adds what it stores. -/
theorem perm_perform (a : Aligner) (op : Operation) :
    (a.taken op ++ (a.perform op).aligner.items ++ a.discarded op).Perm
      (a.items ++ op.stored?.toList) := by
  by_cases passive : op.Passive
  · rw [taken_of_passive passive, a.discarded_of_ne passive.ne_cleanup, passive.stored?_eq,
      (a.shifts op).items passive]
    exact .refl _
  cases op with
  | store item =>
    have stored : (a.store item).2.items.Perm (a.items ++ [item]) := by
      rcases (a.stores item).items with e | ⟨-, e⟩
      · rw [e, items, List.append_assoc]
        exact (List.perm_append_singleton item a.replay).symm.append_left a.queue
      · rw [e]
    simpa [taken, perform, discarded, Operation.stored?] using stored
  | replayNext =>
    have parts : a.replay.take 1 ++ a.replay.tail = a.replay := by
      rw [← List.drop_one, List.take_append_drop]
    have moved : (a.replay.take 1 ++ (a.queue ++ a.replay.tail)).Perm
        (a.queue ++ (a.replay.take 1 ++ a.replay.tail)) := by
      rw [← List.append_assoc, ← List.append_assoc]
      exact List.perm_append_comm.append_right _
    rw [parts] at moved
    simpa [taken_replayNext, perform, replayNext_snd, discarded, Operation.stored?, items, queue]
      using moved
  | cleanup => simp [taken, perform, cleanup, discarded, Operation.stored?, items, queue]
  | _ => exact absurd trivial passive

theorem perm_run (a : Aligner) (ops : List Operation) :
    (a.returned ops ++ (a.run ops).2.items ++ a.dropped ops).Perm (a.items ++ storedBy ops) := by
  unfold returned dropped
  induction ops generalizing a with
  | nil => simp [collect, storedBy]
  | cons op ops ih =>
    have step := List.perm_iff_count.mp (a.perm_perform op)
    have rest := List.perm_iff_count.mp (ih (a.perform op).aligner)
    refine List.perm_iff_count.mpr fun item => ?_
    have step := step item
    have rest := rest item
    simp only [List.count_append] at step rest
    simp only [collect, run_cons, storedBy_cons, List.count_append]
    omega

theorem new_items (h : new n settings = .ok a) : a.items = [] := by
  rw [(new_spec h).2]
  rfl

theorem rename_new (h : new n settings = .ok a) (f : Nat → Nat) : a.rename f = a := by
  rw [(new_spec h).2]
  rfl

/-- The run of the numbered calls is the run itself, with numbers in place of channels. -/
theorem rename_numbered (h : new n settings = .ok a) (ops : List Operation) :
    (a.returned (numberedFrom 0 ops)).map (·.rename (channelOf (storedBy ops))) = a.returned ops ∧
      (a.run (numberedFrom 0 ops)).2.rename (channelOf (storedBy ops)) = (a.run ops).2 := by
  have calls : (numberedFrom 0 ops).map (·.rename (channelOf (storedBy ops))) = ops :=
    rename_numberedFrom fun i x hx => by simp [channelOf, hx]
  have returned := a.returned_rename (channelOf (storedBy ops)) (numberedFrom 0 ops)
  have run := a.run_rename (channelOf (storedBy ops)) (numberedFrom 0 ops)
  rw [rename_new h, calls] at returned run
  exact ⟨returned.symm, (congrArg Prod.snd run).symm⟩

theorem current_numbered (h : new n settings = .ok a) (ops : List Operation) :
    (a.run (numberedFrom 0 ops)).2.current = (a.run ops).2.current := by
  rw [← (rename_numbered h ops).2, current_rename]

/-- A number stands for the item that was stored with it. -/
theorem places_stand (h : new n settings = .ok a) (ops : List Operation) :
    (a.places ops).returned.map ((storedBy ops)[·]?) = (a.returned ops).map some ∧
      (a.places ops).held.map ((storedBy ops)[·]?) = (a.run ops).2.queue.map some ∧
      (a.places ops).waiting.map ((storedBy ops)[·]?) = (a.run ops).2.replay.map some := by
  have perm := a.perm_run (numberedFrom 0 ops)
  rw [new_items h, List.nil_append] at perm
  have stand : ∀ items : List Item,
      (∀ i ∈ items, i ∈ a.returned (numberedFrom 0 ops) ++ (a.run (numberedFrom 0 ops)).2.items) →
      (items.map (·.channel)).map ((storedBy ops)[·]?) =
        (items.map (·.rename (channelOf (storedBy ops)))).map some := by
    intro items hitems
    rw [List.map_map, List.map_map]
    exact List.map_congr_left fun i hi =>
      getElem?_numbered (perm.subset (List.mem_append_left _ (hitems i hi)))
  obtain ⟨returned, last⟩ := rename_numbered h ops
  have queue := congrArg queue last
  have replay := congrArg Aligner.replay last
  rw [queue_rename] at queue
  refine ⟨?_, ?_, ?_⟩
  · rw [← returned]
    exact stand _ fun i hi => List.mem_append_left _ hi
  · rw [← queue]
    exact stand _ fun i hi => List.mem_append_right _ (List.mem_append_left _ hi)
  · rw [← replay]
    exact stand _ fun i hi => List.mem_append_right _ (List.mem_append_right _ hi)

/-- Every number that was used is in one place. -/
theorem places_perm (h : new n settings = .ok a) (ops : List Operation) :
    ((a.places ops).returned ++ (a.places ops).held ++ (a.places ops).waiting ++
      (a.places ops).dropped).Perm (List.range (storedBy ops).length) := by
  have perm := (a.perm_run (numberedFrom 0 ops)).map (·.channel)
  have numbers : (storedBy (numberedFrom 0 ops)).map (·.channel) =
      List.range (storedBy ops).length := by
    rw [storedBy_numberedFrom, List.map_map, List.range_eq_range', ← List.zipIdx_map_snd]
    rfl
  rw [new_items h, List.nil_append, numbers] at perm
  simpa [places, spread, items] using perm

end Conserved

/-- What a call does to the places of the items, the next of which gets the number `k`: `c` is the
checkpoint that is aligned before it and `c'` the one that is aligned after it. -/
inductive Moves (k : Nat) (c : Option Nat) :
    Operation → Option Nat → Places → Places → Prop
  | kept {op : Operation} {p : Places} (passive : op.Passive) : Moves k c op c p p
  | released {op : Operation} {c' : Option Nat} {p : Places} (passive : op.Passive)
      (ended : c' ≠ c) :
      Moves k c op c' p { p with held := [], waiting := p.held ++ p.waiting }
  | added {item : Item} {p : Places} (idle : c = none) :
      Moves k c (.store item) c p { p with waiting := p.waiting ++ [k] }
  | held {item : Item} {p : Places} (aligning : c ≠ none) :
      Moves k c (.store item) c p { p with held := p.held ++ [k] }
  | overflowed {item : Item} {p : Places} (aligning : c ≠ none) :
      Moves k c (.store item) none p
        { p with held := [], waiting := p.held ++ [k] ++ p.waiting }
  | taken {p : Places} : Moves k c .replayNext c p
      { p with returned := p.returned ++ p.waiting.take 1, waiting := p.waiting.drop 1 }
  | dropped {p : Places} : Moves k c .cleanup none p
      { p with held := [], waiting := [], dropped := p.dropped ++ (p.held ++ p.waiting) }

section Moves

variable {n k : Nat} {settings : AlignmentSettings} {a : Aligner} {op : Operation}
  {ops : List Operation} {c c' : Option Nat} {p p' : Places}

theorem moves_store (s : Aligner) (item : Item) (k : Nat) (back gone : List Item) :
    Moves k s.current (.store item) (s.store (item.rename fun _ => k)).2.current
      (s.spread back gone) ((s.store (item.rename fun _ => k)).2.spread back gone) := by
  have channel : (item.rename fun _ => k).channel = k := rfl
  generalize item.rename (fun _ => k) = x at channel
  have stores := s.stores x
  generalize s.store x = r at stores
  cases stores with
  | idle none =>
    have spread' : spread { s with replay := s.replay ++ [x] } back gone =
        { s.spread back gone with waiting := (s.spread back gone).waiting ++ [k] } := by
      simp [spread, channel, queue]
    rw [spread']
    exact .added (current_of_idle none)
  | @held f flight =>
    have current : current { s with inFlight := some (f.hold x) } = s.current := by
      rw [current_of_inFlight flight, current_of_inFlight rfl]
      rfl
    have spread' : spread { s with inFlight := some (f.hold x) } back gone =
        { s.spread back gone with held := (s.spread back gone).held ++ [k] } := by
      simp [spread, channel, queue, flight, Alignment.hold]
    rw [current, spread']
    exact .held (by simp [current_of_inFlight flight])
  | @overflowed f flight =>
    have spread' : spread (s.abort (f.hold x) .byteLimit).2 back gone =
        { s.spread back gone with
          held := []
          waiting := (s.spread back gone).held ++ [k] ++ (s.spread back gone).waiting
        } := by
      simp [spread, channel, queue, flight, Alignment.hold, abort, release]
    have idle : (s.abort (f.hold x) .byteLimit).2.current = none := rfl
    rw [idle, spread']
    exact .overflowed (by simp [current_of_inFlight flight])

theorem moves_perform (s : Aligner) (op : Operation) (k : Nat) (back gone : List Item) :
    let op' := op.rename fun _ => k
    Moves k s.current op (s.perform op').aligner.current (s.spread back gone)
      ((s.perform op').aligner.spread (back ++ s.taken op') (gone ++ s.discarded op')) := by
  intro op'
  by_cases passive : op.Passive
  · have same : op' = op := rename_of_passive passive _
    rw [same, taken_of_passive passive, s.discarded_of_ne passive.ne_cleanup, List.append_nil,
      List.append_nil]
    generalize hs' : (s.perform op).aligner = s'
    have shifts := s.shifts op
    rw [hs'] at shifts
    cases shifts with
    | kept _ current queue _ replay =>
      have h := Moves.kept (k := k) (c := s.current) (p := s.spread back gone) passive
      simpa only [spread, current, queue, replay] using h
    | released _ current queue _ replay =>
      have h := Moves.released (k := k) (p := s.spread back gone) passive current
      simpa [spread, queue, replay, items] using h
    | _ => exact passive.elim
  · cases op with
    | store item =>
      have h := s.moves_store item k back gone
      simpa [op', Operation.rename, perform, taken, discarded] using h
    | replayNext =>
      have spread' : s.replayNext.2.spread (back ++ s.replay.take 1) gone =
          { s.spread back gone with
            returned := (s.spread back gone).returned ++ (s.spread back gone).waiting.take 1
            waiting := (s.spread back gone).waiting.drop 1 } := by
        simp [spread, replayNext_snd, queue, List.map_take]
      have current : s.replayNext.2.current = s.current := by
        rw [replayNext_snd]
        rfl
      have kept : s.discarded .replayNext = [] := by simp [discarded]
      simp only [op', Operation.rename, taken_replayNext, perform, kept, current]
      rw [List.append_nil, spread']
      exact .taken
    | cleanup =>
      have spread' : s.cleanup.spread back (gone ++ s.items) =
          { s.spread back gone with
            held := []
            waiting := []
            dropped := (s.spread back gone).dropped ++
              ((s.spread back gone).held ++ (s.spread back gone).waiting) } := by
        simp [spread, cleanup, queue, items]
      have idle : s.cleanup.current = none := rfl
      simp only [op', Operation.rename, perform, taken, discarded, if_pos, List.append_nil, idle,
        spread']
      exact .dropped
    | _ => exact absurd trivial passive

theorem moves (h : new n settings = .ok a) (ops : List Operation) (op : Operation) :
    Moves (storedBy ops).length (a.run ops).2.current op (a.run (ops ++ [op])).2.current
      (a.places ops) (a.places (ops ++ [op])) := by
  rw [← current_numbered h ops, ← current_numbered h (ops ++ [op])]
  simp only [places, returned, dropped, numberedFrom_concat, run_concat, collect_concat]
  exact moves_perform _ op _ _ _

/-- When an alignment ends, its items come before everything that was waiting. -/
theorem Moves.ended (h : Moves k c op c' p p') (kept : op ≠ .cleanup) (aligning : c ≠ none)
    (ended : c' ≠ c) : p' = { p with
      held := [], waiting := p.held ++ (op.stored?.toList.map fun _ => k) ++ p.waiting } := by
  cases h with
  | released passive => simp [passive.stored?_eq]
  | added idle => exact absurd idle aligning
  | overflowed => rfl
  | dropped => exact absurd rfl kept
  | _ => exact absurd rfl ended

theorem Moves.cleaned (h : Moves k c .cleanup c' p p') : p' = { p with
    held := [], waiting := [], dropped := p.dropped ++ (p.held ++ p.waiting) } := by
  cases h with
  | kept passive => exact passive.elim
  | released passive => exact passive.elim
  | dropped => rfl

theorem dropped_of_no_cleanup (h : new n settings = .ok a) (none : .cleanup ∉ ops) :
    (a.places ops).dropped = [] := by
  induction ops using List.reverseRecOn with
  | nil => rfl
  | append_singleton ops op ih =>
    rw [List.mem_append, not_or, List.mem_singleton] at none
    have hd := ih none.1
    have moves := moves h ops op
    generalize a.places ops = p at moves hd
    generalize a.places (ops ++ [op]) = p' at moves
    generalize (a.run (ops ++ [op])).2.current = after at moves
    cases moves with
    | dropped => exact absurd rfl none.2
    | _ => exact hd

end Moves

/-- The item with the number `i` was stored before the one with the number `j`, or not while the
same was aligned. -/
def Precedes (phases : List (Option Nat)) (i j : Nat) : Prop := phases[i]? = phases[j]? → i < j

/-- Items that were stored while the same was aligned are given back in the order in which they were
stored, and exactly those of the alignment in flight are held back. -/
structure Arranged (phases : List (Option Nat)) (s : Aligner) (p : Places) : Prop where
  ordered : (p.returned ++ p.held ++ p.waiting).Pairwise (Precedes phases)
  held : ∀ i ∈ p.held, ∃ k, s.current = some k ∧ phases[i]? = some (some k)
  others : ∀ k, s.current = some k → ∀ i ∈ p.returned ++ p.waiting ++ p.dropped,
    phases[i]? ≠ some (some k)
  seen : ∀ k, some k ∈ phases → s.Seen k

section Arranged

variable {n k : Nat} {settings : AlignmentSettings} {a s s' : Aligner} {op : Operation}
  {ops : List Operation} {p p' : Places} {phases : List (Option Nat)} {x : Option Nat}
  {ns : List Notice} {before after : List Nat}

theorem precedes_extend (x : Option Nat) (bounded : ∀ i ∈ before, i < phases.length)
    (h : before.Pairwise (Precedes phases)) : before.Pairwise (Precedes (phases ++ [x])) := by
  refine h.imp_of_mem fun hi hj hij => ?_
  unfold Precedes
  rw [List.getElem?_append_left (bounded _ hi), List.getElem?_append_left (bounded _ hj)]
  exact hij

/-- The next item comes after those before it, and those after it were not stored while the same was
aligned. -/
theorem precedes_insert (bounded : ∀ i ∈ before ++ after, i < phases.length)
    (h : (before ++ after).Pairwise (Precedes phases)) (other : ∀ j ∈ after, phases[j]? ≠ some x) :
    (before ++ [phases.length] ++ after).Pairwise (Precedes (phases ++ [x])) := by
  have next : (phases ++ [x])[phases.length]? = some x := by simp
  obtain ⟨hbefore, hafter, hacross⟩ := List.pairwise_append.mp (precedes_extend x bounded h)
  rw [List.append_assoc, List.singleton_append]
  refine List.pairwise_append.mpr ⟨hbefore, List.pairwise_cons.mpr ⟨fun j hj e => ?_, hafter⟩,
    fun i hi j hj => ?_⟩
  · rw [next, List.getElem?_append_left (bounded j (List.mem_append_right _ hj))] at e
    exact absurd e.symm (other j hj)
  · rcases List.mem_cons.mp hj with rfl | hj
    · exact fun _ => bounded i (List.mem_append_left _ hi)
    · exact hacross i hi j hj

theorem pairwise_swap {R : Nat → Nat → Prop} {l m : List Nat}
    (h : (l ++ m ++ (before ++ after)).Pairwise R) (cross : ∀ i ∈ before, ∀ j ∈ m, R i j) :
    (l ++ before ++ m ++ after).Pairwise R := by
  simp only [List.pairwise_append, List.mem_append] at h ⊢
  grind

theorem Arranged.same (h : Arranged phases s p) (current : s'.current = s.current)
    (seen : ∀ k, s.Seen k → s'.Seen k) : Arranged phases s' p := by
  refine ⟨h.ordered, fun i hi => ?_, fun k hk => h.others k (current ▸ hk),
    fun k hk => seen k (h.seen k hk)⟩
  rw [current]
  exact h.held i hi

/-- An alignment that begins is one of a checkpoint that was not seen, so nothing was stored during
it yet. -/
theorem Arranged.fresh (h : Arranged phases s p) (progress : s.Progress ns s')
    (ended : s'.current ≠ s.current) (hk : s'.current = some k) (i : Nat) :
    phases[i]? ≠ some (some k) := by
  intro hi
  rcases progress.current k hk with same | newer
  · exact ended (hk.trans same.symm)
  · exact newer (h.seen k (List.mem_of_getElem? hi))

theorem Arranged.release (h : Arranged phases s p) (progress : s.Progress ns s')
    (ended : s'.current ≠ s.current) :
    Arranged phases s' { p with held := [], waiting := p.held ++ p.waiting } := by
  refine ⟨?_, nofun, fun k hk i _ => h.fresh progress ended hk i,
    fun k hk => progress.seen k (h.seen k hk)⟩
  simpa only [List.append_nil, List.append_assoc] using h.ordered

/-- The next item is one of the alignment in flight, and is held back. -/
theorem Arranged.hold (h : Arranged phases s p) (hs : s.Seen k) (hk : s.current = some k)
    (bounded : ∀ i ∈ p.returned ++ p.held ++ p.waiting ++ p.dropped, i < phases.length) :
    Arranged (phases ++ [some k]) s { p with held := p.held ++ [phases.length] } := by
  have bounded' : ∀ i ∈ p.returned ++ p.held ++ p.waiting, i < phases.length := fun i hi =>
    bounded i (List.mem_append_left _ hi)
  have earlier : ∀ i < phases.length, (phases ++ [some k])[i]? = phases[i]? := fun i hi =>
    List.getElem?_append_left hi
  refine ⟨?_, fun i hi => ⟨k, hk, ?_⟩, fun k' hk' i hi => ?_, fun k' hk' => ?_⟩
  · rw [← List.append_assoc]
    refine precedes_insert bounded' h.ordered fun j hj => h.others k hk j ?_
    simp [hj]
  · rcases List.mem_append.mp hi with hi | hi
    · obtain ⟨k', hk', e⟩ := h.held i hi
      rw [earlier i (bounded' i (by simp [hi])), e, ← hk', hk]
    · rw [List.mem_singleton.mp hi]
      simp
  · rw [earlier i (bounded i (by simp at hi ⊢; tauto))]
    exact h.others k' hk' i hi
  · rcases List.mem_append.mp hk' with hk' | hk'
    · exact h.seen k' hk'
    · rwa [Option.some.inj (List.mem_singleton.mp hk')]

/-- The next item comes while nothing is aligned, and waits for replay after all others. -/
theorem Arranged.add (h : Arranged phases s p) (idle : s.current = none)
    (bounded : ∀ i ∈ p.returned ++ p.held ++ p.waiting ++ p.dropped, i < phases.length) :
    Arranged (phases ++ [none]) s { p with waiting := p.waiting ++ [phases.length] } := by
  have none_held : p.held = [] := List.eq_nil_iff_forall_not_mem.mpr fun i hi => by
    obtain ⟨k, hk, -⟩ := h.held i hi
    rw [idle] at hk
    cases hk
  refine ⟨?_, fun i hi => ?_, fun k hk => ?_, fun k hk => ?_⟩
  · have ordered : (p.returned ++ p.held ++ p.waiting ++ []).Pairwise (Precedes phases) := by
      rw [List.append_nil]
      exact h.ordered
    have extended := precedes_insert (x := none) (fun i hi => bounded i ?_) ordered nofun
    · simpa only [List.append_nil, List.append_assoc] using extended
    · rw [List.append_nil] at hi
      exact List.mem_append_left _ hi
  · rw [none_held] at hi
    cases hi
  · rw [idle] at hk
    cases hk
  · rcases List.mem_append.mp hk with hk | hk
    · exact h.seen k hk
    · cases List.mem_singleton.mp hk

/-- What is given back was not stored during the alignment in flight, and so it comes before what is
held back. -/
theorem Arranged.take (h : Arranged phases s p) : Arranged phases s
    { p with returned := p.returned ++ p.waiting.take 1, waiting := p.waiting.drop 1 } := by
  have parts := List.take_append_drop 1 p.waiting
  refine ⟨?_, h.held, fun k hk i hi => h.others k hk i ?_, h.seen⟩
  · have ordered := h.ordered
    rw [← parts] at ordered
    refine pairwise_swap ordered fun i hi j hj e => ?_
    obtain ⟨k, hk, hj⟩ := h.held j hj
    refine absurd (e.trans hj) (h.others k hk i ?_)
    simp [List.mem_of_mem_take hi]
  · rw [← parts]
    simpa only [List.append_assoc] using hi

/-- What is dropped is no longer in line. -/
theorem Arranged.drop (h : Arranged phases s p) (idle : s'.current = none)
    (seen : ∀ k, s.Seen k → s'.Seen k) : Arranged phases s'
      { p with held := [], waiting := [], dropped := p.dropped ++ (p.held ++ p.waiting) } := by
  refine ⟨?_, nofun, fun k hk => ?_, fun k hk => seen k (h.seen k hk)⟩
  · rw [List.append_nil, List.append_nil]
    exact (List.pairwise_append.mp (List.pairwise_append.mp h.ordered).1).1
  · rw [idle] at hk
    cases hk

theorem Arranged.step (h : Arranged phases s p)
    (moves : Moves phases.length s.current op s'.current p p') (progress : s.Progress ns s')
    (seen : ∀ k, s.current = some k → s.Seen k)
    (bounded : ∀ i ∈ p.returned ++ p.held ++ p.waiting ++ p.dropped, i < phases.length) :
    Arranged (phases ++ s.phase op) s' p' := by
  have silent : op.stored? = none → phases ++ s.phase op = phases := by
    intro none
    rw [phase, none, Option.toList_none, List.map_nil, List.append_nil]
  generalize current : s'.current = c' at moves
  cases moves with
  | kept passive =>
    rw [silent passive.stored?_eq]
    exact h.same current progress.seen
  | released passive ended =>
    rw [silent passive.stored?_eq]
    exact h.release progress (current ▸ ended)
  | added idle =>
    have added := h.add idle bounded
    rw [← idle] at added
    exact added.same current progress.seen
  | held aligning =>
    obtain ⟨k, hk⟩ := Option.ne_none_iff_exists'.mp aligning
    have held := h.hold (seen k hk) hk bounded
    rw [← hk] at held
    exact held.same current progress.seen
  | overflowed aligning =>
    obtain ⟨k, hk⟩ := Option.ne_none_iff_exists'.mp aligning
    have held := h.hold (seen k hk) hk bounded
    rw [← hk] at held
    exact held.release progress (current ▸ aligning.symm)
  | taken =>
    rw [silent rfl]
    exact h.take.same current progress.seen
  | dropped =>
    rw [silent rfl]
    exact h.drop current progress.seen

theorem places_bounded (h : new n settings = .ok a) (ops : List Operation) :
    ∀ i ∈ (a.places ops).returned ++ (a.places ops).held ++ (a.places ops).waiting ++
      (a.places ops).dropped, i < (a.phases ops).length := by
  intro i hi
  rw [length_phases]
  exact List.mem_range.mp ((places_perm h ops).subset hi)

theorem arranged_run (h : new n settings = .ok a) (ops : List Operation) :
    Arranged (a.phases ops) (a.run ops).2 (a.places ops) := by
  induction ops using List.reverseRecOn with
  | nil =>
    obtain ⟨-, rfl⟩ := new_spec h
    exact ⟨.nil, nofun, nofun, nofun⟩
  | append_singleton ops op ih =>
    have sound : (a.run ops).2.bare.Sound := by
      refine sound_run (sound_of_idle ?_) ops
      rw [(new_spec h).2]
      rfl
    have progress : (a.run ops).2.Progress ((a.run ops).2.perform op).notices
        (a.run (ops ++ [op])).2 := by
      rw [run_concat]
      exact .of_bare (((a.run ops).2.performs op).progress sound)
    have moves := moves h ops op
    rw [← length_phases a] at moves
    rw [phases, collect_concat]
    refine ih.step moves progress (fun k hk => ?_) (places_bounded h ops)
    rw [← current_bare] at hk
    exact sound.seen_of_current hk

/-- The items that were stored, by their numbers: each is at any time in exactly one place, and
there is no other.  Until `cleanup` is called that is to be given back already, to be held back for
the alignment in flight, or to wait for replay.  What was given back stays so, and items that were
stored during one alignment, or during none, are given back in the order in which they were stored.
Exactly what was stored during the alignment in flight is held back; when that ends it comes before
everything that was waiting, together with the item that ends it, if one does.  `cleanup` drops
everything that was not given back. -/
theorem stored_once (h : new n settings = .ok a) (ops : List Operation) :
    let s := (a.run ops).2
    let p := a.places ops
    (p.returned.map ((storedBy ops)[·]?) = (a.returned ops).map some ∧
      p.held.map ((storedBy ops)[·]?) = s.queue.map some ∧
      p.waiting.map ((storedBy ops)[·]?) = s.replay.map some) ∧
    (p.returned ++ p.held ++ p.waiting ++ p.dropped).Perm (List.range (storedBy ops).length) ∧
    (.cleanup ∉ ops → p.dropped = []) ∧
    (∀ more, p.returned <+: (a.places (ops ++ more)).returned) ∧
    (p.returned ++ p.held ++ p.waiting).Pairwise (Precedes (a.phases ops)) ∧
    (∀ i, i ∈ p.held ↔ ∃ k, s.current = some k ∧ (a.phases ops)[i]? = some (some k)) ∧
    (∀ op, op ≠ .cleanup → s.isAligning → (s.perform op).aligner.current ≠ s.current →
      a.places (ops ++ [op]) = { p with
        held := []
        waiting := p.held ++ (op.stored?.toList.map fun _ => (storedBy ops).length) ++
          p.waiting }) ∧
    a.places (ops ++ [.cleanup]) = { p with
      held := [], waiting := [], dropped := p.dropped ++ (p.held ++ p.waiting) } := by
  intro s p
  have arranged := arranged_run h ops
  refine ⟨places_stand h ops, places_perm h ops, dropped_of_no_cleanup h, fun more => ?_,
    arranged.ordered, fun i => ⟨arranged.held i, ?_⟩, fun op kept aligning ended => ?_, ?_⟩
  · simp only [p, places, spread, returned, numberedFrom_append, collect_append, List.map_append]
    exact List.prefix_append _ _
  · rintro ⟨k, hk, hi⟩
    have hlt : i < (storedBy ops).length := by
      rw [← length_phases a]
      exact (List.getElem?_eq_some_iff.mp hi).1
    have mem := (places_perm h ops).symm.subset (List.mem_range.mpr hlt)
    by_contra not_held
    refine arranged.others k hk i ?_ hi
    simp only [List.mem_append] at mem ⊢
    tauto
  · have moves := moves h ops op
    rw [run_concat] at moves
    refine moves.ended kept (fun idle => ?_) ended
    have idle : s.inFlight = none := Option.map_eq_none_iff.mp idle
    rw [isAligning, idle] at aligning
    cases aligning
  · exact (moves h ops .cleanup).cleaned

/-- The first item is stored while nothing is aligned, the next two, which are equal, during the
first alignment, and the last one during the second, which takes the first one's place. -/
def nestedStores : List Operation :=
  [.store (.buffer 0 [1]), .offer 0 (.barrier (.plain 1 0)), .store (.buffer 0 [2]), .replayNext,
    .store (.buffer 0 [2]), .offer 1 (.barrier (.plain 2 0)), .store (.buffer 1 [3]), .replayNext]

/-- The second alignment is given up, or everything is dropped. -/
theorem stored_once_nested :
    let a : Aligner := { closed := [false, false, false] }
    let cancel : Operation := .offer 0 (.barrier ⟨2, 0, Barrier.cancelBit⟩)
    new 3 = .ok a ∧ a.places nestedStores = ⟨[0, 1], [3], [2], []⟩ ∧
      [0, 1, 3, 2].Pairwise (Precedes [none, some 1, some 1, some 2]) ∧
      a.places (nestedStores ++ [cancel]) = ⟨[0, 1], [], [3, 2], []⟩ ∧
      a.places (nestedStores ++ [.cleanup]) = ⟨[0, 1], [], [], [3, 2]⟩ := by
  intro a cancel
  have places : a.places nestedStores = ⟨[0, 1], [3], [2], []⟩ := by decide
  have phases : a.phases nestedStores = [none, some 1, some 1, some 2] := by decide
  obtain ⟨-, -, -, -, ordered, -, ended, cleaned⟩ :=
    stored_once (show new 3 = .ok a from rfl) nestedStores
  rw [places, phases] at ordered
  rw [places] at cleaned
  have canceled := ended cancel (by decide) (by decide) (by decide)
  rw [places] at canceled
  exact ⟨rfl, places, ordered, canceled, cleaned⟩

end Arranged

end Aligner

end StreamCheckpoint
