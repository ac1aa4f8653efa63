import StreamCheckpoint.SharedState.Registry

/-! The requests that the operations of a registry are made of.  Every operation takes or gives back
references to keys one at a time, and a batch is the sequence of its requests, up to the first one
that is refused (`transfer_of_open`).  What a single request does to a catalog is one of the five
cases of `Serves`, from which all that is known of longer runs is derived. -/

namespace StreamCheckpoint

/-- A request for one reference to a key, or to release one. -/
inductive Request
  | register (key : SharedKey) (handle : StateHandle)
  | release (key : SharedKey)
deriving Repr

def Request.key : Request → SharedKey
  | register key _ => key
  | release key => key

/-- A request that was dealt with, together with the answer, or the loss of all keys. -/
inductive Deed
  | registered (key : SharedKey) (handle : StateHandle) (answer : Registration)
  | released (key : SharedKey) (answer : Registration)
  | refused (key : SharedKey) (error : SharedStateError)
  | cleared

namespace Deed

/-- Why a request was refused, which ends the batch that it belongs to. -/
def failure? : Deed → Option SharedStateError
  | refused _ e => some e
  | _ => none

def request? : Deed → Option Request
  | registered key h _ => some (.register key h)
  | released key _ => some (.release key)
  | refused key _ => some (.release key)
  | cleared => none

/-- The handle that a registration tells the caller to go on with, under its key. -/
def handed? : Deed → Option (SharedKey × StateHandle)
  | registered key h answer => some (key, answer.reference.getD h)
  | _ => none

end Deed

/-- The deeds deal with the requests in order, up to the first one that is refused. -/
inductive Request.Served : List Request → List Deed → Prop
  | nil : Served [] []
  | granted {q : Request} {qs : List Request} {d : Deed} {ds : List Deed}
      (request : d.request? = some q) (success : d.failure? = none) (rest : Served qs ds) :
      Served (q :: qs) (d :: ds)
  | refused {q : Request} {d : Deed} (request : d.request? = some q)
      (failure : d.failure?.isSome = true) (qs : List Request) : Served (q :: qs) [d]

theorem Request.Served.mem {qs : List Request} {ds : List Deed} (h : Request.Served qs ds)
    {d : Deed} (hd : d ∈ ds) : ∃ q ∈ qs, d.request? = some q := by
  induction h with
  | nil => cases hd
  | granted request _ _ ih =>
    rcases List.mem_cons.1 hd with rfl | hd
    · exact ⟨_, .head _, request⟩
    · obtain ⟨q, hq, h⟩ := ih hd
      exact ⟨q, .tail _ hq, h⟩
  | refused request =>
    obtain rfl := List.mem_singleton.1 hd
    exact ⟨_, .head _, request⟩

namespace Catalog

def serve (c : Catalog) : Request → Change Deed
  | .register key h =>
    let r := c.register key h
    { r with answer := .registered key h r.answer }
  | .release key =>
    let r := c.release key
    { r with
      answer := match r.answer with
        | .ok a => .released key a
        | .error e => .refused key e }

/-- Deals with requests one after the other, up to the first one that is refused. -/
def serveEach (c : Catalog) : List Request → Change (List Deed)
  | [] => ⟨[], [], c⟩
  | q :: qs =>
    let r := c.serve q
    if r.answer.failure?.isSome then { r with answer := [r.answer] }
    else
      let rs := r.catalog.serveEach qs
      ⟨r.answer :: rs.answer, r.retired ++ rs.retired, rs.catalog⟩

/-- What dealing with a single request comes to. -/
inductive Serves (c : Catalog) : Request → Change Deed → Prop
  /-- The key had no reference: the handle is kept. -/
  | opened {key : SharedKey} {h : StateHandle} (fresh : c.entries.get? key = none) :
      Serves c (.register key h)
        ⟨.registered key h ⟨some h, 1⟩, [], ⟨c.entries.insert key ⟨h, 1, Nat.one_pos⟩⟩⟩
  /-- The key has a handle: another one is retired. -/
  | joined {key : SharedKey} {h : StateHandle} {e : CatalogEntry}
      (kept : c.entries.get? key = some e) :
      Serves c (.register key h)
        ⟨.registered key h ⟨some e.state, e.count + 1⟩, if e.state == h then [] else [h],
          ⟨c.entries.insert key ⟨e.state, e.count + 1, Nat.succ_pos _⟩⟩⟩
  | returned {key : SharedKey} {e : CatalogEntry} (kept : c.entries.get? key = some e)
      (more : 1 < e.count) :
      Serves c (.release key)
        ⟨.released key ⟨some e.state, e.count - 1⟩, [],
          ⟨c.entries.insert key ⟨e.state, e.count - 1, Nat.sub_pos_of_lt more⟩⟩⟩
  /-- The last reference goes, and the handle with it. -/
  | ended {key : SharedKey} {e : CatalogEntry} (kept : c.entries.get? key = some e)
      (last : e.count = 1) :
      Serves c (.release key) ⟨.released key ⟨none, 0⟩, [e.state], ⟨c.entries.erase key⟩⟩
  | refused {key : SharedKey} (unknown : c.entries.get? key = none) :
      Serves c (.release key) ⟨.refused key (.notRegistered key), [], c⟩

theorem serves (c : Catalog) (q : Request) : c.Serves q (c.serve q) := by
  cases q with
  | register key h =>
    cases hkept : c.entries.get? key with
    | none =>
      simp only [serve, register, hkept]
      exact .opened hkept
    | some e =>
      simp only [serve, register, hkept]
      exact .joined hkept
  | release key =>
    cases hkept : c.entries.get? key with
    | none =>
      simp only [serve, release, hkept]
      exact .refused hkept
    | some e =>
      by_cases hmore : 1 < e.count
      · simp only [serve, release, hkept, dif_pos hmore]
        exact .returned hkept hmore
      · simp only [serve, release, hkept, dif_neg hmore]
        exact .ended hkept (Nat.le_antisymm (Nat.not_lt.1 hmore) e.count_pos)

section Sequences

variable {c : Catalog} {q : Request} {qs rs : List Request}

@[simp] theorem serveEach_nil (c : Catalog) : c.serveEach [] = ⟨[], [], c⟩ := rfl

theorem serveEach_of_served (h : (c.serve q).answer.failure? = none) (qs : List Request) :
    c.serveEach (q :: qs) =
      ⟨(c.serve q).answer :: ((c.serve q).catalog.serveEach qs).answer,
        (c.serve q).retired ++ ((c.serve q).catalog.serveEach qs).retired,
        ((c.serve q).catalog.serveEach qs).catalog⟩ := by
  simp [serveEach, h]

theorem serveEach_of_refused {e : SharedStateError} (h : (c.serve q).answer.failure? = some e)
    (qs : List Request) :
    c.serveEach (q :: qs) = ⟨[(c.serve q).answer], (c.serve q).retired, (c.serve q).catalog⟩ := by
  simp [serveEach, h]

theorem serveEach_singleton (c : Catalog) (q : Request) :
    c.serveEach [q] = ⟨[(c.serve q).answer], (c.serve q).retired, (c.serve q).catalog⟩ := by
  cases h : (c.serve q).answer.failure? with
  | none => simp [serveEach_of_served h]
  | some e => exact serveEach_of_refused h []

theorem Serves.request {r : Change Deed} (h : c.Serves q r) : r.answer.request? = some q := by
  cases h <;> rfl

theorem served (c : Catalog) (qs : List Request) : Request.Served qs (c.serveEach qs).answer := by
  induction qs generalizing c with
  | nil => exact .nil
  | cons q qs ih =>
    have hq := (c.serves q).request
    cases hf : (c.serve q).answer.failure? with
    | none =>
      rw [serveEach_of_served hf]
      exact .granted hq hf (ih _)
    | some e =>
      rw [serveEach_of_refused hf]
      exact .refused hq (by rw [hf]; rfl) qs

def Grants (c : Catalog) (qs : List Request) : Prop :=
  ∀ d ∈ (c.serveEach qs).answer, d.failure? = none

theorem grants_cons : c.Grants (q :: qs) ↔
    (c.serve q).answer.failure? = none ∧ (c.serve q).catalog.Grants qs := by
  unfold Grants
  cases h : (c.serve q).answer.failure? with
  | none => simp [serveEach_of_served h, h]
  | some e => simp [serveEach_of_refused h, h]

theorem serveEach_append (h : c.Grants qs) (rs : List Request) :
    c.serveEach (qs ++ rs) =
      ⟨(c.serveEach qs).answer ++ ((c.serveEach qs).catalog.serveEach rs).answer,
        (c.serveEach qs).retired ++ ((c.serveEach qs).catalog.serveEach rs).retired,
        ((c.serveEach qs).catalog.serveEach rs).catalog⟩ := by
  induction qs generalizing c with
  | nil => rfl
  | cons q qs ih =>
    obtain ⟨hq, hqs⟩ := grants_cons.1 h
    rw [List.cons_append, serveEach_of_served hq, serveEach_of_served hq, ih hqs]
    simp

theorem grants_append : c.Grants (qs ++ rs) ↔
    c.Grants qs ∧ (c.serveEach qs).catalog.Grants rs := by
  induction qs generalizing c with
  | nil => simp [Grants]
  | cons q qs ih =>
    rw [List.cons_append, grants_cons, grants_cons, ih, and_assoc]
    refine and_congr_right fun hq => ?_
    rw [serveEach_of_served hq]

end Sequences

end Catalog

def registering (files : List (SharedKey × StateHandle)) : List Request :=
  files.map fun f => .register f.1 f.2

theorem registering_append (files more : List (SharedKey × StateHandle)) :
    registering (files ++ more) = registering files ++ registering more := List.map_append

theorem Catalog.grants_registering (c : Catalog) (files : List (SharedKey × StateHandle)) :
    c.Grants (registering files) := by
  induction files generalizing c with
  | nil => simp [registering, Grants]
  | cons f files ih => exact grants_cons.2 ⟨rfl, ih _⟩

/-! ### Batches -/

/-- The shared files of a snapshot, each under its key, in the order of their names. -/
def KeyedSnapshot.files (s : KeyedSnapshot) : List (SharedKey × StateHandle) :=
  s.sharedFiles.entries.map fun f => (s.key f.1, f.2)

def Snapshot.files (s : Snapshot) : List (SharedKey × StateHandle) := s.parts.flatMap (·.files)

/-- The change registers some files, one after the other, and its answer holds, as `files` lists
them, the handles to go on with. -/
structure Change.Registers {α : Type} (r : Change α) (files : α → List (SharedKey × StateHandle))
    (c : Catalog) (given : List (SharedKey × StateHandle)) : Prop where
  handed : files r.answer = (c.serveEach (registering given)).answer.filterMap (·.handed?)
  retired : r.retired = (c.serveEach (registering given)).retired
  catalog : r.catalog = (c.serveEach (registering given)).catalog

theorem Catalog.registers_forEach {α β : Type} {change : Catalog → α → Change β}
    {given : α → List (SharedKey × StateHandle)} {files : β → List (SharedKey × StateHandle)}
    (h : ∀ c x, (change c x).Registers files c (given x)) (c : Catalog) (xs : List α) :
    (c.forEach change xs).Registers (·.flatMap files) c (xs.flatMap given) := by
  induction xs generalizing c with
  | nil => exact ⟨rfl, rfl, rfl⟩
  | cons x xs ih =>
    obtain ⟨hh, hr, hc⟩ := h c x
    obtain ⟨ihh, ihr, ihc⟩ := ih (change c x).catalog
    -- nothing is refused, so that the batches of single values are one batch
    have hserve := serveEach_append (c.grants_registering (given x))
      (registering (xs.flatMap given))
    rw [← hc, ← registering_append] at hserve
    rw [List.flatMap_cons]
    constructor
    · rw [hserve, List.filterMap_append, ← hh, ← ihh]
      rfl
    · rw [hserve, ← hr, ← ihr]
      rfl
    · rw [hserve, ← ihc]
      rfl

theorem Catalog.registers_adoptFile (backend : String) (c : Catalog) (f : String × StateHandle) :
    (c.adoptFile backend f).Registers (fun g => [(sharedKey backend g.1, g.2)]) c
      [(sharedKey backend f.1, f.2)] := by
  constructor <;>
    simp [adoptFile, adopt, registering, serveEach, serve, Deed.handed?, Deed.failure?]

theorem KeyedSnapshot.registers (c : Catalog) (s : KeyedSnapshot) :
    (s.register c).Registers files c s.files := by
  obtain ⟨hh, hr, hc⟩ := Catalog.registers_forEach (Catalog.registers_adoptFile s.backend) c
    s.sharedFiles.entries
  simp only [← List.map_eq_flatMap] at hh hr hc
  exact ⟨hh, hr, hc⟩

theorem Snapshot.registers (c : Catalog) (s : Snapshot) :
    (s.register c).Registers files c s.files := by
  cases s with
  | keyed s =>
    obtain ⟨hh, hr, hc⟩ := s.registers c
    constructor <;> simpa [register, files, parts]
  | subtask parts =>
    obtain ⟨hh, hr, hc⟩ := Catalog.registers_forEach KeyedSnapshot.registers c parts
    exact ⟨hh, hr, hc⟩

theorem KeyedSnapshot.keys_eq (s : KeyedSnapshot) : s.keys = s.files.map (·.1) := by
  simp [keys, files, Table.names]

theorem Snapshot.keys_eq (s : Snapshot) : s.keys = s.files.map (·.1) := by
  simp [keys, files, List.map_flatMap, KeyedSnapshot.keys_eq]

theorem Catalog.releaseEach_eq (c : Catalog) (keys : List SharedKey) :
    c.releaseEach keys =
      { c.serveEach (keys.map .release) with
        answer := match (c.serveEach (keys.map .release)).answer.findSome? (·.failure?) with
          | some e => .error e
          | none => .ok () } := by
  induction keys generalizing c with
  | nil => rfl
  | cons key keys ih =>
    rw [List.map_cons]
    cases hkept : (c.release key).answer with
    | error e =>
      have hd : (c.serve (.release key)).answer = .refused key e := by simp [serve, hkept]
      rw [serveEach_of_refused (e := e) (by rw [hd]; rfl), hd]
      simp only [releaseEach, hkept]
      rfl
    | ok a =>
      have hd : (c.serve (.release key)).answer = .released key a := by simp [serve, hkept]
      rw [serveEach_of_served (by rw [hd]; rfl), hd]
      simp only [releaseEach, hkept, ih]
      rfl

/-! ### Operations of a registry -/

/-- An operation of a registry that takes references or releases them. -/
inductive Transfer
  | register (key : SharedKey) (handle : StateHandle)
  | unregister (key : SharedKey)
  | registerAll (snapshots : List Snapshot)
  | unregisterAll (snapshots : List Snapshot)

/-- What a registry answers where it does not fail. -/
inductive Transfer.Reply
  | registration (answer : Registration)
  | snapshots (handed : List Snapshot)
  | done

def Transfer.requests : Transfer → List Request
  | register key h => [.register key h]
  | unregister key => [.release key]
  | registerAll snapshots => registering (snapshots.flatMap (·.files))
  | unregisterAll snapshots => (snapshots.flatMap (·.keys)).map .release

def RegistryChange.map {α β : Type} (f : α → β) (r : RegistryChange α) : RegistryChange β :=
  { r with answer := r.answer.map f }

namespace Registry

def transfer (r : Registry) : Transfer → RegistryChange Transfer.Reply
  | .register key h => (r.register key h).map .registration
  | .unregister key => (r.unregister key).map .registration
  | .registerAll snapshots => (r.registerAll snapshots).map .snapshots
  | .unregisterAll snapshots => (r.unregisterAll snapshots).map fun _ => .done

/-- What an operation does to references, in order: a closed registry serves no request. -/
def deeds (r : Registry) (t : Transfer) : List Deed :=
  if r.isClosed then [] else (r.catalog.serveEach t.requests).answer

end Registry

/-- A single request is answered itself, snapshots come back with the handles that were handed over,
and a batch of releases fails as its first request does that is refused. -/
def Transfer.Answers (deeds : List Deed) (answer : Except SharedStateError Transfer.Reply) :
    Transfer → Prop
  | register key h => ∃ a, deeds = [.registered key h a] ∧ answer = .ok (.registration a)
  | unregister key => (∃ a, deeds = [.released key a] ∧ answer = .ok (.registration a)) ∨
      ∃ e, deeds = [.refused key e] ∧ answer = .error e
  | registerAll _ => ∃ snapshots, answer = .ok (.snapshots snapshots) ∧
      snapshots.flatMap (·.files) = deeds.filterMap (·.handed?)
  | unregisterAll _ => answer =
      match deeds.findSome? (·.failure?) with
      | some e => .error e
      | none => .ok .done

/-- The deeds are those of the operation, and its answer says what they came to. -/
structure Transfer.Reports (t : Transfer) (deeds : List Deed)
    (answer : Except SharedStateError Transfer.Reply) : Prop where
  served : Request.Served t.requests deeds
  answers : t.Answers deeds answer

namespace Registry

variable {r : Registry}

theorem change_of_open {α : Type} (h : r.isClosed = false)
    (f : Catalog → Change (Except SharedStateError α)) :
    r.change f = ⟨(f r.catalog).answer, (f r.catalog).retired.filter (!·.isPlaceholder),
      { r with catalog := (f r.catalog).catalog }⟩ := by
  simp [change, h]

/-- An operation of an open registry is the sequence of its requests. -/
theorem transfer_of_open (h : r.isClosed = false) (t : Transfer) :
    t.Reports (r.deeds t) (r.transfer t).answer ∧
      (r.transfer t).disposed =
        (r.catalog.serveEach t.requests).retired.filter (!·.isPlaceholder) ∧
      (r.transfer t).registry = { r with catalog := (r.catalog.serveEach t.requests).catalog } := by
  have hdeeds : r.deeds t = (r.catalog.serveEach t.requests).answer := by simp [deeds, h]
  rw [hdeeds]
  suffices hanswers : t.Answers (r.catalog.serveEach t.requests).answer (r.transfer t).answer ∧ _
    from ⟨⟨r.catalog.served t.requests, hanswers.1⟩, hanswers.2⟩
  cases t with
  | register key handle =>
    rw [Transfer.requests, Catalog.serveEach_singleton, transfer, register, change_of_open h]
    exact ⟨⟨_, rfl, rfl⟩, rfl, rfl⟩
  | unregister key =>
    rw [Transfer.requests, Catalog.serveEach_singleton, transfer, unregister, change_of_open h]
    refine ⟨?_, rfl, rfl⟩
    cases hrelease : (r.catalog.release key).answer with
    | ok a => exact .inl ⟨a, by simp [Catalog.serve, hrelease], rfl⟩
    | error e => exact .inr ⟨e, by simp [Catalog.serve, hrelease], rfl⟩
  | registerAll snapshots =>
    obtain ⟨hh, hr, hc⟩ := Catalog.registers_forEach Snapshot.registers r.catalog snapshots
    rw [Transfer.requests, transfer, registerAll, change_of_open h, ← hr, ← hc]
    exact ⟨⟨_, rfl, hh⟩, rfl, rfl⟩
  | unregisterAll snapshots =>
    rw [Transfer.requests, transfer, unregisterAll, change_of_open h, Catalog.releaseEach_eq]
    refine ⟨?_, rfl, rfl⟩
    simp only [Transfer.Answers, RegistryChange.map]
    split <;> rfl

theorem transfer_of_closed (h : r.isClosed = true) (t : Transfer) :
    r.transfer t = ⟨.error .registryClosed, [], r⟩ := by
  cases t <;>
    simp [transfer, register, unregister, registerAll, unregisterAll, change, h,
      RegistryChange.map, Except.map]

end Registry

end StreamCheckpoint
