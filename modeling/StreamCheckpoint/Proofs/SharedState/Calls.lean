import StreamCheckpoint.Proofs.SharedState.Undoing

/-! Batches against single calls.  A batch runs under one lock, and disposes of what it retired when
it is through.  It comes to the same as a call of the registry for each shared file: for snapshot
after snapshot, part after part and name after name, up to and including the first call that fails
(`batches_eq_calls`). -/

namespace StreamCheckpoint

namespace RegistryChange

variable {α β γ : Type}

/-- Goes on with a further change, unless the first one failed.  What the first one disposed of
stays disposed of. -/
def andThen (r : RegistryChange α) (next : α → Registry → RegistryChange β) : RegistryChange β :=
  match r.answer with
  | .error e => ⟨.error e, r.disposed, r.registry⟩
  | .ok a =>
    let s := next a r.registry
    ⟨s.answer, r.disposed ++ s.disposed, s.registry⟩

/-- The change with its answer left out, except for a failure. -/
def done (r : RegistryChange α) : RegistryChange Unit := r.map fun _ => ()

theorem andThen_ok {a : α} {r : RegistryChange α} (h : r.answer = .ok a)
    (next : α → Registry → RegistryChange β) :
    r.andThen next = ⟨(next a r.registry).answer, r.disposed ++ (next a r.registry).disposed,
      (next a r.registry).registry⟩ := by
  simp only [andThen, h]

theorem andThen_error {e : SharedStateError} {r : RegistryChange α} (h : r.answer = .error e)
    (next : α → Registry → RegistryChange β) :
    r.andThen next = ⟨.error e, r.disposed, r.registry⟩ := by
  simp only [andThen, h]

theorem andThen_assoc (r : RegistryChange α) (next : α → Registry → RegistryChange β)
    (last : β → Registry → RegistryChange γ) :
    (r.andThen next).andThen last = r.andThen fun a s => (next a s).andThen last := by
  cases hr : r.answer with
  | error e => rw [andThen_error hr, andThen_error hr, andThen_error rfl]
  | ok a =>
    rw [andThen_ok hr, andThen_ok hr]
    cases hs : (next a r.registry).answer with
    | error e => rw [andThen_error hs, andThen_error rfl]
    | ok b => rw [andThen_ok hs, andThen_ok rfl, List.append_assoc]

theorem map_andThen (r : RegistryChange α) (next : α → Registry → RegistryChange β) (f : β → γ) :
    (r.andThen next).map f = r.andThen fun a s => (next a s).map f := by
  cases hr : r.answer with
  | error e => rw [andThen_error hr, andThen_error hr]; rfl
  | ok a => rw [andThen_ok hr, andThen_ok hr]; rfl

theorem andThen_map (r : RegistryChange α) (f : α → β) (next : β → Registry → RegistryChange γ) :
    (r.map f).andThen next = r.andThen fun a s => next (f a) s := by
  cases hr : r.answer <;> simp only [andThen, map, hr, Except.map]

theorem map_map (r : RegistryChange α) (f : α → β) (g : β → γ) :
    (r.map f).map g = r.map fun a => g (f a) := by
  cases hr : r.answer <;> simp only [map, hr, Except.map]

end RegistryChange

namespace Registry

variable {α β : Type}

/-- Makes a call for each of some values, one after the other, up to and including the first that
fails. -/
def callEach (r : Registry) (call : Registry → α → RegistryChange β) :
    List α → RegistryChange (List β)
  | [] => ⟨.ok [], [], r⟩
  | x :: xs => (call r x).andThen fun y s => (s.callEach call xs).map (y :: ·)

/-! ### The calls -/

/-- Registers a shared file of a backend, and returns it with the handle to go on with. -/
def adoptFile (backend : String) (r : Registry) (f : String × StateHandle) :
    RegistryChange (String × StateHandle) :=
  (r.register (sharedKey backend f.1) f.2).map fun a => (f.1, a.reference.getD f.2)

/-- Registers each shared file, in the order of their names, in a call of its own. -/
def adoptPart (r : Registry) (s : KeyedSnapshot) : RegistryChange KeyedSnapshot :=
  (r.callEach (adoptFile s.backend) s.sharedFiles.entries).map fun files =>
    { s with sharedFiles := .ofList files }

def adoptSnapshot (r : Registry) : Snapshot → RegistryChange Snapshot
  | .keyed s => (r.adoptPart s).map .keyed
  | .subtask parts => (r.callEach adoptPart parts).map .subtask

/-- Releases each shared file, in the order of their names, in a call of its own. -/
def releasePart (r : Registry) (s : KeyedSnapshot) : RegistryChange Unit :=
  (r.callEach unregister s.keys).done

def releaseSnapshot (r : Registry) (s : Snapshot) : RegistryChange Unit :=
  (r.callEach releasePart s.parts).done

/-! ### Calls that take references -/

/-- A change of the catalog that cannot fail. -/
def grant (r : Registry) (f : Catalog → Change α) : RegistryChange α :=
  r.change fun c => { f c with answer := .ok (f c).answer }

theorem grant_of_open {r : Registry} (hopen : r.isClosed = false) (f : Catalog → Change α) :
    r.grant f = ⟨.ok (f r.catalog).answer, (f r.catalog).retired.filter (!·.isPlaceholder),
      { r with catalog := (f r.catalog).catalog }⟩ := change_of_open hopen _

theorem map_grant (r : Registry) (f : Catalog → Change α) (g : α → β) :
    (r.grant f).map g = r.grant fun c => { f c with answer := g (f c).answer } := by
  cases h : r.isClosed <;> simp [grant, change, h, RegistryChange.map, Except.map]

/-- Single calls come to one change if each of them is a change that cannot fail. -/
theorem callEach_grant {call : Registry → α → RegistryChange β} {change : Catalog → α → Change β}
    (h : ∀ r x, r.isClosed = false → call r x = r.grant (change · x)) {r : Registry}
    (hopen : r.isClosed = false) (xs : List α) :
    r.callEach call xs = r.grant (·.forEach change xs) := by
  induction xs generalizing r with
  | nil =>
    rw [grant_of_open hopen]
    rfl
  | cons x xs ih =>
    have hnext : ({ r with catalog := (change r.catalog x).catalog } : Registry).isClosed = false :=
      hopen
    rw [callEach, h r x hopen, grant_of_open hopen, RegistryChange.andThen_ok rfl, ih hnext,
      grant_of_open hnext, grant_of_open hopen]
    simp [Catalog.forEach, RegistryChange.map, Except.map]

theorem adoptFile_eq (backend : String) (r : Registry) (f : String × StateHandle) :
    r.adoptFile backend f = r.grant (·.adoptFile backend f) := map_grant ..

theorem adoptPart_eq {r : Registry} (hopen : r.isClosed = false) (s : KeyedSnapshot) :
    r.adoptPart s = r.grant s.register := by
  rw [adoptPart, callEach_grant (fun r f _ => r.adoptFile_eq s.backend f) hopen, map_grant]
  refine congrArg r.grant (funext fun c => ?_)
  have hascending : ((c.forEach (Catalog.adoptFile s.backend) s.sharedFiles.entries).answer.map
      (·.1)).Pairwise (· < ·) := by
    rw [Catalog.names_adoptFile]
    exact s.sharedFiles.ascending
  simp only [Table.ofList_of_ascending hascending]
  rfl

theorem adoptSnapshot_eq {r : Registry} (hopen : r.isClosed = false) (s : Snapshot) :
    r.adoptSnapshot s = r.grant s.register := by
  cases s with
  | keyed s => rw [adoptSnapshot, adoptPart_eq hopen, map_grant]; rfl
  | subtask parts =>
    rw [adoptSnapshot, callEach_grant (fun r s hr => adoptPart_eq hr s) hopen, map_grant]
    rfl

/-! ### Calls that release references -/

section Releasing

variable {call : Registry → α → RegistryChange β}

theorem done_callEach_cons (r : Registry) (x : α) (xs : List α) :
    (r.callEach call (x :: xs)).done = (call r x).andThen fun _ s => (s.callEach call xs).done := by
  simp only [callEach, RegistryChange.done, RegistryChange.map_andThen, RegistryChange.map_map]

theorem done_callEach_append (r : Registry) (xs ys : List α) :
    (r.callEach call (xs ++ ys)).done =
      (r.callEach call xs).andThen fun _ s => (s.callEach call ys).done := by
  induction xs generalizing r with
  | nil => simp [callEach, RegistryChange.andThen]
  | cons x xs ih =>
    rw [List.cons_append, done_callEach_cons, callEach, RegistryChange.andThen_assoc]
    simp only [ih, RegistryChange.andThen_map]

/-- It makes no difference whether calls are nested. -/
theorem done_callEach_flatMap {ι : Type} (r : Registry) (f : ι → List α) (is : List ι) :
    (r.callEach (fun r i => (r.callEach call (f i)).done) is).done =
      (r.callEach call (is.flatMap f)).done := by
  induction is generalizing r with
  | nil => rfl
  | cons i is ih =>
    rw [done_callEach_cons, List.flatMap_cons, done_callEach_append, RegistryChange.done,
      RegistryChange.andThen_map]
    simp only [ih]

end Releasing

theorem done_callEach_unregister {r : Registry} (hopen : r.isClosed = false)
    (keys : List SharedKey) :
    (r.callEach unregister keys).done = r.change (·.releaseEach keys) := by
  induction keys generalizing r with
  | nil =>
    rw [change_of_open hopen]
    rfl
  | cons key keys ih =>
    have hnext : ({ r with catalog := (r.catalog.release key).catalog } : Registry).isClosed =
        false := hopen
    have hcall : r.unregister key = _ := change_of_open hopen (·.release key)
    rw [done_callEach_cons, hcall, change_of_open hopen]
    cases h : (r.catalog.release key).answer with
    | error e =>
      rw [RegistryChange.andThen_error rfl]
      simp only [Catalog.releaseEach, h]
    | ok a =>
      rw [RegistryChange.andThen_ok rfl, ih hnext, change_of_open hnext]
      simp [Catalog.releaseEach, h]

/-- The first key without a reference ends the calls; what they did before stays. -/
theorem done_callEach_missing {r : Registry} (hopen : r.isClosed = false) {before : List SharedKey}
    {answers : List Registration} (hbefore : (r.callEach unregister before).answer = .ok answers)
    {key : SharedKey} (hkey : (r.callEach unregister before).registry.get? key = none)
    (after : List SharedKey) :
    (r.callEach unregister (before ++ key :: after)).done =
      ⟨.error (.notRegistered key), (r.callEach unregister before).disposed,
        (r.callEach unregister before).registry⟩ := by
  have hstill : (r.callEach unregister before).registry.isClosed = false := by
    have hchange := congrArg (·.registry.isClosed) (done_callEach_unregister hopen before)
    rw [change_of_open hopen] at hchange
    exact hchange.trans hopen
  have hnone : (r.callEach unregister before).registry.catalog.entries.get? key = none :=
    Option.map_eq_none_iff.1 hkey
  have hcall : (r.callEach unregister before).registry.unregister key =
      ⟨.error (.notRegistered key), [], (r.callEach unregister before).registry⟩ := by
    rw [unregister, change_of_open hstill]
    simp [Catalog.release, hnone]
  rw [done_callEach_append, RegistryChange.andThen_ok hbefore, done_callEach_cons, hcall,
    RegistryChange.andThen_error rfl, List.append_nil]

/-- A batch is the sequence of its calls.  Registering one gives the snapshots, disposes of the
handles and leaves the registry that a call for each shared file gives, disposes of and leaves; and
so does releasing one.  There the first key that has no reference any more is the failure; what was
released before it stays released and is disposed of, and what comes after it stays. -/
theorem batches_eq_calls {r : Registry} (hopen : r.isClosed = false) (snapshots : List Snapshot) :
    r.registerAll snapshots = r.callEach adoptSnapshot snapshots ∧
      r.unregisterAll snapshots = (r.callEach releaseSnapshot snapshots).done ∧
      ∀ before key after answers, snapshots.flatMap (·.keys) = before ++ key :: after →
        (r.callEach unregister before).answer = .ok answers →
        (r.callEach unregister before).registry.get? key = none →
        r.unregisterAll snapshots =
          ⟨.error (.notRegistered key), (r.callEach unregister before).disposed,
            (r.callEach unregister before).registry⟩ := by
  have hcalls : r.unregisterAll snapshots =
      (r.callEach unregister (snapshots.flatMap (·.keys))).done :=
    (done_callEach_unregister hopen _).symm
  refine ⟨?_, ?_, ?_⟩
  · exact (callEach_grant (fun r s hr => adoptSnapshot_eq hr s) hopen snapshots).symm
  · have hnested : ∀ r s, releaseSnapshot r s = (r.callEach unregister s.keys).done := fun r s =>
      done_callEach_flatMap r KeyedSnapshot.keys s.parts
    rw [hcalls, ← done_callEach_flatMap]
    simp only [← hnested]
  · intro before key after answers hkeys hbefore hkey
    rw [hcalls, hkeys, done_callEach_missing hopen hbefore hkey]

/-- Of a part with two files only the first is registered: it is released and disposed of, and the
second one is the failure, so that nothing is released twice. -/
theorem batches_eq_calls_missing :
    let r := (({} : Registry).register "a-b-c" (.memory "0" [0])).registry
    r.isClosed = false ∧
      (r.registerAll [crossing]).disposed = (r.callEach adoptSnapshot [crossing]).disposed ∧
      (r.unregisterAll [crossing]).answer = .error (.notRegistered "a-d") ∧
      (r.unregisterAll [crossing]).disposed = [.memory "0" [0]] := by
  intro r
  have hopen : r.isClosed = false := rfl
  obtain ⟨hregister, -, hmissing⟩ := batches_eq_calls hopen [crossing]
  have hfailure := hmissing ["a-b-c"] "a-d" ["a-b-c"] [⟨none, 0⟩] (by decide) (by rfl) (by rfl)
  rw [hfailure, hregister]
  exact ⟨hopen, rfl, rfl, by rfl⟩

end Registry

end StreamCheckpoint
