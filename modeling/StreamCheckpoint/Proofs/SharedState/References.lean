import StreamCheckpoint.Proofs.SharedState.History

/-! The references of a registry against its history.  After every request a catalog holds what the
history says (`Tallies.serve`), and so after every run of operations, batches that fail halfway,
clearing and closing included (`counts_references`). -/

namespace StreamCheckpoint

open History

namespace Catalog

def references (c : Catalog) (key : SharedKey) : Nat := (c.entries.get? key).elim 0 (·.count)

section Lookups

variable (c : Catalog) (k key : SharedKey) (e : CatalogEntry)

theorem references_insert :
    references ⟨c.entries.insert k e⟩ key = if key = k then e.count else c.references key := by
  by_cases h : key = k <;> simp [references, Table.get?_insert, h]

theorem references_erase :
    references ⟨c.entries.erase k⟩ key = if key = k then 0 else c.references key := by
  by_cases h : key = k <;> simp [references, Table.get?_erase, h]

theorem get?_insert :
    get? ⟨c.entries.insert k e⟩ key = if key = k then some e.state else c.get? key := by
  by_cases h : key = k <;> simp [get?, Table.get?_insert, h]

theorem get?_erase :
    get? ⟨c.entries.erase k⟩ key = if key = k then none else c.get? key := by
  by_cases h : key = k <;> simp [get?, Table.get?_erase, h]

end Lookups

variable {c : Catalog} {key : SharedKey} {e : CatalogEntry}

theorem references_of_none (h : c.entries.get? key = none) : c.references key = 0 := by
  simp [references, h]

theorem references_of_some (h : c.entries.get? key = some e) : c.references key = e.count := by
  simp [references, h]

theorem get?_of_none (h : c.entries.get? key = none) : c.get? key = none := by simp [get?, h]

theorem get?_of_some (h : c.entries.get? key = some e) : c.get? key = some e.state := by
  simp [get?, h]

theorem references_pos_iff : 0 < c.references key ↔ (c.get? key).isSome := by
  cases h : c.entries.get? key with
  | none => simp [references_of_none h, get?_of_none h]
  | some e => simp [references_of_some h, get?_of_some h, e.count_pos]

theorem count?_eq :
    c.count? key = if 0 < c.references key then some (c.references key) else none := by
  cases h : c.entries.get? key with
  | none => simp [references_of_none h, count?, h]
  | some e => simp [references_of_some h, count?, h, e.count_pos]

theorem Serves.frame {q : Request} {r : Change Deed} (h : c.Serves q r) (hk : key ≠ q.key) :
    r.catalog.entries.get? key = c.entries.get? key := by
  cases h with
  | opened | joined | returned => exact (Table.get?_insert ..).trans (if_neg hk)
  | ended => exact (Table.get?_erase ..).trans (if_neg hk)
  | refused => rfl

theorem Serves.silent {q : Request} {r : Change Deed} (h : c.Serves q r) (hk : key ≠ q.key)
    (past : History) :
    r.answer.handle? key = none ∧
      registrations key (r.answer :: past) = registrations key past ∧
      releases key (r.answer :: past) = releases key past := by
  have hk' := Ne.symm hk
  cases h <;> refine ⟨?_, ?_, ?_⟩ <;>
    simp_all [Deed.handle?, registrations, releases, Request.key]

/-- The catalog holds what the history says. -/
structure Tallies (c : Catalog) (history : History) : Prop where
  count : ∀ key, registrations key history = releases key history + c.references key
  state : ∀ key, keeper? key history = c.get? key

namespace Tallies

variable {history : History}

theorem start : Tallies {} [] := ⟨fun _ => rfl, fun _ => rfl⟩

theorem cleared : Tallies {} (.cleared :: history) := ⟨fun _ => rfl, fun _ => rfl⟩

theorem serve_key (h : c.Tallies history) {q : Request} {r : Change Deed} (hs : c.Serves q r) :
    registrations q.key (r.answer :: history) =
        releases q.key (r.answer :: history) + r.catalog.references q.key ∧
      keeper? q.key (r.answer :: history) = r.catalog.get? q.key := by
  have hcount := h.count q.key
  have hstate := h.state q.key
  cases hs with
  | opened fresh =>
    rw [Request.key] at hcount hstate ⊢
    rw [references_of_none fresh] at hcount
    rw [get?_of_none fresh] at hstate
    refine ⟨?_, ?_⟩
    · simp only [registrations, releases, references_insert, if_true]
      omega
    · rw [keeper?_of_referenced (by simp only [registrations, releases, if_true]; omega), hstate,
        get?_insert, if_pos rfl]
      simp [Deed.handle?]
  | joined kept =>
    rw [Request.key] at hcount hstate ⊢
    rw [references_of_some kept] at hcount
    rw [get?_of_some kept] at hstate
    refine ⟨?_, ?_⟩
    · simp only [registrations, releases, references_insert, if_true]
      omega
    · rw [keeper?_of_referenced (by simp only [registrations, releases, if_true]; omega), hstate,
        get?_insert, if_pos rfl]
      rfl
  | returned kept more =>
    rw [Request.key] at hcount hstate ⊢
    rw [references_of_some kept] at hcount
    rw [get?_of_some kept] at hstate
    refine ⟨?_, ?_⟩
    · simp only [registrations, releases, references_insert, if_true]
      omega
    · rw [keeper?_of_referenced (by simp only [registrations, releases, if_true]; omega), hstate,
        get?_insert, if_pos rfl]
      rfl
  | ended kept last =>
    rw [Request.key] at hcount ⊢
    rw [references_of_some kept, last] at hcount
    refine ⟨?_, ?_⟩
    · simp only [registrations, releases, references_erase, if_true]
      omega
    · rw [keeper?_of_not_referenced (by simp only [registrations, releases, if_true]; omega),
        get?_erase, if_pos rfl]
  | refused unknown => exact ⟨hcount, (keeper?_frame rfl rfl rfl).trans hstate⟩

/-- Every request leaves a catalog with what the history says, the deed included. -/
theorem serve (h : c.Tallies history) (q : Request) :
    (c.serve q).catalog.Tallies ((c.serve q).answer :: history) := by
  have hs := c.serves q
  generalize c.serve q = r at hs
  have hkey := h.serve_key hs
  -- the deed is silent about other keys, and the request leaves them
  constructor <;> intro key <;> by_cases hk : key = q.key
  · exact hk ▸ hkey.1
  · obtain ⟨-, hr, hu⟩ := hs.silent hk history
    rw [hr, hu, references, hs.frame hk]
    exact h.count key
  · exact hk ▸ hkey.2
  · obtain ⟨hh, hr, hu⟩ := hs.silent hk history
    rw [keeper?_frame hh hu hr, get?, hs.frame hk]
    exact h.state key

theorem referenced_iff (h : c.Tallies history) :
    releases key history < registrations key history ↔ 0 < c.references key := by
  have := h.count key
  omega

end Tallies

/-- A granted request is answered with what the catalog then holds under its key. -/
theorem Serves.answer {q : Request} {r : Change Deed} (h : c.Serves q r) :
    (∃ handle a, r.answer = .registered q.key handle a ∧ a.count = r.catalog.references q.key ∧
        a.reference = r.catalog.get? q.key) ∨
      (∃ a, r.answer = .released q.key a ∧ 0 < c.references q.key ∧
        a.count = r.catalog.references q.key ∧ a.reference = r.catalog.get? q.key) ∨
      r.answer = .refused q.key (.notRegistered q.key) ∧ c.references q.key = 0 := by
  cases h with
  | opened fresh =>
    refine .inl ⟨_, _, rfl, ?_, ?_⟩ <;> simp [Request.key, references_insert, get?_insert]
  | joined kept =>
    refine .inl ⟨_, _, rfl, ?_, ?_⟩ <;> simp [Request.key, references_insert, get?_insert]
  | @returned _ e kept more =>
    refine .inr (.inl ⟨_, rfl, references_of_some kept ▸ e.count_pos, ?_, ?_⟩) <;>
      simp [Request.key, references_insert, get?_insert]
  | @ended _ e kept last =>
    refine .inr (.inl ⟨_, rfl, references_of_some kept ▸ e.count_pos, ?_, ?_⟩) <;>
      simp [Request.key, references_erase, get?_erase]
  | refused unknown => exact .inr (.inr ⟨rfl, references_of_none unknown⟩)

end Catalog

/-- The answer shows the number of references to `key` and the handle that is kept under it. -/
def Registration.Shows (a : Registration) (key : SharedKey) (history : History) : Prop :=
  a.count = registrations key history - releases key history ∧
    ∀ h, a.reference = some h ↔ Keeps history key h

/-- What a deed says, after what was done before: an answer shows how things are with the key after
it, and a release is refused exactly if nothing is left to release. -/
def Deed.Tells (past : History) : Deed → Prop
  | registered key h a => a.Shows key (.registered key h a :: past)
  | released key a =>
    releases key past < registrations key past ∧ a.Shows key (.released key a :: past)
  | refused key e => registrations key past = releases key past ∧ e = .notRegistered key
  | cleared => True

theorem Catalog.Tallies.shows {c : Catalog} {history : History} (h : c.Tallies history)
    {key : SharedKey} {a : Registration} (hcount : a.count = c.references key)
    (hstate : a.reference = c.get? key) : a.Shows key history := by
  have hkey := h.count key
  refine ⟨by omega, fun handle => ?_⟩
  rw [hstate, ← h.state, keeper?_eq_some]

theorem Catalog.Tallies.tells {c : Catalog} {history : History} (h : c.Tallies history)
    (q : Request) : (c.serve q).answer.Tells history := by
  have hafter := h.serve q
  have hcount := h.count q.key
  rcases (c.serves q).answer with ⟨handle, a, hd, ha⟩ | ⟨a, hd, hpos, ha⟩ | ⟨hd, hzero⟩
  · rw [hd] at hafter ⊢
    exact hafter.shows ha.1 ha.2
  · rw [hd] at hafter ⊢
    exact ⟨h.referenced_iff.2 hpos, hafter.shows ha.1 ha.2⟩
  · rw [hd]
    exact ⟨by omega, rfl⟩

/-! ### Runs -/

inductive RegistryOperation
  | transfer (t : Transfer)
  | clear
  | close

/-- What some operations have come to. -/
structure Course where
  registry : Registry := {}
  history : History := []
  /-- The handles that were handed over for disposal, in order. -/
  disposed : List StateHandle := []

namespace Course

def step (s : Course) : RegistryOperation → Course
  | .transfer t =>
    { registry := (s.registry.transfer t).registry
      history := (s.registry.deeds t).reverse ++ s.history
      disposed := s.disposed ++ (s.registry.transfer t).disposed }
  | .clear => { s with registry := s.registry.clear, history := .cleared :: s.history }
  | .close => { s with registry := s.registry.close }

def perform (s : Course) (ops : List RegistryOperation) : Course := ops.foldl step s

/-- Performs operations on a new registry. -/
def run (ops : List RegistryOperation) : Course := perform {} ops

end Course

/-- What every single request preserves, a sequence of requests preserves. -/
theorem Catalog.serveEach_preserves {P : Catalog → History → List StateHandle → Prop}
    (serve : ∀ {c history retired} q, P c history retired →
      P (c.serve q).catalog ((c.serve q).answer :: history) (retired ++ (c.serve q).retired))
    {c : Catalog} {history : History} {retired : List StateHandle} (h : P c history retired)
    (qs : List Request) :
    P (c.serveEach qs).catalog ((c.serveEach qs).answer.reverse ++ history)
      (retired ++ (c.serveEach qs).retired) := by
  induction qs generalizing c history retired with
  | nil => simpa using h
  | cons q qs ih =>
    have hq := serve q h
    cases hf : (c.serve q).answer.failure? with
    | none =>
      rw [serveEach_of_served hf]
      simpa using ih hq
    | some e =>
      rw [serveEach_of_refused hf]
      simpa using hq

namespace Course

variable {s : Course}

theorem isClosed_step (s : Course) (op : RegistryOperation) :
    (s.step op).registry.isClosed = true ↔ s.registry.isClosed = true ∨ op = .close := by
  cases op with
  | transfer t =>
    cases h : s.registry.isClosed with
    | true => simp [step, Registry.transfer_of_closed h, h]
    | false => simp [step, (Registry.transfer_of_open h t).2.2, h]
  | clear => simp [step, Registry.clear]
  | close => simp [step, Registry.close]

theorem isClosed_perform (s : Course) (ops : List RegistryOperation) :
    (s.perform ops).registry.isClosed = true ↔
      s.registry.isClosed = true ∨ .close ∈ ops := by
  induction ops generalizing s with
  | nil => simp [perform]
  | cons op ops ih =>
    rw [perform, List.foldl_cons, ← perform, ih, isClosed_step, or_assoc, List.mem_cons,
      @eq_comm _ op]

theorem isClosed_run (ops : List RegistryOperation) :
    (run ops).registry.isClosed = true ↔ .close ∈ ops := by
  rw [run, isClosed_perform]
  simp

/-- What holds of an empty catalog, and is preserved by every request and by forgetting all keys,
holds after a run; `retired` are the handles that the catalogs gave up, placeholders included. -/
theorem run_induction {P : Catalog → History → List StateHandle → Prop} (start : P {} [] [])
    (serve : ∀ {c history retired} q, P c history retired →
      P (c.serve q).catalog ((c.serve q).answer :: history) (retired ++ (c.serve q).retired))
    (clear : ∀ {c history retired}, P c history retired → P {} (.cleared :: history) retired)
    (ops : List RegistryOperation) :
    ∃ retired, (run ops).disposed = retired.filter (!·.isPlaceholder) ∧
      P (run ops).registry.catalog (run ops).history retired := by
  -- stronger than the result: from any course on, not only from the start
  have steps : ∀ s : Course,
      (∃ retired, s.disposed = retired.filter (!·.isPlaceholder) ∧
        P s.registry.catalog s.history retired) →
      ∃ retired, (s.perform ops).disposed = retired.filter (!·.isPlaceholder) ∧
        P (s.perform ops).registry.catalog (s.perform ops).history retired := by
    induction ops with
    | nil => exact fun s h => h
    | cons op ops ih =>
      rintro s ⟨retired, hdisposed, h⟩
      refine ih (s.step op) ?_
      cases op with
      | transfer t =>
        cases hc : s.registry.isClosed with
        | true =>
          refine ⟨retired, ?_, ?_⟩
          · simpa [step, Registry.transfer_of_closed hc] using hdisposed
          · simpa [step, Registry.transfer_of_closed hc, Registry.deeds, hc] using h
        | false =>
          obtain ⟨-, hd, hr⟩ := Registry.transfer_of_open hc t
          refine ⟨retired ++ (s.registry.catalog.serveEach t.requests).retired, ?_, ?_⟩
          · simp [step, hd, hdisposed]
          · simpa [step, hr, Registry.deeds, hc] using
              Catalog.serveEach_preserves serve h t.requests
      | clear => exact ⟨retired, hdisposed, clear h⟩
      | close => exact ⟨retired, hdisposed, h⟩
  exact steps {} ⟨[], rfl, start⟩

theorem tallies_run (ops : List RegistryOperation) :
    (run ops).registry.catalog.Tallies (run ops).history := by
  obtain ⟨-, -, h⟩ := run_induction (P := fun c history _ => c.Tallies history)
    Catalog.Tallies.start (fun q h => h.serve q) (fun _ => Catalog.Tallies.cleared) ops
  exact h

theorem tells_run (ops : List RegistryOperation) {later past : History} {d : Deed}
    (h : (run ops).history = later ++ d :: past) : d.Tells past := by
  obtain ⟨-, -, -, htells⟩ := run_induction
    (P := fun c history _ => c.Tallies history ∧
      ∀ later d past, history = later ++ d :: past → Deed.Tells past d)
    ⟨.start, fun later d past h => by simp at h⟩
    (fun {c history _} q ⟨hc, ht⟩ => ⟨hc.serve q, fun later d past h => by
      cases later with
      | nil =>
        obtain ⟨rfl, rfl⟩ := List.cons_eq_cons.1 h
        exact hc.tells q
      | cons e later => exact ht later d past (List.cons_eq_cons.1 h).2⟩)
    (fun {c history _} ⟨_, ht⟩ => ⟨.cleared, fun later d past h => by
      cases later with
      | nil =>
        obtain ⟨rfl, rfl⟩ := List.cons_eq_cons.1 h
        trivial
      | cons e later => exact ht later d past (List.cons_eq_cons.1 h).2⟩) ops
  exact htells later d past h

/-- However references were taken and released, one at a time or in batches, and whether or not all
keys were forgotten in between: the references to a key are those taken and not released since then,
under the handle of the first registration since there were none, and nothing else is in the
registry; every answer shows this, and a release is refused exactly if nothing is left to release.
Once the registry is closed nothing is served and nothing changes.  The counts are those of 32-bit
counters in every run in which no key has `2 ^ 32` references at a time. -/
theorem counts_references (ops : List RegistryOperation) :
    let r := (run ops).registry
    let history := (run ops).history
    (∀ key, releases key history ≤ registrations key history ∧
      r.count? key =
        (if releases key history < registrations key history then
          some (registrations key history - releases key history) else none) ∧
      ∀ h, r.get? key = some h ↔ Keeps history key h) ∧
    (∃ keys : List SharedKey, keys.Nodup ∧
      (∀ key, key ∈ keys ↔ releases key history < registrations key history) ∧
      r.size = keys.length) ∧
    (∀ later d past, history = later ++ d :: past → d.Tells past) ∧
    (r.isClosed = true ↔ .close ∈ ops) ∧
    (r.isClosed = false → ∀ t : Transfer, t.Reports (r.deeds t) (r.transfer t).answer) ∧
    (r.isClosed = true → ∀ t : Transfer, r.transfer t = ⟨.error .registryClosed, [], r⟩) := by
  intro r history
  have h : r.catalog.Tallies history := tallies_run ops
  refine ⟨fun key => ⟨?_, ?_, fun handle => ?_⟩, ⟨r.catalog.entries.names, ?_, fun key => ?_, ?_⟩,
    fun _ _ _ => tells_run ops, isClosed_run ops, fun hc t => (Registry.transfer_of_open hc t).1,
    fun hc t => Registry.transfer_of_closed hc t⟩
  · have := h.count key
    omega
  · have hkey : registrations key history - releases key history = r.catalog.references key := by
      have := h.count key
      omega
    rw [Registry.count?, Catalog.count?_eq, hkey]
    simp only [h.referenced_iff]
  · rw [← keeper?_eq_some, h.state]
    rfl
  · exact r.catalog.entries.nodup_names
  · rw [h.referenced_iff, Catalog.references_pos_iff, Table.mem_names, Catalog.get?,
      Option.isSome_map]
  · exact (Table.length_names _).symm

end Course

end StreamCheckpoint
