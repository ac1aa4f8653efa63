import StreamCheckpoint.Proofs.SharedState.Substitution

/-! Batches that are taken back.  When everything is released that a batch has registered, in
whatever order, a registry is as it was before, and the keys that are removed on the way are those
that the batch brought in (`unregisterAll_registerAll`). -/

namespace StreamCheckpoint

namespace Catalog

variable {c c' : Catalog}

/-- A catalog is known by the handle and the number of references of each key. -/
theorem ext_keys (hget : ∀ key, c.get? key = c'.get? key)
    (hcount : ∀ key, c.references key = c'.references key) : c = c' := by
  obtain ⟨entries⟩ := c
  obtain ⟨entries'⟩ := c'
  refine congrArg mk (Table.ext_get? fun key => ?_)
  have hget := hget key
  have hcount := hcount key
  simp only [get?, references] at hget hcount
  cases h : entries.get? key with
  | none => cases h' : entries'.get? key <;> simp [h, h'] at hget ⊢
  | some e =>
    cases h' : entries'.get? key with
    | none => simp [h, h'] at hget
    | some e' =>
      simp only [h, h', Option.map_some, Option.some.injEq, Option.elim_some] at hget hcount
      obtain ⟨state, count, _⟩ := e
      obtain ⟨state', count', _⟩ := e'
      obtain rfl : state = state' := hget
      obtain rfl : count = count' := hcount
      rfl

section Counting

variable (key : SharedKey) (files : List (SharedKey × StateHandle)) (keys : List SharedKey)

theorem countP_takes_registering :
    (registering files).countP (·.takes key) = (files.map (·.1)).count key := by
  simp [registering, List.count, List.countP_map, Function.comp_def, Request.takes,
    BEq.comm (a := key)]

theorem countP_returns_registering : (registering files).countP (·.returns key) = 0 := by
  simp [registering, List.countP_eq_zero, Request.returns]

theorem countP_takes_release : (keys.map Request.release).countP (·.takes key) = 0 := by
  simp [List.countP_eq_zero, Request.takes]

theorem countP_returns_release :
    (keys.map Request.release).countP (·.returns key) = keys.count key := by
  simp [List.count, List.countP_map, Function.comp_def, Request.returns, BEq.comm (a := key)]

end Counting

theorem removed_registering (c : Catalog) (files : List (SharedKey × StateHandle)) :
    (c.serveEach (registering files)).answer.filterMap (·.removed?) = [] := by
  refine List.filterMap_eq_nil_iff.2 fun d hd => ?_
  obtain ⟨q, hq, hrequest⟩ := (c.served _).mem hd
  obtain ⟨f, -, rfl⟩ := List.mem_map.1 hq
  cases d <;> simp [Deed.removed?, Deed.request?] at hrequest ⊢

section Undoing

variable {files : List (SharedKey × StateHandle)} {keys : List SharedKey}

theorem references_registering (c : Catalog) (key : SharedKey) :
    (c.serveEach (registering files)).catalog.references key =
      c.references key + (files.map (·.1)).count key := by
  have hcount := references_serveEach (c.grants_registering files) key
  rw [countP_takes_registering, countP_returns_registering] at hcount
  omega

theorem grants_releasing (h : ∀ key, keys.count key ≤ c.references key) :
    c.Grants (keys.map .release) := by
  refine grants_of_covered fun key ps hps => ?_
  have hle := hps.sublist.countP_le (p := (·.returns key))
  rw [countP_returns_release] at hle
  have := h key
  omega

theorem references_releasing (h : ∀ key, keys.count key ≤ c.references key) (key : SharedKey) :
    c.references key =
      keys.count key + (c.serveEach (keys.map .release)).catalog.references key := by
  have hcount := references_serveEach (grants_releasing h) key
  rwa [countP_returns_release, countP_takes_release, Nat.add_zero] at hcount

/-- Releasing what was registered is granted in any order, and restores the catalog. -/
theorem releasing_registering (h : keys.Perm (files.map (·.1))) :
    (c.serveEach (registering files)).catalog.Grants (keys.map .release) ∧
      ((c.serveEach (registering files)).catalog.serveEach (keys.map .release)).catalog = c := by
  have hcovered : ∀ key,
      keys.count key ≤ (c.serveEach (registering files)).catalog.references key := fun key => by
    rw [references_registering, h.count_eq]
    omega
  have hreferences : ∀ key, ((c.serveEach (registering files)).catalog.serveEach
      (keys.map .release)).catalog.references key = c.references key := fun key => by
    have hcount := references_releasing hcovered key
    rw [references_registering, h.count_eq] at hcount
    omega
  refine ⟨grants_releasing hcovered, ext_keys (fun key => ?_) hreferences⟩
  -- a key has a handle as before, and that one was there all the time
  have hsheds := sheds_releasing (c.serveEach (registering files)).catalog keys
  have hsome : 0 < c.references key ↔ (c.get? key).isSome := references_pos_iff
  rw [← hreferences, references_pos_iff] at hsome
  cases hold : c.get? key with
  | none => simpa [hold] using hsome
  | some g =>
    rw [hold, Option.isSome_some, iff_true_right rfl] at hsome
    obtain ⟨g', hg'⟩ := Option.isSome_iff_exists.1 hsome
    have hkept := hsheds.kept hg'
    rw [get?_registering, chosen?, hold, Option.some_or] at hkept
    rw [hg', ← hkept]

end Undoing

end Catalog

namespace Registry

variable {r : Registry}

/-- The keys that an operation leaves without a handle. -/
def removes (r : Registry) (t : Transfer) : List SharedKey :=
  (r.deeds t).filterMap (·.removed?)

theorem removes_of_open (hopen : r.isClosed = false) (t : Transfer) :
    r.removes t = (r.catalog.serveEach t.requests).answer.filterMap (·.removed?) := by
  rw [removes, deeds, hopen, if_neg Bool.false_ne_true]

theorem unregisterAll_of_granted (hopen : r.isClosed = false) (snapshots : List Snapshot)
    (h : r.catalog.Grants ((snapshots.flatMap (·.keys)).map .release)) :
    r.unregisterAll snapshots =
      ⟨.ok (),
        (r.catalog.serveEach ((snapshots.flatMap (·.keys)).map .release)).retired.filter
          (!·.isPlaceholder),
        { r with
          catalog :=
            (r.catalog.serveEach ((snapshots.flatMap (·.keys)).map .release)).catalog }⟩ := by
  rw [unregisterAll, change_of_open hopen, Catalog.releaseEach_eq]
  simp only [List.findSome?_eq_none_iff.2 h]

/-- Whatever a registry holds, it takes a batch of snapshots, with one reference more for each file,
and takes it back, as it was handed over, in any order.  Then it is as before.  In between only such
keys are removed as the batch has brought in, each of them once, and what is disposed of then are
their handles.  With 32-bit counters this is so if no key has `2 ^ 32` references when the batch is
through. -/
theorem unregisterAll_registerAll (hopen : r.isClosed = false) (snapshots : List Snapshot) :
    let kept := (r.registerAll snapshots).registry
    (∀ key, kept.catalog.references key =
      r.catalog.references key + (snapshots.flatMap (·.keys)).count key) ∧
    ∃ handed, (r.registerAll snapshots).answer = .ok handed ∧
      ∀ back, back.Perm handed →
        let removed := r.removes (.registerAll snapshots) ++ kept.removes (.unregisterAll back)
        (kept.unregisterAll back).answer = .ok () ∧
        (kept.unregisterAll back).registry = r ∧
        removed.Nodup ∧
        (∀ key, key ∈ removed ↔ r.get? key = none ∧ (kept.get? key).isSome) ∧
        (kept.unregisterAll back).disposed =
          (removed.filterMap kept.get?).filter (!·.isPlaceholder) := by
  rw [registerAll_of_open hopen snapshots]
  intro kept
  refine ⟨fun key => ?_, _, rfl, fun back hback => ?_⟩
  · rw [Snapshot.flatMap_keys, ← Catalog.references_registering]
  intro removed
  have hkeys : (back.flatMap (·.keys)).Perm ((snapshots.flatMap (·.files)).map (·.1)) := by
    rw [← Snapshot.flatMap_keys, ← Snapshot.keys_substitute snapshots]
    exact hback.flatMap_right _
  obtain ⟨hgrants, hrestored⟩ := Catalog.releasing_registering (c := r.catalog) hkeys
  have hreleased := unregisterAll_of_granted (r := kept) hopen back hgrants
  have hremoved : removed =
      (kept.catalog.serveEach ((back.flatMap (·.keys)).map .release)).answer.filterMap
        (·.removed?) := by
    rw [show removed = r.removes _ ++ kept.removes _ from rfl, removes_of_open hopen,
      removes_of_open (r := kept) hopen, Transfer.requests, Catalog.removed_registering]
    rfl
  obtain ⟨once, hmem, hretired, -⟩ := kept.catalog.sheds_releasing (back.flatMap (·.keys))
  rw [← hremoved] at once hmem hretired
  rw [hreleased]
  refine ⟨rfl, ?_, once, fun key => ?_, congrArg _ hretired⟩
  · exact congrArg (fun c => { r with catalog := c }) hrestored
  · rw [hmem, hrestored, and_comm]
    rfl

/-- A subtask with files of different backends under one key, and with a file of its own. -/
def crossing : Snapshot := .subtask [
  ⟨"a", 1, ⟨0, 0⟩, ⟨[("b-c", .memory "1" [1]), ("d", .memory "2" [2])], by decide⟩, .empty,
    .placeholder⟩,
  ⟨"a-b", 1, ⟨0, 0⟩, ⟨[("c", .memory "3" [3])], by decide⟩, .empty, .placeholder⟩]

/-- The key that was there before stays, and the other one goes with the last reference to it. -/
theorem unregisterAll_registerAll_crossing :
    let r := (({} : Registry).register "a-b-c" (.memory "0" [0])).registry
    let kept := (r.registerAll [crossing, crossing]).registry
    r.isClosed = false ∧ kept.catalog.counts = [("a-b-c", 5), ("a-d", 2)] ∧
      ∃ handed, (r.registerAll [crossing, crossing]).answer = .ok handed ∧
        (kept.unregisterAll handed.reverse).answer = .ok () ∧
        (kept.unregisterAll handed.reverse).registry = r ∧
        "a-d" ∈ kept.removes (.unregisterAll handed.reverse) ∧
        "a-b-c" ∉ kept.removes (.unregisterAll handed.reverse) := by
  intro r kept
  have hopen : r.isClosed = false := rfl
  obtain ⟨-, handed, hanswer, hback⟩ := unregisterAll_registerAll hopen [crossing, crossing]
  obtain ⟨hall, hrestored, -, hremoved, -⟩ := hback _ handed.reverse_perm
  refine ⟨hopen, by decide, handed, hanswer, hall, hrestored, ?_, fun hmem => ?_⟩
  · exact (hremoved "a-d").2 ⟨rfl, rfl⟩
  · cases ((hremoved "a-b-c").1 hmem).1

end Registry

end StreamCheckpoint
