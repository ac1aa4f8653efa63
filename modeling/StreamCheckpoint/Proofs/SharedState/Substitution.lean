import StreamCheckpoint.Proofs.SharedState.Batches

/-! Snapshots that come back from a registry.  Each of their shared files goes on with the handle
that is chosen for its key, and nothing else of them changes (`registerAll_of_open`). -/

namespace StreamCheckpoint

/-! ### Snapshots with other handles -/

/-- The snapshot with other handles for the files that it shares. -/
def KeyedSnapshot.substitute (choose : SharedKey × StateHandle → StateHandle) (s : KeyedSnapshot) :
    KeyedSnapshot :=
  { s with
    sharedFiles := s.sharedFiles.withEntries
      (s.sharedFiles.entries.map fun f => (f.1, choose (s.key f.1, f.2))) (by simp [Table.names]) }

def Snapshot.substitute (choose : SharedKey × StateHandle → StateHandle) : Snapshot → Snapshot
  | keyed s => keyed (s.substitute choose)
  | subtask parts => subtask (parts.map (·.substitute choose))

section Substitute

variable {choose choose' : SharedKey × StateHandle → StateHandle}

theorem KeyedSnapshot.files_substitute (s : KeyedSnapshot) :
    (s.substitute choose).files = s.files.map fun f => (f.1, choose f) := by
  simp [files, substitute, Table.withEntries, key]

theorem Snapshot.files_substitute (s : Snapshot) :
    (s.substitute choose).files = s.files.map fun f => (f.1, choose f) := by
  cases s <;> simp [files, parts, substitute, List.flatMap_map, List.map_flatMap,
    KeyedSnapshot.files_substitute]

theorem Snapshot.flatMap_keys (snapshots : List Snapshot) :
    snapshots.flatMap (·.keys) = (snapshots.flatMap (·.files)).map (·.1) := by
  simp [keys_eq, List.map_flatMap]

theorem Snapshot.keys_substitute (snapshots : List Snapshot) :
    (snapshots.map (·.substitute choose)).flatMap (·.keys) = snapshots.flatMap (·.keys) := by
  simp [keys_eq, files_substitute, List.flatMap_map, Function.comp_def]

theorem KeyedSnapshot.substitute_congr {s : KeyedSnapshot}
    (h : ∀ f ∈ s.files, choose f = choose' f) : s.substitute choose = s.substitute choose' := by
  have hentries : (s.sharedFiles.entries.map fun f => (f.1, choose (s.key f.1, f.2))) =
      s.sharedFiles.entries.map fun f => (f.1, choose' (s.key f.1, f.2)) :=
    List.map_congr_left fun f hf =>
      congrArg (f.1, ·) (h _ (List.mem_map_of_mem (f := fun f => (s.key f.1, f.2)) hf))
  simp only [substitute, hentries]

theorem Snapshot.substitute_congr {s : Snapshot} (h : ∀ f ∈ s.files, choose f = choose' f) :
    s.substitute choose = s.substitute choose' := by
  cases s with
  | keyed s =>
    refine congrArg keyed (KeyedSnapshot.substitute_congr fun f hf => h f ?_)
    simpa [files, parts] using hf
  | subtask parts =>
    refine congrArg subtask (List.map_congr_left fun s hs => ?_)
    exact KeyedSnapshot.substitute_congr fun f hf => h f (List.mem_flatMap_of_mem hs hf)

end Substitute

namespace Catalog

section Append

variable {c c' : Catalog} {files : List (SharedKey × StateHandle)}

theorem choice_append {f : SharedKey × StateHandle} (hf : f ∈ files)
    (more : List (SharedKey × StateHandle)) : c.choice (files ++ more) f = c.choice files f := by
  have hchosen := chosen?_of_mem (c := c) hf
  rw [choice, chosen?, List.lookup_append, ← Option.or_assoc, ← chosen?, hchosen]
  rfl

/-- What is chosen for further files once some are registered. -/
theorem chosen?_append (h : c'.get? = c.chosen? files) (more : List (SharedKey × StateHandle)) :
    c'.chosen? more = c.chosen? (files ++ more) := by
  funext key
  rw [chosen?, h, chosen?, chosen?, List.lookup_append, Option.or_assoc]

end Append

/-- The change puts the handles that are chosen in the place of those that are given. -/
structure Substitutes {α β : Type} (change : Catalog → α → Change β)
    (given : α → List (SharedKey × StateHandle))
    (substitute : (SharedKey × StateHandle → StateHandle) → α → β) : Prop where
  answer : ∀ c x, (change c x).answer = substitute (c.choice (given x)) x
  chosen : ∀ c x, (change c x).catalog.get? = c.chosen? (given x)
  congr : ∀ {g g' x}, (∀ f ∈ given x, g f = g' f) → substitute g x = substitute g' x

theorem Substitutes.forEach {α β : Type} {change : Catalog → α → Change β}
    {given : α → List (SharedKey × StateHandle)}
    {substitute : (SharedKey × StateHandle → StateHandle) → α → β}
    (h : Substitutes change given substitute) :
    Substitutes (fun c => c.forEach change) (·.flatMap given)
      (fun choose => List.map (substitute choose)) := by
  constructor
  · intro c xs
    induction xs generalizing c with
    | nil => rfl
    | cons x xs ih =>
      -- the files of the first value come first, and those of the others are chosen after them
      have hfirst : substitute (c.choice (given x)) x =
          substitute (c.choice (given x ++ xs.flatMap given)) x :=
        h.congr fun f hf => (choice_append hf _).symm
      have hrest : (change c x).catalog.choice (xs.flatMap given) =
          c.choice (given x ++ xs.flatMap given) := choice_congr (chosen?_append (h.chosen c x) _)
      rw [Catalog.forEach, List.map_cons, List.flatMap_cons, ← hfirst, ← hrest, h.answer, ih]
  · intro c xs
    induction xs generalizing c with
    | nil => exact c.chosen?_nil.symm
    | cons x xs ih =>
      rw [List.flatMap_cons, ← chosen?_append (h.chosen c x)]
      exact ih _
  · intro g g' xs hg
    exact List.map_congr_left fun x hx => h.congr fun f hf => hg f (List.mem_flatMap_of_mem hx hf)

theorem substitutes_adoptFile (backend : String) :
    Substitutes (adoptFile backend) (fun f => [(sharedKey backend f.1, f.2)])
      fun choose f => (f.1, choose (sharedKey backend f.1, f.2)) := by
  constructor
  · intro c f
    have hhanded := (c.serve_register (sharedKey backend f.1, f.2) []).1
    exact congrArg (f.1, ·) (Prod.ext_iff.1 (Option.some.inj hhanded)).2
  · intro c f
    rw [(c.registers_adoptFile backend f).catalog, get?_registering]
  · intro g g' f hg
    exact congrArg (f.1, ·) (hg _ (.head _))

end Catalog

theorem KeyedSnapshot.substitutes :
    Catalog.Substitutes register files substitute := by
  refine ⟨fun c s => ?_, fun c s => ?_, substitute_congr⟩
  · have hanswer := (Catalog.substitutes_adoptFile s.backend).forEach.answer c s.sharedFiles.entries
    rw [← List.map_eq_flatMap] at hanswer
    simp only [register, hanswer]
    rfl
  · rw [(s.registers c).catalog, Catalog.get?_registering]

theorem Snapshot.substitutes : Catalog.Substitutes register files substitute := by
  refine ⟨fun c s => ?_, fun c s => ?_, substitute_congr⟩
  · cases s with
    | keyed s =>
      have hfiles : (keyed s).files = s.files := by simp [files, parts]
      rw [hfiles]
      exact congrArg keyed (KeyedSnapshot.substitutes.answer c s)
    | subtask parts =>
      exact congrArg subtask (KeyedSnapshot.substitutes.forEach.answer c parts)
  · rw [(s.registers c).catalog, Catalog.get?_registering]

/-- Every shared file of a batch comes back with the handle that is chosen for its key, and the
handles that differ from the chosen ones are disposed of, in order. -/
theorem Registry.registerAll_of_open {r : Registry} (hopen : r.isClosed = false)
    (snapshots : List Snapshot) :
    r.registerAll snapshots =
      ⟨.ok (snapshots.map (·.substitute (r.catalog.choice (snapshots.flatMap (·.files))))),
        (((snapshots.flatMap (·.files)).filter fun f =>
          !(r.catalog.choice (snapshots.flatMap (·.files)) f == f.2)).map (·.2)).filter
            (!·.isPlaceholder),
        { r with
          catalog :=
            (r.catalog.serveEach (registering (snapshots.flatMap (·.files)))).catalog }⟩ := by
  obtain ⟨-, hretired, hcatalog⟩ :=
    Catalog.registers_forEach Snapshot.registers r.catalog snapshots
  have hanswer := Snapshot.substitutes.forEach.answer r.catalog snapshots
  rw [registerAll, change_of_open hopen, ← Catalog.retired_registering, ← hretired, ← hcatalog]
  simp only [hanswer]

end StreamCheckpoint
