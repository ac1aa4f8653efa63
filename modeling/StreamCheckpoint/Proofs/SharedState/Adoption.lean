import Mathlib.Data.List.Forall2
import StreamCheckpoint.Proofs.SharedState.Undoing

/-! Snapshots as a registry hands them back.  Every shared file of a batch comes back with the
handle that the registry keeps under its key when the batch is through, whatever the batch itself
brought for that key, and nothing else of the snapshots is changed (`AdoptedBy`).  Snapshots that
come from the registry are settled: to hand them in again takes references, and does nothing else
(`registerAll_adopts`). -/

namespace StreamCheckpoint

/-- `t` is `s` with every shared file on the handle that the registry keeps under its key. -/
structure KeyedSnapshot.AdoptedBy (r : Registry) (s t : KeyedSnapshot) : Prop where
  backend : t.backend = s.backend
  checkpoint : t.checkpoint = s.checkpoint
  range : t.range = s.range
  names : t.sharedFiles.names = s.sharedFiles.names
  handles : ∀ name h, t.sharedFiles.get? name = some h → r.get? (t.key name) = some h
  privateFiles : t.privateFiles = s.privateFiles
  metadata : t.metadata = s.metadata

inductive Snapshot.AdoptedBy (r : Registry) : Snapshot → Snapshot → Prop
  | keyed {s t : KeyedSnapshot} (part : s.AdoptedBy r t) : AdoptedBy r (.keyed s) (.keyed t)
  | subtask {ss ts : List KeyedSnapshot} (parts : List.Forall₂ (KeyedSnapshot.AdoptedBy r) ss ts) :
      AdoptedBy r (.subtask ss) (.subtask ts)

/-! ### Handing in -/

section Adopted

variable {r : Registry} {choose : SharedKey × StateHandle → StateHandle}

theorem KeyedSnapshot.adoptedBy_substitute {s : KeyedSnapshot}
    (kept : ∀ f ∈ s.files, r.get? f.1 = some (choose f)) : s.AdoptedBy r (s.substitute choose) where
  backend := rfl
  checkpoint := rfl
  range := rfl
  names := by simp [substitute, Table.withEntries, Table.names]
  handles name h hget := by
    obtain ⟨f, hf, heq⟩ := List.mem_map.1 (Catalog.mem_of_lookup hget)
    obtain ⟨rfl, rfl⟩ := Prod.mk.inj heq
    exact kept _ (List.mem_map_of_mem (f := fun f => (s.key f.1, f.2)) hf)
  privateFiles := rfl
  metadata := rfl

theorem Snapshot.adoptedBy_substitute {s : Snapshot}
    (kept : ∀ f ∈ s.files, r.get? f.1 = some (choose f)) :
    s.AdoptedBy r (s.substitute choose) := by
  cases s with
  | keyed s =>
    exact .keyed (KeyedSnapshot.adoptedBy_substitute fun f hf => kept f (by simpa [files, parts]))
  | subtask parts =>
    refine .subtask (List.forall₂_map_right_iff.2 (List.forall₂_same.2 fun s hs => ?_))
    exact KeyedSnapshot.adoptedBy_substitute fun f hf => kept f (List.mem_flatMap_of_mem hs hf)

/-- The files of a batch after it was handed in. -/
theorem Snapshot.flatMap_files_substitute (snapshots : List Snapshot) :
    (snapshots.map (·.substitute choose)).flatMap (·.files) =
      (snapshots.flatMap (·.files)).map fun f => (f.1, choose f) := by
  simp only [List.flatMap_map, List.map_flatMap, files_substitute]

end Adopted

/-! ### Handing in again -/

theorem KeyedSnapshot.substitute_own (s : KeyedSnapshot) : s.substitute (·.2) = s := by
  simp [substitute, Table.withEntries]

theorem Snapshot.substitute_own (s : Snapshot) : s.substitute (·.2) = s := by
  cases s <;> simp [substitute, KeyedSnapshot.substitute_own]

namespace Catalog

/-- Each of the files is on the handle that the catalog has under its key. -/
def Settled (c : Catalog) (files : List (SharedKey × StateHandle)) : Prop :=
  ∀ f ∈ files, c.get? f.1 = some f.2

variable {c : Catalog} {files : List (SharedKey × StateHandle)}

theorem settled_choice (c : Catalog) (files : List (SharedKey × StateHandle)) :
    (c.serveEach (registering files)).catalog.Settled
      (files.map fun f => (f.1, c.choice files f)) := by
  intro f hf
  obtain ⟨g, hg, rfl⟩ := List.mem_map.1 hf
  rw [get?_registering]
  exact chosen?_of_mem hg

theorem Settled.choice (h : c.Settled files) {f : SharedKey × StateHandle} (hf : f ∈ files) :
    c.choice files f = f.2 := by
  rw [Catalog.choice, chosen?, h f hf, Option.some_or, Option.getD_some]

/-- What is registered already keeps its handle, and there is no other key. -/
theorem Settled.get?_registering (h : c.Settled files) :
    (c.serveEach (registering files)).catalog.get? = c.get? := by
  rw [Catalog.get?_registering]
  funext key
  cases hkept : c.get? key with
  | some g => rw [chosen?, hkept, Option.some_or]
  | none =>
    rw [chosen?, hkept, Option.none_or]
    cases hfile : files.lookup key with
    | none => rfl
    | some g => rw [h _ (mem_of_lookup hfile)] at hkept; cases hkept

end Catalog

namespace Registry

variable {r : Registry}

/-- Settled snapshots come back as they are, and no handle gives way to another one. -/
theorem registerAll_of_settled (hopen : r.isClosed = false) {snapshots : List Snapshot}
    (h : r.catalog.Settled (snapshots.flatMap (·.files))) :
    r.registerAll snapshots = ⟨.ok snapshots, [], { r with
      catalog := (r.catalog.serveEach (registering (snapshots.flatMap (·.files)))).catalog }⟩ := by
  have hanswer : snapshots.map
      (·.substitute (r.catalog.choice (snapshots.flatMap (·.files)))) = snapshots := by
    calc
      _ = snapshots.map (·.substitute (·.2)) := List.map_congr_left fun s hs =>
        Snapshot.substitute_congr fun f hf => h.choice (List.mem_flatMap_of_mem hs hf)
      _ = snapshots := by simp [Snapshot.substitute_own]
  have hretired : (snapshots.flatMap (·.files)).filter
      (fun f => !(r.catalog.choice (snapshots.flatMap (·.files)) f == f.2)) = [] := by
    refine List.filter_eq_nil_iff.2 fun f hf => ?_
    simp [h.choice hf]
  rw [registerAll_of_open hopen, hanswer, hretired]
  rfl

/-- What a batch comes back as is settled in the catalog that took it. -/
theorem settled_handed (c : Catalog) (snapshots : List Snapshot) :
    (c.serveEach (registering (snapshots.flatMap (·.files)))).catalog.Settled
      ((snapshots.map (·.substitute (c.choice (snapshots.flatMap (·.files))))).flatMap
        (·.files)) := by
  rw [Snapshot.flatMap_files_substitute]
  exact Catalog.settled_choice _ _

/-- An open registry takes every batch.  Afterwards each shared file of each snapshot is on the
handle that the registry keeps under its key, the rest of the snapshots is as it was, and each key
has one reference more for each file of the batch under it.  When the snapshots are handed in again
as they came back, they come back unchanged, nothing is disposed of, and the registry keeps what it
had, with as many references more as the first time.  With 32-bit counters this is so if each key
has fewer than `2 ^ 32` references after the second time. -/
theorem registerAll_adopts (hopen : r.isClosed = false) (snapshots : List Snapshot) :
    let kept := (r.registerAll snapshots).registry
    ∃ handed, (r.registerAll snapshots).answer = .ok handed ∧
      List.Forall₂ (Snapshot.AdoptedBy kept) snapshots handed ∧
      (∀ key, kept.catalog.references key =
        r.catalog.references key + (snapshots.flatMap (·.keys)).count key) ∧
      let again := kept.registerAll handed
      again.answer = .ok handed ∧ again.disposed = [] ∧
      again.registry.isClosed = kept.isClosed ∧
      (∀ key, again.registry.get? key = kept.get? key) ∧
      ∀ key, again.registry.catalog.references key =
        kept.catalog.references key + (snapshots.flatMap (·.keys)).count key := by
  rw [registerAll_of_open hopen snapshots]
  intro kept
  refine ⟨_, rfl, ?_, fun key => ?_, ?_⟩
  · refine List.forall₂_map_right_iff.2 (List.forall₂_same.2 fun s hs => ?_)
    refine Snapshot.adoptedBy_substitute fun f hf => ?_
    have hmem : f ∈ snapshots.flatMap (·.files) := List.mem_flatMap_of_mem hs hf
    show kept.catalog.get? f.1 = _
    rw [Catalog.get?_registering]
    exact Catalog.chosen?_of_mem hmem
  · rw [Snapshot.flatMap_keys, ← Catalog.references_registering]
  · generalize hhanded : snapshots.map
      (·.substitute (r.catalog.choice (snapshots.flatMap (·.files)))) = handed
    have hkeys : snapshots.flatMap (·.keys) = (handed.flatMap (·.files)).map (·.1) := by
      rw [← Snapshot.flatMap_keys, ← hhanded, Snapshot.keys_substitute]
    have hsettled : kept.catalog.Settled (handed.flatMap (·.files)) :=
      hhanded ▸ settled_handed r.catalog snapshots
    rw [registerAll_of_settled (r := kept) hopen hsettled]
    refine ⟨rfl, rfl, rfl, congrFun hsettled.get?_registering, fun key => ?_⟩
    rw [hkeys]
    exact Catalog.references_registering _ key

/-- Two files of the batch have one key, which the registry does not know, and the third has a key
with another handle.  The first handle of the new key is the one that both files come back with. -/
theorem registerAll_adopts_crossing :
    let r := (({} : Registry).register "a-d" (.memory "0" [0])).registry
    let kept := (r.registerAll [crossing]).registry
    r.isClosed = false ∧
      (r.registerAll [crossing]).disposed = [.memory "2" [2], .memory "3" [3]] ∧
      kept.get? "a-b-c" = some (.memory "1" [1]) ∧
      ∃ handed, (r.registerAll [crossing]).answer = .ok handed ∧
        List.Forall₂ (Snapshot.AdoptedBy kept) [crossing] handed ∧
        (kept.registerAll handed).answer = .ok handed ∧
        (kept.registerAll handed).disposed = [] ∧
        (kept.registerAll handed).registry.catalog.references "a-b-c" = 4 := by
  intro r kept
  have hopen : r.isClosed = false := rfl
  obtain ⟨handed, hanswer, hadopted, hcount, hagain, hdisposed, -, -, hcount'⟩ :=
    registerAll_adopts hopen [crossing]
  refine ⟨hopen, rfl, rfl, handed, hanswer, hadopted, hagain, hdisposed, ?_⟩
  rw [hcount', hcount]
  decide

end Registry

end StreamCheckpoint
