import Mathlib.Data.List.Induction
import Mathlib.Data.List.Zip
import Mathlib.Data.Set.Function
import StreamCheckpoint.Proofs.SharedState.Substitution

/-! The names of shared files against their keys.  A key is two names with a dash between them, and
either may have dashes of its own, so that different files can come to the same key
(`sharedKey_eq_iff`).  The files of the backends are kept apart on every run exactly if no two of
their names cross in this way (`keepsApart_iff`). -/

namespace StreamCheckpoint

/-- What tells a shared file from others: the backend that wrote it, and its name there. -/
structure SharedName where
  backend : String
  file : String
deriving DecidableEq, Repr

def SharedName.key (n : SharedName) : SharedKey := sharedKey n.backend n.file

/-- The shared files of a snapshot, each under its name. -/
def KeyedSnapshot.shares (s : KeyedSnapshot) : List (SharedName × StateHandle) :=
  s.sharedFiles.entries.map fun f => (⟨s.backend, f.1⟩, f.2)

def Snapshot.shares (s : Snapshot) : List (SharedName × StateHandle) :=
  s.parts.flatMap (·.shares)

/-! ### Keys -/

/-- Two keys are equal if the names are, or if what one backend's name has past the dash is what
the other file's name has in front of it. -/
theorem sharedKey_eq_iff {b b' f f' : String} : sharedKey b f = sharedKey b' f' ↔
    b = b' ∧ f = f' ∨ (∃ m, b' = b ++ "-" ++ m ∧ f = m ++ "-" ++ f') ∨
      ∃ m, b = b' ++ "-" ++ m ∧ f' = m ++ "-" ++ f := by
  constructor
  · intro h
    have hchars : b.toList ++ '-' :: f.toList = b'.toList ++ '-' :: f'.toList := by
      simpa [sharedKey] using congrArg String.toList h
    -- one backend's name goes on where the other one ends, and its next character is the dash
    have split : ∀ {b b' f f' : String} {as : List Char}, b'.toList = b.toList ++ as →
        '-' :: f.toList = as ++ '-' :: f'.toList →
        b = b' ∧ f = f' ∨ ∃ m, b' = b ++ "-" ++ m ∧ f = m ++ "-" ++ f' := by
      intro b b' f f' as hb hf
      cases as with
      | nil =>
        rw [List.append_nil] at hb
        exact .inl ⟨String.ext hb.symm, String.ext (List.cons.inj hf).2⟩
      | cons c m =>
        obtain ⟨rfl, hf⟩ := List.cons.inj hf
        exact .inr ⟨String.ofList m, String.ext (by simp [hb]), String.ext (by simpa using hf)⟩
    rcases List.append_eq_append_iff.1 hchars with ⟨as, hb, hf⟩ | ⟨as, hb, hf⟩
    · exact (split hb hf).imp_right .inl
    · exact (split hb hf).imp (fun ⟨hb, hf⟩ => ⟨hb.symm, hf.symm⟩) .inr
  · rintro (⟨rfl, rfl⟩ | ⟨m, rfl, rfl⟩ | ⟨m, rfl, rfl⟩) <;> simp [sharedKey, String.append_assoc]

/-- No file is called `m-f` in a backend `b` while a backend `b-m` has a file `f`. -/
def Uncrossed (names : Set SharedName) : Prop :=
  ∀ b m f, (⟨b, m ++ "-" ++ f⟩ : SharedName) ∈ names → (⟨b ++ "-" ++ m, f⟩ : SharedName) ∉ names

theorem Uncrossed.injOn {names : Set SharedName} (h : Uncrossed names) :
    Set.InjOn SharedName.key names := by
  rintro ⟨b, f⟩ hn ⟨b', f'⟩ hn' hkey
  have hkey : sharedKey b f = sharedKey b' f' := hkey
  rcases sharedKey_eq_iff.1 hkey with ⟨rfl, rfl⟩ | ⟨m, rfl, rfl⟩ | ⟨m, rfl, rfl⟩
  · rfl
  · exact absurd hn' (h b m f' hn)
  · exact absurd hn (h b' m f hn')

theorem crossed_ne (b m f : String) :
    (⟨b, m ++ "-" ++ f⟩ : SharedName) ≠ ⟨b ++ "-" ++ m, f⟩ := by
  intro h
  have hlength := congrArg (fun n : SharedName => n.backend.length) h
  have hdash : "-".length = 1 := rfl
  simp only [String.length_append] at hlength
  omega

theorem crossed_key (b m f : String) :
    SharedName.key ⟨b, m ++ "-" ++ f⟩ = SharedName.key ⟨b ++ "-" ++ m, f⟩ :=
  sharedKey_eq_iff.2 (.inr (.inl ⟨m, rfl, rfl⟩))

/-! ### Files of a run -/

section Shares

variable {choose : SharedKey × StateHandle → StateHandle}

theorem KeyedSnapshot.files_eq (s : KeyedSnapshot) :
    s.files = s.shares.map fun f => (f.1.key, f.2) := by
  simp [files, shares, SharedName.key, KeyedSnapshot.key]

theorem Snapshot.files_eq (snapshots : List Snapshot) :
    snapshots.flatMap (·.files) =
      (snapshots.flatMap (·.shares)).map fun f => (f.1.key, f.2) := by
  simp [files, shares, List.map_flatMap, KeyedSnapshot.files_eq]

theorem KeyedSnapshot.shares_substitute (s : KeyedSnapshot) :
    (s.substitute choose).shares = s.shares.map fun f => (f.1, choose (f.1.key, f.2)) := by
  simp [shares, substitute, Table.withEntries, SharedName.key, KeyedSnapshot.key]

theorem Snapshot.shares_substitute (snapshots : List Snapshot) :
    (snapshots.map (·.substitute choose)).flatMap (·.shares) =
      (snapshots.flatMap (·.shares)).map fun f => (f.1, choose (f.1.key, f.2)) := by
  have hone : ∀ s : Snapshot, (s.substitute choose).shares =
      s.shares.map fun f => (f.1, choose (f.1.key, f.2)) := fun s => by
    cases s <;> simp [shares, parts, substitute, List.flatMap_map, List.map_flatMap,
      KeyedSnapshot.shares_substitute]
  simp [List.flatMap_map, List.map_flatMap, hone]

end Shares

/-- The handles that differ from those that are handed over in their places. -/
def duplicates (given handed : List (SharedName × StateHandle)) : List StateHandle :=
  ((given.zip handed).filter fun p => !(p.2.2 == p.1.2)).map (·.1.2)

namespace Registry

/-- A new registry after batches of snapshots. -/
def registered (batches : List (List Snapshot)) : Registry :=
  batches.foldl (fun r batch => (r.registerAll batch).registry) {}

/-- `handed` are the snapshots of a further batch as the registry returns them: each of their files
goes on with a handle that a snapshot has supplied for a file of that name, and the handles to
dispose of are those that have given way to such a handle. -/
structure KeepsApart (before : List (List Snapshot)) (batch handed : List Snapshot) : Prop where
  answer : ((registered before).registerAll batch).answer = .ok handed
  names : (handed.flatMap (·.shares)).map (·.1) = (batch.flatMap (·.shares)).map (·.1)
  supplied : ∀ f ∈ handed.flatMap (·.shares), f ∈ (before ++ [batch]).flatten.flatMap (·.shares)
  disposed : ((registered before).registerAll batch).disposed =
    (duplicates (batch.flatMap (·.shares)) (handed.flatMap (·.shares))).filter (!·.isPlaceholder)

/-- The names of all files in some batches. -/
def namesOf (batches : List (List Snapshot)) : Set SharedName :=
  {n | ∃ h, (n, h) ∈ batches.flatten.flatMap (·.shares)}

section Registered

variable (before : List (List Snapshot)) (batch : List Snapshot)

theorem registered_concat :
    registered (before ++ [batch]) = ((registered before).registerAll batch).registry := by
  rw [registered, List.foldl_append]
  rfl

theorem isClosed_registered : (registered before).isClosed = false := by
  induction before using List.reverseRecOn with
  | nil => rfl
  | append_singleton before batch ih =>
    rw [registered_concat, registerAll_of_open ih]
    exact ih

theorem get?_registered :
    (registered before).catalog.get? =
      Catalog.chosen? {} (before.flatten.flatMap (·.files)) := by
  induction before using List.reverseRecOn with
  | nil => exact (Catalog.chosen?_nil _).symm
  | append_singleton before batch ih =>
    rw [registered_concat, registerAll_of_open (isClosed_registered before),
      Catalog.get?_registering, Catalog.chosen?_append ih]
    simp

/-- The handles that a further batch goes on with are chosen among all that were supplied. -/
theorem choice_registered :
    (registered before).catalog.choice (batch.flatMap (·.files)) =
      Catalog.choice {} ((before ++ [batch]).flatten.flatMap (·.files)) := by
  rw [Catalog.choice_congr (Catalog.chosen?_append (get?_registered before) _)]
  simp

theorem handed_registered {handed : List Snapshot}
    (h : ((registered before).registerAll batch).answer = .ok handed) :
    handed = batch.map (·.substitute
      (Catalog.choice {} ((before ++ [batch]).flatten.flatMap (·.files)))) := by
  rw [registerAll_of_open (isClosed_registered before), choice_registered] at h
  exact (Except.ok.inj h).symm

theorem exists_supplied {n : SharedName} {h : StateHandle} {batches : List (List Snapshot)}
    (hf : (n, h) ∈ batches.flatten.flatMap (·.shares)) :
    ∃ n', n'.key = n.key ∧ (n', Catalog.choice {} (batches.flatten.flatMap (·.files)) (n.key, h)) ∈
      batches.flatten.flatMap (·.shares) := by
  have hmem : (n.key, h) ∈ batches.flatten.flatMap (·.files) := by
    rw [Snapshot.files_eq]
    exact List.mem_map_of_mem (f := fun f : SharedName × StateHandle => (f.1.key, f.2)) hf
  have hlookup := Catalog.mem_of_lookup (Catalog.chosen?_of_mem (c := {}) hmem)
  rw [Snapshot.files_eq, List.mem_map] at hlookup
  obtain ⟨⟨n', g⟩, hmem', heq⟩ := hlookup
  obtain ⟨hkey, rfl⟩ := Prod.mk.inj heq
  rw [Snapshot.files_eq]
  exact ⟨n', hkey, hmem'⟩

theorem keepsApart_of_injOn (h : Set.InjOn SharedName.key (namesOf (before ++ [batch]))) :
    ∃ handed, KeepsApart before batch handed := by
  have hregister := registerAll_of_open (isClosed_registered before) batch
  rw [choice_registered] at hregister
  refine ⟨_, by rw [hregister], ?_, ?_, ?_⟩
  · simp [Snapshot.shares_substitute]
  · rw [Snapshot.shares_substitute]
    intro f hf
    obtain ⟨⟨n, g⟩, hmem, rfl⟩ := List.mem_map.1 hf
    have hall : (n, g) ∈ (before ++ [batch]).flatten.flatMap (·.shares) := by
      simpa using Or.inr hmem
    -- another file with the key has the same name
    obtain ⟨n', hkey, hsupplied⟩ := exists_supplied hall
    obtain rfl := h ⟨_, hsupplied⟩ ⟨_, hall⟩ hkey
    exact hsupplied
  · rw [hregister, duplicates, Snapshot.shares_substitute, ← List.map_prod_left_eq_zip,
      Snapshot.files_eq batch]
    simp [List.filter_map, Function.comp_def]

end Registered

/-- A snapshot of a single file. -/
def alone (n : SharedName) (h : StateHandle) : Snapshot :=
  .keyed ⟨n.backend, 1, ⟨0, 0⟩, ⟨[(n.file, h)], List.pairwise_singleton ..⟩, .empty, .placeholder⟩

/-- A file goes on with the handle of another one that has the same key. -/
theorem not_keepsApart {n n' : SharedName} (hkey : n.key = n'.key) (hne : n ≠ n') :
    ¬∃ handed, KeepsApart [[alone n (.memory "1" [1])]] [alone n' (.memory "2" [2])] handed := by
  rintro ⟨handed, h⟩
  obtain rfl := handed_registered _ _ h.answer
  have hshares : ∀ n h, (alone n h).shares = [(n, h)] := fun _ _ => rfl
  have hfiles : ∀ n h, (alone n h).files = [(n.key, h)] := fun _ _ => rfl
  have hsupplied := h.supplied (n', .memory "1" [1]) (by
    rw [Snapshot.shares_substitute]
    simp [hshares, hfiles, Catalog.choice, Catalog.chosen?, Table.lookup_entry, hkey,
      Catalog.get?, Table.get?, Table.empty])
  simp [hshares, Ne.symm hne] at hsupplied

/-- Keys keep the files of some names apart, and so does every run of a new registry that registers
files of these names only, exactly if the names are uncrossed. -/
theorem keepsApart_iff (names : Set SharedName) :
    (Set.InjOn SharedName.key names ↔ Uncrossed names) ∧
      ((∀ before batch, namesOf (before ++ [batch]) ⊆ names →
        ∃ handed, KeepsApart before batch handed) ↔ Uncrossed names) := by
  refine ⟨⟨fun hinj b m f hn hn' => ?_, Uncrossed.injOn⟩, fun hall b m f hn hn' => ?_,
    fun h before batch hnames => keepsApart_of_injOn before batch (h.injOn.mono hnames)⟩
  · exact crossed_ne b m f (hinj hn hn' (crossed_key b m f))
  · refine not_keepsApart (crossed_key b m f) (crossed_ne b m f) (hall _ _ ?_)
    rintro n ⟨h, hmem⟩
    have hmem : (n, h) ∈ [_, _] := hmem
    rcases List.mem_pair.1 hmem with heq | heq <;> cases heq <;> assumption

/-- A backend that is called `a-b` goes on with what the backend `a` has written. -/
theorem keepsApart_fails :
    sharedKey "a" "b-c" = sharedKey "a-b" "c" ∧
      ¬∃ handed, KeepsApart [[alone ⟨"a", "b-c"⟩ (.memory "1" [1])]]
        [alone ⟨"a-b", "c"⟩ (.memory "2" [2])] handed :=
  ⟨by decide, not_keepsApart (by decide) (by decide)⟩

end Registry

end StreamCheckpoint
