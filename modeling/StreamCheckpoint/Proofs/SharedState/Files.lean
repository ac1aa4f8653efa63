import Mathlib.Data.List.Induction
import StreamCheckpoint.Proofs.SharedState.Batches
import StreamCheckpoint.Storage.FileMap

/-! The files that the handles of a registry point at, where what is disposed of is removed at once.
Handles are told apart by path and size, and files by the path alone.  As long as no file has two
keys, a request removes a file that the registry still points at exactly if it brings another size
for the file that its key has (`spares_iff`). -/

namespace StreamCheckpoint

namespace StateHandle

/-- Whether the handle points at the file of that path. -/
def pointsAt (p : Path) : StateHandle → Bool
  | file path _ => path == p
  | _ => false

variable {h : StateHandle} {p q : Path}

theorem pointsAt_iff :
    h.pointsAt p = true ↔ ∃ path size, h = file path size ∧ path.parts = p.parts := by
  cases h with
  | file path size => simp [pointsAt, Path.beq_iff]
  | _ => simp [pointsAt]

theorem isPlaceholder_of_pointsAt (hp : h.pointsAt p = true) : h.isPlaceholder = false := by
  obtain ⟨path, size, rfl, -⟩ := pointsAt_iff.1 hp
  rfl

/-- Handles that point at one file differ in its size, if they differ. -/
theorem beq_of_size {path path' : Path} {size size' : Nat} (hpath : path.parts = path'.parts) :
    (file path size == file path' size') = true ↔ size = size' := by
  simp [beq_iff, identity, hpath]

theorem get?_discard (m : FileMap) (h : StateHandle) (p : Path) :
    (h.discard m).2.get? p =
      if h.pointsAt p = true ∧ m.get? p = some .removable then none else m.get? p := by
  cases h with
  | file path size =>
    have hsame : path.parts = p.parts → m.get? path = m.get? p := fun h => congrArg m.at? h
    rw [discard, show ∀ r : Removal × FileMap, (r.1.result, r.2).2 = r.2 from fun _ => rfl]
    refine (FileMap.get?_remove m path p).trans (if_congr ?_ rfl rfl)
    rw [Path.beq_iff, pointsAt, Path.beq_iff, @eq_comm _ p.parts]
    exact and_congr_right fun h => by rw [hsame h]
  | _ => simp [discard, pointsAt]

/-- Disposing of handles removes the files that they point at, as far as these can be removed. -/
theorem get?_dispose (m : FileMap) (hs : List StateHandle) (p : Path) :
    (dispose m hs).get? p =
      if (∃ h ∈ hs, h.pointsAt p = true) ∧ m.get? p = some .removable then none else m.get? p := by
  induction hs generalizing m with
  | nil => simp [dispose]
  | cons h hs ih =>
    rw [dispose, List.foldl_cons, ← dispose, ih, get?_discard]
    by_cases hp : h.pointsAt p = true <;> by_cases hm : m.get? p = some .removable <;> simp [hp, hm]

end StateHandle

def Request.transfer : Request → Transfer
  | register key h => .register key h
  | release key => .unregister key

theorem Request.requests_transfer (q : Request) : q.transfer.requests = [q] := by
  cases q <;> rfl

/-- A registry, and the files that its handles point at. -/
structure Holdings where
  registry : Registry := {}
  files : FileMap

namespace Holdings

/-- Serves a request, and removes at once what it disposes of. -/
def serve (s : Holdings) (q : Request) : Holdings :=
  let r := s.registry.transfer q.transfer
  ⟨r.registry, StateHandle.dispose s.files r.disposed⟩

def after (files : FileMap) (qs : List Request) : Holdings := qs.foldl serve { files }

/-- No file that the request removes is one that the registry still points at. -/
def Spares (s : Holdings) (q : Request) : Prop :=
  ∀ p, s.files.get? p ≠ none → (s.serve q).files.get? p = none →
    ∀ key h, (s.serve q).registry.get? key = some h → h.pointsAt p = false

/-- The request registers a file that can be removed, under a key that has a handle to the same file
with another size. -/
def Resizes (s : Holdings) : Request → Prop
  | .register key (.file path size) => s.files.get? path = some .removable ∧
      ∃ path' size', s.registry.get? key = some (.file path' size') ∧ (path' == path) = true ∧
        size' ≠ size
  | _ => False

end Holdings

/-- Every file is registered under one key only. -/
def Request.OneKey (qs : List Request) : Prop :=
  ∀ key key' h h' p, .register key h ∈ qs → .register key' h' ∈ qs →
    h.pointsAt p = true → h'.pointsAt p = true → key = key'

theorem Request.oneKey_of_forall {qs : List Request} {k : SharedKey}
    (h : ∀ key h, Request.register key h ∈ qs → key = k) : Request.OneKey qs :=
  fun _ _ _ _ _ hmem hmem' _ _ => (h _ _ hmem).trans (h _ _ hmem').symm

namespace Holdings

variable (files : FileMap) (qs : List Request) (q : Request)

theorem after_concat : after files (qs ++ [q]) = (after files qs).serve q := by
  rw [after, List.foldl_append]
  rfl

theorem serve_of_open {s : Holdings} (hopen : s.registry.isClosed = false) :
    s.serve q =
      ⟨{ s.registry with catalog := (s.registry.catalog.serve q).catalog },
        StateHandle.dispose s.files
          ((s.registry.catalog.serve q).retired.filter (!·.isPlaceholder))⟩ := by
  obtain ⟨-, hdisposed, hregistry⟩ := Registry.transfer_of_open hopen q.transfer
  rw [q.requests_transfer, Catalog.serveEach_singleton] at hdisposed hregistry
  rw [serve, hdisposed, hregistry]

theorem isClosed_after : (after files qs).registry.isClosed = false := by
  induction qs using List.reverseRecOn with
  | nil => rfl
  | append_singleton qs q ih =>
    rw [after_concat, serve_of_open q ih]
    exact ih

theorem registered_of_get? {key : SharedKey} {h : StateHandle}
    (hget : (after files qs).registry.get? key = some h) : .register key h ∈ qs := by
  induction qs using List.reverseRecOn with
  | nil => cases hget
  | append_singleton qs q ih =>
    rw [after_concat, serve_of_open q (isClosed_after files qs)] at hget
    have hsettles := q.transfer.settles (after files qs).registry.catalog
    rw [q.requests_transfer] at hsettles
    have horigin : _ = _ ∨ _ := hsettles.origin (by rwa [Catalog.serveEach_singleton])
    rcases horigin with hold | hnew
    · exact List.mem_append_left _ (ih hold)
    · exact List.mem_append_right _ hnew

theorem removes_iff {s : Holdings} (hopen : s.registry.isClosed = false) (p : Path) :
    s.files.get? p ≠ none ∧ (s.serve q).files.get? p = none ↔
      s.files.get? p = some .removable ∧
        ∃ d ∈ (s.registry.catalog.serve q).retired, d.pointsAt p = true := by
  have hreal : (∃ d ∈ (s.registry.catalog.serve q).retired.filter (!·.isPlaceholder),
      d.pointsAt p = true) ↔ ∃ d ∈ (s.registry.catalog.serve q).retired, d.pointsAt p = true := by
    refine exists_congr fun d => ⟨fun ⟨hd, hp⟩ => ⟨(List.mem_filter.1 hd).1, hp⟩,
      fun ⟨hd, hp⟩ => ⟨List.mem_filter.2 ⟨hd, ?_⟩, hp⟩⟩
    simp [StateHandle.isPlaceholder_of_pointsAt hp]
  rw [serve_of_open q hopen, StateHandle.get?_dispose]
  simp only [hreal]
  split
  · next h => simp [h.1, h.2]
  · next h => exact ⟨fun hp => absurd hp.2 hp.1, fun hp => absurd hp.symm h⟩

theorem spares_iff_retired : (after files qs).Spares q ↔
    ∀ p, (after files qs).files.get? p = some .removable →
      ∀ d ∈ ((after files qs).registry.catalog.serve q).retired, d.pointsAt p = true →
        ∀ key h, ((after files qs).registry.catalog.serve q).catalog.get? key = some h →
          h.pointsAt p = false := by
  have hopen := isClosed_after files qs
  have hget : ((after files qs).serve q).registry.get? =
      ((after files qs).registry.catalog.serve q).catalog.get? := by
    rw [serve_of_open q hopen]
    rfl
  refine forall_congr' fun p => ?_
  rw [← and_imp, removes_iff q hopen, hget]
  exact ⟨fun h hm d hd hp => h ⟨hm, d, hd, hp⟩, fun h ⟨hm, d, hd, hp⟩ => h hm d hd hp⟩

variable {files qs q} {key : SharedKey} {h : StateHandle}

/-- What a release retires had the only key of its file. -/
theorem spares_release (oneKey : Request.OneKey qs) : (after files qs).Spares (.release key) := by
  rw [spares_iff_retired]
  intro p _ d hd hp key' h' hget
  rcases (after files qs).registry.catalog.serve_release key with
    ⟨-, hretired, -⟩ | ⟨d', hold, -, hretired, hafter⟩
  · rw [hretired] at hd
    cases hd
  · rw [hretired, List.mem_singleton] at hd
    subst hd
    rw [hafter] at hget
    split at hget
    · cases hget
    · next hne =>
      refine Bool.eq_false_iff.2 fun hp' => hne ?_
      exact oneKey key' key h' d p (registered_of_get? files qs hget)
        (registered_of_get? files qs hold) hp' hp

theorem spares_register_iff (oneKey : Request.OneKey (qs ++ [.register key h])) :
    (after files qs).Spares (.register key h) ↔ ¬(after files qs).Resizes (.register key h) := by
  have hretired := Catalog.mem_retired_register (after files qs).registry.catalog (key, h)
  have hget := Catalog.get?_register (after files qs).registry.catalog (key, h)
  rw [spares_iff_retired]
  constructor
  · intro hspares hresizes
    cases h with
    | file path size =>
      obtain ⟨hremovable, path', size', hold, hpath, hsize⟩ := hresizes
      have hdiffer : (StateHandle.file path' size' == .file path size) = false := by
        rw [Bool.eq_false_iff, Ne, StateHandle.beq_of_size (Path.beq_iff.1 hpath)]
        exact hsize
      have hkept := congrFun hget key
      rw [Catalog.chosen?, show Catalog.get? _ key = _ from hold, Option.some_or] at hkept
      have hmem := (hretired _).2 ⟨rfl, _, hold, hdiffer⟩
      have hfree := hspares path hremovable _ hmem (BEq.refl path) key _ hkept
      rw [StateHandle.pointsAt, hpath] at hfree
      cases hfree
    | _ => exact hresizes
  · intro hresizes p hremovable d hd hp key' h' hkept
    obtain ⟨rfl, g, hold, hdiffer⟩ := (hretired d).1 hd
    refine Bool.eq_false_iff.2 fun hp' => hresizes ?_
    have hregistered : .register key' h' ∈ qs ++ [.register key d] := by
      refine registered_of_get? files _ ?_
      rw [after_concat, serve_of_open _ (isClosed_after files qs)]
      exact hkept
    -- the handle that points at the file is the one that the key has
    obtain rfl : key' = key := oneKey key' key h' d p hregistered (by simp) hp' hp
    rw [hget, Catalog.chosen?, hold, Option.some_or] at hkept
    obtain rfl : g = h' := Option.some.inj hkept
    obtain ⟨path, size, rfl, hpath⟩ := StateHandle.pointsAt_iff.1 hp
    obtain ⟨path', size', rfl, hpath'⟩ := StateHandle.pointsAt_iff.1 hp'
    have hsame : path'.parts = path.parts := hpath'.trans hpath.symm
    refine ⟨?_, path', size', hold, Path.beq_iff.2 hsame, fun hsize => ?_⟩
    · rw [FileMap.get?, hpath]
      exact hremovable
    · rw [(StateHandle.beq_of_size hsame).2 hsize] at hdiffer
      cases hdiffer

/-- As long as no file has two keys, a request removes no file that the registry still points at,
except if it registers a file under a key that has it with another size. -/
theorem spares_iff (oneKey : Request.OneKey (qs ++ [q])) :
    (after files qs).Spares q ↔ ¬(after files qs).Resizes q := by
  cases q with
  | register key h => exact spares_register_iff oneKey
  | release key =>
    have hqs : Request.OneKey qs := fun key key' h h' p hmem hmem' =>
      oneKey key key' h h' p (List.mem_append_left _ hmem) (List.mem_append_left _ hmem')
    exact iff_of_true (spares_release hqs) id

/-- A path can be written in different ways. -/
theorem spares_iff_rewritten :
    let qs : List Request := [.register "k" (.file ⟨"a/b"⟩ 1)]
    let q : Request := .register "k" (.file ⟨"a//b"⟩ 1)
    let s := after ⟨fun _ => some .removable⟩ qs
    Request.OneKey (qs ++ [q]) ∧ ¬s.Resizes q ∧ s.Spares q := by
  intro qs q s
  have oneKey : Request.OneKey (qs ++ [q]) := Request.oneKey_of_forall fun key h hmem => by
    rcases List.mem_pair.1 hmem with heq | heq <;> exact (Request.register.inj heq).1
  have hresizes : ¬s.Resizes q := by
    rintro ⟨-, path, size, hold, -, hsize⟩
    have hfirst : some (StateHandle.file ⟨"a/b"⟩ 1) = some (.file path size) := hold
    cases hfirst
    exact hsize rfl
  exact ⟨oneKey, hresizes, (spares_iff oneKey).2 hresizes⟩

/-- A file that is registered again with another size is removed, and the registry still points at
it. -/
theorem spares_fails :
    let qs : List Request := [.register "k" (.file ⟨"f"⟩ 1)]
    let q : Request := .register "k" (.file ⟨"f"⟩ 2)
    let s := after ⟨fun _ => some .removable⟩ qs
    Request.OneKey (qs ++ [q]) ∧ (s.serve q).registry.get? "k" = some (.file ⟨"f"⟩ 1) ∧
      s.files.get? ⟨"f"⟩ = some .removable ∧ (s.serve q).files.get? ⟨"f"⟩ = none ∧ ¬s.Spares q := by
  intro qs q s
  have hkept : (s.serve q).registry.get? "k" = some (.file ⟨"f"⟩ 1) := rfl
  have hgone : (s.serve q).files.get? ⟨"f"⟩ = none := by decide
  refine ⟨?_, hkept, rfl, hgone, fun hspares => ?_⟩
  · refine Request.oneKey_of_forall (k := "k") fun key h hmem => ?_
    rcases List.mem_pair.1 hmem with heq | heq <;> exact (Request.register.inj heq).1
  · have hfree := hspares ⟨"f"⟩ nofun hgone "k" _ hkept
    exact absurd hfree (by decide)

end Holdings

end StreamCheckpoint
