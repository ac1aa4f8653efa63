import StreamCheckpoint.Proofs.SharedState.Files

/-! What a snapshot owns, and how it is discarded.  Every file that the snapshot owns is tried, and
a failure does not keep the others from being removed.  What cannot be removed stays where it is, so
that the first failure can be told beforehand (`discardEach_eq`), and a second try finds nothing
more to do (`discardPrivate_exact`). -/

namespace StreamCheckpoint

namespace Table

variable {α β : Type} {t : Table α} {f : α → Option β}

/-- The entries before another one are those with lesser names. -/
theorem lt_iff_mem_before {before after : List (String × α)} {name : String} {v : α}
    (split : t.entries = before ++ (name, v) :: after) {e : String × α} (he : e ∈ t.entries) :
    e.1 < name ↔ e ∈ before := by
  have hascending := t.ascending
  simp only [split, List.map_append, List.map_cons, List.pairwise_append, List.pairwise_cons,
    List.forall_mem_map, List.forall_mem_cons] at hascending
  obtain ⟨-, ⟨hafter, -⟩, hbefore⟩ := hascending
  refine ⟨fun hlt => ?_, fun hmem => (hbefore e hmem).1⟩
  rw [split, List.mem_append, List.mem_cons] at he
  rcases he with hmem | rfl | hmem
  · exact hmem
  · exact absurd hlt (String.lt_irrefl _)
  · exact absurd (String.lt_trans hlt (hafter e hmem)) (String.lt_irrefl _)

/-- The first value for which there is an answer is the one with the least name. -/
theorem findSome?_values_eq_some {b : β} : t.values.findSome? f = some b ↔
    ∃ name v, t.get? name = some v ∧ f v = some b ∧
      ∀ name' v', t.get? name' = some v' → name' < name → f v' = none := by
  rw [values, List.findSome?_map, List.findSome?_eq_some_iff]
  constructor
  · rintro ⟨before, ⟨name, v⟩, after, hsplit, hv, hbefore⟩
    refine ⟨name, v, mem_entries.1 (by simp [hsplit]), hv, fun name' v' hget hlt => ?_⟩
    exact hbefore (name', v') ((lt_iff_mem_before hsplit (mem_entries.2 hget)).1 hlt)
  · rintro ⟨name, v, hget, hv, hleast⟩
    obtain ⟨before, after, hsplit⟩ := List.append_of_mem (mem_entries.2 hget)
    refine ⟨before, (name, v), after, hsplit, hv, fun e he => ?_⟩
    have hmem : e ∈ t.entries := hsplit ▸ List.mem_append_left _ he
    exact hleast e.1 e.2 (mem_entries.1 hmem) ((lt_iff_mem_before hsplit hmem).2 he)

theorem findSome?_values_eq_none :
    t.values.findSome? f = none ↔ ∀ name v, t.get? name = some v → f v = none := by
  simp only [values, List.findSome?_map, List.findSome?_eq_none_iff, Prod.forall, mem_entries,
    Function.comp_apply]

theorem mem_values {v : α} : v ∈ t.values ↔ ∃ name, t.get? name = some v := by
  simp only [values, List.mem_map, Prod.exists, mem_entries, exists_eq_right]

end Table

namespace StateHandle

/-- Why the file that the handle points at cannot be removed. -/
def obstacle? (m : FileMap) : StateHandle → Option IoError
  | file path _ =>
    match m.get? path with
    | some (.fixed e) => some e
    | _ => none
  | _ => none

variable {m : FileMap} {h : StateHandle}

theorem obstacle?_eq_some {e : IoError} :
    h.obstacle? m = some e ↔ ∃ p, h.pointsAt p = true ∧ m.get? p = some (.fixed e) := by
  cases h with
  | file path size =>
    have hsame : ∀ p : Path, path.parts = p.parts → m.get? path = m.get? p :=
      fun p hp => congrArg m.at? hp
    constructor
    · intro he
      refine ⟨path, BEq.refl path, ?_⟩
      simp only [obstacle?] at he
      split at he
      · next hfixed => rw [hfixed, Option.some.inj he]
      · cases he
    · rintro ⟨p, hp, hfixed⟩
      rw [pointsAt, Path.beq_iff] at hp
      simp only [obstacle?, hsame p hp, hfixed]
  | _ => simp [obstacle?, pointsAt]

/-- Discarding a handle fails if its file cannot be removed, and only then. -/
theorem answer_discard (m : FileMap) (h : StateHandle) :
    (h.discard m).1 = match h.obstacle? m with
      | some e => .error e
      | none => .ok () := by
  cases h with
  | file path size =>
    show (m.remove path).1.result = _
    rw [obstacle?, FileMap.remove]
    cases m.get? path with
    | none => rfl
    | some entry => cases entry <;> rfl
  | _ => rfl

/-- Disposing of handles does not change what cannot be removed. -/
theorem obstacle?_dispose (m : FileMap) (hs : List StateHandle) (h : StateHandle) :
    h.obstacle? (dispose m hs) = h.obstacle? m := by
  refine Option.ext fun e => ?_
  rw [obstacle?_eq_some, obstacle?_eq_some]
  refine exists_congr fun p => and_congr_right fun _ => ?_
  rw [get?_dispose]
  split
  · next hremoved => simp [hremoved.2]
  · rfl

theorem discard_of_absent {m : FileMap} {h : StateHandle}
    (absent : ∀ p, h.pointsAt p = true → m.get? p ≠ some .removable) : (h.discard m).2 = m := by
  cases h with
  | file path size =>
    have hpath := absent path (BEq.refl path)
    show (m.remove path).2 = m
    rw [FileMap.remove]
    cases hget : m.get? path with
    | none => rfl
    | some entry =>
      cases entry with
      | removable => exact absurd hget hpath
      | fixed e => rfl
  | _ => rfl

/-- All handles are discarded, and the answer is the first of the failures that were there from the
beginning. -/
theorem discardEach_eq (m : FileMap) (hs : List StateHandle) :
    discardEach m hs = (hs.findSome? (·.obstacle? m), dispose m hs) := by
  induction hs generalizing m with
  | nil => rfl
  | cons h hs ih =>
    have hlater : (hs.findSome? fun g => g.obstacle? (h.discard m).2) =
        hs.findSome? fun g => g.obstacle? m :=
      congrArg (hs.findSome? ·) (funext fun g => obstacle?_dispose m [h] g)
    simp only [discardEach, ih, hlater, answer_discard m h, List.findSome?_cons]
    cases h.obstacle? m <;> rfl

theorem dispose_of_absent {m : FileMap} {hs : List StateHandle}
    (absent : ∀ h ∈ hs, ∀ p, h.pointsAt p = true → m.get? p ≠ some .removable) :
    dispose m hs = m := by
  induction hs with
  | nil => rfl
  | cons h hs ih =>
    obtain ⟨hfirst, hrest⟩ := List.forall_mem_cons.1 absent
    rw [dispose, List.foldl_cons, discard_of_absent hfirst]
    exact ih hrest

/-- A second try changes nothing, and fails where the first one did. -/
theorem discardEach_again (m : FileMap) (hs : List StateHandle) :
    discardEach (discardEach m hs).2 hs = discardEach m hs := by
  have habsent : ∀ h ∈ hs, ∀ p, h.pointsAt p = true →
      (dispose m hs).get? p ≠ some .removable := by
    intro h hh p hp hremovable
    rw [get?_dispose] at hremovable
    split at hremovable
    · cases hremovable
    · next hkept => exact hkept ⟨⟨h, hh, hp⟩, hremovable⟩
  rw [discardEach_eq m hs, discardEach_eq, dispose_of_absent habsent]
  simp only [obstacle?_dispose]

end StateHandle

namespace KeyedSnapshot

/-- Whether a handle that belongs to the snapshot alone points at the path. -/
def Owns (s : KeyedSnapshot) (p : Path) : Prop :=
  (∃ name h, s.privateFiles.get? name = some h ∧ h.pointsAt p = true) ∨
    s.metadata.pointsAt p = true

/-- `e` is why the first file that the snapshot owns and that cannot be removed stays: the private
files come in the order of their names, and the description comes last. -/
def FailsFirst (s : KeyedSnapshot) (m : FileMap) (e : IoError) : Prop :=
  (∃ name h, s.privateFiles.get? name = some h ∧ h.obstacle? m = some e ∧
    ∀ name' h', s.privateFiles.get? name' = some h' → name' < name → h'.obstacle? m = none) ∨
  (∀ name h, s.privateFiles.get? name = some h → h.obstacle? m = none) ∧
    s.metadata.obstacle? m = some e

/-- The handles that belong to the snapshot alone, in the order in which they are discarded. -/
def owned (s : KeyedSnapshot) : List StateHandle := s.privateFiles.values ++ [s.metadata]

section Owned

variable (s : KeyedSnapshot) (m : FileMap)

theorem owns_iff {p : Path} : s.Owns p ↔ ∃ h ∈ s.owned, h.pointsAt p = true := by
  simp only [owned, Owns, List.mem_append, List.mem_singleton, Table.mem_values, or_and_right,
    exists_or, exists_eq_left, ← exists_and_right]
  rw [exists_comm]

theorem findSome?_owned_eq_some {e : IoError} :
    s.owned.findSome? (·.obstacle? m) = some e ↔ s.FailsFirst m e := by
  rw [owned, List.findSome?_append, Option.or_eq_some_iff, Table.findSome?_values_eq_some,
    Table.findSome?_values_eq_none, List.findSome?_singleton, FailsFirst]

theorem findSome?_owned_eq_none : s.owned.findSome? (·.obstacle? m) = none ↔
    ∀ p e, s.Owns p → m.get? p ≠ some (.fixed e) := by
  rw [List.findSome?_eq_none_iff]
  constructor
  · intro hnone p e howns hfixed
    obtain ⟨h, hh, hp⟩ := s.owns_iff.1 howns
    have hobstacle := StateHandle.obstacle?_eq_some.2 ⟨p, hp, hfixed⟩
    rw [hnone h hh] at hobstacle
    cases hobstacle
  · intro hnone h hh
    refine Option.eq_none_iff_forall_ne_some.2 fun e he => ?_
    obtain ⟨p, hp, hfixed⟩ := StateHandle.obstacle?_eq_some.1 he
    exact hnone p e (s.owns_iff.2 ⟨h, hh, hp⟩) hfixed

theorem discardPrivate_eq : s.discardPrivate m =
    (match s.owned.findSome? (·.obstacle? m) with
      | some e => .error (.io e)
      | none => .ok (), StateHandle.dispose m s.owned) := by
  rw [discardPrivate, ← owned, StateHandle.discardEach_eq]
  cases s.owned.findSome? (·.obstacle? m) <;> rfl

end Owned

/-- However the files are spread over paths, and whichever of them cannot be removed: a path that
the snapshot owns has no removable file any more, and every other path, or one where nothing could
be removed, leads to what it led to before.  Discarding succeeds if no path that the snapshot owns
is in the way; otherwise it fails with the first obstacle.  To discard once more comes to the same
answer and changes nothing. -/
theorem discardPrivate_exact (s : KeyedSnapshot) (m : FileMap) :
    let r := s.discardPrivate m
    (∀ p, s.Owns p → m.get? p = some .removable → r.2.get? p = none) ∧
    (∀ p, ¬(s.Owns p ∧ m.get? p = some .removable) → r.2.get? p = m.get? p) ∧
    (r.1 = .ok () ↔ ∀ p e, s.Owns p → m.get? p ≠ some (.fixed e)) ∧
    (∀ x, r.1 = .error x ↔ ∃ e, x = .io e ∧ s.FailsFirst m e) ∧
    s.discardPrivate r.2 = r := by
  intro r
  have hagain : s.discardPrivate r.2 = r := by
    have heach := StateHandle.discardEach_again m s.owned
    show s.discardPrivate (StateHandle.discardEach m s.owned).2 = s.discardPrivate m
    rw [discardPrivate, ← owned, heach]
    rfl
  have hfiles : r.2 = StateHandle.dispose m s.owned := congrArg Prod.snd (s.discardPrivate_eq m)
  have hanswer := congrArg Prod.fst (s.discardPrivate_eq m)
  refine ⟨fun p howns hremovable => ?_, fun p hnot => ?_, ?_, fun x => ?_, hagain⟩
  · rw [hfiles, StateHandle.get?_dispose, if_pos ⟨(s.owns_iff).1 howns, hremovable⟩]
  · rw [hfiles, StateHandle.get?_dispose, if_neg (by rwa [← owns_iff])]
  · rw [← findSome?_owned_eq_none]
    show (s.discardPrivate m).1 = _ ↔ _
    rw [hanswer]
    cases s.owned.findSome? (·.obstacle? m) <;> simp
  · simp only [← findSome?_owned_eq_some]
    show (s.discardPrivate m).1 = _ ↔ _
    rw [hanswer]
    cases s.owned.findSome? (·.obstacle? m) <;> simp [eq_comm]

end KeyedSnapshot

end StreamCheckpoint
