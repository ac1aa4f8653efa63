import StreamCheckpoint.Proofs.SharedState.Requests

/-! Histories: what was done to the references of a registry.  How many references a key has, and
which handle is kept under it, is read off a history alone.  `keeper?` computes the handle, and
`Keeps` says which one it is: that of the first registration since the key last had no reference
(`keeper?_eq_some`). -/

namespace StreamCheckpoint

/-- What was done, the latest deed first. -/
abbrev History := List Deed

/-- The handle that a deed registers under `key`. -/
def Deed.handle? (key : SharedKey) : Deed → Option StateHandle
  | registered k h _ => if k = key then some h else none
  | _ => none

namespace History

/-- The number of references to `key` that were taken since all keys were last forgotten. -/
def registrations (key : SharedKey) : History → Nat
  | [] => 0
  | .cleared :: _ => 0
  | .registered k _ _ :: past =>
    if k = key then registrations key past + 1 else registrations key past
  | .released _ _ :: past => registrations key past
  | .refused _ _ :: past => registrations key past

/-- The number of references to `key` that were released since all keys were last forgotten. -/
def releases (key : SharedKey) : History → Nat
  | [] => 0
  | .cleared :: _ => 0
  | .registered _ _ _ :: past => releases key past
  | .released k _ :: past => if k = key then releases key past + 1 else releases key past
  | .refused _ _ :: past => releases key past

/-- The handle that was registered under `key` when it last had no reference, if it has any now. -/
def keeper? (key : SharedKey) : History → Option StateHandle
  | [] => none
  | d :: past =>
    if releases key (d :: past) < registrations key (d :: past) then
      (keeper? key past).or (d.handle? key)
    else none

/-- `h` is the handle of the first registration of `key` since it last had no reference. -/
def Keeps (history : History) (key : SharedKey) (h : StateHandle) : Prop :=
  ∃ later answer past, history = later ++ .registered key h answer :: past ∧
    registrations key past = releases key past ∧
    ∀ recent, recent <:+ later →
      releases key (recent ++ .registered key h answer :: past) <
        registrations key (recent ++ .registered key h answer :: past)

variable {key : SharedKey} {d : Deed} {past : History}

theorem handle?_eq_some {h : StateHandle} :
    d.handle? key = some h ↔ ∃ a, d = .registered key h a := by
  cases d with
  | registered k g a =>
    by_cases hk : k = key <;> simp [Deed.handle?, hk]
  | _ => simp [Deed.handle?]

/-- A deed that registers nothing under a key gives it no reference. -/
theorem referenced_of_past (hh : d.handle? key = none)
    (h : releases key (d :: past) < registrations key (d :: past)) :
    releases key past < registrations key past := by
  cases d with
  | registered k g a =>
    have hk : k ≠ key := fun hk => by simp [Deed.handle?, hk] at hh
    simpa [releases, registrations, hk] using h
  | released k a =>
    simp only [releases, registrations] at h
    split at h <;> omega
  | refused k e => exact h
  | cleared => simp [releases, registrations] at h

theorem keeper?_of_referenced (h : releases key (d :: past) < registrations key (d :: past)) :
    keeper? key (d :: past) = (keeper? key past).or (d.handle? key) := if_pos h

theorem keeper?_of_not_referenced
    (h : ¬releases key (d :: past) < registrations key (d :: past)) :
    keeper? key (d :: past) = none := if_neg h

theorem isSome_keeper? {history : History} :
    (keeper? key history).isSome ↔ releases key history < registrations key history := by
  induction history with
  | nil => simp [keeper?, releases, registrations]
  | cons d past ih =>
    by_cases h : releases key (d :: past) < registrations key (d :: past)
    · simp only [keeper?_of_referenced h, h, iff_true, Option.isSome_or, Bool.or_eq_true]
      cases hh : d.handle? key with
      | some g => exact .inr rfl
      | none => exact .inl (ih.2 (referenced_of_past hh h))
    · simp [keeper?_of_not_referenced h, h]

theorem keeper?_eq_none {history : History} :
    keeper? key history = none ↔ ¬releases key history < registrations key history := by
  rw [← isSome_keeper?, Option.not_isSome_iff_eq_none]

/-- A deed that does not change the references to a key leaves its handle. -/
theorem keeper?_frame (hh : d.handle? key = none)
    (hu : releases key (d :: past) = releases key past)
    (hr : registrations key (d :: past) = registrations key past) :
    keeper? key (d :: past) = keeper? key past := by
  by_cases h : releases key past < registrations key past
  · rw [keeper?_of_referenced (by rwa [hu, hr]), hh, Option.or_none]
  · rw [keeper?_of_not_referenced (by rwa [hu, hr])]
    exact (keeper?_eq_none.2 h).symm

/-- What keeps a handle through one more deed, and what makes it the one that is kept. -/
theorem keeps_cons {h : StateHandle} : Keeps (d :: past) key h ↔
    releases key (d :: past) < registrations key (d :: past) ∧
      (Keeps past key h ∨
        ¬releases key past < registrations key past ∧ ∃ a, d = .registered key h a) := by
  constructor
  · rintro ⟨later, a, first, heq, hzero, hpos⟩
    cases later with
    | nil =>
      -- the deed is the first registration itself
      obtain ⟨rfl, rfl⟩ := List.cons_eq_cons.1 heq
      exact ⟨hpos [] (List.suffix_refl _), .inr ⟨by omega, a, rfl⟩⟩
    | cons e later =>
      obtain ⟨rfl, rfl⟩ := List.cons_eq_cons.1 heq
      exact ⟨hpos _ (List.suffix_refl _), .inl ⟨later, a, first, rfl, hzero, fun recent hr =>
        hpos recent (hr.trans (List.suffix_cons ..))⟩⟩
  · rintro ⟨hd, ⟨later, a, first, rfl, hzero, hpos⟩ | ⟨hnot, a, rfl⟩⟩
    · refine ⟨d :: later, a, first, rfl, hzero, fun recent hr => ?_⟩
      rcases List.suffix_cons_iff.1 hr with rfl | hr
      · exact hd
      · exact hpos recent hr
    · refine ⟨[], a, past, rfl, ?_, fun recent hr => ?_⟩
      · simp only [registrations, releases, if_true] at hd
        omega
      · rw [List.suffix_nil.1 hr]
        exact hd

theorem keeper?_eq_some {history : History} {h : StateHandle} :
    keeper? key history = some h ↔ Keeps history key h := by
  induction history with
  | nil =>
    refine ⟨fun hk => by simp [keeper?] at hk, ?_⟩
    rintro ⟨later, a, past, heq, -⟩
    simp at heq
  | cons d past ih =>
    rw [keeps_cons, ← ih]
    by_cases hd : releases key (d :: past) < registrations key (d :: past)
    · rw [keeper?_of_referenced hd, Option.or_eq_some_iff, keeper?_eq_none, handle?_eq_some]
      simp only [hd, true_and]
    · simp [keeper?_of_not_referenced hd, hd]

end History

end StreamCheckpoint
