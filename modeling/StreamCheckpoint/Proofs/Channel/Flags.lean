/-! One flag for each channel.  Channels beyond the last have their flag down. -/

namespace StreamCheckpoint

variable {xs ys : List Bool}

theorem getD_set (xs : List Bool) (i j : Nat) (b : Bool) :
    (xs.set i b).getD j false = if i = j ∧ i < xs.length then b else xs.getD j false := by
  simp only [List.getD_eq_getElem?_getD, List.getElem?_set]
  by_cases hij : i = j
  · subst hij
    by_cases hi : i < xs.length <;> simp [hi]
  · simp [hij]

theorem getD_of_lt {c : Nat} (h : c < xs.length) : xs.getD c false = xs[c] := by
  rw [List.getD_eq_getElem?_getD, List.getElem?_eq_getElem h, Option.getD_some]

theorem all_iff_getD : xs.all id = true ↔ ∀ c < xs.length, xs.getD c false = true := by
  rw [List.all_eq_true]
  constructor
  · intro h c hc
    rw [getD_of_lt hc]
    exact h _ (List.getElem_mem hc)
  · intro h x hx
    obtain ⟨c, hc, rfl⟩ := List.getElem_of_mem hx
    rw [id, ← getD_of_lt hc]
    exact h c hc

theorem any_iff_getD : xs.any id = true ↔ ∃ c < xs.length, xs.getD c false = true := by
  rw [List.any_eq_true]
  constructor
  · rintro ⟨x, hx, h⟩
    obtain ⟨c, hc, rfl⟩ := List.getElem_of_mem hx
    exact ⟨c, hc, by rwa [getD_of_lt hc]⟩
  · rintro ⟨c, hc, h⟩
    rw [getD_of_lt hc] at h
    exact ⟨_, List.getElem_mem hc, h⟩

theorem zip_all_iff_getD (hlen : xs.length = ys.length) :
    ((xs.zip ys).all fun p => p.1 || p.2) = true ↔
      ∀ c < xs.length, xs.getD c false = true ∨ ys.getD c false = true := by
  rw [List.all_eq_true]
  constructor
  · intro h c hc
    have hz : c < (xs.zip ys).length := by rw [List.length_zip]; omega
    have hor := h _ (List.getElem_mem hz)
    rwa [List.getElem_zip, Bool.or_eq_true, ← getD_of_lt hc, ← getD_of_lt (hlen ▸ hc)] at hor
  · intro h p hp
    obtain ⟨c, hc, rfl⟩ := List.getElem_of_mem hp
    have hx : c < xs.length := by rw [List.length_zip] at hc; omega
    rw [List.getElem_zip, Bool.or_eq_true, ← getD_of_lt hx, ← getD_of_lt (hlen ▸ hx)]
    exact h c hx

theorem countP_eq_range (p : Bool → Bool) (xs : List Bool) :
    xs.countP p = (List.range xs.length).countP fun c => p (xs.getD c false) := by
  have hmap : (List.range xs.length).map (xs.getD · false) = xs := by
    refine List.ext_getElem (by simp) fun c _ hc => ?_
    rw [List.getElem_map, List.getElem_range, getD_of_lt hc]
  rw [← Function.comp_def p, ← List.countP_map, hmap]

/-- The flags, with those of the channels in `p` up as well. -/
def raised (xs : List Bool) (p : Nat → Bool) : List Bool := xs.mapIdx fun c x => x || p c

@[simp] theorem length_raised (xs : List Bool) (p : Nat → Bool) :
    (raised xs p).length = xs.length := List.length_mapIdx

theorem getD_raised {c : Nat} (h : c < xs.length) (p : Nat → Bool) :
    (raised xs p).getD c false = (xs.getD c false || p c) := by
  rw [getD_of_lt (by simpa using h), getD_of_lt h]
  exact List.getElem_mapIdx

@[simp] theorem raised_false (xs : List Bool) : (raised xs fun _ => false) = xs := by
  refine List.ext_getElem (by simp) fun c _ _ => ?_
  simp [raised]

theorem set_raised (xs : List Bool) (p : Nat → Bool) (i : Nat) :
    (raised xs p).set i true = raised xs fun c => p c || c == i := by
  refine List.ext_getElem (by simp) fun c _ _ => ?_
  rw [List.getElem_set]
  by_cases hc : i = c
  · simp [raised, hc]
  · have other : (c == i) = false := beq_false_of_ne (Ne.symm hc)
    simp [raised, hc, other]

end StreamCheckpoint
