import StreamCheckpoint.Channel.Item

/-! What a single channel brings: the part of a script that is its own (`contentsOf`), where it
ends, and where the barriers of a checkpoint are in it. -/

namespace StreamCheckpoint

/-- What `items` bring on `channel`, in order. -/
def contentsOf (channel : Nat) (items : List Item) : List Content :=
  (items.filter (·.channel == channel)).map (·.content)

section Contents

variable {channel : Nat}

@[simp] theorem contentsOf_nil : contentsOf channel [] = [] := rfl

@[simp] theorem contentsOf_append (items more : List Item) :
    contentsOf channel (items ++ more) = contentsOf channel items ++ contentsOf channel more := by
  simp [contentsOf]

theorem contentsOf_cons (item : Item) (items : List Item) :
    contentsOf channel (item :: items) =
      (if item.channel = channel then [item.content] else []) ++ contentsOf channel items := by
  by_cases h : item.channel = channel
  · simp [contentsOf, h]
  · simp [contentsOf, h]

theorem contentsOf_eq_nil {items : List Item} :
    contentsOf channel items = [] ↔ ∀ i ∈ items, i.channel ≠ channel := by
  simp [contentsOf]

theorem lt_of_mem_contentsOf {channels : Nat} {items : List Item} {x : Content}
    (range : ∀ i ∈ items, i.channel < channels) (h : x ∈ contentsOf channel items) :
    channel < channels := by
  obtain ⟨i, hi, -⟩ := List.mem_map.mp h
  obtain ⟨hi, hc⟩ := List.mem_filter.mp hi
  exact beq_iff_eq.mp hc ▸ range i hi

/-- Items of channels that all have nothing left are no items. -/
theorem eq_nil_of_contentsOf {channels : Nat} {items : List Item}
    (range : ∀ i ∈ items, i.channel < channels)
    (h : ∀ c < channels, contentsOf c items = []) : items = [] := by
  cases items with
  | nil => rfl
  | cons i items =>
    have hc := h i.channel (range i List.mem_cons_self)
    rw [contentsOf_eq_nil] at hc
    exact absurd rfl (hc i List.mem_cons_self)

end Contents

namespace Content

/-- The bytes, if the content is a buffer. -/
def buffer? : Content → Option Bytes
  | .buffer bytes => some bytes
  | .event _ => none

/-- The barrier, if the content is one. -/
def barrier? : Content → Option Barrier
  | .event (.barrier b) => some b
  | _ => none

/-- The event for the handler, if the content is one: an event that is no barrier. -/
def handled? : Content → Option Event
  | .buffer _ => none
  | .event (.barrier _) => none
  | .event e => some e

/-- Whether the content is a barrier of the checkpoint `k`. -/
def isBarrierOf (k : Nat) : Content → Bool
  | .event (.barrier b) => b.id == k
  | _ => false

end Content

/-- Nothing comes after the end of the channel. -/
def EndsLast (xs : List Content) : Prop :=
  ∀ before after, xs = before ++ .event .endOfPartition :: after → after = []

theorem EndsLast.eq_nil {xs ys : List Content} (h : EndsLast (xs ++ ys))
    (ended : .event .endOfPartition ∈ xs) : ys = [] := by
  obtain ⟨before, after, rfl⟩ := List.append_of_mem ended
  rw [List.append_assoc, List.cons_append] at h
  exact (List.append_eq_nil_iff.mp (h _ _ rfl)).2

theorem endsLast_iff {xs : List Content} : EndsLast xs ↔ .event .endOfPartition ∉ xs.dropLast := by
  constructor
  · intro h hm
    obtain ⟨before, after, e⟩ := List.append_of_mem hm
    have hne : xs ≠ [] := by
      rintro rfl
      cases hm
    have hx := List.dropLast_concat_getLast hne
    rw [e, List.append_assoc, List.cons_append] at hx
    exact List.append_ne_nil_of_right_ne_nil _ (List.cons_ne_nil _ _) (h _ _ hx.symm)
  · intro h before after e
    refine Classical.not_not.mp fun hne => h ?_
    rw [e, List.dropLast_append_of_ne_nil (List.cons_ne_nil _ _), List.dropLast_cons_of_ne_nil hne]
    simp

instance (xs : List Content) : Decidable (EndsLast xs) := decidable_of_iff _ endsLast_iff.symm

/-- A barrier of the checkpoint `k` is among `xs`. -/
def Carries (k : Nat) (xs : List Content) : Prop := ∃ x ∈ xs, x.isBarrierOf k = true

/-- What comes before the first barrier of the checkpoint `k`, or everything if there is none. -/
def preceding (k : Nat) (xs : List Content) : List Content := xs.takeWhile (!·.isBarrierOf k)

section Barriers

variable {k : Nat} {xs ys : List Content}

theorem not_carries : ¬Carries k xs ↔ ∀ x ∈ xs, x.isBarrierOf k = false := by
  simp [Carries]

@[simp] theorem carries_append : Carries k (xs ++ ys) ↔ Carries k xs ∨ Carries k ys := by
  simp only [Carries, List.mem_append, or_and_right, exists_or]

theorem preceding_append (h : ¬Carries k xs) : preceding k (xs ++ ys) = xs ++ preceding k ys := by
  rw [not_carries] at h
  refine List.takeWhile_append_of_pos fun x hx => ?_
  simp [h x hx]

theorem preceding_of_not_carries (h : ¬Carries k xs) : preceding k xs = xs := by
  have hp := @preceding_append k xs [] h
  rw [List.append_nil] at hp
  rw [hp, preceding, List.takeWhile_nil, List.append_nil]

theorem preceding_barrier {x : Content} (h : ¬Carries k xs) (hx : x.isBarrierOf k = true) :
    preceding k (xs ++ x :: ys) = xs := by
  rw [preceding_append h, preceding, List.takeWhile_cons_of_neg (by simp [hx]), List.append_nil]

end Barriers

/-- The checkpoints of the barriers among `xs`, in order. -/
def checkpoints (xs : List Content) : List Nat := (xs.filterMap (·.barrier?)).map (·.id)

section Checkpoints

variable {k : Nat} {x : Content} {xs ys : List Content}

@[simp] theorem checkpoints_append : checkpoints (xs ++ ys) = checkpoints xs ++ checkpoints ys := by
  simp [checkpoints]

theorem checkpoints_barrier (b : Barrier) : checkpoints [.event (.barrier b)] = [b.id] := rfl

theorem checkpoints_of_ne (h : ∀ b, x ≠ .event (.barrier b)) : checkpoints [x] = [] := by
  cases x with
  | buffer bytes => rfl
  | event e => cases e with
    | barrier b => exact absurd rfl (h b)
    | _ => rfl

theorem isBarrierOf_iff : x.isBarrierOf k = true ↔ ∃ b, x.barrier? = some b ∧ b.id = k := by
  cases x with
  | buffer bytes => simp [Content.isBarrierOf, Content.barrier?]
  | event e => cases e <;> simp [Content.isBarrierOf, Content.barrier?]

theorem mem_checkpoints : k ∈ checkpoints xs ↔ Carries k xs := by
  simp only [checkpoints, Carries, List.mem_map, List.mem_filterMap, isBarrierOf_iff]
  constructor
  · rintro ⟨b, ⟨x, hx, hb⟩, hk⟩
    exact ⟨x, hx, b, hb, hk⟩
  · rintro ⟨x, hx, b, hb, hk⟩
    exact ⟨b, ⟨x, hx, hb⟩, hk⟩

instance (k : Nat) (xs : List Content) : Decidable (Carries k xs) :=
  decidable_of_iff _ mem_checkpoints

end Checkpoints

end StreamCheckpoint
