/-! Tables: values under names, each name once, in the order of the names. -/

namespace StreamCheckpoint

/-- Values under names. -/
structure Table (α : Type) where
  /-- The names with their values. -/
  entries : List (String × α)
  ascending : (entries.map (·.1)).Pairwise (· < ·)
deriving Repr

namespace Table

variable {α : Type}

/-- The table without names. -/
def empty : Table α := ⟨[], .nil⟩

/-- Two tables are equal if they have the same names and equal values. -/
instance [BEq α] : BEq (Table α) where
  beq s t := s.entries == t.entries

def names (t : Table α) : List String := t.entries.map (·.1)

def values (t : Table α) : List α := t.entries.map (·.2)

def size (t : Table α) : Nat := t.entries.length

def isEmpty (t : Table α) : Bool := t.entries.isEmpty

def get? (t : Table α) (name : String) : Option α := t.entries.lookup name

/-- Puts a value under a name into a list of entries, before the first greater name. -/
def insertEntry (name : String) (value : α) : List (String × α) → List (String × α)
  | [] => [(name, value)]
  | e :: rest =>
    if name < e.1 then (name, value) :: e :: rest
    else if name = e.1 then (name, value) :: rest
    else e :: insertEntry name value rest

theorem mem_insertEntry {name x : String} {value : α} {es : List (String × α)}
    (h : x ∈ (insertEntry name value es).map (·.1)) : x = name ∨ x ∈ es.map (·.1) := by
  induction es with
  | nil => simpa [insertEntry] using h
  | cons e es ih =>
    simp only [insertEntry] at h
    split at h
    · simpa using h
    · split at h
      · simp only [List.map_cons, List.mem_cons] at h ⊢
        exact h.imp_right .inr
      · simp only [List.map_cons, List.mem_cons] at h ⊢
        rcases h with h | h
        · exact .inr (.inl h)
        · exact (ih h).imp_right .inr

theorem ascending_insertEntry (name : String) (value : α) {es : List (String × α)}
    (h : (es.map (·.1)).Pairwise (· < ·)) :
    ((insertEntry name value es).map (·.1)).Pairwise (· < ·) := by
  induction es with
  | nil => exact List.pairwise_singleton ..
  | cons e es ih =>
    obtain ⟨he, hes⟩ := List.pairwise_cons.1 h
    simp only [insertEntry]
    split
    · next hlt =>
      refine List.pairwise_cons.2 ⟨fun x hx => ?_, h⟩
      rcases List.mem_cons.1 hx with rfl | hx
      · exact hlt
      · exact String.lt_trans hlt (he x hx)
    · next hlt =>
      split
      · next heq => exact List.pairwise_cons.2 ⟨fun x hx => heq ▸ he x hx, hes⟩
      · next hne =>
        refine List.pairwise_cons.2 ⟨fun x hx => ?_, ih hes⟩
        rcases mem_insertEntry hx with rfl | hx
        · exact Std.lt_of_le_of_ne (String.not_lt.1 hlt) (Ne.symm hne)
        · exact he x hx

/-- Puts a value under a name, in place of the one that was there. -/
def insert (t : Table α) (name : String) (value : α) : Table α where
  entries := insertEntry name value t.entries
  ascending := ascending_insertEntry name value t.ascending

def erase (t : Table α) (name : String) : Table α where
  entries := t.entries.filter (·.1 != name)
  ascending := t.ascending.sublist (List.filter_sublist.map _)

/-- The table of some entries; of two with the same name the later one counts. -/
def ofList (es : List (String × α)) : Table α := es.foldl (fun t e => t.insert e.1 e.2) empty

/-- Other values under the names of a table. -/
def withEntries {β : Type} (t : Table α) (entries : List (String × β))
    (h : entries.map (·.1) = t.names) : Table β where
  entries
  ascending := h ▸ t.ascending

theorem lookup_entry (name : String) (e : String × α) (es : List (String × α)) :
    (e :: es).lookup name = if name = e.1 then some e.2 else es.lookup name := by
  obtain ⟨n, v⟩ := e
  by_cases h : name = n
  · simp [h]
  · simp [List.lookup_cons, h, beq_false_of_ne h]

theorem get?_insert (t : Table α) (name other : String) (value : α) :
    (t.insert name value).get? other = if other = name then some value else t.get? other := by
  simp only [get?, insert]
  generalize t.entries = es
  induction es with
  | nil => simp [insertEntry, lookup_entry]
  | cons e es ih =>
    simp only [insertEntry]
    split
    · simp [lookup_entry]
    · split
      · next heq => by_cases h : other = name <;> simp [lookup_entry, h, ← heq]
      · next hne => by_cases h : other = e.1 <;> simp [lookup_entry, h, ih, Ne.symm hne]

theorem get?_erase (t : Table α) (name other : String) :
    (t.erase name).get? other = if other = name then none else t.get? other := by
  simp only [get?, erase]
  generalize t.entries = es
  induction es with
  | nil => simp
  | cons e es ih =>
    by_cases he : e.1 = name
    · by_cases h : other = name
      · simpa [he, h] using ih
      · simp [lookup_entry, ih, he, h]
    · by_cases h : other = e.1 <;> simp [lookup_entry, ih, he, h]

theorem isSome_lookup {name : String} {es : List (String × α)} :
    (es.lookup name).isSome ↔ name ∈ es.map (·.1) := by
  induction es with
  | nil => simp
  | cons e es ih => by_cases h : name = e.1 <;> simp [lookup_entry, h, ih]

theorem mem_names {t : Table α} {name : String} : name ∈ t.names ↔ (t.get? name).isSome :=
  isSome_lookup.symm

theorem nodup_names (t : Table α) : t.names.Nodup := by
  refine List.Pairwise.imp (fun {a b} h e => ?_) t.ascending
  exact String.lt_irrefl b (e ▸ h)

theorem length_names (t : Table α) : t.names.length = t.size := List.length_map ..

theorem mem_entries {t : Table α} {name : String} {value : α} :
    (name, value) ∈ t.entries ↔ t.get? name = some value := by
  obtain ⟨es, hes⟩ := t
  simp only [get?]
  induction es with
  | nil => simp
  | cons e es ih =>
    obtain ⟨hlt, hes⟩ := List.pairwise_cons.1 hes
    rw [List.mem_cons, lookup_entry, ih hes]
    by_cases h : name = e.1
    · -- the names after the first one are greater
      have hrest : es.lookup name = none := by
        rw [← Option.not_isSome_iff_eq_none, isSome_lookup]
        exact fun hmem => String.lt_irrefl _ (hlt e.1 (h ▸ hmem))
      rw [hrest, if_pos h]
      simp [h, Prod.ext_iff, eq_comm]
    · simp [h, Prod.ext_iff]

/-- The entries of ascending names are what a lookup finds. -/
theorem entries_ext {es es' : List (String × α)} (h : (es.map (·.1)).Pairwise (· < ·))
    (h' : (es'.map (·.1)).Pairwise (· < ·)) (heq : ∀ name, es.lookup name = es'.lookup name) :
    es = es' := by
  induction es generalizing es' with
  | nil =>
    cases es' with
    | nil => rfl
    | cons e' es' => simpa [lookup_entry] using heq e'.1
  | cons e es ih =>
    cases es' with
    | nil => simpa [lookup_entry] using heq e.1
    | cons e' es' =>
      obtain ⟨hlt, hes⟩ := List.pairwise_cons.1 h
      obtain ⟨hlt', hes'⟩ := List.pairwise_cons.1 h'
      -- each first name is in the other table, and the names after it are greater
      have hname : e.1 = e'.1 := by
        have hmem : e.1 ∈ (e' :: es').map (·.1) := isSome_lookup.1 (by simp [← heq, lookup_entry])
        have hmem' : e'.1 ∈ (e :: es).map (·.1) := isSome_lookup.1 (by simp [heq, lookup_entry])
        rcases List.mem_cons.1 hmem with hfirst | hrest
        · exact hfirst
        rcases List.mem_cons.1 hmem' with hfirst | hrest'
        · exact hfirst.symm
        exact absurd (String.lt_trans (hlt _ hrest') (hlt' _ hrest)) (String.lt_irrefl _)
      have hvalue : e.2 = e'.2 := by simpa [lookup_entry, hname] using heq e.1
      refine List.cons_eq_cons.2 ⟨Prod.ext hname hvalue, ih hes hes' fun name => ?_⟩
      by_cases hn : name = e.1
      · have hnone : ∀ {rest : List (String × α)}, (∀ n ∈ rest.map (·.1), e.1 < n) →
            rest.lookup name = none := fun hlt => by
          rw [← Option.not_isSome_iff_eq_none, isSome_lookup]
          exact fun hmem => String.lt_irrefl _ (hlt e.1 (hn ▸ hmem))
        rw [hnone hlt, hnone (hname ▸ hlt')]
      · simpa [lookup_entry, hn, ← hname] using heq name

theorem ext_get? {s t : Table α} (h : ∀ name, s.get? name = t.get? name) : s = t := by
  obtain ⟨es, hes⟩ := s
  obtain ⟨es', hes'⟩ := t
  obtain rfl := entries_ext hes hes' h
  rfl

theorem insertEntry_of_lt {name : String} {es : List (String × α)}
    (h : ∀ e ∈ es, e.1 < name) (value : α) :
    insertEntry name value es = es ++ [(name, value)] := by
  induction es with
  | nil => rfl
  | cons e es ih =>
    obtain ⟨he, hes⟩ := List.forall_mem_cons.1 h
    have hne : name ≠ e.1 := fun heq => String.lt_irrefl name (by rwa [← heq] at he)
    rw [insertEntry, if_neg (String.lt_asymm he), if_neg hne, ih hes, List.cons_append]

theorem entries_foldl_insert {t : Table α} {es : List (String × α)}
    (h : ((t.entries ++ es).map (·.1)).Pairwise (· < ·)) :
    (es.foldl (fun t e => t.insert e.1 e.2) t).entries = t.entries ++ es := by
  induction es generalizing t with
  | nil => simp
  | cons e es ih =>
    have hlast : (t.insert e.1 e.2).entries = t.entries ++ [e] :=
      insertEntry_of_lt (fun a ha => (List.pairwise_append.1 (List.map_append ▸ h)).2.2 _
        (List.mem_map_of_mem ha) _ (.head _)) e.2
    rw [List.foldl_cons, ih (by rwa [hlast, List.append_assoc]), hlast, List.append_assoc]
    rfl

theorem ofList_of_ascending {es : List (String × α)}
    (h : (es.map (·.1)).Pairwise (· < ·)) : ofList es = ⟨es, h⟩ := by
  have hentries : (ofList es).entries = es := entries_foldl_insert (t := empty) h
  cases hofList : ofList es
  simp only [hofList] at hentries
  simp only [hentries]

/-- A new name adds its value to the values. -/
theorem values_insert_of_none {t : Table α} {name : String} (h : t.get? name = none) (value : α) :
    (t.insert name value).values.Perm (value :: t.values) := by
  simp only [get?, values, insert] at *
  generalize t.entries = es at h
  induction es with
  | nil => exact .refl _
  | cons e es ih =>
    rw [lookup_entry] at h
    simp only [insertEntry]
    split
    · exact .refl _
    split
    · next heq => simp [heq] at h
    · next hne =>
      rw [if_neg hne] at h
      exact ((ih h).cons _).trans (.swap ..)

/-- Another value under a name leaves the values as they are, as far as it is like the one
before. -/
theorem values_insert_of_some {β : Type} {t : Table α} {name : String} {old value : α}
    (h : t.get? name = some old) (f : α → β) (hf : f old = f value) :
    (t.insert name value).values.map f = t.values.map f := by
  obtain ⟨es, hes⟩ := t
  simp only [get?, values, insert] at *
  induction es with
  | nil => simp at h
  | cons e es ih =>
    obtain ⟨hlt, hes⟩ := List.pairwise_cons.1 hes
    rw [lookup_entry] at h
    simp only [insertEntry]
    split
    · next hname =>
      -- a name before the first one is not in the table
      have hne : name ≠ e.1 := fun heq => String.lt_irrefl _ (heq ▸ hname)
      rw [if_neg hne] at h
      have hmem : name ∈ es.map (·.1) := isSome_lookup.1 (by simp [h])
      exact absurd (String.lt_trans hname (hlt _ hmem)) (String.lt_irrefl _)
    split
    · next heq =>
      rw [if_pos heq] at h
      cases h
      simp [hf]
    · next hne =>
      rw [if_neg hne] at h
      simpa using ih hes h

/-- Erasing a name takes its value out of the values. -/
theorem values_erase {t : Table α} {name : String} {value : α} (h : t.get? name = some value) :
    t.values.Perm (value :: (t.erase name).values) := by
  obtain ⟨es, hes⟩ := t
  simp only [get?, values, erase] at *
  induction es with
  | nil => simp at h
  | cons e es ih =>
    obtain ⟨hlt, hes⟩ := List.pairwise_cons.1 hes
    rw [lookup_entry] at h
    by_cases heq : name = e.1
    · rw [if_pos heq] at h
      cases h
      -- the names after the first one are greater
      have hrest : es.filter (·.1 != name) = es := by
        refine List.filter_eq_self.2 fun a ha => ?_
        have hlt : e.1 < a.1 := hlt _ (List.mem_map_of_mem ha)
        exact bne_iff_ne.2 fun h => String.lt_irrefl a.1 (by rwa [← heq, ← h] at hlt)
      rw [List.filter_cons_of_neg (by simp [heq]), hrest]
      exact .refl _
    · rw [if_neg heq] at h
      simpa [Ne.symm heq] using ((ih hes h).cons _).trans (.swap ..)

end Table

end StreamCheckpoint
