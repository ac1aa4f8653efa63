import Mathlib.Data.List.Perm.Subperm
import StreamCheckpoint.Proofs.SharedState.References

/-! What a registry disposes of.  The references to a key come in epochs, from the registration that
opens the key to the release of its last reference, and through each the key goes on with the handle
that opened it.  A registration that brings a different handle has it disposed of at once, and the
end of the epoch disposes of the one that was kept.  So much is read off a history (`due`).  That
nothing is lost or disposed of twice is an account of handles: those that were given up, together
with those that are kept, come from different registrations, and they are all there is
(`Accounts`). -/

namespace StreamCheckpoint

open History

def Deed.given? : Deed → Option StateHandle
  | registered _ h _ => some h
  | _ => none

namespace History

/-- The handles of all registrations, the latest first. -/
def handles (history : History) : List StateHandle := history.filterMap (·.given?)

/-- The handles to dispose of at a deed, after what was done before: that of a registration whose
key goes on with a different one, and the one that was kept when the last reference goes. -/
def due (past : History) : Deed → List StateHandle
  | .registered key h _ => if (keeper? key past).all (· == h) then [] else [h]
  | .released key _ =>
    if registrations key past = releases key past + 1 then (keeper? key past).toList else []
  | .refused _ _ => []
  | .cleared => []

/-- The handles to dispose of at some deeds, in order. -/
def dues (past : History) : List Deed → List StateHandle
  | [] => []
  | d :: ds => due past d ++ dues (d :: past) ds

theorem dues_append (past : History) (ds es : List Deed) :
    dues past (ds ++ es) = dues past ds ++ dues (ds.reverse ++ past) es := by
  induction ds generalizing past with
  | nil => rfl
  | cons d ds ih => simp [dues, ih]

theorem dues_cons (d : Deed) (past : History) :
    dues [] (d :: past).reverse = dues [] past.reverse ++ due past d := by
  rw [List.reverse_cons, dues_append]
  simp [dues]

end History

namespace Catalog

variable {c : Catalog} {history : History} {q : Request} {r : Change Deed}

theorem Serves.retired_eq_due (hs : c.Serves q r) (h : c.Tallies history) :
    r.retired = due history r.answer := by
  have hcount := h.count q.key
  have hstate := h.state q.key
  cases hs with
  | opened fresh =>
    rw [Request.key, get?_of_none fresh] at hstate
    simp [due, hstate]
  | joined kept =>
    rw [Request.key, get?_of_some kept] at hstate
    simp [due, hstate]
  | returned kept more =>
    rw [Request.key, references_of_some kept] at hcount
    exact (if_neg (by omega)).symm
  | ended kept last =>
    rw [Request.key, references_of_some kept, last] at hcount
    rw [Request.key, get?_of_some kept] at hstate
    simp [due, hcount, hstate]
  | refused => rfl

/-- Whether or not all requests are granted, what is given up is what the deeds call for. -/
theorem Tallies.retired_serveEach (h : c.Tallies history) (qs : List Request) :
    (c.serveEach qs).retired = dues history (c.serveEach qs).answer := by
  induction qs generalizing c history with
  | nil => rfl
  | cons q qs ih =>
    have hq := (c.serves q).retired_eq_due h
    cases hf : (c.serve q).answer.failure? with
    | none => rw [serveEach_of_served hf, dues, ← hq, ih (h.serve q)]
    | some e =>
      rw [serveEach_of_refused hf, dues, ← hq]
      exact (List.append_nil _).symm

theorem cleared_not_mem_serveEach (qs : List Request) : .cleared ∉ (c.serveEach qs).answer := by
  induction qs generalizing c with
  | nil => exact List.not_mem_nil
  | cons q qs ih =>
    have hne : .cleared ≠ (c.serve q).answer := by
      rcases (c.serves q).answer with ⟨_, _, h, _⟩ | ⟨_, h, _⟩ | ⟨h, _⟩ <;> simp [h]
    cases hf : (c.serve q).answer.failure? with
    | none => simp [serveEach_of_served hf, hne, ih]
    | some e => simp [serveEach_of_refused hf, hne]

/-! ### The account of handles -/

def states (c : Catalog) : List StateHandle := c.entries.values.map (·.state)

section States

variable {key : SharedKey} {e : CatalogEntry}

theorem states_insert_of_none (h : c.entries.get? key = none) (e : CatalogEntry) :
    (states ⟨c.entries.insert key e⟩).Perm (e.state :: c.states) :=
  (Table.values_insert_of_none h e).map _

theorem states_insert_of_some {e' : CatalogEntry} (h : c.entries.get? key = some e)
    (hstate : e.state = e'.state) : states ⟨c.entries.insert key e'⟩ = c.states :=
  Table.values_insert_of_some h (·.state) hstate

theorem states_erase (h : c.entries.get? key = some e) :
    c.states.Perm (e.state :: states ⟨c.entries.erase key⟩) :=
  (Table.values_erase h).map _

theorem mem_states (h : c.entries.get? key = some e) : e.state ∈ c.states :=
  (states_erase h).mem_iff.2 (.head _)

end States

/-- A request moves handles between those that are kept and those that are given up.  What a
registration brings is added to them, or is equal to one that is kept. -/
theorem Serves.states (hs : c.Serves q r) :
    (r.retired ++ r.catalog.states).Perm (r.answer.given?.toList ++ c.states) ∨
      (r.retired ++ r.catalog.states).Perm c.states ∧
        ∀ h, r.answer.given? = some h → ∃ s ∈ c.states, (s == h) = true := by
  cases hs with
  | opened fresh => exact .inl (states_insert_of_none fresh _)
  | @joined key h e kept =>
    have hstates : states ⟨c.entries.insert key ⟨e.state, e.count + 1, Nat.succ_pos _⟩⟩ =
        c.states := states_insert_of_some kept rfl
    cases hh : e.state == h with
    | false => exact .inl (by simp [hstates, Deed.given?])
    | true =>
      refine .inr ⟨by simp [hstates], fun g hg => ⟨e.state, mem_states kept, ?_⟩⟩
      exact Option.some.inj hg ▸ hh
  | @returned key e kept more =>
    have hstates : states ⟨c.entries.insert key ⟨e.state, e.count - 1, Nat.sub_pos_of_lt more⟩⟩ =
        c.states := states_insert_of_some kept rfl
    exact .inl (by simp [hstates, Deed.given?])
  | ended kept => exact .inl (states_erase kept).symm
  | refused => exact .inl (.refl _)

/-- The handles that were given up or are kept come from different registrations, and as long as no
key was forgotten they are all that was ever registered, as far as the state that they describe. -/
structure Accounts (c : Catalog) (history : History) (retired : List StateHandle) : Prop where
  once : (retired ++ c.states).Subperm (handles history)
  all : .cleared ∉ history → ∀ h ∈ handles history, ∃ d ∈ retired ++ c.states, (d == h) = true

namespace Accounts

variable {retired : List StateHandle}

theorem start : Accounts {} [] [] := ⟨List.nil_subperm, fun _ h hh => by cases hh⟩

theorem cleared (h : c.Accounts history retired) : Accounts {} (.cleared :: history) retired where
  once := by
    have hsub : retired.Subperm (handles history) :=
      (List.sublist_append_left retired c.states).subperm.trans h.once
    simpa [states, Table.values, Table.empty, handles, Deed.given?] using hsub
  all hnot := (hnot (.head _)).elim

theorem serve (h : c.Accounts history retired) (q : Request) :
    (c.serve q).catalog.Accounts ((c.serve q).answer :: history)
      (retired ++ (c.serve q).retired) := by
  have hs := (c.serves q).states
  generalize c.serve q = r at hs
  have hcons : handles (r.answer :: history) = r.answer.given?.toList ++ handles history := by
    cases hg : r.answer.given? <;> simp [handles, hg]
  have hold : ∀ {h'}, .cleared ∉ r.answer :: history → h' ∈ handles history →
      ∃ d ∈ retired ++ c.states, (d == h') = true := fun hnot hh' =>
    h.all (fun hc => hnot (.tail _ hc)) _ hh'
  rcases hs with hs | ⟨hs, hequal⟩
  · -- the new handle is one more on both sides
    have hperm : (retired ++ r.retired ++ r.catalog.states).Perm
        (r.answer.given?.toList ++ (retired ++ c.states)) := by
      rw [List.append_assoc]
      exact (hs.append_left retired).trans (List.perm_append_comm_assoc ..)
    constructor
    · rw [hcons]
      exact hperm.subperm.trans ((List.subperm_append_left _).2 h.once)
    · intro hnot h' hh'
      rw [hcons, List.mem_append] at hh'
      simp only [hperm.mem_iff, List.mem_append (s := r.answer.given?.toList)]
      rcases hh' with hh' | hh'
      · exact ⟨h', .inl hh', BEq.refl _⟩
      · obtain ⟨d, hd, heq⟩ := hold hnot hh'
        exact ⟨d, .inr hd, heq⟩
  · have hperm : (retired ++ r.retired ++ r.catalog.states).Perm (retired ++ c.states) := by
      rw [List.append_assoc]
      exact hs.append_left retired
    constructor
    · rw [hcons]
      exact hperm.subperm.trans (h.once.trans (List.sublist_append_right ..).subperm)
    · intro hnot h' hh'
      rw [hcons, List.mem_append] at hh'
      simp only [hperm.mem_iff]
      rcases hh' with hh' | hh'
      · obtain ⟨s, hs, heq⟩ := hequal h' (Option.mem_toList.1 hh')
        exact ⟨s, List.mem_append_right _ hs, heq⟩
      · exact hold hnot hh'

end Accounts

end Catalog

namespace Course

variable {s : Course}

theorem cleared_not_mem_deeds (r : Registry) (t : Transfer) : .cleared ∉ r.deeds t := by
  rw [Registry.deeds]
  split
  · exact List.not_mem_nil
  · exact Catalog.cleared_not_mem_serveEach _

theorem clear_mem_of_cleared_mem {ops : List RegistryOperation}
    (h : .cleared ∈ (s.perform ops).history) : .cleared ∈ s.history ∨ .clear ∈ ops := by
  induction ops generalizing s with
  | nil => exact .inl h
  | cons op ops ih =>
    rcases ih (s := s.step op) h with h | h
    · cases op with
      | transfer t =>
        rcases List.mem_append.1 h with h | h
        · exact (cleared_not_mem_deeds _ _ (List.mem_reverse.1 h)).elim
        · exact .inl h
      | clear => exact .inr (.head _)
      | close => exact .inl h
    · exact .inr (.tail _ h)

theorem accounts_run (ops : List RegistryOperation) :
    ∃ retired, (run ops).disposed = retired.filter (!·.isPlaceholder) ∧
      retired = dues [] (run ops).history.reverse ∧
      (run ops).registry.catalog.Accounts (run ops).history retired := by
  obtain ⟨retired, hdisposed, -, hdues, haccounts⟩ := run_induction
    (P := fun c history retired => c.Tallies history ∧ retired = dues [] history.reverse ∧
      c.Accounts history retired)
    ⟨.start, rfl, .start⟩
    (fun {c history retired} q ⟨ht, hd, ha⟩ =>
      ⟨ht.serve q, by rw [dues_cons, ← hd, (c.serves q).retired_eq_due ht], ha.serve q⟩)
    (fun {c history retired} ⟨ht, hd, ha⟩ =>
      ⟨.cleared, by rw [dues_cons, ← hd, due, List.append_nil], ha.cleared⟩) ops
  exact ⟨retired, hdisposed, hdues, haccounts⟩

/-- However references were taken and released, one at a time or in batches, granted or refused:
what was disposed of is, in order, each handle that a registration brought and the key did not go on
with, and each handle that was kept when the last reference to its key went, except placeholders.
Each operation disposes of what its own deeds call for, whatever it answers.  No registration has
its handle disposed of twice.  Unless keys were forgotten, an empty registry has disposed of all
state that was ever registered. -/
theorem disposes_exactly (ops : List RegistryOperation) :
    let r := (run ops).registry
    let history := (run ops).history
    let disposed := (run ops).disposed
    disposed = (dues [] history.reverse).filter (!·.isPlaceholder) ∧
    (r.isClosed = false → ∀ t : Transfer, t.Reports (r.deeds t) (r.transfer t).answer ∧
      (r.transfer t).disposed = (dues history (r.deeds t)).filter (!·.isPlaceholder)) ∧
    disposed.Subperm (handles history) ∧
    (.clear ∉ ops → r.size = 0 → ∀ h ∈ handles history, h.isPlaceholder = false →
      ∃ d ∈ disposed, (d == h) = true) := by
  intro r history disposed
  have htallies : r.catalog.Tallies history := tallies_run ops
  obtain ⟨retired, hdisposed, hdues, haccounts⟩ := accounts_run ops
  have hdisposed : disposed = retired.filter (!·.isPlaceholder) := hdisposed
  refine ⟨hdues ▸ hdisposed, fun hopen t => ?_, ?_, fun hclear hempty h hh hreal => ?_⟩
  · obtain ⟨hreports, hd, -⟩ := Registry.transfer_of_open hopen t
    rw [htallies.retired_serveEach] at hd
    exact ⟨hreports, by rw [hd, Registry.deeds, hopen]; rfl⟩
  · rw [hdisposed]
    exact (List.filter_sublist.trans (List.sublist_append_left retired _)).subperm.trans
      haccounts.once
  · have hnot : .cleared ∉ history := fun hc => by
      rcases clear_mem_of_cleared_mem hc with hc | hc
      · cases hc
      · exact hclear hc
    have hstates : r.catalog.states = [] := by
      have hentries : r.catalog.entries.entries = [] := List.eq_nil_of_length_eq_zero hempty
      simp [Catalog.states, Table.values, hentries]
    obtain ⟨d, hd, heq⟩ := haccounts.all hnot h hh
    rw [hstates, List.append_nil] at hd
    refine ⟨d, ?_, heq⟩
    rw [hdisposed, List.mem_filter, StateHandle.isPlaceholder_congr heq, hreal]
    exact ⟨hd, rfl⟩

end Course

end StreamCheckpoint
