import StreamCheckpoint.Proofs.SharedState.Disposal

/-! Placeholders and the state that they stand for.  A registry keeps the first handle of a key
whatever it is, so that a placeholder that comes first stays, and real state that comes later gives
way to it.  A registration keeps real state exactly if its key has no placeholder then
(`keepsReal_iff`). -/

namespace StreamCheckpoint

open History

namespace Deed

/-- What becomes of real state at a deed, after what was done before.  Whoever registers real state
goes on with real state, and the own handle is disposed of only if the key has different real state.
A handle that is disposed of with the last reference to its key leaves the key without a handle. -/
def KeepsReal (past : History) : Deed → Prop
  | registered key h answer => h.isPlaceholder = false →
      (∃ g, answer.reference = some g ∧ g.isPlaceholder = false) ∧
      (h ∈ due past (registered key h answer) →
        ∃ g, Keeps past key g ∧ g.isPlaceholder = false ∧ (g == h) = false)
  | released key answer =>
      due past (released key answer) ≠ [] → ∀ g, ¬Keeps (released key answer :: past) key g
  | refused _ _ => True
  | cleared => True

/-- The deed registers real state under a key that keeps a placeholder. -/
def MeetsPlaceholder (past : History) : Deed → Prop
  | registered key h _ => h.isPlaceholder = false ∧ Keeps past key .placeholder
  | _ => False

end Deed

theorem StateHandle.eq_placeholder {h : StateHandle} (e : h.isPlaceholder = true) :
    h = .placeholder := by
  cases h with
  | placeholder => rfl
  | _ => cases e

namespace Catalog

variable {c : Catalog} {past : History} {q : Request} {r : Change Deed}

theorem Tallies.keeps_iff (h : c.Tallies past) {key : SharedKey} {g : StateHandle} :
    Keeps past key g ↔ c.get? key = some g := by
  rw [← h.state, keeper?_eq_some]

theorem Serves.keepsReal (hs : c.Serves q r) (h : c.Tallies past)
    (hafter : r.catalog.Tallies (r.answer :: past)) :
    r.answer.KeepsReal past ↔ ¬r.answer.MeetsPlaceholder past := by
  have hdue := hs.retired_eq_due h
  cases hs with
  | opened fresh =>
    have hnone := get?_of_none fresh
    simp [Deed.KeepsReal, Deed.MeetsPlaceholder, ← hdue, h.keeps_iff, hnone]
  | @joined key handle e kept =>
    have hstate := get?_of_some kept
    simp only [Deed.KeepsReal, Deed.MeetsPlaceholder, ← hdue, h.keeps_iff, hstate, not_and]
    refine forall_congr' fun _ => ⟨?_, fun hreal => ?_⟩
    · rintro ⟨⟨g, hg, hreal⟩, -⟩ heq
      obtain rfl : g = .placeholder := Option.some.inj (hg.symm.trans heq)
      cases hreal
    · have hreal : e.state.isPlaceholder = false :=
        Bool.eq_false_iff.2 fun hp => hreal (congrArg some (StateHandle.eq_placeholder hp))
      refine ⟨⟨e.state, rfl, hreal⟩, fun hmem => ⟨e.state, rfl, hreal, ?_⟩⟩
      split at hmem
      · cases hmem
      · next hne => exact Bool.eq_false_iff.2 hne
  | returned kept more => simp [Deed.KeepsReal, Deed.MeetsPlaceholder, ← hdue]
  | @ended key e kept last =>
    simp [Deed.KeepsReal, Deed.MeetsPlaceholder, hafter.keeps_iff, get?_erase]
  | refused => simp [Deed.KeepsReal, Deed.MeetsPlaceholder]

/-- Each deed of a batch is that of a single request, to a catalog that holds what was done by
then. -/
theorem Tallies.split {history : History} (h : c.Tallies history) {qs : List Request}
    {before after : List Deed} {d : Deed}
    (hsplit : (c.serveEach qs).answer = before ++ d :: after) :
    ∃ c' q, Tallies c' (before.reverse ++ history) ∧ (c'.serve q).answer = d := by
  induction qs generalizing c history before with
  | nil => simp at hsplit
  | cons q qs ih =>
    cases hf : (c.serve q).answer.failure? with
    | none =>
      rw [serveEach_of_served hf] at hsplit
      cases before with
      | nil => exact ⟨c, q, h, (List.cons.inj hsplit).1⟩
      | cons e before =>
        obtain ⟨hfirst, hrest⟩ := List.cons.inj hsplit
        simpa [← hfirst] using ih (h.serve q) hrest
    | some e =>
      rw [serveEach_of_refused hf] at hsplit
      cases before with
      | nil => exact ⟨c, q, h, (List.cons.inj hsplit).1⟩
      | cons e before => simp at hsplit

end Catalog

namespace Course

/-- Whatever was done before, registrations of real state, single or in a batch, go on with real
state, and dispose of their own only in favour of different real state, exactly if the key has no
placeholder at the time; and what a release disposes of has no placeholder in its place. -/
theorem keepsReal_iff (ops : List RegistryOperation) (hopen : .close ∉ ops) (t : Transfer) :
    let r := (run ops).registry
    let history := (run ops).history
    (∀ key g, r.get? key = some g ↔ Keeps history key g) ∧
    t.Reports (r.deeds t) (r.transfer t).answer ∧
    (r.transfer t).disposed = (dues history (r.deeds t)).filter (!·.isPlaceholder) ∧
    ∀ before d after, r.deeds t = before ++ d :: after →
      (d.KeepsReal (before.reverse ++ history) ↔
        ¬d.MeetsPlaceholder (before.reverse ++ history)) := by
  intro r history
  have htallies : r.catalog.Tallies history := tallies_run ops
  have hclosed : r.isClosed = false := by
    rw [← Bool.not_eq_true, isClosed_run]
    exact hopen
  obtain ⟨hreports, hdisposed, -⟩ := Registry.transfer_of_open hclosed t
  have hdeeds : r.deeds t = (r.catalog.serveEach t.requests).answer := by
    rw [Registry.deeds, hclosed]
    rfl
  refine ⟨fun key g => htallies.keeps_iff.symm, hreports, ?_, fun before d after hsplit => ?_⟩
  · rw [hdisposed, htallies.retired_serveEach, hdeeds]
  · obtain ⟨c, q, hc, rfl⟩ := htallies.split (hdeeds ▸ hsplit)
    exact (c.serves q).keepsReal hc (hc.serve q)

/-- A key loses the placeholder that it had, and is registered again with real state. -/
def reopened : List RegistryOperation := [
  .transfer (.register "k" .placeholder), .transfer (.unregister "k"),
  .transfer (.register "k" (.memory "1" [1]))]

/-- A second registration then goes on with the real state. -/
theorem keepsReal_iff_reopened :
    let d : Deed := .registered "k" (.memory "2" [2]) ⟨some (.memory "1" [1]), 2⟩
    .close ∉ reopened ∧ ¬d.MeetsPlaceholder (run reopened).history ∧
      d.KeepsReal (run reopened).history := by
  intro d
  have hopen : .close ∉ reopened := by simp [reopened]
  obtain ⟨hget, -, -, hdeed⟩ := keepsReal_iff reopened hopen (.register "k" (.memory "2" [2]))
  have hmeets : ¬d.MeetsPlaceholder (run reopened).history := by
    rintro ⟨-, hkeeps⟩
    have hkept : some (StateHandle.memory "1" [1]) = some .placeholder := (hget "k" _).2 hkeeps
    cases hkept
  exact ⟨hopen, hmeets, (hdeed [] d [] rfl).2 hmeets⟩

/-- Real state that is registered under a key with a placeholder is disposed of, and the
placeholder stays. -/
theorem keepsReal_fails :
    let r := (run [.transfer (.register "k" .placeholder)]).registry
    let change := r.register "k" (.memory "1" [1])
    r.isClosed = false ∧ change.answer = .ok ⟨some .placeholder, 2⟩ ∧
      change.disposed = [.memory "1" [1]] ∧ change.registry.get? "k" = some .placeholder :=
  ⟨rfl, rfl, rfl, rfl⟩

end Course

end StreamCheckpoint
