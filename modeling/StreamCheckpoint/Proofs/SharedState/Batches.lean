import Mathlib.Data.List.Basic
import StreamCheckpoint.Proofs.SharedState.References

/-! Sequences of requests on a catalog.  They are all granted if no key is given back more often
than it is referenced (`grants_of_covered`).  Registering files makes a choice among the handles of
each key (`chosen?`), and releasing keys removes some of them (`Sheds`).  What the requests of one
operation make of the handles under the keys is said in the same way whether they register or
release (`Transfer.settles`). -/

namespace StreamCheckpoint

/-- The key that a release leaves without a handle. -/
def Deed.removed? : Deed → Option SharedKey
  | released key answer => if answer.reference.isNone then some key else none
  | _ => none

namespace Request

/-- Whether the request takes a reference to `key`. -/
def takes (key : SharedKey) : Request → Bool
  | register k _ => key == k
  | release _ => false

/-- Whether the request gives a reference to `key` back. -/
def returns (key : SharedKey) : Request → Bool
  | register _ _ => false
  | release k => key == k

end Request

/-! ### Counting references -/

namespace Catalog

variable {c : Catalog} {q : Request} {qs : List Request} {key : SharedKey}

/-- A granted request moves the number of references to its key by one, and no other. -/
theorem Serves.references {r : Change Deed} (h : c.Serves q r) (hgrant : r.answer.failure? = none)
    (key : SharedKey) :
    c.references key + (if q.takes key then 1 else 0) =
      (if q.returns key then 1 else 0) + r.catalog.references key := by
  by_cases hk : key = q.key
  · subst hk
    cases h with
    | opened fresh =>
      simp [Request.key, Request.takes, Request.returns, references_insert,
        references_of_none fresh]
    | joined kept =>
      simp [Request.key, Request.takes, Request.returns, references_insert,
        references_of_some kept]
    | returned kept more =>
      simp only [Request.key, Request.takes, Request.returns, references_insert,
        references_of_some kept, beq_self_eq_true, if_true, Bool.false_eq_true, if_false]
      omega
    | ended kept last =>
      simp [Request.key, Request.takes, Request.returns, references_erase,
        references_of_some kept, last]
    | refused => cases hgrant
  · have htakes : q.takes key = false := by cases q <;> simp_all [Request.takes, Request.key]
    have hreturns : q.returns key = false := by cases q <;> simp_all [Request.returns, Request.key]
    rw [htakes, hreturns, Catalog.references, Catalog.references, h.frame hk]
    exact Nat.add_comm ..

theorem Serves.granted {r : Change Deed} (h : c.Serves q r)
    (covered : ∀ key, q.returns key = true → 0 < c.references key) : r.answer.failure? = none := by
  cases h with
  | @refused k unknown =>
    have hpos := covered k (beq_self_eq_true k)
    rw [references_of_none unknown] at hpos
    exact absurd hpos (Nat.lt_irrefl 0)
  | _ => rfl

theorem references_serveEach (h : c.Grants qs) (key : SharedKey) :
    c.references key + qs.countP (·.takes key) =
      qs.countP (·.returns key) + (c.serveEach qs).catalog.references key := by
  induction qs generalizing c with
  | nil => simp
  | cons q qs ih =>
    obtain ⟨hq, hqs⟩ := grants_cons.1 h
    have hone := (c.serves q).references hq key
    have hrest := ih hqs
    rw [serveEach_of_served hq, List.countP_cons, List.countP_cons]
    dsimp only
    omega

/-- All requests are granted if no key is given back more often than it is referenced. -/
theorem grants_of_covered (h : ∀ key ps, ps <+: qs →
    ps.countP (·.returns key) ≤ c.references key + ps.countP (·.takes key)) : c.Grants qs := by
  induction qs generalizing c with
  | nil => nofun
  | cons q qs ih =>
    have hq : (c.serve q).answer.failure? = none := (c.serves q).granted fun key hreturns => by
      have hfirst := h key [q] ((List.prefix_cons_inj q).2 List.nil_prefix)
      have htakes : q.takes key = false := by cases q <;> simp_all [Request.takes, Request.returns]
      simp only [List.countP_singleton, hreturns, htakes] at hfirst
      exact hfirst
    refine grants_cons.2 ⟨hq, ih fun key ps hps => ?_⟩
    have hone := (c.serves q).references hq key
    have hcovered := h key (q :: ps) ((List.prefix_cons_inj q).2 hps)
    rw [List.countP_cons, List.countP_cons] at hcovered
    omega

/-! ### Registering files -/

/-- The handle that a key goes on with when some files are registered: the one that it has, or else
that of the first file that is registered under it. -/
def chosen? (c : Catalog) (files : List (SharedKey × StateHandle)) (key : SharedKey) :
    Option StateHandle := (c.get? key).or (files.lookup key)

/-- The handle to go on with for one of the files. -/
def choice (c : Catalog) (files : List (SharedKey × StateHandle)) (f : SharedKey × StateHandle) :
    StateHandle := (c.chosen? files f.1).getD f.2

theorem chosen?_nil (c : Catalog) : c.chosen? [] = c.get? := funext fun _ => Option.or_none ..

theorem choice_congr {c' : Catalog} {files files' : List (SharedKey × StateHandle)}
    (h : c.chosen? files = c'.chosen? files') : c.choice files = c'.choice files' := by
  funext f
  rw [choice, h, choice]

theorem mem_of_lookup {files : List (SharedKey × StateHandle)} {h : StateHandle}
    (hl : files.lookup key = some h) : (key, h) ∈ files := by
  obtain ⟨before, after, rfl, -⟩ := List.lookup_eq_some_iff.1 hl
  exact List.mem_append_right _ (.head _)

theorem chosen?_of_mem {files : List (SharedKey × StateHandle)} {f : SharedKey × StateHandle}
    (hf : f ∈ files) : c.chosen? files f.1 = some (c.choice files f) := by
  have hsome : (files.lookup f.1).isSome := Table.isSome_lookup.2 (List.mem_map_of_mem hf)
  obtain ⟨h, hl⟩ := Option.isSome_iff_exists.1 hsome
  cases hold : c.get? f.1 <;> simp [choice, chosen?, hold, hl]

section Registering

variable (c : Catalog) (f : SharedKey × StateHandle) (files : List (SharedKey × StateHandle))

/-- A registration hands the chosen handle over and retires a different one, and it leaves the
choice for the files that follow as it was. -/
theorem serve_register :
    (c.serve (.register f.1 f.2)).answer.handed? = some (f.1, c.choice (f :: files) f) ∧
      (c.serve (.register f.1 f.2)).retired =
        (if c.choice (f :: files) f == f.2 then [] else [f.2]) ∧
      (c.serve (.register f.1 f.2)).catalog.chosen? files = c.chosen? (f :: files) := by
  have hs := c.serves (.register f.1 f.2)
  generalize c.serve (.register f.1 f.2) = r at hs
  cases hs with
  | opened fresh =>
    have hchoice : c.choice (f :: files) f = f.2 := by
      simp [choice, chosen?, get?_of_none fresh, Table.lookup_entry]
    refine ⟨by rw [hchoice]; rfl, by simp [hchoice], funext fun key => ?_⟩
    by_cases hk : key = f.1 <;>
      simp [chosen?, get?_insert, Table.lookup_entry, hk, get?_of_none fresh]
  | @joined _ _ e kept =>
    have hchoice : c.choice (f :: files) f = e.state := by
      simp [choice, chosen?, get?_of_some kept]
    refine ⟨by rw [hchoice]; rfl, by rw [hchoice], funext fun key => ?_⟩
    by_cases hk : key = f.1 <;>
      simp [chosen?, get?_insert, Table.lookup_entry, hk, get?_of_some kept]

theorem mem_retired_register (d : StateHandle) : d ∈ (c.serve (.register f.1 f.2)).retired ↔
    d = f.2 ∧ ∃ g, c.get? f.1 = some g ∧ (g == f.2) = false := by
  rw [(c.serve_register f []).2.1, choice, chosen?]
  cases c.get? f.1 with
  | none => simp [Table.lookup_entry]
  | some g => cases heq : g == f.2 <;> simp [heq]

theorem get?_register : (c.serve (.register f.1 f.2)).catalog.get? = c.chosen? [f] := by
  rw [← (c.serve_register f []).2.2, chosen?_nil]

theorem serveEach_registering_cons :
    c.serveEach (registering (f :: files)) =
      ⟨(c.serve (.register f.1 f.2)).answer ::
          ((c.serve (.register f.1 f.2)).catalog.serveEach (registering files)).answer,
        (c.serve (.register f.1 f.2)).retired ++
          ((c.serve (.register f.1 f.2)).catalog.serveEach (registering files)).retired,
        ((c.serve (.register f.1 f.2)).catalog.serveEach (registering files)).catalog⟩ :=
  serveEach_of_served rfl (registering files)

theorem get?_registering : (c.serveEach (registering files)).catalog.get? = c.chosen? files := by
  induction files generalizing c with
  | nil => exact c.chosen?_nil.symm
  | cons f files ih => rw [serveEach_registering_cons, ih, (c.serve_register f files).2.2]

theorem handed_registering :
    (c.serveEach (registering files)).answer.filterMap (·.handed?) =
      files.map fun f => (f.1, c.choice files f) := by
  induction files generalizing c with
  | nil => rfl
  | cons f files ih =>
    obtain ⟨hhanded, -, hchosen⟩ := c.serve_register f files
    rw [serveEach_registering_cons, List.filterMap_cons_some hhanded, ih, choice_congr hchosen]
    rfl

theorem retired_registering :
    (c.serveEach (registering files)).retired =
      (files.filter fun f => !(c.choice files f == f.2)).map (·.2) := by
  induction files generalizing c with
  | nil => rfl
  | cons f files ih =>
    obtain ⟨-, hretired, hchosen⟩ := c.serve_register f files
    simp only [serveEach_registering_cons, ih, hretired, choice_congr hchosen]
    by_cases heq : (c.choice (f :: files) f == f.2) = true <;> simp [heq]

end Registering

/-! ### Releasing keys -/

/-- A release leaves every handle, or removes and retires the one of its own key. -/
theorem serve_release (c : Catalog) (k : SharedKey) :
    (c.serve (.release k)).answer.removed? = none ∧ (c.serve (.release k)).retired = [] ∧
        (c.serve (.release k)).catalog.get? = c.get? ∨
      ∃ d, c.get? k = some d ∧ (c.serve (.release k)).answer.removed? = some k ∧
        (c.serve (.release k)).retired = [d] ∧
        ∀ key, (c.serve (.release k)).catalog.get? key = if key = k then none else c.get? key := by
  have hs := c.serves (.release k)
  generalize c.serve (.release k) = r at hs
  cases hs with
  | @returned _ e kept more =>
    refine .inl ⟨rfl, rfl, funext fun key => (get?_insert ..).trans ?_⟩
    split
    · next hk => rw [hk, get?_of_some kept]
    · rfl
  | @ended _ e kept last =>
    exact .inr ⟨e.state, get?_of_some kept, rfl, rfl, fun _ => get?_erase ..⟩
  | refused => exact .inl ⟨rfl, rfl, rfl⟩

/-- What some releases came to: each key that lost its handle was removed once, and the handle
retired then; the other keys have what they had. -/
structure Sheds (c : Catalog) (r : Change (List Deed)) : Prop where
  once : (r.answer.filterMap (·.removed?)).Nodup
  removed : ∀ key, key ∈ r.answer.filterMap (·.removed?) ↔
    (c.get? key).isSome ∧ r.catalog.get? key = none
  retired : r.retired = (r.answer.filterMap (·.removed?)).filterMap c.get?
  kept : ∀ {key g}, r.catalog.get? key = some g → c.get? key = some g

theorem Sheds.start : c.Sheds ⟨[], [], c⟩ := by
  constructor <;> simp +contextual [Option.isSome_iff_ne_none]

theorem Sheds.cons {k : SharedKey} {rs : Change (List Deed)}
    (h : (c.serve (.release k)).catalog.Sheds rs) :
    c.Sheds ⟨(c.serve (.release k)).answer :: rs.answer,
      (c.serve (.release k)).retired ++ rs.retired, rs.catalog⟩ := by
  rcases c.serve_release k with ⟨hremoved, hretired, hget⟩ | ⟨d, hd, hremoved, hretired, hget⟩
  · obtain ⟨once, removed, retired, kept⟩ := h
    rw [hget] at removed retired kept
    constructor <;> simp only [List.filterMap_cons_none hremoved, hretired, List.nil_append]
    · exact once
    · exact removed
    · exact retired
    · exact kept
  · -- the key is gone, so that the releases that follow cannot remove it again
    have hk : k ∉ rs.answer.filterMap (·.removed?) := by simp [h.removed, hget]
    constructor <;> simp only [List.filterMap_cons_some hremoved, hretired]
    · exact List.nodup_cons.2 ⟨hk, h.once⟩
    · intro key
      rw [List.mem_cons, h.removed, hget]
      by_cases heq : key = k
      · have hnone : rs.catalog.get? k = none := by
          cases hg : rs.catalog.get? k with
          | none => rfl
          | some g => simpa [hget] using h.kept hg
        simp [heq, hnone, hd]
      · simp [heq]
    · rw [List.filterMap_cons_some hd, h.retired]
      refine congrArg (d :: ·) (List.filterMap_congr fun key hkey => ?_)
      have hne : key ≠ k := fun heq => hk (heq ▸ hkey)
      rw [hget, if_neg hne]
    · intro key g hg
      have hkept := h.kept hg
      rw [hget] at hkept
      split at hkept
      · cases hkept
      · exact hkept

/-- Whether or not all releases are granted, they shed the keys that they remove. -/
theorem sheds_releasing (c : Catalog) (keys : List SharedKey) :
    c.Sheds (c.serveEach (keys.map .release)) := by
  induction keys generalizing c with
  | nil => exact .start
  | cons k keys ih =>
    rw [List.map_cons]
    cases hf : (c.serve (.release k)).answer.failure? with
    | none =>
      rw [serveEach_of_served hf]
      exact (ih _).cons
    | some e =>
      rw [serveEach_of_refused hf]
      simpa using (Sheds.start (c := (c.serve (.release k)).catalog)).cons

/-! ### What becomes of a key -/

/-- What requests make of the handles under the keys: a key that still has a handle has the one from
before, if it had one; whoever registered goes on with the handle that the key has; and what is
retired is not what its key has. -/
structure Settles (c : Catalog) (qs : List Request) : Prop where
  kept : ∀ {key g}, c.get? key = some g → ((c.serveEach qs).catalog.get? key).isSome →
    (c.serveEach qs).catalog.get? key = some g
  handed : ∀ {key g}, (key, g) ∈ (c.serveEach qs).answer.filterMap (·.handed?) →
    (c.serveEach qs).catalog.get? key = some g
  retired : ∀ {d}, d ∈ (c.serveEach qs).retired →
    ∃ key, (c.get? key = some d ∨ .register key d ∈ qs) ∧
      ∀ g, (c.serveEach qs).catalog.get? key = some g → (d == g) = false
  origin : ∀ {key h}, (c.serveEach qs).catalog.get? key = some h →
    c.get? key = some h ∨ .register key h ∈ qs

theorem settles_registering (c : Catalog) (files : List (SharedKey × StateHandle)) :
    c.Settles (registering files) := by
  have hmem : ∀ {f}, f ∈ files → Request.register f.1 f.2 ∈ registering files :=
    fun hf => List.mem_map_of_mem (f := fun f => Request.register f.1 f.2) hf
  constructor
  · intro key g h _
    rw [get?_registering, chosen?, h, Option.some_or]
  · intro key g hg
    rw [handed_registering] at hg
    obtain ⟨f, hf, heq⟩ := List.mem_map.1 hg
    cases heq
    rw [get?_registering, chosen?_of_mem hf]
  · intro d hd
    rw [retired_registering] at hd
    obtain ⟨f, hf, rfl⟩ := List.mem_map.1 hd
    obtain ⟨hf, hdiffer⟩ := List.mem_filter.1 hf
    refine ⟨f.1, .inr (hmem hf), fun g hg => ?_⟩
    rw [get?_registering, chosen?_of_mem hf] at hg
    rw [← Option.some.inj hg, BEq.comm]
    simpa using hdiffer
  · intro key h hg
    rw [get?_registering, chosen?, Option.or_eq_some_iff] at hg
    exact hg.imp_right fun hl => hmem (mem_of_lookup hl.2)

theorem settles_releasing (c : Catalog) (keys : List SharedKey) :
    c.Settles (keys.map .release) := by
  have hsheds := c.sheds_releasing keys
  constructor
  · intro key g h hsome
    obtain ⟨g', hg'⟩ := Option.isSome_iff_exists.1 hsome
    rw [hg', ← h, hsheds.kept hg']
  · -- a release hands nothing over
    intro key g hg
    obtain ⟨e, he, hhanded⟩ := List.mem_filterMap.1 hg
    obtain ⟨q, hq, hrequest⟩ := (c.served _).mem he
    obtain ⟨k, -, rfl⟩ := List.mem_map.1 hq
    cases e <;> simp [Deed.handed?, Deed.request?] at hhanded hrequest
  · intro d hd
    rw [hsheds.retired] at hd
    obtain ⟨key, hkey, hold⟩ := List.mem_filterMap.1 hd
    refine ⟨key, .inl hold, fun g hg => ?_⟩
    rw [((hsheds.removed key).1 hkey).2] at hg
    cases hg
  · exact fun hg => .inl (hsheds.kept hg)

end Catalog

/-- The handles that an operation hands over, each under its key. -/
def Transfer.handed : Transfer → Transfer.Reply → List (SharedKey × StateHandle)
  | register key _, .registration a => a.reference.toList.map (key, ·)
  | registerAll _, .snapshots handed => handed.flatMap (·.files)
  | _, _ => []

theorem Transfer.settles (c : Catalog) (t : Transfer) : c.Settles t.requests := by
  cases t with
  | register key h => exact c.settles_registering [(key, h)]
  | unregister key => exact c.settles_releasing [key]
  | registerAll snapshots => exact c.settles_registering _
  | unregisterAll snapshots => exact c.settles_releasing _

namespace Registry

variable {r : Registry} {t : Transfer}

theorem mem_handed (hopen : r.isClosed = false) {reply : Transfer.Reply}
    (hreply : (r.transfer t).answer = .ok reply) {f : SharedKey × StateHandle}
    (hf : f ∈ t.handed reply) :
    f ∈ (r.catalog.serveEach t.requests).answer.filterMap (·.handed?) := by
  have hanswers := (transfer_of_open hopen t).1.answers
  rw [hreply, deeds, hopen, if_neg Bool.false_ne_true] at hanswers
  cases t with
  | register key h =>
    obtain ⟨a, hdeeds, hans⟩ := hanswers
    cases hans
    rw [hdeeds]
    cases hg : a.reference <;> simp_all [Transfer.handed, Deed.handed?]
  | registerAll snapshots =>
    obtain ⟨handed, hans, hfiles⟩ := hanswers
    cases hans
    exact hfiles ▸ hf
  | _ => cases hf

theorem answer_of_granted (hopen : r.isClosed = false) (h : r.catalog.Grants t.requests) :
    ∃ reply, (r.transfer t).answer = .ok reply := by
  have hanswers := (transfer_of_open hopen t).1.answers
  rw [deeds, hopen, if_neg Bool.false_ne_true] at hanswers
  cases t with
  | register key h =>
    obtain ⟨a, -, hans⟩ := hanswers
    exact ⟨_, hans⟩
  | unregister key =>
    rcases hanswers with ⟨a, -, hans⟩ | ⟨e, hdeeds, -⟩
    · exact ⟨_, hans⟩
    · have hfailure := h (.refused key e) (by rw [hdeeds]; exact .head _)
      cases hfailure
  | registerAll snapshots =>
    obtain ⟨_, hans, -⟩ := hanswers
    exact ⟨_, hans⟩
  | unregisterAll snapshots =>
    have hnone := List.findSome?_eq_none_iff.2 h
    simp only [Transfer.Answers, hnone] at hanswers
    exact ⟨_, hanswers⟩

end Registry

end StreamCheckpoint
