import Mathlib.Algebra.BigOperators.Fin
import Mathlib.Algebra.Order.BigOperators.Group.Finset
import StreamCheckpoint.Proofs.SharedState.Batches

/-! Clients that share a registry.  Each gives back only references that it has taken, in whatever
order the registry comes to perform the operations of all of them.  The references to a key are then
never fewer than those that any one client holds, so that no release is refused, and as long as a
client holds the key it keeps its handle (`spares_held`). -/

namespace StreamCheckpoint

/-- Operations of `n` clients, each with its client, in the order in which a registry performs
them. -/
abbrev Schedule (n : Nat) := List (Fin n × Transfer)

/-- The operation leaves `g` under the key, hands `g` to all that register the key, and does not
dispose of it. -/
structure Transfer.Spares (t : Transfer) (r : Registry) (key : SharedKey) (g : StateHandle) :
    Prop where
  kept : (r.transfer t).registry.get? key = some g
  handed : ∀ reply g', (r.transfer t).answer = .ok reply → (key, g') ∈ t.handed reply → g' = g
  spared : ∀ d ∈ (r.transfer t).disposed, (d == g) = false

namespace Schedule

variable {n : Nat}

def requests (s : Schedule n) : List (Fin n × Request) :=
  s.flatMap fun o => o.2.requests.map (o.1, ·)

def ofClient (client : Fin n) (qs : List (Fin n × Request)) : List Request :=
  qs.filterMap fun q => if q.1 = client then some q.2 else none

/-- The number of references to `key` that a client has taken and not given back. -/
def holding (s : Schedule n) (client : Fin n) (key : SharedKey) : Nat :=
  (ofClient client s.requests).countP (·.takes key) -
    (ofClient client s.requests).countP (·.returns key)

/-- At any time, no client has given back more references to a key than it has taken. -/
def Disciplined (s : Schedule n) : Prop :=
  ∀ client key qs, qs <+: ofClient client s.requests →
    qs.countP (·.returns key) ≤ qs.countP (·.takes key)

/-- A registry has `h` under the key, or a client registers it. -/
def Associates (s : Schedule n) (r : Registry) (key : SharedKey) (h : StateHandle) : Prop :=
  r.get? key = some h ∨ ∃ client, (client, .register key h) ∈ s.requests

/-- No piece of state has two keys; a placeholder stands for none. -/
def Separate (s : Schedule n) (r : Registry) : Prop :=
  ∀ ⦃key key' h h'⦄, s.Associates r key h → s.Associates r key' h' → (h == h') = true →
    h.isPlaceholder = false → key = key'

def perform (r : Registry) (s : Schedule n) : Registry :=
  s.foldl (fun r o => (r.transfer o.2).registry) r

/-! ### Counting references -/

theorem requests_append (s later : Schedule n) :
    requests (s ++ later) = requests s ++ requests later := List.flatMap_append

theorem map_requests_cons (o : Fin n × Transfer) (s : Schedule n) :
    (requests (o :: s)).map (·.2) = o.2.requests ++ s.requests.map (·.2) := by
  simp [requests, Function.comp_def]

theorem prefix_ofClient {client : Fin n} {qs rs : List (Fin n × Request)} (h : qs <+: rs) :
    ofClient client qs <+: ofClient client rs := h.filterMap _

theorem sum_countP (p : Request → Bool) (qs : List (Fin n × Request)) :
    ∑ client, (ofClient client qs).countP p = (qs.map (·.2)).countP p := by
  induction qs with
  | nil => simp [ofClient]
  | cons q qs ih =>
    have hcons : ∀ client, (ofClient client (q :: qs)).countP p =
        (ofClient client qs).countP p + if q.1 = client then (if p q.2 then 1 else 0) else 0 := by
      intro client
      by_cases hq : q.1 = client <;> simp [ofClient, hq, List.countP_cons]
    simp only [hcons, Finset.sum_add_distrib, ih, List.map_cons, List.countP_cons]
    simp

theorem Disciplined.of_append {s later : Schedule n} (h : Disciplined (s ++ later)) :
    s.Disciplined := fun client key qs hqs => by
  refine h client key qs (hqs.trans (prefix_ofClient ?_))
  rw [requests_append]
  exact List.prefix_append ..

/-- No release of a disciplined schedule is refused. -/
theorem Disciplined.grants {s : Schedule n} (h : s.Disciplined) (c : Catalog) :
    c.Grants (s.requests.map (·.2)) := by
  refine Catalog.grants_of_covered fun key ps hps => ?_
  obtain ⟨qs, hqs, rfl⟩ : ∃ qs, qs <+: s.requests ∧ ps = qs.map (·.2) := by
    rw [List.prefix_iff_eq_take.1 hps, ← List.map_take]
    exact ⟨_, List.take_prefix .., rfl⟩
  rw [← sum_countP, ← sum_countP]
  exact le_add_left (Finset.sum_le_sum fun client _ => h client key _ (prefix_ofClient hqs))

/-! ### The registry -/

variable {r : Registry}

theorem perform_concat (r : Registry) (s : Schedule n) (o : Fin n × Transfer) :
    perform r (s ++ [o]) = ((perform r s).transfer o.2).registry := by
  rw [perform, List.foldl_append]
  rfl

theorem isClosed_perform (hopen : r.isClosed = false) (s : Schedule n) :
    (perform r s).isClosed = false := by
  induction s generalizing r with
  | nil => exact hopen
  | cons o s ih =>
    refine ih (r := (r.transfer o.2).registry) ?_
    rw [(Registry.transfer_of_open hopen o.2).2.2]
    exact hopen

theorem catalog_perform (hopen : r.isClosed = false) {s : Schedule n}
    (h : r.catalog.Grants (s.requests.map (·.2))) :
    (perform r s).catalog = (r.catalog.serveEach (s.requests.map (·.2))).catalog := by
  induction s generalizing r with
  | nil => rfl
  | cons o s ih =>
    rw [map_requests_cons] at h ⊢
    obtain ⟨ho, hs⟩ := Catalog.grants_append.1 h
    have hr := (Registry.transfer_of_open hopen o.2).2.2
    rw [Catalog.serveEach_append ho, perform, List.foldl_cons, ← perform, hr]
    exact ih hopen hs

theorem catalog_concat (hopen : r.isClosed = false) (s : Schedule n) (o : Fin n × Transfer) :
    (perform r (s ++ [o])).catalog =
      ((perform r s).catalog.serveEach o.2.requests).catalog := by
  rw [perform_concat, (Registry.transfer_of_open (isClosed_perform hopen s) o.2).2.2]

theorem Disciplined.succeeds {before later : Schedule n} {o : Fin n × Transfer}
    (h : Disciplined (before ++ o :: later)) (hopen : r.isClosed = false) :
    ∃ reply, ((perform r before).transfer o.2).answer = .ok reply := by
  have hgrants := h.grants r.catalog
  rw [requests_append, List.map_append, Catalog.grants_append,
    ← catalog_perform hopen (h.of_append.grants _), map_requests_cons,
    Catalog.grants_append] at hgrants
  exact Registry.answer_of_granted (isClosed_perform hopen before) hgrants.2.1

theorem Disciplined.referenced {s : Schedule n} (h : s.Disciplined) (hopen : r.isClosed = false)
    {client : Fin n} {key : SharedKey} (holds : 0 < s.holding client key) :
    0 < (perform r s).catalog.references key := by
  have hcount := Catalog.references_serveEach (h.grants r.catalog) key
  rw [← catalog_perform hopen (h.grants _), ← sum_countP, ← sum_countP] at hcount
  -- no client has given back more than it took, and this one less
  have hlt : ∑ client, (ofClient client s.requests).countP (·.returns key) <
      ∑ client, (ofClient client s.requests).countP (·.takes key) :=
    Finset.sum_lt_sum (fun client _ => h client key _ (List.prefix_refl _))
      ⟨client, Finset.mem_univ _, Nat.lt_of_sub_pos holds⟩
  omega

theorem Associates.append {s : Schedule n} {key : SharedKey} {h : StateHandle}
    (ha : s.Associates r key h) (later : Schedule n) : Associates (s ++ later) r key h :=
  ha.imp_right fun ⟨client, hmem⟩ => ⟨client, by
    rw [requests_append]
    exact List.mem_append_left _ hmem⟩

theorem associates_of_mem {before later : Schedule n} {o : Fin n × Transfer} {key : SharedKey}
    {h : StateHandle} (hmem : .register key h ∈ o.2.requests) :
    Associates (before ++ o :: later) r key h := by
  refine .inr ⟨o.1, ?_⟩
  rw [requests_append]
  exact List.mem_append_right _ (List.mem_flatMap_of_mem (.head _) (List.mem_map_of_mem hmem))

/-- Every handle in the registry was there before or has been registered. -/
theorem associates_of_get? (hopen : r.isClosed = false) {s : Schedule n} {key : SharedKey}
    {h : StateHandle} (hget : (perform r s).get? key = some h) : s.Associates r key h := by
  induction s using List.reverseRecOn with
  | nil => exact .inl hget
  | append_singleton s o ih =>
    rw [Registry.get?, catalog_concat hopen] at hget
    rcases (o.2.settles _).origin hget with hold | hmem
    · exact (ih hold).append [o]
    · exact associates_of_mem hmem

/-- An operation that leaves `g` under the key spares it. -/
theorem Separate.spares {before later : Schedule n} {o : Fin n × Transfer}
    (h : Separate (before ++ o :: later) r) (hopen : r.isClosed = false) {key : SharedKey}
    {g : StateHandle} (hkept : (perform r (before ++ [o])).get? key = some g) :
    o.2.Spares (perform r before) key g := by
  have hopen' := isClosed_perform hopen before
  have hsettles := o.2.settles (perform r before).catalog
  have hdisposed := (Registry.transfer_of_open hopen' o.2).2.1
  have hcatalog : ((perform r before).catalog.serveEach o.2.requests).catalog.get? key = some g :=
    catalog_concat hopen before o ▸ hkept
  have hlater : before ++ o :: later = before ++ [o] ++ later := by simp
  have hg : Associates (before ++ o :: later) r key g :=
    hlater ▸ (associates_of_get? hopen hkept).append later
  refine ⟨perform_concat r before o ▸ hkept, fun reply g' hreply hg' => ?_, fun d hd => ?_⟩
  · have hhanded := hsettles.handed (Registry.mem_handed hopen' hreply hg')
    exact Option.some.inj (hhanded.symm.trans hcatalog)
  · rw [hdisposed, List.mem_filter] at hd
    obtain ⟨key', hkey', hdiffer⟩ := hsettles.retired hd.1
    have hd' : Associates (before ++ o :: later) r key' d :=
      hkey'.elim (fun hold => (associates_of_get? hopen hold).append _) associates_of_mem
    -- what was retired had another key, or differs from the handle that its key goes on with
    cases heq : d == g with
    | false => rfl
    | true =>
      obtain rfl : key' = key := h hd' hg heq (by simpa using hd.2)
      rw [← heq]
      exact hdiffer g hcatalog

/-- A key that a client holds all the time keeps its handle. -/
theorem get?_held (hopen : r.isClosed = false) {s held : Schedule n} (h : Disciplined (s ++ held))
    {client : Fin n} {key : SharedKey} {g : StateHandle}
    (hstart : (perform r s).get? key = some g)
    (holds : ∀ soon, soon <+: held → 0 < holding (s ++ soon) client key) :
    (perform r (s ++ held)).get? key = some g := by
  induction held using List.reverseRecOn with
  | nil => rwa [List.append_nil]
  | append_singleton held o ih =>
    rw [← List.append_assoc] at h
    have hold := ih h.of_append fun soon hsoon => holds soon (hsoon.trans (List.prefix_append ..))
    -- the key is still referenced after the operation, so it is the old handle that is there
    have hpos := holds _ (List.prefix_refl _)
    rw [← List.append_assoc] at hpos ⊢
    have hsome := Catalog.references_pos_iff.1 (h.referenced hopen hpos)
    rw [catalog_concat hopen] at hsome
    rw [Registry.get?, catalog_concat hopen]
    exact (o.2.settles _).kept hold hsome

/-- However the operations of the clients are interleaved, none of them fails.  From the operation
on that tells a client to go on with `g`, and as long as the client has not given back its last
reference, `g` stays under its key, is what everybody else is told to go on with, and is not
disposed of.  With 32-bit counters this is so if no key ever has `2 ^ 32` references, those of `r`
included. -/
theorem spares_held (s : Schedule n) (r : Registry) (hopen : r.isClosed = false)
    (disciplined : s.Disciplined) (separate : s.Separate r) :
    (∀ before o later, s = before ++ o :: later →
      ∃ reply, ((perform r before).transfer o.2).answer = .ok reply) ∧
    ∀ before client t held later key g reply, s = before ++ (client, t) :: held ++ later →
      ((perform r before).transfer t).answer = .ok reply → (key, g) ∈ t.handed reply →
      (∀ soon, soon <+: held → 0 < holding (before ++ (client, t) :: soon) client key) →
      ∀ soon o more, (client, t) :: held = soon ++ o :: more →
        o.2.Spares (perform r (before ++ soon)) key g := by
  refine ⟨?_, ?_⟩
  · rintro before o later rfl
    exact disciplined.succeeds hopen
  · rintro before client t held later key g reply rfl hreply hhanded holds
    have hstart : (perform r (before ++ [(client, t)])).get? key = some g := by
      rw [Registry.get?, catalog_concat hopen]
      exact (t.settles _).handed
        (Registry.mem_handed (isClosed_perform hopen before) hreply hhanded)
    have hkept : ∀ soon, soon <+: held →
        (perform r (before ++ (client, t) :: soon)).get? key = some g := by
      rintro soon ⟨rest, rfl⟩
      have hdisciplined : Disciplined (before ++ [(client, t)] ++ soon ++ (rest ++ later)) := by
        simpa using disciplined
      have hholds : ∀ earlier, earlier <+: soon →
          0 < holding (before ++ [(client, t)] ++ earlier) client key := fun earlier h => by
        rw [← List.append_cons]
        exact holds earlier (h.trans (List.prefix_append ..))
      rw [List.append_cons]
      exact get?_held hopen hdisciplined.of_append hstart hholds
    rintro soon o more hsplit
    have hspares : Separate (before ++ soon ++ o :: (more ++ later)) r := by
      simpa [hsplit] using separate
    refine hspares.spares hopen ?_
    cases soon with
    | nil =>
      obtain ⟨rfl, rfl⟩ := List.cons_eq_cons.1 hsplit
      simpa using hkept [] List.nil_prefix
    | cons first soon =>
      obtain ⟨rfl, rfl⟩ := List.cons_eq_cons.1 hsplit
      simpa using hkept (soon ++ [o]) ⟨more, by simp⟩

/-- Two clients have written the same file.  The second one goes on with what the first one wrote,
and still does so when the first one has given it back. -/
def handover : Schedule 2 :=
  let written (data : Bytes) : Snapshot :=
    .keyed ⟨"db", 1, ⟨0, 0⟩, ⟨[("1", .memory "1" data)], List.pairwise_singleton ..⟩, .empty,
      .placeholder⟩
  [(0, .register (sharedKey "db" "1") (.memory "1" [1])), (1, .registerAll [written [2]]),
    (0, .unregister (sharedKey "db" "1")), (1, .unregisterAll [written [2]])]

theorem ofClient_handover (client : Fin 2) : ∃ h, ofClient client handover.requests =
    [.register (sharedKey "db" "1") h, .release (sharedKey "db" "1")] := by
  match client with
  | 0 => exact ⟨_, rfl⟩
  | 1 => exact ⟨_, rfl⟩

theorem disciplined_handover : handover.Disciplined := fun client key qs hqs => by
  obtain ⟨h, hrequests⟩ := ofClient_handover client
  rw [hrequests] at hqs
  obtain ⟨rest, hsplit⟩ := hqs
  rcases qs with _ | ⟨q, _ | ⟨q', qs⟩⟩
  · exact Nat.le_refl _
  · obtain ⟨rfl, -⟩ := List.cons_eq_cons.1 hsplit
    exact Nat.zero_le _
  · simp only [List.cons_append, List.cons.injEq, List.append_eq_nil_iff] at hsplit
    obtain ⟨rfl, rfl, rfl, -⟩ := hsplit
    exact Nat.le_refl _

theorem separate_handover : handover.Separate {} := by
  have hkey : ∀ {key h}, handover.Associates {} key h → key = sharedKey "db" "1" := by
    rintro key h (hget | ⟨client, hmem⟩)
    · cases hget
    · have hmem : Request.register key h ∈ ofClient client handover.requests :=
        List.mem_filterMap.2 ⟨_, hmem, if_pos rfl⟩
      obtain ⟨g, hrequests⟩ := ofClient_handover client
      rw [hrequests, List.mem_pair] at hmem
      rcases hmem with hmem | hmem
      · exact (Request.register.inj hmem).1
      · cases hmem
  exact fun key key' h h' ha ha' _ _ => (hkey ha).trans (hkey ha').symm

theorem spares_held_handover :
    handover.Disciplined ∧ handover.Separate {} ∧
      (∀ soon, soon <+: [handover[2]] →
        0 < holding (handover.take 1 ++ handover[1] :: soon) 1 (sharedKey "db" "1")) ∧
      (Transfer.unregister (sharedKey "db" "1")).Spares (perform {} (handover.take 2))
        (sharedKey "db" "1") (.memory "1" [1]) := by
  have holds : ∀ soon, soon <+: [handover[2]] →
      0 < holding (handover.take 1 ++ handover[1] :: soon) 1 (sharedKey "db" "1") := by
    intro soon hsoon
    rcases List.prefix_cons_iff.1 hsoon with rfl | ⟨rest, rfl, hrest⟩
    · decide
    · rw [List.prefix_nil.1 hrest]
      decide
  refine ⟨disciplined_handover, separate_handover, holds, ?_⟩
  exact (spares_held handover {} rfl disciplined_handover separate_handover).2 (handover.take 1) 1 _
    [handover[2]] (handover.drop 3) _ _ _ rfl rfl (.head _) holds [handover[1]] _ [] rfl

end Schedule

end StreamCheckpoint
