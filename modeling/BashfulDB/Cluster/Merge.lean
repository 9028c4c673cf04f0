import BashfulDB.Cluster.Topology

/-! Merging a list of digests again, or in another order, changes no record. -/
namespace BashfulDB.Cluster.Topology

open Clock

variable {t : Topology} {digest other : MemberDigest} {it : Iteration}
  {members : OrdMap NodeId Member} {digests : List MemberDigest}
  {remote : List (MemberDigest × Iteration)}

/-- The record that a digest makes of what is known of its node, if it is not skipped. -/
def taken (digest : MemberDigest) : Option Member → Option Member
  | some r =>
    if ¬ (digest.generation > r.generation ∨
      digest.generation = r.generation ∧ digest.updatedAt > r.updatedAt) then none
    else if digest.state ≠ r.info.state ∧ !r.info.state.canTransitionTo digest.state then none
    else some ⟨{ r.info with state := digest.state }, digest.generation, digest.updatedAt⟩
  | none =>
    if digest.state ≠ .joining ∧ digest.state ≠ .healthy then none
    else
      some ⟨⟨digest.id, unknownNodeAddress, unknownNodeAddress, digest.state, []⟩,
        digest.generation, digest.updatedAt⟩

/-- A round of the merge, as far as it concerns the records. -/
def learn (members : OrdMap NodeId Member) (digest : MemberDigest) : OrdMap NodeId Member :=
  match taken digest (members.get digest.id) with
  | some member => members.insert digest.id member
  | none => members

theorem members_mergeDigest (changed : Bool) (t : Topology) (digest : MemberDigest)
    (it : Iteration) :
    (mergeDigest (changed, t) digest it).2.members = learn t.members digest ∧
      (mergeDigest (changed, t) digest it).1 =
        (changed || (taken digest (t.members.get digest.id)).isSome) := by
  unfold mergeDigest learn taken
  cases hget : t.members.get digest.id with
  | none =>
    simp only [hget]
    split
    · exact ⟨rfl, (Bool.or_false changed).symm⟩
    · exact ⟨(puts_new _ it (nodeState_of_not_known hget)).members, (Bool.or_true changed).symm⟩
  | some r =>
    simp only [hget]
    split
    · exact ⟨rfl, (Bool.or_false changed).symm⟩
    · split
      · exact ⟨rfl, (Bool.or_false changed).symm⟩
      · exact ⟨(puts_known _ it (nodeState_of_get hget)).members, (Bool.or_true changed).symm⟩

/-- A merge is the rounds of its digests. -/
theorem members_mergeRemoteDigests (t : Topology) (remote : List (MemberDigest × Iteration)) :
    (t.mergeRemoteDigests remote).2.members = (remote.map Prod.fst).foldl learn t.members := by
  rw [mergeRemoteDigests]
  generalize false = changed
  induction remote generalizing t changed with
  | nil => rfl
  | cons d remote ih =>
    rw [List.foldl_cons, List.map_cons, List.foldl_cons,
      ← (members_mergeDigest changed t d.1 d.2).1]
    exact ih _ _

theorem get_learn (digest : MemberDigest) (node : NodeId) :
    (learn members digest).get node =
      if node = digest.id then (taken digest (members.get node)).or (members.get node)
      else members.get node := by
  unfold learn
  by_cases hnode : node = digest.id
  · subst hnode
    rw [if_pos rfl]
    cases taken digest (members.get digest.id) with
    | none => rfl
    | some member => exact OrdMap.get_insert_self _
  · rw [if_neg hnode]
    split
    · exact OrdMap.get_insert_of_ne _ hnode
    · rfl

theorem times_of_taken {known : Option Member} {member : Member}
    (h : taken digest known = some member) :
    member.generation = digest.generation ∧ member.updatedAt = digest.updatedAt := by
  cases known with
  | none =>
    simp only [taken] at h
    split at h
    · cases h
    · cases h
      exact ⟨rfl, rfl⟩
  | some r =>
    simp only [taken] at h
    split at h
    · cases h
    · split at h
      · cases h
      · cases h
        exact ⟨rfl, rfl⟩

/-- A digest that was taken, or skipped, is skipped the next time. -/
theorem taken_again (digest : MemberDigest) (known : Option Member) :
    taken digest ((taken digest known).or known) = none := by
  cases h : taken digest known with
  | none => rw [Option.none_or, h]
  | some member =>
    obtain ⟨hgeneration, hupdatedAt⟩ := times_of_taken h
    rw [Option.some_or, taken, if_pos]
    rw [hgeneration, hupdatedAt]
    exact fun hnewer => hnewer.elim (lt_irrefl _) fun h => lt_irrefl _ h.2

/-- The table has nothing to learn from the digest. -/
def Settled (members : OrdMap NodeId Member) (digest : MemberDigest) : Prop :=
  taken digest (members.get digest.id) = none

theorem settled_learn : Settled (learn members digest) digest := by
  rw [Settled, get_learn, if_pos rfl]
  exact taken_again _ _

theorem Settled.learn_other (h : Settled members digest) (hne : digest.id ≠ other.id) :
    Settled (learn members other) digest := by
  rw [Settled, get_learn, if_neg hne]
  exact h

theorem Settled.learn_eq (h : Settled members digest) : learn members digest = members := by
  rw [learn, h]

/-- Digests of other nodes do not unsettle what one has settled. -/
theorem Settled.foldl_learn (h : Settled members digest)
    (hne : ∀ other ∈ digests, digest.id ≠ other.id) :
    Settled (digests.foldl learn members) digest := by
  induction digests generalizing members with
  | nil => exact h
  | cons other digests ih =>
    rw [List.forall_mem_cons] at hne
    exact ih (h.learn_other hne.1) hne.2

/-- After the digests of a list have been merged, each of them is settled. -/
theorem settled_foldl_learn (h : (digests.map (·.id)).Nodup) (hmem : digest ∈ digests) :
    Settled (digests.foldl learn members) digest := by
  induction digests generalizing members with
  | nil => cases hmem
  | cons first digests ih =>
    rw [List.map_cons, List.nodup_cons] at h
    rcases List.mem_cons.mp hmem with rfl | hmem
    · refine settled_learn.foldl_learn fun other hother heq => h.1 ?_
      exact List.mem_map.mpr ⟨other, hother, heq.symm⟩
    · exact ih h.2 hmem

theorem merge_settled (h : ∀ d ∈ remote, Settled t.members d.1) :
    (t.mergeRemoteDigests remote).1 = false ∧
      (t.mergeRemoteDigests remote).2.members = t.members := by
  rw [mergeRemoteDigests]
  induction remote generalizing t with
  | nil => exact ⟨rfl, rfl⟩
  | cons d remote ih =>
    rw [List.forall_mem_cons] at h
    obtain ⟨hmembers, hchanged⟩ := members_mergeDigest false t d.1 d.2
    rw [h.1.learn_eq] at hmembers
    rw [show taken d.1 (t.members.get d.1.id) = none from h.1] at hchanged
    rw [List.foldl_cons]
    generalize mergeDigest (false, t) d.1 d.2 = next at hmembers hchanged ⊢
    obtain ⟨changed, t'⟩ := next
    obtain rfl : changed = false := hchanged
    rw [← hmembers]
    refine ih fun e he => ?_
    rw [hmembers]
    exact h.2 e he

/-- Digests of two nodes may come in either order. -/
theorem learn_comm (hne : digest.id ≠ other.id) :
    learn (learn members digest) other = learn (learn members other) digest := by
  refine OrdMap.ext_get fun node => ?_
  simp only [get_learn]
  by_cases hdigest : node = digest.id
  · simp [hdigest, hne]
  · simp [hdigest]

/-- Merging a list of digests of different nodes a second time changes no record and reports no
change, and the order of the list does not matter. -/
theorem merge_idempotent_of_nodup (t : Topology) (remote : List (MemberDigest × Iteration))
    (h : (remote.map (·.1.id)).Nodup) :
    (∀ again, again.map Prod.fst = remote.map Prod.fst →
        ((t.mergeRemoteDigests remote).2.mergeRemoteDigests again).2.members =
            (t.mergeRemoteDigests remote).2.members ∧
          ((t.mergeRemoteDigests remote).2.mergeRemoteDigests again).1 = false) ∧
      ∀ permuted, (permuted.map Prod.fst).Perm (remote.map Prod.fst) →
        (t.mergeRemoteDigests permuted).2.members = (t.mergeRemoteDigests remote).2.members := by
  have hids : ((remote.map Prod.fst).map (·.id)).Nodup := by
    rw [List.map_map]
    exact h
  constructor
  · intro again hagain
    have hsettled : ∀ d ∈ again, Settled (t.mergeRemoteDigests remote).2.members d.1 := by
      intro d hd
      rw [members_mergeRemoteDigests]
      refine settled_foldl_learn hids ?_
      rw [← hagain]
      exact List.mem_map_of_mem hd
    obtain ⟨hchanged, hmembers⟩ := merge_settled hsettled
    exact ⟨hmembers, hchanged⟩
  · intro permuted hperm
    rw [members_mergeRemoteDigests, members_mergeRemoteDigests]
    refine hperm.foldl_eq' (fun d hd e he members => ?_) _
    by_cases heq : d.id = e.id
    · rw [List.inj_on_of_nodup_map hids (hperm.mem_iff.mp hd) (hperm.mem_iff.mp he) heq]
    · exact learn_comm heq

/-- Digests of two nodes. -/
def arrivals : List (MemberDigest × Iteration) :=
  [(⟨⟨⟨2⟩⟩, .healthy, 1, ⟨5⟩⟩, .ascending), (⟨⟨⟨3⟩⟩, .joining, 0, ⟨6⟩⟩, .ascending)]

theorem merge_idempotent_arrivals :
    let t := new .ascending ⟨⟨⟨1⟩⟩, unknownNodeAddress, unknownNodeAddress, .healthy, []⟩ ⟨4⟩
    (t.mergeRemoteDigests arrivals).1 = true ∧
      ((t.mergeRemoteDigests arrivals).2.mergeRemoteDigests arrivals).1 = false ∧
      (t.mergeRemoteDigests arrivals.reverse).2.members =
        (t.mergeRemoteDigests arrivals).2.members := by
  intro t
  have hids : (arrivals.map (·.1.id)).Nodup := by decide
  obtain ⟨hagain, hperm⟩ := merge_idempotent_of_nodup t arrivals hids
  have hreverse : (arrivals.reverse.map Prod.fst).Perm (arrivals.map Prod.fst) :=
    (List.reverse_perm _).map _
  exact ⟨rfl, (hagain arrivals rfl).2, hperm _ hreverse⟩

end BashfulDB.Cluster.Topology
