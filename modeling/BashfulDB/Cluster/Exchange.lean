import BashfulDB.Cluster.Membership

/-! When one exchange of digests makes two membership tables agree. -/
namespace BashfulDB.Cluster

open Clock

/-- Later in the order of gossip: the higher generation, then the later update. -/
def MemberRecord.Newer (r s : MemberRecord) : Prop :=
  r.generation > s.generation ∨ r.generation = s.generation ∧ r.updatedAt > s.updatedAt

instance (r s : MemberRecord) : Decidable (r.Newer s) := inferInstanceAs (Decidable (_ ∨ _))

/-- A table moves a node from `state` to `target`, or leaves it in its state. -/
def NodeState.Follows (state target : NodeState) : Prop :=
  target = state ∨ state.canTransitionTo target

instance (state target : NodeState) : Decidable (state.Follows target) :=
  inferInstanceAs (Decidable (_ ∨ _))

/-- The states in which a node may enter a table by gossip. -/
def NodeState.Introduced (state : NodeState) : Prop := state = .joining ∨ state = .healthy

instance (state : NodeState) : Decidable state.Introduced := inferInstanceAs (Decidable (_ ∨ _))

/-- What becomes of a table's record of a node when it hears of another one. -/
def heard (known : Option MemberRecord) (remote : MemberRecord) : Option MemberRecord :=
  match known with
  | some r => if remote.Newer r ∧ r.state.Follows remote.state then some remote else some r
  | none => if remote.state.Introduced then some remote else none

/-- The same when the other table may not know the node. -/
def absorb (known remote : Option MemberRecord) : Option MemberRecord :=
  remote.elim known (heard known)

namespace ClusterMembership

variable {m : ClusterMembership} {node : NodeId}

theorem get_mergeDigest (changed : Bool) (m : ClusterMembership) (id : NodeId) (r : MemberRecord) :
    (mergeDigest (changed, m) ⟨id, r.state, r.generation, r.updatedAt⟩).2.members.get node =
      if node = id then heard (m.members.get id) r else m.members.get node := by
  have hkeep : m.members.get node =
      if node = id then m.members.get id else m.members.get node := by
    split
    · rename_i heq
      rw [heq]
    · rfl
  have hput : (m.members.insert id r).get node =
      if node = id then some r else m.members.get node := by
    by_cases hnode : node = id
    · rw [if_pos hnode, hnode, OrdMap.get_insert_self]
    · rw [if_neg hnode, OrdMap.get_insert_of_ne _ hnode]
  cases hid : m.members.get id with
  | none =>
    have hin : (r.state ≠ .joining ∧ r.state ≠ .healthy) ↔ ¬ r.state.Introduced := by
      rw [NodeState.Introduced, not_or]
    rw [hid] at hkeep
    simp only [mergeDigest, hid, heard, hin]
    by_cases h : r.state.Introduced
    · simpa only [h, not_true_eq_false, if_false, if_true] using hput
    · simpa only [h, not_false_eq_true, if_true, if_false] using hkeep
  | some existing =>
    have hlegal : (r.state ≠ existing.state ∧ (!existing.state.canTransitionTo r.state) = true) ↔
        ¬ existing.state.Follows r.state := by
      rw [NodeState.Follows, not_or, Bool.not_eq_true']
      simp
    have hnewer : (r.generation > existing.generation ∨
        r.generation = existing.generation ∧ r.updatedAt > existing.updatedAt) ↔
        r.Newer existing := Iff.rfl
    rw [hid] at hkeep
    simp only [mergeDigest, hid, heard, hlegal, hnewer]
    by_cases hn : r.Newer existing
    · by_cases hf : existing.state.Follows r.state
      · simpa only [hn, hf, not_true_eq_false, if_false, if_true, and_self] using hput
      · simpa only [hn, hf, not_true_eq_false, not_false_eq_true, if_false, if_true,
          and_false] using hkeep
    · simpa only [hn, not_false_eq_true, if_true, false_and, if_false] using hkeep

/-- A node of the other table is merged once, whatever the order of the digests. -/
theorem get_foldl_mergeDigest {l : List (NodeId × MemberRecord)} (hnodup : (l.map Prod.fst).Nodup)
    (changed : Bool) (m : ClusterMembership) :
    ((l.map fun (id, r) => (⟨id, r.state, r.generation, r.updatedAt⟩ : MemberDigest)).foldl
      mergeDigest (changed, m)).2.members.get node =
        absorb (m.members.get node) (Entries.get node l) := by
  induction l generalizing changed m with
  | nil => rfl
  | cons e l ih =>
    obtain ⟨id, r⟩ := e
    obtain ⟨hid, hnodup⟩ := List.nodup_cons.mp hnodup
    rw [List.map_cons, List.foldl_cons]
    have hhead := @get_mergeDigest node changed m id r
    generalize mergeDigest (changed, m) _ = next at hhead ⊢
    obtain ⟨changed', m'⟩ := next
    rw [ih hnodup, hhead, Entries.get]
    by_cases hnode : node = id
    · subst hnode
      have hrest : Entries.get node l = none := by
        rw [← Option.not_isSome_iff_eq_none, Entries.get_isSome_iff]
        exact hid
      rw [if_pos rfl, if_pos rfl, hrest]
      rfl
    · rw [if_neg hnode, if_neg hnode]

/-- What a table records of a node once it has merged the digests of another one. -/
theorem get_mergeRemoteDigests (m other : ClusterMembership) (node : NodeId) :
    (m.mergeRemoteDigests other.memberDigests).2.members.get node =
      absorb (m.members.get node) (other.members.get node) :=
  get_foldl_mergeDigest other.members.nodup_keys false m

end ClusterMembership

/-- One round of gossip between two tables: the first takes the digests of the second, and the
second those of the result. -/
def exchange (a b : ClusterMembership) : ClusterMembership × ClusterMembership :=
  let a := (a.mergeRemoteDigests b.memberDigests).2
  (a, (b.mergeRemoteDigests a.memberDigests).2)

/-- Every node known to either table has the same record in both. -/
def Agree (a b : ClusterMembership) : Prop :=
  ∀ node, (a.members.get node).isSome ∨ (b.members.get node).isSome →
    ∃ r, a.members.get node = some r ∧ b.members.get node = some r

/-- What two tables record of a node can be brought together in one exchange: the newer record is
one legal transition away from the older one, records of the same age have the same state, and
a node that only one table knows is joining or healthy. -/
def Reconcilable : Option MemberRecord → Option MemberRecord → Prop
  | some r, some s =>
    (r.Newer s → s.state.Follows r.state) ∧ (s.Newer r → r.state.Follows s.state) ∧
      (¬ r.Newer s → ¬ s.Newer r → r.state = s.state)
  | some r, none => r.state.Introduced
  | none, some s => s.state.Introduced
  | none, none => True

theorem MemberRecord.Newer.asymm {r s : MemberRecord} (h : r.Newer s) : ¬ s.Newer r := by
  unfold Newer at h ⊢
  rintro (hgen | ⟨hgen, hat⟩)
  · rcases h with hgen' | ⟨hgen', -⟩
    · exact absurd hgen (UInt64.lt_asymm hgen')
    · exact UInt64.lt_irrefl _ (hgen' ▸ hgen)
  · rcases h with hgen' | ⟨-, hat'⟩
    · exact UInt64.lt_irrefl _ (hgen ▸ hgen')
    · exact absurd hat (lt_asymm hat')

theorem MemberRecord.not_newer_self (r : MemberRecord) : ¬ r.Newer r := fun h => h.asymm h

/-- Records that differ in their state alone are not told apart by their age. -/
theorem eq_of_not_newer {r s : MemberRecord} (h : ¬ r.Newer s) (k : ¬ s.Newer r)
    (hstate : r.state = s.state) : r = s := by
  cases r
  cases s
  simp only [MemberRecord.Newer, not_or, not_and] at h k
  have hgen := UInt64.le_antisymm (UInt64.not_lt.mp h.1) (UInt64.not_lt.mp k.1)
  have hat := le_antisymm (not_lt.mp (h.2 hgen)) (not_lt.mp (k.2 hgen.symm))
  simp_all

theorem absorb_agree_iff (a b : Option MemberRecord) :
    ((absorb a b).isSome ∨ (absorb b (absorb a b)).isSome →
      ∃ r, absorb a b = some r ∧ absorb b (absorb a b) = some r) ↔ Reconcilable a b := by
  rcases a with _ | r <;> rcases b with _ | s
  · simp [absorb, Reconcilable]
  · by_cases h : s.state.Introduced <;>
      simp [absorb, heard, Reconcilable, h, s.not_newer_self]
  · by_cases h : r.state.Introduced <;> simp [absorb, heard, Reconcilable, h]
  · by_cases hs : s.Newer r
    · have hne : s ≠ r := fun heq => hs.asymm (heq ▸ hs)
      by_cases hf : r.state.Follows s.state <;>
        simp [absorb, heard, Reconcilable, hs, hf, hs.asymm, hne, s.not_newer_self]
    · by_cases hr : r.Newer s
      · have hne : s ≠ r := fun heq => hs (heq ▸ hr)
        by_cases hf : s.state.Follows r.state <;>
          simp [absorb, heard, Reconcilable, hs, hr, hf, hne]
      · have heq : s = r ↔ r.state = s.state :=
          ⟨fun h => h ▸ rfl, fun h => (eq_of_not_newer hr hs h).symm⟩
        simp [absorb, heard, Reconcilable, hs, hr, heq]

/-- The exchange makes the tables agree exactly when their records of every node can be
reconciled. -/
theorem exchange_agree_iff (a b : ClusterMembership) :
    Agree (exchange a b).1 (exchange a b).2 ↔
      ∀ node, Reconcilable (a.members.get node) (b.members.get node) := by
  refine forall_congr' fun node => ?_
  rw [← absorb_agree_iff]
  simp only [exchange, ClusterMembership.get_mergeRemoteDigests]

/-- The tables that local changes and merges can build. -/
inductive Reachable : ClusterMembership → Prop
  | new (localNode : NodeId) (state : NodeState) (now : Hlc) : Reachable (.new localNode state now)
  | upsert {m m' : ClusterMembership} {node : NodeId} {state : NodeState} {updatedAt : Hlc} :
      Reachable m → m.upsertLocalMember node state updatedAt = .ok m' → Reachable m'
  | transition {m m' : ClusterMembership} {node : NodeId} {target : NodeState} {updatedAt : Hlc} :
      Reachable m → m.transitionState node target updatedAt = .ok m' → Reachable m'
  | merge {m other : ClusterMembership} : Reachable m → Reachable other →
      Reachable (m.mergeRemoteDigests other.memberDigests).2

/-- The first node has seen the third one healthy. -/
def beforeRejoin : ClusterMembership :=
  ⟨⟨⟨1⟩⟩, (OrdMap.empty.insert ⟨⟨1⟩⟩ ⟨.healthy, 0, ⟨1⟩⟩).insert ⟨⟨3⟩⟩ ⟨.healthy, 0, ⟨1⟩⟩, 0⟩

/-- The second node has also seen it go down and join again. -/
def afterRejoin : ClusterMembership :=
  ⟨⟨⟨2⟩⟩, (OrdMap.empty.insert ⟨⟨2⟩⟩ ⟨.healthy, 0, ⟨1⟩⟩).insert ⟨⟨3⟩⟩ ⟨.joining, 2, ⟨3⟩⟩, 0⟩

theorem beforeRejoin_reachable : Reachable beforeRejoin :=
  @Reachable.upsert _ _ ⟨⟨3⟩⟩ .healthy ⟨1⟩ (.new ⟨⟨1⟩⟩ .healthy ⟨1⟩) rfl

theorem afterRejoin_reachable : Reachable afterRejoin := by
  have hknown := @Reachable.upsert _ _ ⟨⟨3⟩⟩ .healthy ⟨1⟩ (.new ⟨⟨2⟩⟩ .healthy ⟨1⟩) rfl
  have hdown := @Reachable.transition _ _ ⟨⟨3⟩⟩ .down ⟨2⟩ hknown rfl
  exact @Reachable.transition _ _ ⟨⟨3⟩⟩ .joining ⟨3⟩ hdown rfl

/-- A node that rejoined between two rounds stays healthy in the one table and joining in the
other: from healthy to joining there is no transition. -/
theorem exchange_misses_rejoin : Reachable beforeRejoin ∧ Reachable afterRejoin ∧
    (exchange beforeRejoin afterRejoin).1.members.get ⟨⟨3⟩⟩ = some ⟨.healthy, 0, ⟨1⟩⟩ ∧
    (exchange beforeRejoin afterRejoin).2.members.get ⟨⟨3⟩⟩ = some ⟨.joining, 2, ⟨3⟩⟩ ∧
    ¬ Agree (exchange beforeRejoin afterRejoin).1 (exchange beforeRejoin afterRejoin).2 := by
  have hfirst : (exchange beforeRejoin afterRejoin).1.members.get ⟨⟨3⟩⟩ =
      some ⟨.healthy, 0, ⟨1⟩⟩ := by decide +kernel
  have hsecond : (exchange beforeRejoin afterRejoin).2.members.get ⟨⟨3⟩⟩ =
      some ⟨.joining, 2, ⟨3⟩⟩ := by decide +kernel
  refine ⟨beforeRejoin_reachable, afterRejoin_reachable, hfirst, hsecond, ?_⟩
  intro hagree
  obtain ⟨r, hr, hr'⟩ := hagree ⟨⟨3⟩⟩ (Or.inl (by rw [hfirst]; rfl))
  cases hfirst.symm.trans hr
  cases hsecond.symm.trans hr'

end BashfulDB.Cluster
