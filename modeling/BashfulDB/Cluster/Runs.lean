import BashfulDB.Cluster.Topology
import BashfulDB.Library.Steps

/-! What holds of the records and of the ring along every run of the operations. -/
namespace BashfulDB.Cluster

open Clock

inductive Operation
  | upsertLocalMember (it : Iteration) (info : NodeInfo) (updatedAt : Hlc)
  | transitionState (it : Iteration) (node : NodeId) (target : NodeState) (updatedAt : Hlc)
  | mergeRemoteDigests (remote : List (MemberDigest × Iteration))

namespace Topology

def next (t : Topology) : Operation → Topology
  | .upsertLocalMember it info updatedAt => (t.upsertLocalMember it info updatedAt).2
  | .transitionState it node target updatedAt => (t.transitionState it node target updatedAt).2
  | .mergeRemoteDigests remote => (t.mergeRemoteDigests remote).2

def run (t : Topology) (ops : List Operation) : Topology := ops.foldl next t

/-- No generation has reached `u64::MAX`. -/
def BelowMax (t : Topology) : Prop :=
  ∀ id r, t.members.get id = some r → r.generation ≠ UInt64.ofNat (2 ^ 64 - 1)

/-- Every known record is kept, or replaced by a later one in a state that may follow its own. -/
def MovesForward (t t' : Topology) : Prop :=
  ∀ id r, t.members.get id = some r → ∃ r', t'.members.get id = some r' ∧
    (r' = r ∨ r'.record.Newer r.record ∧ r.info.state.Follows r'.info.state)

/-- Every record and the ring are as before. -/
def Untouched (t t' : Topology) : Prop := t'.members = t.members ∧ t'.ring = t.ring

/-- The digest is newer than what the table knows, and legal for it. -/
def Accepts (t : Topology) (digest : MemberDigest) : Prop :=
  match t.members.get digest.id with
  | some r => MemberRecord.Newer ⟨digest.state, digest.generation, digest.updatedAt⟩ r.record ∧
      r.info.state.Follows digest.state
  | none => digest.state.Introduced

/-- The operation moves the table forward, a merge with each of its digests, and leaves it alone
where it refuses. -/
def Advances (t : Topology) : Operation → Prop
  | .upsertLocalMember it info updatedAt =>
    MovesForward t (t.upsertLocalMember it info updatedAt).2 ∧
      ∀ e, (t.upsertLocalMember it info updatedAt).1 = .error e →
        Untouched t (t.upsertLocalMember it info updatedAt).2
  | .transitionState it node target updatedAt =>
    MovesForward t (t.transitionState it node target updatedAt).2 ∧
      ∀ e, (t.transitionState it node target updatedAt).1 = .error e →
        Untouched t (t.transitionState it node target updatedAt).2
  | .mergeRemoteDigests remote => ∀ pre d post, remote = pre ++ d :: post →
    MovesForward (t.mergeRemoteDigests pre).2 (t.mergeRemoteDigests (pre ++ [d])).2 ∧
      (¬ (t.mergeRemoteDigests pre).2.Accepts d.1 →
        Untouched (t.mergeRemoteDigests pre).2 (t.mergeRemoteDigests (pre ++ [d])).2)

variable {t t' : Topology} {ops : List Operation} {id : NodeId}

theorem lt_saturatingSucc {n : UInt64} (h : n ≠ UInt64.ofNat (2 ^ 64 - 1)) :
    n < saturatingSucc n := by
  rw [saturatingSucc, if_neg h, UInt64.lt_iff_toNat_lt, UInt64.toNat_add]
  have hlt := n.toNat_lt
  have hne : n.toNat ≠ 2 ^ 64 - 1 := fun heq => h (UInt64.toNat_inj.mp heq)
  simp only [UInt64.toNat_one]
  omega

theorem MovesForward.of_put {member : Member} (hputs : Puts t id member t')
    (h : ∀ r, t.members.get id = some r →
      member.record.Newer r.record ∧ r.info.state.Follows member.info.state) :
    MovesForward t t' := by
  intro id' r hr
  rw [hputs.members, OrdMap.get_insert]
  by_cases hid : id' = id
  · subst hid
    exact ⟨member, if_pos rfl, Or.inr (h r hr)⟩
  · exact ⟨r, (if_neg hid).trans hr, Or.inl rfl⟩

theorem Effect.movesForward {later : Member → Member → Prop} (h : Effect later t t')
    (hlater : ∀ id r member, t.members.get id = some r → later member r →
      member.record.Newer r.record) : MovesForward t t' := by
  cases h with
  | kept heq =>
    subst heq
    exact fun id r hr => ⟨r, hr, Or.inl rfl⟩
  | updated hputs hget hrel hfollows _ =>
    refine .of_put hputs fun r hr => ?_
    cases hget.symm.trans hr
    exact ⟨hlater _ _ _ hget hrel, hfollows⟩
  | joined hputs hget _ =>
    refine .of_put hputs fun r hr => ?_
    cases hget.symm.trans hr

theorem BelowMax.newer_of_bumped (h : t.BelowMax) :
    ∀ id r member, t.members.get id = some r → Bumped member r → member.record.Newer r.record := by
  intro id r member hget hbumped
  have hlt : r.generation < member.generation := by
    rw [hbumped]
    exact lt_saturatingSucc (h id r hget)
  exact Or.inl hlt

theorem mergeRemoteDigests_concat (t : Topology) (remote : List (MemberDigest × Iteration))
    (d : MemberDigest × Iteration) :
    t.mergeRemoteDigests (remote ++ [d]) = mergeDigest (t.mergeRemoteDigests remote) d.1 d.2 := by
  rw [mergeRemoteDigests, List.foldl_append]
  rfl

theorem Untouched.of_eq (h : t' = t) : Untouched t t' := by
  rw [h]
  exact ⟨rfl, rfl⟩

theorem upsertLocalMember_error {it : Iteration} {info : NodeInfo} {updatedAt : Hlc}
    {e : ClusterError} : (t.upsertLocalMember it info updatedAt).1 = .error e →
      (t.upsertLocalMember it info updatedAt).2 = t := by
  unfold upsertLocalMember
  split
  · split
    · exact fun _ => rfl
    · intro h
      cases h
  · intro h
    cases h

theorem transitionState_error {it : Iteration} {node : NodeId} {target : NodeState}
    {updatedAt : Hlc} {e : ClusterError} :
    (t.transitionState it node target updatedAt).1 = .error e →
      (t.transitionState it node target updatedAt).2 = t := by
  unfold transitionState
  split
  · exact fun _ => rfl
  · split
    · exact fun _ => rfl
    · intro h
      cases h

theorem mergeDigest_of_not_accepts {changed : Bool} {digest : MemberDigest} {it : Iteration}
    (h : ¬ t.Accepts digest) : (mergeDigest (changed, t) digest it).2 = t := by
  unfold Accepts at h
  unfold mergeDigest
  dsimp only
  split
  · rename_i r hget
    simp only [hget] at h
    split
    · rfl
    · rename_i hnewer
      split
      · rfl
      · rename_i hlegal
        have hfollows := follows_of_legal fun h => hlegal ⟨Ne.symm h.1, h.2⟩
        exact absurd ⟨not_not.mp hnewer, hfollows⟩ h
  · rename_i hget
    simp only [hget] at h
    split
    · rfl
    · rename_i hstate
      exact absurd (not_and_or.mp hstate) fun hin => h (hin.imp not_not.mp not_not.mp)

theorem advances (hmax : t.BelowMax) (op : Operation) : t.Advances op := by
  cases op with
  | upsertLocalMember it info updatedAt =>
    refine ⟨(effect_upsertLocalMember t it info updatedAt).movesForward hmax.newer_of_bumped, ?_⟩
    intro e he
    exact .of_eq (upsertLocalMember_error he)
  | transitionState it node target updatedAt =>
    refine ⟨(effect_transitionState t it node target updatedAt).movesForward
      hmax.newer_of_bumped, ?_⟩
    intro e he
    exact .of_eq (transitionState_error he)
  | mergeRemoteDigests remote =>
    rintro pre d post rfl
    rw [mergeRemoteDigests_concat]
    refine ⟨(effect_mergeDigest _ _ d.1 d.2).movesForward fun _ _ _ _ h => h, ?_⟩
    intro hrefused
    exact .of_eq (mergeDigest_of_not_accepts hrefused)

theorem Effect.known {later : Member → Member → Prop} (h : Effect later t t')
    (hid : (t.members.get id).isSome) : (t'.members.get id).isSome := by
  have hput : ∀ {j member}, Puts t j member t' → (t'.members.get id).isSome := by
    intro j member hputs
    rw [hputs.members, OrdMap.get_insert]
    split
    · rfl
    · exact hid
  cases h with
  | kept heq => rwa [heq]
  | updated hputs => exact hput hputs
  | joined hputs => exact hput hputs

/-- What every effect preserves is preserved by every operation. -/
theorem next_induction {I : Topology → Prop}
    (heffect : ∀ {later t t'}, Effect later t t' → I t → I t') (op : Operation) (h : I t) :
    I (t.next op) := by
  cases op with
  | upsertLocalMember it info updatedAt => exact heffect (effect_upsertLocalMember ..) h
  | transitionState it node target updatedAt => exact heffect (effect_transitionState ..) h
  | mergeRemoteDigests remote =>
    suffices hfold : ∀ acc : Bool × Topology, I acc.2 →
        I (remote.foldl (fun acc d => mergeDigest acc d.1 d.2) acc).2 from hfold (false, t) h
    induction remote with
    | nil => exact fun acc hacc => hacc
    | cons d remote ih =>
      intro acc hacc
      exact ih _ (heffect (effect_mergeDigest acc.1 acc.2 d.1 d.2) hacc)

theorem run_induction {I : Topology → Prop}
    (heffect : ∀ {later t t'}, Effect later t t' → I t → I t') (h : I t) : I (t.run ops) := by
  induction ops generalizing t with
  | nil => exact h
  | cons op ops ih => exact ih (next_induction heffect op h)

/-- Along every run in which no generation has reached its maximum, the records of known nodes
only move forward, and no node is forgotten. -/
theorem records_move_forward (it : Iteration) (info : NodeInfo) (now : Hlc) (ops : List Operation)
    (hmax : Throughout next (fun t _ => t.BelowMax) (new it info now) ops) :
    Throughout next Advances (new it info now) ops ∧
      ∀ pre post, ops = pre ++ post → ∀ node ∈ ((new it info now).run pre).allNodes,
        node ∈ ((new it info now).run ops).allNodes := by
  refine ⟨hmax.imp fun t op h => advances h op, ?_⟩
  rintro pre post rfl node hnode
  rw [allNodes, OrdMap.mem_keys] at hnode ⊢
  rw [run, List.foldl_append]
  exact run_induction (I := fun t => (t.members.get node).isSome) (fun h => h.known) hnode

instance (t : Topology) : Decidable t.BelowMax :=
  decidable_of_iff (∀ e ∈ t.members.entries, e.2.generation ≠ UInt64.ofNat (2 ^ 64 - 1))
    ⟨fun h _ _ hget => h _ (OrdMap.get_eq_some_iff.mp hget),
      fun h _ hmem => h _ _ (OrdMap.get_eq_some_iff.mpr hmem)⟩

/-- A node at no known address. -/
def sampleInfo (id : NodeId) (state : NodeState) : NodeInfo :=
  ⟨id, unknownNodeAddress, unknownNodeAddress, state, []⟩

/-- A second node joins, starts to take over data, and is heard to be healthy. -/
def bringUp : List Operation :=
  [.upsertLocalMember .ascending (sampleInfo ⟨⟨2⟩⟩ .joining) ⟨2⟩,
    .transitionState .ascending ⟨⟨2⟩⟩ .bootstrapping ⟨3⟩,
    .mergeRemoteDigests [(⟨⟨⟨2⟩⟩, .healthy, 2, ⟨4⟩⟩, .ascending)]]

theorem records_move_forward_bringUp :
    Throughout next Advances (new .ascending (sampleInfo ⟨⟨1⟩⟩ .healthy) ⟨1⟩) bringUp :=
  (records_move_forward .ascending (sampleInfo ⟨⟨1⟩⟩ .healthy) ⟨1⟩ bringUp (by decide +kernel)).1

/-- Each record stands under the id that it holds, and the ring is one of the healthy nodes. -/
structure Reflects (t : Topology) : Prop where
  ids : ∀ id r, t.members.get id = some r → r.info.id = id
  ring : ∃ nodes : List NodeId, t.ring = nodes.foldl Ring.addNode .new ∧
    ∀ n, n ∈ nodes ↔ t.nodeState n = some .healthy

theorem nodeState_healthy_iff {n : NodeId} : t.nodeState n = some .healthy ↔
    ∃ r, t.members.get n = some r ∧ r.info.state = .healthy := by
  simp [nodeState]

/-- A ring that is built again is one of the healthy nodes, whatever the order of iteration. -/
theorem exists_nodes_rebuildRing (hids : ∀ id r, t.members.get id = some r → r.info.id = id)
    (it : Iteration) : ∃ nodes : List NodeId,
      (t.rebuildRing it).ring = nodes.foldl Ring.addNode .new ∧
        ∀ n, n ∈ nodes ↔ t.nodeState n = some .healthy := by
  refine ⟨((it.order t.members.values).filter (·.info.state = .healthy)).map (·.info.id), ?_, ?_⟩
  · rw [List.foldl_map, List.foldl_filter]
    simp only [rebuildRing, decide_eq_true_eq]
  · intro n
    rw [nodeState_healthy_iff]
    simp only [List.mem_map, List.mem_filter, (it.perm _).mem_iff, OrdMap.values,
      decide_eq_true_eq]
    constructor
    · rintro ⟨r, ⟨⟨⟨id, r'⟩, hmem, rfl⟩, hhealthy⟩, rfl⟩
      have hget := OrdMap.get_eq_some_iff.mpr hmem
      exact ⟨r', (hids id r' hget).symm ▸ hget, hhealthy⟩
    · rintro ⟨r, hget, hhealthy⟩
      exact ⟨r, ⟨⟨(n, r), OrdMap.get_eq_some_iff.mp hget, rfl⟩, hhealthy⟩, hids n r hget⟩

theorem nodeState_put {member : Member} {n : NodeId} (h : t'.members = t.members.insert id member) :
    t'.nodeState n = if n = id then some member.info.state else t.nodeState n := by
  rw [nodeState, h, OrdMap.get_insert]
  split <;> rfl

theorem Reflects.put {member : Member} (h : t.Reflects) (hputs : Puts t id member t')
    (hid : member.info.id = id) : t'.Reflects := by
  have hids : ∀ j r, t'.members.get j = some r → r.info.id = j := by
    intro j r hget
    rw [hputs.members, OrdMap.get_insert] at hget
    split at hget
    · rename_i hj
      cases hget
      rw [hj, hid]
    · exact h.ids j r hget
  refine ⟨hids, ?_⟩
  rcases hputs.ring with ⟨it, hrebuilt⟩ | ⟨hkept, hsame⟩
  · rw [hrebuilt]
    exact exists_nodes_rebuildRing hids it
  · obtain ⟨nodes, hring, hmem⟩ := h.ring
    refine ⟨nodes, hkept.trans hring, fun n => (hmem n).trans ?_⟩
    rw [nodeState_put hputs.members]
    split
    · rename_i hn
      rw [hn, hsame, Option.some.injEq]
    · rfl

theorem Effect.reflects {later : Member → Member → Prop} (heffect : Effect later t t')
    (h : t.Reflects) : t'.Reflects := by
  cases heffect with
  | kept heq => rwa [heq]
  | updated hputs hget _ _ hid => exact h.put hputs (hid (h.ids _ _ hget))
  | joined hputs _ hid => exact h.put hputs hid

theorem reflects_new (it : Iteration) (info : NodeInfo) (now : Hlc) :
    (new it info now).Reflects := by
  have hids : ∀ id r, (new it info now).members.get id = some r → r.info.id = id := by
    intro id r hget
    change (OrdMap.empty.insert info.id _).get id = some r at hget
    rw [OrdMap.get_insert] at hget
    split at hget
    · rename_i hid
      cases hget
      exact hid.symm
    · cases hget
  exact ⟨hids, exists_nodes_rebuildRing hids it⟩

/-- The tables that runs of the operations lead to. -/
def Reached (t : Topology) : Prop := ∃ it info now ops, t = (new it info now).run ops

theorem Reached.reflects (h : t.Reached) : t.Reflects := by
  obtain ⟨it, info, now, ops, rfl⟩ := h
  exact run_induction (fun heffect => heffect.reflects) (reflects_new it info now)

/-- The ring that is reached is the one of the healthy nodes, added in any order. -/
theorem Reflects.ring_eq (h : t.Reflects) (hapart : Ring.Apart defaultVnodesPerNode t.allNodes)
    {nodes : List NodeId} (hnodes : ∀ n, n ∈ nodes ↔ t.nodeState n = some .healthy) :
    Ring.Apart defaultVnodesPerNode nodes ∧ t.ring = nodes.foldl Ring.addNode .new := by
  have hknown : ∀ n ∈ nodes, n ∈ t.allNodes := by
    intro n hn
    obtain ⟨r, hget, -⟩ := nodeState_healthy_iff.mp ((hnodes n).mp hn)
    rw [allNodes, OrdMap.mem_keys, hget]
    rfl
  have hnodesApart : Ring.Apart defaultVnodesPerNode nodes := fun a ha b hb =>
    hapart a (hknown a ha) b (hknown b hb)
  obtain ⟨nodes', hring, hmem⟩ := h.ring
  refine ⟨hnodesApart, hring.trans ?_⟩
  exact (Ring.foldl_addNode_congr hnodesApart fun n => (hnodes n).trans (hmem n).symm).symm

/-- After every run, where the vnodes of different members do not meet, the ring holds just the
healthy members, is the one that results from adding them in any order, and so gives the same
owners as that of any other table with the same healthy members. -/
theorem ring_reflects_healthy (t : Topology) (ht : t.Reached)
    (hapart : Ring.Apart defaultVnodesPerNode t.allNodes) :
    (∀ n, n ∈ t.ringSnapshot.allNodes ↔ t.nodeState n = some .healthy) ∧
    (∀ nodes : List NodeId, (∀ n, n ∈ nodes ↔ t.nodeState n = some .healthy) →
      t.ringSnapshot = nodes.foldl Ring.addNode .new) ∧
    ∀ t' : Topology, t'.Reached → Ring.Apart defaultVnodesPerNode t'.allNodes →
      (∀ n, t'.nodeState n = some .healthy ↔ t.nodeState n = some .healthy) →
        ∀ key n, t'.ownersForKey key n = t.ownersForKey key n := by
  have hreflects := ht.reflects
  obtain ⟨nodes, -, hmem⟩ := hreflects.ring
  obtain ⟨hnodesApart, hring⟩ := hreflects.ring_eq hapart hmem
  refine ⟨?_, fun nodes' hmem' => (hreflects.ring_eq hapart hmem').2, ?_⟩
  · intro n
    rw [ringSnapshot, hring, Ring.mem_allNodes_foldl_addNode hnodesApart, hmem]
  · intro t' ht' hapart' hsame key n
    have hring' := (ht'.reflects.ring_eq hapart' fun m => (hmem m).trans (hsame m).symm).2
    rw [ownersForKey, ownersForKey, hring, hring']

/-- The second node is healthy in the end, and on the ring. -/
theorem ring_reflects_bringUp :
    ⟨⟨2⟩⟩ ∈ ((new .ascending (sampleInfo ⟨⟨1⟩⟩ .healthy) ⟨1⟩).run bringUp).ringSnapshot.allNodes :=
  ((ring_reflects_healthy _ ⟨.ascending, sampleInfo ⟨⟨1⟩⟩ .healthy, ⟨1⟩, bringUp, rfl⟩
    (Ring.apart_of_baseHash (by decide +kernel))).1 _).mpr (by decide +kernel)

end Topology

end BashfulDB.Cluster
