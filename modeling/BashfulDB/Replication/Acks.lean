import Mathlib.Data.List.Nodup
import BashfulDB.Cluster.Topology
import BashfulDB.Replication.Alone

/-! What an acknowledgement stands for: copies at owners, and hints at other nodes. -/
namespace BashfulDB.Replication

open Clock Data

/-- What a coordinator sees of the cluster through its node's table, as long as the replication
factor it asks for is one that `owners_for_key` does not panic on. -/
def Membership.ofTopology (t : Cluster.Topology) : Membership :=
  ⟨fun key n => (t.ownersForKey key n).getD [], t.allNodes⟩

/-- The table names no node twice, and no owner of a key twice. -/
theorem Membership.nodup_ofTopology (t : Cluster.Topology) :
    (ofTopology t).allNodes.Nodup ∧ ∀ key n, ((ofTopology t).ownersForKey key n).Nodup := by
  refine ⟨t.members.nodup_keys, fun key n => ?_⟩
  change ((t.ring.ownersForKey key n).getD []).Nodup
  cases howners : t.ring.ownersForKey key n with
  | none => exact List.nodup_nil
  | some owners =>
    rw [(Cluster.Ring.ownersForKey_eq_some.mp howners).2]
    exact t.ring.nodup_collectOwners key n

/-- The task of each owner ends once, and a remote write reaches its target only where it is
acknowledged. -/
structure Honest (owners : List NodeId) (env : Env) : Prop where
  writes : (env.writes.map Prod.fst).Perm owners
  stored : ∀ p ∈ env.writes, p.2.applied = true → p.2 = .acked
  hints : ∀ n, (env.hints n).applied = true → env.hints n = .acked

/-- The version `v` of `key` is stored by the owners `acked`, and as a hint for the failed owner of
each pair of `hinted` by the node beside it. No other replica has changed. -/
structure Placed (members : Membership) (owners : List NodeId) (key : ObjectKey) (v : VersionedDoc)
    (before after : Replicas) (acked : List NodeId) (hinted : List (NodeId × NodeId)) : Prop where
  acked_nodup : acked.Nodup
  acked_owners : acked ⊆ owners
  stored : ∀ n ∈ acked, (after n).held key = some v
  targets_nodup : (hinted.map Prod.fst).Nodup
  targets : ∀ p ∈ hinted, p.1 ∈ owners ∧ p.1 ∉ acked
  holders_nodup : (hinted.map Prod.snd).Nodup
  holders : ∀ p ∈ hinted, p.2 ∈ members.allNodes ∧ p.2 ∉ owners
  hints : ∀ p ∈ hinted,
    (after p.2).hints.get (makeHintKey p.1 v.hlc key.objectId) = some ⟨key, v⟩
  others : ∀ n, n ∉ acked → n ∉ hinted.map Prod.snd → after n = before n

variable {members : Membership} {replicas : Replicas} {req : WriteRequest} {n : NodeId}
  {completions : List (NodeId × WriteFate)} {pairs : List (NodeId × NodeId)}
  {fate : NodeId → WriteFate} {key : ObjectKey} {owners : List NodeId} {env : Env}

theorem remoteWrite_of_ne {node : NodeId} {fate : WriteFate} (h : n ≠ node) :
    remoteWrite replicas node req fate n = replicas n := by
  unfold remoteWrite
  split
  · exact Function.update_of_ne h _ _
  · rfl

theorem broadcastWrite_of_not_reached (h : ¬ Reached completions n) :
    (broadcastWrite replicas req completions).2.2 n = replicas n := by
  unfold broadcastWrite
  induction completions generalizing replicas with
  | nil => rfl
  | cons p completions ih =>
    obtain ⟨node, fate⟩ := p
    have hrest : ¬ Reached completions n := by
      rintro ⟨fate', hmem, happlied⟩
      exact h ⟨fate', List.mem_cons_of_mem _ hmem, happlied⟩
    rw [List.foldl_cons]
    refine (ih hrest).trans ?_
    by_cases hn : n = node
    · subst hn
      have hlost : ¬ fate.applied = true := fun ha => h ⟨fate, List.mem_cons_self, ha⟩
      exact congrFun (if_neg hlost) n
    · exact remoteWrite_of_ne hn

theorem mem_failedNodes (h : n ∈ failedNodes completions) :
    ∃ applied, (n, WriteFate.failed applied) ∈ completions := by
  obtain ⟨⟨node, fate⟩, hmem, heq⟩ := List.mem_filterMap.mp h
  cases fate with
  | failed applied =>
    cases heq
    exact ⟨applied, hmem⟩
  | acked => cases heq
  | panicked applied => cases heq

theorem failedNodes_sublist : (failedNodes completions).Sublist (completions.map Prod.fst) := by
  induction completions with
  | nil => exact List.Sublist.refl _
  | cons p completions ih =>
    obtain ⟨node, fate⟩ := p
    cases fate with
    | failed applied => exact ih.cons_cons _
    | acked => exact ih.cons _
    | panicked applied => exact ih.cons _

theorem ackedNodes_sublist : (ackedNodes completions).Sublist (completions.map Prod.fst) := by
  rw [ackedNodes_eq]
  exact List.filter_sublist.map _

theorem mem_ackedNodes : n ∈ ackedNodes completions ↔ (n, WriteFate.acked) ∈ completions := by
  simp [ackedNodes_eq]

/-- The pairs whose hint was acknowledged. -/
def keptHints (fate : NodeId → WriteFate) (pairs : List (NodeId × NodeId)) :
    List (NodeId × NodeId) := pairs.filter fun p => fate p.2 = .acked

theorem sendHints_fst (stored : Nat) :
    (sendHints req fate stored replicas pairs).1 = stored + (keptHints fate pairs).length := by
  induction pairs generalizing stored replicas with
  | nil => rfl
  | cons p pairs ih =>
    refine (ih _).trans ?_
    by_cases hacked : fate p.2 = .acked
    · simp only [keptHints, hacked, if_true, List.filter_cons, decide_true, List.length_cons]
      omega
    · simp [keptHints, hacked]

theorem sendHints_of_not_mem (hfate : ∀ m, (fate m).applied = true → fate m = .acked)
    {stored : Nat} (hn : n ∉ (keptHints fate pairs).map Prod.snd) :
    (sendHints req fate stored replicas pairs).2 n = replicas n := by
  induction pairs generalizing stored replicas with
  | nil => rfl
  | cons p pairs ih =>
    obtain ⟨failedOwner, fallback⟩ := p
    by_cases hacked : fate fallback = .acked
    · have hcons : n ≠ fallback ∧ n ∉ (keptHints fate pairs).map Prod.snd := by
        simpa [keptHints, hacked] using hn
      exact (ih hcons.2).trans (remoteWrite_of_ne hcons.1)
    · have hrest : n ∉ (keptHints fate pairs).map Prod.snd := by
        simpa [keptHints, hacked] using hn
      have hlost : ¬ (fate fallback).applied = true := fun ha => hacked (hfate fallback ha)
      exact (ih hrest).trans (congrFun (if_neg hlost) n)

theorem sendHints_of_not_sent {stored : Nat} (hn : n ∉ pairs.map Prod.snd) :
    (sendHints req fate stored replicas pairs).2 n = replicas n := by
  induction pairs generalizing stored replicas with
  | nil => rfl
  | cons p pairs ih =>
    obtain ⟨hhead, hrest⟩ := not_or.mp (mt List.mem_cons.mpr hn)
    exact (ih hrest).trans (remoteWrite_of_ne hhead)

theorem held_sendHints {stored : Nat} :
    ((sendHints req fate stored replicas pairs).2 n).held key =
      (replicas n).held key := by
  induction pairs generalizing stored replicas with
  | nil => rfl
  | cons p pairs ih => exact ih.trans (held_remoteWrite_hint rfl)

/-- Each holder is sent one hint, which it keeps. -/
theorem hints_sendHints (hnodup : (pairs.map Prod.snd).Nodup) {stored : Nat} {p : NodeId × NodeId}
    (hp : p ∈ keptHints fate pairs) :
    ((sendHints req fate stored replicas pairs).2 p.2).hints.get
      (makeHintKey p.1 req.hlc req.key.objectId) = some ⟨req.key, req.versioned⟩ := by
  induction pairs generalizing stored replicas with
  | nil => cases hp
  | cons q pairs ih =>
    obtain ⟨hnot, hrest⟩ := List.nodup_cons.mp hnodup
    obtain ⟨hmem, hacked⟩ := List.mem_filter.mp hp
    have hacked : fate p.2 = .acked := of_decide_eq_true hacked
    rcases List.mem_cons.mp hmem with rfl | hmem
    · refine (congrArg (fun r : ReplicaStore => r.hints.get _)
        (sendHints_of_not_sent hnot)).trans ?_
      simp [remoteWrite, hacked, WriteFate.applied, ReplicaStore.receive, ReplicaStore.handleWrite,
        ReplicaStore.handle, ReplicaStore.storeHint, WriteRequest.versioned]
    · exact ih hrest (List.mem_filter.mpr ⟨hmem, decide_eq_true hacked⟩)

/-- What an update without idempotency key answers for. -/
def Counts (members : Membership) (c : Coordinator) (before : Replicas) (key : ObjectKey)
    (v : VersionedDoc) (res : Except ReplicationError WriteResult × Coordinator × Replicas) :
    Prop :=
  ∃ acked hinted, Placed members (members.ownersForKey key.toBytes c.config.n) key v before
      res.2.2 acked hinted ∧
    (c.config.w ≤ acked.length → hinted = []) ∧
    res.1 = if c.config.w ≤ acked.length + hinted.length then
        .ok ⟨v.version, acked.length, hinted.length⟩
      else .error (.insufficientReplicas c.config.w (acked.length + hinted.length))

namespace Honest

variable (h : Honest owners env) (hnodup : owners.Nodup)
include h

theorem acked_of_reached (hn : Reached env.writes n) : n ∈ ackedNodes env.writes := by
  obtain ⟨fate, hmem, happlied⟩ := hn
  obtain rfl : fate = .acked := h.stored _ hmem happlied
  exact mem_ackedNodes.mpr hmem

include hnodup

/-- The owners that acknowledged the write are those that have it. -/
theorem placed_broadcastWrite (req : WriteRequest) (hhint : req.isHint = false) :
    Placed members owners req.key req.versioned replicas
      (broadcastWrite replicas req env.writes).2.2 (ackedNodes env.writes) [] where
  acked_nodup := (h.writes.nodup_iff.mpr hnodup).sublist ackedNodes_sublist
  acked_owners n hn := h.writes.mem_iff.mp (ackedNodes_sublist.subset hn)
  stored n hn := by
    rw [held_broadcastWrite hhint, if_pos ⟨reached_of_mem_ackedNodes hn, rfl⟩]
  targets_nodup := List.nodup_nil
  targets p hp := by cases hp
  holders_nodup := List.nodup_nil
  holders p hp := by cases hp
  hints p hp := by cases hp
  others n hn _ := broadcastWrite_of_not_reached fun hreached => hn (h.acked_of_reached hreached)

end Honest

/-- The nodes outside the owners that are asked to keep a hint, in the order of the membership. -/
def fallbacks (members : Membership) (owners : List NodeId) : List NodeId :=
  members.allNodes.filter fun n => !owners.contains n

theorem map_fst_hintPairs {w : Nat} {failed : List NodeId} :
    ((hintPairs members w owners failed).map Prod.fst).Sublist failed := by
  rw [hintPairs, List.zip_eq_zip_take_min, List.map_fst_zip (by simp), List.take_take]
  exact List.take_sublist _ _

theorem map_snd_hintPairs {w : Nat} {failed : List NodeId} :
    (hintPairs members w owners failed).map Prod.snd =
      (fallbacks members owners).take (min failed.length w) := by
  rw [hintPairs, List.zip_eq_zip_take_min, List.map_snd_zip (by simp), fallbacks]
  simp [List.take_eq_take_iff]

theorem mem_fallbacks : n ∈ fallbacks members owners ↔ n ∈ members.allNodes ∧ n ∉ owners := by
  simp [fallbacks]

theorem nodup_snd_hintPairs {w : Nat} {failed : List NodeId} (hall : members.allNodes.Nodup) :
    ((hintPairs members w owners failed).map Prod.snd).Nodup := by
  rw [map_snd_hintPairs]
  exact (hall.filter _).sublist (List.take_sublist _ _)

theorem holders_hintPairs {w : Nat} {failed : List NodeId}
    (hn : n ∈ (hintPairs members w owners failed).map Prod.snd) :
    n ∈ members.allNodes ∧ n ∉ owners := by
  rw [map_snd_hintPairs] at hn
  exact mem_fallbacks.mp (List.mem_of_mem_take hn)

/-- Each hint that is acknowledged is kept for an owner that failed, by a node of its own. -/
theorem Placed.sendHints {v : VersionedDoc} {before : Replicas} {acked failed : List NodeId}
    (h : Placed members owners key v before replicas acked [])
    (hreq : req.key = key ∧ req.versioned = v) (hall : members.allNodes.Nodup)
    (hfailed : failed.Nodup) (howners : ∀ n ∈ failed, n ∈ owners ∧ n ∉ acked)
    (hfate : ∀ m, (fate m).applied = true → fate m = .acked) (w : Nat) :
    Placed members owners key v before
      (sendHints req fate 0 replicas (hintPairs members w owners failed)).2 acked
      (keptHints fate (hintPairs members w owners failed)) := by
  obtain ⟨rfl, rfl⟩ := hreq
  have hpairs : (keptHints fate (hintPairs members w owners failed)).Sublist
      (hintPairs members w owners failed) := List.filter_sublist
  have hfst := (hpairs.map Prod.fst).trans map_fst_hintPairs
  have hsnd : ((hintPairs members w owners failed).map Prod.snd).Nodup := nodup_snd_hintPairs hall
  refine { h with
    stored := ?_
    targets_nodup := hfailed.sublist hfst
    targets := fun p hp => howners p.1 (hfst.subset (List.mem_map_of_mem hp))
    holders_nodup := hsnd.sublist (hpairs.map Prod.snd)
    holders := fun p hp => holders_hintPairs (List.mem_map_of_mem (hpairs.subset hp))
    hints := fun p hp => hints_sendHints hsnd hp
    others := ?_ }
  · intro n hn
    exact held_sendHints.trans (h.stored n hn)
  · intro n hn hm
    rw [sendHints_of_not_mem hfate hm]
    exact h.others n hn (by simp)

/-- The failed owners and the nodes that are asked to keep their hints; none where enough owners
acknowledged. -/
def Coordinator.hintsSent (members : Membership) (c : Coordinator) (key : ObjectKey) (env : Env) :
    List (NodeId × NodeId) :=
  if c.config.w ≤ (ackedNodes env.writes).length then []
  else hintPairs members c.config.w (members.ownersForKey key.toBytes c.config.n)
    (failedNodes env.writes)

theorem hintsSent_sublist {c : Coordinator} : (c.hintsSent members key env).Sublist
    (hintPairs members c.config.w (members.ownersForKey key.toBytes c.config.n)
      (failedNodes env.writes)) := by
  unfold Coordinator.hintsSent
  split
  · exact List.nil_sublist _
  · exact List.Sublist.refl _

/-- The answer of an update by the acknowledgements of owners and holders. -/
theorem replicate_answer {c : Coordinator} {doc : Option Document} {hlc : Hlc}
    (htick : env.tick = .ok hlc) :
    let acked := (ackedNodes env.writes).length
    let kept := (keptHints env.hints (c.hintsSent members key env)).length
    let req : WriteRequest := ⟨key, doc, .single c.localNode hlc, hlc, false, none⟩
    c.replicate members replicas key doc env =
      (if c.config.w ≤ acked + kept then .ok ⟨.single c.localNode hlc, acked, kept⟩
        else .error (.insufficientReplicas c.config.w (acked + kept)),
      { c with clock := hlc },
      (sendHints req env.hints 0 (broadcastWrite replicas req env.writes).2.2
        (c.hintsSent members key env)).2) := by
  intro acked kept req
  by_cases hquorum : c.config.w ≤ acked
  · have hnone : c.hintsSent members key env = [] := if_pos hquorum
    have hkept : kept = 0 := by simp [kept, hnone, keptHints]
    rw [hkept, hnone, Nat.add_zero, if_pos hquorum]
    simp only [Coordinator.replicate, htick, VectorClock.increment_new]
    exact if_pos hquorum
  · have hpairs : c.hintsSent members key env = hintPairs members c.config.w
        (members.ownersForKey key.toBytes c.config.n) (failedNodes env.writes) := if_neg hquorum
    have hkept (replicas : Replicas) : (sendHints req env.hints 0 replicas (hintPairs members
        c.config.w (members.ownersForKey key.toBytes c.config.n) (failedNodes env.writes))).1 =
          kept := by
      rw [sendHints_fst, ← hpairs, Nat.zero_add]
    rw [hpairs]
    simp only [Coordinator.replicate, htick, VectorClock.increment_new, storeSloppyHints_eq]
    refine (if_neg hquorum).trans ?_
    simp only [broadcastWrite, req] at hkept ⊢
    simp only [hkept]
    exact (apply_ite (fun answer => (answer, ({ c with clock := hlc } : Coordinator), _))
      _ _ _).symm

theorem Honest.failed (h : Honest owners env) (hnodup : owners.Nodup) :
    (failedNodes env.writes).Nodup ∧
      ∀ n ∈ failedNodes env.writes, n ∈ owners ∧ n ∉ ackedNodes env.writes := by
  have hwrites := h.writes.nodup_iff.mpr hnodup
  refine ⟨hwrites.sublist failedNodes_sublist, ?_⟩
  intro n hn
  refine ⟨h.writes.mem_iff.mp (failedNodes_sublist.subset hn), ?_⟩
  intro hacked
  obtain ⟨applied, hfailed⟩ := mem_failedNodes hn
  cases List.inj_on_of_nodup_map hwrites hfailed (mem_ackedNodes.mp hacked) rfl

/-- The part that writes and deletions have in common. -/
theorem replicate_counts {c : Coordinator} {doc : Option Document} {hlc : Hlc}
    (hnodup : (members.ownersForKey key.toBytes c.config.n).Nodup) (hall : members.allNodes.Nodup)
    (henv : Honest (members.ownersForKey key.toBytes c.config.n) env) (htick : env.tick = .ok hlc) :
    Counts members c replicas key (stamp c.localNode hlc doc)
      (c.replicate members replicas key doc env) := by
  let req : WriteRequest := ⟨key, doc, .single c.localNode hlc, hlc, false, none⟩
  have hbroadcast : Placed members (members.ownersForKey key.toBytes c.config.n) key
      (stamp c.localNode hlc doc) replicas (broadcastWrite replicas req env.writes).2.2
      (ackedNodes env.writes) [] := henv.placed_broadcastWrite hnodup req rfl
  refine ⟨ackedNodes env.writes, keptHints env.hints (c.hintsSent members key env), ?_, ?_, ?_⟩
  · rw [replicate_answer htick]
    unfold Coordinator.hintsSent
    split
    · exact hbroadcast
    · obtain ⟨hfailed, howners⟩ := henv.failed hnodup
      exact hbroadcast.sendHints ⟨rfl, rfl⟩ hall hfailed howners henv.hints c.config.w
  · intro hquorum
    rw [Coordinator.hintsSent, if_pos hquorum]
    rfl
  · rw [replicate_answer htick]
    rfl

/-- An update is acknowledged, with so many nodes and hints, just where so many owners have stored
its version and so many other nodes keep a hint of it for an owner that failed. -/
theorem acks_count_copies (toVec : Document → Bytes) (members : Membership) (c : Coordinator)
    (replicas : Replicas) (key : ObjectKey) (env : Env) (hlc : Hlc)
    (hnodup : (members.ownersForKey key.toBytes c.config.n).Nodup) (hall : members.allNodes.Nodup)
    (henv : Honest (members.ownersForKey key.toBytes c.config.n) env)
    (htick : env.tick = .ok hlc) :
    (∀ doc, Counts members c replicas key (stamp c.localNode hlc (some doc))
      (c.quorumWrite members toVec replicas key doc none env)) ∧
    Counts members c replicas key (stamp c.localNode hlc none)
      (c.quorumDelete members replicas key env) :=
  ⟨fun _ => replicate_counts hnodup hall henv htick, replicate_counts hnodup hall henv htick⟩

/-- Six nodes, of which the first three own every key. -/
def sixNodes : Membership :=
  ⟨fun _ _ => [⟨⟨1⟩⟩, ⟨⟨2⟩⟩, ⟨⟨3⟩⟩], [⟨⟨1⟩⟩, ⟨⟨2⟩⟩, ⟨⟨3⟩⟩, ⟨⟨4⟩⟩, ⟨⟨5⟩⟩, ⟨⟨6⟩⟩]⟩

/-- The outside of an update where the nodes that are not `up` answer no call. -/
def Env.whereUp (up : NodeId → Bool) (hlc : Hlc) : Env where
  now := 0
  tick := .ok hlc
  writes := [⟨⟨1⟩⟩, ⟨⟨2⟩⟩, ⟨⟨3⟩⟩].map fun n => (n, if up n then .acked else .failed false)
  hints n := if up n then .acked else .failed false
  storedAt := 0
  reads := []

theorem honest_whereUp (up : NodeId → Bool) (hlc : Hlc) :
    Honest (sixNodes.ownersForKey sampleKey.toBytes 3) (.whereUp up hlc) where
  writes := List.Perm.refl _
  stored p hp happlied := by
    obtain ⟨n, -, rfl⟩ := List.mem_map.mp hp
    cases hup : up n with
    | true => simp
    | false => simp [hup, WriteFate.applied] at happlied
  hints n happlied := by
    cases hup : up n with
    | true => simp [Env.whereUp, hup]
    | false => simp [Env.whereUp, hup, WriteFate.applied] at happlied

/-- A coordinator with the default configuration. -/
def sampleCoordinator : Coordinator := ⟨⟨⟨1⟩⟩, ⟨3, 2, 2⟩, Hlc.zero, .new⟩

/-- One owner is up and the first node outside the owners: one acknowledgement and one hint. -/
theorem acks_count_one_hint :
    ((sampleCoordinator.quorumDelete sixNodes .new sampleKey
      (.whereUp (fun n => n = ⟨⟨1⟩⟩ ∨ n = ⟨⟨4⟩⟩) ⟨5⟩)).1.toOption.map fun r =>
        (r.nodesAcked, r.hintsStored)) = some (1, 1) ∧
    Counts sixNodes sampleCoordinator .new sampleKey (stamp ⟨⟨1⟩⟩ ⟨5⟩ none)
      (sampleCoordinator.quorumDelete sixNodes .new sampleKey
        (.whereUp (fun n => n = ⟨⟨1⟩⟩ ∨ n = ⟨⟨4⟩⟩) ⟨5⟩)) :=
  ⟨by decide +kernel, (acks_count_copies (fun _ => []) sixNodes sampleCoordinator .new sampleKey _
    ⟨5⟩ (by decide) (by decide) (honest_whereUp _ _) rfl).2⟩

/-- The calls to the nodes that are `up` succeed, and those to the others fail. -/
structure Reaches (up : NodeId → Bool) (owners : List NodeId) (env : Env) : Prop where
  writes : (env.writes.map Prod.fst).Perm owners
  fates : ∀ p ∈ env.writes, (up p.1 = true → p.2 = .acked) ∧
    (up p.1 = false → ∃ applied, p.2 = .failed applied)
  hints : ∀ n, env.hints n = .acked ↔ up n = true
  tick : ∃ hlc, env.tick = .ok hlc

/-- The owners that are up acknowledge, the others fail. -/
theorem nodes_of_fates {up : NodeId → Bool} (h : ∀ p ∈ completions,
    (up p.1 = true → p.2 = .acked) ∧ (up p.1 = false → ∃ applied, p.2 = .failed applied)) :
    ackedNodes completions = (completions.map Prod.fst).filter up ∧
      failedNodes completions = (completions.map Prod.fst).filter fun n => !up n := by
  induction completions with
  | nil => exact ⟨rfl, rfl⟩
  | cons p completions ih =>
    obtain ⟨node, fate⟩ := p
    obtain ⟨⟨hup, hdown⟩, hrest⟩ := List.forall_mem_cons.mp h
    obtain ⟨hacked, hfailed⟩ := ih hrest
    cases hnode : up node with
    | true =>
      obtain rfl : fate = .acked := hup hnode
      simpa [ackedNodes, failedNodes, hnode] using And.intro hacked hfailed
    | false =>
      obtain ⟨applied, rfl⟩ : ∃ applied, fate = .failed applied := hdown hnode
      simpa [ackedNodes, failedNodes, hnode] using And.intro hacked hfailed

/-- How many nodes an update can have as owners, or as keepers of a hint: of the nodes outside the
owners only the first are asked, one for each owner that is down, and no more than the quorum. -/
def reachableCopies (members : Membership) (config : QuorumConfig) (key : ObjectKey)
    (up : NodeId → Bool) : Nat :=
  let owners := members.ownersForKey key.toBytes config.n
  let asked := min (owners.filter fun n => !up n).length config.w
  (owners.filter up).length + (((fallbacks members owners).take asked).filter up).length

theorem replicate_ok_iff {c : Coordinator} {doc : Option Document} {up : NodeId → Bool}
    (h : Reaches up (members.ownersForKey key.toBytes c.config.n) env) :
    (∃ r, (c.replicate members replicas key doc env).1 = .ok r) ↔
      c.config.w ≤ reachableCopies members c.config key up := by
  obtain ⟨hlc, htick⟩ := h.tick
  obtain ⟨hacked, hfailed⟩ := nodes_of_fates h.fates
  have hup : (ackedNodes env.writes).length =
      ((members.ownersForKey key.toBytes c.config.n).filter up).length := by
    rw [hacked]
    exact (h.writes.filter _).length_eq
  have hdown : (failedNodes env.writes).length =
      ((members.ownersForKey key.toBytes c.config.n).filter fun n => !up n).length := by
    rw [hfailed]
    exact (h.writes.filter _).length_eq
  have hkept (pairs : List (NodeId × NodeId)) :
      (keptHints env.hints pairs).length = ((pairs.map Prod.snd).filter up).length := by
    rw [List.filter_map, List.length_map, keptHints]
    congr 2
    funext p
    simp [h.hints]
  rw [replicate_answer htick]
  dsimp only
  have hok {n : Nat} {r : WriteResult} {e : ReplicationError} :
      (∃ r', (if c.config.w ≤ n then Except.ok r else .error e) = Except.ok r') ↔
        c.config.w ≤ n := by
    by_cases hn : c.config.w ≤ n <;> simp [hn]
  rw [hok, hkept, Coordinator.hintsSent, reachableCopies, ← hup]
  split
  · omega
  · rw [map_snd_hintPairs, hdown]

/-- A write whose idempotency key is new is sent out as one without key is. -/
theorem quorumWrite_of_new {c : Coordinator} {toVec : Document → Bytes} {doc : Document}
    {k : String} (h : (c.idempotency.get toVec k doc env.now).1 = .ok none) :
    (c.quorumWrite members toVec replicas key doc (some k) env).1 =
      ({ c with idempotency := (c.idempotency.get toVec k doc env.now).2 }.replicate members
        replicas key (some doc) env).1 := by
  rcases hget : c.idempotency.get toVec k doc env.now with ⟨answer, cache⟩
  rw [hget] at h
  obtain rfl : answer = .ok none := h
  simp only [Coordinator.quorumWrite, hget]
  rcases Coordinator.replicate members { c with idempotency := cache } replicas key (some doc) env
    with ⟨e | r, c', replicas'⟩
  · rfl
  · rfl

/-- An update succeeds just where the nodes that it asks and that are up make a quorum. -/
theorem update_ok_iff (toVec : Document → Bytes) (members : Membership) (c : Coordinator)
    (replicas : Replicas) (key : ObjectKey) (env : Env) (up : NodeId → Bool)
    (h : Reaches up (members.ownersForKey key.toBytes c.config.n) env) :
    (∀ doc ikey, (∀ k ∈ ikey, (c.idempotency.get toVec k doc env.now).1 = .ok none) →
      ((∃ r, (c.quorumWrite members toVec replicas key doc ikey env).1 = .ok r) ↔
        c.config.w ≤ reachableCopies members c.config key up)) ∧
    ((∃ r, (c.quorumDelete members replicas key env).1 = .ok r) ↔
      c.config.w ≤ reachableCopies members c.config key up) := by
  refine ⟨?_, replicate_ok_iff h⟩
  intro doc ikey hnew
  cases ikey with
  | none => exact replicate_ok_iff h
  | some k =>
    rw [quorumWrite_of_new (hnew k rfl)]
    exact replicate_ok_iff h

theorem reaches_whereUp (up : NodeId → Bool) (hlc : Hlc) :
    Reaches up (sixNodes.ownersForKey sampleKey.toBytes 3) (.whereUp up hlc) where
  writes := List.Perm.refl _
  fates p hp := by
    obtain ⟨n, -, rfl⟩ := List.mem_map.mp hp
    cases hup : up n <;> simp
  hints n := by
    cases hup : up n <;> simp [Env.whereUp, hup]
  tick := ⟨hlc, rfl⟩

/-- The first owner and two other nodes are up. -/
theorem update_ok_one_owner :
    ∃ r, (sampleCoordinator.quorumDelete sixNodes .new sampleKey
      (.whereUp (fun n => n = ⟨⟨1⟩⟩ ∨ n = ⟨⟨5⟩⟩ ∨ n = ⟨⟨6⟩⟩) ⟨5⟩)).1 = .ok r :=
  (update_ok_iff (fun _ => []) sixNodes sampleCoordinator .new sampleKey _ _
    (reaches_whereUp _ _)).2.mpr (by decide)

/-- No owner is up, and two of the other three nodes, which could keep the two hints of a quorum.
The one that is down is asked first and the last one not at all. -/
theorem quorum_missed :
    2 ≤ (sixNodes.allNodes.filter fun n => n = ⟨⟨5⟩⟩ ∨ n = ⟨⟨6⟩⟩).length ∧
    (sampleCoordinator.quorumDelete sixNodes .new sampleKey
      (.whereUp (fun n => n = ⟨⟨5⟩⟩ ∨ n = ⟨⟨6⟩⟩) ⟨5⟩)).1 =
        .error (.insufficientReplicas 2 1) ∧
    (sampleCoordinator.quorumWrite sixNodes (fun _ => []) .new sampleKey (.blank ⟨⟨0⟩⟩) none
      (.whereUp (fun n => n = ⟨⟨5⟩⟩ ∨ n = ⟨⟨6⟩⟩) ⟨5⟩)).1 =
        .error (.insufficientReplicas 2 1) := by
  decide +kernel

end BashfulDB.Replication
