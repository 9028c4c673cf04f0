import BashfulDB.Library.Steps
import BashfulDB.Replication.Acks

/-!
Sequences of writes through one coordinator, and what an answer from its idempotency store
stands for.
-/
namespace BashfulDB.Replication

open Clock Data

/-- These nodes hold the version `v` of `key`: the owners among them as their copy, the others as a
hint for an owner. -/
structure Held (owners : List NodeId) (key : ObjectKey) (v : VersionedDoc) (replicas : Replicas)
    (nodes : List NodeId) : Prop where
  nodup : nodes.Nodup
  copy : ∀ n ∈ nodes, n ∈ owners → (replicas n).held key = some v
  hint : ∀ n ∈ nodes, n ∉ owners → ∃ target ∈ owners,
    (replicas n).hints.get (makeHintKey target v.hlc key.objectId) = some ⟨key, v⟩

/-- A call of `quorum_write` with its answer. Between two calls, others may have changed the
membership and the replicas. -/
structure WriteCall where
  members : Membership
  before : Replicas
  key : ObjectKey
  doc : Document
  idempotencyKey : Option String
  env : Env
  answer : Except ReplicationError WriteResult
  after : Replicas

namespace WriteCall

/-- The call is served by the coordinator `c`, which it leaves as `c'`. -/
def Step (toVec : Document → Bytes) (c : Coordinator) (call : WriteCall) (c' : Coordinator) :
    Prop :=
  c.quorumWrite call.members toVec call.before call.key call.doc call.idempotencyKey call.env =
    (call.answer, c', call.after)

def owners (config : QuorumConfig) (call : WriteCall) : List NodeId :=
  call.members.ownersForKey call.key.toBytes config.n

/-- The membership names every node once, and each owner's task ends once. -/
structure Regular (config : QuorumConfig) (call : WriteCall) : Prop where
  owners_nodup : (call.owners config).Nodup
  allNodes_nodup : call.members.allNodes.Nodup
  writes : (call.env.writes.map Prod.fst).Perm (call.owners config)

/-- The call wrote its document to a quorum of nodes. -/
def Wrote (config : QuorumConfig) (call : WriteCall) : Prop :=
  ∃ v nodes, v.document = some call.doc ∧ config.w ≤ nodes.length ∧
    Held (call.owners config) call.key v call.after nodes

/-- A later call uses the same idempotency key, and its document has the same encoding, only if it
is a retry. -/
def Retries (toVec : Document → Bytes) (call later : WriteCall) : Prop :=
  ∀ ikey, call.idempotencyKey = some ikey → later.idempotencyKey = some ikey →
    toVec call.doc = toVec later.doc → call.key = later.key ∧ call.doc = later.doc

end WriteCall

variable {members : Membership} {replicas : Replicas} {key : ObjectKey} {env : Env}
  {c c' : Coordinator} {doc : Option Document}

/-- A successful update is held by a quorum of nodes. -/
theorem replicate_held {r : WriteResult}
    (hnodup : (members.ownersForKey key.toBytes c.config.n).Nodup) (hall : members.allNodes.Nodup)
    (hwrites : (env.writes.map Prod.fst).Perm (members.ownersForKey key.toBytes c.config.n))
    (h : (c.replicate members replicas key doc env).1 = .ok r) :
    ∃ v nodes, v.document = doc ∧ c.config.w ≤ nodes.length ∧
      Held (members.ownersForKey key.toBytes c.config.n) key v
        (c.replicate members replicas key doc env).2.2 nodes := by
  cases htick : env.tick with
  | error e =>
    simp only [Coordinator.replicate, htick] at h
    cases h
  | ok hlc =>
    rw [replicate_answer htick] at h ⊢
    have hquorum : c.config.w ≤ (ackedNodes env.writes).length +
        (keptHints env.hints (c.hintsSent members key env)).length := by
      by_contra hnot
      dsimp only at h
      rw [if_neg hnot] at h
      cases h
    have hsent : (c.hintsSent members key env).Sublist _ := hintsSent_sublist
    have hkept : (keptHints env.hints (c.hintsSent members key env)).Sublist _ :=
      List.filter_sublist.trans hsent
    have hsnd := hkept.map Prod.snd
    have hholder : ∀ n ∈ (keptHints env.hints (c.hintsSent members key env)).map Prod.snd,
        n ∉ members.ownersForKey key.toBytes c.config.n := by
      intro n hn
      exact (holders_hintPairs (hsnd.subset hn)).2
    refine ⟨stamp c.localNode hlc doc, ackedNodes env.writes ++
      (keptHints env.hints (c.hintsSent members key env)).map Prod.snd, rfl, by simpa using hquorum,
      ?_, ?_, ?_⟩
    · refine ((hwrites.nodup_iff.mpr hnodup).sublist ackedNodes_sublist).append
        ((nodup_snd_hintPairs hall).sublist hsnd) ?_
      intro n hacked hhinted
      exact hholder n hhinted (hwrites.mem_iff.mp (ackedNodes_sublist.subset hacked))
    · intro n hn howner
      have hacked : n ∈ ackedNodes env.writes :=
        (List.mem_append.mp hn).resolve_right fun hhinted => hholder n hhinted howner
      refine held_sendHints.trans ((held_broadcastWrite rfl).trans ?_)
      exact if_pos ⟨reached_of_mem_ackedNodes hacked, rfl⟩
    · intro n hn howner
      have hhinted : n ∈ (keptHints env.hints (c.hintsSent members key env)).map Prod.snd :=
        (List.mem_append.mp hn).resolve_left fun hacked =>
          howner (hwrites.mem_iff.mp (ackedNodes_sublist.subset hacked))
      obtain ⟨p, hp, rfl⟩ := List.mem_map.mp hhinted
      refine ⟨p.1, ?_, hints_sendHints ((nodup_snd_hintPairs hall).sublist (hsent.map _)) hp⟩
      have hfailed := map_fst_hintPairs.subset
        ((hkept.map Prod.fst).subset (List.mem_map_of_mem hp))
      exact hwrites.mem_iff.mp (failedNodes_sublist.subset hfailed)

theorem IdempotencyStore.get_evictExpired {store : IdempotencyStore} {ikey : String} {now : Nat}
    {entry : Entry} (h : (store.evictExpired now).cache.get ikey = some entry) :
    store.cache.get ikey = some entry := by
  rw [evictExpired, OrdMap.get_retain] at h
  exact (Option.filter_eq_some_iff.mp h).1

/-- A replayed answer is that of an entry made with the same encoding. -/
theorem IdempotencyStore.exists_of_get {toVec : Document → Bytes} {store : IdempotencyStore}
    {ikey : String} {doc : Document} {now : Nat} {r : WriteResult}
    (h : (store.get toVec ikey doc now).1 = .ok (some r)) :
    ∃ entry, store.cache.get ikey = some entry ∧ entry.docBytes = toVec doc := by
  simp only [get] at h
  split at h
  · cases h
  · rename_i entry hentry
    split at h
    · exact ⟨entry, get_evictExpired hentry, ‹_›⟩
    · cases h

namespace WriteCall

variable {toVec : Document → Bytes} {call : WriteCall} {config : QuorumConfig}
  {past : List WriteCall}

/-- What a call can do. -/
inductive Effect (toVec : Document → Bytes) (c : Coordinator) (call : WriteCall)
    (c' : Coordinator) : Prop
  | refused {e : ReplicationError} : call.answer = .error e →
      (∀ ikey entry, c'.idempotency.cache.get ikey = some entry →
        c.idempotency.cache.get ikey = some entry) → Effect toVec c call c'
  | replayed {ikey : String} {entry : Entry} : call.idempotencyKey = some ikey →
      c.idempotency.cache.get ikey = some entry → entry.docBytes = toVec call.doc →
      (∀ ikey entry, c'.idempotency.cache.get ikey = some entry →
        c.idempotency.cache.get ikey = some entry) → Effect toVec c call c'
  | sent : call.Wrote c.config →
      (∀ ikey entry, c'.idempotency.cache.get ikey = some entry →
        c.idempotency.cache.get ikey = some entry ∨
          call.idempotencyKey = some ikey ∧ entry.docBytes = toVec call.doc) →
      Effect toVec c call c'

theorem Regular.wrote {r : WriteResult} (h : call.Regular c.config)
    (hsent : c.replicate call.members call.before call.key (some call.doc) call.env =
      (.ok r, c', call.after)) : call.Wrote c.config := by
  obtain ⟨v, nodes, hdoc, hquorum, hheld⟩ := replicate_held h.owners_nodup h.allNodes_nodup h.writes
    (congrArg Prod.fst hsent)
  rw [hsent] at hheld
  exact ⟨v, nodes, hdoc, hquorum, hheld⟩

theorem Step.effect (h : Step toVec c call c') (hregular : call.Regular c.config) :
    Effect toVec c call c' := by
  unfold Step Coordinator.quorumWrite at h
  cases hikey : call.idempotencyKey with
  | none =>
    simp only [hikey] at h
    have hcache : c'.idempotency = c.idempotency := by
      rw [← c.idempotency_replicate call.members call.before call.key (some call.doc) call.env, h]
    cases hanswer : call.answer with
    | error e => exact .refused hanswer fun ikey entry hget => by rwa [hcache] at hget
    | ok r =>
      rw [hanswer] at h
      exact .sent (hregular.wrote h) fun ikey entry hget => Or.inl (by rwa [hcache] at hget)
  | some ikey =>
    simp only [hikey] at h
    have hcache := c.idempotency.get_snd toVec ikey call.doc call.env.now
    rcases hget : c.idempotency.get toVec ikey call.doc call.env.now with ⟨e | _ | cached, cache⟩
    all_goals
      rw [hget] at h hcache
      obtain rfl : cache = _ := hcache
    · obtain ⟨hanswer, rfl⟩ := And.intro (congrArg Prod.fst h) (congrArg (fun p => p.2.1) h)
      exact .refused hanswer.symm fun _ _ => IdempotencyStore.get_evictExpired
    · dsimp only at h
      rcases hsent : Coordinator.replicate call.members _ call.before call.key (some call.doc)
        call.env with ⟨e | r, c₁, after⟩
      all_goals
        have hid := Coordinator.idempotency_replicate call.members
          { c with idempotency := c.idempotency.evictExpired call.env.now } call.before call.key
          (some call.doc) call.env
        rw [hsent] at h hid
      · obtain ⟨hanswer, rfl⟩ := And.intro (congrArg Prod.fst h) (congrArg (fun p => p.2.1) h)
        refine .refused hanswer.symm fun ik entry hentry => ?_
        exact IdempotencyStore.get_evictExpired (hid ▸ hentry)
      · have hafter : after = call.after := congrArg (fun p => p.2.2) h
        obtain rfl := congrArg (fun p => p.2.1) h
        rw [hafter] at hsent
        have hwrote : call.Wrote c.config := Regular.wrote (c := { c with
          idempotency := c.idempotency.evictExpired call.env.now }) hregular hsent
        refine .sent hwrote fun ik entry hentry => ?_
        change ((c₁.idempotency.evictExpired call.env.storedAt).cache.insert ikey _).get ik = _
          at hentry
        rw [hid, OrdMap.get_insert] at hentry
        by_cases hik : ik = ikey
        · rw [if_pos hik] at hentry
          cases hentry
          exact Or.inr ⟨hik ▸ hikey, rfl⟩
        · rw [if_neg hik] at hentry
          exact Or.inl (IdempotencyStore.get_evictExpired
            (IdempotencyStore.get_evictExpired hentry))
    · obtain ⟨entry, hentry, hbytes⟩ := IdempotencyStore.exists_of_get (congrArg Prod.fst hget)
      obtain rfl := congrArg (fun p => p.2.1) h
      exact .replayed hikey hentry hbytes fun _ _ => IdempotencyStore.get_evictExpired

theorem Step.config_eq (h : Step toVec c call c') : c'.config = c.config := by
  have hsame := (c.quorumWrite_same toVec call.members call.before call.key call.env call.doc
    call.idempotencyKey).2
  rwa [h] at hsame

/-- Every entry of the idempotency store was made by a call that wrote its document. -/
def Backed (toVec : Document → Bytes) (config : QuorumConfig) (past : List WriteCall)
    (c : Coordinator) : Prop :=
  ∀ ikey entry, c.idempotency.cache.get ikey = some entry → ∃ call ∈ past,
    call.idempotencyKey = some ikey ∧ toVec call.doc = entry.docBytes ∧ call.Wrote config

theorem Backed.step (hbacked : Backed toVec c.config past c) (h : Step toVec c call c')
    (hregular : call.Regular c.config) : Backed toVec c.config (past ++ [call]) c' := by
  have hold : ∀ ikey entry, c.idempotency.cache.get ikey = some entry → ∃ earlier ∈ past ++ [call],
      earlier.idempotencyKey = some ikey ∧ toVec earlier.doc = entry.docBytes ∧
        earlier.Wrote c.config := by
    intro ikey entry hget
    obtain ⟨earlier, hmem, hearlier⟩ := hbacked ikey entry hget
    exact ⟨earlier, List.mem_append_left _ hmem, hearlier⟩
  intro ikey entry hget
  cases h.effect hregular with
  | refused _ hcache => exact hold ikey entry (hcache ikey entry hget)
  | replayed _ _ _ hcache => exact hold ikey entry (hcache ikey entry hget)
  | sent hwrote hcache =>
    rcases hcache ikey entry hget with hentry | ⟨hikey, hbytes⟩
    · exact hold ikey entry hentry
    · exact ⟨call, by simp, hikey, hbytes.symm, hwrote⟩

/-- An answer that was not written by its own call was written by an earlier one with the same
idempotency key and encoding. -/
theorem Backed.answered {r : WriteResult} (hbacked : Backed toVec c.config past c)
    (h : Step toVec c call c') (hregular : call.Regular c.config) (hok : call.answer = .ok r) :
    call.Wrote c.config ∨ ∃ earlier ∈ past, ∃ ikey, earlier.idempotencyKey = some ikey ∧
      call.idempotencyKey = some ikey ∧ toVec earlier.doc = toVec call.doc ∧
        earlier.Wrote c.config := by
  cases h.effect hregular with
  | refused hanswer _ => cases hok.symm.trans hanswer
  | sent hwrote _ => exact Or.inl hwrote
  | replayed hikey hentry hbytes _ =>
    obtain ⟨earlier, hmem, hearlier, hdoc, hwrote⟩ := hbacked _ _ hentry
    exact Or.inr ⟨earlier, hmem, _, hearlier, hikey, hdoc.trans hbytes, hwrote⟩

/-- Along a run the configuration stays, and the store is backed by the calls so far. -/
theorem backed_run {calls : List WriteCall} (h : Steps (Step toVec) c calls c')
    (hfresh : c.idempotency = .new) (hregular : ∀ call ∈ calls, call.Regular c.config) :
    c'.config = c.config ∧ Backed toVec c.config calls c' := by
  refine h.history (I := fun past u => u.config = c.config ∧ Backed toVec c.config past u) ?_ ?_
  · refine ⟨rfl, fun ikey entry hget => ?_⟩
    rw [hfresh] at hget
    cases hget
  · rintro past u call v - ⟨later, rfl⟩ ⟨hconfig, hbacked⟩ hstep
    have hcall : call.Regular c.config := hregular call (by simp)
    rw [← hconfig] at hbacked hcall ⊢
    exact ⟨hstep.config_eq, hbacked.step hstep hcall⟩

/-- Where an idempotency key comes back with an equal encoding only in a retry, every successful
call stands for a quorum of nodes that its own or an earlier call has written. -/
theorem ok_means_written (toVec : Document → Bytes) (c c' : Coordinator) (calls : List WriteCall)
    (h : Steps (Step toVec) c calls c') (hfresh : c.idempotency = .new)
    (hregular : ∀ call ∈ calls, call.Regular c.config)
    (hretry : calls.Pairwise (Retries toVec)) (past later : List WriteCall) (call : WriteCall)
    (r : WriteResult) (hcalls : calls = past ++ call :: later) (hok : call.answer = .ok r) :
    ∃ writer ∈ past ++ [call], writer.key = call.key ∧ writer.doc = call.doc ∧
      writer.Wrote c.config := by
  subst hcalls
  obtain ⟨u, hpast, hrest⟩ := Steps.append_iff.mp h
  obtain ⟨v, hstep, -⟩ := Steps.cons_iff.mp hrest
  obtain ⟨hconfig, hbacked⟩ := backed_run hpast hfresh fun e he => hregular e (by simp [he])
  have hcall : call.Regular c.config := hregular call (by simp)
  rw [← hconfig] at hbacked hcall ⊢
  rcases hbacked.answered hstep hcall hok with hwrote |
    ⟨earlier, hmem, ikey, hearlier, hikey, hbytes, hwrote⟩
  · exact ⟨call, by simp, rfl, rfl, hwrote⟩
  · obtain ⟨-, -, hcross⟩ := List.pairwise_append.mp hretry
    obtain ⟨hkey, hdoc⟩ := hcross earlier hmem call (by simp) ikey hearlier hikey hbytes
    exact ⟨earlier, by simp [hmem], hkey, hdoc, hwrote⟩

/-- The replicas after a first write that every owner acknowledged. -/
def writtenOnce : Replicas :=
  (broadcastWrite .new ⟨sampleKey, some (.blank ⟨⟨0⟩⟩), .single ⟨⟨1⟩⟩ ⟨5⟩, ⟨5⟩, false, none⟩
    (Env.whereUp (fun _ => true) ⟨5⟩).writes).2.2

/-- A write of an empty document with the idempotency key `k`. -/
def keyed (key : ObjectKey) (before : Replicas) : WriteCall where
  members := sixNodes
  before := before
  key := key
  doc := .blank ⟨⟨0⟩⟩
  idempotencyKey := some "k"
  env := .whereUp (fun _ => true) ⟨5⟩
  answer := .ok ⟨.single ⟨⟨1⟩⟩ ⟨5⟩, 3, 0⟩
  after := writtenOnce

theorem regular_keyed (key : ObjectKey) (before : Replicas) :
    (keyed key before).Regular sampleCoordinator.config where
  owners_nodup := by
    change List.Nodup [_, _, _]
    decide
  allNodes_nodup := by
    change List.Nodup [_, _, _, _, _, _]
    decide
  writes := .refl _

/-- The second call is answered from the store, whatever its key. -/
theorem steps_keyed (toVec : Document → Bytes) (key : ObjectKey) :
    ∃ c', Steps (Step toVec) sampleCoordinator [keyed sampleKey .new, keyed key writtenOnce]
      c' := by
  let result : WriteResult := ⟨.single ⟨⟨1⟩⟩ ⟨5⟩, 3, 0⟩
  let store := IdempotencyStore.new.store toVec "k" (.blank ⟨⟨0⟩⟩) result 0
  have hfirst : Step toVec sampleCoordinator (keyed sampleKey .new)
      { sampleCoordinator with clock := ⟨5⟩, idempotency := store } := rfl
  have hlive : (store.evictExpired 0).cache.get "k" = some ⟨toVec (.blank ⟨⟨0⟩⟩), result, 0⟩ := by
    simp [store, IdempotencyStore.store, IdempotencyStore.evictExpired, OrdMap.get_retain, ttl]
  have hget : store.get toVec "k" (.blank ⟨⟨0⟩⟩) 0 = (.ok (some result), store.evictExpired 0) := by
    simp only [IdempotencyStore.get, hlive, if_true]
  have hsecond : Step toVec { sampleCoordinator with clock := ⟨5⟩, idempotency := store }
      (keyed key writtenOnce)
      { sampleCoordinator with clock := ⟨5⟩, idempotency := store.evictExpired 0 } := by
    simp only [Step, keyed, Coordinator.quorumWrite, Env.whereUp, hget, result]
  exact ⟨_, .cons hfirst (.cons hsecond .refl)⟩

/-- A retry of the first write. -/
theorem ok_means_written_retry :
    ∃ writer ∈ [keyed sampleKey .new, keyed sampleKey writtenOnce], writer.key = sampleKey ∧
      writer.doc = .blank ⟨⟨0⟩⟩ ∧ writer.Wrote sampleCoordinator.config := by
  obtain ⟨c', hsteps⟩ := steps_keyed (fun _ => []) sampleKey
  refine ok_means_written (fun _ => []) sampleCoordinator c' _ hsteps rfl ?_ ?_
    [keyed sampleKey .new] [] (keyed sampleKey writtenOnce) _ rfl rfl
  · simp [regular_keyed]
  · simp [Retries, keyed]

/-- The same document and idempotency key under another key: the call succeeds, and no node has
anything under its key. -/
theorem ok_without_write :
    ∃ first second : WriteCall,
      (∀ toVec, ∃ c', Steps (Step toVec) sampleCoordinator [first, second] c') ∧
      (∀ call ∈ [first, second], call.Regular sampleCoordinator.config) ∧
      (∃ ikey, second.idempotencyKey = some ikey) ∧ (∃ r, second.answer = .ok r) ∧
      ∀ writer ∈ [first, second], ¬ (writer.key = second.key ∧ writer.doc = second.doc ∧
        writer.Wrote sampleCoordinator.config) := by
  refine ⟨keyed sampleKey .new, keyed ⟨"d", ⟨⟨0⟩⟩⟩ writtenOnce, fun toVec => steps_keyed toVec _,
    by simp [regular_keyed], ⟨_, rfl⟩, ⟨_, rfl⟩, ?_⟩
  rintro writer hwriter ⟨hkey, -, v, nodes, -, hquorum, hheld⟩
  rcases List.mem_pair.mp hwriter with rfl | rfl
  · exact absurd hkey (by decide)
  · obtain ⟨n, hn⟩ : ∃ n, n ∈ nodes := List.exists_mem_of_length_pos (by
      have : 2 ≤ nodes.length := hquorum
      omega)
    by_cases howner : n ∈ [(⟨⟨1⟩⟩ : NodeId), ⟨⟨2⟩⟩, ⟨⟨3⟩⟩]
    · have hread := hheld.copy n hn howner
      have hkeys : ¬ ObjectKey.toBytes ⟨"d", ⟨⟨0⟩⟩⟩ = sampleKey.toBytes := by decide +kernel
      have hnone : (writtenOnce n).held ⟨"d", ⟨⟨0⟩⟩⟩ = none :=
        (held_broadcastWrite rfl).trans (if_neg fun h => hkeys h.2)
      cases hnone.symm.trans hread
    · obtain ⟨target, -, hhint⟩ := hheld.hint n hn howner
      have hsame : writtenOnce n = .new n := by
        refine broadcastWrite_of_not_reached ?_
        rintro ⟨fate, hmem, -⟩
        exact howner (List.mem_map_of_mem (f := Prod.fst) hmem)
      have hnone : (writtenOnce n).hints.get (makeHintKey target v.hlc ⟨⟨0⟩⟩) = none := by
        rw [hsame]
        rfl
      cases hnone.symm.trans hhint

end WriteCall

end BashfulDB.Replication
