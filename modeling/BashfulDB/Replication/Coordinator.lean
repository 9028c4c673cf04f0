import Mathlib.Logic.Function.Basic
import BashfulDB.Replication.Replica

/-!
The quorum coordinator. What the outside decides during one operation (clock readings, which
remote calls succeed, in which order tasks complete) is passed in as its environment.
-/
namespace BashfulDB.Replication

open Clock Data

structure QuorumConfig where
  n : Nat
  r : Nat
  w : Nat

structure ReadResult where
  document : Option Document
  version : VectorClock
  repairsTriggered : Nat

structure WriteResult where
  version : VectorClock
  nodesAcked : Nat
  hintsStored : Nat
  deriving DecidableEq

structure Membership where
  ownersForKey : Bytes → Nat → List NodeId
  allNodes : List NodeId

/-- The idempotency window, in nanoseconds. -/
def ttl : Nat := 15 * 60 * 1000000000

structure Entry where
  docBytes : Bytes
  result : WriteResult
  createdAt : Nat

structure IdempotencyStore where
  cache : OrdMap String Entry

namespace IdempotencyStore

def new : IdempotencyStore := ⟨OrdMap.empty⟩

def evictExpired (store : IdempotencyStore) (now : Nat) : IdempotencyStore :=
  ⟨store.cache.retain (fun _ e => now - e.createdAt < ttl)⟩

/-- `toVec` is the JSON encoding of documents. -/
def get (toVec : Document → Bytes) (store : IdempotencyStore) (key : String) (doc : Document)
    (now : Nat) : Except ReplicationError (Option WriteResult) × IdempotencyStore :=
  let store := store.evictExpired now
  match store.cache.get key with
  | none => (.ok none, store)
  | some entry =>
    if entry.docBytes = toVec doc then (.ok (some entry.result), store)
    else (.error .idempotencyConflict, store)

def store (toVec : Document → Bytes) (store : IdempotencyStore) (key : String) (doc : Document)
    (result : WriteResult) (now : Nat) : IdempotencyStore :=
  ⟨(store.evictExpired now).cache.insert key ⟨toVec doc, result, now⟩⟩

theorem get_snd (toVec : Document → Bytes) (store : IdempotencyStore) (key : String)
    (doc : Document) (now : Nat) : (store.get toVec key doc now).2 = store.evictExpired now := by
  simp only [get]
  split
  · rfl
  · split <;> rfl

end IdempotencyStore

/-- The replica of every node. -/
abbrev Replicas := NodeId → ReplicaStore

/-- How a remote write ends. A call that failed or whose task panicked may have reached the
replica all the same. -/
inductive WriteFate
  | acked
  | failed (applied : Bool)
  | panicked (applied : Bool)
  deriving DecidableEq

def WriteFate.applied : WriteFate → Bool
  | .acked => true
  | .failed applied => applied
  | .panicked applied => applied

/-- Routing of a remote write to a handler. -/
def ReplicaStore.receive (store : ReplicaStore) (req : WriteRequest) :
    Except ReplicationError WriteResponse × ReplicaStore :=
  if req.doc.isNone && !req.isHint then store.handleDelete req else store.handleWrite req

/-- The effect of a remote write on the replicas. -/
def remoteWrite (replicas : Replicas) (node : NodeId) (req : WriteRequest) (fate : WriteFate) :
    Replicas :=
  if fate.applied then Function.update replicas node ((replicas node).receive req).2
  else replicas

def ackedNodes (completions : List (NodeId × WriteFate)) : List NodeId :=
  completions.filterMap (fun (node, fate) => match fate with
    | .acked => some node
    | _ => none)

/-- The targets whose call returned an error; a panicked task leaves no trace. -/
def failedNodes (completions : List (NodeId × WriteFate)) : List NodeId :=
  completions.filterMap (fun (node, fate) => match fate with
    | .failed _ => some node
    | _ => none)

/-- Fans `req` out; `completions` are the targets in the order in which their tasks end. -/
def broadcastWrite (replicas : Replicas) (req : WriteRequest)
    (completions : List (NodeId × WriteFate)) : List NodeId × List NodeId × Replicas :=
  (ackedNodes completions, failedNodes completions,
    completions.foldl (fun replicas c => remoteWrite replicas c.1 req c.2) replicas)

/-- Sends hints for the failed owners to the nodes that own nothing, and counts those stored. -/
def storeSloppyHints (members : Membership) (w : Nat) (replicas : Replicas) (req : WriteRequest)
    (owners failed : List NodeId) (fate : NodeId → WriteFate) : Nat × Replicas :=
  if failed.isEmpty then (0, replicas)
  else
    let fallbacks := members.allNodes.filter (fun n => !owners.contains n)
    let needed := min failed.length w
    ((failed.take needed).zip fallbacks).foldl
      (fun (stored, replicas) (failedOwner, fallback) =>
        (if fate fallback = .acked then stored + 1 else stored,
          remoteWrite replicas fallback { req with isHint := true, hintTarget := some failedOwner }
            (fate fallback)))
      (0, replicas)

/-- What the outside decides during one operation. -/
structure Env where
  /-- The instant of the idempotency lookup. -/
  now : Nat
  tick : Except ClockError Hlc
  /-- The owners in the order in which their write tasks end. -/
  writes : List (NodeId × WriteFate)
  hints : NodeId → WriteFate
  /-- The instant at which a result enters the idempotency store. -/
  storedAt : Nat
  /-- The owners in the order in which their read tasks end, and whether they answered. -/
  reads : List (NodeId × Bool)

/-- The replicas that answered, with what they read, in the order of their answers. -/
def responses (reread : Document → Option Document) (replicas : Replicas) (key : ObjectKey)
    (reads : List (NodeId × Bool)) : List (NodeId × Option VersionedDoc) :=
  reads.filterMap (fun (node, answered) =>
    if answered then ((replicas node).handleRead reread key).map (node, ·) else none)

def staleNodes (responses : List (NodeId × Option VersionedDoc)) (winner : VersionedDoc) :
    List NodeId :=
  responses.filterMap (fun (node, doc) =>
    let order : CausalOrder := match doc with
      | none => .before
      | some vdoc => vdoc.version.compare winner.version
    match order with
    | .before | .concurrent => some node
    | .equal | .after => none)

structure Coordinator where
  localNode : NodeId
  config : QuorumConfig
  /-- The last value its clock returned. -/
  clock : Hlc
  idempotency : IdempotencyStore

namespace Coordinator

variable (members : Membership)

/-- The part that `quorum_write` and `quorum_delete` have in common: stamp the request with
the next HLC and a fresh vector clock, fan it out, and fall back on hints. -/
def replicate (c : Coordinator) (replicas : Replicas) (key : ObjectKey) (doc : Option Document)
    (env : Env) : Except ReplicationError WriteResult × Coordinator × Replicas :=
  let owners := members.ownersForKey key.toBytes c.config.n
  match env.tick with
  | .error e => (.error (.clock e), c, replicas)
  | .ok hlc =>
    let c := { c with clock := hlc }
    match VectorClock.new.increment c.localNode hlc with
    | .error e => (.error (.vectorClock e), c, replicas)
    | .ok version =>
      let req : WriteRequest := ⟨key, doc, version, hlc, false, none⟩
      let (acked, failed, replicas) := broadcastWrite replicas req env.writes
      if acked.length ≥ c.config.w then
        (.ok ⟨version, acked.length, 0⟩, c, replicas)
      else
        let (hintsStored, replicas) :=
          storeSloppyHints members c.config.w replicas req owners failed env.hints
        let total := acked.length + hintsStored
        if total ≥ c.config.w then
          (.ok ⟨version, acked.length, hintsStored⟩, c, replicas)
        else
          (.error (.insufficientReplicas c.config.w total), c, replicas)

/-- Keeps a successful result for the idempotency window. -/
def remember (toVec : Document → Bytes) (ikey : String) (doc : Document) (now : Nat)
    (res : Except ReplicationError WriteResult × Coordinator × Replicas) :
    Except ReplicationError WriteResult × Coordinator × Replicas :=
  match res with
  | (.ok result, c, replicas) =>
    (.ok result, { c with idempotency := c.idempotency.store toVec ikey doc result now }, replicas)
  | (.error e, c, replicas) => (.error e, c, replicas)

def quorumWrite (toVec : Document → Bytes) (c : Coordinator) (replicas : Replicas)
    (key : ObjectKey) (doc : Document) (idempotencyKey : Option String) (env : Env) :
    Except ReplicationError WriteResult × Coordinator × Replicas :=
  match idempotencyKey with
  | none => c.replicate members replicas key (some doc) env
  | some ikey =>
    match c.idempotency.get toVec ikey doc env.now with
    | (.error e, cache) => (.error e, { c with idempotency := cache }, replicas)
    | (.ok (some cached), cache) => (.ok cached, { c with idempotency := cache }, replicas)
    | (.ok none, cache) =>
      remember toVec ikey doc env.storedAt
        (replicate members { c with idempotency := cache } replicas key (some doc) env)

def quorumDelete (c : Coordinator) (replicas : Replicas) (key : ObjectKey) (env : Env) :
    Except ReplicationError WriteResult × Coordinator × Replicas :=
  c.replicate members replicas key none env

/-- The answer to a read, and the repair writes it leaves to a background task. -/
def quorumRead (reread : Document → Option Document) (c : Coordinator) (replicas : Replicas)
    (key : ObjectKey) (env : Env) :
    Except ReplicationError ReadResult × List (NodeId × WriteRequest) :=
  let owners := members.ownersForKey key.toBytes c.config.n
  if owners.isEmpty then (.error (.insufficientReplicas c.config.r 0), [])
  else
    let responses := responses reread replicas key env.reads
    if responses.length < c.config.r then
      (.error (.insufficientReplicas c.config.r responses.length), [])
    else
      match resolveConflict (responses.filterMap Prod.snd) with
      | none => (.ok ⟨none, VectorClock.new, 0⟩, [])
      | some winner =>
        let staleNodes := staleNodes responses winner
        let repair : WriteRequest :=
          ⟨key, winner.document, winner.version, winner.hlc, false, none⟩
        (.ok ⟨winner.document, winner.version, staleNodes.length⟩,
          staleNodes.map (fun node => (node, repair)))

end Coordinator

variable {replicas replicas' : Replicas} {node n : NodeId} {req : WriteRequest} {fate : WriteFate}
  {key k : ObjectKey} {completions : List (NodeId × WriteFate)}

/-- What a replica holds after a request that is not a hint reached it. -/
def WriteRequest.versioned (req : WriteRequest) : VersionedDoc :=
  ⟨req.doc, req.version, req.hlc, req.doc.isNone⟩

theorem default_receive {store : ReplicaStore} (h : req.isHint = false) :
    (store.receive req).2.default = store.default.insert req.key.toBytes req.versioned := by
  cases hdoc : req.doc <;>
    simp [ReplicaStore.receive, ReplicaStore.handleWrite, ReplicaStore.handleDelete, hdoc, h,
      ReplicaStore.handle_of_not_hint h, WriteRequest.versioned, VersionedDoc.tombstone]

theorem held_receive {store : ReplicaStore} (h : req.isHint = false) :
    (store.receive req).2.held k =
      if k.toBytes = req.key.toBytes then some req.versioned else store.held k := by
  by_cases hk : k.toBytes = req.key.toBytes <;>
    simp [ReplicaStore.held, default_receive h, hk, OrdMap.get_insert]

theorem held_receive_hint {store : ReplicaStore} (h : req.isHint = true) :
    (store.receive req).2.held k = store.held k := by
  cases htarget : req.hintTarget <;>
    simp [ReplicaStore.receive, ReplicaStore.handleWrite, ReplicaStore.handle, h, htarget,
      ReplicaStore.held, ReplicaStore.storeHint]

theorem held_remoteWrite (h : req.isHint = false) :
    (remoteWrite replicas node req fate n).held k =
      if n = node ∧ fate.applied = true ∧ k.toBytes = req.key.toBytes then some req.versioned
      else (replicas n).held k := by
  unfold remoteWrite
  by_cases ha : fate.applied = true
  · by_cases hn : n = node
    · subst hn
      simp [ha, held_receive h]
    · simp [ha, hn]
  · simp [ha]

theorem held_remoteWrite_hint (h : req.isHint = true) :
    (remoteWrite replicas node req fate n).held k = (replicas n).held k := by
  unfold remoteWrite
  by_cases ha : fate.applied = true
  · by_cases hn : n = node
    · subst hn
      simp [ha, held_receive_hint h]
    · simp [ha, hn]
  · simp [ha]

/-- Some task of the fan-out reached the replica of `node`. -/
def Reached (completions : List (NodeId × WriteFate)) (node : NodeId) : Prop :=
  ∃ fate, (node, fate) ∈ completions ∧ fate.applied = true

open Classical in
theorem held_broadcastWrite (h : req.isHint = false) :
    ((broadcastWrite replicas req completions).2.2 n).held k =
      if Reached completions n ∧ k.toBytes = req.key.toBytes then some req.versioned
      else (replicas n).held k := by
  unfold broadcastWrite
  induction completions generalizing replicas with
  | nil => simp [Reached]
  | cons c completions ih =>
    obtain ⟨node, fate⟩ := c
    simp only [List.foldl_cons] at ih ⊢
    rw [ih, held_remoteWrite h]
    have hcons : Reached ((node, fate) :: completions) n ↔
        (n = node ∧ fate.applied = true) ∨ Reached completions n := by
      simp only [Reached, List.mem_cons, Prod.mk.injEq, or_and_right, exists_or]
      refine or_congr ?_ Iff.rfl
      constructor
      · rintro ⟨_, ⟨rfl, rfl⟩, ha⟩
        exact ⟨rfl, ha⟩
      · rintro ⟨rfl, ha⟩
        exact ⟨fate, ⟨rfl, rfl⟩, ha⟩
    rw [hcons]
    by_cases hr : Reached completions n <;> by_cases hk : k.toBytes = req.key.toBytes <;>
      simp [hr, hk]

theorem ackedNodes_eq : ackedNodes completions =
    (completions.filter (fun c => c.2 = .acked)).map Prod.fst := by
  induction completions with
  | nil => rfl
  | cons c completions ih =>
    obtain ⟨node, fate⟩ := c
    cases fate <;> simpa [ackedNodes] using ih

theorem reached_of_mem_ackedNodes (h : n ∈ ackedNodes completions) : Reached completions n := by
  rw [ackedNodes_eq] at h
  obtain ⟨⟨m, fate⟩, hc, rfl⟩ := List.mem_map.mp h
  obtain ⟨hmem, hfate⟩ := List.mem_filter.mp hc
  obtain rfl : fate = .acked := of_decide_eq_true hfate
  exact ⟨_, hmem, rfl⟩

section

variable {reread : Document → Option Document} {reads : List (NodeId × Bool)}

theorem mem_responses {doc : Option VersionedDoc} : (n, doc) ∈ responses reread replicas key reads ↔
    (n, true) ∈ reads ∧ (replicas n).handleRead reread key = some doc := by
  simp only [responses, List.mem_filterMap, Option.ite_none_right_eq_some, Option.map_eq_some_iff,
    Prod.mk.injEq]
  constructor
  · rintro ⟨⟨m, answered⟩, hread, rfl, _, hdoc, rfl, rfl⟩
    exact ⟨hread, hdoc⟩
  · rintro ⟨hread, hdoc⟩
    exact ⟨(n, true), hread, rfl, doc, hdoc, rfl, rfl⟩

/-- No task answers twice. -/
theorem fst_responses :
    ((responses reread replicas key reads).map Prod.fst).Sublist (reads.map Prod.fst) := by
  induction reads with
  | nil => exact List.Sublist.refl _
  | cons p reads ih =>
    obtain ⟨node, answered⟩ := p
    have hnone (h : (if answered then ((replicas node).handleRead reread key).map (node, ·)
        else none) = none) : responses reread replicas key ((node, answered) :: reads) =
          responses reread replicas key reads := List.filterMap_cons_none h
    cases answered with
    | false =>
      rw [hnone rfl]
      exact ih.cons _
    | true =>
      cases hdoc : (replicas node).handleRead reread key with
      | none =>
        rw [hnone (by simp [hdoc])]
        exact ih.cons _
      | some doc =>
        have hsome : responses reread replicas key ((node, true) :: reads) =
            (node, doc) :: responses reread replicas key reads :=
          List.filterMap_cons_some (by simp [hdoc])
        rw [hsome]
        exact ih.cons_cons _

end

theorem held_storeSloppyHints {members : Membership} {w : Nat} {owners failed : List NodeId}
    {fate : NodeId → WriteFate} :
    ((storeSloppyHints members w replicas req owners failed fate).2 n).held k =
      (replicas n).held k := by
  unfold storeSloppyHints
  split
  · rfl
  · dsimp only
    generalize (failed.take _).zip _ = pairs
    generalize 0 = stored
    induction pairs generalizing replicas stored with
    | nil => rfl
    | cons pair pairs ih =>
      rw [List.foldl_cons, ih]
      exact held_remoteWrite_hint rfl

/-- The version an update leaves at the replicas it reaches. -/
def stamp (node : NodeId) (hlc : Hlc) (doc : Option Document) : VersionedDoc :=
  ⟨doc, .single node hlc, hlc, doc.isNone⟩

namespace Coordinator

variable (toVec : Document → Bytes) (members : Membership) (reread : Document → Option Document)
  (c : Coordinator) (replicas : Replicas) (key : ObjectKey) (doc : Option Document) (env : Env)
  {hlc : Hlc}

/-- An update that drew `hlc` from the clock and sent its request out. -/
structure Sends (c : Coordinator) (replicas : Replicas) (key : ObjectKey) (doc : Option Document)
    (env : Env) (hlc : Hlc) (res : Except ReplicationError WriteResult × Coordinator × Replicas) :
    Prop where
  tick : env.tick = .ok hlc
  localNode : res.2.1.localNode = c.localNode
  config : res.2.1.config = c.config
  clock : res.2.1.clock = hlc
  reached : ∀ n k, Reached env.writes n → k.toBytes = key.toBytes →
    (res.2.2 n).held k = some (stamp c.localNode hlc doc)
  others : ∀ n k, ¬ (Reached env.writes n ∧ k.toBytes = key.toBytes) →
    (res.2.2 n).held k = (replicas n).held k
  answer : ∀ r, res.1 = .ok r →
    r.version = .single c.localNode hlc ∧ r.nodesAcked = (ackedNodes env.writes).length

/-- An update that ended before it drew a clock value. -/
structure Stops (c : Coordinator) (replicas : Replicas)
    (res : Except ReplicationError WriteResult × Coordinator × Replicas) : Prop where
  localNode : res.2.1.localNode = c.localNode
  config : res.2.1.config = c.config
  clock : res.2.1.clock = c.clock
  replicas : res.2.2 = replicas

theorem replicate_of_tick (htick : env.tick = .ok hlc) :
    ∃ answer rs, c.replicate members replicas key doc env = (answer, { c with clock := hlc }, rs) ∧
      (∀ n k, (rs n).held k = ((broadcastWrite replicas
        ⟨key, doc, .single c.localNode hlc, hlc, false, none⟩ env.writes).2.2 n).held k) ∧
      ∀ r, answer = .ok r →
        r.version = .single c.localNode hlc ∧ r.nodesAcked = (ackedNodes env.writes).length := by
  simp only [replicate, htick, VectorClock.increment_new]
  split
  · refine ⟨_, _, rfl, fun _ _ => rfl, ?_⟩
    rintro r ⟨⟩
    exact ⟨rfl, rfl⟩
  · split
    · refine ⟨_, _, rfl, fun _ _ => held_storeSloppyHints, ?_⟩
      rintro r ⟨⟩
      exact ⟨rfl, rfl⟩
    · refine ⟨_, _, rfl, fun _ _ => held_storeSloppyHints, ?_⟩
      rintro r ⟨⟩

variable {env} in
theorem replicate_sends (htick : env.tick = .ok hlc) :
    Sends c replicas key doc env hlc (c.replicate members replicas key doc env) := by
  obtain ⟨answer, rs, heq, hread, hanswer⟩ :=
    replicate_of_tick members c replicas key doc env htick
  rw [heq]
  refine ⟨htick, rfl, rfl, rfl, ?_, ?_, hanswer⟩
  · intro n k hn hk
    exact (hread n k).trans ((held_broadcastWrite rfl).trans (if_pos ⟨hn, hk⟩))
  · intro n k hnot
    exact (hread n k).trans ((held_broadcastWrite rfl).trans (if_neg hnot))

theorem replicate_cases :
    (∃ hlc, Sends c replicas key doc env hlc (c.replicate members replicas key doc env)) ∨
      Stops c replicas (c.replicate members replicas key doc env) ∧
        ∃ e, (c.replicate members replicas key doc env).1 = .error e := by
  cases htick : env.tick with
  | error e =>
    right
    simp only [replicate, htick]
    exact ⟨⟨rfl, rfl, rfl, rfl⟩, _, rfl⟩
  | ok hlc => exact Or.inl ⟨hlc, replicate_sends members c replicas key doc htick⟩

theorem idempotency_replicate :
    (c.replicate members replicas key doc env).2.1.idempotency = c.idempotency := by
  cases htick : env.tick with
  | error e => simp only [replicate, htick]
  | ok hlc =>
    obtain ⟨answer, rs, heq, -⟩ := replicate_of_tick members c replicas key doc env htick
    rw [heq]

/-- The coordinator still holds an answer for this idempotency key and document. -/
def Replays (doc : Document) (idempotencyKey : Option String) (now : Nat) : Prop :=
  ∃ ikey r, idempotencyKey = some ikey ∧ (c.idempotency.get toVec ikey doc now).1 = .ok (some r)

variable {replicas key doc env c} in
theorem Sends.remember {res : Except ReplicationError WriteResult × Coordinator × Replicas}
    (h : Sends c replicas key doc env hlc res) (ikey : String) (d : Document) (now : Nat) :
    Sends c replicas key doc env hlc (remember toVec ikey d now res) := by
  obtain ⟨answer, c', rs⟩ := res
  cases answer <;> exact ⟨h.tick, h.localNode, h.config, h.clock, h.reached, h.others, h.answer⟩

theorem quorumWrite_cases (doc : Document) (idempotencyKey : Option String) :
    (∃ hlc, Sends c replicas key (some doc) env hlc
      (c.quorumWrite members toVec replicas key doc idempotencyKey env)) ∨
      Stops c replicas (c.quorumWrite members toVec replicas key doc idempotencyKey env) ∧
        ((∃ e, (c.quorumWrite members toVec replicas key doc idempotencyKey env).1 = .error e) ∨
          c.Replays toVec doc idempotencyKey env.now) := by
  cases idempotencyKey with
  | none =>
    rcases replicate_cases members c replicas key (some doc) env with h | ⟨h, he⟩
    · exact Or.inl h
    · exact Or.inr ⟨h, Or.inl he⟩
  | some ikey =>
    simp only [quorumWrite]
    rcases hget : c.idempotency.get toVec ikey doc env.now with ⟨e | _ | cached, cache⟩
    · exact Or.inr ⟨⟨rfl, rfl, rfl, rfl⟩, Or.inl ⟨e, rfl⟩⟩
    · rcases replicate_cases members { c with idempotency := cache } replicas key (some doc) env
        with ⟨hlc, h⟩ | ⟨h, e, he⟩
      · have hsends := h.remember toVec ikey doc env.storedAt
        exact Or.inl ⟨hlc, hsends.tick, hsends.localNode, hsends.config, hsends.clock,
          hsends.reached, hsends.others, hsends.answer⟩
      · dsimp only
        generalize replicate members { c with idempotency := cache } replicas key (some doc) env =
          res at h he ⊢
        obtain ⟨answer, c', rs⟩ := res
        cases he
        exact Or.inr ⟨⟨h.localNode, h.config, h.clock, h.replicas⟩, Or.inl ⟨e, rfl⟩⟩
    · exact Or.inr ⟨⟨rfl, rfl, rfl, rfl⟩, Or.inr ⟨ikey, cached, rfl, by rw [hget]⟩⟩

theorem replicate_same : (c.replicate members replicas key doc env).2.1.localNode = c.localNode ∧
    (c.replicate members replicas key doc env).2.1.config = c.config := by
  rcases replicate_cases members c replicas key doc env with ⟨_, h⟩ | ⟨h, -⟩ <;>
    exact ⟨h.localNode, h.config⟩

theorem quorumWrite_same (doc : Document) (idempotencyKey : Option String) :
    (c.quorumWrite members toVec replicas key doc idempotencyKey env).2.1.localNode = c.localNode ∧
    (c.quorumWrite members toVec replicas key doc idempotencyKey env).2.1.config = c.config := by
  rcases quorumWrite_cases toVec members c replicas key env doc idempotencyKey with
    ⟨_, h⟩ | ⟨h, -⟩ <;> exact ⟨h.localNode, h.config⟩

/-- What a write does to the idempotency store. -/
theorem quorumWrite_idempotency (doc : Document) (ikey : String) :
    (c.quorumWrite members toVec replicas key doc (some ikey) env).2.1.idempotency =
        c.idempotency.evictExpired env.now ∨
      ∃ result, (c.quorumWrite members toVec replicas key doc (some ikey) env).2.1.idempotency =
        (c.idempotency.evictExpired env.now).store toVec ikey doc result env.storedAt := by
  have hcache := c.idempotency.get_snd toVec ikey doc env.now
  simp only [quorumWrite]
  rcases hget : c.idempotency.get toVec ikey doc env.now with ⟨e | _ | cached, cache⟩ <;>
    rw [hget] at hcache <;> subst hcache
  · exact Or.inl rfl
  · dsimp only
    have hid := idempotency_replicate members { c with
      idempotency := c.idempotency.evictExpired env.now } replicas key (some doc) env
    generalize replicate members { c with idempotency := c.idempotency.evictExpired env.now }
      replicas key (some doc) env = res at hid ⊢
    obtain ⟨answer, c', rs⟩ := res
    cases answer with
    | error e => exact Or.inl hid
    | ok result => exact Or.inr ⟨result, congrArg (·.store toVec ikey doc result env.storedAt) hid⟩
  · exact Or.inl rfl

/-- What the replicas that answered a read have read. -/
def answers : List VersionedDoc := (responses reread replicas key env.reads).filterMap Prod.snd

variable {reread replicas key env} in
theorem mem_answers {w : VersionedDoc} : w ∈ answers reread replicas key env ↔
    ∃ n v, (n, true) ∈ env.reads ∧ (replicas n).held key = some v ∧ v.reread reread = some w := by
  simp only [answers, List.mem_filterMap]
  constructor
  · rintro ⟨⟨n, doc⟩, hmem, rfl⟩
    obtain ⟨hread, hdoc⟩ := mem_responses.mp hmem
    obtain ⟨v, hv, hw⟩ := ReplicaStore.handleRead_eq_some.mp hdoc
    exact ⟨n, v, hread, hv, hw⟩
  · rintro ⟨n, v, hread, hv, hw⟩
    exact ⟨(n, some w), mem_responses.mpr
      ⟨hread, ReplicaStore.handleRead_eq_some.mpr ⟨v, hv, hw⟩⟩, rfl⟩

variable {reread replicas key env} in
/-- A node that answered has read the record that it holds. -/
theorem exists_answer_of_held {n : NodeId} {v : VersionedDoc} {doc : Option VersionedDoc}
    (hmem : (n, doc) ∈ responses reread replicas key env.reads)
    (hv : (replicas n).held key = some v) :
    ∃ w ∈ answers reread replicas key env, v.reread reread = some w := by
  obtain ⟨hread, hdoc⟩ := mem_responses.mp hmem
  rw [ReplicaStore.handleRead, hv] at hdoc
  obtain ⟨w, hw, -⟩ := Option.map_eq_some_iff.mp hdoc
  exact ⟨w, mem_answers.mpr ⟨n, v, hread, hv, hw⟩, hw⟩

theorem quorumRead_cases :
    (∃ e, c.quorumRead members reread replicas key env = (.error e, [])) ∨
      c.config.r ≤ (responses reread replicas key env.reads).length ∧
        (answers reread replicas key env = [] ∧
            c.quorumRead members reread replicas key env = (.ok ⟨none, .new, 0⟩, []) ∨
          ∃ (winner : VersionedDoc) (stale : List NodeId),
            resolveConflict (answers reread replicas key env) = some winner ∧
            c.quorumRead members reread replicas key env =
              (.ok ⟨winner.document, winner.version, stale.length⟩, stale.map (fun node =>
                (node, ⟨key, winner.document, winner.version, winner.hlc, false, none⟩)))) := by
  simp only [quorumRead]
  split
  · exact Or.inl ⟨_, rfl⟩
  split
  · exact Or.inl ⟨_, rfl⟩
  rename_i hlen
  refine Or.inr ⟨not_lt.mp hlen, ?_⟩
  split
  · rename_i hnone
    refine Or.inl ⟨?_, rfl⟩
    cases hdocs : answers reread replicas key env with
    | nil => rfl
    | cons d docs =>
      rw [answers] at hdocs
      rw [hdocs] at hnone
      cases hnone
  · rename_i winner hwin
    exact Or.inr ⟨winner, _, hwin, rfl⟩

variable {members reread c replicas key env} in
/-- Only nodes that answered are repaired. -/
theorem quorumRead_repairs {answer : Except ReplicationError ReadResult}
    {repairs : List (NodeId × WriteRequest)}
    (h : c.quorumRead members reread replicas key env = (answer, repairs)) :
    ∀ p ∈ repairs, ∃ doc, (p.1, doc) ∈ responses reread replicas key env.reads := by
  simp only [quorumRead] at h
  split at h
  · cases h
    simp
  split at h
  · cases h
    simp
  split at h
  · cases h
    simp
  · cases h
    intro p hp
    obtain ⟨m, hm, rfl⟩ := List.mem_map.mp hp
    obtain ⟨⟨n, doc⟩, hn, hstale⟩ := List.mem_filterMap.mp hm
    dsimp only at hstale
    split at hstale
    · cases hstale
      exact ⟨doc, hn⟩
    · cases hstale
      exact ⟨doc, hn⟩
    · cases hstale
    · cases hstale

end Coordinator

end BashfulDB.Replication
