import BashfulDB.Api.Objects
import BashfulDB.Library.Steps
import BashfulDB.Replication.Twins

/-!
Two runs of one service in the eyes of a tenant: how its caches, its coordinator and its replicas
correspond while the requests of other tenants differ, and how each phase of a request keeps that.
-/
namespace BashfulDB.Api

open Clock Data Replication

/-- What both runs' caches hold for the tenant, without the entries of others. -/
structure Cores where
  cache : OrdMap String CachedResponse
  store : OrdMap String (Bytes × Nat)

def SameEntry (e : Entry) (w : Bytes × Nat) : Prop := e.docBytes = w.1 ∧ e.createdAt = w.2

/-- The caches of one run show the cores to the tenant, except under the idempotency keys that
others have used; `strangers` lists these with the times of their use. -/
structure Side (strangers : List (String × Nat)) (since : Nat) (cores : Cores) (s : AppState) :
    Prop where
  cache : Expiry.Shadows CachedResponse.storedAt CachedResponse.storedAt retention Eq strangers
    since s.idempotency.entries cores.cache
  store : Expiry.Shadows Entry.createdAt Prod.snd ttl SameEntry strangers since
    s.coordinator.idempotency.cache cores.store
  filed : ∀ key, ∀ p ∈ s.pending key, p.2.key = key

/-- The tenant's objects are the same in both runs, up to the clock values of their versions. -/
structure Twinned (tenant : String) (R : Hlc → Hlc → Prop) (s s' : AppState) : Prop where
  localNode : s'.coordinator.localNode = s.coordinator.localNode
  config : s'.coordinator.config = s.coordinator.config
  twins : Twins R s.coordinator.clock s'.coordinator.clock
  replicas : ∀ key, keyTenant key = tenant.toList →
    TwinReplicas s.coordinator.localNode R key s.replicas s'.replicas
  pending : ∀ key, keyTenant key = tenant.toList →
    List.Forall₂ (TwinRepair s.coordinator.localNode R key) (s.pending key) (s'.pending key)

def Sim (tenant : String) (strangers strangers' : List (String × Nat)) (since since' : Nat)
    (s s' : AppState) : Prop :=
  ∃ cores R, Side strangers since cores s ∧ Side strangers' since' cores s' ∧
    Twinned tenant R s s'

/-- The idempotency key is free for the tenant at `now`. -/
def Clear (strangers : List (String × Nat)) (idemKey : Option String) (now : Nat) : Prop :=
  ∀ k, idemKey = some k → ∀ t, (k, t) ∈ strangers → retention ≤ now - t

variable {libs : Libs} {members : Membership} {tenant : String}
  {strangers strangers' : List (String × Nat)} {since since' now : Nat} {cores : Cores}
  {R : Hlc → Hlc → Prop} {s s' : AppState} {key : ObjectKey} {doc : Document}
  {idemKey : Option String} {env env' : RequestEnv}

theorem Clear.later (h : Clear strangers idemKey since) (hle : since ≤ now) :
    Clear strangers idemKey now := by
  intro k hk t ht
  have := h k hk t ht
  omega

theorem Side.later (h : Side strangers since cores s) (hle : since ≤ now) :
    Side strangers now cores s :=
  ⟨h.cache.later hle, h.store.later hle, h.filed⟩

theorem Side.initial {node : NodeId} {config : QuorumConfig} {clock : Hlc} :
    Side strangers since ⟨.empty, .empty⟩ (.initial node config clock) :=
  ⟨.empty, .empty, fun _ _ h => by cases h⟩

theorem sim_initial {node : NodeId} {config : QuorumConfig} {clock clock' : Hlc} :
    Sim tenant strangers strangers' since since' (.initial node config clock)
      (.initial node config clock') :=
  ⟨_, _, Side.initial, Side.initial,
    ⟨rfl, rfl, twins_empty, fun _ _ _ => .none, fun _ _ => .nil⟩⟩

theorem Side.setCache (h : Side strangers since cores s) {cache : IdempotencyCache}
    (hcache : Expiry.Shadows CachedResponse.storedAt CachedResponse.storedAt retention Eq strangers
      since cache.entries cores.cache) :
    Side strangers since cores { s with idempotency := cache } :=
  ⟨hcache, h.store, h.filed⟩

/-- A lookup in the response cache, in terms of what is live. -/
theorem cacheGet_eq (cache : IdempotencyCache) (k : String) (payloadHash now : Nat) :
    cache.get k payloadHash now =
      (match Expiry.live CachedResponse.storedAt retention cache.entries k now with
        | none => .ok none
        | some e => if e.payloadHash = payloadHash then .ok (some e) else .error (),
        cache.prune now) := by
  simp only [IdempotencyCache.get, IdempotencyCache.prune, Expiry.get_prune]
  cases Expiry.live CachedResponse.storedAt retention cache.entries k now with
  | none => rfl
  | some e => by_cases he : e.payloadHash = payloadHash <;> simp [he]

/-- The same for the coordinator's store of results. -/
theorem storeGet_eq (toVec : Document → Bytes) (store : IdempotencyStore) (k : String)
    (doc : Document) (now : Nat) :
    store.get toVec k doc now =
      (match Expiry.live Entry.createdAt ttl store.cache k now with
        | none => .ok none
        | some e => if e.docBytes = toVec doc then .ok (some e.result)
          else .error .idempotencyConflict,
        store.evictExpired now) := by
  have hget : (store.evictExpired now).cache.get k =
      Expiry.live Entry.createdAt ttl store.cache k now := Expiry.get_prune
  simp only [IdempotencyStore.get, hget]
  cases Expiry.live Entry.createdAt ttl store.cache k now with
  | none => rfl
  | some e => by_cases he : e.docBytes = toVec doc <;> simp [he]

/-- The tenant's requests get the same answer from the response cache in both runs. -/
theorem twin_replay (h : Side strangers since cores s) (h' : Side strangers' since' cores s')
    (hnow : since ≤ now) (hnow' : since' ≤ now) (hclear : Clear strangers idemKey now)
    (hclear' : Clear strangers' idemKey now) (payloadHash default : Nat) :
    (s.replay idemKey payloadHash default now).1 = (s'.replay idemKey payloadHash default now).1 ∧
      Side strangers now cores (s.replay idemKey payloadHash default now).2 ∧
      Side strangers' now cores (s'.replay idemKey payloadHash default now).2 := by
  cases idemKey with
  | none => exact ⟨rfl, h.later hnow, h'.later hnow'⟩
  | some k =>
    have hside := (h.later hnow).setCache ((h.later hnow).cache.prune le_rfl)
    have hside' := (h'.later hnow').setCache ((h'.later hnow').cache.prune le_rfl)
    have hlive := (h.cache.live_eq hnow (hclear k rfl)).trans
      (h'.cache.live_eq hnow' (hclear' k rfl)).symm
    simp only [AppState.replay, cacheGet_eq, hlive]
    cases Expiry.live CachedResponse.storedAt retention s'.idempotency.entries k now with
    | none => exact ⟨rfl, hside, hside'⟩
    | some e =>
      by_cases hhash : e.payloadHash = payloadHash
      · simp only [if_pos hhash]
        exact ⟨trivial, hside, hside'⟩
      · simp only [if_neg hhash]
        exact ⟨trivial, hside, hside'⟩

theorem Twinned.setCache (h : Twinned tenant R s s') (cache cache' : IdempotencyCache) :
    Twinned tenant R { s with idempotency := cache } { s' with idempotency := cache' } :=
  ⟨h.localNode, h.config, h.twins, h.replicas, h.pending⟩

theorem key_of_mem_repairs {c : Coordinator} {replicas : Replicas} {env : Env}
    {p : NodeId × WriteRequest} (hp : p ∈ (c.quorumRead members libs.reread replicas key env).2) :
    p.2.key = key := by
  rcases c.quorumRead_cases members libs.reread replicas key env with
    ⟨e, heq⟩ | ⟨-, ⟨-, heq⟩ | ⟨winner, stale, -, heq⟩⟩ <;> rw [heq] at hp
  · cases hp
  · cases hp
  · obtain ⟨node, -, rfl⟩ := List.mem_map.mp hp
    rfl

theorem Side.read (h : Side strangers since cores s) (key : ObjectKey) (env : Env) :
    Side strangers since cores (s.quorumRead libs members key env).2 := by
  refine ⟨h.cache, h.store, ?_⟩
  intro k p hp
  by_cases hk : k = key
  · subst hk
    simp only [AppState.quorumRead, Function.update_self] at hp
    rcases List.mem_append.mp hp with hp | hp
    · exact h.filed k p hp
    · exact key_of_mem_repairs hp
  · simp only [AppState.quorumRead, Function.update_of_ne hk] at hp
    exact h.filed k p hp

/-- The tenant reads the same document in both runs, at a version of the same length. -/
theorem twin_read {env env' : Env} (h : Twinned tenant R s s')
    (hkey : keyTenant key = tenant.toList) (hreads : env'.reads = env.reads) :
    ((s.quorumRead libs members key env).1.map fun r => (r.document, r.version.len)) =
        ((s'.quorumRead libs members key env').1.map fun r => (r.document, r.version.len)) ∧
      Twinned tenant R (s.quorumRead libs members key env).2
        (s'.quorumRead libs members key env').2 := by
  obtain ⟨hanswer, hrepairs⟩ := twin_quorumRead members libs.reread h.twins h.config
    (h.replicas key hkey) hreads
  refine ⟨hanswer, h.localNode, h.config, h.twins, h.replicas, ?_⟩
  intro k hk
  by_cases hkey : k = key
  · subst hkey
    simp only [AppState.quorumRead, Function.update_self]
    exact List.rel_append (h.pending k hk) hrepairs
  · simp only [AppState.quorumRead, Function.update_of_ne hkey]
    exact h.pending k hk

/-- The stores of two coordinators show the tenant the same entries. -/
def StoresAgree (strangers strangers' : List (String × Nat)) (since : Nat)
    (core : OrdMap String (Bytes × Nat)) (c c' : Coordinator) : Prop :=
  Expiry.Shadows Entry.createdAt Prod.snd ttl SameEntry strangers since c.idempotency.cache core ∧
    Expiry.Shadows Entry.createdAt Prod.snd ttl SameEntry strangers' since c'.idempotency.cache core

section

variable {c c' : Coordinator} {core : OrdMap String (Bytes × Nat)} {replicas replicas' : Replicas}
  {node : NodeId} {env env' : Env}

theorem StoresAgree.evict (h : StoresAgree strangers strangers' since core c c')
    (hle : now ≤ since) : StoresAgree strangers strangers' since core
      { c with idempotency := c.idempotency.evictExpired now }
      { c' with idempotency := c'.idempotency.evictExpired now } :=
  ⟨h.1.prune hle, h.2.prune hle⟩

/-- A result that both runs remember enters the core. -/
theorem StoresAgree.remember (h : StoresAgree strangers strangers' since core c c')
    {answer answer' : Except ReplicationError WriteResult}
    (hanswer : (answer.map fun _ => ()) = answer'.map fun _ => ()) (toVec : Document → Bytes)
    (ikey : String) (doc : Document) :
    ∃ core, StoresAgree strangers strangers' since core
      (Coordinator.remember toVec ikey doc since (answer, c, replicas)).2.1
      (Coordinator.remember toVec ikey doc since (answer', c', replicas')).2.1 := by
  cases answer <;> cases answer' <;> cases hanswer
  · exact ⟨core, h⟩
  · have hev := h.evict le_rfl
    exact ⟨core.insert ikey (toVec doc, since), hev.1.insert ⟨rfl, rfl⟩ rfl le_rfl ikey,
      hev.2.insert ⟨rfl, rfl⟩ rfl le_rfl ikey⟩

variable (htwins : Twins R c.clock c'.clock) (hnode : c.localNode = node)
  (hnode' : c'.localNode = node) (hconfig : c'.config = c.config) (henv : SameOutside env env')
  (hclock : ∀ hlc, env.tick = .ok hlc → c.clock < hlc)
  (hclock' : ∀ hlc, env'.tick = .ok hlc → c'.clock < hlc)

variable (members)

include htwins hnode hnode' hconfig henv hclock hclock'

theorem twin_remember (hstores : StoresAgree strangers strangers' env.storedAt core c c')
    (toVec : Document → Bytes) (ikey : String) (key : ObjectKey) (doc : Document) :
    TwinOutcome node R replicas replicas'
        (Coordinator.remember toVec ikey doc env.storedAt
          (c.replicate members replicas key (some doc) env))
        (Coordinator.remember toVec ikey doc env.storedAt
          (c'.replicate members replicas' key (some doc) env')) ∧
      ∃ core, StoresAgree strangers strangers' env.storedAt core
        (Coordinator.remember toVec ikey doc env.storedAt
          (c.replicate members replicas key (some doc) env)).2.1
        (Coordinator.remember toVec ikey doc env.storedAt
          (c'.replicate members replicas' key (some doc) env')).2.1 := by
  have hout : TwinOutcome node R replicas replicas'
      (c.replicate members replicas key (some doc) env)
      (c'.replicate members replicas' key (some doc) env') :=
    twin_replicate members htwins hnode hnode' hconfig henv hclock hclock'
  have hagree : StoresAgree strangers strangers' env.storedAt core
      (c.replicate members replicas key (some doc) env).2.1
      (c'.replicate members replicas' key (some doc) env').2.1 := by
    simpa only [StoresAgree, Coordinator.idempotency_replicate] using hstores
  exact ⟨hout.remember toVec ikey doc env.storedAt, hagree.remember hout.answer toVec ikey doc⟩

/-- A write of the tenant ends the same way in both runs. -/
theorem twin_quorumWrite (hstores : StoresAgree strangers strangers' env.now core c c')
    (hstored : env.now ≤ env.storedAt) (hclear : Clear strangers idemKey env.now)
    (hclear' : Clear strangers' idemKey env.now) (toVec : Document → Bytes)
    (key : ObjectKey) (doc : Document) :
    TwinOutcome node R replicas replicas' (c.quorumWrite members toVec replicas key doc idemKey env)
        (c'.quorumWrite members toVec replicas' key doc idemKey env') ∧
      ∃ core, StoresAgree strangers strangers' env.storedAt core
        (c.quorumWrite members toVec replicas key doc idemKey env).2.1
        (c'.quorumWrite members toVec replicas' key doc idemKey env').2.1 := by
  have hlater : StoresAgree strangers strangers' env.storedAt core c c' :=
    ⟨hstores.1.later hstored, hstores.2.later hstored⟩
  cases idemKey with
  | none =>
    refine ⟨twin_replicate members htwins hnode hnode' hconfig henv hclock hclock', core, ?_⟩
    simpa only [StoresAgree, Coordinator.quorumWrite, Coordinator.idempotency_replicate]
      using hlater
  | some ikey =>
    have hevict := hlater.evict hstored
    simp only [Coordinator.quorumWrite, storeGet_eq, henv.now, henv.storedAt]
    have hlive := hstores.1.agree ikey env.now le_rfl (hclear ikey rfl)
    have hlive' := hstores.2.agree ikey env.now le_rfl (hclear' ikey rfl)
    generalize Expiry.live Entry.createdAt ttl c.idempotency.cache ikey env.now = o at hlive ⊢
    generalize Expiry.live Entry.createdAt ttl c'.idempotency.cache ikey env.now = o' at hlive' ⊢
    generalize Expiry.live Prod.snd ttl core ikey env.now = w at hlive hlive'
    cases hlive with
    | none =>
      cases hlive'
      refine twin_remember members ?_ ?_ ?_ ?_ henv ?_ ?_ hevict toVec ikey key doc
      exacts [htwins, hnode, hnode', hconfig, hclock, hclock']
    | @some e _ he =>
      cases hlive' with
      | @some e' _ he' =>
        have hbytes : e'.docBytes = e.docBytes := he'.1.trans he.1.symm
        by_cases hdoc : e.docBytes = toVec doc
        · simp only [hbytes, if_pos hdoc]
          exact ⟨⟨rfl, R, fun _ _ hr => hr, htwins, fun _ hk => hk⟩, core, hevict⟩
        · simp only [hbytes, if_neg hdoc]
          exact ⟨⟨rfl, R, fun _ _ hr => hr, htwins, fun _ hk => hk⟩, core, hevict⟩

end

/-- Both runs have updated their coordinator and replicas in the same way. -/
theorem Twinned.update (h : Twinned tenant R s s')
    {res res' : Except ReplicationError WriteResult × Coordinator × Replicas}
    (hout : TwinOutcome s.coordinator.localNode R s.replicas s'.replicas res res')
    (hsame : res.2.1.localNode = s.coordinator.localNode ∧ res.2.1.config = s.coordinator.config)
    (hsame' : res'.2.1.localNode = s'.coordinator.localNode ∧
      res'.2.1.config = s'.coordinator.config) :
    ∃ R', Twinned tenant R' { s with coordinator := res.2.1, replicas := res.2.2 }
      { s' with coordinator := res'.2.1, replicas := res'.2.2 } := by
  obtain ⟨R', hR, htwins, hreplicas⟩ := hout.twins
  refine ⟨R', ?_, ?_, htwins, ?_, ?_⟩
  · rw [hsame'.1, hsame.1, h.localNode]
  · rw [hsame'.2, hsame.2, h.config]
  · intro key hkey
    rw [hsame.1]
    exact hreplicas key (h.replicas key hkey)
  · intro key hkey
    rw [hsame.1]
    exact (h.pending key hkey).imp fun _ _ hp => hp.mono hR

/-- The times of a request follow each other, and the clock moves forward. -/
structure Timely (since : Nat) (s : AppState) (env : RequestEnv) : Prop where
  lookup : since ≤ env.lookupAt
  now : env.lookupAt ≤ env.quorum.now
  stored : env.quorum.now ≤ env.quorum.storedAt
  cached : env.quorum.storedAt ≤ env.cachedAt
  clock : ∀ hlc, env.quorum.tick = .ok hlc → s.coordinator.clock < hlc

theorem Timely.congr {t : AppState} (h : Timely since s env)
    (hclock : t.coordinator.clock = s.coordinator.clock) : Timely since t env :=
  ⟨h.lookup, h.now, h.stored, h.cached, hclock ▸ h.clock⟩

theorem Timely.lookupAt_le_cachedAt (h : Timely since s env) : env.lookupAt ≤ env.cachedAt :=
  h.now.trans (h.stored.trans h.cached)

/-- The same outside world for a request in both runs, except for the value of the clock. -/
structure SameEnv (env env' : RequestEnv) : Prop where
  lookupAt : env'.lookupAt = env.lookupAt
  freshId : env'.freshId = env.freshId
  quorum : SameOutside env.quorum env'.quorum
  cachedAt : env'.cachedAt = env.cachedAt

/-- The two runs between two phases of one request of the tenant. -/
structure Stage (tenant : String) (strangers strangers' : List (String × Nat)) (cores : Cores)
    (R : Hlc → Hlc → Prop) (idemKey : Option String) (env env' : RequestEnv) (s s' : AppState) :
    Prop where
  side : Side strangers env.lookupAt cores s
  side' : Side strangers' env.lookupAt cores s'
  twinned : Twinned tenant R s s'
  time : Timely env.lookupAt s env
  time' : Timely env.lookupAt s' env'
  same : SameEnv env env'
  clear : Clear strangers idemKey env.lookupAt
  clear' : Clear strangers' idemKey env.lookupAt

namespace Stage

theorem done (h : Stage tenant strangers strangers' cores R idemKey env env' s s') :
    Sim tenant strangers strangers' env.cachedAt env.cachedAt s s' := by
  have hle := h.time.lookupAt_le_cachedAt
  exact ⟨cores, R, h.side.later hle, h.side'.later hle, h.twinned⟩

theorem replay (h : Stage tenant strangers strangers' cores R idemKey env env' s s')
    (payloadHash default : Nat) :
    (s.replay idemKey payloadHash default env.lookupAt).1 =
        (s'.replay idemKey payloadHash default env.lookupAt).1 ∧
      Stage tenant strangers strangers' cores R idemKey env env'
        (s.replay idemKey payloadHash default env.lookupAt).2
        (s'.replay idemKey payloadHash default env.lookupAt).2 := by
  obtain ⟨hanswer, hside, hside'⟩ := twin_replay h.side h.side' le_rfl le_rfl h.clear h.clear'
    payloadHash default
  rw [s.replay_snd] at hside ⊢
  rw [s'.replay_snd] at hside' ⊢
  exact ⟨hanswer, hside, hside', h.twinned.setCache _ _,
    h.time.congr rfl, h.time'.congr rfl, h.same, h.clear, h.clear'⟩

variable (libs members) in
theorem read (h : Stage tenant strangers strangers' cores R idemKey env env' s s')
    (hkey : keyTenant key = tenant.toList) :
    ((s.quorumRead libs members key env.quorum).1.map fun r => (r.document, r.version.len)) =
        ((s'.quorumRead libs members key env'.quorum).1.map fun r => (r.document, r.version.len)) ∧
      Stage tenant strangers strangers' cores R idemKey env env'
        (s.quorumRead libs members key env.quorum).2
        (s'.quorumRead libs members key env'.quorum).2 := by
  obtain ⟨hanswer, htwinned⟩ := twin_read h.twinned hkey h.same.quorum.reads
  exact ⟨hanswer, h.side.read key env.quorum, h.side'.read key env'.quorum, htwinned,
    h.time.congr rfl, h.time'.congr rfl, h.same, h.clear, h.clear'⟩

/-- The last phase of a write of the tenant has the same result in both runs. -/
theorem writeAndCache (h : Stage tenant strangers strangers' cores R idemKey env env' s s')
    (key : ObjectKey) (doc : Document) (payloadHash status : Nat) (location : Option String) :
    (s.writeAndCache libs members key doc idemKey payloadHash status location env).1 =
        (s'.writeAndCache libs members key doc idemKey payloadHash status location env').1 ∧
      Sim tenant strangers strangers' env.cachedAt env.cachedAt
        (s.writeAndCache libs members key doc idemKey payloadHash status location env).2
        (s'.writeAndCache libs members key doc idemKey payloadHash status location env').2 := by
  have hstores : StoresAgree strangers strangers' env.quorum.now cores.store s.coordinator
      s'.coordinator := ⟨h.side.store.later h.time.now, h.side'.store.later h.time.now⟩
  obtain ⟨hout, store, hstore, hstore'⟩ := twin_quorumWrite members h.twinned.twins rfl
    h.twinned.localNode h.twinned.config h.same.quorum h.time.clock h.time'.clock hstores
    h.time.stored (h.clear.later h.time.now) (h.clear'.later h.time.now) libs.toVec key doc
  obtain ⟨R', htwinned⟩ := h.twinned.update hout
    (s.coordinator.quorumWrite_same libs.toVec members s.replicas key env.quorum doc idemKey)
    (s'.coordinator.quorumWrite_same libs.toVec members s'.replicas key env'.quorum doc idemKey)
  have hle := h.time.lookupAt_le_cachedAt
  have hcache := h.side.cache.later hle
  have hcache' := h.side'.cache.later hle
  have hlater := hstore.later h.time.cached
  have hlater' := hstore'.later h.time.cached
  have hanswer := hout.answer
  simp only [AppState.writeAndCache, AppState.quorumWrite, h.same.cachedAt]
  generalize s.coordinator.quorumWrite members libs.toVec s.replicas key doc idemKey env.quorum =
    res at hanswer hlater htwinned ⊢
  generalize s'.coordinator.quorumWrite members libs.toVec s'.replicas key doc idemKey env'.quorum =
    res' at hanswer hlater' htwinned ⊢
  obtain ⟨answer, c, replicas⟩ := res
  obtain ⟨answer', c', replicas'⟩ := res'
  have hsim : Sim tenant strangers strangers' env.cachedAt env.cachedAt
      { s with coordinator := c, replicas := replicas }
      { s' with coordinator := c', replicas := replicas' } :=
    ⟨⟨cores.cache, store⟩, R', ⟨hcache, hlater, h.side.filed⟩, ⟨hcache', hlater', h.side'.filed⟩,
      htwinned⟩
  cases answer <;> cases answer' <;> cases hanswer
  · exact ⟨rfl, hsim⟩
  · cases idemKey with
    | none => exact ⟨rfl, hsim⟩
    | some ikey =>
      let entry : CachedResponse := ⟨docToJson doc, status, payloadHash, env.cachedAt⟩
      exact ⟨rfl, ⟨cores.cache.insert ikey entry, store⟩, R',
        ⟨hcache.insert rfl rfl le_rfl ikey, hlater, h.side.filed⟩,
        ⟨hcache'.insert rfl rfl le_rfl ikey, hlater', h.side'.filed⟩, htwinned.setCache _ _⟩

variable (members) in
theorem delete (h : Stage tenant strangers strangers' cores R idemKey env env' s s')
    (key : ObjectKey) :
    ((s.quorumDelete members key env.quorum).1.map fun _ => ()) =
        ((s'.quorumDelete members key env'.quorum).1.map fun _ => ()) ∧
      Sim tenant strangers strangers' env.cachedAt env.cachedAt
        (s.quorumDelete members key env.quorum).2 (s'.quorumDelete members key env'.quorum).2 := by
  have hout : TwinOutcome s.coordinator.localNode R s.replicas s'.replicas
      (s.coordinator.replicate members s.replicas key none env.quorum)
      (s'.coordinator.replicate members s'.replicas key none env'.quorum) :=
    twin_replicate members h.twinned.twins rfl h.twinned.localNode h.twinned.config h.same.quorum
      h.time.clock h.time'.clock
  obtain ⟨R', htwinned⟩ := h.twinned.update hout
    (s.coordinator.replicate_same members s.replicas key none env.quorum)
    (s'.coordinator.replicate_same members s'.replicas key none env'.quorum)
  have hle := h.time.lookupAt_le_cachedAt
  refine ⟨hout.answer, cores, R', ⟨h.side.cache.later hle, ?_, h.side.filed⟩,
    ⟨h.side'.cache.later hle, ?_, h.side'.filed⟩, htwinned⟩
  · simp only [AppState.quorumDelete, Coordinator.quorumDelete, Coordinator.idempotency_replicate]
    exact h.side.store.later hle
  · simp only [AppState.quorumDelete, Coordinator.quorumDelete, Coordinator.idempotency_replicate]
    exact h.side'.store.later hle

end Stage

end BashfulDB.Api
