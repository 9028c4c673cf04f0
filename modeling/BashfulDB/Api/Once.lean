import BashfulDB.Api.Confinement

/-!
Creations that repeat one idempotency key, side by side: when they make one object, and how they
come to make two.
-/
namespace BashfulDB.Api

open Auth Clock Data Replication

/-- The `_id` in the body of a response. -/
def Response.objectId (r : Response) : Option String :=
  match r.body with
  | some (.object entries) =>
    match Entries.get "_id" entries with
    | some (.string id) => some id
    | _ => none
  | _ => none

theorem Response.objectId_eq {r : Response} {doc : Document} (h : r.body = some (docToJson doc)) :
    r.objectId = some (toString doc.id) := by
  simp only [Response.objectId, h, docToJson, Entries.get_insert_self]

section

variable (libs : Libs) (members : Membership) (path : ObjectPath) (ikey : String) (body : Bytes)
  (since : Nat)

/-- A creation on this path with this key and body, by anyone. -/
def Route.Creates (route : Route) : Prop :=
  ∃ headers claims, route = .object (.create path headers claims body) ∧
    optHeader headers "idempotency-key" = some ikey

/-- All instants of the request lie in the window. -/
def RequestEnv.Within (env : RequestEnv) : Prop :=
  ∀ now ∈ [env.lookupAt, env.quorum.now, env.quorum.storedAt, env.cachedAt],
    since ≤ now ∧ now < since + retention

instance RequestEnv.Within.decidable (env : RequestEnv) : Decidable (env.Within since) :=
  inferInstanceAs (Decidable (∀ now ∈ _, _))

/-- The body makes this document, under its id. -/
def Made (doc : Document) : Prop :=
  (parseBody libs body).bind (buildDocument libs doc.id) = .ok doc

/-- A write of the creation. -/
structure WriteJob.Creates (job : WriteJob) : Prop where
  idemKey : job.idemKey = some ikey
  payloadHash : job.payloadHash = libs.hashPayload body
  made : Made libs body job.doc

/-- What such a creation can be at. -/
def Phase.Creates : Phase → Prop
  | .lookup k b target => k = some ikey ∧ b = body ∧ target = .create path
  | .dedupe job | .send job | .keep job _ | .cache job => job.Creates libs ikey body
  | .read _ _ | .erase _ => False
  | .done _ => True

/-- Between its lookup in the coordinator's store and its entry there. -/
def Phase.InWrite : Phase → Bool
  | .send _ | .keep _ _ => true
  | _ => false

/-- A request looks into the coordinator's store while no other is between its own lookup and its
entry, and a write that is sent reaches its quorum. -/
def Phase.Orderly (s : Service) (env : RequestEnv) : Phase → Prop
  | .dedupe _ => ∀ o ∈ s.ongoing, o.phase.InWrite = false
  | .send job => env.quorum.tick.toBool = true →
      (s.app.coordinator.replicate members s.app.replicas job.key (some job.doc)
        env.quorum).1.toBool = true
  | _ => True

def Orderly (s : Service) : Turn → Prop
  | .advance i => ∀ o ∈ s.ongoing[i]?, o.phase.Orderly members s o.env
  | _ => True

instance Phase.Orderly.decidable (s : Service) (env : RequestEnv) : (p : Phase) →
    Decidable (p.Orderly members s env)
  | .dedupe _ => inferInstanceAs (Decidable (∀ o ∈ s.ongoing, o.phase.InWrite = false))
  | .send _ => inferInstanceAs (Decidable (_ = true → _ = true))
  | .lookup _ _ _ | .read _ _ | .keep _ _ | .cache _ | .erase _ | .done _ =>
    inferInstanceAs (Decidable True)

instance Orderly.decidable (s : Service) : (m : Turn) → Decidable (Orderly members s m)
  | .advance i => inferInstanceAs (Decidable (∀ o ∈ s.ongoing[i]?, o.phase.Orderly members s o.env))
  | .arrive _ _ | .repair _ _ _ | .reschema _ => inferInstanceAs (Decidable True)

/-- Before anything is sent. -/
def Phase.Early : Phase → Prop
  | .keep _ _ | .cache _ | .done (.ok _) => False
  | _ => True

/-- Once `doc` is sent. -/
def Phase.Late (doc : Document) : Phase → Prop
  | .send _ => False
  | .keep job _ | .cache job => job.doc = doc
  | .done (.ok r) => r.objectId = some (toString doc.id)
  | _ => True

def Ongoing.sending (o : Ongoing) : Option Unit :=
  match o.phase with
  | .send _ => some ()
  | _ => none

/-- No request has sent anything, and at most one is about to. -/
structure Unwritten (s : Service) : Prop where
  cache : s.app.idempotency.entries.get ikey = none
  store : s.app.coordinator.idempotency.cache.get ikey = none
  early : ∀ o ∈ s.ongoing, o.phase.Early ∧ o.wrote = false
  alone : Pool.Distinct Ongoing.sending s.ongoing

/-- One request has sent `doc`. Both stores hold nothing else under the key, and the coordinator's
holds it once that request has made its entry. -/
structure Written (doc : Document) (s : Service) : Prop where
  made : Made libs body doc
  cache : ∀ entry, s.app.idempotency.entries.get ikey = some entry →
    entry.body = docToJson doc ∧ entry.payloadHash = libs.hashPayload body ∧
      since ≤ entry.storedAt
  store : ∀ entry, s.app.coordinator.idempotency.cache.get ikey = some entry →
    entry.docBytes = libs.toVec doc ∧ since ≤ entry.createdAt
  kept : (∀ o ∈ s.ongoing, o.phase.InWrite = false) →
    (s.app.coordinator.idempotency.cache.get ikey).isSome
  late : ∀ o ∈ s.ongoing, o.phase.Late doc
  once : s.writers.length ≤ 1

end

variable {libs : Libs} {etag : VectorClock → String} {members : Membership} {path : ObjectPath}
  {ikey : String} {body : Bytes} {since : Nat} {s : Service} {o : Ongoing} {i : Nat}
  {doc : Document}

theorem Made.eq_of_id {doc' : Document} (h : Made libs body doc) (h' : Made libs body doc')
    (hid : doc.id = doc'.id) : doc = doc' := by
  unfold Made at h h'
  rw [hid] at h
  cases h.symm.trans h'
  rfl

theorem made_of_bind {id : ObjectId}
    (h : (parseBody libs body).bind (buildDocument libs id) = .ok doc) : Made libs body doc := by
  obtain ⟨json, -, hbuild⟩ := Except.bind_eq_ok.mp h
  rw [Made, (buildDocument_eq_ok hbuild).1]
  exact h

theorem RequestEnv.Within.fresh {env : RequestEnv} (h : env.Within since) {now stamp : Nat}
    (hnow : now ∈ [env.lookupAt, env.quorum.now, env.quorum.storedAt, env.cachedAt])
    (hstamp : since ≤ stamp) : now - stamp < retention := by
  obtain ⟨hle, hlt⟩ := h now hnow
  omega

/-- Within the window, lookups take nothing away. -/
theorem get_prune_within {cache : IdempotencyCache} {now : Nat}
    (h : ∀ entry, cache.entries.get ikey = some entry → now - entry.storedAt < retention) :
    (cache.prune now).entries.get ikey = cache.entries.get ikey :=
  OrdMap.get_retain_of_forall fun entry hentry => decide_eq_true (h entry hentry)

theorem get_evictExpired_within {store : IdempotencyStore} {now : Nat}
    (h : ∀ entry, store.cache.get ikey = some entry → now - entry.createdAt < ttl) :
    (store.evictExpired now).cache.get ikey = store.cache.get ikey :=
  OrdMap.get_retain_of_forall fun entry hentry => decide_eq_true (h entry hentry)

variable (libs ikey body since) in
/-- What both stores hold under the key is from the window, and the response cache's entry is for
the same body. -/
structure InWindow (t : AppState) : Prop where
  cache : ∀ entry, t.idempotency.entries.get ikey = some entry →
    entry.payloadHash = libs.hashPayload body ∧ since ≤ entry.storedAt
  store : ∀ entry, t.coordinator.idempotency.cache.get ikey = some entry → since ≤ entry.createdAt

variable {t : AppState} {env : RequestEnv} {p q : Phase}

variable (etag members) in
/-- What a step leaves in the response cache under the key. -/
theorem cacheEntry_step (hp : p.Creates libs path ikey body) (henv : env.Within since)
    (ht : InWindow libs ikey body since t) :
    (∃ job, p = .cache job ∧
      (p.step libs etag members env t).2.idempotency.entries.get ikey =
        some ⟨docToJson job.doc, job.status, job.payloadHash, env.cachedAt⟩) ∨
    (∀ job, p ≠ .cache job) ∧
      (p.step libs etag members env t).2.idempotency.entries.get ikey =
        t.idempotency.entries.get ikey := by
  rw [Phase.idempotency_step]
  cases p with
  | lookup k b target =>
    obtain ⟨rfl, -, -⟩ := hp
    refine Or.inr ⟨nofun, get_prune_within fun entry hentry => ?_⟩
    exact henv.fresh (by simp) (ht.cache entry hentry).2
  | cache job =>
    refine Or.inl ⟨job, rfl, ?_⟩
    dsimp only
    rw [hp.idemKey]
    exact OrdMap.get_insert_self _
  | read _ _ | dedupe _ | send _ | keep _ _ | erase _ | done _ => exact Or.inr ⟨nofun, rfl⟩

variable (etag members) in
/-- What a step leaves in the coordinator's store under the key. -/
theorem storeEntry_step (hp : p.Creates libs path ikey body) (henv : env.Within since)
    (ht : InWindow libs ikey body since t) :
    (∃ job result, p = .keep job result ∧
      (p.step libs etag members env t).2.coordinator.idempotency.cache.get ikey =
        some ⟨libs.toVec job.doc, result, env.quorum.storedAt⟩) ∨
    (∀ job result, p ≠ .keep job result) ∧
      (p.step libs etag members env t).2.coordinator.idempotency.cache.get ikey =
        t.coordinator.idempotency.cache.get ikey := by
  rw [Phase.store_step]
  cases p with
  | dedupe job =>
    refine Or.inr ⟨nofun, ?_⟩
    dsimp only
    rw [hp.idemKey]
    exact get_evictExpired_within fun entry hentry => henv.fresh (by simp) (ht.store entry hentry)
  | keep job result =>
    refine Or.inl ⟨job, result, rfl, ?_⟩
    dsimp only
    rw [hp.idemKey]
    exact OrdMap.get_insert_self _
  | lookup _ _ _ | read _ _ | send _ | cache _ | erase _ | done _ => exact Or.inr ⟨nofun, rfl⟩

variable (libs ikey body) in
/-- Where a step of a creation leads. -/
inductive CreateStep (t : AppState) (env : RequestEnv) : Phase → Phase → Prop
  | hit {p : Phase} {entry : CachedResponse} {r : Response} : p.InWrite = false →
      t.idempotency.entries.get ikey = some entry → r.body = some entry.body →
      CreateStep t env p (.done (.ok r))
  | refused {p : Phase} {e : ApiError} : p.Writes env = false →
      CreateStep t env p (.done (.error e))
  | begun {p : Phase} {job : WriteJob} : p.InWrite = false → job.Creates libs ikey body →
      CreateStep t env p (.dedupe job)
  | repeated {job : WriteJob} {entry : Entry} :
      t.coordinator.idempotency.cache.get ikey = some entry →
      entry.docBytes = libs.toVec job.doc → CreateStep t env (.dedupe job) (.cache job)
  | first {job : WriteJob} : t.coordinator.idempotency.cache.get ikey = none →
      CreateStep t env (.dedupe job) (.send job)
  | sent {job : WriteJob} {result : WriteResult} : CreateStep t env (.send job) (.keep job result)
  | kept {job : WriteJob} {result : WriteResult} : CreateStep t env (.keep job result) (.cache job)
  | cached {job : WriteJob} : CreateStep t env (.cache job) (.done (.ok job.response))
  | ended {answer : Except ApiError Response} : CreateStep t env (.done answer) (.done answer)

theorem createStep_step (hp : p.Creates libs path ikey body) (henv : env.Within since)
    (ht : InWindow libs ikey body since t)
    (hsend : ∀ job, p = .send job → env.quorum.tick.toBool = true →
      (t.coordinator.replicate members t.replicas job.key (some job.doc) env.quorum).1.toBool =
        true) :
    CreateStep libs ikey body t env p (p.step libs etag members env t).1 := by
  cases p with
  | lookup k b target =>
    obtain ⟨rfl, rfl, rfl⟩ := hp
    have hprune : (t.idempotency.prune env.lookupAt).entries.get ikey = _ :=
      get_prune_within fun entry hentry => henv.fresh (by simp) (ht.cache entry hentry).2
    dsimp only [Phase.step, AppState.replay, IdempotencyCache.get]
    rw [hprune]
    cases hentry : t.idempotency.entries.get ikey with
    | none =>
      dsimp only [Target.proceed]
      cases hdoc : (parseBody libs b).bind (buildDocument libs env.freshId) with
      | error e => exact .refused rfl
      | ok doc => exact .begun rfl ⟨rfl, rfl, made_of_bind hdoc⟩
    | some entry =>
      dsimp only
      rw [if_pos (ht.cache entry hentry).1]
      exact .hit rfl hentry rfl
  | dedupe job =>
    have hevict : (t.coordinator.idempotency.evictExpired env.quorum.now).cache.get ikey = _ :=
      get_evictExpired_within fun entry hentry => henv.fresh (by simp) (ht.store entry hentry)
    dsimp only [Phase.step]
    rw [hp.idemKey]
    dsimp only [IdempotencyStore.get]
    rw [hevict]
    cases hentry : t.coordinator.idempotency.cache.get ikey with
    | none => exact .first hentry
    | some entry =>
      dsimp only
      by_cases hbytes : entry.docBytes = libs.toVec job.doc
      · rw [if_pos hbytes]
        exact .repeated hentry hbytes
      · rw [if_neg hbytes]
        exact .refused rfl
  | send job =>
    cases htick : env.quorum.tick with
    | error e =>
      dsimp only [Phase.step, Coordinator.replicate]
      rw [htick]
      refine .refused ?_
      rw [Phase.Writes, htick]
      rfl
    | ok hlc =>
      obtain ⟨result, hresult⟩ := Except.toBool_eq_true.mp (hsend job rfl (by rw [htick]; rfl))
      dsimp only [Phase.step]
      rw [hresult]
      exact .sent
  | keep job result =>
    dsimp only [Phase.step]
    rw [hp.idemKey]
    exact .kept
  | cache job =>
    dsimp only [Phase.step]
    rw [hp.idemKey]
    exact .cached
  | done answer => exact .ended
  | read _ _ | erase _ => exact hp.elim

section

variable (libs path ikey body since) in
/-- A request of the run. -/
structure Ongoing.Creates (o : Ongoing) : Prop where
  phase : o.phase.Creates libs path ikey body
  env : o.env.Within since

theorem Phase.Creates.step (hp : p.Creates libs path ikey body)
    (h : CreateStep libs ikey body t env p q) : q.Creates libs path ikey body := by
  cases h with
  | hit _ _ _ => trivial
  | refused _ => trivial
  | begun _ hjob => exact hjob
  | repeated _ _ => exact hp
  | first _ => exact hp
  | sent => exact hp
  | kept => exact hp
  | cached => trivial
  | ended => trivial

theorem Unwritten.inWindow (h : Unwritten ikey s) : InWindow libs ikey body since s.app where
  cache entry hentry := by
    rw [h.cache] at hentry
    cases hentry
  store entry hentry := by
    rw [h.store] at hentry
    cases hentry

theorem Written.inWindow (h : Written libs ikey body since doc s) :
    InWindow libs ikey body since s.app where
  cache entry hentry := (h.cache entry hentry).2
  store entry hentry := (h.store entry hentry).2

theorem Phase.Creates.writes_eq_false (hp : p.Creates libs path ikey body)
    (h : p.InWrite = false) : p.Writes env = false := by
  cases p with
  | send job => cases h
  | erase key => exact hp.elim
  | lookup _ _ _ | read _ _ | dedupe _ | keep _ _ | cache _ | done _ => rfl

/-- A request that has nothing to do with the write is at the same place before and after it. -/
theorem Phase.Early.late (h : p.Early) (hsending : ∀ job, p ≠ .send job) : p.Late doc := by
  cases p with
  | send job => exact absurd rfl (hsending job)
  | keep _ _ | cache _ => exact h.elim
  | lookup _ _ _ | read _ _ | dedupe _ | erase _ => trivial
  | done answer =>
    cases answer with
    | error e => trivial
    | ok r => exact h.elim

variable (hbytes : ∀ d d', libs.toVec d = libs.toVec d' → d.id = d'.id)

include hbytes in
theorem Written.late_step (h : Written libs ikey body since doc s)
    (hp : o.phase.Creates libs path ikey body) (ho : o ∈ s.ongoing)
    (hstep : CreateStep libs ikey body s.app o.env o.phase q)
    (hfree : ∀ job, o.phase = .dedupe job → ∀ o' ∈ s.ongoing, o'.phase.InWrite = false) :
    q.Late doc := by
  have hlate := h.late o ho
  generalize hphase : o.phase = p at hp hstep hlate hfree
  cases hstep with
  | hit _ hentry hbody =>
    rw [(h.cache _ hentry).1] at hbody
    exact Response.objectId_eq hbody
  | refused _ => trivial
  | begun _ _ => trivial
  | repeated hentry hdoc =>
    rw [(h.store _ hentry).1] at hdoc
    exact (h.made.eq_of_id hp.made (hbytes _ _ hdoc)).symm
  | first hnone =>
    have hsome := h.kept (hfree _ rfl)
    rw [hnone] at hsome
    cases hsome
  | sent => exact hlate.elim
  | kept => exact hlate
  | cached => exact Response.objectId_eq (congrArg (some ∘ docToJson) hlate)
  | ended => exact hlate

include hbytes in
/-- Whatever comes after the write leaves it the only one. -/
theorem Written.advance (h : Written libs ikey body since doc s) (hi : s.ongoing[i]? = some o)
    (ho : o.Creates libs path ikey body since)
    (hstep : CreateStep libs ikey body s.app o.env o.phase
      (o.phase.step libs etag members o.env s.app).1)
    (hfree : ∀ job, o.phase = .dedupe job → ∀ o' ∈ s.ongoing, o'.phase.InWrite = false) :
    Written libs ikey body since doc (s.next libs etag members (.advance i)) := by
  have hmem := List.mem_of_getElem? hi
  have hlate := h.late o hmem
  have hcache := cacheEntry_step etag members ho.phase ho.env h.inWindow
  have hstore := storeEntry_step etag members ho.phase ho.env h.inWindow
  have hcached : since ≤ o.env.cachedAt := (ho.env _ (by simp)).1
  have hstored : since ≤ o.env.quorum.storedAt := (ho.env _ (by simp)).1
  refine ⟨h.made, ?_, ?_, ?_, ?_, ?_⟩
  · intro entry hentry
    rw [Service.app_advance libs etag members hi] at hentry
    rcases hcache with ⟨job, hphase, hnew⟩ | ⟨-, hsame⟩
    · cases hnew.symm.trans hentry
      have hjob := ho.phase
      rw [hphase] at hjob hlate
      exact ⟨congrArg docToJson hlate, hjob.payloadHash, hcached⟩
    · exact h.cache entry (hsame.symm.trans hentry)
  · intro entry hentry
    rw [Service.app_advance libs etag members hi] at hentry
    rcases hstore with ⟨job, result, hphase, hnew⟩ | ⟨-, hsame⟩
    · cases hnew.symm.trans hentry
      rw [hphase] at hlate
      exact ⟨congrArg libs.toVec hlate, hstored⟩
    · exact h.store entry (hsame.symm.trans hentry)
  · intro hnone
    rw [Service.ongoing_advance libs etag members hi] at hnone
    rw [Service.app_advance libs etag members hi]
    rcases hstore with ⟨job, result, -, hnew⟩ | ⟨hkeep, hsame⟩
    · exact congrArg Option.isSome hnew
    · refine (congrArg Option.isSome hsame).trans (h.kept fun b hb => ?_)
      rcases (Pool.mem_iff_others hi).mp hb with rfl | hb
      · cases hphase : b.phase with
        | send job =>
          rw [hphase] at hlate
          exact hlate.elim
        | keep job result => exact absurd hphase (hkeep job result)
        | lookup _ _ _ | read _ _ | dedupe _ | cache _ | erase _ | done _ => rfl
      · exact hnone b ((Pool.mem_resume hi).mpr (Or.inr hb))
  · have hlate := h.late_step hbytes ho.phase hmem hstep hfree
    exact Service.forall_advance libs etag members hi h.late hlate
  · have hwrites : o.phase.Writes o.env = false := by
      cases hphase : o.phase with
      | send job =>
        rw [hphase] at hlate
        exact hlate.elim
      | erase key =>
        have hp := ho.phase
        rw [hphase] at hp
        exact hp.elim
      | lookup _ _ _ | read _ _ | dedupe _ | keep _ _ | cache _ | done _ => rfl
    rw [Service.writers_advance libs etag members hi hwrites]
    exact h.once

/-- The first write. No other request was about to send. -/
theorem Unwritten.sent {job : WriteJob} {result : WriteResult} (h : Unwritten ikey s)
    (hi : s.ongoing[i]? = some o) (ho : o.Creates libs path ikey body since)
    (hphase : o.phase = .send job)
    (hkeep : (o.phase.step libs etag members o.env s.app).1 = .keep job result) :
    Written libs ikey body since job.doc (s.next libs etag members (.advance i)) := by
  have hjob := ho.phase
  rw [hphase] at hjob
  have hcache :
      (s.next libs etag members (.advance i)).app.idempotency.entries.get ikey = none := by
    rw [Service.app_advance libs etag members hi]
    rcases cacheEntry_step etag members ho.phase ho.env h.inWindow with ⟨j, hj, -⟩ | ⟨-, hsame⟩
    · cases hphase.symm.trans hj
    · exact hsame.trans h.cache
  have hstore : (s.next libs etag members (.advance i)).app.coordinator.idempotency.cache.get
      ikey = none := by
    rw [Service.app_advance libs etag members hi]
    rcases storeEntry_step etag members ho.phase ho.env h.inWindow with ⟨j, r, hj, -⟩ | ⟨-, hsame⟩
    · cases hphase.symm.trans hj
    · exact hsame.trans h.store
  refine ⟨hjob.made, ?_, ?_, ?_, ?_, ?_⟩
  · intro entry hentry
    cases hcache.symm.trans hentry
  · intro entry hentry
    cases hstore.symm.trans hentry
  · intro hnone
    rw [Service.ongoing_advance libs etag members hi] at hnone
    have hfalse := hnone _ ((Pool.mem_resume hi).mpr (Or.inl rfl))
    rw [Ongoing.step_phase, hkeep] at hfalse
    cases hfalse
  · intro b hb
    rw [Service.ongoing_advance libs etag members hi] at hb
    rcases (Pool.mem_resume hi).mp hb with heq | hb
    · cases heq
      rw [Ongoing.step_phase, hkeep]
      rfl
    · refine (h.early b (List.mem_of_mem_eraseIdx hb)).1.late fun j hj => ?_
      have hother : b.sending ≠ some () :=
        h.alone.others hi (by rw [Ongoing.sending, hphase]) hb
      rw [Ongoing.sending, hj] at hother
      exact hother rfl
  · exact Service.writers_advance_of_none libs etag members hi fun b hb => (h.early b hb).2

theorem Unwritten.early_step (h : Unwritten ikey s) (hp : p.Creates libs path ikey body)
    (hearly : p.Early) (hstep : CreateStep libs ikey body s.app env p q)
    (hnot : ¬ ∃ job result, p = .send job ∧ q = .keep job result) :
    q.Early ∧ p.Writes env = false := by
  cases hstep with
  | hit _ hentry _ => cases h.cache.symm.trans hentry
  | refused hwrites => exact ⟨trivial, hwrites⟩
  | begun hidle _ => exact ⟨trivial, hp.writes_eq_false hidle⟩
  | repeated hentry _ => cases h.store.symm.trans hentry
  | first _ => exact ⟨trivial, rfl⟩
  | sent => exact absurd ⟨_, _, rfl, rfl⟩ hnot
  | kept => exact hearly.elim
  | cached => exact hearly.elim
  | ended => exact ⟨hearly, rfl⟩

theorem CreateStep.dedupe_of_send {job : WriteJob}
    (h : CreateStep libs ikey body t env p (.send job)) : p = .dedupe job := by
  cases h
  rfl

theorem Unwritten.advance (h : Unwritten ikey s) (hi : s.ongoing[i]? = some o)
    (ho : o.Creates libs path ikey body since)
    (hstep : CreateStep libs ikey body s.app o.env o.phase
      (o.phase.step libs etag members o.env s.app).1)
    (hfree : ∀ job, o.phase = .dedupe job → ∀ o' ∈ s.ongoing, o'.phase.InWrite = false) :
    Unwritten ikey (s.next libs etag members (.advance i)) ∨
      ∃ doc, Written libs ikey body since doc (s.next libs etag members (.advance i)) := by
  have hmem := List.mem_of_getElem? hi
  have hearly := (h.early o hmem).1
  by_cases hsend : ∃ job result, o.phase = .send job ∧
      (o.phase.step libs etag members o.env s.app).1 = .keep job result
  · obtain ⟨job, result, hphase, hkeep⟩ := hsend
    exact Or.inr ⟨job.doc, h.sent hi ho hphase hkeep⟩
  refine Or.inl ⟨?_, ?_, ?_, ?_⟩
  · rw [Service.app_advance libs etag members hi]
    rcases cacheEntry_step etag members ho.phase ho.env h.inWindow with
      ⟨job, hphase, -⟩ | ⟨-, hsame⟩
    · rw [hphase] at hearly
      exact hearly.elim
    · exact hsame.trans h.cache
  · rw [Service.app_advance libs etag members hi]
    rcases storeEntry_step etag members ho.phase ho.env h.inWindow with
      ⟨job, result, hphase, -⟩ | ⟨-, hsame⟩
    · rw [hphase] at hearly
      exact hearly.elim
    · exact hsame.trans h.store
  · have hnext : (o.phase.step libs etag members o.env s.app).1.Early ∧
        o.phase.Writes o.env = false := h.early_step ho.phase hearly hstep hsend
    refine Service.forall_advance libs etag members hi h.early ⟨hnext.1, ?_⟩
    rw [Ongoing.step_wrote, (h.early o hmem).2, hnext.2]
    rfl
  · rw [Service.ongoing_advance libs etag members hi]
    refine h.alone.resume hi ?_
    rintro b ⟨⟩ k hk c hc hsending
    cases hphase : (o.phase.step libs etag members o.env s.app).1 with
    | send job =>
      rw [hphase] at hstep
      have hidle := hfree job hstep.dedupe_of_send c (List.mem_of_mem_eraseIdx hc)
      unfold Ongoing.sending at hsending
      split at hsending
      · rename_i j hj
        rw [hj] at hidle
        cases hidle
      · cases hsending
    | lookup _ _ _ | read _ _ | dedupe _ | keep _ _ | cache _ | erase _ | done _ =>
      rw [Ongoing.sending, Ongoing.step_phase, hphase] at hk
      cases hk

variable (libs) in
/-- A new request is at its lookup, or refused. -/
theorem Route.Creates.start {route : Route} (h : route.Creates path ikey body)
    (schema : Schema.SchemaManager) (config : ApiConfig) :
    route.start libs schema config = .lookup (some ikey) body (.create path) ∨
      ∃ e, route.start libs schema config = .done (.error e) := by
  obtain ⟨headers, claims, rfl, hkey⟩ := h
  dsimp only [Route.start, Request.start]
  cases admission libs path claims .create with
  | error e => exact Or.inr ⟨e, rfl⟩
  | ok _ =>
    dsimp only
    rw [hkey]
    exact Or.inl rfl

theorem Unwritten.arrive (h : Unwritten ikey s) {route : Route}
    (hroute : route.Creates path ikey body) :
    Unwritten ikey (s.next libs etag members (.arrive route env)) := by
  have hstart := hroute.start libs s.schema s.config
  refine ⟨h.cache, h.store, Pool.forall_concat h.early ?_, h.alone.concat ?_⟩
  · rcases hstart with heq | ⟨e, heq⟩ <;> rw [heq] <;> exact ⟨trivial, rfl⟩
  · rcases hstart with heq | ⟨e, heq⟩ <;> rw [heq] <;> rfl

theorem Written.arrive (h : Written libs ikey body since doc s) {route : Route}
    (hroute : route.Creates path ikey body) :
    Written libs ikey body since doc (s.next libs etag members (.arrive route env)) := by
  have hstart := hroute.start libs s.schema s.config
  refine ⟨h.made, h.cache, h.store, ?_, Pool.forall_concat h.late ?_, ?_⟩
  · exact fun hnone => h.kept fun o ho => hnone o (List.mem_append_left _ ho)
  · rcases hstart with heq | ⟨e, heq⟩ <;> rw [heq] <;> trivial
  · rw [Service.writers_arrive]
    exact h.once

/-- Both depend on the requests and the two stores only. -/
theorem Unwritten.congr {u : Service} (h : Unwritten ikey s)
    (hcache : u.app.idempotency = s.app.idempotency)
    (hstore : u.app.coordinator = s.app.coordinator) (hongoing : u.ongoing = s.ongoing) :
    Unwritten ikey u := by
  obtain ⟨h₁, h₂, h₃, h₄⟩ := h
  rw [← hcache] at h₁
  rw [← hstore] at h₂
  rw [← hongoing] at h₃ h₄
  exact ⟨h₁, h₂, h₃, h₄⟩

theorem Written.congr {u : Service} (h : Written libs ikey body since doc s)
    (hcache : u.app.idempotency = s.app.idempotency)
    (hstore : u.app.coordinator = s.app.coordinator) (hongoing : u.ongoing = s.ongoing) :
    Written libs ikey body since doc u := by
  obtain ⟨h₁, h₂, h₃, h₄, h₅, h₆⟩ := h
  rw [← hcache] at h₂
  rw [← hstore] at h₃ h₄
  rw [Service.writers, ← hongoing] at h₆
  rw [← hongoing] at h₄ h₅
  exact ⟨h₁, h₂, h₃, h₄, h₅, h₆⟩

theorem repair_same (u : AppState) (key : ObjectKey) (i : Nat) (fate : WriteFate) :
    (u.repair key i fate).idempotency = u.idempotency ∧
      (u.repair key i fate).coordinator = u.coordinator := by
  rcases repair_cases u key i fate with ⟨-, heq⟩ | ⟨q, -, heq⟩ <;> rw [heq] <;> exact ⟨rfl, rfl⟩

variable (libs path ikey body since) in
/-- The requests of a run, before or after one of them has written. -/
def AtMostOne (s : Service) : Prop :=
  (∀ o ∈ s.ongoing, o.Creates libs path ikey body since) ∧
    (Unwritten ikey s ∨ ∃ doc, Written libs ikey body since doc s)

include hbytes in
theorem AtMostOne.next {m : Turn} (h : AtMostOne libs path ikey body since s)
    (horderly : Orderly members s m)
    (harrive : ∀ route env, m = .arrive route env →
      route.Creates path ikey body ∧ env.Within since) :
    AtMostOne libs path ikey body since (s.next libs etag members m) := by
  obtain ⟨hall, hone⟩ := h
  have hinWindow : InWindow libs ikey body since s.app := by
    rcases hone with hone | ⟨doc, hone⟩
    · exact hone.inWindow
    · exact hone.inWindow
  have hstep : ∀ i o, m = .advance i → s.ongoing[i]? = some o →
      o.Creates libs path ikey body since → CreateStep libs ikey body s.app o.env o.phase
        (o.phase.step libs etag members o.env s.app).1 := by
    rintro i o rfl hi ho
    refine createStep_step ho.phase ho.env hinWindow ?_
    intro job hphase
    have hok := horderly o hi
    rwa [hphase] at hok
  refine ⟨Service.forall_next libs etag members m hall ?_ ?_, ?_⟩
  · rintro route env rfl
    obtain ⟨hroute, henv⟩ := harrive route env rfl
    refine ⟨?_, henv⟩
    rcases hroute.start libs s.schema s.config with heq | ⟨e, heq⟩
    · rw [heq]
      exact ⟨rfl, rfl, rfl⟩
    · rw [heq]
      trivial
  · exact fun i o hm hi ho => ⟨ho.phase.step (hstep i o hm hi ho), ho.env⟩
  · cases m with
    | arrive route env =>
      have hroute := (harrive route env rfl).1
      exact hone.imp (·.arrive hroute) fun ⟨doc, hone⟩ => ⟨doc, hone.arrive hroute⟩
    | advance i =>
      cases hi : s.ongoing[i]? with
      | none =>
        rw [Service.next_advance_none libs etag members hi]
        exact hone
      | some o =>
        have ho := hall o (List.mem_of_getElem? hi)
        have hfree : ∀ job, o.phase = .dedupe job → ∀ o' ∈ s.ongoing, o'.phase.InWrite = false := by
          intro job hphase
          have hok := horderly o hi
          rwa [hphase] at hok
        rcases hone with hone | ⟨doc, hone⟩
        · exact hone.advance hi ho (hstep i o rfl hi ho) hfree
        · exact Or.inr ⟨doc, hone.advance hbytes hi ho (hstep i o rfl hi ho) hfree⟩
    | repair key i fate =>
      obtain ⟨hcache, hstore⟩ := repair_same s.app key i fate
      exact hone.imp (·.congr hcache hstore rfl) fun ⟨doc, hone⟩ =>
        ⟨doc, hone.congr hcache hstore rfl⟩
    | reschema schema =>
      exact hone.imp (·.congr rfl rfl rfl) fun ⟨doc, hone⟩ => ⟨doc, hone.congr rfl rfl rfl⟩

end

/-- The encoding of a document tells its id. -/
def namingLibs : Libs :=
  { sampleLibs fun _ => 0 with toVec := fun doc => (toString doc.id).asBytes }

theorem id_of_naming (d d' : Document) (h : namingLibs.toVec d = namingLibs.toVec d') :
    d.id = d'.id := by
  have htext : d.id.uuid.hyphenated = d'.id.uuid.hyphenated := String.asBytes_inj h
  exact congrArg ObjectId.mk (Uuid.hyphenated_inj htext)

/-- A creation with the idempotency key `k`, which draws `now` for its id. -/
def createAt (now : Nat) : Turn :=
  .arrive (.object (.create ⟨"acme", "main", "users"⟩ [("idempotency-key", some "k")]
    ⟨some "acme", [.readWrite]⟩ [])) (sampleEnv now ⟨UInt64.ofNat (now + 1)⟩)

theorem creates_createAt {moves : List Turn}
    (h : ∀ m ∈ moves, m = createAt 0 ∨ m = createAt 1 ∨ ∃ i, m = .advance i) (route : Route)
    (env : RequestEnv) (hmem : .arrive route env ∈ moves) :
    route.Creates ⟨"acme", "main", "users"⟩ "k" [] ∧ env.Within 0 := by
  rcases h _ hmem with heq | heq | ⟨i, heq⟩
  · cases heq
    exact ⟨⟨_, _, rfl, rfl⟩, by decide⟩
  · cases heq
    exact ⟨⟨_, _, rfl, rfl⟩, by decide⟩
  · cases heq

/-- The `_id` of a successful answer. -/
def Ongoing.answeredId (o : Ongoing) : Option String :=
  match o.phase with
  | .done (.ok r) => r.objectId
  | _ => none

/-- One creation, then another that is answered from the response cache. -/
def retried : List Turn :=
  [createAt 0] ++ List.replicate 5 (.advance 0) ++ [createAt 1, .advance 1]

/-- Both requests look for the key before either has left a trace of it. -/
def raced : List Turn :=
  [createAt 0, createAt 1] ++ (List.replicate 5 [.advance 0, .advance 1]).flatten

end BashfulDB.Api
