import BashfulDB.Api.Pagination
import BashfulDB.Library.Pool
import BashfulDB.Library.Steps

/-!
Requests handled side by side. A handler is cut wherever it waits for the response cache or for
the coordinator, and any others may run in between.
-/
namespace BashfulDB.Api

open Auth Clock Data Replication

/-- A request to one of the handlers of objects. -/
inductive Route
  | object (req : Request)
  | list (path : ObjectPath) (query : ListQuery) (claims : Claims)

/-- A write that has passed its checks. -/
structure WriteJob where
  key : ObjectKey
  doc : Document
  idemKey : Option String
  payloadHash : Nat
  status : Nat
  location : Option String

def WriteJob.response (job : WriteJob) : Response :=
  ⟨job.status, job.location, none, some (docToJson job.doc)⟩

/-- What becomes of a request that is not answered from the response cache. -/
inductive Target
  | create (path : ObjectPath)
  | upsert (key : ObjectKey) (headers : HeaderMap)

/-- What a quorum read is for. -/
inductive Purpose
  | get
  | upsert (headers : HeaderMap) (json : JsonValue) (payloadHash : Nat)
  | delete (headers : HeaderMap)

/-- What a handler does next. `dedupe`, `send` and `keep` are the parts of `quorum_write`, and
`erase` is `quorum_delete`. -/
inductive Phase
  | lookup (idemKey : Option String) (body : Bytes) (target : Target)
  | read (key : ObjectKey) (purpose : Purpose)
  | dedupe (job : WriteJob)
  | send (job : WriteJob)
  | keep (job : WriteJob) (result : WriteResult)
  | cache (job : WriteJob)
  | erase (key : ObjectKey)
  | done (answer : Except ApiError Response)

section

-- The ETag of a version is a parameter.
variable (libs : Libs) (etag : VectorClock → String) (members : Membership)

/-- The checks of a handler up to its first wait. -/
def Request.start : Request → Phase
  | .create path headers claims body =>
    match admission libs path claims .create with
    | .error e => .done (.error e)
    | .ok () => .lookup (optHeader headers "idempotency-key") body (.create path)
  | .get path id claims =>
    match admissionOf libs path id claims .read with
    | .error e => .done (.error e)
    | .ok key => .read key .get
  | .upsert path id headers claims body =>
    match admissionOf libs path id claims .update with
    | .error e => .done (.error e)
    | .ok key => .lookup (optHeader headers "idempotency-key") body (.upsert key headers)
  | .delete path id headers claims =>
    match admissionOf libs path id claims .delete with
    | .error e => .done (.error e)
    | .ok key => .read key (.delete headers)

def Route.start (schema : Schema.SchemaManager) (config : ApiConfig) : Route → Phase
  | .object req => req.start libs
  | .list path query claims => .done (listObjects libs schema config path query claims)

/-- The way on from a lookup that found nothing. -/
def Target.proceed (freshId : ObjectId) (idemKey : Option String) (body : Bytes) : Target → Phase
  | .create path =>
    match (parseBody libs body).bind (buildDocument libs freshId) with
    | .error e => .done (.error e)
    | .ok doc => .dedupe ⟨⟨collectionKey path, doc.id⟩, doc, idemKey, libs.hashPayload body, 201,
        some (objectLocation path doc.id)⟩
  | .upsert key headers =>
    match parseBody libs body with
    | .error e => .done (.error e)
    | .ok json => .read key (.upsert headers json (libs.hashPayload body))

/-- The status of a replayed response whose own is not one. -/
def Target.status : Target → Nat
  | .create _ => 201
  | .upsert _ _ => 200

/-- The way on from a read. -/
def Purpose.proceed (key : ObjectKey) (existing : Except ReplicationError ReadResult) :
    Purpose → Phase
  | .get =>
    match existing with
    | .error e => .done (.error (.ofReplication e))
    | .ok result =>
      match result.document with
      | none => .done (.error (.notFound s!"object {key.objectId} not found in {key.collection}"))
      | some doc => .done (.ok ⟨200, none, some (etag result.version), some (docToJson doc)⟩)
  | .upsert headers json payloadHash =>
    let current := existing.toOption.filter (·.document.isSome)
    match upsertDocumentBy libs etag key headers json current with
    | .error e => .done (.error e)
    | .ok doc => .dedupe ⟨key, doc, optHeader headers "idempotency-key", payloadHash,
        if current.isNone then 201 else 200, none⟩
  | .delete headers =>
    match existing with
    | .error e => .done (.error (.ofReplication e))
    | .ok existing =>
      if existing.document.isNone then
        .done (.error (.notFound s!"object {key.objectId} not found in {key.collection}"))
      else
        match checkIfMatch headers (etag existing.version) with
        | .error e => .done (.error e)
        | .ok () => .erase key

/-- A handler takes its next step on the shared state. -/
def Phase.step (env : RequestEnv) (s : AppState) : Phase → Phase × AppState
  | .lookup idemKey body target =>
    match s.replay idemKey (libs.hashPayload body) target.status env.lookupAt with
    | (.error e, s) => (.done (.error e), s)
    | (.ok (some response), s) => (.done (.ok response), s)
    | (.ok none, s) => (target.proceed libs env.freshId idemKey body, s)
  | .read key purpose =>
    let (existing, s) := s.quorumRead libs members key env.quorum
    (purpose.proceed libs etag key existing, s)
  | .dedupe job =>
    match job.idemKey with
    | none => (.send job, s)
    | some ikey =>
      let (answer, store) := s.coordinator.idempotency.get libs.toVec ikey job.doc env.quorum.now
      let s := { s with coordinator := { s.coordinator with idempotency := store } }
      match answer with
      | .error e => (.done (.error (.ofReplication e)), s)
      | .ok (some _) => (.cache job, s)
      | .ok none => (.send job, s)
  | .send job =>
    let (answer, coordinator, replicas) :=
      s.coordinator.replicate members s.replicas job.key (some job.doc) env.quorum
    let s := { s with coordinator := coordinator, replicas := replicas }
    match answer with
    | .error e => (.done (.error (.ofReplication e)), s)
    | .ok result => (.keep job result, s)
  | .keep job result =>
    match job.idemKey with
    | none => (.cache job, s)
    | some ikey =>
      let store :=
        s.coordinator.idempotency.store libs.toVec ikey job.doc result env.quorum.storedAt
      (.cache job, { s with coordinator := { s.coordinator with idempotency := store } })
  | .cache job =>
    match job.idemKey with
    | none => (.done (.ok job.response), s)
    | some ikey =>
      (.done (.ok job.response), { s with
        idempotency := s.idempotency.store ikey job.payloadHash (docToJson job.doc) job.status
          env.cachedAt })
  | .erase key =>
    let (answer, s) := s.quorumDelete members key env.quorum
    match answer with
    | .error e => (.done (.error (.ofReplication e)), s)
    | .ok _ => (.done (.ok ⟨204, none, none, none⟩), s)
  | .done answer => (.done answer, s)

/-- The next step stamps a request and sends it to the replicas. -/
def Phase.Writes (env : RequestEnv) : Phase → Bool
  | .send _ | .erase _ => env.quorum.tick.toBool
  | _ => false

/-- A request in progress or answered. -/
structure Ongoing where
  route : Route
  env : RequestEnv
  phase : Phase
  /-- It has sent a write or a deletion to the replicas. -/
  wrote : Bool

structure Service where
  app : AppState
  schema : Schema.SchemaManager
  config : ApiConfig
  ongoing : List Ongoing

inductive Turn
  | arrive (route : Route) (env : RequestEnv)
  /-- The `i`-th request takes its next step. -/
  | advance (i : Nat)
  | repair (key : ObjectKey) (i : Nat) (fate : WriteFate)
  /-- Someone else changes the schema. -/
  | reschema (schema : Schema.SchemaManager)

namespace Ongoing

variable (o : Ongoing) (s : AppState)

/-- The request after its next step, and the state. -/
def step : Ongoing × AppState :=
  let (phase, t) := o.phase.step libs etag members o.env s
  (⟨o.route, o.env, phase, o.wrote || o.phase.Writes o.env⟩, t)

theorem step_phase : (o.step libs etag members s).1.phase =
    (o.phase.step libs etag members o.env s).1 := rfl

theorem step_wrote : (o.step libs etag members s).1.wrote =
    (o.wrote || o.phase.Writes o.env) := rfl

end Ongoing

def Service.next (s : Service) : Turn → Service
  | .arrive route env =>
    let o : Ongoing := ⟨route, env, route.start libs s.schema s.config, false⟩
    { s with ongoing := s.ongoing ++ [o] }
  | .advance i =>
    match s.ongoing[i]? with
    | none => s
    | some o =>
      let (o, app) := o.step libs etag members s.app
      { s with app := app, ongoing := Pool.resume s.ongoing i (some o) }
  | .repair key i fate => { s with app := s.app.repair key i fate }
  | .reschema schema => { s with schema := schema }

def Service.run (s : Service) (moves : List Turn) : Service :=
  moves.foldl (Service.next libs etag members) s

end

/-- The requests that have sent something to the replicas. -/
def Service.writers (s : Service) : List Ongoing := s.ongoing.filter (·.wrote)

section

variable (libs : Libs) (etag : VectorClock → String) (members : Membership)
  {s : Service} {i : Nat} {o : Ongoing}

theorem Service.app_advance (hi : s.ongoing[i]? = some o) :
    (s.next libs etag members (.advance i)).app = (o.step libs etag members s.app).2 := by
  simp only [Service.next, hi]

theorem Service.ongoing_advance (hi : s.ongoing[i]? = some o) :
    (s.next libs etag members (.advance i)).ongoing =
      Pool.resume s.ongoing i (some (o.step libs etag members s.app).1) := by
  simp only [Service.next, hi]

theorem Service.next_advance_none (hi : s.ongoing[i]? = none) :
    s.next libs etag members (.advance i) = s := by
  simp only [Service.next, hi]

/-- The writers after a step that sends nothing. -/
theorem Service.writers_advance (hi : s.ongoing[i]? = some o) (h : o.phase.Writes o.env = false) :
    (s.next libs etag members (.advance i)).writers.length = s.writers.length := by
  have hwrote : (o.step libs etag members s.app).1.wrote = o.wrote := by
    rw [Ongoing.step_wrote, h, Bool.or_false]
  rw [Service.writers, ongoing_advance libs etag members hi, Pool.length_filter_resume hi hwrote,
    Service.writers]

/-- The writers after a step of any kind, if there were none. -/
theorem Service.writers_advance_of_none (hi : s.ongoing[i]? = some o)
    (h : ∀ o ∈ s.ongoing, o.wrote = false) :
    (s.next libs etag members (.advance i)).writers.length ≤ 1 := by
  have hothers : (s.ongoing.eraseIdx i).filter (·.wrote) = [] := by
    refine List.filter_eq_nil_iff.mpr fun b hb => ?_
    rw [h b (List.mem_of_mem_eraseIdx hb)]
    exact Bool.false_ne_true
  rw [Service.writers, ongoing_advance libs etag members hi,
    ((Pool.perm_resume hi).filter _).length_eq, Option.toList_some, List.filter_append, hothers,
    List.append_nil]
  exact List.length_filter_le _ _

theorem Service.writers_arrive (route : Route) (env : RequestEnv) :
    (s.next libs etag members (.arrive route env)).writers = s.writers := by
  simp [Service.next, Service.writers]

/-- A property of all requests that the one which takes its step still has. -/
theorem Service.forall_advance {P : Ongoing → Prop} (hi : s.ongoing[i]? = some o)
    (h : ∀ o ∈ s.ongoing, P o) (hstep : P (o.step libs etag members s.app).1) :
    ∀ o ∈ (s.next libs etag members (.advance i)).ongoing, P o := by
  rw [ongoing_advance libs etag members hi]
  refine Pool.forall_resume hi h ?_
  rintro b ⟨⟩
  exact hstep

/-- A property of all requests that each move preserves, given that those of the run do. -/
theorem Service.forall_next {P : Ongoing → Prop} (m : Turn) (h : ∀ o ∈ s.ongoing, P o)
    (harrive : ∀ route env, m = .arrive route env →
      P ⟨route, env, route.start libs s.schema s.config, false⟩)
    (hstep : ∀ i o, m = .advance i → s.ongoing[i]? = some o → P o →
      P (o.step libs etag members s.app).1) :
    ∀ o ∈ (s.next libs etag members m).ongoing, P o := by
  cases m with
  | arrive route env => exact Pool.forall_concat h (harrive route env rfl)
  | advance i =>
    cases hi : s.ongoing[i]? with
    | none =>
      rw [next_advance_none libs etag members hi]
      exact h
    | some o =>
      have hnext := hstep i o rfl hi (h o (List.mem_of_getElem? hi))
      exact forall_advance libs etag members hi h hnext
  | repair key i fate => exact h
  | reschema schema => exact h

end

/-! What a step does to the state. -/

section

variable (libs : Libs) (etag : VectorClock → String) (members : Membership) (env : RequestEnv)
  (s : AppState) (p : Phase)

/-- The state that a step leaves, however it goes on. -/
def Phase.leaves : Phase → AppState
  | .lookup idemKey _ _ => { s with
      idempotency := idemKey.elim s.idempotency fun _ => s.idempotency.prune env.lookupAt }
  | .read key _ => (s.quorumRead libs members key env.quorum).2
  | .dedupe job => { s with coordinator := { s.coordinator with
      idempotency := job.idemKey.elim s.coordinator.idempotency fun _ =>
        s.coordinator.idempotency.evictExpired env.quorum.now } }
  | .send job =>
    let sent := s.coordinator.replicate members s.replicas job.key (some job.doc) env.quorum
    { s with coordinator := sent.2.1, replicas := sent.2.2 }
  | .keep job result => { s with coordinator := { s.coordinator with
      idempotency := job.idemKey.elim s.coordinator.idempotency fun ikey =>
        s.coordinator.idempotency.store libs.toVec ikey job.doc result env.quorum.storedAt } }
  | .cache job => { s with
      idempotency := job.idemKey.elim s.idempotency fun ikey =>
        s.idempotency.store ikey job.payloadHash (docToJson job.doc) job.status env.cachedAt }
  | .erase key => (s.quorumDelete members key env.quorum).2
  | .done _ => s

theorem Phase.step_snd :
    (p.step libs etag members env s).2 = p.leaves libs members env s := by
  cases p with
  | lookup idemKey body target =>
    rw [Phase.leaves, ← s.replay_snd idemKey (libs.hashPayload body) target.status env.lookupAt]
    dsimp only [Phase.step]
    rcases s.replay idemKey (libs.hashPayload body) target.status env.lookupAt with
      ⟨e | _ | response, t⟩
    all_goals rfl
  | read key purpose => rfl
  | dedupe job =>
    dsimp only [Phase.step, Phase.leaves]
    cases job.idemKey with
    | none => rfl
    | some ikey =>
      dsimp only [Option.elim]
      rw [← s.coordinator.idempotency.get_snd libs.toVec ikey job.doc env.quorum.now]
      split <;> rfl
  | send job =>
    dsimp only [Phase.step]
    split <;> rfl
  | keep job result =>
    dsimp only [Phase.step, Phase.leaves]
    cases job.idemKey <;> rfl
  | cache job =>
    dsimp only [Phase.step, Phase.leaves]
    cases job.idemKey <;> rfl
  | erase key =>
    dsimp only [Phase.step]
    split <;> rfl
  | done answer => rfl

theorem Phase.idempotency_step : (p.step libs etag members env s).2.idempotency =
    match p with
    | .lookup idemKey _ _ =>
      idemKey.elim s.idempotency fun _ => s.idempotency.prune env.lookupAt
    | .cache job => job.idemKey.elim s.idempotency fun ikey =>
        s.idempotency.store ikey job.payloadHash (docToJson job.doc) job.status env.cachedAt
    | _ => s.idempotency := by
  rw [Phase.step_snd]
  cases p <;> rfl

theorem Phase.store_step : (p.step libs etag members env s).2.coordinator.idempotency =
    match p with
    | .dedupe job => job.idemKey.elim s.coordinator.idempotency fun _ =>
        s.coordinator.idempotency.evictExpired env.quorum.now
    | .keep job result => job.idemKey.elim s.coordinator.idempotency fun ikey =>
        s.coordinator.idempotency.store libs.toVec ikey job.doc result env.quorum.storedAt
    | _ => s.coordinator.idempotency := by
  rw [Phase.step_snd]
  cases p with
  | send job =>
    exact s.coordinator.idempotency_replicate members s.replicas job.key (some job.doc) env.quorum
  | erase key =>
    exact s.coordinator.idempotency_replicate members s.replicas key none env.quorum
  | _ => rfl

end

/-! One request alone does what its handler does without a break. -/

section

variable (libs : Libs) (members : Membership) (env : RequestEnv)

/-- Both parts of a state of one request. -/
def Phase.walk (p : Phase × AppState) : Phase × AppState :=
  p.1.step libs (etagFromVersion libs.hashPayload) members env p.2

/-- From `p`, at most `n` steps lead to the end. -/
def Ends (n : Nat) (p : Phase × AppState) (res : Except ApiError Response × AppState) : Prop :=
  (Phase.walk libs members env)^[n] p = (.done res.1, res.2)

variable {libs members env} {n : Nat} {p : Phase × AppState} {s : AppState}
  {res : Except ApiError Response × AppState}

theorem ends_done (n : Nat) (answer : Except ApiError Response) :
    Ends libs members env n (.done answer, s) (answer, s) := by
  induction n with
  | zero => rfl
  | succ n ih => exact ih

theorem Ends.succ (h : Ends libs members env n (Phase.walk libs members env p) res) :
    Ends libs members env (n + 1) p res := h

theorem ends_dedupe (job : WriteJob) :
    Ends libs members env 4 (.dedupe job, s) (s.writeAndCache libs members job.key job.doc
      job.idemKey job.payloadHash job.status job.location env) := by
  obtain ⟨key, doc, idemKey, payloadHash, status, location⟩ := job
  unfold Ends AppState.writeAndCache AppState.quorumWrite Coordinator.quorumWrite
  cases idemKey with
  | none =>
    refine Ends.succ (n := 3) ?_
    refine Ends.succ (n := 2) ?_
    dsimp only [Phase.walk, Phase.step]
    rcases s.coordinator.replicate members s.replicas key (some doc) env.quorum with
      ⟨e | result, c, rs⟩
    · exact ends_done 2 _
    · rfl
  | some ikey =>
    refine Ends.succ (n := 3) ?_
    dsimp only [Phase.walk, Phase.step]
    rcases s.coordinator.idempotency.get libs.toVec ikey doc env.quorum.now with
      ⟨e | _ | cached, store⟩
    · exact ends_done 3 _
    · refine Ends.succ (n := 2) ?_
      dsimp only [Phase.walk, Phase.step]
      rcases Coordinator.replicate members _ s.replicas key (some doc) env.quorum with
        ⟨e | result, c, rs⟩
      · exact ends_done 2 _
      · rfl
    · rfl

theorem Ends.later (h : Ends libs members env n p res) : Ends libs members env (n + 1) p res := by
  rw [Ends, Function.iterate_succ_apply', h]
  rfl

theorem ends_create (path : ObjectPath) (headers : HeaderMap) (claims : Claims) (body : Bytes) :
    Ends libs members env 6 ((Request.create path headers claims body).start libs, s)
      (s.createObject libs members path headers claims body env) := by
  dsimp only [Request.start, AppState.createObject]
  cases admission libs path claims .create with
  | error e => exact ends_done 6 _
  | ok _ =>
    refine Ends.succ ?_
    dsimp only [Phase.walk, Phase.step, Target.status]
    rcases s.replay _ _ _ _ with ⟨e | _ | response, t⟩
    · exact ends_done 5 _
    · dsimp only [Target.proceed]
      cases (parseBody libs body).bind (buildDocument libs env.freshId) with
      | error e => exact ends_done 5 _
      | ok doc => exact (ends_dedupe _).later
    · exact ends_done 5 _

theorem ends_get (path : ObjectPath) (id : String) (claims : Claims) :
    Ends libs members env 6 ((Request.get path id claims).start libs, s)
      (s.getObject libs members path id claims env) := by
  dsimp only [Request.start, AppState.getObject]
  cases admissionOf libs path id claims .read with
  | error e => exact ends_done 6 _
  | ok key =>
    refine Ends.succ ?_
    dsimp only [Phase.walk, Phase.step]
    rcases s.quorumRead libs members key env.quorum with ⟨e | result, t⟩
    · exact ends_done 5 _
    · dsimp only [Purpose.proceed]
      cases result.document with
      | none => exact ends_done 5 _
      | some doc => exact ends_done 5 _

theorem ends_upsert (path : ObjectPath) (id : String) (headers : HeaderMap) (claims : Claims)
    (body : Bytes) :
    Ends libs members env 6 ((Request.upsert path id headers claims body).start libs, s)
      (s.upsertObject libs members path id headers claims body env) := by
  dsimp only [Request.start, AppState.upsertObject]
  cases admissionOf libs path id claims .update with
  | error e => exact ends_done 6 _
  | ok key =>
    refine Ends.succ ?_
    dsimp only [Phase.walk, Phase.step, Target.status]
    rcases s.replay _ _ _ _ with ⟨e | _ | response, t⟩
    · exact ends_done 5 _
    · dsimp only [Target.proceed]
      cases parseBody libs body with
      | error e => exact ends_done 5 _
      | ok json =>
        refine Ends.succ ?_
        dsimp only [Phase.walk, Phase.step, Purpose.proceed, AppState.upsertAfterRead,
          upsertDocument]
        cases upsertDocumentBy libs _ key headers json _ with
        | error e => exact ends_done 4 _
        | ok doc => exact ends_dedupe _
    · exact ends_done 5 _

theorem ends_delete (path : ObjectPath) (id : String) (headers : HeaderMap) (claims : Claims) :
    Ends libs members env 6 ((Request.delete path id headers claims).start libs, s)
      (s.deleteObject libs members path id headers claims env) := by
  dsimp only [Request.start, AppState.deleteObject]
  cases admissionOf libs path id claims .delete with
  | error e => exact ends_done 6 _
  | ok key =>
    refine Ends.succ ?_
    dsimp only [Phase.walk, Phase.step]
    rcases s.quorumRead libs members key env.quorum with ⟨e | existing, t⟩
    · exact ends_done 5 _
    · dsimp only [Purpose.proceed]
      split
      · exact ends_done 5 _
      · cases checkIfMatch headers (etagFromVersion libs.hashPayload existing.version) with
        | error e => exact ends_done 5 _
        | ok _ =>
          refine Ends.succ ?_
          dsimp only [Phase.walk, Phase.step]
          rcases t.quorumDelete members key env.quorum with ⟨e | result, u⟩
          · exact ends_done 4 _
          · exact ends_done 4 _

theorem ends_start (req : Request) :
    Ends libs members env 6 (req.start libs, s) (s.handle libs members req env) := by
  cases req with
  | create path headers claims body => exact ends_create path headers claims body
  | get path id claims => exact ends_get path id claims
  | upsert path id headers claims body => exact ends_upsert path id headers claims body
  | delete path id headers claims => exact ends_delete path id headers claims

end

/-- The moves of one request, while nothing else happens. -/
theorem Service.run_advance (libs : Libs) (members : Membership) (n : Nat) (s : Service)
    (o : Ongoing) (h : s.ongoing = [o]) :
    let p := (Phase.walk libs members o.env)^[n] (o.phase, s.app)
    let t := s.run libs (etagFromVersion libs.hashPayload) members (List.replicate n (.advance 0))
    t.app = p.2 ∧ ∃ wrote, t.ongoing = [⟨o.route, o.env, p.1, wrote⟩] := by
  induction n generalizing s o with
  | zero => exact ⟨rfl, o.wrote, h⟩
  | succ n ih =>
    have hi : s.ongoing[0]? = some o := by rw [h, List.getElem?_cons_zero]
    have happ := app_advance libs (etagFromVersion libs.hashPayload) members hi
    have hongoing := ongoing_advance libs (etagFromVersion libs.hashPayload) members hi
    rw [h] at hongoing
    rw [List.replicate_succ, Service.run, List.foldl_cons]
    have hrest := ih _ _ hongoing
    rw [happ] at hrest
    exact hrest

/-- A request alone is answered as by its handler, which leaves the same state. -/
theorem Service.run_alone (libs : Libs) (members : Membership) (s : Service) (req : Request)
    (env : RequestEnv) (h : s.ongoing = []) :
    let res := s.app.handle libs members req env
    let t := s.run libs (etagFromVersion libs.hashPayload) members
      (.arrive (.object req) env :: List.replicate 6 (.advance 0))
    t.app = res.2 ∧ ∃ wrote, t.ongoing = [⟨.object req, env, .done res.1, wrote⟩] := by
  have hends : (Phase.walk libs members env)^[6] (req.start libs, s.app) = _ := ends_start req
  obtain ⟨happ, wrote, hongoing⟩ := Service.run_advance libs members 6
    { s with ongoing := [⟨.object req, env, req.start libs, false⟩] } _ rfl
  have hnext : s.next libs (etagFromVersion libs.hashPayload) members (.arrive (.object req) env) =
      { s with ongoing := [⟨.object req, env, req.start libs, false⟩] } := by
    rw [Service.next, h]
    rfl
  dsimp only at happ hongoing ⊢
  rw [hends] at happ hongoing
  rw [Service.run, List.foldl_cons, hnext]
  exact ⟨happ, wrote, hongoing⟩

end BashfulDB.Api
