import BashfulDB.Api.Once
import BashfulDB.Replication.History

/-!
Upserts and deletions that all require the same version of one object, side by side: when one of
them at most goes through, and how two do.
-/
namespace BashfulDB.Api

open Auth Clock Data Replication

/-- One key, as the coordinator of the service sees it. -/
def AppState.system (t : AppState) (key : ObjectKey) : System :=
  ⟨fun _ => t.coordinator, t.replicas, t.pending key⟩

section

variable (libs : Libs) (etag : VectorClock → String) (members : Membership)
  (config : QuorumConfig) (key : ObjectKey) (version : VectorClock)

/-- The headers carry `If-Match` with the ETag of the version. -/
def Requires (headers : HeaderMap) : Prop :=
  ∃ ifMatch, optHeader headers "if-match" = some ifMatch ∧
    trimQuotes ifMatch = trimQuotes (etag version)

/-- An admitted upsert with a proper body, whose document is not read back as another, or an
admitted deletion, of this object. -/
def Route.Conditional : Route → Prop
  | .object (.upsert path id headers claims body) =>
    admissionOf libs path id claims .update = .ok key ∧ Requires etag version headers ∧
      ∃ json doc, parseBody libs body = .ok json ∧
        buildDocument libs key.objectId json = .ok doc ∧ Faithful libs.reread doc
  | .object (.delete path id headers claims) =>
    admissionOf libs path id claims .delete = .ok key ∧ Requires etag version headers
  | _ => False

/-- What such a request can be at. -/
def Phase.Conditional : Phase → Prop
  | .lookup _ body (.upsert k headers) => k = key ∧ Requires etag version headers ∧
      ∃ json doc, parseBody libs body = .ok json ∧
        buildDocument libs key.objectId json = .ok doc ∧ Faithful libs.reread doc
  | .read k (.upsert headers json _) => k = key ∧ Requires etag version headers ∧
      ∃ doc, buildDocument libs key.objectId json = .ok doc ∧ Faithful libs.reread doc
  | .read k (.delete headers) => k = key ∧ Requires etag version headers
  | .dedupe job | .send job => job.key = key ∧ Faithful libs.reread job.doc
  | .erase k => k = key
  | .keep _ _ | .cache _ | .done _ => True
  | .lookup _ _ (.create _) | .read _ .get => False

/-- Between a read that let the request pass and its write. -/
def Phase.Holding : Phase → Bool
  | .dedupe _ | .send _ | .erase _ => true
  | _ => false

/-- A write that no repair can undo: a write quorum acknowledges it, under a new stamp that beats
what the other owners hold. -/
structure Lands (t : AppState) (doc : Option Document) (env : Env) : Prop where
  idle : t.pending key = []
  writes : (env.writes.map Prod.fst).Perm (owners members config key)
  acked : config.w ≤ (ackedNodes env.writes).length
  tick : ∃ hlc, env.tick = .ok hlc ∧ t.coordinator.clock < hlc ∧
    ∀ n ∈ owners members config key, ¬ Reached env.writes n → ∀ v,
      (t.replicas n).held key = some v → Beats (stamp t.coordinator.localNode hlc doc) v

/-- No idempotency key is found. A read meets no other request between its read and its write, and
finds the object; a write lands. -/
def Phase.Separate (s : Service) (env : RequestEnv) : Phase → Prop
  | .lookup idemKey _ _ => ∀ ikey ∈ idemKey,
      (s.app.idempotency.prune env.lookupAt).entries.get ikey = none
  | .dedupe job => ∀ ikey ∈ job.idemKey,
      (s.app.coordinator.idempotency.evictExpired env.quorum.now).cache.get ikey = none
  | .read k _ => (∀ o ∈ s.ongoing, o.phase.Holding = false) ∧
      (env.quorum.reads.map Prod.fst).Perm (owners members config key) ∧
      ∃ result, (s.app.coordinator.quorumRead members libs.reread s.app.replicas k
        env.quorum).1 = .ok result ∧ result.document.isSome
  | .send job => Lands members config key s.app (some job.doc) env.quorum
  | .erase _ => Lands members config key s.app none env.quorum
  | .keep _ _ | .cache _ | .done _ => True

def Separate (s : Service) : Turn → Prop
  | .advance i => ∀ o ∈ s.ongoing[i]?, o.phase.Separate libs members config key s o.env
  | .arrive route _ => route.Conditional libs etag key version
  | .repair k _ _ => k = key
  | .reschema _ => True

/-- Only a request that has written is past its write or answered otherwise than with 412. -/
def Phase.Accounted (wrote : Bool) : Phase → Prop
  | .keep _ _ | .cache _ => wrote = true
  | .done answer => wrote = true ∨ ∃ message, answer = .error (.preconditionFailed message)
  | _ => True

def Ongoing.holding (o : Ongoing) : Option Unit := if o.phase.Holding then some () else none

/-- `w` is what every read of the key returns. -/
structure Current (w : VersionedDoc) (t : AppState) : Prop where
  quorum : t.coordinator.config = config
  settled : Settled members config key w (t.system key)
  tombstone : w.isTombstone = w.document.isNone
  faithful : ∀ doc, w.document = some doc → Faithful libs.reread doc

/-- No request has written; one at most has passed its read. -/
structure Untouched (s : Service) : Prop where
  current : ∃ w, Current libs members config key w s.app ∧ w.version = version
  clock : ∀ hlc, version.get s.app.coordinator.localNode = some hlc →
    hlc ≤ s.app.coordinator.clock
  unwritten : ∀ o ∈ s.ongoing, o.wrote = false
  alone : Pool.Distinct Ongoing.holding s.ongoing

/-- One request has written, and the required version is gone. -/
structure Changed (s : Service) : Prop where
  current : ∃ w, Current libs members config key w s.app ∧ w.version ≠ version
  free : ∀ o ∈ s.ongoing, o.phase.Holding = false
  once : s.writers.length ≤ 1

end

variable {libs : Libs} {etag : VectorClock → String} {members : Membership}
  {config : QuorumConfig} {key : ObjectKey} {version v : VectorClock} {headers : HeaderMap}
  {w : VersionedDoc} {t t' : AppState} {env : RequestEnv} {doc : Option Document} {quorum : Env}
  {p : Phase} {s : Service} {i : Nat} {o : Ongoing}

theorem Requires.pass (h : Requires etag version headers) :
    checkIfMatch headers (etag version) = .ok () := by
  obtain ⟨ifMatch, hheader, htext⟩ := h
  simp only [checkIfMatch, hheader, htext]
  exact if_neg fun hne => hne.2 rfl

theorem Requires.refused (h : Requires etag version headers)
    (hstar : trimQuotes (etag version) ≠ "*")
    (hdiffer : trimQuotes (etag v) ≠ trimQuotes (etag version)) :
    ∃ message, checkIfMatch headers (etag v) = .error (.preconditionFailed message) := by
  obtain ⟨ifMatch, hheader, htext⟩ := h
  simp only [checkIfMatch, hheader, htext]
  exact ⟨_, if_pos ⟨hstar, hdiffer.symm⟩⟩

/-- A step that reads and writes no replica. -/
structure Calm (t t' : AppState) : Prop where
  replicas : t'.replicas = t.replicas
  pending : t'.pending = t.pending
  localNode : t'.coordinator.localNode = t.coordinator.localNode
  config : t'.coordinator.config = t.coordinator.config
  clock : t'.coordinator.clock = t.coordinator.clock

def Phase.Remote : Phase → Bool
  | .read _ _ | .send _ | .erase _ => true
  | _ => false

theorem calm_step (h : p.Remote = false) : Calm t (p.step libs etag members env t).2 := by
  rw [Phase.step_snd]
  cases p with
  | read _ _ | send _ | erase _ => cases h
  | lookup _ _ _ | dedupe _ | keep _ _ | cache _ | done _ => exact ⟨rfl, rfl, rfl, rfl, rfl⟩

theorem Current.calm (h : Current libs members config key w t) (hcalm : Calm t t') :
    Current libs members config key w t' := by
  obtain ⟨hquorum, hbeats, hpending⟩ := h.settled
  refine ⟨hcalm.config.trans h.quorum, ⟨?_, ?_, ?_⟩, h.tombstone, h.faithful⟩
  · rw [AppState.system, hcalm.replicas]
    exact hquorum
  · rw [AppState.system, hcalm.replicas]
    exact hbeats
  · rw [AppState.system, hcalm.pending]
    exact hpending

section

variable (hcard : (owners members config key).length < config.r + config.w)
  (hnodup : (owners members config key).Nodup)
include hcard hnodup

/-- A read that finds the object returns the current version, and leaves repairs that spread it. -/
theorem Current.read (h : Current libs members config key w t)
    (hreads : (quorum.reads.map Prod.fst).Perm (owners members config key))
    (hlive : ∃ result, (t.coordinator.quorumRead members libs.reread t.replicas key
      quorum).1 = .ok result ∧ result.document.isSome) :
    (∃ repairs, (t.quorumRead libs members key quorum).1 = .ok ⟨w.document, w.version, repairs⟩) ∧
      w.document.isSome ∧
      Current libs members config key w (t.quorumRead libs members key quorum).2 := by
  obtain ⟨result, hok, hsome⟩ := hlive
  rcases t.coordinator.quorumRead_cases members libs.reread t.replicas key quorum with
    ⟨e, heq⟩ | ⟨hlen, hanswers⟩
  · rw [heq] at hok
    cases hok
  · rw [h.quorum] at hlen
    have hw := h.settled.resolveConflict hcard hnodup h.faithful hreads hlen
    rcases hanswers with ⟨-, heq⟩ | ⟨winner, stale, hwin, heq⟩
    · rw [heq] at hok
      cases hok
      cases hsome
    · cases hw.symm.trans hwin
      rw [heq] at hok
      cases hok
      simp only [AppState.quorumRead, heq]
      refine ⟨⟨_, rfl⟩, hsome, h.quorum, ⟨h.settled.quorum, h.settled.beats, ?_⟩, h.tombstone,
        h.faithful⟩
      intro p hp
      simp only [AppState.system, Function.update_self] at hp
      rcases List.mem_append.mp hp with hp | hp
      · exact h.settled.pending p hp
      · obtain ⟨n, -, rfl⟩ := List.mem_map.mp hp
        refine ⟨rfl, rfl, ?_⟩
        obtain ⟨document, version, hlc, tombstone⟩ := w
        exact congrArg (VersionedDoc.mk document version hlc) h.tombstone.symm

end

/-- A repair spreads the current version. -/
theorem Current.repair (h : Current libs members config key w t) (i : Nat) (fate : WriteFate) :
    Current libs members config key w (t.repair key i fate) := by
  rcases repair_cases t key i fate with ⟨-, heq⟩ | ⟨⟨node, req⟩, hget, heq⟩
  · rw [heq]
    exact h
  · obtain ⟨hlt, hat⟩ := List.getElem?_eq_some_iff.mp hget
    have hpending : (t.system key).pending =
        (t.pending key).take i ++ (node, req) :: (t.pending key).drop (i + 1) := by
      rw [← hat, List.getElem_cons_drop, List.take_append_drop]
      rfl
    have hstep : Replication.Step (fun _ => []) libs.reread members config key (t.system key)
        (.repair node fate) _ := .repair hpending
    have hset := h.settled.repair hstep
    rw [heq]
    refine ⟨h.quorum, ?_, h.tombstone, h.faithful⟩
    simp only [AppState.system, Function.update_self, List.eraseIdx_eq_take_drop_succ]
    exact ⟨hset.quorum, hset.beats, hset.pending⟩

/-- A write that lands makes its stamp the current version. -/
theorem Lands.current (h : Lands members config key t doc quorum)
    (hnodup : (owners members config key).Nodup) (hquorum : t.coordinator.config = config)
    (hdoc : ∀ d, doc = some d → Faithful libs.reread d) :
    ∃ hlc, t.coordinator.clock < hlc ∧
      Current libs members config key (stamp t.coordinator.localNode hlc doc)
        { t with
          coordinator := (t.coordinator.replicate members t.replicas key doc quorum).2.1
          replicas := (t.coordinator.replicate members t.replicas key doc quorum).2.2 } := by
  obtain ⟨hlc, htick, hclock, hbeats⟩ := h.tick
  have hsends := t.coordinator.replicate_sends members t.replicas key doc htick
  refine ⟨hlc, hclock, hsends.config.trans hquorum, ?_, rfl, hdoc⟩
  have hset := settled_of_sends (fun _ => (t.coordinator.replicate members t.replicas key doc
    quorum).2.1) hsends hnodup h.writes h.acked hbeats
  rw [AppState.system, h.idle]
  exact hset

/-- A lookup under a key that is not in the response cache. -/
theorem step_lookup_of_miss {idemKey : Option String} {body : Bytes} {target : Target}
    (h : ∀ ikey ∈ idemKey, (t.idempotency.prune env.lookupAt).entries.get ikey = none) :
    ((Phase.lookup idemKey body target).step libs etag members env t).1 =
      target.proceed libs env.freshId idemKey body := by
  cases idemKey with
  | none => rfl
  | some ikey =>
    have hnone := h ikey rfl
    simp only [Phase.step, AppState.replay, IdempotencyCache.get, hnone]

/-- The steps of a request that neither read nor write. -/
theorem Phase.Conditional.calm (hp : p.Conditional libs etag key version)
    (hsep : p.Separate libs members config key s env) (hremote : p.Remote = false) {wrote : Bool}
    (haccounted : p.Accounted wrote) :
    let q := (p.step libs etag members env s.app).1
    q.Conditional libs etag key version ∧ q.Holding = p.Holding ∧ q.Accounted wrote := by
  intro q
  cases p with
  | read _ _ | send _ | erase _ => cases hremote
  | lookup idemKey body target =>
    cases target with
    | create path => exact hp.elim
    | upsert k headers =>
      obtain ⟨rfl, hrequires, json, doc, hjson, hdoc⟩ := hp
      have hq : q = .read k (.upsert headers json (libs.hashPayload body)) := by
        refine (step_lookup_of_miss hsep).trans ?_
        simp only [Target.proceed, hjson]
      rw [hq]
      exact ⟨⟨rfl, hrequires, doc, hdoc⟩, rfl, trivial⟩
  | dedupe job =>
    have hq : q = .send job := by
      dsimp only [q, Phase.step]
      cases hikey : job.idemKey with
      | none => rfl
      | some ikey =>
        have hnone := hsep ikey hikey
        simp only [IdempotencyStore.get, hnone]
    rw [hq]
    exact ⟨hp, rfl, trivial⟩
  | keep job result =>
    have hq : q = .cache job := by
      dsimp only [q, Phase.step]
      split <;> rfl
    rw [hq]
    exact ⟨trivial, rfl, haccounted⟩
  | cache job =>
    have hq : q = .done (.ok job.response) := by
      dsimp only [q, Phase.step]
      split <;> rfl
    rw [hq]
    exact ⟨trivial, rfl, Or.inl haccounted⟩
  | done answer => exact ⟨trivial, rfl, haccounted⟩

section

variable {result : ReadResult}

theorem filter_current (h : result.document.isSome) :
    (Except.ok result : Except ReplicationError ReadResult).toOption.filter
      (·.document.isSome) = some result := by
  rw [Except.toOption, Option.filter_some, if_pos h]

/-- A request that reads the version it requires goes on to write. -/
theorem Phase.Conditional.passes {k : ObjectKey} {purpose : Purpose}
    (hp : (Phase.read k purpose).Conditional libs etag key version) (wrote : Bool)
    (hsome : result.document.isSome) (hversion : result.version = version) :
    let q := purpose.proceed libs etag k (.ok result)
    q.Conditional libs etag key version ∧ q.Holding = true ∧ q.Accounted wrote := by
  intro q
  obtain ⟨document, hdocument⟩ := Option.isSome_iff_exists.mp hsome
  cases purpose with
  | get => exact hp.elim
  | upsert headers json payloadHash =>
    obtain ⟨rfl, hrequires, doc, hdoc, hfaithful⟩ := hp
    have hpass := hrequires.pass
    rw [← hversion] at hpass
    have hbuilt : upsertDocumentBy libs etag k headers json (some result) = .ok doc := by
      simp only [upsertDocumentBy, hpass, Except.ok_bind, hdoc]
    have hq : ∃ job, q = .dedupe job ∧ job.key = k ∧ job.doc = doc := by
      simp only [q, Purpose.proceed, filter_current hsome, hbuilt]
      exact ⟨_, rfl, rfl, rfl⟩
    obtain ⟨job, hq, hkey, rfl⟩ := hq
    rw [hq]
    exact ⟨⟨hkey, hfaithful⟩, rfl, trivial⟩
  | delete headers =>
    obtain ⟨rfl, hrequires⟩ := hp
    have hpass := hrequires.pass
    rw [← hversion] at hpass
    have hq : q = .erase k := by
      simp only [q, Purpose.proceed, hdocument, Option.isNone_some, Bool.false_eq_true, if_false,
        hpass]
    rw [hq]
    exact ⟨rfl, rfl, trivial⟩

/-- A request that reads another version is answered 412. -/
theorem Phase.Conditional.fails {k : ObjectKey} {purpose : Purpose}
    (hp : (Phase.read k purpose).Conditional libs etag key version)
    (hsome : result.document.isSome) (hstar : trimQuotes (etag version) ≠ "*")
    (hdiffer : trimQuotes (etag result.version) ≠ trimQuotes (etag version)) :
    ∃ message, purpose.proceed libs etag k (.ok result) =
      .done (.error (.preconditionFailed message)) := by
  obtain ⟨document, hdocument⟩ := Option.isSome_iff_exists.mp hsome
  cases purpose with
  | get => exact hp.elim
  | upsert headers json payloadHash =>
    obtain ⟨-, hrequires, -⟩ := hp
    obtain ⟨message, hrefused⟩ := hrequires.refused hstar hdiffer
    have hbuilt : upsertDocumentBy libs etag k headers json (some result) =
        .error (.preconditionFailed message) := by
      simp only [upsertDocumentBy, hrefused, Except.error_bind]
    refine ⟨message, ?_⟩
    simp only [Purpose.proceed, filter_current hsome, hbuilt]
  | delete headers =>
    obtain ⟨-, hrequires⟩ := hp
    obtain ⟨message, hrefused⟩ := hrequires.refused hstar hdiffer
    refine ⟨message, ?_⟩
    simp only [Purpose.proceed, hdocument, Option.isNone_some, Bool.false_eq_true, if_false,
      hrefused]

end

theorem Lands.tick_toBool (h : Lands members config key t doc quorum) :
    quorum.tick.toBool = true := by
  obtain ⟨hlc, htick, -⟩ := h.tick
  exact Except.toBool_eq_true.mpr ⟨hlc, htick⟩

/-- The steps that send to the replicas. -/
theorem Phase.Conditional.writes (hp : p.Conditional libs etag key version)
    (hsep : p.Separate libs members config key s env) (hremote : p.Remote = true)
    (hholding : p.Holding = true) :
    let q := (p.step libs etag members env s.app).1
    q.Conditional libs etag key version ∧ q.Holding = false ∧ p.Writes env = true ∧
      q.Accounted true ∧ ∃ doc, (∀ d, doc = some d → Faithful libs.reread d) ∧
        Lands members config key s.app doc env.quorum ∧
        (p.step libs etag members env s.app).2 =
          { s.app with
            coordinator :=
              (s.app.coordinator.replicate members s.app.replicas key doc env.quorum).2.1
            replicas :=
              (s.app.coordinator.replicate members s.app.replicas key doc env.quorum).2.2 } := by
  intro q
  cases p with
  | lookup _ _ _ | read _ _ | keep _ _ | cache _ | done _ => cases hholding
  | dedupe _ => cases hremote
  | send job =>
    obtain ⟨rfl, hfaithful⟩ := hp
    have hdoc : ∀ d, some job.doc = some d → Faithful libs.reread d := by
      rintro _ ⟨⟩
      exact hfaithful
    have hlands : Lands members config job.key s.app (some job.doc) env.quorum := hsep
    have hafter : ((Phase.send job).step libs etag members env s.app).2 = { s.app with
        coordinator := (s.app.coordinator.replicate members s.app.replicas job.key (some job.doc)
          env.quorum).2.1
        replicas := (s.app.coordinator.replicate members s.app.replicas job.key (some job.doc)
          env.quorum).2.2 } := by
      dsimp only [Phase.step]
      split <;> rfl
    have hq : (∃ e, q = .done (.error e)) ∨ ∃ result, q = .keep job result := by
      dsimp only [q, Phase.step]
      split
      · exact Or.inl ⟨_, rfl⟩
      · exact Or.inr ⟨_, rfl⟩
    rcases hq with ⟨e, hq⟩ | ⟨result, hq⟩
    · rw [hq]
      exact ⟨trivial, rfl, hlands.tick_toBool, Or.inl rfl, _, hdoc, hlands, hafter⟩
    · rw [hq]
      exact ⟨trivial, rfl, hlands.tick_toBool, rfl, _, hdoc, hlands, hafter⟩
  | erase k =>
    obtain rfl : k = key := hp
    have hlands : Lands members config k s.app none env.quorum := hsep
    have hafter : ((Phase.erase k).step libs etag members env s.app).2 = { s.app with
        coordinator := (s.app.coordinator.replicate members s.app.replicas k none
          env.quorum).2.1
        replicas := (s.app.coordinator.replicate members s.app.replicas k none
          env.quorum).2.2 } := by
      dsimp only [Phase.step]
      split <;> rfl
    have hq : ∃ answer, q = .done answer := by
      dsimp only [q, Phase.step]
      split <;> exact ⟨_, rfl⟩
    obtain ⟨answer, hq⟩ := hq
    rw [hq]
    exact ⟨trivial, rfl, hlands.tick_toBool, Or.inl rfl, none, nofun, hlands, hafter⟩

theorem Phase.writes_of_calm (h : p.Remote = false) : p.Writes env = false := by
  cases p with
  | read _ _ | send _ | erase _ => cases h
  | lookup _ _ _ | dedupe _ | keep _ _ | cache _ | done _ => rfl

theorem Ongoing.holding_of_free (h : o.phase.Holding = false) : o.holding = none := by
  rw [Ongoing.holding, h]
  rfl

variable (libs etag key version) in
/-- A request of the run, with what it has come to. -/
def Ongoing.Conditional (o : Ongoing) : Prop :=
  o.phase.Conditional libs etag key version ∧ o.phase.Accounted o.wrote

section

variable (hi : s.ongoing[i]? = some o) (ho : o.Conditional libs etag key version)
  (hsep : o.phase.Separate libs members config key s o.env)

include ho in
theorem Ongoing.Conditional.calm (hsep : o.phase.Separate libs members config key s o.env)
    (hremote : o.phase.Remote = false) :
    (o.step libs etag members s.app).1.Conditional libs etag key version ∧
      (o.step libs etag members s.app).1.phase.Holding = o.phase.Holding ∧
      (o.step libs etag members s.app).1.wrote = o.wrote := by
  have hwrites : o.phase.Writes o.env = false := Phase.writes_of_calm hremote
  have hwrote : (o.step libs etag members s.app).1.wrote = o.wrote := by
    rw [Ongoing.step_wrote, hwrites, Bool.or_false]
  obtain ⟨hconditional, hholding, haccounted⟩ := ho.1.calm hsep hremote ho.2
  refine ⟨⟨hconditional, ?_⟩, hholding, hwrote⟩
  rw [hwrote]
  exact haccounted

include hi ho hsep

theorem Untouched.calm (h : Untouched libs members config key version s)
    (hremote : o.phase.Remote = false) :
    (o.step libs etag members s.app).1.Conditional libs etag key version ∧
      Untouched libs members config key version (s.next libs etag members (.advance i)) := by
  obtain ⟨w, hcurrent, hversion⟩ := h.current
  have hcalm : Calm s.app (o.step libs etag members s.app).2 := calm_step hremote
  obtain ⟨hconditional, hholding, hwrote⟩ := ho.calm hsep hremote
  refine ⟨hconditional, ⟨w, ?_, hversion⟩, ?_, ?_, ?_⟩
  · rw [Service.app_advance libs etag members hi]
    exact hcurrent.calm hcalm
  · rw [Service.app_advance libs etag members hi, hcalm.localNode, hcalm.clock]
    exact h.clock
  · have hunwritten := hwrote.trans (h.unwritten o (List.mem_of_getElem? hi))
    exact Service.forall_advance libs etag members hi h.unwritten hunwritten
  · rw [Service.ongoing_advance libs etag members hi]
    refine h.alone.keep hi ?_
    rintro b ⟨⟩ k hk
    rwa [Ongoing.holding, hholding] at hk

theorem Changed.calm (h : Changed libs members config key version s)
    (hremote : o.phase.Remote = false) :
    (o.step libs etag members s.app).1.Conditional libs etag key version ∧
      Changed libs members config key version (s.next libs etag members (.advance i)) := by
  obtain ⟨w, hcurrent, hversion⟩ := h.current
  have hcalm : Calm s.app (o.step libs etag members s.app).2 := calm_step hremote
  obtain ⟨hconditional, hholding, -⟩ := ho.calm hsep hremote
  refine ⟨hconditional, ⟨w, ?_, hversion⟩, ?_, ?_⟩
  · rw [Service.app_advance libs etag members hi]
    exact hcurrent.calm hcalm
  · have hfree := hholding.trans (h.free o (List.mem_of_getElem? hi))
    exact Service.forall_advance libs etag members hi h.free hfree
  · rw [Service.writers_advance libs etag members hi (Phase.writes_of_calm hremote)]
    exact h.once

section

variable {k : ObjectKey} {purpose : Purpose} (hphase : o.phase = .read k purpose)
  (hcard : (owners members config key).length < config.r + config.w)
  (hnodup : (owners members config key).Nodup)
include hphase hcard hnodup

omit hi in
/-- A request that reads the current version: what it goes on to, and the state. -/
theorem Current.reads (hcurrent : Current libs members config key w s.app) :
    (∀ o ∈ s.ongoing, o.phase.Holding = false) ∧
      Current libs members config key w (o.step libs etag members s.app).2 ∧
      (o.step libs etag members s.app).2.coordinator = s.app.coordinator ∧
      (o.step libs etag members s.app).1.wrote = o.wrote ∧
      ∃ result : ReadResult, result.document.isSome ∧ result.version = w.version ∧
        (o.step libs etag members s.app).1.phase = purpose.proceed libs etag k (.ok result) := by
  have hkey : k = key := by
    have hp := ho.1
    rw [hphase] at hp
    cases purpose with
    | get => exact hp.elim
    | upsert headers json payloadHash => exact hp.1
    | delete headers => exact hp.1
  subst hkey
  rw [hphase] at hsep
  obtain ⟨hfree, hreads, hlive⟩ := hsep
  obtain ⟨⟨repairs, hanswer⟩, hsome, hafter⟩ := hcurrent.read hcard hnodup hreads hlive
  have hstep : (o.step libs etag members s.app).2 =
        (s.app.quorumRead libs members k o.env.quorum).2 ∧
      (o.step libs etag members s.app).1.phase = purpose.proceed libs etag k
        (s.app.quorumRead libs members k o.env.quorum).1 := by
    rw [Ongoing.step, hphase]
    exact ⟨rfl, rfl⟩
  have hwrote : (o.step libs etag members s.app).1.wrote = o.wrote := by
    rw [Ongoing.step_wrote, hphase]
    exact Bool.or_false _
  rw [hstep.1, hstep.2, hanswer]
  exact ⟨hfree, hafter, rfl, hwrote, _, hsome, rfl, rfl⟩

theorem Untouched.reads (h : Untouched libs members config key version s) :
    (o.step libs etag members s.app).1.Conditional libs etag key version ∧
      Untouched libs members config key version (s.next libs etag members (.advance i)) := by
  obtain ⟨w, hcurrent, hversion⟩ := h.current
  obtain ⟨hfree, hafter, hcoordinator, hwrote, result, hsome, hresult, hnext⟩ :=
    hcurrent.reads ho hsep hphase hcard hnodup
  have hp := ho.1
  rw [hphase] at hp
  obtain ⟨hconditional, hholding, haccounted⟩ := hp.passes o.wrote hsome (hresult.trans hversion)
  refine ⟨⟨?_, ?_⟩, ⟨w, ?_, hversion⟩, ?_, ?_, ?_⟩
  · rw [hnext]
    exact hconditional
  · rw [hnext, hwrote]
    exact haccounted
  · rw [Service.app_advance libs etag members hi]
    exact hafter
  · rw [Service.app_advance libs etag members hi, hcoordinator]
    exact h.clock
  · have hunwritten := hwrote.trans (h.unwritten o (List.mem_of_getElem? hi))
    exact Service.forall_advance libs etag members hi h.unwritten hunwritten
  · rw [Service.ongoing_advance libs etag members hi]
    refine h.alone.resume hi ?_
    rintro b ⟨⟩ u hu c hc
    rw [Ongoing.holding_of_free (hfree c (List.mem_of_mem_eraseIdx hc))]
    exact nofun

theorem Changed.reads (h : Changed libs members config key version s)
    (hstar : trimQuotes (etag version) ≠ "*")
    (hdistinct : ∀ v, trimQuotes (etag v) = trimQuotes (etag version) → v = version) :
    (o.step libs etag members s.app).1.Conditional libs etag key version ∧
      Changed libs members config key version (s.next libs etag members (.advance i)) := by
  obtain ⟨w, hcurrent, hversion⟩ := h.current
  obtain ⟨-, hafter, -, hwrote, result, hsome, hresult, hnext⟩ :=
    hcurrent.reads ho hsep hphase hcard hnodup
  have hp := ho.1
  rw [hphase] at hp
  have hdiffer : trimQuotes (etag result.version) ≠ trimQuotes (etag version) := fun heq =>
    hversion (hresult.symm.trans (hdistinct _ heq))
  obtain ⟨message, hrefused⟩ := hp.fails hsome hstar hdiffer
  rw [hrefused] at hnext
  refine ⟨⟨?_, ?_⟩, ⟨w, ?_, hversion⟩, ?_, ?_⟩
  · rw [hnext]
    trivial
  · rw [hnext]
    exact Or.inr ⟨message, rfl⟩
  · rw [Service.app_advance libs etag members hi]
    exact hafter
  · refine Service.forall_advance libs etag members hi h.free ?_
    rw [hnext]
    rfl
  · have hwrites : o.phase.Writes o.env = false := by
      rw [hphase]
      rfl
    rw [Service.writers_advance libs etag members hi hwrites]
    exact h.once

end

/-- The first write, which the required version does not survive. -/
theorem Untouched.writes (h : Untouched libs members config key version s)
    (hnodup : (owners members config key).Nodup) (hremote : o.phase.Remote = true)
    (hholding : o.phase.Holding = true) :
    (o.step libs etag members s.app).1.Conditional libs etag key version ∧
      Changed libs members config key version (s.next libs etag members (.advance i)) := by
  obtain ⟨w, hcurrent, hversion⟩ := h.current
  obtain ⟨hconditional, hfree, hwrites, haccounted, doc, hdoc, hlands, hafter⟩ :=
    ho.1.writes hsep hremote hholding
  obtain ⟨hlc, hclock, hnew⟩ := hlands.current hnodup hcurrent.quorum hdoc
  rw [← hafter] at hnew
  refine ⟨⟨hconditional, ?_⟩, ⟨stamp s.app.coordinator.localNode hlc doc, ?_, ?_⟩, ?_, ?_⟩
  · rw [Ongoing.step_wrote, hwrites, Bool.or_true]
    exact haccounted
  · rw [Service.app_advance libs etag members hi]
    exact hnew
  · intro heq
    have hget : version.get s.app.coordinator.localNode = some hlc := by
      rw [← heq]
      exact OrdMap.get_insert_self _
    exact absurd (h.clock hlc hget) (not_le.mpr hclock)
  · rw [Service.ongoing_advance libs etag members hi]
    intro b hb
    rcases (Pool.mem_resume hi).mp hb with heq | hb
    · cases heq
      exact hfree
    · have hother : b.holding ≠ some () :=
        h.alone.others hi (by rw [Ongoing.holding, hholding]; rfl) hb
      by_contra hne
      rw [Ongoing.holding, if_pos (Bool.not_eq_false _ ▸ hne)] at hother
      exact hother rfl
  · exact Service.writers_advance_of_none libs etag members hi h.unwritten

end

/-- A new request is at its lookup or its read. -/
theorem Route.Conditional.start {route : Route} (h : route.Conditional libs etag key version)
    (schema : Schema.SchemaManager) (config : ApiConfig) :
    (route.start libs schema config).Conditional libs etag key version ∧
      (route.start libs schema config).Holding = false ∧
      (route.start libs schema config).Accounted false := by
  cases route with
  | list path query claims => exact h.elim
  | object req =>
    cases req with
    | create path headers claims body => exact h.elim
    | get path id claims => exact h.elim
    | upsert path id headers claims body =>
      obtain ⟨hadmitted, hrequires, hbody⟩ := h
      simp only [Route.start, Request.start, hadmitted]
      exact ⟨⟨rfl, hrequires, hbody⟩, rfl, trivial⟩
    | delete path id headers claims =>
      obtain ⟨hadmitted, hrequires⟩ := h
      simp only [Route.start, Request.start, hadmitted]
      exact ⟨⟨rfl, hrequires⟩, rfl, trivial⟩

variable (libs etag members config key version) in
/-- The requests of a run, before or after one of them has written. -/
def OneAtMost (s : Service) : Prop :=
  (∀ o ∈ s.ongoing, o.Conditional libs etag key version) ∧
    (Untouched libs members config key version s ∨ Changed libs members config key version s)

section

variable (hcard : (owners members config key).length < config.r + config.w)
  (hnodup : (owners members config key).Nodup) (hstar : trimQuotes (etag version) ≠ "*")
  (hdistinct : ∀ v, trimQuotes (etag v) = trimQuotes (etag version) → v = version)
include hcard hnodup hstar hdistinct

/-- One step of one request, whatever it is at. -/
theorem OneAtMost.advance (h : OneAtMost libs etag members config key version s)
    (hi : s.ongoing[i]? = some o) (hsep : o.phase.Separate libs members config key s o.env) :
    (o.step libs etag members s.app).1.Conditional libs etag key version ∧
      (Untouched libs members config key version (s.next libs etag members (.advance i)) ∨
        Changed libs members config key version (s.next libs etag members (.advance i))) := by
  have hmem := List.mem_of_getElem? hi
  have ho := h.1 o hmem
  cases hremote : o.phase.Remote with
  | false =>
    rcases h.2 with huntouched | hchanged
    · exact (huntouched.calm hi ho hsep hremote).imp_right Or.inl
    · exact (hchanged.calm hi ho hsep hremote).imp_right Or.inr
  | true =>
    cases hholding : o.phase.Holding with
    | true =>
      rcases h.2 with huntouched | hchanged
      · exact (huntouched.writes hi ho hsep hnodup hremote hholding).imp_right Or.inr
      · cases hholding.symm.trans (hchanged.free o hmem)
    | false =>
      obtain ⟨k, purpose, hphase⟩ : ∃ k purpose, o.phase = .read k purpose := by
        cases hphase : o.phase with
        | read k purpose => exact ⟨k, purpose, rfl⟩
        | send _ | erase _ =>
          rw [hphase] at hholding
          cases hholding
        | lookup _ _ _ | dedupe _ | keep _ _ | cache _ | done _ =>
          rw [hphase] at hremote
          cases hremote
      rcases h.2 with huntouched | hchanged
      · exact (huntouched.reads hi ho hsep hphase hcard hnodup).imp_right Or.inl
      · exact (hchanged.reads hi ho hsep hphase hcard hnodup hstar hdistinct).imp_right Or.inr

theorem OneAtMost.next {m : Turn} (h : OneAtMost libs etag members config key version s)
    (hsep : Separate libs etag members config key version s m) :
    OneAtMost libs etag members config key version (s.next libs etag members m) := by
  cases m with
  | arrive route env =>
    obtain ⟨hconditional, hfree, haccounted⟩ :=
      Route.Conditional.start hsep s.schema s.config
    refine ⟨Pool.forall_concat h.1 ⟨hconditional, haccounted⟩, ?_⟩
    rcases h.2 with huntouched | hchanged
    · refine Or.inl ⟨huntouched.current, huntouched.clock,
        Pool.forall_concat huntouched.unwritten rfl, huntouched.alone.concat ?_⟩
      exact Ongoing.holding_of_free hfree
    · refine Or.inr ⟨hchanged.current, Pool.forall_concat hchanged.free hfree, ?_⟩
      rw [Service.writers_arrive]
      exact hchanged.once
  | advance i =>
    cases hi : s.ongoing[i]? with
    | none =>
      rw [Service.next_advance_none libs etag members hi]
      exact h
    | some o =>
      obtain ⟨hnext, hstate⟩ := h.advance hcard hnodup hstar hdistinct hi (hsep o hi)
      exact ⟨Service.forall_advance libs etag members hi h.1 hnext, hstate⟩
  | repair k i fate =>
    obtain rfl : k = key := hsep
    obtain ⟨-, hcoordinator⟩ := repair_same s.app k i fate
    refine ⟨h.1, h.2.imp (fun huntouched => ?_) fun hchanged => ?_⟩
    · obtain ⟨w, hcurrent, hversion⟩ := huntouched.current
      refine ⟨⟨w, hcurrent.repair i fate, hversion⟩, ?_, huntouched.unwritten, huntouched.alone⟩
      dsimp only [Service.next]
      rw [hcoordinator]
      exact huntouched.clock
    · obtain ⟨w, hcurrent, hversion⟩ := hchanged.current
      exact ⟨⟨w, hcurrent.repair i fate, hversion⟩, hchanged.free, hchanged.once⟩
  | reschema schema =>
    refine ⟨h.1, h.2.imp (fun huntouched => ?_) fun hchanged => ?_⟩
    · exact ⟨huntouched.current, huntouched.clock, huntouched.unwritten, huntouched.alone⟩
    · exact ⟨hchanged.current, hchanged.free, hchanged.once⟩

end

/-- Upserts and deletions that all require the current version of one object write at most once,
and all others are answered 412, if none reads between the read and the write of another, each
read finds the object, each write lands, and no idempotency key is found. -/
theorem conditional_once (libs : Libs) (etag : VectorClock → String) (members : Membership)
    (key : ObjectKey) (w : VersionedDoc) (s : Service) (moves : List Turn)
    (hquorum : (owners members s.app.coordinator.config key).length <
      s.app.coordinator.config.r + s.app.coordinator.config.w)
    (hnodup : (owners members s.app.coordinator.config key).Nodup)
    (hstar : trimQuotes (etag w.version) ≠ "*")
    (hdistinct : ∀ v, trimQuotes (etag v) = trimQuotes (etag w.version) → v = w.version)
    (hidle : s.ongoing = [])
    (hcurrent : Current libs members s.app.coordinator.config key w s.app)
    (hclock : ∀ hlc, w.version.get s.app.coordinator.localNode = some hlc →
      hlc ≤ s.app.coordinator.clock)
    (hmoves : Throughout (Service.next libs etag members)
      (Separate libs etag members s.app.coordinator.config key w.version) s moves) :
    let t := s.run libs etag members moves
    t.writers.length ≤ 1 ∧ ∀ o ∈ t.ongoing, o.wrote = false → ∀ answer, o.phase = .done answer →
      (Response.ofResult answer).status = 412 := by
  intro t
  have hstart : OneAtMost libs etag members s.app.coordinator.config key w.version s := by
    refine ⟨by simp [hidle], Or.inl ⟨⟨w, hcurrent, rfl⟩, hclock, by simp [hidle], ?_⟩⟩
    rw [hidle]
    exact List.Pairwise.nil
  obtain ⟨hall, hone⟩ : OneAtMost libs etag members s.app.coordinator.config key w.version t :=
    hmoves.invariant (fun u m hok hu => hu.next hquorum hnodup hstar hdistinct hok) hstart
  constructor
  · rcases hone with huntouched | hchanged
    · have hnone : t.writers = [] := by
        refine List.filter_eq_nil_iff.mpr fun o ho => ?_
        rw [huntouched.unwritten o ho]
        exact Bool.false_ne_true
      rw [hnone]
      exact Nat.zero_le _
    · exact hchanged.once
  · intro o ho hwrote answer hdone
    have haccounted := (hall o ho).2
    rw [hdone] at haccounted
    rcases haccounted with hwritten | ⟨message, rfl⟩
    · cases hwrote.symm.trans hwritten
    · rfl

/-- An ETag that spells the whole version. -/
def spell (v : VectorClock) : String :=
  Base64.encode (v.entries.entries.flatMap fun e =>
    Bytes.ofNat 16 e.1.uuid.bits.toNat ++ Bytes.ofNat 8 e.2.raw.toNat)

theorem trimQuotes_of_not_mem {text : String} (h : '"' ∉ text.toList) : trimQuotes text = text := by
  have hdrop {l : List Char} (h : '"' ∉ l) : l.dropWhile (· == '"') = l := by
    cases l with
    | nil => rfl
    | cons c l =>
      refine List.dropWhile_cons_of_neg ?_
      simpa using fun heq : c = '"' => h (heq ▸ List.mem_cons_self)
  rw [trimQuotes, hdrop h, hdrop (by rwa [List.mem_reverse]), List.reverse_reverse,
    String.ofList_toList]

theorem trimQuotes_spell (v : VectorClock) : trimQuotes (spell v) = spell v :=
  trimQuotes_of_not_mem (Base64.not_mem_encode (by decide) (by decide) (by decide))

theorem spell_ne_star (v : VectorClock) : spell v ≠ "*" := by
  intro heq
  have hmem : '*' ∈ (spell v).toList := by
    rw [heq]
    decide
  exact Base64.not_mem_encode (by decide) (by decide) (by decide) hmem

theorem spell_inj {u v : VectorClock} (h : spell u = spell v) : u = v := by
  have hentries : u.entries.entries = v.entries.entries := by
    refine Bytes.flatMap_inj (n := 24) (by decide) (by simp) ?_ (Base64.encode_inj h)
    rintro ⟨⟨⟨a⟩⟩, ⟨g⟩⟩ ⟨⟨⟨b⟩⟩, ⟨h⟩⟩ heq
    obtain ⟨hnode, hclock⟩ := List.append_inj heq (by simp)
    have ha : a.toNat = b.toNat := Bytes.ofNat_inj a.isLt b.isLt hnode
    have hg : g.toNat = h.toNat := Bytes.ofNat_inj g.toNat_lt h.toNat_lt hclock
    rw [BitVec.eq_of_toNat_eq ha, UInt64.toNat_inj.mp hg]
  obtain ⟨⟨entries, hu⟩⟩ := u
  obtain ⟨⟨entries', hv⟩⟩ := v
  cases hentries
  rfl

theorem trimQuotes_spell_inj {u v : VectorClock}
    (h : trimQuotes (spell u) = trimQuotes (spell v)) : u = v := by
  rw [trimQuotes_spell, trimQuotes_spell] at h
  exact spell_inj h

/-- The object that the samples are about. -/
def sampleObject : ObjectKey := ⟨"acme/main/users", ⟨⟨0⟩⟩⟩

/-- Its version, which every node holds. -/
def sampleVersion : VersionedDoc := stamp ⟨⟨0⟩⟩ ⟨1⟩ (some (.blank ⟨⟨0⟩⟩))

def storedService : Service :=
  { sampleService with
    app := { sampleService.app with
      coordinator := ⟨⟨⟨0⟩⟩, ⟨1, 1, 1⟩, ⟨1⟩, .new⟩
      replicas := fun n => { ReplicaStore.new n with
        default := OrdMap.empty.insert sampleObject.toBytes sampleVersion } } }

theorem current_stored :
    Current (sampleLibs fun _ => 0) oneOwner ⟨1, 1, 1⟩ sampleObject sampleVersion
      storedService.app := by
  have hread : ∀ n, (storedService.app.replicas n).held sampleObject = some sampleVersion :=
    fun n => OrdMap.get_insert_self _
  refine ⟨rfl, ⟨⟨{⟨⟨0⟩⟩}, ?_, le_rfl, fun n _ => hread n⟩, fun n _ v hv => ?_, ?_⟩, rfl,
    fun doc _ => faithful_some doc⟩
  · exact subset_rfl
  · cases (hread n).symm.trans hv
    exact Or.inl rfl
  · exact fun p hp => by cases hp

/-- An upsert of the object that requires its version. -/
def replaceAt (now : Nat) : Turn :=
  .arrive (.object (.upsert ⟨"acme", "main", "users"⟩ "0"
    [("if-match", some (spell sampleVersion.version))] ⟨some "acme", [.readWrite]⟩ []))
    (sampleEnv now ⟨UInt64.ofNat (now + 1)⟩)

/-- A deletion of the object that requires its version. -/
def removeAt (now : Nat) : Turn :=
  .arrive (.object (.delete ⟨"acme", "main", "users"⟩ "0"
    [("if-match", some (spell sampleVersion.version))] ⟨some "acme", [.readWrite]⟩))
    (sampleEnv now ⟨UInt64.ofNat (now + 1)⟩)

theorem conditional_arrivals {moves : List Turn}
    (h : ∀ m ∈ moves,
      (∃ now, m = replaceAt now) ∨ (∃ now, m = removeAt now) ∨ ∃ i, m = .advance i)
    (route : Route) (env : RequestEnv) (hmem : .arrive route env ∈ moves) :
    route.Conditional (sampleLibs fun _ => 0) spell sampleObject sampleVersion.version := by
  rcases h _ hmem with ⟨now, heq⟩ | ⟨now, heq⟩ | ⟨i, heq⟩
  · cases heq
    exact ⟨by decide +kernel, ⟨_, rfl, rfl⟩, .object [], .blank ⟨⟨0⟩⟩, rfl, rfl, faithful_some _⟩
  · cases heq
    exact ⟨by decide +kernel, ⟨_, rfl, rfl⟩⟩
  · cases heq

/-- The status of an answer. -/
def Ongoing.status (o : Ongoing) : Option Nat :=
  match o.phase with
  | .done answer => some (Response.ofResult answer).status
  | _ => none

section

variable (libs : Libs) (members : Membership) (config : QuorumConfig) (key : ObjectKey)

/-- Every owner acknowledges a write under a new stamp. -/
def Undisturbed (t : AppState) (env : Env) : Bool :=
  (t.pending key).isEmpty && decide (env.writes = (owners members config key).map (·, .acked)) &&
    decide (config.w ≤ (ackedNodes env.writes).length) &&
    env.tick.toOption.any (t.coordinator.clock < ·)

/-- A request without an idempotency key, which meets no other. -/
def Phase.Plain (s : Service) (env : RequestEnv) : Phase → Bool
  | .lookup idemKey _ _ => idemKey.isNone
  | .dedupe job => job.idemKey.isNone
  | .read k _ => s.ongoing.all (!·.phase.Holding) &&
      decide (env.quorum.reads.map Prod.fst = owners members config key) &&
      (s.app.coordinator.quorumRead members libs.reread s.app.replicas k env.quorum).1.toOption.any
        (·.document.isSome)
  | .send _ | .erase _ => Undisturbed members config key s.app env.quorum
  | .keep _ _ | .cache _ | .done _ => true

def Turn.Plain (s : Service) : Turn → Bool
  | .advance i => s.ongoing[i]?.all fun o => o.phase.Plain libs members config key s o.env
  | .repair k _ _ => decide (k = key)
  | .arrive _ _ | .reschema _ => true

end

theorem Lands.of_undisturbed (h : Undisturbed members config key t quorum = true) :
    Lands members config key t doc quorum := by
  simp only [Undisturbed, Bool.and_eq_true, List.isEmpty_iff, decide_eq_true_eq,
    Option.any_eq_true] at h
  obtain ⟨⟨⟨hidle, hwrites⟩, hacked⟩, hlc, htick, hclock⟩ := h
  refine ⟨hidle, ?_, hacked, hlc, Except.toOption_eq_some.mp htick, hclock, ?_⟩
  · rw [hwrites, List.map_map]
    exact .of_eq (List.map_id _)
  · intro n hn hreached
    refine absurd ⟨.acked, ?_, rfl⟩ hreached
    rw [hwrites]
    exact List.mem_map_of_mem hn

theorem Phase.separate_of_plain (h : p.Plain libs members config key s env = true) :
    p.Separate libs members config key s env := by
  cases p with
  | lookup idemKey _ _ =>
    intro ikey hmem
    rw [Option.isNone_iff_eq_none.mp h] at hmem
    cases hmem
  | dedupe job =>
    intro ikey hmem
    rw [Option.isNone_iff_eq_none.mp h] at hmem
    cases hmem
  | read k purpose =>
    simp only [Phase.Plain, Bool.and_eq_true, List.all_eq_true, Bool.not_eq_true',
      decide_eq_true_eq, Option.any_eq_true] at h
    obtain ⟨⟨hfree, hreads⟩, result, hok, hsome⟩ := h
    exact ⟨hfree, .of_eq hreads, result, Except.toOption_eq_some.mp hok, hsome⟩
  | send job => exact Lands.of_undisturbed h
  | erase k => exact Lands.of_undisturbed h
  | keep _ _ | cache _ | done _ => trivial

theorem separate_of_plain {m : Turn} (h : m.Plain libs members config key s = true)
    (harrive : ∀ route env, m = .arrive route env → route.Conditional libs etag key version) :
    Separate libs etag members config key version s m := by
  cases m with
  | advance i =>
    intro o ho
    refine Phase.separate_of_plain ?_
    have hall : s.ongoing[i]?.all
        (fun o => o.phase.Plain libs members config key s o.env) = true := h
    rw [ho] at hall
    exact hall
  | arrive route env => exact harrive route env rfl
  | repair k _ _ =>
    have hkey : k = key := of_decide_eq_true h
    exact hkey
  | reschema schema => trivial

/-- An upsert, and a deletion once it is answered. -/
def successive : List Turn :=
  [replaceAt 1] ++ List.replicate 6 (.advance 0) ++ [removeAt 2, .advance 1]

theorem conditional_once_successive :
    let t := storedService.run (sampleLibs fun _ => 0) spell oneOwner successive
    t.ongoing.map Ongoing.status = [some 200, some 412] ∧ t.writers.length ≤ 1 ∧
      ∀ o ∈ t.ongoing, o.wrote = false → ∀ answer, o.phase = .done answer →
        (Response.ofResult answer).status = 412 := by
  have hrun : Throughout (Service.next (sampleLibs fun _ => 0) spell oneOwner)
        (fun s m => m.Plain (sampleLibs fun _ => 0) oneOwner ⟨1, 1, 1⟩ sampleObject s = true)
        storedService successive ∧
      (storedService.run (sampleLibs fun _ => 0) spell oneOwner successive).ongoing.map
        Ongoing.status = [some 200, some 412] := by
    decide +kernel
  obtain ⟨hplain, hstatus⟩ := hrun
  have harrive : ∀ route env, .arrive route env ∈ successive →
      route.Conditional (sampleLibs fun _ => 0) spell sampleObject sampleVersion.version :=
    conditional_arrivals (by simp [successive, List.replicate])
  refine ⟨hstatus, conditional_once (sampleLibs fun _ => 0) spell oneOwner sampleObject
    sampleVersion storedService successive (by decide) (by decide) ?_
    (fun _ => trimQuotes_spell_inj) rfl current_stored ?_ ?_⟩
  · rw [trimQuotes_spell]
    exact spell_ne_star _
  · rintro hlc hget
    cases hget
    exact le_rfl
  · refine (hplain.and (Throughout.of_forall fun m hm route env heq => ?_)).imp
      fun s m h => separate_of_plain h.1 h.2
    exact harrive route env (heq ▸ hm)

/-- Both requests read the version before either writes. -/
def overlapping : List Turn :=
  [replaceAt 1, replaceAt 2] ++ (List.replicate 6 [.advance 0, .advance 1]).flatten

/-- Both write and are answered 200. -/
theorem conditional_twice :
    (∀ u v, trimQuotes (spell u) = trimQuotes (spell v) → u = v) ∧
    Current (sampleLibs fun _ => 0) oneOwner ⟨1, 1, 1⟩ sampleObject sampleVersion
      storedService.app ∧
    (∀ route env, .arrive route env ∈ overlapping →
      route.Conditional (sampleLibs fun _ => 0) spell sampleObject sampleVersion.version) ∧
    let t := storedService.run (sampleLibs fun _ => 0) spell oneOwner overlapping
    t.writers.length = 2 ∧ t.ongoing.map Ongoing.status = [some 200, some 200] :=
  ⟨fun _ _ => trimQuotes_spell_inj, current_stored,
    conditional_arrivals (by simp [overlapping, List.replicate]), by decide +kernel⟩

end BashfulDB.Api
