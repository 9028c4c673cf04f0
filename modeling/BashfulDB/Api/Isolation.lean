import BashfulDB.Api.Strangers
import BashfulDB.Library.Unwinding

/-!
Isolation of tenants that share a service: over whole runs, what a tenant is answered and what it
has stored depends on other tenants only through idempotency keys that they use as well.
-/
namespace BashfulDB.Api

open Auth Clock Data Replication

variable {libs : Libs} {members : Membership} {tenant : String}
  {strangers strangers' : List (String × Nat)} {since since' : Nat} {cores : Cores}
  {R : Hlc → Hlc → Prop} {s s' : AppState} {key : ObjectKey} {env env' : RequestEnv}
  {path : ObjectPath} {id : String} {headers : HeaderMap} {claims : Claims} {body : Bytes}
  {idemKey : Option String}

/-- Both runs give the request the same answer, and stay alike. -/
structure Alike (tenant : String) (strangers strangers' : List (String × Nat)) (time : Nat)
    (res res' : Except ApiError Response × AppState) : Prop where
  answer : res.1 = res'.1
  sim : Sim tenant strangers strangers' time time res.2 res'.2

/-- Reads with the same result lead to the same current version, up to its clock values. -/
theorem current_congr {existing existing' : Except ReplicationError ReadResult}
    (h : (existing.map fun r => (r.document, r.version.len)) =
      existing'.map fun r => (r.document, r.version.len)) :
    (existing.toOption.filter (·.document.isSome)).map (·.version.len) =
      (existing'.toOption.filter (·.document.isSome)).map (·.version.len) := by
  rcases Except.map_eq_map.mp h with ⟨e, rfl, rfl⟩ | ⟨result, result', rfl, rfl, heq⟩
  · rfl
  · obtain ⟨hdoc, hlen⟩ := Prod.ext_iff.mp heq
    dsimp only at hdoc hlen
    simp only [Except.toOption, Option.filter, hdoc]
    split
    · exact congrArg some hlen
    · rfl

theorem upsertDocument_congr {current current' : Option ReadResult} {json : JsonValue}
    (h : current.map (·.version.len) = current'.map (·.version.len)) :
    upsertDocument libs key headers json current =
      upsertDocument libs key headers json current' := by
  cases current with
  | none =>
    cases current' with
    | none => rfl
    | some result' => cases h
  | some result =>
    cases current' with
    | none => cases h
    | some result' =>
      simp only [upsertDocument, upsertDocumentBy]
      rw [etagFromVersion_congr (Option.some.inj h)]

namespace Stage

/-- Both lookups have the same answer. -/
theorem replay_eq (h : Stage tenant strangers strangers' cores R idemKey env env' s s')
    (payloadHash default : Nat) :
    ∃ answer t t', s.replay idemKey payloadHash default env.lookupAt = (answer, t) ∧
      s'.replay idemKey payloadHash default env'.lookupAt = (answer, t') ∧
      Stage tenant strangers strangers' cores R idemKey env env' t t' := by
  obtain ⟨hanswer, hstage⟩ := h.replay payloadHash default
  refine ⟨_, _, _, rfl, ?_, hstage⟩
  rw [h.same.lookupAt]
  exact Prod.ext hanswer.symm rfl

variable (libs members) in
/-- Both reads fail alike, or find the same document with versions of one length. -/
theorem read_cases (h : Stage tenant strangers strangers' cores R idemKey env env' s s')
    (hkey : keyTenant key = tenant.toList) :
    ∃ t t', Stage tenant strangers strangers' cores R idemKey env env' t t' ∧
      ((∃ e, s.quorumRead libs members key env.quorum = (.error e, t) ∧
        s'.quorumRead libs members key env'.quorum = (.error e, t')) ∨
      ∃ result result', s.quorumRead libs members key env.quorum = (.ok result, t) ∧
        s'.quorumRead libs members key env'.quorum = (.ok result', t') ∧
        result.document = result'.document ∧ result.version.len = result'.version.len) := by
  obtain ⟨hanswer, hstage⟩ := h.read libs members hkey
  refine ⟨_, _, hstage, ?_⟩
  rcases Except.map_eq_map.mp hanswer with
    ⟨e, hread, hread'⟩ | ⟨result, result', hread, hread', heq⟩
  · exact Or.inl ⟨e, Prod.ext hread rfl, Prod.ext hread' rfl⟩
  · obtain ⟨hdoc, hlen⟩ := Prod.ext_iff.mp heq
    exact Or.inr ⟨result, result', Prod.ext hread rfl, Prod.ext hread' rfl, hdoc, hlen⟩

theorem createObject (h : Stage tenant strangers strangers' cores R
    (optHeader headers "idempotency-key") env env' s s') :
    Alike tenant strangers strangers' env.cachedAt
      (s.createObject libs members path headers claims body env)
      (s'.createObject libs members path headers claims body env') := by
  unfold AppState.createObject
  cases admission libs path claims .create with
  | error e => exact ⟨rfl, h.done⟩
  | ok _ =>
    obtain ⟨answer, t, t', hreplay, hreplay', hstage⟩ := h.replay_eq (libs.hashPayload body) 201
    simp only [hreplay, hreplay', h.same.freshId]
    rcases answer with e | _ | response
    · exact ⟨rfl, hstage.done⟩
    · dsimp only
      cases (parseBody libs body).bind (buildDocument libs env.freshId) with
      | error e => exact ⟨rfl, hstage.done⟩
      | ok doc =>
        obtain ⟨hresult, hsim⟩ := hstage.writeAndCache ⟨collectionKey path, doc.id⟩ doc
          (libs.hashPayload body) 201 _
        exact ⟨hresult, hsim⟩
    · exact ⟨rfl, hstage.done⟩

theorem getObject (h : Stage tenant strangers strangers' cores R idemKey env env' s s')
    (htenant : path.tenant = tenant) :
    Alike tenant strangers strangers' env.cachedAt (s.getObject libs members path id claims env)
      (s'.getObject libs members path id claims env') := by
  unfold AppState.getObject
  cases hadmitted : admissionOf libs path id claims .read with
  | error e => exact ⟨rfl, h.done⟩
  | ok key =>
    obtain ⟨t, t', hstage, hread⟩ :=
      h.read_cases libs members (htenant ▸ keyTenant_of_admissionOf hadmitted)
    rcases hread with ⟨e, hread, hread'⟩ | ⟨result, result', hread, hread', hdoc, hlen⟩
    · simp only [hread, hread']
      exact ⟨rfl, hstage.done⟩
    · simp only [hread, hread', hdoc, etagFromVersion_congr hlen]
      cases result'.document with
      | none => exact ⟨rfl, hstage.done⟩
      | some doc => exact ⟨rfl, hstage.done⟩

theorem upsertAfterRead (h : Stage tenant strangers strangers' cores R
    (optHeader headers "idempotency-key") env env' s s') {existing existing' : Option ReadResult}
    (hcurrent : ((existing.filter (·.document.isSome)).map (·.version.len)) =
      (existing'.filter (·.document.isSome)).map (·.version.len)) (json : JsonValue)
    (payloadHash : Nat) :
    Alike tenant strangers strangers' env.cachedAt
      (s.upsertAfterRead libs members key headers json existing payloadHash env)
      (s'.upsertAfterRead libs members key headers json existing' payloadHash env') := by
  have hnone := congrArg Option.isNone hcurrent
  rw [Option.isNone_map, Option.isNone_map] at hnone
  unfold AppState.upsertAfterRead
  dsimp only
  rw [upsertDocument_congr hcurrent, hnone]
  cases upsertDocument libs key headers json (existing'.filter (·.document.isSome)) with
  | error e => exact ⟨rfl, h.done⟩
  | ok doc =>
    obtain ⟨hresult, hsim⟩ := h.writeAndCache key doc payloadHash
      (if (existing'.filter (·.document.isSome)).isNone then 201 else 200) none
    exact ⟨hresult, hsim⟩

theorem upsertObject (h : Stage tenant strangers strangers' cores R
    (optHeader headers "idempotency-key") env env' s s') (htenant : path.tenant = tenant) :
    Alike tenant strangers strangers' env.cachedAt
      (s.upsertObject libs members path id headers claims body env)
      (s'.upsertObject libs members path id headers claims body env') := by
  unfold AppState.upsertObject
  cases hadmitted : admissionOf libs path id claims .update with
  | error e => exact ⟨rfl, h.done⟩
  | ok key =>
    obtain ⟨answer, t, t', hreplay, hreplay', hstage⟩ := h.replay_eq (libs.hashPayload body) 200
    simp only [hreplay, hreplay']
    rcases answer with e | _ | response
    · exact ⟨rfl, hstage.done⟩
    · dsimp only
      cases parseBody libs body with
      | error e => exact ⟨rfl, hstage.done⟩
      | ok json =>
        obtain ⟨hread, hstage⟩ :=
          hstage.read libs members (htenant ▸ keyTenant_of_admissionOf hadmitted)
        exact hstage.upsertAfterRead (current_congr hread) json (libs.hashPayload body)
    · exact ⟨rfl, hstage.done⟩

theorem deleteObject (h : Stage tenant strangers strangers' cores R idemKey env env' s s')
    (htenant : path.tenant = tenant) :
    Alike tenant strangers strangers' env.cachedAt
      (s.deleteObject libs members path id headers claims env)
      (s'.deleteObject libs members path id headers claims env') := by
  unfold AppState.deleteObject
  cases hadmitted : admissionOf libs path id claims .delete with
  | error e => exact ⟨rfl, h.done⟩
  | ok key =>
    obtain ⟨t, t', hstage, hread⟩ :=
      h.read_cases libs members (htenant ▸ keyTenant_of_admissionOf hadmitted)
    rcases hread with ⟨e, hread, hread'⟩ | ⟨result, result', hread, hread', hdoc, hlen⟩
    · simp only [hread, hread']
      exact ⟨rfl, hstage.done⟩
    · simp only [hread, hread', hdoc, etagFromVersion_congr hlen]
      by_cases hnone : result'.document.isNone = true
      · rw [if_pos hnone, if_pos hnone]
        exact ⟨rfl, hstage.done⟩
      · rw [if_neg hnone, if_neg hnone]
        cases checkIfMatch headers (etagFromVersion libs.hashPayload result'.version) with
        | error e => exact ⟨rfl, hstage.done⟩
        | ok _ =>
          obtain ⟨hdelete, hsim⟩ := hstage.delete members key
          dsimp only at hdelete hsim ⊢
          generalize t.quorumDelete members key env.quorum = r at hdelete hsim ⊢
          generalize t'.quorumDelete members key env'.quorum = r' at hdelete hsim ⊢
          obtain ⟨answer, u⟩ := r
          obtain ⟨answer', u'⟩ := r'
          rcases Except.map_eq_map.mp hdelete with ⟨e, rfl, rfl⟩ | ⟨_, _, rfl, rfl, -⟩
          · exact ⟨rfl, hsim⟩
          · exact ⟨rfl, hsim⟩

variable (libs members) in
theorem handle {req : Request} (h : Stage tenant strangers strangers' cores R req.idemKey env env'
    s s') (htenant : req.path.tenant = tenant) :
    Alike tenant strangers strangers' env.cachedAt (s.handle libs members req env)
      (s'.handle libs members req env') := by
  cases req with
  | create path headers claims body => exact h.createObject
  | get path id claims => exact h.getObject htenant
  | upsert path id headers claims body => exact h.upsertObject htenant
  | delete path id headers claims => exact h.deleteObject htenant

variable (libs members) in
/-- The tenant hands the same documents to the coordinator in both runs. -/
theorem submitted {req : Request}
    (h : Stage tenant strangers strangers' cores R req.idemKey env env' s s')
    (htenant : req.path.tenant = tenant) :
    s.submitted libs members req env = s'.submitted libs members req env' := by
  cases req with
  | create path headers claims body =>
    obtain ⟨hanswer, -⟩ := h.replay (libs.hashPayload body) 201
    simp only [Request.idemKey] at hanswer
    simp only [AppState.submitted, h.same.lookupAt, h.same.freshId, hanswer]
  | get path id claims => rfl
  | upsert path id headers claims body =>
    obtain ⟨hanswer, -⟩ := h.replay (libs.hashPayload body) 200
    simp only [Request.idemKey] at hanswer
    simp only [AppState.submitted, h.same.lookupAt, hanswer]
    cases hadmitted : admissionOf libs path id claims .update with
    | error e => rfl
    | ok key =>
      obtain ⟨hread, -⟩ := h.read libs members (htenant ▸ keyTenant_of_admissionOf hadmitted)
      have hcurrent := current_congr hread
      generalize (s'.replay _ _ _ _).1 = answer
      rcases answer with e | _ | response
      · rfl
      · cases parseBody libs body with
        | error e => rfl
        | ok json =>
          simp only [AppState.quorumRead] at hcurrent
          simp only [upsertDocument_congr hcurrent]
      · rfl
  | delete path id headers claims =>
    simp only [AppState.submitted]
    cases hadmitted : admissionOf libs path id claims .delete with
    | error e => rfl
    | ok key =>
      obtain ⟨hread, -⟩ := h.read libs members (htenant ▸ keyTenant_of_admissionOf hadmitted)
      rcases Except.map_eq_map.mp hread with ⟨e, heq, heq'⟩ | ⟨result, result', heq, heq', hmap⟩
      · simp only [AppState.quorumRead] at heq heq'
        simp only [heq, heq']
      · obtain ⟨hdoc, hlen⟩ := Prod.ext_iff.mp hmap
        simp only [AppState.quorumRead] at heq heq' hdoc
        simp only [heq, heq', hdoc, etagFromVersion_congr hlen]

end Stage

/-- A request of the tenant, served in both runs. -/
theorem Sim.request {req : Request}
    (h : Sim tenant strangers strangers' since since' s s') (htenant : req.path.tenant = tenant)
    (henv : SameEnv env env') (htime : Timely since s env) (htime' : Timely since' s' env')
    (hclear : Clear strangers req.idemKey env.lookupAt)
    (hclear' : Clear strangers' req.idemKey env.lookupAt) :
    s.respond libs members req env = s'.respond libs members req env' ∧
      s.submitted libs members req env = s'.submitted libs members req env' ∧
      Sim tenant strangers strangers' env.cachedAt env.cachedAt
        (s.handle libs members req env).2 (s'.handle libs members req env').2 := by
  obtain ⟨cores, R, hside, hside', htwinned⟩ := h
  have hstage : Stage tenant strangers strangers' cores R req.idemKey env env' s s' :=
    ⟨hside.later htime.lookup, hside'.later (henv.lookupAt ▸ htime'.lookup), htwinned,
      ⟨le_rfl, htime.now, htime.stored, htime.cached, htime.clock⟩,
      ⟨henv.lookupAt.ge, htime'.now, htime'.stored, htime'.cached, htime'.clock⟩,
      henv, hclear, hclear'⟩
  have halike := hstage.handle libs members htenant
  exact ⟨congrArg Response.ofResult halike.answer, hstage.submitted libs members htenant,
    halike.sim⟩

/-- What can be seen of a request: its answer, and what it handed to the coordinator to write. -/
structure Outcome where
  response : Response
  submitted : Option (ObjectKey × Option Document)

/-- The service answers a request, or a repair left by a read takes place. The state goes with
the time at which the last request ended. -/
inductive Serves (libs : Libs) (members : Membership) :
    Nat × AppState → Event × Option Outcome → Nat × AppState → Prop
  | request {since : Nat} {s : AppState} {req : Request} {env : RequestEnv} : Timely since s env →
      Serves libs members (since, s)
        (.request req env, some ⟨s.respond libs members req env, s.submitted libs members req env⟩)
        (env.cachedAt, s.after libs members (.request req env))
  | repair {since : Nat} {s : AppState} {key : ObjectKey} {i : Nat} {fate : WriteFate} :
      Serves libs members (since, s) (.repair key i fate, none)
        (since, s.after libs members (.repair key i fate))

def Event.belongs (tenant : String) : Event → Bool
  | .request req _ => req.path.tenant = tenant
  | .repair key _ _ => keyTenant key = tenant.toList

/-- One event of the tenant in two runs. What the outside decides is the same, except for the
values that the clock returns. -/
inductive SameEvent : Event → Event → Prop
  | request {req : Request} {env env' : RequestEnv} : SameEnv env env' →
      SameEvent (.request req env) (.request req env')
  | repair {key : ObjectKey} {i : Nat} {fate : WriteFate} :
      SameEvent (.repair key i fate) (.repair key i fate)

theorem SameEvent.belongs {e e' : Event} (h : SameEvent e e') :
    e'.belongs tenant = e.belongs tenant := by
  cases h <;> rfl

/-- If another tenant used the idempotency key of a request of the tenant before it, this was at
least the retention period ago. -/
def Event.Apart (tenant : String) : Event → Event → Prop
  | .request req env, .request req' env' => req.path.tenant ≠ tenant → req'.path.tenant = tenant →
      ∀ k, req.idemKey = some k → req'.idemKey = some k → retention ≤ env'.lookupAt - env.cachedAt
  | _, _ => True

/-- The idempotency keys that other tenants have used, with the times of their use. -/
def uses (tenant : String) (trace : List (Event × Option Outcome)) : List (String × Nat) :=
  trace.flatMap fun x => match x.1 with
    | .request req env =>
      if req.path.tenant = tenant then [] else (req.idemKey.map (·, env.cachedAt)).toList
    | .repair _ _ _ => []

variable {trace : List (Event × Option Outcome)} {req : Request}

theorem mem_uses {k : String} {time : Nat} (h : (k, time) ∈ uses tenant trace) :
    ∃ req env, (∃ r, (Event.request req env, r) ∈ trace) ∧ req.path.tenant ≠ tenant ∧
      req.idemKey = some k ∧ env.cachedAt = time := by
  obtain ⟨⟨event, r⟩, hx, hk⟩ := List.mem_flatMap.mp h
  cases event with
  | request req env =>
    by_cases htenant : req.path.tenant = tenant
    · simp [htenant] at hk
    · simp only [htenant, if_false, Option.mem_toList, Option.map_eq_some_iff, Prod.mk.injEq]
        at hk
      obtain ⟨_, hk, rfl, rfl⟩ := hk
      exact ⟨req, env, ⟨r, hx⟩, htenant, hk, rfl⟩
  | repair key i fate => cases hk

theorem clear_uses (htenant : req.path.tenant = tenant)
    (hapart : ∀ x ∈ trace, x.1.Apart tenant (.request req env)) :
    Clear (uses tenant trace) req.idemKey env.lookupAt := by
  intro k hk time htime
  obtain ⟨req', env', ⟨r, hmem⟩, hother, hk', rfl⟩ := mem_uses htime
  exact hapart _ hmem hother htenant k hk' hk

theorem Twinned.symm (h : Twinned tenant R s s') : Twinned tenant (fun a a' => R a' a) s' s where
  localNode := h.localNode.symm
  config := h.config.symm
  twins := h.twins.symm
  replicas key hkey := by
    rw [h.localNode]
    exact (h.replicas key hkey).symm
  pending key hkey := by
    rw [h.localNode]
    exact ((h.pending key hkey).imp fun _ _ hp => hp.symm).flip

theorem Sim.symm (h : Sim tenant strangers strangers' since since' s s') :
    Sim tenant strangers' strangers since' since s' s := by
  obtain ⟨cores, R, hside, hside', htwinned⟩ := h
  exact ⟨cores, _, hside', hside, htwinned.symm⟩

section

variable {strangers : List (String × Nat)} {p p' q q' : Nat × AppState}
  {xs ys : List (Event × Option Outcome)} {a b : Event × Option Outcome}

theorem uses_append : uses tenant (xs ++ ys) = uses tenant xs ++ uses tenant ys :=
  List.flatMap_append

theorem uses_mine (ha : a.1.belongs tenant = true) : uses tenant (xs ++ [a]) = uses tenant xs := by
  obtain ⟨event, outcome⟩ := a
  cases event with
  | request req env =>
    have htenant : req.path.tenant = tenant := of_decide_eq_true ha
    simp [uses, htenant]
  | repair key i fate => simp [uses]

theorem Sim.stranger (h : Sim tenant (uses tenant xs) strangers p.1 since p.2 s)
    (hstep : Serves libs members p a q) (ha : a.1.belongs tenant = false) :
    Sim tenant (uses tenant (xs ++ [a])) strangers q.1 since q.2 s := by
  have hsub : uses tenant xs ⊆ uses tenant (xs ++ [a]) := by
    rw [uses_append]
    exact List.subset_append_left _ _
  cases hstep with
  | request htime =>
    have htenant := of_decide_eq_false ha
    refine h.strangerRequest htenant htime hsub ?_
    intro k hk
    rw [uses_append]
    exact List.mem_append_right _ (by simp [uses, htenant, hk])
  | repair => exact h.strangerRepair (of_decide_eq_false ha) hsub _ _

theorem Sim.both (h : Sim tenant (uses tenant xs) (uses tenant ys) p.1 p'.1 p.2 p'.2)
    (hstep : Serves libs members p a q) (hstep' : Serves libs members p' b q')
    (ha : a.1.belongs tenant = true) (hsame : SameEvent a.1 b.1)
    (hapart : ∀ x ∈ xs, x.1.Apart tenant a.1) (hapart' : ∀ y ∈ ys, y.1.Apart tenant b.1) :
    a.2 = b.2 ∧
      Sim tenant (uses tenant (xs ++ [a])) (uses tenant (ys ++ [b])) q.1 q'.1 q.2 q'.2 := by
  rw [uses_mine ha, uses_mine (hsame.belongs.trans ha)]
  cases hstep with
  | request htime =>
    cases hstep' with
    | request htime' =>
      cases hsame with
      | request henv =>
        have htenant := of_decide_eq_true ha
        have hclear' := clear_uses htenant hapart'
        rw [henv.lookupAt] at hclear'
        obtain ⟨hanswer, hsubmitted, hsim⟩ := h.request htenant henv htime htime'
          (clear_uses htenant hapart) hclear'
        rw [hanswer, hsubmitted]
        exact ⟨rfl, henv.cachedAt ▸ hsim⟩
    | repair => cases hsame
  | repair =>
    cases hstep' with
    | request _ => cases hsame
    | repair =>
      cases hsame
      exact ⟨rfl, h.repair (of_decide_eq_true ha) _ _⟩

variable (libs members tenant) in
theorem unwinding : Unwinding (Serves libs members) (fun x => x.1.belongs tenant)
    (fun x y => SameEvent x.1 y.1) (fun x y => x.1.Apart tenant y.1) (fun x y => x.2 = y.2)
    (fun xs p ys q => Sim tenant (uses tenant xs) (uses tenant ys) p.1 q.1 p.2 q.2) where
  left hsim hstep ha := hsim.stranger hstep ha
  right hsim hstep hb := (hsim.symm.stranger hstep hb).symm
  both hsim hstep hstep' ha hsame hapart hapart' := hsim.both hstep hstep' ha hsame hapart hapart'

end

/-- The tenant's part of a run. -/
def mine (tenant : String) (trace : List (Event × Option Outcome)) :
    List (Event × Option Outcome) :=
  trace.filter fun x => x.1.belongs tenant

theorem Sim.documents (h : Sim tenant strangers strangers' since since' s s')
    (hkey : keyTenant key = tenant.toList) (n : NodeId) :
    ((s.replicas n).held key).map (·.document) =
      ((s'.replicas n).held key).map (·.document) := by
  obtain ⟨cores, R, -, -, htwinned⟩ := h
  have hrel := htwinned.replicas key hkey n
  generalize (s.replicas n).held key = o at hrel ⊢
  generalize (s'.replicas n).held key = o' at hrel ⊢
  cases hrel with
  | none => rfl
  | some hx =>
    obtain ⟨doc, a, a', -, rfl, rfl⟩ := hx
    rfl

/-- Two runs with the same events of the tenant, and any events of others. If nobody else has used
the idempotency keys of the tenant's requests within the retention period before them, the tenant
gets the same answers, writes the same documents and has the same documents stored. -/
theorem tenant_view_independent {node : NodeId} {config : QuorumConfig} {clock clock' : Hlc}
    {trace trace' : List (Event × Option Outcome)} {u u' : Nat × AppState}
    (hrun : Steps (Serves libs members) (0, .initial node config clock) trace u)
    (hrun' : Steps (Serves libs members) (0, .initial node config clock') trace' u')
    (hsame : List.Forall₂ (fun x y => SameEvent x.1 y.1) (mine tenant trace) (mine tenant trace'))
    (hapart : trace.Pairwise fun x y => x.1.Apart tenant y.1)
    (hapart' : trace'.Pairwise fun x y => x.1.Apart tenant y.1) :
    (mine tenant trace).map Prod.snd = (mine tenant trace').map Prod.snd ∧
      ∀ n key, keyTenant key = tenant.toList →
        ((u.2.replicas n).held key).map (·.document) =
          ((u'.2.replicas n).held key).map (·.document) := by
  have hstart : Sim tenant (uses tenant []) (uses tenant []) 0 0 (.initial node config clock)
      (.initial node config clock') := sim_initial
  obtain ⟨hobs, hsim⟩ := (unwinding libs members tenant).run hrun hrun' hstart hsame hapart hapart'
  refine ⟨?_, fun n key hkey => hsim.documents hkey n⟩
  rw [← List.forall₂_eq_eq_eq, List.forall₂_map_left_iff, List.forall₂_map_right_iff]
  exact hobs

/-- The payload hash of the source, with stand-ins for the other libraries. -/
def hashingLibs : Libs := sampleLibs fun payload => (IdempotencyCache.hashPayload payload).toNat

/-- An authorised creation by the tenant. -/
def samplePost (tenant key : String) (body : Bytes) : Request :=
  .create ⟨tenant, "d", "c"⟩ [("idempotency-key", some key)] ⟨some tenant, [.readWrite]⟩ body

/-- What is seen of a request to a service at `s`. -/
def served (s : AppState) (req : Request) (env : RequestEnv) : Event × Option Outcome :=
  (.request req env,
    some ⟨s.respond hashingLibs oneOwner req env, s.submitted hashingLibs oneOwner req env⟩)

def freshService : AppState := .initial ⟨⟨0⟩⟩ ⟨1, 1, 1⟩ .zero

/-- After another tenant's request with the idempotency key `key`. -/
def afterStranger (key : String) : AppState :=
  freshService.after hashingLibs oneOwner (.request (samplePost "b" key [1]) (sampleEnv 1 ⟨1⟩))

/-- A request of tenant `b`, then one of tenant `a`. -/
def strangerFirst (key key' : String) : List (Event × Option Outcome) :=
  [served freshService (samplePost "b" key [1]) (sampleEnv 1 ⟨1⟩),
    served (afterStranger key) (samplePost "a" key' [2]) (sampleEnv 2 ⟨2⟩)]

/-- The request of tenant `a` alone. -/
def tenantAlone (key' : String) : List (Event × Option Outcome) :=
  [served freshService (samplePost "a" key' [2]) (sampleEnv 2 ⟨2⟩)]

theorem timely_sample {since now : Nat} {hlc : Hlc} (hle : since ≤ now)
    (hclock : s.coordinator.clock < hlc) : Timely since s (sampleEnv now hlc) := by
  refine ⟨hle, le_rfl, le_rfl, le_rfl, ?_⟩
  rintro _ ⟨⟩
  exact hclock

theorem steps_strangerFirst (key key' : String)
    (hclock : (afterStranger key).coordinator.clock < ⟨2⟩) : ∃ u,
    Steps (Serves hashingLibs oneOwner) (0, freshService) (strangerFirst key key') u := by
  refine ⟨_, .cons (.request (timely_sample ?_ ?_))
    (.cons (.request (timely_sample ?_ hclock)) .refl)⟩
  · exact Nat.zero_le 1
  · decide
  · exact Nat.le_succ 1

theorem steps_tenantAlone (key' : String) : ∃ u,
    Steps (Serves hashingLibs oneOwner) (0, freshService) (tenantAlone key') u := by
  refine ⟨_, .cons (.request (timely_sample ?_ ?_)) .refl⟩
  · exact Nat.zero_le 2
  · decide

theorem same_sampleRuns (key key' : String) : List.Forall₂ (fun x y => SameEvent x.1 y.1)
    (mine "a" (strangerFirst key key')) (mine "a" (tenantAlone key')) :=
  .cons (.request ⟨rfl, rfl, ⟨rfl, rfl, rfl, rfl, rfl, rfl⟩, rfl⟩) .nil

/-- A stranger under another idempotency key makes no difference. -/
theorem tenant_view_independent_of_other_key :
    (strangerFirst "k" "l").Pairwise (fun x y => x.1.Apart "a" y.1) ∧
      (mine "a" (strangerFirst "k" "l")).map Prod.snd =
        (mine "a" (tenantAlone "l")).map Prod.snd := by
  obtain ⟨u, hrun⟩ := steps_strangerFirst "k" "l" (by decide +kernel)
  obtain ⟨u', hrun'⟩ := steps_tenantAlone "l"
  have hapart : (strangerFirst "k" "l").Pairwise (fun x y => x.1.Apart "a" y.1) := by
    refine .cons ?_ (List.pairwise_singleton _ _)
    intro y hy
    obtain rfl := List.mem_singleton.mp hy
    intro _ _ k hk hk'
    exact absurd (Option.some.inj (hk.trans hk'.symm)) (by decide)
  exact ⟨hapart, (tenant_view_independent hrun hrun' (same_sampleRuns "k" "l") hapart
    (List.pairwise_singleton _ _)).1⟩

/-- A stranger under the same idempotency key: the tenant's creation is answered with a conflict
and not written, where it would have been accepted without the stranger. -/
theorem shared_idempotency_key_interferes :
    (∃ u, Steps (Serves hashingLibs oneOwner) (0, freshService) (strangerFirst "k" "k") u) ∧
      (∃ u, Steps (Serves hashingLibs oneOwner) (0, freshService) (tenantAlone "k") u) ∧
      List.Forall₂ (fun x y => SameEvent x.1 y.1) (mine "a" (strangerFirst "k" "k"))
        (mine "a" (tenantAlone "k")) ∧
      (mine "a" (strangerFirst "k" "k")).map (fun x => x.2.map fun o =>
        (o.response.status, o.submitted.isSome)) = [some (409, false)] ∧
      (mine "a" (tenantAlone "k")).map (fun x => x.2.map fun o =>
        (o.response.status, o.submitted.isSome)) = [some (201, true)] :=
  ⟨steps_strangerFirst "k" "k" (by decide +kernel), steps_tenantAlone "k", same_sampleRuns "k" "k",
    by decide +kernel, by decide +kernel⟩

end BashfulDB.Api
