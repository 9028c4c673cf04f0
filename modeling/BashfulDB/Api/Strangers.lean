import BashfulDB.Api.Tenancy

/-!
What the requests and repairs of other tenants do to a run: nothing to the tenant's objects, and
to the caches only what they leave under their own idempotency keys.
-/
namespace BashfulDB.Api

open Clock Data Replication

variable {libs : Libs} {members : Membership} {tenant : String}
  {strangers strangers' : List (String × Nat)} {since since' : Nat} {cores : Cores}
  {R : Hlc → Hlc → Prop} {s s' t : AppState} {key : ObjectKey} {req : Request} {env : RequestEnv}

/-- From `s` to `t` nothing has happened to the tenant's objects. -/
structure Elsewhere (tenant : String) (s t : AppState) : Prop where
  localNode : t.coordinator.localNode = s.coordinator.localNode
  config : t.coordinator.config = s.coordinator.config
  clock : s.coordinator.clock ≤ t.coordinator.clock
  replicas : ∀ key, keyTenant key = tenant.toList → ∀ n,
    (t.replicas n).held key = (s.replicas n).held key
  pending : ∀ key, keyTenant key = tenant.toList → t.pending key = s.pending key

theorem Twinned.elsewhere (h : Twinned tenant R s s') (hst : Elsewhere tenant s t) :
    Twinned tenant R t s' where
  localNode := h.localNode.trans hst.localNode.symm
  config := h.config.trans hst.config.symm
  twins := h.twins.mono hst.clock le_rfl
  replicas key hkey n := by
    rw [hst.replicas key hkey n, hst.localNode]
    exact h.replicas key hkey n
  pending key hkey := by
    rw [hst.pending key hkey, hst.localNode]
    exact h.pending key hkey

theorem elsewhere_read (hkey : keyTenant key ≠ tenant.toList) (env : Env) :
    Elsewhere tenant s (s.quorumRead libs members key env).2 := by
  refine ⟨rfl, rfl, le_rfl, fun _ _ _ => rfl, ?_⟩
  intro k hk
  have hne : k ≠ key := ne_of_apply_ne keyTenant (hk.trans_ne hkey.symm)
  exact Function.update_of_ne hne _ _

section

variable {res : Except ReplicationError WriteResult × Coordinator × Replicas}
  {doc : Option Document} {env : Env}

/-- An update under another tenant's key. -/
theorem elsewhere_update (hkey : keyTenant key ≠ tenant.toList)
    (hclock : ∀ hlc, env.tick = .ok hlc → s.coordinator.clock ≤ hlc)
    (hcases : (∃ hlc, s.coordinator.Sends s.replicas key doc env hlc res) ∨
      s.coordinator.Stops s.replicas res) :
    Elsewhere tenant s { s with coordinator := res.2.1, replicas := res.2.2 } ∧
      ∀ hlc, env.tick = .ok hlc → res.2.1.clock ≤ hlc := by
  rcases hcases with ⟨hlc, hsends⟩ | hstops
  · refine ⟨⟨hsends.localNode, hsends.config, ?_, ?_, fun _ _ => rfl⟩, ?_⟩
    · rw [hsends.clock]
      exact hclock hlc hsends.tick
    · intro k hk n
      refine hsends.others n k ?_
      rintro ⟨-, hbytes⟩
      exact hkey ((keyTenant_eq_of_toBytes hbytes).symm.trans hk)
    · intro hlc' htick
      rw [hsends.clock, Except.ok.inj (hsends.tick.symm.trans htick)]
  · refine ⟨⟨hstops.localNode, hstops.config, hstops.clock.ge, ?_, fun _ _ => rfl⟩, ?_⟩
    · intro k _ n
      rw [hstops.replicas]
    · intro hlc htick
      rw [hstops.clock]
      exact hclock hlc htick

variable (members) in
/-- A stranger's write leaves its result only under its own idempotency key. -/
theorem shadows_quorumWrite {c : Coordinator} {core : OrdMap String (Bytes × Nat)}
    (h : Expiry.Shadows Entry.createdAt Prod.snd ttl SameEntry strangers since c.idempotency.cache
      core) (hnow : env.now ≤ since) (hstored : env.storedAt ≤ since) {idemKey : Option String}
    (huse : ∀ k, idemKey = some k → (k, since) ∈ strangers) (toVec : Document → Bytes)
    (replicas : Replicas) (key : ObjectKey) (doc : Document) :
    Expiry.Shadows Entry.createdAt Prod.snd ttl SameEntry strangers since
      (c.quorumWrite members toVec replicas key doc idemKey env).2.1.idempotency.cache core := by
  cases idemKey with
  | none =>
    rw [Coordinator.quorumWrite, Coordinator.idempotency_replicate]
    exact h
  | some ikey =>
    have hevicted := h.prune hnow
    rcases c.quorumWrite_idempotency toVec members replicas key env doc ikey with heq | ⟨r, heq⟩
    · rw [heq]
      exact hevicted
    · rw [heq]
      exact (hevicted.prune hstored).insert_stranger (huse ikey rfl) le_rfl hstored

end

/-- A run during the request of a stranger, next to a run that waits. -/
structure Aside (tenant : String) (R : Hlc → Hlc → Prop) (strangers : List (String × Nat))
    (cores : Cores) (env : RequestEnv) (s' s : AppState) : Prop where
  side : Side strangers env.cachedAt cores s
  twinned : Twinned tenant R s s'
  clock : ∀ hlc, env.quorum.tick = .ok hlc → s.coordinator.clock ≤ hlc

/-- No phase of a stranger's request disturbs what the other run shows the tenant. -/
theorem aside_kept {s₀ : AppState} (htenant : req.path.tenant ≠ tenant)
    (htime : Timely since s₀ env)
    (huse : ∀ k, req.idemKey = some k → (k, env.cachedAt) ∈ strangers) :
    AppState.Kept libs members req env (Aside tenant R strangers cores env s') := by
  have hnow := htime.stored.trans htime.cached
  have hother {key : ObjectKey} (hkey : keyTenant key = req.path.tenant.toList) :
      keyTenant key ≠ tenant.toList := by
    rw [hkey]
    exact mt String.toList_inj.mp htenant
  refine ⟨?_, ?_, ?_, ?_⟩
  · intro s payloadHash default h
    rw [s.replay_snd]
    refine ⟨h.side.setCache ?_, h.twinned.setCache _ s'.idempotency, h.clock⟩
    cases req.idemKey with
    | none => exact h.side.cache
    | some k => exact h.side.cache.prune htime.lookupAt_le_cachedAt
  · intro s key hkey h
    refine ⟨h.side.read key env.quorum, h.twinned.elsewhere ?_, h.clock⟩
    exact elsewhere_read (hother hkey) env.quorum
  · intro s key doc payloadHash status location hkey h
    obtain ⟨cache, heq, hcache⟩ :=
      s.writeAndCache_snd key doc req.idemKey payloadHash status location
    rw [heq]
    obtain ⟨helse, hclock⟩ := elsewhere_update (hother hkey) h.clock
      ((s.coordinator.quorumWrite_cases libs.toVec members s.replicas key env.quorum doc
        req.idemKey).imp_right And.left)
    have hstore := shadows_quorumWrite members h.side.store hnow htime.cached huse libs.toVec
      s.replicas key doc
    have htwinned := (h.twinned.elsewhere helse).setCache cache s'.idempotency
    refine ⟨⟨?_, hstore, h.side.filed⟩, htwinned, hclock⟩
    rcases hcache with rfl | ⟨ikey, body, hikey, rfl⟩
    · exact h.side.cache
    · exact h.side.cache.insert_stranger (huse ikey hikey) le_rfl le_rfl
  · intro s key hkey h
    obtain ⟨helse, hclock⟩ := elsewhere_update (hother hkey) h.clock
      ((s.coordinator.replicate_cases members s.replicas key none env.quorum).imp_right And.left)
    refine ⟨⟨h.side.cache, ?_, h.side.filed⟩, h.twinned.elsewhere helse, hclock⟩
    simp only [AppState.quorumDelete, Coordinator.quorumDelete, Coordinator.idempotency_replicate]
    exact h.side.store

theorem Side.mono (h : Side strangers since cores s) (hsub : strangers ⊆ strangers') :
    Side strangers' since cores s :=
  ⟨h.cache.mono hsub, h.store.mono hsub, h.filed⟩

/-- A stranger's request, served in one run while the other waits. -/
theorem Sim.strangerRequest {uses : List (String × Nat)}
    (h : Sim tenant strangers strangers' since since' s s') (htenant : req.path.tenant ≠ tenant)
    (htime : Timely since s env) (hsub : strangers ⊆ uses)
    (huse : ∀ k, req.idemKey = some k → (k, env.cachedAt) ∈ uses) :
    Sim tenant uses strangers' env.cachedAt since' (s.handle libs members req env).2 s' := by
  obtain ⟨cores, R, hside, hside', htwinned⟩ := h
  have hle := htime.lookup.trans htime.lookupAt_le_cachedAt
  have haside : Aside tenant R uses cores env s' s :=
    ⟨(hside.later hle).mono hsub, htwinned, fun hlc htick => (htime.clock hlc htick).le⟩
  have hend : Aside tenant R uses cores env s' (s.handle libs members req env).2 :=
    (aside_kept htenant htime huse).handle haside
  exact ⟨cores, R, hend.side, hside', hend.twinned⟩

theorem Side.repair (h : Side strangers since cores s) (key : ObjectKey) (i : Nat)
    (fate : WriteFate) : Side strangers since cores (s.repair key i fate) := by
  rcases repair_cases s key i fate with ⟨-, heq⟩ | ⟨p, -, heq⟩
  · rw [heq]
    exact h
  · rw [heq]
    refine ⟨h.cache, h.store, ?_⟩
    intro k q hq
    by_cases hk : k = key
    · subst hk
      simp only [Function.update_self] at hq
      exact h.filed k q (List.mem_of_mem_eraseIdx hq)
    · simp only [Function.update_of_ne hk] at hq
      exact h.filed k q hq

theorem elsewhere_repair (h : Side strangers since cores s) (hkey : keyTenant key ≠ tenant.toList)
    (i : Nat) (fate : WriteFate) : Elsewhere tenant s (s.repair key i fate) := by
  rcases repair_cases s key i fate with ⟨-, heq⟩ | ⟨p, hp, heq⟩
  · rw [heq]
    exact ⟨rfl, rfl, le_rfl, fun _ _ _ => rfl, fun _ _ => rfl⟩
  · rw [heq]
    have hpkey : p.2.key = key := h.filed key p (List.mem_of_getElem? hp)
    refine ⟨rfl, rfl, le_rfl, ?_, ?_⟩
    · intro k hk n
      cases hhint : p.2.isHint with
      | true => exact held_remoteWrite_hint hhint
      | false =>
        refine (held_remoteWrite hhint).trans (if_neg ?_)
        rintro ⟨-, -, hbytes⟩
        rw [hpkey] at hbytes
        exact hkey ((keyTenant_eq_of_toBytes hbytes).symm.trans hk)
    · intro k hk
      have hne : k ≠ key := ne_of_apply_ne keyTenant (hk.trans_ne hkey.symm)
      exact Function.update_of_ne hne _ _

/-- A repair of a stranger's object in one run while the other waits. -/
theorem Sim.strangerRepair {uses : List (String × Nat)}
    (h : Sim tenant strangers strangers' since since' s s') (hkey : keyTenant key ≠ tenant.toList)
    (hsub : strangers ⊆ uses) (i : Nat) (fate : WriteFate) :
    Sim tenant uses strangers' since since' (s.repair key i fate) s' := by
  obtain ⟨cores, R, hside, hside', htwinned⟩ := h
  exact ⟨cores, R, (hside.repair key i fate).mono hsub, hside',
    htwinned.elsewhere (elsewhere_repair hside hkey i fate)⟩

theorem forall₂_getElem? {α β : Type*} {r : α → β → Prop} {l : List α} {l' : List β}
    (h : List.Forall₂ r l l') (i : Nat) : Option.Rel r l[i]? l'[i]? := by
  induction h generalizing i with
  | nil => exact .none
  | cons hr _ ih =>
    cases i with
    | zero => exact .some hr
    | succ i => simpa using ih i

theorem Twinned.repair (h : Twinned tenant R s s') (hkey : keyTenant key = tenant.toList) (i : Nat)
    (fate : WriteFate) : Twinned tenant R (s.repair key i fate) (s'.repair key i fate) := by
  have hpending := h.pending key hkey
  have hrel := forall₂_getElem? hpending i
  rcases repair_cases s key i fate with ⟨hnone, heq⟩ | ⟨p, hp, heq⟩ <;>
    rcases repair_cases s' key i fate with ⟨hnone', heq'⟩ | ⟨p', hp', heq'⟩
  · rw [heq, heq']
    exact h
  · rw [hnone, hp'] at hrel
    cases hrel
  · rw [hp, hnone'] at hrel
    cases hrel
  · rw [hp, hp'] at hrel
    cases hrel with
    | some hrepair =>
      rw [heq, heq']
      refine ⟨h.localNode, h.config, h.twins, ?_, ?_⟩
      · intro k hk
        exact (h.replicas k hk).repair hrepair fate
      · intro k hk
        by_cases hkk : k = key
        · subst hkk
          simp only [Function.update_self, List.eraseIdx_eq_take_drop_succ]
          exact List.rel_append (List.forall₂_take i hpending) (List.forall₂_drop (i + 1) hpending)
        · simp only [Function.update_of_ne hkk]
          exact h.pending k hk

/-- A repair of the tenant's object in both runs. -/
theorem Sim.repair (h : Sim tenant strangers strangers' since since' s s')
    (hkey : keyTenant key = tenant.toList) (i : Nat) (fate : WriteFate) :
    Sim tenant strangers strangers' since since' (s.repair key i fate) (s'.repair key i fate) := by
  obtain ⟨cores, R, hside, hside', htwinned⟩ := h
  exact ⟨cores, R, hside.repair key i fate, hside'.repair key i fate, htwinned.repair hkey i fate⟩

end BashfulDB.Api
