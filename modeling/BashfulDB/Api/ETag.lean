import BashfulDB.Api.Objects
import BashfulDB.Library.Digits
import BashfulDB.Library.Steps

/-! What an ETag says about the version it was made from, and which `If-Match` headers fail. -/
namespace BashfulDB.Api

open Clock Data Replication

variable {hash : Bytes → Nat} {v w : VectorClock}

theorem hexDigits_inj {m n : Nat} (h : hexDigits m = hexDigits n) : m = n :=
  Digits.toDigits_inj (by decide) (by decide) (String.ofList_injective h)

/-- The debug text of a clock shows the number of its entries and nothing else. -/
theorem debugVectorClock_inj (h : debugVectorClock v = debugVectorClock w) : v.len = w.len := by
  have hlist := congrArg String.toList h
  simp only [debugVectorClock, String.toList_append, List.append_assoc,
    Nat.toString_eq_ofList_toDigits, String.toList_ofList, List.append_cancel_left_eq,
    List.append_cancel_right_eq] at hlist
  exact Digits.toDigits_inj (by decide) (by decide) hlist

theorem etagFromVersion_eq_iff (hinj : Function.Injective hash) :
    etagFromVersion hash v = etagFromVersion hash w ↔ v.len = w.len := by
  refine ⟨?_, etagFromVersion_congr⟩
  intro h
  have hlist := congrArg String.toList h
  simp only [etagFromVersion, String.toList_append, List.append_assoc,
    List.append_cancel_left_eq, List.append_cancel_right_eq] at hlist
  exact debugVectorClock_inj
    (String.asBytes_inj (hinj (hexDigits_inj (String.toList_injective hlist))))

theorem mem_hexDigits {c : Char} {n : Nat} (h : c ∈ (hexDigits n).toList) : c ≠ '"' ∧ c ≠ '*' := by
  rw [hexDigits, String.toList_ofList] at h
  obtain ⟨d, hd, rfl⟩ := Digits.mem_toDigits (by decide) h
  have hall : ∀ d : Fin 16, d.val.digitChar ≠ '"' ∧ d.val.digitChar ≠ '*' := by decide
  exact hall ⟨d, hd⟩

theorem dropWhile_quote {l : List Char} (h : ∀ c ∈ l, c ≠ '"') (hne : l ≠ []) (r : List Char) :
    ('"' :: (l ++ r)).dropWhile (· == '"') = l ++ r := by
  cases l with
  | nil => exact absurd rfl hne
  | cons c l =>
    have hc : c ≠ '"' := h c (by simp)
    simp [hc]

/-- Trimming takes exactly the two quotes off an ETag. -/
theorem trimQuotes_etagFromVersion : trimQuotes (etagFromVersion hash v) =
    hexDigits (hash (debugVectorClock v).asBytes) := by
  rw [etagFromVersion]
  generalize hash (debugVectorClock v).asBytes = n
  have hquote : ∀ c ∈ (hexDigits n).toList, c ≠ '"' := fun c hc => (mem_hexDigits hc).1
  have hne : (hexDigits n).toList ≠ [] := by simp [hexDigits]
  have hfront := dropWhile_quote hquote hne ['"']
  have hback := dropWhile_quote (fun c hc => hquote c (List.mem_reverse.mp hc))
    (List.reverse_ne_nil_iff.mpr hne) []
  simp only [List.append_nil] at hback
  have hlist : ("\"" ++ hexDigits n ++ "\"").toList = '"' :: ((hexDigits n).toList ++ ['"']) := by
    simp
  rw [trimQuotes, hlist, hfront, List.reverse_append]
  simp only [List.reverse_singleton, List.singleton_append, hback, List.reverse_reverse,
    String.ofList_toList]

theorem trimQuotes_etagFromVersion_ne_star : trimQuotes (etagFromVersion hash v) ≠ "*" := by
  rw [trimQuotes_etagFromVersion]
  intro heq
  exact (mem_hexDigits (c := '*') (by rw [heq]; decide)).2 rfl

/-- An `If-Match` header that is itself an ETag passes exactly when it is the current one. -/
theorem checkIfMatch_etag {headers : HeaderMap}
    (h : optHeader headers "if-match" = some (etagFromVersion hash v)) :
    (etagFromVersion hash v = etagFromVersion hash w ∧
        checkIfMatch headers (etagFromVersion hash w) = .ok ()) ∨
      (etagFromVersion hash v ≠ etagFromVersion hash w ∧
        ∃ m, checkIfMatch headers (etagFromVersion hash w) = .error (.preconditionFailed m)) := by
  simp only [checkIfMatch, h]
  by_cases heq : etagFromVersion hash v = etagFromVersion hash w
  · refine Or.inl ⟨heq, ?_⟩
    simp [heq]
  · refine Or.inr ⟨heq, ?_⟩
    have hne : trimQuotes (etagFromVersion hash v) ≠ trimQuotes (etagFromVersion hash w) := by
      rw [trimQuotes_etagFromVersion, trimQuotes_etagFromVersion]
      intro hhex
      exact heq (by rw [etagFromVersion, etagFromVersion, hhex])
    exact ⟨_, if_pos ⟨trimQuotes_etagFromVersion_ne_star, hne⟩⟩

/-- Every version in the state has exactly one entry. -/
structure SingleEntry (s : AppState) : Prop where
  replicas : ∀ n k x, (s.replicas n).held k = some x → x.version.len = 1
  pending : ∀ k, ∀ p ∈ s.pending k, p.2.isHint = false ∧ p.2.version.len = 1

inductive Move
  | event (e : Event)
  | foreign (node : NodeId) (req : WriteRequest) (fate : WriteFate)

/-- The service takes a step of its own, or a write that another coordinator stamped is sent
to a replica. -/
inductive Step (libs : Libs) (members : Membership) : AppState → Move → AppState → Prop
  | event {s : AppState} {e : Event} : Step libs members s (.event e) (s.after libs members e)
  | foreign {s : AppState} {node c : NodeId} {hlc : Hlc} {req : WriteRequest} {fate : WriteFate} :
      req.version = .single c hlc →
      Step libs members s (.foreign node req fate)
        { s with replicas := remoteWrite s.replicas node req fate }

variable {libs : Libs} {members : Membership} {s t : AppState}

theorem singleEntry_initial (node : NodeId) (config : QuorumConfig) (clock : Hlc) :
    SingleEntry (.initial node config clock) where
  replicas n k x h := by cases h
  pending k p h := by cases h

theorem SingleEntry.remoteWrite (h : SingleEntry s) {node : NodeId} {req : WriteRequest}
    {fate : WriteFate} (hreq : req.version.len = 1) {n : NodeId} {k : ObjectKey} {x : VersionedDoc}
    (hx : (remoteWrite s.replicas node req fate n).held k = some x) : x.version.len = 1 := by
  cases hhint : req.isHint with
  | true =>
    rw [held_remoteWrite_hint hhint] at hx
    exact h.replicas n k x hx
  | false =>
    rw [held_remoteWrite hhint] at hx
    split at hx
    · cases hx
      exact hreq
    · exact h.replicas n k x hx

theorem SingleEntry.update (h : SingleEntry s) {key : ObjectKey} {doc : Option Document} {env : Env}
    {res : Except ReplicationError WriteResult × Coordinator × Replicas}
    (hres : (∃ hlc, s.coordinator.Sends s.replicas key doc env hlc res) ∨
      s.coordinator.Stops s.replicas res) {n : NodeId} {k : ObjectKey} {x : VersionedDoc}
    (hx : (res.2.2 n).held k = some x) : x.version.len = 1 := by
  rcases hres with ⟨hlc, hsends⟩ | hstops
  · by_cases hreach : Reached env.writes n ∧ k.toBytes = key.toBytes
    · rw [hsends.reached n k hreach.1 hreach.2] at hx
      cases hx
      rfl
    · rw [hsends.others n k hreach] at hx
      exact h.replicas n k x hx
  · rw [hstops.replicas] at hx
    exact h.replicas n k x hx

theorem SingleEntry.winner (h : SingleEntry s) {key : ObjectKey} {env : Env} {x : VersionedDoc}
    (hx : resolveConflict (Coordinator.answers libs.reread s.replicas key env) = some x) :
    x.version.len = 1 := by
  obtain ⟨n, v, -, hv, hread⟩ := Coordinator.mem_answers.mp (resolveConflict_mem hx)
  rw [(VersionedDoc.reread_eq hread).1]
  exact h.replicas n key v hv

/-- A read that returns a document returns a version with one entry. -/
theorem SingleEntry.read (h : SingleEntry s) {key : ObjectKey} {env : Env} {result : ReadResult}
    (hread : (s.coordinator.quorumRead members libs.reread s.replicas key env).1 = .ok result)
    (hsome : result.document.isSome) : result.version.len = 1 := by
  rcases s.coordinator.quorumRead_cases members libs.reread s.replicas key env with
    ⟨e, heq⟩ | ⟨-, ⟨-, heq⟩ | ⟨winner, stale, hwin, heq⟩⟩ <;> rw [heq] at hread <;> cases hread
  · cases hsome
  · exact h.winner hwin

theorem SingleEntry.repairs (h : SingleEntry s) {key : ObjectKey} {env : Env}
    {p : NodeId × WriteRequest}
    (hp : p ∈ (s.coordinator.quorumRead members libs.reread s.replicas key env).2) :
    p.2.isHint = false ∧ p.2.version.len = 1 := by
  rcases s.coordinator.quorumRead_cases members libs.reread s.replicas key env with
    ⟨e, heq⟩ | ⟨-, ⟨-, heq⟩ | ⟨winner, stale, hwin, heq⟩⟩ <;> rw [heq] at hp
  · cases hp
  · cases hp
  · obtain ⟨node, -, rfl⟩ := List.mem_map.mp hp
    exact ⟨rfl, h.winner hwin⟩

theorem singleEntry_kept (req : Request) (env : RequestEnv) :
    AppState.Kept libs members req env SingleEntry where
  replay s payloadHash default h := by
    rw [s.replay_snd]
    exact ⟨h.replicas, h.pending⟩
  read s key _ h := by
    refine ⟨h.replicas, ?_⟩
    intro k p hp
    by_cases hk : k = key
    · subst hk
      simp only [AppState.quorumRead, Function.update_self] at hp
      rcases List.mem_append.mp hp with hp | hp
      · exact h.pending k p hp
      · exact h.repairs hp
    · simp only [AppState.quorumRead, Function.update_of_ne hk] at hp
      exact h.pending k p hp
  write s key doc payloadHash status location _ h := by
    have hcases := s.coordinator.quorumWrite_cases libs.toVec members s.replicas key env.quorum doc
      req.idemKey
    obtain ⟨cache, heq, -⟩ := s.writeAndCache_snd key doc req.idemKey payloadHash status location
    rw [heq]
    exact ⟨fun n k x hx => h.update (hcases.imp_right And.left) hx, h.pending⟩
  delete s key _ h := by
    have hcases := s.coordinator.replicate_cases members s.replicas key none env.quorum
    exact ⟨fun n k x hx => h.update (hcases.imp_right And.left) hx, h.pending⟩

theorem SingleEntry.repair (h : SingleEntry s) (key : ObjectKey) (i : Nat) (fate : WriteFate) :
    SingleEntry (s.repair key i fate) := by
  unfold AppState.repair
  split
  · exact h
  · rename_i node req hget
    have hmem : (node, req) ∈ s.pending key := List.mem_of_getElem? hget
    refine ⟨fun n k x hx => h.remoteWrite (h.pending key _ hmem).2 hx, ?_⟩
    intro k p hp
    by_cases hk : k = key
    · subst hk
      simp only [Function.update_self] at hp
      exact h.pending k p (List.mem_of_mem_eraseIdx hp)
    · simp only [Function.update_of_ne hk] at hp
      exact h.pending k p hp

theorem singleEntry_step {m : Move} (hstep : Step libs members s m t) (h : SingleEntry s) :
    SingleEntry t := by
  cases hstep with
  | @event e =>
    cases e with
    | request req env => exact (singleEntry_kept req env).handle h
    | repair key i fate => exact h.repair key i fate
  | foreign hreq => exact ⟨fun n k x hx => h.remoteWrite (by rw [hreq]; rfl) hx, h.pending⟩

/-- The handler of a write gets as far as its precondition, which it checks against the version
of the document it has read. -/
inductive Compares (libs : Libs) (members : Membership) (s : AppState) (env : RequestEnv) :
    Request → VectorClock → Prop
  | upsert {path : ObjectPath} {id : String} {headers : HeaderMap} {claims : Auth.Claims}
      {body : Bytes} {key : ObjectKey} {json : JsonValue} {result : ReadResult} :
      admissionOf libs path id claims .update = .ok key →
      (s.replay (optHeader headers "idempotency-key") (libs.hashPayload body) 200
        env.lookupAt).1 = .ok none →
      parseBody libs body = .ok json →
      (s.coordinator.quorumRead members libs.reread s.replicas key env.quorum).1 = .ok result →
      result.document.isSome →
      Compares libs members s env (.upsert path id headers claims body) result.version
  | delete {path : ObjectPath} {id : String} {headers : HeaderMap} {claims : Auth.Claims}
      {key : ObjectKey} {result : ReadResult} :
      admissionOf libs path id claims .delete = .ok key →
      (s.coordinator.quorumRead members libs.reread s.replicas key env.quorum).1 = .ok result →
      result.document.isSome →
      Compares libs members s env (.delete path id headers claims) result.version

/-- The request is refused for its precondition and no replica changes. -/
def Refused (libs : Libs) (members : Membership) (s : AppState) (req : Request)
    (env : RequestEnv) : Prop :=
  (s.respond libs members req env).status = 412 ∧
    (s.handle libs members req env).2.replicas = s.replicas

theorem status_ofReplication_ne (e : ReplicationError) :
    (ApiError.ofReplication e).intoResponse.status ≠ 412 := by
  cases e <;> simp [ApiError.ofReplication, ApiError.intoResponse, ApiError.statusAndCode]

theorem status_buildDocument_ne {id : ObjectId} {json : JsonValue} {e : ApiError}
    (h : buildDocument libs id json = .error e) : e.intoResponse.status ≠ 412 := by
  obtain ⟨data, hdata⟩ := exists_jsonToValue libs.displayNumber json
  rw [buildDocument, hdata, Except.ok_bind] at h
  cases hdoc : Document.new id data with
  | ok doc =>
    rw [hdoc] at h
    cases h
  | error err =>
    rw [hdoc] at h
    cases h
    simp [ApiError.ofDocument, ApiError.intoResponse, ApiError.statusAndCode]

theorem status_writeAndCache_ne {key : ObjectKey} {doc : Document} {idemKey : Option String}
    {payloadHash status : Nat} {location : Option String} {env : RequestEnv} (h : status ≠ 412) :
    (Response.ofResult (s.writeAndCache libs members key doc idemKey payloadHash status location
      env).1).status ≠ 412 := by
  unfold AppState.writeAndCache
  split
  · exact status_ofReplication_ne _
  · exact h

/-- A write that compares ETags is refused exactly when they differ. -/
theorem refused_iff {req : Request} {env : RequestEnv} (h : Compares libs members s env req w)
    (hmatch : optHeader req.headers "if-match" = some (etagFromVersion libs.hashPayload v)) :
    Refused libs members s req env ↔
      etagFromVersion libs.hashPayload v ≠ etagFromVersion libs.hashPayload w := by
  cases h with
  | @upsert path id headers claims body key json result hadmitted hreplay hjson hread hsome =>
    have hboth : s.replay (optHeader headers "idempotency-key") (libs.hashPayload body) 200
        env.lookupAt = (.ok none, _) := Prod.ext hreplay (s.replay_snd _ _ _ _)
    simp only [Refused, AppState.respond, AppState.handle, AppState.upsertObject, hadmitted, hboth,
      hjson, AppState.quorumRead, hread, AppState.upsertAfterRead, upsertDocument, upsertDocumentBy,
      Except.toOption, Option.filter, hsome, if_true]
    rcases checkIfMatch_etag (w := result.version) hmatch with ⟨heq, hok⟩ | ⟨hne, m, herror⟩
    · simp only [heq, ne_eq, not_true_eq_false, iff_false, not_and]
      rw [Request.headers] at hok
      rw [hok]
      refine fun hstatus => absurd hstatus ?_
      rw [Except.ok_bind]
      split
      · rename_i hbuild
        exact status_buildDocument_ne hbuild
      · exact status_writeAndCache_ne (by simp)
    · rw [Request.headers] at herror
      rw [herror]
      simp [hne, Response.ofResult, ApiError.intoResponse, ApiError.statusAndCode]
  | @delete path id headers claims key result hadmitted hread hsome =>
    simp only [Refused, AppState.respond, AppState.handle, AppState.deleteObject, hadmitted,
      AppState.quorumRead, hread]
    rw [if_neg (by simp [Option.isSome_iff_ne_none.mp hsome])]
    rcases checkIfMatch_etag (w := result.version) hmatch with ⟨heq, hok⟩ | ⟨hne, m, herror⟩
    · simp only [heq, ne_eq, not_true_eq_false, iff_false, not_and]
      rw [Request.headers] at hok
      rw [hok]
      refine fun hstatus => absurd hstatus ?_
      dsimp only
      split
      · exact status_ofReplication_ne _
      · simp [Response.ofResult]
    · rw [Request.headers] at herror
      rw [herror]
      simp [hne, Response.ofResult, ApiError.intoResponse, ApiError.statusAndCode]

/-- ETags tell versions apart only by their number of entries. In every run, whatever
coordinators take part in it, a stored version has one entry, and so has every version that was
overwritten: an `If-Match` header made from it is never refused. -/
theorem etag_distinguishes_iff (libs : Libs) (members : Membership)
    (hinj : Function.Injective libs.hashPayload) :
    (∀ v w : VectorClock, etagFromVersion libs.hashPayload v ≠ etagFromVersion libs.hashPayload w ↔
      v.len ≠ w.len) ∧
    ∀ (node : NodeId) (config : QuorumConfig) (clock : Hlc) (moves : List Move) (s : AppState),
      Steps (Step libs members) (.initial node config clock) moves s →
      ∀ (req : Request) (env : RequestEnv) (v w : VectorClock), Compares libs members s env req w →
        optHeader req.headers "if-match" = some (etagFromVersion libs.hashPayload v) →
        (Refused libs members s req env ↔ v.len ≠ 1) := by
  refine ⟨fun v w => not_congr (etagFromVersion_eq_iff hinj), ?_⟩
  intro node config clock moves s hrun req env v w hcompares hmatch
  have hsingle : SingleEntry s :=
    hrun.invariant (fun _ _ _ => singleEntry_step) (singleEntry_initial node config clock)
  have hw : w.len = 1 := by
    cases hcompares with
    | upsert _ _ _ hread hsome => exact hsingle.read hread hsome
    | delete _ hread hsome => exact hsingle.read hread hsome
  rw [refused_iff hcompares hmatch, ne_eq, etagFromVersion_eq_iff hinj, hw]

/-- An injective stand-in for the payload hash: base 257, without the digit zero. -/
def wideHash : Bytes → Nat
  | [] => 0
  | b :: bytes => 257 * wideHash bytes + b.toNat + 1

theorem wideHash_injective : Function.Injective wideHash := by
  intro a
  induction a with
  | nil =>
    intro b h
    cases b with
    | nil => rfl
    | cons y b => simp [wideHash] at h
  | cons x a ih =>
    intro b h
    cases b with
    | nil => simp [wideHash] at h
    | cons y b =>
      have hx := x.toNat_lt
      have hy := y.toNat_lt
      simp only [wideHash] at h
      have hrest : wideHash a = wideHash b := by omega
      have hbyte : x.toNat = y.toNat := by omega
      rw [ih hrest, UInt8.toNat_inj.mp hbyte]

def samplePut (headers : HeaderMap) : Request :=
  .upsert ⟨"a", "d", "c"⟩ "0" headers ⟨some "a", [.readWrite]⟩ []

/-- The service after two writes of the same object. -/
def afterTwoPuts : AppState :=
  ((AppState.initial ⟨⟨0⟩⟩ ⟨1, 1, 1⟩ .zero).after (sampleLibs wideHash) oneOwner
    (.request (samplePut []) (sampleEnv 1 ⟨1⟩))).after (sampleLibs wideHash) oneOwner
      (.request (samplePut []) (sampleEnv 2 ⟨2⟩))

/-- The ETag of the first of the two writes, sent back after the second. -/
def staleHeader : HeaderMap := [("if-match", some (etagFromVersion wideHash (.single ⟨⟨0⟩⟩ ⟨1⟩)))]

theorem afterTwoPuts_compares : ∃ w, Compares (sampleLibs wideHash) oneOwner afterTwoPuts
    (sampleEnv 3 ⟨3⟩) (samplePut staleHeader) w := by
  have hread : ((afterTwoPuts.coordinator.quorumRead oneOwner some afterTwoPuts.replicas
      ⟨"a/d/c", ⟨⟨0⟩⟩⟩ (sampleEnv 3 ⟨3⟩).quorum).1.toOption.map (·.document.isSome)) =
      some true := by
    decide +kernel
  obtain ⟨result, hresult, hsome⟩ := Option.map_eq_some_iff.mp hread
  cases heq : (afterTwoPuts.coordinator.quorumRead oneOwner some afterTwoPuts.replicas
      ⟨"a/d/c", ⟨⟨0⟩⟩⟩ (sampleEnv 3 ⟨3⟩).quorum).1 with
  | error e =>
    rw [heq] at hresult
    cases hresult
  | ok result =>
    rw [heq] at hresult
    cases hresult
    exact ⟨_, .upsert (by decide +kernel) rfl rfl heq hsome⟩

theorem etag_distinguishes_iff_after_two_puts : Function.Injective wideHash ∧
    (Refused (sampleLibs wideHash) oneOwner afterTwoPuts (samplePut staleHeader)
      (sampleEnv 3 ⟨3⟩) ↔ (VectorClock.single ⟨⟨0⟩⟩ ⟨1⟩).len ≠ 1) := by
  obtain ⟨w, hcompares⟩ := afterTwoPuts_compares
  exact ⟨wideHash_injective, (etag_distinguishes_iff (sampleLibs wideHash) oneOwner
    wideHash_injective).2 _ _ _ _ _ (.cons .event (.cons .event .refl)) _ _ _ _ hcompares rfl⟩

/-- Two different versions share an ETag: the one from before the second write is accepted
after it, and the document is written again. -/
theorem overwritten_etag_accepted : Function.Injective wideHash ∧
    VectorClock.single ⟨⟨0⟩⟩ ⟨1⟩ ≠ VectorClock.single ⟨⟨0⟩⟩ ⟨2⟩ ∧
    etagFromVersion wideHash (.single ⟨⟨0⟩⟩ ⟨1⟩) = etagFromVersion wideHash (.single ⟨⟨0⟩⟩ ⟨2⟩) ∧
    ((afterTwoPuts.replicas ⟨⟨0⟩⟩).held ⟨"a/d/c", ⟨⟨0⟩⟩⟩).map (·.version) =
      some (.single ⟨⟨0⟩⟩ ⟨2⟩) ∧
    (afterTwoPuts.respond (sampleLibs wideHash) oneOwner (samplePut staleHeader)
      (sampleEnv 3 ⟨3⟩)).status = 200 ∧
    (((afterTwoPuts.handle (sampleLibs wideHash) oneOwner (samplePut staleHeader)
      (sampleEnv 3 ⟨3⟩)).2.replicas ⟨⟨0⟩⟩).held ⟨"a/d/c", ⟨⟨0⟩⟩⟩).map (·.version) =
      some (.single ⟨⟨0⟩⟩ ⟨3⟩) :=
  ⟨wideHash_injective, by decide +kernel⟩

end BashfulDB.Api
