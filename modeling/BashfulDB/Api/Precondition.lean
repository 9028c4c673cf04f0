import BashfulDB.Api.ETag

/-! What an `If-Match` header of a PUT makes sure of, after each outcome of the read before it. -/
namespace BashfulDB.Api

open Clock Data Replication

variable {libs : Libs} {members : Membership} {s : AppState} {path : ObjectPath} {id : String}
  {headers : HeaderMap} {claims : Auth.Claims} {body : Bytes} {env : RequestEnv}
  {key : ObjectKey} {json : JsonValue} {v : String}

section

variable (libs : Libs) (members : Membership) (s : AppState) (env : RequestEnv)

/-- The document that the read of a PUT returned, with its version. -/
def AppState.found (key : ObjectKey) : Option ReadResult :=
  (s.coordinator.quorumRead members libs.reread s.replicas key env.quorum).1.toOption.filter
    (·.document.isSome)

/-- A PUT of `key` that is let in, is not answered from a cache, and has the body of a document. -/
structure Ready (path : ObjectPath) (id : String) (headers : HeaderMap) (claims : Auth.Claims)
    (body : Bytes) (key : ObjectKey) : Prop where
  admitted : admissionOf libs path id claims .update = .ok key
  fresh : (s.replay (optHeader headers "idempotency-key") (libs.hashPayload body) 200
    env.lookupAt).1 = .ok none
  built : ∃ json doc, parseBody libs body = .ok json ∧
    buildDocument libs key.objectId json = .ok doc

/-- The PUT writes only over a document whose ETag is `v`, up to quotes. -/
def Enforced (path : ObjectPath) (id : String) (headers : HeaderMap) (claims : Auth.Claims)
    (body : Bytes) (v : String) : Prop :=
  ∀ key doc, s.submitted libs members (.upsert path id headers claims body) env =
      some (key, doc) → ∃ result, s.found libs members env key = some result ∧
        trimQuotes v = trimQuotes (etagFromVersion libs.hashPayload result.version)

end

/-- A PUT writes where it is ready to and its header passes against what the read returned. -/
theorem exists_submitted_iff :
    (∃ doc, s.submitted libs members (.upsert path id headers claims body) env =
        some (key, doc)) ↔
      Ready libs s env path id headers claims body key ∧
        ∀ result, s.found libs members env key = some result →
          checkIfMatch headers (etagFromVersion libs.hashPayload result.version) = .ok () := by
  simp only [AppState.submitted]
  constructor
  · rintro ⟨doc, h⟩
    split at h
    · next k json hadmitted hfresh hparsed =>
      split at h
      · next doc hbuilt =>
        cases h
        obtain ⟨hcheck, hbuilt⟩ := upsertDocument_eq_ok.mp hbuilt
        exact ⟨⟨hadmitted, hfresh, json, doc, hparsed, hbuilt⟩, hcheck⟩
      · cases h
    · cases h
  · rintro ⟨⟨hadmitted, hfresh, json, doc, hparsed, hbuilt⟩, hcheck⟩
    have hdoc := upsertDocument_eq_ok.mpr ⟨hcheck, hbuilt⟩
    unfold AppState.found at hdoc
    simp only [hadmitted, hfresh, hparsed, hdoc]
    exact ⟨_, rfl⟩

theorem checkIfMatch_eq_ok {etag : String} (hmatch : optHeader headers "if-match" = some v) :
    checkIfMatch headers etag = .ok () ↔ trimQuotes v = "*" ∨ trimQuotes v = trimQuotes etag := by
  simp only [checkIfMatch, hmatch]
  split
  · next hne => simp [hne]
  · next hne =>
    rw [not_and_or, not_not, not_not] at hne
    simp [hne]

/-- An ETag that no version has, and a star in quotes. -/
def strayHeader : HeaderMap := [("if-match", some "\"abc\"")]

def starHeader : HeaderMap := [("if-match", some "\"*\"")]

/-- The node that owns every key answers no read. -/
def failedReads (env : RequestEnv) : RequestEnv :=
  { env with quorum := { env.quorum with reads := [] } }

end BashfulDB.Api
