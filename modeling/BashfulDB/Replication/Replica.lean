import Mathlib.Data.List.Lex
import BashfulDB.Replication.Resolve

/-! The per-node replica store, and what a sequence of write requests leaves in it. -/
namespace BashfulDB.Replication

open Clock Data

structure ObjectKey where
  collection : String
  objectId : ObjectId
  deriving DecidableEq

def ObjectKey.toBytes (key : ObjectKey) : Bytes :=
  (key.collection ++ "/" ++ toString key.objectId).asBytes

theorem ObjectKey.toBytes_inj {k k' : ObjectKey} (h : k.toBytes = k'.toBytes) : k = k' := by
  obtain ⟨collection, ⟨u⟩⟩ := k
  obtain ⟨collection', ⟨u'⟩⟩ := k'
  have hlist := congrArg String.toList (String.asBytes_inj h)
  have htext : (collection ++ "/" ++ u.hyphenated).toList =
      (collection' ++ "/" ++ u'.hyphenated).toList := hlist
  simp only [String.toList_append] at htext
  -- The text of an id has a fixed length.
  obtain ⟨hfront, hid⟩ := List.append_inj' htext
    (by rw [Uuid.length_hyphenated, Uuid.length_hyphenated])
  have hcollection : collection = collection' :=
    String.toList_injective (List.append_cancel_right hfront)
  rw [hcollection, Uuid.hyphenated_inj (String.toList_injective hid)]

inductive ReplicationError
  | insufficientReplicas (needed available : Nat)
  | idempotencyConflict
  | transportError (message : String)
  | clock (error : ClockError)
  | vectorClock (error : ClockError)
  deriving DecidableEq

structure WriteRequest where
  key : ObjectKey
  doc : Option Document
  version : VectorClock
  hlc : Hlc
  isHint : Bool
  hintTarget : Option NodeId

structure WriteResponse where
  version : VectorClock

structure HintValue where
  key : ObjectKey
  versioned : VersionedDoc

/-- The record that `from_slice` reads from the JSON of `v`, when `reread` is what it reads from the
JSON of a document: numbers without a fraction, ids and flags are read as they were written. -/
def VersionedDoc.reread (reread : Document → Option Document) (v : VersionedDoc) :
    Option VersionedDoc :=
  match v.document with
  | none => some v
  | some doc => (reread doc).map fun doc => { v with document := some doc }

/-- Whatever is read back of a record, only the content of a document can be another. -/
theorem VersionedDoc.reread_eq {reread : Document → Option Document} {v w : VersionedDoc}
    (h : v.reread reread = some w) :
    w = { v with document := w.document } ∧ w.document.isNone = v.document.isNone := by
  unfold VersionedDoc.reread at h
  cases hdoc : v.document with
  | none =>
    simp only [hdoc, Option.some.injEq] at h
    subst h
    exact ⟨rfl, by rw [hdoc]⟩
  | some doc =>
    simp only [hdoc, Option.map_eq_some_iff] at h
    obtain ⟨doc', -, rfl⟩ := h
    exact ⟨rfl, rfl⟩

/-- Which of two versions wins is not a matter of their documents. -/
theorem Prevails.reread {reread : Document → Option Document} {v w e : VersionedDoc}
    (h : Prevails w v) (he : v.reread reread = some e) : Prevails w e := by
  rw [(VersionedDoc.reread_eq he).1]
  exact h

/-- A document that is read back as it was written, or not at all. -/
def Faithful (reread : Document → Option Document) (doc : Document) : Prop :=
  ∀ doc', reread doc = some doc' → doc' = doc

theorem VersionedDoc.reread_faithful {reread : Document → Option Document} {v w : VersionedDoc}
    (hdoc : ∀ doc, v.document = some doc → Faithful reread doc) (h : v.reread reread = some w) :
    w = v := by
  unfold VersionedDoc.reread at h
  cases hv : v.document with
  | none =>
    simp only [hv, Option.some.injEq] at h
    exact h.symm
  | some doc =>
    simp only [hv, Option.map_eq_some_iff] at h
    obtain ⟨doc', hread, rfl⟩ := h
    rw [hdoc doc hv doc' hread, ← hv]

theorem reread_some (v : VersionedDoc) : v.reread some = some v := by
  obtain ⟨_ | doc, _, _, _⟩ := v <;> rfl

theorem faithful_some (doc : Document) : Faithful some doc := by
  rintro _ ⟨⟩
  rfl

/-- What is read from the JSON of a hint. -/
def HintValue.reread (reread : Document → Option Document) (hint : HintValue) :
    Option HintValue :=
  (hint.versioned.reread reread).map fun versioned => { hint with versioned := versioned }

/-- A node's replica: its `default` and `hints` column families, holding the values whose JSON
encodings are stored. -/
structure ReplicaStore where
  nodeId : NodeId
  default : OrdMap Bytes VersionedDoc
  hints : OrdMap Bytes HintValue

def makeHintKey (target : NodeId) (hlc : Hlc) (objectId : ObjectId) : Bytes :=
  (target.uuid.hyphenated ++ "/" ++ toString hlc.toU64 ++ "/" ++ toString objectId).asBytes

namespace ReplicaStore

def new (nodeId : NodeId) : ReplicaStore := ⟨nodeId, OrdMap.empty, OrdMap.empty⟩

def storeHint (store : ReplicaStore) (target : NodeId) (req : WriteRequest) : ReplicaStore :=
  let hintKey := makeHintKey target req.hlc req.key.objectId
  let hintValue := ⟨req.key, ⟨req.doc, req.version, req.hlc, req.doc.isNone⟩⟩
  { store with hints := store.hints.insert hintKey hintValue }

/-- Both handlers: a hint is kept aside, any other request puts `versioned` unconditionally. -/
def handle (store : ReplicaStore) (req : WriteRequest) (missingTarget : String)
    (versioned : VersionedDoc) : Except ReplicationError WriteResponse × ReplicaStore :=
  if req.isHint then
    match req.hintTarget with
    | none => (.error (.transportError missingTarget), store)
    | some target => (.ok ⟨req.version⟩, store.storeHint target req)
  else
    (.ok ⟨req.version⟩, { store with default := store.default.insert req.key.toBytes versioned })

theorem handle_of_not_hint {store : ReplicaStore} {req : WriteRequest} {missingTarget : String}
    {versioned : VersionedDoc} (h : req.isHint = false) :
    store.handle req missingTarget versioned =
      (.ok ⟨req.version⟩,
        { store with default := store.default.insert req.key.toBytes versioned }) := by
  simp [handle, h]

def handleWrite (store : ReplicaStore) (req : WriteRequest) :
    Except ReplicationError WriteResponse × ReplicaStore :=
  store.handle req "hint write missing hint_target" ⟨req.doc, req.version, req.hlc, false⟩

def handleDelete (store : ReplicaStore) (req : WriteRequest) :
    Except ReplicationError WriteResponse × ReplicaStore :=
  store.handle req "hint delete missing hint_target" (.tombstone req.version req.hlc)

/-- The record under the key, as it was written. -/
def held (store : ReplicaStore) (key : ObjectKey) : Option VersionedDoc :=
  store.default.get key.toBytes

/-- The document part of the answer to a read request; `none` is the error of a record that is not
read back. -/
def handleRead (reread : Document → Option Document) (store : ReplicaStore) (key : ObjectKey) :
    Option (Option VersionedDoc) :=
  match store.held key with
  | none => some none
  | some v => (v.reread reread).map some

theorem handleRead_eq_some {reread : Document → Option Document} {store : ReplicaStore}
    {key : ObjectKey} {w : VersionedDoc} :
    store.handleRead reread key = some (some w) ↔
      ∃ v, store.held key = some v ∧ v.reread reread = some w := by
  unfold handleRead
  cases store.held key <;> simp

end ReplicaStore

/-- The two write handlers of a replica. -/
inductive Handler
  | write
  | delete
  deriving DecidableEq

/-- A request together with the handler it is delivered to. -/
structure Delivery where
  handler : Handler
  request : WriteRequest

/-- What the request makes the replica hold, if it is not a hint. -/
def Delivery.versioned (d : Delivery) : VersionedDoc :=
  match d.handler with
  | .write => ⟨d.request.doc, d.request.version, d.request.hlc, false⟩
  | .delete => .tombstone d.request.version d.request.hlc

@[simp] theorem Delivery.versioned_version (d : Delivery) :
    d.versioned.version = d.request.version := by
  obtain ⟨handler, req⟩ := d
  cases handler <;> rfl

/-- A delivery that writes under `key` itself rather than keeping a hint. -/
structure Delivery.Writes (key : ObjectKey) (d : Delivery) : Prop where
  key_eq : d.request.key = key
  not_hint : d.request.isHint = false

/-- The key of the concrete runs below. -/
def sampleKey : ObjectKey := ⟨"c", ⟨⟨0⟩⟩⟩

/-- A write of an empty document, stamped by `node` at `hlc`. -/
def Delivery.put (node : NodeId) (hlc : Hlc) : Delivery :=
  ⟨.write, sampleKey, some (.blank ⟨⟨0⟩⟩), .single node hlc, hlc, false, none⟩

theorem Delivery.put_writes (node : NodeId) (hlc : Hlc) : (put node hlc).Writes sampleKey :=
  ⟨rfl, rfl⟩

namespace ReplicaStore

variable {store store' : ReplicaStore} {key : ObjectKey} {d : Delivery} {ds ds' : List Delivery}

def deliver (store : ReplicaStore) (d : Delivery) : ReplicaStore :=
  match d.handler with
  | .write => (store.handleWrite d.request).2
  | .delete => (store.handleDelete d.request).2

def deliverAll (store : ReplicaStore) (ds : List Delivery) : ReplicaStore := ds.foldl deliver store

/-- A request for the key replaces whatever the replica held. -/
theorem held_deliver (h : d.Writes key) :
    (store.deliver d).held key = some d.versioned := by
  obtain ⟨handler, req⟩ := d
  obtain ⟨rfl, hhint⟩ := h
  cases handler <;>
    simp [deliver, handleWrite, handleDelete, handle_of_not_hint hhint, held,
      Delivery.versioned]

theorem held_deliverAll (h : ∀ d ∈ ds, d.Writes key) :
    (store.deliverAll ds).held key =
      (ds.getLast?.map Delivery.versioned).or (store.held key) := by
  induction ds using List.reverseRecOn with
  | nil => simp [deliverAll]
  | append_singleton ds d _ =>
    have hd : d.Writes key := h d (by simp)
    simp [deliverAll, held_deliver hd]

/-- After every request, the version just stored is not causally before the one it replaced. -/
def NeverBackward (store : ReplicaStore) (key : ObjectKey) (ds : List Delivery) : Prop :=
  ∀ pre d post, ds = pre ++ d :: post → ∀ old new,
    (store.deliverAll pre).held key = some old →
      (store.deliverAll (pre ++ [d])).held key = some new →
        new.version.compare old.version ≠ .before

theorem neverBackward_cons : NeverBackward store key (d :: ds) ↔
    (∀ old new, store.held key = some old → (store.deliver d).held key = some new →
      new.version.compare old.version ≠ .before) ∧ NeverBackward (store.deliver d) key ds := by
  constructor
  · intro h
    refine ⟨h [] d ds rfl, fun pre e post heq => ?_⟩
    exact h (d :: pre) e post (by simp [heq])
  · rintro ⟨hfirst, hrest⟩ pre e post heq
    cases pre with
    | nil =>
      obtain ⟨rfl, rfl⟩ := List.cons.inj heq
      exact hfirst
    | cons a pre =>
      obtain ⟨rfl, rfl⟩ := List.cons.inj heq
      exact hrest pre e post rfl

/-- A replica's version never moves backward exactly when no request is causally before the
one delivered just before it, the first counting after what the replica already held. -/
theorem neverBackward_iff (hds : ∀ d ∈ ds, d.Writes key) :
    store.NeverBackward key ds ↔
      (((store.held key).map VersionedDoc.version).toList ++
        ds.map (fun d => d.request.version)).IsChain (fun v w => w.compare v ≠ .before) := by
  induction ds generalizing store with
  | nil =>
    have hnil : store.NeverBackward key [] := by
      intro pre d post heq
      simp at heq
    cases store.held key <;> simp [hnil]
  | cons d ds ih =>
    obtain ⟨hd, hds⟩ := List.forall_mem_cons.mp hds
    rw [neverBackward_cons, ih hds, held_deliver hd]
    cases store.held key <;> simp [List.isChain_cons_cons]

theorem neverBackward_iff_forward :
    (ReplicaStore.new ⟨⟨1⟩⟩).NeverBackward sampleKey [.put ⟨⟨1⟩⟩ ⟨1⟩, .put ⟨⟨1⟩⟩ ⟨2⟩] :=
  (neverBackward_iff (by simp [Delivery.put_writes])).mpr (by decide)

/-- A delayed repair or hint can put an old version back. -/
theorem neverBackward_fails :
    ∃ (store : ReplicaStore) (key : ObjectKey) (ds : List Delivery),
      (∀ d ∈ ds, d.Writes key) ∧ ¬ store.NeverBackward key ds := by
  refine ⟨.new ⟨⟨1⟩⟩, sampleKey, [.put ⟨⟨1⟩⟩ ⟨2⟩, .put ⟨⟨1⟩⟩ ⟨1⟩], by simp [Delivery.put_writes],
    fun h => ?_⟩
  exact h [.put ⟨⟨1⟩⟩ ⟨2⟩] (.put ⟨⟨1⟩⟩ ⟨1⟩) [] rfl _ _
    (held_deliverAll (by simp [Delivery.put_writes]))
    (held_deliverAll (by simp [Delivery.put_writes])) rfl

/-- Two replicas that start empty and process the same requests agree exactly when both
process the same request last. -/
theorem replicas_agree_iff {n n' : NodeId} (hperm : ds.Perm ds') (hds : ∀ d ∈ ds, d.Writes key)
    (hver : ds.Pairwise (fun a b => a.request.version.compare b.request.version ≠ .equal)) :
    ((new n).deliverAll ds).held key = ((new n').deliverAll ds').held key ↔
      ds.getLast? = ds'.getLast? := by
  have hds' : ∀ d ∈ ds', d.Writes key := fun d hd => hds d (hperm.mem_iff.mpr hd)
  have : Std.Symm (fun a b : Delivery =>
      a.request.version.compare b.request.version ≠ .equal) :=
    ⟨fun _ _ hxy hyx => hxy (VectorClock.compare_equal_symm.mp hyx)⟩
  have hinj : ∀ d ∈ ds, ∀ d' ∈ ds, d.versioned = d'.versioned → d = d' := by
    intro d hd d' hd' heq
    by_contra hne
    refine List.Pairwise.forall hver hd hd' hne ?_
    rw [← d.versioned_version, ← d'.versioned_version, heq]
    exact VectorClock.compare_equal_iff.mpr ⟨.refl _, .refl _⟩
  rw [held_deliverAll hds, held_deliverAll hds']
  cases hlast : ds.getLast? with
  | none => cases ds'.getLast? <;> simp [new, held]
  | some d =>
    cases hlast' : ds'.getLast? with
    | none => simp [new, held]
    | some d' =>
      have hd : d ∈ ds := List.mem_of_getLast? hlast
      have hd' : d' ∈ ds := hperm.mem_iff.mpr (List.mem_of_getLast? hlast')
      simp only [Option.map_some, Option.some_or, Option.some.injEq]
      exact ⟨hinj d hd d' hd', congrArg _⟩

theorem replicas_agree_iff_same_last :
    ((new ⟨⟨1⟩⟩).deliverAll [.put ⟨⟨1⟩⟩ ⟨1⟩, .put ⟨⟨2⟩⟩ ⟨2⟩, .put ⟨⟨1⟩⟩ ⟨3⟩]).held sampleKey =
      ((new ⟨⟨2⟩⟩).deliverAll [.put ⟨⟨2⟩⟩ ⟨2⟩, .put ⟨⟨1⟩⟩ ⟨1⟩, .put ⟨⟨1⟩⟩ ⟨3⟩]).held
        sampleKey :=
  (replicas_agree_iff (List.Perm.swap _ _ _) (by simp [Delivery.put_writes]) (by decide)).mpr rfl

/-- Two concurrent writes that arrive in opposite orders leave the replicas apart. -/
theorem replicas_diverge :
    ∃ (key : ObjectKey) (ds ds' : List Delivery), ds.Perm ds' ∧ (∀ d ∈ ds, d.Writes key) ∧
      ds.Pairwise (fun a b => a.request.version.compare b.request.version ≠ .equal) ∧
        ((new ⟨⟨1⟩⟩).deliverAll ds).held key ≠
          ((new ⟨⟨2⟩⟩).deliverAll ds').held key := by
  refine ⟨sampleKey, [.put ⟨⟨1⟩⟩ ⟨1⟩, .put ⟨⟨2⟩⟩ ⟨2⟩], [.put ⟨⟨2⟩⟩ ⟨2⟩, .put ⟨⟨1⟩⟩ ⟨1⟩],
    List.Perm.swap _ _ _, by simp [Delivery.put_writes], by decide, ?_⟩
  rw [held_deliverAll (by simp [Delivery.put_writes]),
    held_deliverAll (by simp [Delivery.put_writes])]
  intro h
  exact absurd (congrArg VersionedDoc.hlc (Option.some.inj h)) (by decide)

end ReplicaStore

end BashfulDB.Replication
