import BashfulDB.Library.Digits
import BashfulDB.Library.Text
import BashfulDB.Replication.Replica

/-!
Hinted handoff on the node that keeps the hints. Passes of `deliver_pending_hints` interleave, turn
by turn, with each other and with the requests that the node handles.
-/
namespace BashfulDB.Replication

open Clock Data

/-- Code outside the repository: `Uuid::parse_str`, and what `serde_json` reads back from the bytes
that it wrote for a document. -/
structure Codec where
  parseUuid : String → Option Uuid
  reread : Document → Option Document

/-- Hints older than 24 hours are discarded. -/
def hintTtlMs : Nat := 24 * 3600 * 1000

/-- The request that delivers a hint. -/
def HintValue.request (hint : HintValue) : WriteRequest :=
  ⟨hint.key, hint.versioned.document, hint.versioned.version, hint.versioned.hlc, false, none⟩

/-- What a pass does with one hint. -/
inductive HintFate
  | malformed
  | expired
  | attempt (target : NodeId) (req : WriteRequest)

/-- The body of the loop up to the attempt. -/
def examine (codec : Codec) (nowMs : UInt64) (rawKey : Bytes) (rawVal : HintValue) : HintFate :=
  match Text.splitn '/' 3 (Text.fromUtf8Lossy rawKey) with
  | [target, hlc, _] =>
    match codec.parseUuid (String.ofList target) with
    | none => .malformed
    | some targetNode =>
      match Digits.parseU64 (String.ofList hlc) with
      | none => .malformed
      | some hlcU64 =>
        let hlc := Hlc.fromU64 (UInt64.ofNat hlcU64)
        if nowMs.toNat - hlc.physicalMs.toNat > hintTtlMs then .expired
        else
          match rawVal.reread codec.reread with
          | none => .malformed
          | some hint => .attempt ⟨targetNode⟩ hint.request
  | _ => .malformed

/-- How the deletion of a hint ends. A failed one may have taken effect. -/
inductive Deletion
  | done
  | failed (applied : Bool)
  deriving DecidableEq

/-- What the outside decides in one turn of a pass. -/
structure Turn where
  acked : Bool
  deletion : Deletion

/-- A pass of `deliver_pending_hints`, with what is left of its scan. -/
structure Pass where
  nowMs : UInt64
  rest : List (Bytes × HintValue)
  delivered : Nat
  /-- The answer, once it has returned; `none` in it is a storage error. -/
  answer : Option (Option Nat)

def ReplicaStore.deleteHint (store : ReplicaStore) (rawKey : Bytes) (deletion : Deletion) :
    ReplicaStore :=
  if deletion = .failed false then store else { store with hints := store.hints.erase rawKey }

/-- A pass after a deletion, which ends it if it failed. -/
def Pass.deleted (p : Pass) (deletion : Deletion) (delivered : Nat) : Pass :=
  match deletion with
  | .done => { p with delivered := delivered }
  | .failed _ => { p with answer := some none }

/-- One turn of the loop, with the request that its target acknowledged. -/
def Pass.turn (codec : Codec) (p : Pass) (store : ReplicaStore) (o : Turn) :
    Pass × ReplicaStore × Option (NodeId × WriteRequest) :=
  match p.rest with
  | [] => ({ p with answer := some (some p.delivered) }, store, none)
  | (rawKey, rawVal) :: rest =>
    let p := { p with rest := rest }
    match examine codec p.nowMs rawKey rawVal with
    | .malformed | .expired =>
      (p.deleted o.deletion p.delivered, store.deleteHint rawKey o.deletion, none)
    | .attempt target req =>
      if o.acked then
        (p.deleted o.deletion (p.delivered + 1), store.deleteHint rawKey o.deletion,
          some (target, req))
      else (p, store, none)

/-- A node that keeps hints, every pass that it has started, and what was acknowledged in which. -/
structure HintNode where
  store : ReplicaStore
  passes : List Pass
  acks : List (Nat × NodeId × WriteRequest)

inductive HintEvent
  | handle (d : Delivery)
  | deliverPendingHints (nowMs : UInt64)
  /-- The `i`-th pass takes its next turn. -/
  | turn (i : Nat) (o : Turn)

namespace HintNode

variable (codec : Codec)

def new (nodeId : NodeId) : HintNode := ⟨.new nodeId, [], []⟩

def after (s : HintNode) : HintEvent → HintNode
  | .handle d => { s with store := s.store.deliver d }
  | .deliverPendingHints nowMs =>
    { s with passes := s.passes ++ [⟨nowMs, s.store.hints.entries, 0, none⟩] }
  | .turn i o =>
    match s.passes[i]? with
    | none => s
    | some p =>
      match p.answer with
      | some _ => s
      | none =>
        match p.turn codec s.store o with
        | (p', store, ack) => ⟨store, s.passes.set i p', s.acks ++ ack.toList.map (i, ·)⟩

def run (s : HintNode) (events : List HintEvent) : HintNode := events.foldl (after codec) s

/-- How many hints were acknowledged in the `i`-th pass. -/
def acksOf (s : HintNode) (i : Nat) : Nat := (s.acks.filter (·.1 = i)).length

end HintNode

/-- A hint and the node that it is for. -/
abbrev Hint := NodeId × WriteRequest

namespace Hint

def key (h : Hint) : Bytes := makeHintKey h.1 h.2.hlc h.2.key.objectId

def value (h : Hint) : HintValue := ⟨h.2.key, ⟨h.2.doc, h.2.version, h.2.hlc, h.2.doc.isNone⟩⟩

/-- The write that the hint stands for. -/
def request (h : Hint) : WriteRequest := ⟨h.2.key, h.2.doc, h.2.version, h.2.hlc, false, none⟩

/-- The outside code reads back what this hint was written from. -/
structure Readable (codec : Codec) (h : Hint) : Prop where
  uuid : codec.parseUuid h.1.uuid.hyphenated = some h.1.uuid
  json : h.value.reread codec.reread = some h.value

/-- More than 24 hours old at that time. -/
def Expired (h : Hint) (nowMs : UInt64) : Prop :=
  hintTtlMs < nowMs.toNat - h.2.hlc.physicalMs.toNat

end Hint

/-- The hint that a request makes the node store. -/
def Delivery.hint (d : Delivery) : Option Hint :=
  if d.request.isHint then d.request.hintTarget.map (·, d.request) else none

/-- The hints that a run stores. -/
def storedHints (events : List HintEvent) : List Hint :=
  events.filterMap fun
    | .handle d => d.hint
    | _ => none

/-- In store, acknowledged by its target, or expired at some pass. -/
def HintNode.Safe (s : HintNode) (h : Hint) : Prop :=
  s.store.hints.get h.key = some h.value ∨ (∃ i, (i, h.1, h.request) ∈ s.acks) ∨
    ∃ p ∈ s.passes, h.Expired p.nowMs

variable {codec : Codec} {s : HintNode} {h : Hint} {nowMs : UInt64}

theorem slash_not_mem_hyphenated (u : Uuid) : '/' ∉ u.hyphenated.toList :=
  Uuid.not_mem_hyphenated (by decide) (by decide)

theorem slash_not_mem_toString (n : Nat) : '/' ∉ (toString n).toList := by
  intro h
  obtain ⟨d, hd, heq⟩ := Digits.mem_toString h
  have hall : ∀ d < 10, d.digitChar ≠ '/' := by decide
  exact hall d hd heq.symm

/-- The parts of a key are read back. -/
theorem splitn_key (h : Hint) : Text.splitn '/' 3 (Text.fromUtf8Lossy h.key) =
    [h.1.uuid.hyphenated.toList, (toString h.2.hlc.toU64.toNat).toList,
      h.2.key.objectId.uuid.hyphenated.toList] := by
  have htext : (h.1.uuid.hyphenated ++ "/" ++ toString h.2.hlc.toU64.toNat ++ "/" ++
      h.2.key.objectId.uuid.hyphenated).toList = h.1.uuid.hyphenated.toList ++
        '/' :: ((toString h.2.hlc.toU64.toNat).toList ++
          '/' :: h.2.key.objectId.uuid.hyphenated.toList) := by
    simp
  have hkey : Text.fromUtf8Lossy h.key = h.1.uuid.hyphenated.toList ++
      '/' :: ((toString h.2.hlc.toU64.toNat).toList ++
        '/' :: h.2.key.objectId.uuid.hyphenated.toList) :=
    (Text.fromUtf8Lossy_asBytes _).trans htext
  rw [hkey, Text.splitn_cons (slash_not_mem_hyphenated _),
    Text.splitn_cons (slash_not_mem_toString _)]
  rfl

theorem examine_key (hread : h.Readable codec) :
    examine codec nowMs h.key h.value =
      if hintTtlMs < nowMs.toNat - h.2.hlc.physicalMs.toNat then .expired
      else .attempt h.1 h.request := by
  have hparse := Digits.parseU64_toString h.2.hlc.toU64.toNat_lt
  simp only [examine, splitn_key, String.ofList_toList, hread.uuid, hparse, UInt64.ofNat_toNat,
    hread.json]
  rfl

/-- A pass attempts what it rereads from the hint. -/
theorem reread_of_examine_attempt {rawKey : Bytes} {rawVal : HintValue} {target : NodeId}
    {req : WriteRequest} (h : examine codec nowMs rawKey rawVal = .attempt target req) :
    ∃ hint, rawVal.reread codec.reread = some hint ∧ req = hint.request := by
  unfold examine at h
  split at h
  case h_2 => cases h
  split at h
  · cases h
  split at h
  · cases h
  dsimp only at h
  split at h
  · cases h
  split at h
  · cases h
  case h_2 hint hreread =>
    cases h
    exact ⟨hint, hreread, rfl⟩

/-- What a run that has stored `hints` keeps. -/
structure Keeps (hints : List Hint) (s : HintNode) : Prop where
  store : ∀ k v, s.store.hints.get k = some v → ∃ h ∈ hints, k = h.key ∧ v = h.value
  scans : ∀ p ∈ s.passes, ∀ e ∈ p.rest, ∃ h ∈ hints, e = (h.key, h.value)
  safe : ∀ h ∈ hints, s.Safe h
  acks : ∀ a ∈ s.acks, a.1 < s.passes.length
  running : ∀ i p, s.passes[i]? = some p → p.answer = none → p.delivered = s.acksOf i
  answered : ∀ i p n, s.passes[i]? = some p → p.answer = some (some n) → n = s.acksOf i

variable {hints : List Hint} {d : Delivery} {o : Turn} {i : Nat}

theorem hints_deliver (store : ReplicaStore) (d : Delivery) :
    (store.deliver d).hints =
      d.hint.elim store.hints fun h => store.hints.insert h.key h.value := by
  obtain ⟨handler, req⟩ := d
  cases handler <;> cases hhint : req.isHint <;> cases htarget : req.hintTarget <;>
    simp [ReplicaStore.deliver, ReplicaStore.handleWrite, ReplicaStore.handleDelete,
      ReplicaStore.handle, ReplicaStore.storeHint, Delivery.hint, hhint, htarget, Hint.key,
      Hint.value]

theorem Keeps.handle (hs : Keeps hints s)
    (hkeys : (hints ++ d.hint.toList).Pairwise fun a b => a.key ≠ b.key) :
    Keeps (hints ++ d.hint.toList) (s.after codec (.handle d)) := by
  have hhints := hints_deliver s.store d
  cases hd : d.hint with
  | none =>
    rw [hd] at hhints
    have hstore : (s.after codec (.handle d)).store.hints = s.store.hints := hhints
    simp only [Option.toList_none, List.append_nil]
    exact ⟨by rw [hstore]; exact hs.store, hs.scans, by
      intro h hh
      rw [HintNode.Safe, hstore]
      exact hs.safe h hh, hs.acks, hs.running, hs.answered⟩
  | some new =>
    rw [hd] at hhints hkeys
    have hstore : (s.after codec (.handle d)).store.hints =
        s.store.hints.insert new.key new.value := hhints
    have hne : ∀ h ∈ hints, h.key ≠ new.key := fun h hh =>
      (List.pairwise_append.mp hkeys).2.2 h hh new (by simp)
    refine ⟨?_, ?_, ?_, hs.acks, hs.running, hs.answered⟩
    · intro k v hget
      rw [hstore] at hget
      by_cases hk : k = new.key
      · rw [hk, OrdMap.get_insert_self] at hget
        exact ⟨new, by simp, hk, (Option.some.inj hget).symm⟩
      · rw [OrdMap.get_insert_of_ne _ hk] at hget
        obtain ⟨h, hh, hkv⟩ := hs.store k v hget
        exact ⟨h, List.mem_append_left _ hh, hkv⟩
    · intro p hp e he
      obtain ⟨h, hh, heq⟩ := hs.scans p hp e he
      exact ⟨h, List.mem_append_left _ hh, heq⟩
    · intro h hh
      rw [HintNode.Safe, hstore]
      rcases List.mem_append.mp hh with hh | hh
      · rw [OrdMap.get_insert_of_ne _ (hne h hh)]
        exact hs.safe h hh
      · rw [List.mem_singleton.mp hh]
        exact Or.inl (OrdMap.get_insert_self _)

theorem getElem?_concat_cases {passes : List Pass} {p q : Pass} {i : Nat}
    (h : (passes ++ [p])[i]? = some q) : passes[i]? = some q ∨ i = passes.length ∧ q = p := by
  rcases Nat.lt_trichotomy i passes.length with hlt | rfl | hgt
  · rw [List.getElem?_append_left hlt] at h
    exact Or.inl h
  · rw [List.getElem?_concat_length] at h
    exact Or.inr ⟨rfl, (Option.some.inj h).symm⟩
  · rw [List.getElem?_eq_none (by rw [List.length_append]; exact hgt)] at h
    cases h

/-- A new pass scans what is in store. -/
theorem Keeps.deliverPendingHints (hs : Keeps hints s) :
    Keeps hints (s.after codec (.deliverPendingHints nowMs)) := by
  have hget (i : Nat) (p : Pass)
      (hp : (s.after codec (.deliverPendingHints nowMs)).passes[i]? = some p) :
      s.passes[i]? = some p ∨ i = s.passes.length ∧
        p = ⟨nowMs, s.store.hints.entries, 0, none⟩ := getElem?_concat_cases hp
  refine ⟨hs.store, ?_, ?_, ?_, ?_, ?_⟩
  · intro p hp e he
    rcases List.mem_append.mp hp with hp | hp
    · exact hs.scans p hp e he
    · rw [List.mem_singleton.mp hp] at he
      obtain ⟨h, hh, hk, hv⟩ := hs.store e.1 e.2 (OrdMap.get_eq_some_iff.mpr he)
      exact ⟨h, hh, Prod.ext hk hv⟩
  · intro h hh
    rcases hs.safe h hh with hstore | hack | ⟨p, hp, hexpired⟩
    · exact Or.inl hstore
    · exact Or.inr (Or.inl hack)
    · exact Or.inr (Or.inr ⟨p, List.mem_append_left _ hp, hexpired⟩)
  · intro a ha
    have := hs.acks a ha
    simp only [HintNode.after, List.length_append, List.length_singleton]
    omega
  · intro i p hp hanswer
    rcases hget i p hp with hp | ⟨rfl, rfl⟩
    · exact hs.running i p hp hanswer
    · -- Nothing was acknowledged in a pass that had not started.
      have hnone : s.acks.filter (·.1 = s.passes.length) = [] := by
        refine List.filter_eq_nil_iff.mpr fun a ha => ?_
        have := hs.acks a ha
        simp only [decide_eq_true_eq]
        omega
      exact (congrArg List.length hnone).symm
  · intro i p n hp hanswer
    rcases hget i p hp with hp | ⟨rfl, rfl⟩
    · exact hs.answered i p n hp hanswer
    · cases hanswer

/-- What one turn of a pass over these hints can do. -/
structure TurnEffect (hints : List Hint) (p : Pass) (store : ReplicaStore)
    (res : Pass × ReplicaStore × Option (NodeId × WriteRequest)) : Prop where
  nowMs : res.1.nowMs = p.nowMs
  rest : res.1.rest ⊆ p.rest
  store : res.2.1.hints = store.hints ∨ ∃ h ∈ hints, res.2.1.hints = store.hints.erase h.key ∧
    (res.2.2 = some (h.1, h.request) ∨ h.Expired p.nowMs)
  running : res.1.answer = none → res.1.delivered = p.delivered + res.2.2.toList.length
  answered : ∀ n, res.1.answer = some (some n) → n = p.delivered + res.2.2.toList.length

/-- A turn that deletes a hint for a reason. -/
theorem turnEffect_deleted {p : Pass} {store : ReplicaStore} {e : Bytes × HintValue}
    {rest : List (Bytes × HintValue)} (ack : Option (NodeId × WriteRequest)) (hh : h ∈ hints)
    (hrest : p.rest = e :: rest) (deletion : Deletion)
    (hreason : ack = some (h.1, h.request) ∨ h.Expired p.nowMs) (hanswer : p.answer = none) :
    TurnEffect hints p store (Pass.deleted { p with rest := rest } deletion
      (p.delivered + ack.toList.length), store.deleteHint h.key deletion, ack) := by
  have hsub : rest ⊆ p.rest := by
    rw [hrest]
    exact List.subset_cons_self e rest
  cases deletion with
  | done =>
    refine ⟨rfl, hsub, Or.inr ⟨h, hh, rfl, hreason⟩, fun _ => rfl, fun n hn => ?_⟩
    cases hanswer.symm.trans hn
  | failed applied =>
    refine ⟨rfl, hsub, ?_, by rintro ⟨⟩, by rintro n ⟨⟩⟩
    cases applied with
    | false => exact Or.inl rfl
    | true => exact Or.inr ⟨h, hh, rfl, hreason⟩

theorem turnEffect {p : Pass} (store : ReplicaStore) (hread : ∀ h ∈ hints, h.Readable codec)
    (hscan : ∀ e ∈ p.rest, ∃ h ∈ hints, e = (h.key, h.value)) (hanswer : p.answer = none) :
    TurnEffect hints p store (p.turn codec store o) := by
  unfold Pass.turn
  cases hrest : p.rest with
  | nil =>
    refine ⟨rfl, List.nil_subset _, Or.inl rfl, by rintro ⟨⟩, ?_⟩
    rintro n ⟨⟩
    rfl
  | cons e rest =>
    obtain ⟨h, hh, rfl⟩ := hscan e (by rw [hrest]; exact List.mem_cons_self ..)
    simp only [examine_key (hread h hh)]
    by_cases hexpired : hintTtlMs < p.nowMs.toNat - h.2.hlc.physicalMs.toNat
    · rw [if_pos hexpired]
      exact turnEffect_deleted none hh hrest o.deletion (Or.inr hexpired) hanswer
    · rw [if_neg hexpired]
      dsimp only
      cases o.acked with
      | true =>
        exact turnEffect_deleted (some _) hh hrest o.deletion (Or.inl rfl) hanswer
      | false =>
        refine ⟨rfl, ?_, Or.inl rfl, fun _ => rfl, fun n hn => ?_⟩
        · rw [hrest]
          exact List.subset_cons_self _ rest
        · cases hanswer.symm.trans hn

theorem acksOf_append (ack : Option (NodeId × WriteRequest)) (store : ReplicaStore)
    (passes : List Pass) (i j : Nat) :
    HintNode.acksOf ⟨store, passes, s.acks ++ ack.toList.map (i, ·)⟩ j =
      s.acksOf j + if j = i then ack.toList.length else 0 := by
  unfold HintNode.acksOf
  rw [List.filter_append, List.length_append]
  cases ack with
  | none => simp
  | some a =>
    by_cases hj : j = i
    · simp [hj]
    · simp [hj, Ne.symm hj]

theorem after_turn_cases (codec : Codec) (s : HintNode) (i : Nat) (o : Turn) :
    s.after codec (.turn i o) = s ∨ ∃ p, s.passes[i]? = some p ∧ p.answer = none ∧
      s.after codec (.turn i o) = ⟨(p.turn codec s.store o).2.1,
        s.passes.set i (p.turn codec s.store o).1,
        s.acks ++ (p.turn codec s.store o).2.2.toList.map (i, ·)⟩ := by
  cases hpass : s.passes[i]? with
  | none => exact Or.inl (by simp only [HintNode.after, hpass])
  | some p =>
    cases hanswer : p.answer with
    | some answer => exact Or.inl (by simp only [HintNode.after, hpass, hanswer])
    | none => exact Or.inr ⟨p, rfl, hanswer, by simp only [HintNode.after, hpass, hanswer]⟩

theorem getElem?_set_cases {passes : List Pass} {p q : Pass} {i j : Nat}
    (h : (passes.set i p)[j]? = some q) : j = i ∧ q = p ∨ j ≠ i ∧ passes[j]? = some q := by
  rw [List.getElem?_set] at h
  by_cases hj : i = j
  · rw [if_pos hj] at h
    split at h
    · exact Or.inl ⟨hj.symm, (Option.some.inj h).symm⟩
    · cases h
  · rw [if_neg hj] at h
    exact Or.inr ⟨Ne.symm hj, h⟩

/-- A pass deletes a hint that is acknowledged or expired, and no other hint has its key. -/
theorem HintNode.Safe.turn {p : Pass} {res : Pass × ReplicaStore × Option (NodeId × WriteRequest)}
    (hsafe : s.Safe h) (hh : h ∈ hints) (hkeys : hints.Pairwise fun a b => a.key ≠ b.key)
    (hpass : s.passes[i]? = some p) (heffect : TurnEffect hints p s.store res) :
    HintNode.Safe ⟨res.2.1, s.passes.set i res.1, s.acks ++ res.2.2.toList.map (i, ·)⟩ h := by
  have hi : i < s.passes.length := (List.getElem?_eq_some_iff.mp hpass).1
  have hset : res.1 ∈ s.passes.set i res.1 := List.mem_set hi _
  rcases hsafe with hstore | ⟨j, hack⟩ | ⟨q, hq, hexpired⟩
  · rcases heffect.store with hsame | ⟨h', hh', herase, hreason⟩
    · exact Or.inl (by rw [hsame]; exact hstore)
    · by_cases hkey : h.key = h'.key
      · have heq : h = h' := by
          by_contra hne
          have : Std.Symm fun a b : Hint => a.key ≠ b.key := ⟨fun _ _ => Ne.symm⟩
          exact List.Pairwise.forall hkeys hh hh' hne hkey
        subst heq
        rcases hreason with hack | hexpired
        · refine Or.inr (Or.inl ⟨i, List.mem_append_right _ ?_⟩)
          rw [hack]
          exact List.mem_singleton_self _
        · exact Or.inr (Or.inr ⟨res.1, hset, by rwa [heffect.nowMs]⟩)
      · refine Or.inl ?_
        dsimp only
        rw [herase, OrdMap.get_erase, if_neg hkey]
        exact hstore
  · exact Or.inr (Or.inl ⟨j, List.mem_append_left _ hack⟩)
  · -- The pass is still there, or has gone on with its own time.
    refine Or.inr (Or.inr ?_)
    obtain ⟨j, hj⟩ := List.mem_iff_getElem?.mp hq
    by_cases hji : j = i
    · subst hji
      rw [hpass] at hj
      cases hj
      exact ⟨res.1, hset, by rwa [heffect.nowMs]⟩
    · exact ⟨q, List.mem_iff_getElem?.mpr ⟨j, by rwa [List.getElem?_set_ne (Ne.symm hji)]⟩,
        hexpired⟩

theorem Keeps.turn (hs : Keeps hints s) (hread : ∀ h ∈ hints, h.Readable codec)
    (hkeys : hints.Pairwise fun a b => a.key ≠ b.key) :
    Keeps hints (s.after codec (.turn i o)) := by
  rcases after_turn_cases codec s i o with hsame | ⟨p, hpass, hanswer, hafter⟩
  · rwa [hsame]
  have hp : p ∈ s.passes := List.mem_of_getElem? hpass
  have heffect := turnEffect (o := o) s.store hread (hs.scans p hp) hanswer
  rw [hafter]
  generalize p.turn codec s.store o = res at heffect
  refine ⟨?_, ?_, fun h hh => (hs.safe h hh).turn hh hkeys hpass heffect, ?_, ?_, ?_⟩
  · intro k v hk
    rcases heffect.store with hstore | ⟨h, -, hstore, -⟩
    · exact hs.store k v (hstore ▸ hk)
    · rw [hstore, OrdMap.get_erase] at hk
      split at hk
      · cases hk
      · exact hs.store k v hk
  · intro q hq e he
    rcases List.mem_or_eq_of_mem_set hq with hq | rfl
    · exact hs.scans q hq e he
    · exact hs.scans p hp e (heffect.rest he)
  · intro a ha
    rw [List.length_set]
    rcases List.mem_append.mp ha with ha | ha
    · exact hs.acks a ha
    · obtain ⟨b, -, rfl⟩ := List.mem_map.mp ha
      exact (List.getElem?_eq_some_iff.mp hpass).1
  · intro j q hq hrunning
    rw [acksOf_append]
    rcases getElem?_set_cases hq with ⟨rfl, rfl⟩ | ⟨hj, hq⟩
    · rw [heffect.running hrunning, hs.running j p hpass hanswer, if_pos rfl]
    · rw [hs.running j q hq hrunning, if_neg hj, Nat.add_zero]
  · intro j q n hq hn
    rw [acksOf_append]
    rcases getElem?_set_cases hq with ⟨rfl, rfl⟩ | ⟨hj, hq⟩
    · rw [heffect.answered n hn, hs.running j p hpass hanswer, if_pos rfl]
    · rw [hs.answered j q n hq hn, if_neg hj, Nat.add_zero]

theorem keeps_run (nodeId : NodeId) {events : List HintEvent}
    (hkeys : (storedHints events).Pairwise fun a b => a.key ≠ b.key)
    (hread : ∀ h ∈ storedHints events, h.Readable codec) :
    Keeps (storedHints events) ((HintNode.new nodeId).run codec events) := by
  induction events using List.reverseRecOn with
  | nil =>
    exact ⟨by rintro k v ⟨⟩, by rintro p ⟨⟩, by rintro h ⟨⟩, by rintro a ⟨⟩, by rintro i p ⟨⟩,
      by rintro i p n ⟨⟩⟩
  | append_singleton events e ih =>
    have hrun : (HintNode.new nodeId).run codec (events ++ [e]) =
        ((HintNode.new nodeId).run codec events).after codec e := List.foldl_append
    have hstored : storedHints (events ++ [e]) = storedHints events ++ storedHints [e] :=
      List.filterMap_append
    rw [hstored] at hkeys hread ⊢
    have hs := ih (List.pairwise_append.mp hkeys).1 fun h hh =>
      hread h (List.mem_append_left _ hh)
    rw [hrun]
    cases e with
    | handle d =>
      have hone : storedHints [.handle d] = d.hint.toList := by
        cases hd : d.hint <;> simp [storedHints, hd]
      rw [hone] at hkeys ⊢
      exact hs.handle hkeys
    | deliverPendingHints nowMs =>
      rw [show storedHints [.deliverPendingHints nowMs] = [] from rfl, List.append_nil]
      exact hs.deliverPendingHints
    | turn i o =>
      rw [show storedHints [.turn i o] = [] from rfl, List.append_nil]
      exact hs.turn (fun h hh => hread h (List.mem_append_left _ hh))
        (List.pairwise_append.mp hkeys).1

/-- At every moment each stored hint is in store, or its target acknowledged it, or it had expired
at some pass; and a pass answers with the number of hints that were acknowledged in it. -/
theorem pending_hint_not_lost (codec : Codec) (nodeId : NodeId) (events : List HintEvent)
    (hkeys : (storedHints events).Pairwise fun a b => a.key ≠ b.key)
    (hread : ∀ h ∈ storedHints events, h.Readable codec) :
    (∀ h ∈ storedHints events, ((HintNode.new nodeId).run codec events).Safe h) ∧
      ∀ i p n, ((HintNode.new nodeId).run codec events).passes[i]? = some p →
        p.answer = some (some n) → n = ((HintNode.new nodeId).run codec events).acksOf i := by
  have hs := keeps_run nodeId hkeys hread
  exact ⟨hs.safe, hs.answered⟩

/-- Outside code that knows one node. -/
def oneNodeCodec : Codec :=
  ⟨fun text => if text = (⟨2⟩ : Uuid).hyphenated then some ⟨2⟩ else none, some⟩

/-- A hint whose first delivery fails and whose second one is acknowledged. -/
def secondAttempt : List HintEvent :=
  [.handle ⟨.write, sampleKey, some (.blank ⟨⟨0⟩⟩), .single ⟨⟨1⟩⟩ ⟨1⟩, ⟨1⟩, true, some ⟨⟨2⟩⟩⟩,
    .deliverPendingHints 1, .turn 0 ⟨false, .done⟩, .turn 0 ⟨false, .done⟩,
    .deliverPendingHints 2, .turn 1 ⟨true, .done⟩, .turn 1 ⟨true, .done⟩]

theorem pending_hint_not_lost_secondAttempt :
    ((HintNode.new ⟨⟨9⟩⟩).run oneNodeCodec secondAttempt).passes.map Pass.answer =
        [some (some 0), some (some 1)] ∧
      (∀ h ∈ storedHints secondAttempt,
        ((HintNode.new ⟨⟨9⟩⟩).run oneNodeCodec secondAttempt).Safe h) ∧
      ∀ i p n, ((HintNode.new ⟨⟨9⟩⟩).run oneNodeCodec secondAttempt).passes[i]? = some p →
        p.answer = some (some n) →
          n = ((HintNode.new ⟨⟨9⟩⟩).run oneNodeCodec secondAttempt).acksOf i := by
  have hread : ∀ h ∈ storedHints secondAttempt, h.Readable oneNodeCodec := by
    intro h hh
    rw [List.mem_singleton.mp hh]
    exact ⟨by decide +kernel, rfl⟩
  exact ⟨by decide +kernel, pending_hint_not_lost oneNodeCodec ⟨⟨9⟩⟩ secondAttempt
    (List.pairwise_singleton _ _) hread⟩

end BashfulDB.Replication
