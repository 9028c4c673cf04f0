import BashfulDB.Replication.Hints

/-! Which hints a node still holds, before any delivery pass, and which have replaced others. -/
namespace BashfulDB.Replication

open Clock Data

variable {store : ReplicaStore} {ds : List Delivery} {h h' : Hint}

/-- The hints that a list of requests makes a node store. -/
def acceptedHints (ds : List Delivery) : List Hint := ds.filterMap Delivery.hint

/-- The node still holds the hint. -/
def ReplicaStore.Holds (store : ReplicaStore) (h : Hint) : Prop :=
  store.hints.get h.key = some h.value

/-- The hints agree in all that their keys are made of. -/
structure Hint.Collides (h h' : Hint) : Prop where
  target : h.1 = h'.1
  hlc : h.2.hlc = h'.2.hlc
  objectId : h.2.key.objectId = h'.2.key.objectId

theorem Hint.key_eq_iff : h.key = h'.key ↔ h.Collides h' := by
  constructor
  · intro heq
    have hparts := splitn_key h
    rw [heq, splitn_key h'] at hparts
    simp only [List.cons.injEq, and_true] at hparts
    obtain ⟨htarget, hhlc, hobject⟩ := hparts
    have huuid : h'.1.uuid = h.1.uuid := Uuid.hyphenated_inj (String.toList_injective htarget)
    have hid : h'.2.key.objectId.uuid = h.2.key.objectId.uuid :=
      Uuid.hyphenated_inj (String.toList_injective hobject)
    have hraw : h'.2.hlc.toU64.toNat = h.2.hlc.toU64.toNat := by
      rw [Digits.toList_toString, Digits.toList_toString] at hhlc
      exact Digits.toDigits_inj (by decide) (by decide) hhlc
    exact ⟨congrArg NodeId.mk huuid.symm, congrArg Hlc.mk (UInt64.toNat_inj.mp hraw).symm,
      congrArg ObjectId.mk hid.symm⟩
  · rintro ⟨htarget, hhlc, hobject⟩
    rw [Hint.key, Hint.key, htarget, hhlc, hobject]

/-- Requests put the hints they carry, one after the other. -/
theorem hints_deliverAll (store : ReplicaStore) (ds : List Delivery) :
    (store.deliverAll ds).hints =
      store.hints.insertAll ((acceptedHints ds).map fun h => (h.key, h.value)) := by
  induction ds generalizing store with
  | nil => rfl
  | cons d ds ih =>
    rw [ReplicaStore.deliverAll, List.foldl_cons, ← ReplicaStore.deliverAll, ih, hints_deliver]
    cases hd : d.hint with
    | none => simp [acceptedHints, hd]
    | some h => simp [acceptedHints, hd, OrdMap.insertAll]

/-- All the hints that a node has accepted are still there exactly when those that agree in target,
HLC and object id are one hint. -/
theorem hints_retained_iff (store : ReplicaStore) (ds : List Delivery) :
    (∀ h ∈ acceptedHints ds, (store.deliverAll ds).Holds h) ↔
      ∀ h ∈ acceptedHints ds, ∀ h' ∈ acceptedHints ds, h.Collides h' → h.value = h'.value := by
  constructor
  · intro hheld h hh h' hh' hcollides
    have hget := hheld h hh
    rw [ReplicaStore.Holds, Hint.key_eq_iff.mpr hcollides, hheld h' hh'] at hget
    exact (Option.some.inj hget).symm
  · intro hsame h hh
    have hcoherent : OrdMap.Coherent ((acceptedHints ds).map fun h => (h.key, h.value)) := by
      intro p hp q hq hkey
      obtain ⟨a, ha, rfl⟩ := List.mem_map.mp hp
      obtain ⟨b, hb, rfl⟩ := List.mem_map.mp hq
      exact hsame a ha b hb (Hint.key_eq_iff.mp hkey)
    rw [ReplicaStore.Holds, hints_deliverAll, OrdMap.get_insertAll hcoherent]
    exact Or.inl (List.mem_map.mpr ⟨h, hh, rfl⟩)

/-- A hint for the second node: a write of one object of a collection, stamped by `node`. -/
def hintFor (collection : String) (node : NodeId) : WriteRequest :=
  ⟨⟨collection, ⟨⟨0⟩⟩⟩, some (.blank ⟨⟨0⟩⟩), .single node ⟨5⟩, ⟨5⟩, true, some ⟨⟨2⟩⟩⟩

/-- A hint is replaced by one for an object of the same id in another collection, and by one that
another coordinator stamped with the same HLC. -/
theorem hint_overwritten :
    ¬ ((ReplicaStore.new ⟨⟨9⟩⟩).deliverAll
        [⟨.write, hintFor "c" ⟨⟨1⟩⟩⟩, ⟨.write, hintFor "d" ⟨⟨1⟩⟩⟩]).Holds
          (⟨⟨2⟩⟩, hintFor "c" ⟨⟨1⟩⟩) ∧
      ¬ ((ReplicaStore.new ⟨⟨9⟩⟩).deliverAll
        [⟨.write, hintFor "c" ⟨⟨1⟩⟩⟩, ⟨.write, hintFor "c" ⟨⟨3⟩⟩⟩]).Holds
          (⟨⟨2⟩⟩, hintFor "c" ⟨⟨1⟩⟩) := by
  constructor
  · intro hheld
    have hcollection := congrArg (·.map (·.key.collection)) hheld
    revert hcollection
    decide +kernel
  · intro hheld
    have hversion := congrArg (·.map (·.versioned.version)) hheld
    revert hversion
    decide +kernel

end BashfulDB.Replication
