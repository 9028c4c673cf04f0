import BashfulDB.Library.SipHash
import BashfulDB.Storage.Contract
import BashfulDB.Clock.VectorClock
import Mathlib.Algebra.Group.Nat.Defs

/-! The range hashes of the anti-entropy task: when two replicas compute the same one. -/
namespace BashfulDB.Replication

open Storage Clock

/-- What the hasher is given of the rows of a range. -/
def rangeStream (rows : List (Bytes × Bytes)) : Bytes :=
  rows.flatMap fun row => SipHash.sized row.1 ++ SipHash.sized row.2

/-- The hash over the memory engine, whose scan may panic, which is `none`. -/
def rangeHash (storage : TreeEngine) (start stop : Bytes) : Option (Except StorageError UInt64) :=
  (storage.scan ColumnFamily.default.name start stop).map fun scanned => do
    let rows ← scanned
    .ok (SipHash.hash (rangeStream rows))

/-- The hashes are not exchanged yet, and nothing is repaired. -/
def runComparisonRound (storage : TreeEngine) (localNode : NodeId) (allNodes : List NodeId) :
    Option (Except StorageError Nat) :=
  let peers := allNodes.filter (· ≠ localNode)
  if peers.isEmpty then some (.ok 0)
  else
    (rangeHash storage [] []).map fun hashed => do
      let _ ← hashed
      .ok 0

variable {a b : TreeEngine} {start stop : Bytes}

/-- The rows of a range. -/
def rangeRows (storage : TreeEngine) (start stop : Bytes) : KvMap :=
  (storage.content.cfs .default).retain fun key _ => MemEngine.inRange start stop key

theorem rangeHash_eq (storage : TreeEngine) (hbounds : ¬ Inverted start stop) :
    rangeHash storage start stop =
      some (.ok (SipHash.hash (rangeStream (rangeRows storage start stop).entries))) := by
  have hcalm : ¬ ((storage.cfs .default).rooted = true ∧
      Bound.panics (rangeBounds start stop) = true) := by
    rw [panics_rangeBounds]
    exact fun hpanic => hbounds hpanic.2
  rw [rangeHash, storage.scan_name, if_neg hcalm, MemEngine.scan_name]
  rfl

/-- No round fails, and none repairs anything. -/
theorem runComparisonRound_eq (storage : TreeEngine) (localNode : NodeId) (allNodes : List NodeId) :
    runComparisonRound storage localNode allNodes = some (.ok 0) := by
  unfold runComparisonRound
  dsimp only
  split
  · rfl
  · rw [rangeHash_eq storage fun hinverted => hinverted.1 rfl]
    rfl

theorem rangeRows_eq_iff : rangeRows a start stop = rangeRows b start stop ↔
    ∀ key, MemEngine.inRange start stop key = true →
      a.content.get ColumnFamily.default.name key =
        b.content.get ColumnFamily.default.name key := by
  have hget (storage : TreeEngine) (key : Bytes) : (rangeRows storage start stop).get key =
      if MemEngine.inRange start stop key then (storage.content.cfs .default).get key
      else none := by
    rw [rangeRows, OrdMap.get_retain]
    cases (storage.content.cfs .default).get key <;> simp [Option.filter]
  simp only [MemEngine.get_name, Except.ok.injEq]
  constructor
  · intro heq key hkey
    simpa [hget, hkey] using congrArg (OrdMap.get · key) heq
  · intro hsame
    refine OrdMap.ext_get fun key => ?_
    rw [hget, hget]
    split
    · next hkey => exact hsame key hkey
    · rfl

/-- The length of a row fits the eight bytes before it. -/
def Fits (row : Bytes × Bytes) : Prop := row.1.length < 2 ^ 64 ∧ row.2.length < 2 ^ 64

instance Fits.decidable : DecidablePred Fits := fun row =>
  inferInstanceAs (Decidable (row.1.length < 2 ^ 64 ∧ row.2.length < 2 ^ 64))

/-- The rows can be read off what the hasher is given. -/
theorem rangeStream_inj {rows rows' : List (Bytes × Bytes)} (hrows : ∀ row ∈ rows, Fits row)
    (hrows' : ∀ row ∈ rows', Fits row) (h : rangeStream rows = rangeStream rows') :
    rows = rows' := by
  refine SipHash.flatMap_inj_of_delimited (P := Fits) ?_ ?_ hrows hrows' h
  · intro row hnil
    have := congrArg List.length hnil
    simp [SipHash.sized] at this
  · rintro ⟨key, value⟩ ⟨key', value'⟩ rest rest' ⟨hkey, hvalue⟩ ⟨hkey', hvalue'⟩ heq
    rw [List.append_assoc, List.append_assoc] at heq
    obtain ⟨rfl, heq⟩ := SipHash.sized_append_inj hkey hkey' heq
    obtain ⟨rfl, hrest⟩ := SipHash.sized_append_inj hvalue hvalue' heq
    exact ⟨rfl, hrest⟩

/-- Two streams that the hash does not tell apart. -/
def Collide (stream stream' : Bytes) : Prop :=
  stream ≠ stream' ∧ SipHash.hash stream = SipHash.hash stream'

/-- Two replicas have the same hash of a range just when they answer every read in it alike, unless
their streams collide. -/
theorem rangeHash_agree_iff (a b : TreeEngine) (start stop : Bytes)
    (hbounds : ¬ Inverted start stop) (ha : ∀ row ∈ (a.content.cfs .default).entries, Fits row)
    (hb : ∀ row ∈ (b.content.cfs .default).entries, Fits row)
    (hcollision : ¬ Collide (rangeStream (rangeRows a start stop).entries)
      (rangeStream (rangeRows b start stop).entries)) :
    rangeHash a start stop = rangeHash b start stop ↔
      ∀ key, MemEngine.inRange start stop key = true →
        a.content.get ColumnFamily.default.name key =
          b.content.get ColumnFamily.default.name key := by
  rw [← rangeRows_eq_iff, rangeHash_eq a hbounds, rangeHash_eq b hbounds, Option.some.injEq,
    Except.ok.injEq]
  constructor
  · intro hhash
    have hstream := not_not.mp fun hne => hcollision ⟨hne, hhash⟩
    have hentries : (rangeRows a start stop).entries = (rangeRows b start stop).entries :=
      rangeStream_inj (fun row hrow => ha row (List.mem_filter.mp hrow).1)
        (fun row hrow => hb row (List.mem_filter.mp hrow).1) hstream
    exact OrdMap.ext_get fun key => congrArg (Entries.get key) hentries
  · intro hrows
    rw [hrows]

/-- A replica with one row. -/
def replicaWith (key value : Bytes) : TreeEngine := .after .new [.put "default" key value]

/-- Bytes that move from a key to its value change the hash. -/
theorem rangeHash_agree_iff_moved :
    rangeHash (replicaWith [1, 2] [3]) [] [] ≠ rangeHash (replicaWith [1] [2, 3]) [] [] := by
  have hagree := rangeHash_agree_iff (replicaWith [1, 2] [3]) (replicaWith [1] [2, 3]) [] []
    (fun hinverted => hinverted.1 rfl) (by decide) (by decide)
    fun hcollide => absurd hcollide.2 (by decide +kernel)
  rw [Ne, hagree]
  intro hsame
  exact absurd (hsame [1] rfl) (by decide +kernel)

end BashfulDB.Replication
