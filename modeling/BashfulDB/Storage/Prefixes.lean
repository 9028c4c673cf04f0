import BashfulDB.Auth.Store
import BashfulDB.Schema.Rows
import BashfulDB.Storage.Contract

/-! The scans for the keys that go on from a prefix, and the two ways to end their range. -/
namespace BashfulDB.Storage

open Text

/-- `RangeBounds::contains`. -/
def Bound.contains (bounds : Bound × Bound) (key : Bytes) : Bool :=
  bounds.1.startsAt key && bounds.2.endsAt key

/-- The rows whose keys go on from `start`. -/
def KvMap.under (rows : KvMap) (start : Bytes) : List (Bytes × Bytes) :=
  rows.entries.filter fun row => start.isPrefixOf row.1

def KvMap.Utf8Keyed (rows : KvMap) : Prop := ∀ key value, rows.get key = some value → Utf8 key

variable {start stop key : Bytes}

theorem KvMap.mem_under {rows : KvMap} {row : Bytes × Bytes} :
    row ∈ rows.under start ↔ rows.get row.1 = some row.2 ∧ start <+: row.1 := by
  rw [under, List.mem_filter, OrdMap.get_eq_some_iff, List.isPrefixOf_iff_prefix]

theorem contains_authEnd :
    Bound.contains (rangeBounds start (Auth.prefixEnd start)) key = true ↔ start <+: key := by
  rw [Bound.contains, admits_rangeBounds, Auth.inRange_prefixEnd]

/-- With one more byte the range ends before the keys that go on with the largest one. -/
theorem contains_schemaEnd :
    Bound.contains (rangeBounds start (Schema.prefixEnd start)) key = true ↔
      start <+: key ∧ ¬ start ++ [0xFF] <+: key := by
  rw [Bound.contains, admits_rangeBounds, Schema.inRange_prefixEnd]
  constructor
  · rintro ⟨rest, rfl, hrest⟩
    rw [List.prefix_append_right_inj, ← Bytes.lt_max_iff]
    exact ⟨List.prefix_append start rest, hrest⟩
  · rintro ⟨⟨rest, rfl⟩, hrest⟩
    rw [List.prefix_append_right_inj, ← Bytes.lt_max_iff] at hrest
    exact ⟨rest, rfl, hrest⟩

example : Bound.contains (rangeBounds [0x61] (Schema.prefixEnd [0x61])) [0x61, 0xFF] = false := by
  decide

theorem contains_schemaEnd_of_utf8 (h : Utf8 key) :
    Bound.contains (rangeBounds start (Schema.prefixEnd start)) key = true ↔ start <+: key := by
  rw [contains_schemaEnd, and_iff_left (h.not_max_after start)]

/-- A range that has a key does not end before it starts. -/
theorem not_inverted_of_contains (h : Bound.contains (rangeBounds start stop) key = true) :
    ¬ Inverted start stop := by
  rw [Bound.contains, admits_rangeBounds, MemEngine.inRange_iff] at h
  rintro ⟨-, hstop, hlt⟩
  exact h.1 ((h.2.resolve_left hstop).trans hlt)

/-- What a batch puts, it puts under texts. -/
def WriteBatch.Utf8Keyed (batch : WriteBatch) : Prop :=
  ∀ op ∈ batch, op.outcome ≠ none → Utf8 op.key

theorem WriteBatch.Utf8Keyed.after {e : MemEngine} {cf : ColumnFamily} {batch : WriteBatch}
    (hbatch : batch.Utf8Keyed) (h : (e.cfs cf).Utf8Keyed) :
    KvMap.Utf8Keyed ((e.after batch).cfs cf) := by
  intro key value hget
  rw [MemEngine.get_after] at hget
  cases hlast : (batch.on cf key).getLast? with
  | none =>
    rw [hlast] at hget
    exact h key value hget
  | some op =>
    rw [hlast] at hget
    have hon := List.mem_of_getLast? hlast
    simp only [WriteBatch.on, List.mem_filter, decide_eq_true_iff] at hon
    obtain ⟨hop, -, rfl⟩ := hon
    exact hbatch op hop (Option.ne_none_iff_exists'.mpr ⟨value, hget⟩)

namespace TreeEngine

variable {e : TreeEngine} {cf : ColumnFamily}

theorem scan_of_contains (h : Bound.contains (rangeBounds start stop) key = true) :
    e.scan cf.name start stop = some (.ok ((e.cfs cf).rows.entries.filter fun row =>
      Bound.contains (rangeBounds start stop) row.1)) := by
  have hcalm : ¬ Bound.panics (rangeBounds start stop) = true :=
    fun hpanic => not_inverted_of_contains h (panics_rangeBounds.mp hpanic)
  rw [scan_name, if_neg fun hpanic => hcalm hpanic.2, MemEngine.scan_name]
  simp only [Bound.contains, admits_rangeBounds, content]

/-- The end that the authentication makes gives the rows under the prefix, whatever the keys. -/
theorem scan_authEnd (e : TreeEngine) (cf : ColumnFamily) (start : Bytes) :
    e.scan cf.name start (Auth.prefixEnd start) = some (.ok ((e.cfs cf).rows.under start)) := by
  rw [scan_of_contains (contains_authEnd.mpr (List.prefix_refl start)), KvMap.under]
  congr 2
  refine List.filter_congr fun row _ => ?_
  rw [Bool.eq_iff_iff, contains_authEnd, List.isPrefixOf_iff_prefix]

/-- The end that the schema makes gives them unless the largest byte follows the prefix in a key. -/
theorem scan_schemaEnd_iff (e : TreeEngine) (cf : ColumnFamily) (start : Bytes) :
    e.scan cf.name start (Schema.prefixEnd start) = some (.ok ((e.cfs cf).rows.under start)) ↔
      ∀ key value, (e.cfs cf).rows.get key = some value → ¬ start ++ [0xFF] <+: key := by
  have hself : ¬ start ++ [0xFF] <+: start := fun h => by simpa using h.length_le
  rw [scan_of_contains (contains_schemaEnd.mpr ⟨List.prefix_refl start, hself⟩),
    Option.some.injEq, Except.ok.injEq]
  constructor
  · intro heq key value hget hmax
    have hunder : start <+: key := (List.prefix_append start [0xFF]).trans hmax
    have hmem : (key, value) ∈ (e.cfs cf).rows.under start := KvMap.mem_under.mpr ⟨hget, hunder⟩
    rw [← heq, List.mem_filter, contains_schemaEnd] at hmem
    exact hmem.2.2 hmax
  · intro hkeys
    refine List.filter_congr fun row hrow => ?_
    have hmax := hkeys row.1 row.2 (OrdMap.get_eq_some_iff.mpr hrow)
    rw [Bool.eq_iff_iff, contains_schemaEnd, and_iff_left hmax, List.isPrefixOf_iff_prefix]

theorem scan_schemaEnd (e : TreeEngine) (cf : ColumnFamily) (start : Bytes)
    (hkeys : (e.cfs cf).rows.Utf8Keyed) :
    e.scan cf.name start (Schema.prefixEnd start) = some (.ok ((e.cfs cf).rows.under start)) := by
  rw [scan_schemaEnd_iff]
  intro key value hget
  exact (hkeys key value hget).not_max_after start

/-- Both ends select the keys with the prefix, that of the schema among texts, and so the same rows
of every family whose keys are texts. -/
theorem prefix_ranges_exact (start : Bytes) :
    (∀ key, Bound.contains (rangeBounds start (Auth.prefixEnd start)) key = true ↔
      start <+: key) ∧
    (∀ key, Utf8 key → (Bound.contains (rangeBounds start (Schema.prefixEnd start)) key = true ↔
      start <+: key)) ∧
    ∀ (e : TreeEngine) (cf : ColumnFamily), (e.cfs cf).rows.Utf8Keyed →
      e.scan cf.name start (Auth.prefixEnd start) = some (.ok ((e.cfs cf).rows.under start)) ∧
      e.scan cf.name start (Schema.prefixEnd start) =
        some (.ok ((e.cfs cf).rows.under start)) := by
  refine ⟨fun key => contains_authEnd, fun key => contains_schemaEnd_of_utf8, fun e cf hkeys => ?_⟩
  exact ⟨e.scan_authEnd cf start, e.scan_schemaEnd cf start hkeys⟩

/-- A row of each of two indexes. -/
def indexRowPuts : WriteBatch :=
  [.put "indexes" "i/x/1".asBytes [], .put "indexes" "j/x/1".asBytes []]

def twoIndexes : TreeEngine := new.after indexRowPuts

theorem twoIndexes_scanned :
    twoIndexes.scan "indexes" "i/".asBytes (Auth.prefixEnd "i/".asBytes) =
        some (.ok [("i/x/1".asBytes, [])]) ∧
      twoIndexes.scan "indexes" "i/".asBytes (Schema.prefixEnd "i/".asBytes) =
        some (.ok [("i/x/1".asBytes, [])]) := by
  have hputs : indexRowPuts.Utf8Keyed := by
    intro op hop _
    rcases List.mem_pair.mp hop with rfl | rfl <;> exact utf8_asBytes _
  have hempty : (new.content.cfs .indexes).Utf8Keyed := by
    intro key value hget
    cases hget
  have hkeys : KvMap.Utf8Keyed (twoIndexes.content.cfs .indexes) := by
    rw [twoIndexes, content_after]
    exact hputs.after hempty
  have hunder : (twoIndexes.cfs .indexes).rows.under "i/".asBytes = [("i/x/1".asBytes, [])] := by
    decide +kernel
  have hscans := (prefix_ranges_exact "i/".asBytes).2.2 twoIndexes .indexes hkeys
  rwa [hunder] at hscans

end TreeEngine

/-- The calls that write rows of their own to the families which are scanned by prefix. A restore
puts back those of a dump. -/
inductive Writer
  | persistUserAndRoles (account : Auth.Account)
  | deliver (delivery : Replication.Delivery)
  | materialize (definition : Schema.IndexDefinition)
  | dropMaterialized (index : String)

namespace Writer

variable (libs : Auth.AuthLibs) (serde : Schema.Serde)

def apply (m : Schema.IndexMaterializer) : Writer → Schema.IndexMaterializer
  | persistUserAndRoles a =>
    { m with engine := (libs.persistUserAndRoles m.engine a.user ⟨a.roles⟩).2 }
  | deliver d => { m with engine := serde.deliver m.engine d }
  | materialize d => (serde.materialize m d).2
  | dropMaterialized index => (m.dropMaterialized index).2

def run (ws : List Writer) : Schema.IndexMaterializer := ws.foldl (apply libs serde) ⟨.new, .empty⟩

theorem utf8Keyed_indexRows (m : Schema.IndexMaterializer) (d : Schema.IndexDefinition) :
    WriteBatch.Utf8Keyed (serde.indexRows m d) := by
  intro op hop _
  obtain ⟨rest, value, objectId, text, -, -, -, -, rfl⟩ := Schema.mem_indexRows.mp hop
  exact utf8_asBytes _

theorem utf8Keyed_deletions (m : Schema.IndexMaterializer) (index : String) :
    WriteBatch.Utf8Keyed (m.deletions index) := by
  intro op hop hput
  obtain ⟨k, v, -, -, rfl⟩ := Schema.mem_deletions.mp hop
  exact absurd rfl hput

/-- Each call does to the engine what one batch does that puts only under texts. -/
theorem apply_eq (m : Schema.IndexMaterializer) (w : Writer) :
    ∃ batch : WriteBatch, batch.Utf8Keyed ∧
      (w.apply libs serde m).engine = m.engine.after batch := by
  have hnone : WriteBatch.Utf8Keyed [] := List.forall_mem_nil _
  cases w with
  | persistUserAndRoles a =>
    rw [apply, libs.persistUserAndRoles_eq]
    refine ⟨_, ?_, rfl⟩
    intro op hop _
    rcases List.mem_pair.mp hop with rfl | rfl <;> exact utf8_asBytes _
  | deliver d =>
    by_cases hhint : d.request.isHint = true
    · exact ⟨[], hnone, if_pos hhint⟩
    · let op :=
        BatchOp.put ColumnFamily.default.name d.request.key.toBytes (serde.toVec d.versioned)
      have hcf : op.cf = ColumnFamily.default.name := rfl
      have hkey : Utf8 op.key := utf8_asBytes _
      refine ⟨[op], List.forall_mem_singleton.mpr fun _ => hkey, ?_⟩
      exact (if_neg hhint).trans (MemEngine.update_applyTo m.engine hcf)
  | materialize d =>
    rcases serde.materialize_cases m with ⟨err, herr⟩ | ⟨-, -, -, hok⟩
    · rw [apply, herr]
      exact ⟨[], hnone, rfl⟩
    · rw [apply, hok]
      exact ⟨_, utf8Keyed_indexRows serde m d, rfl⟩
  | dropMaterialized index =>
    cases hvalid : Schema.validateIdentifier index "index" with
    | error err =>
      rw [apply, Schema.IndexMaterializer.dropMaterialized, hvalid]
      exact ⟨[], hnone, rfl⟩
    | ok =>
      rw [apply, Schema.dropMaterialized_eq (Schema.validateIdentifier_eq_ok.mp hvalid)]
      exact ⟨_, utf8Keyed_deletions m index, rfl⟩

theorem utf8Keyed_run (ws : List Writer) (cf : ColumnFamily) :
    KvMap.Utf8Keyed ((run libs serde ws).engine.cfs cf) := by
  induction ws using List.reverseRecOn with
  | nil =>
    intro key value hget
    cases hget
  | append_singleton ws w ih =>
    obtain ⟨batch, hbatch, heq⟩ := apply_eq libs serde (run libs serde ws) w
    rw [run, List.foldl_append, List.foldl_cons, List.foldl_nil, ← run, heq]
    exact hbatch.after ih

/-- In every engine that these calls reach, both ends give the rows under a prefix. -/
theorem scan_run (ws : List Writer) (cf : ColumnFamily) (start : Bytes) {e : TreeEngine}
    (he : e.content = (run libs serde ws).engine) :
    e.scan cf.name start (Auth.prefixEnd start) = some (.ok ((e.cfs cf).rows.under start)) ∧
      e.scan cf.name start (Schema.prefixEnd start) =
        some (.ok ((e.cfs cf).rows.under start)) := by
  have hkeys : KvMap.Utf8Keyed (e.content.cfs cf) := he ▸ utf8Keyed_run libs serde ws cf
  exact ⟨e.scan_authEnd cf start, e.scan_schemaEnd cf start hkeys⟩

end Writer

end BashfulDB.Storage
