import BashfulDB.Schema.Lookup
import Mathlib.Data.List.Induction

/-! The schema that a history of log entries builds, and what a manager gets from a fetched part. -/
namespace BashfulDB.Schema

/-- An entry with the manager that issued it. -/
abbrev Issued := Side × SchemaLogEntry

/-- The schema that a history builds. -/
def replay (history : List Issued) : SchemaState :=
  history.foldl (fun state x => applyEntryMut state x.2) .default

/-- What `validateIdentifier` accepts. -/
def Identifier (value : String) : Prop := value ≠ "" ∧ '/' ∉ value.toList ∧ '\x00' ∉ value.toList

theorem validateIdentifier_eq_ok {value kind : String} :
    validateIdentifier value kind = .ok () ↔ Identifier value := by
  unfold validateIdentifier Identifier
  split
  · rename_i h
    simp only [reduceCtorEq, false_iff]
    simp only [Bool.or_eq_true, String.isEmpty_iff, List.contains_iff_mem] at h
    tauto
  · rename_i h
    simp only [true_iff]
    simp only [Bool.or_eq_true, String.isEmpty_iff, List.contains_iff_mem] at h
    tauto

theorem identifier_hyphenated (id : Uuid) : Identifier id.hyphenated := by
  refine ⟨?_, Uuid.not_mem_hyphenated (by decide) (by decide),
    Uuid.not_mem_hyphenated (by decide) (by decide)⟩
  intro h
  have hlist := congrArg String.toList h
  simp [Uuid.hyphenated] at hlist

structure SchemaLogEntry.Valid (entry : SchemaLogEntry) : Prop where
  collection : Identifier entry.collection
  field : Identifier entry.field
  indexId : Identifier entry.indexId

/-- Valid entries with positive, ascending versions. -/
structure WellFormed (history : List Issued) : Prop where
  valid : ∀ x ∈ history, x.2.Valid
  positive : ∀ x ∈ history, 0 < x.2.version
  ascending : history.Pairwise fun x y => x.2.version < y.2.version

variable {history pre rest : List Issued} {x : Issued}

@[simp] theorem version_applyEntryMut (state : SchemaState) (entry : SchemaLogEntry) :
    (applyEntryMut state entry).version = entry.version := by
  unfold applyEntryMut
  cases entry.op <;> rfl

theorem replay_concat (a : List Issued) (x : Issued) :
    replay (a ++ [x]) = applyEntryMut (replay a) x.2 := by
  rw [replay, List.foldl_append]
  rfl

theorem WellFormed.initial (h : WellFormed history) (hp : pre <+: history) : WellFormed pre where
  valid x hx := h.valid x (hp.subset hx)
  positive x hx := h.positive x (hp.subset hx)
  ascending := h.ascending.sublist hp.sublist

/-- A schema has the version of the last entry, which is the highest one. -/
theorem WellFormed.le_version (h : WellFormed history) (hx : x ∈ history) :
    x.2.version ≤ (replay history).version := by
  induction history using List.reverseRecOn with
  | nil => cases hx
  | append_singleton history y _ =>
    rw [replay_concat, version_applyEntryMut]
    rcases List.mem_append.mp hx with hx | hx
    · exact (List.pairwise_append.mp h.ascending).2.2 x hx y (List.mem_singleton_self y) |>.le
    · rw [List.mem_singleton.mp hx]

/-- Entries that follow a history are above its version. -/
theorem WellFormed.version_lt (h : WellFormed (pre ++ rest)) (hx : x ∈ rest) :
    (replay pre).version < x.2.version := by
  induction pre using List.reverseRecOn with
  | nil => exact h.positive x hx
  | append_singleton pre y _ =>
    rw [replay_concat, version_applyEntryMut]
    exact (List.pairwise_append.mp h.ascending).2.2 y (by simp) x hx

/-- A history goes on with a valid entry of a higher version. -/
theorem WellFormed.concat (h : WellFormed history) (hvalid : x.2.Valid)
    (hversion : (replay history).version < x.2.version) : WellFormed (history ++ [x]) := by
  constructor
  · intro y hy
    rcases List.mem_append.mp hy with hy | hy
    · exact h.valid y hy
    · rwa [List.mem_singleton.mp hy]
  · intro y hy
    rcases List.mem_append.mp hy with hy | hy
    · exact h.positive y hy
    · rw [List.mem_singleton.mp hy]
      exact Nat.zero_lt_of_lt hversion
  · refine List.pairwise_append.mpr ⟨h.ascending, List.pairwise_singleton _ _, ?_⟩
    intro y hy z hz
    rw [List.mem_singleton.mp hz]
    exact (h.le_version hy).trans_lt hversion

theorem validateIdentifier_cases (value kind : String) :
    Identifier value ∧ validateIdentifier value kind = .ok () ∨
      ¬ Identifier value ∧
        validateIdentifier value kind = .error (.invalidIdentifier kind value) := by
  by_cases hvalue : Identifier value
  · exact Or.inl ⟨hvalue, validateIdentifier_eq_ok.mpr hvalue⟩
  · refine Or.inr ⟨hvalue, ?_⟩
    cases hcheck : validateIdentifier value kind with
    | ok u => exact absurd (validateIdentifier_eq_ok.mp hcheck) hvalue
    | error e =>
      unfold validateIdentifier at hcheck
      split at hcheck
      · exact hcheck.symm
      · cases hcheck

/-- The checks of `apply_entries` on an entry. -/
theorem validate_cases (entry : SchemaLogEntry) :
    (entry.Valid ∧ (do
      validateIdentifier entry.collection "collection"
      validateIdentifier entry.field "field"
      validateIdentifier entry.indexId "index") = .ok ()) ∨
    (¬ entry.Valid ∧ ∃ kind value, (do
      validateIdentifier entry.collection "collection"
      validateIdentifier entry.field "field"
      validateIdentifier entry.indexId "index") = .error (.invalidIdentifier kind value)) := by
  rcases validateIdentifier_cases entry.collection "collection" with
    ⟨hcoll, hcheck⟩ | ⟨hcoll, hcheck⟩
  · rcases validateIdentifier_cases entry.field "field" with ⟨hfield, hcheck'⟩ | ⟨hfield, hcheck'⟩
    · rw [hcheck, hcheck', Except.ok_bind, Except.ok_bind]
      rcases validateIdentifier_cases entry.indexId "index" with
        ⟨hindex, hcheck''⟩ | ⟨hindex, hcheck''⟩
      · exact Or.inl ⟨⟨hcoll, hfield, hindex⟩, hcheck''⟩
      · exact Or.inr ⟨fun h => hindex h.indexId, _, _, hcheck''⟩
    · rw [hcheck, hcheck', Except.ok_bind, Except.error_bind]
      exact Or.inr ⟨fun h => hfield h.field, _, _, rfl⟩
  · rw [hcheck, Except.error_bind]
    exact Or.inr ⟨fun h => hcoll h.collection, _, _, rfl⟩

/-- One round of `apply_entries`: an old entry is skipped, a new one applied if it is valid. -/
theorem applyLoop_cons_cases (state : SchemaState) (entry : SchemaLogEntry)
    (entries : List SchemaLogEntry) :
    entry.version ≤ state.version ∧ SchemaManager.applyLoop state (entry :: entries) =
        SchemaManager.applyLoop state entries ∨
      state.version < entry.version ∧
        (entry.Valid ∧ SchemaManager.applyLoop state (entry :: entries) =
            SchemaManager.applyLoop (applyEntryMut state entry) entries ∨
          ¬ entry.Valid ∧ ∃ kind value, SchemaManager.applyLoop state (entry :: entries) =
            (.error (.invalidIdentifier kind value), state)) := by
  by_cases hold : entry.version ≤ state.version
  · exact Or.inl ⟨hold, by rw [SchemaManager.applyLoop, if_pos hold]⟩
  · refine Or.inr ⟨Nat.lt_of_not_le hold, ?_⟩
    simp only [SchemaManager.applyLoop, if_neg hold]
    rcases validate_cases entry with ⟨hvalid, hcheck⟩ | ⟨hvalid, kind, value, hcheck⟩
    · exact Or.inl ⟨hvalid, by simp only [hcheck]⟩
    · exact Or.inr ⟨hvalid, kind, value, by simp only [hcheck]⟩

theorem applyLoop_cons_of_valid {state : SchemaState} {entry : SchemaLogEntry}
    (entries : List SchemaLogEntry) (hnew : state.version < entry.version) (hvalid : entry.Valid) :
    SchemaManager.applyLoop state (entry :: entries) =
      SchemaManager.applyLoop (applyEntryMut state entry) entries := by
  rcases applyLoop_cons_cases state entry entries with ⟨hold, -⟩ | ⟨-, ⟨-, heq⟩ | ⟨hinvalid, -⟩⟩
  · exact absurd hnew (Nat.not_lt.mpr hold)
  · exact heq
  · exact absurd hvalid hinvalid

theorem applyLoop_skip {state : SchemaState} {entries tail : List SchemaLogEntry}
    (h : ∀ e ∈ entries, e.version ≤ state.version) :
    SchemaManager.applyLoop state (entries ++ tail) = SchemaManager.applyLoop state tail := by
  induction entries with
  | nil => rfl
  | cons e entries ih =>
    obtain ⟨he, hentries⟩ := List.forall_mem_cons.mp h
    rw [List.cons_append, SchemaManager.applyLoop, if_pos he, ih hentries]

theorem applyLoop_new (h : WellFormed (pre ++ rest)) :
    SchemaManager.applyLoop (replay pre) (rest.map Prod.snd) = (.ok (), replay (pre ++ rest)) := by
  induction rest generalizing pre with
  | nil => rw [List.append_nil]; rfl
  | cons x rest ih =>
    have hnew := h.version_lt (x := x) (by simp)
    have hvalid := h.valid x (by simp)
    have hstep : SchemaManager.applyLoop (replay (pre ++ [x])) (rest.map Prod.snd) =
        (.ok (), replay (pre ++ [x] ++ rest)) := ih (by simpa using h)
    rw [List.map_cons, applyLoop_cons_of_valid _ hnew hvalid]
    simpa [replay_concat] using hstep

/-- Entries fetched at an earlier moment bring a manager forward, or change nothing. -/
theorem applyLoop_fetched {p q known : List Issued} (h : WellFormed history) (hp : p <+: known)
    (hknown : known <+: history) (hq : p ++ q <+: history) :
    ∃ known', (known' = known ∨ known' = p ++ q) ∧ known <+: known' ∧
      SchemaManager.applyLoop (replay known) (q.map Prod.snd) = (.ok (), replay known') := by
  rcases List.prefix_or_prefix_of_prefix hknown hq with ⟨t, ht⟩ | hle
  · -- What was fetched goes further: the part that is known is skipped, the rest applied.
    obtain ⟨r, rfl⟩ := hp
    rw [List.append_assoc, List.append_cancel_left_eq] at ht
    subst ht
    refine ⟨p ++ r ++ t, Or.inr (by simp), List.prefix_append _ _, ?_⟩
    have hskip : ∀ e ∈ r.map Prod.snd, e.version ≤ (replay (p ++ r)).version := by
      intro e he
      obtain ⟨x, hx, rfl⟩ := List.mem_map.mp he
      exact (h.initial hknown).le_version (List.mem_append_right _ hx)
    have hfull : WellFormed (p ++ r ++ t) := h.initial (by simpa using hq)
    rw [List.map_append, applyLoop_skip hskip, applyLoop_new hfull]
  · refine ⟨known, Or.inl rfl, List.prefix_refl _, ?_⟩
    have hskip : ∀ e ∈ q.map Prod.snd, e.version ≤ (replay known).version := by
      intro e he
      obtain ⟨x, hx, rfl⟩ := List.mem_map.mp he
      exact (h.initial hknown).le_version (hle.subset (List.mem_append_right _ hx))
    rw [← List.append_nil (q.map Prod.snd), applyLoop_skip hskip]
    rfl

theorem identifier_field_applyEntryMut {state : SchemaState} {entry : SchemaLogEntry}
    {coll : String} {idx : IndexDefinition} (hvalid : entry.Valid)
    (hstate : ∀ coll, ∀ idx ∈ state.indexes coll, Identifier idx.field)
    (hidx : idx ∈ (applyEntryMut state entry).indexes coll) : Identifier idx.field := by
  cases hop : entry.op with
  | createIndex =>
    rw [indexes_create hop] at hidx
    split at hidx
    · rcases List.mem_append.mp hidx with hidx | hidx
      · exact hstate coll idx hidx
      · rw [List.mem_singleton.mp hidx]
        exact hvalid.field
    · exact hstate coll idx hidx
  | dropIndex =>
    rw [indexes_drop hop] at hidx
    split at hidx
    · exact hstate coll idx (List.mem_of_mem_filter hidx)
    · exact hstate coll idx hidx

/-- The definitions come from the entries, with their fields. -/
theorem WellFormed.identifier_field (h : WellFormed history) {coll : String}
    {idx : IndexDefinition} (hidx : idx ∈ (replay history).indexes coll) :
    Identifier idx.field := by
  induction history using List.reverseRecOn generalizing coll idx with
  | nil => cases hidx
  | append_singleton history x ih =>
    rw [replay_concat] at hidx
    refine identifier_field_applyEntryMut (h.valid x (by simp)) ?_ hidx
    intro coll idx hidx
    exact ih (h.initial (List.prefix_append _ _)) hidx

end BashfulDB.Schema
