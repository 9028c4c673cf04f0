import BashfulDB.Schema.Drawn

/-! What it means that a schema includes the entries of a log, and what keeps it so. -/
namespace BashfulDB.Schema

open SchemaManager

/-- The later entry drops the index of the entry, or replaces it. -/
def Undoes (later entry : SchemaLogEntry) : Prop :=
  entry.version < later.version ∧ later.collection = entry.collection ∧
    (later.op = .dropIndex ∧ later.indexId = entry.indexId ∨
      later.op = .createIndex ∧ later.field = entry.field)

/-- What an entry of the log says is so: an index that it creates is there, unless a later entry
undoes it, and one that it drops is not. -/
structure Included (log : List SchemaLogEntry) (state : SchemaState) (entry : SchemaLogEntry) :
    Prop where
  created : entry.op = .createIndex → entry.definition ∈ state.indexes entry.collection ∨
    ∃ later ∈ log, Undoes later entry
  dropped : entry.op = .dropIndex → ∀ d ∈ state.indexes entry.collection, d.id ≠ entry.indexId

/-- The schema includes the entries up to its version. -/
def Reflects (log : List SchemaLogEntry) (state : SchemaState) : Prop :=
  ∀ entry ∈ log, entry.version ≤ state.version → Included log state entry

/-- The index that is dropped was created before. -/
def SchemaLogEntry.Aged (drawn : List IndexDefinition) (entry : SchemaLogEntry) : Prop :=
  entry.op = .dropIndex → ∃ d ∈ drawn, d.id = entry.indexId ∧ d.createdAt < entry.version

/-- No definition is newer than the schema. -/
def SchemaState.Aged (state : SchemaState) : Prop :=
  ∀ coll, ∀ d ∈ state.indexes coll, d.createdAt ≤ state.version

variable {drawn : List IndexDefinition} {log log' : List SchemaLogEntry} {state : SchemaState}
  {entry e : SchemaLogEntry}

theorem Included.mono (h : Included log state entry) (hsub : log ⊆ log') :
    Included log' state entry where
  created hop := (h.created hop).imp id fun ⟨later, hlater, hundoes⟩ =>
    ⟨later, hsub hlater, hundoes⟩
  dropped := h.dropped

theorem reflects_default (hpositive : ∀ e ∈ log, 0 < e.version) :
    Reflects log .default := by
  intro e he hle
  exact absurd hle (Nat.not_le.mpr (hpositive e he))

/-- An entry with a newer version may be added to the log. -/
theorem Reflects.concat (h : Reflects log state) (hnew : state.version < entry.version) :
    Reflects (log ++ [entry]) state := by
  intro e he hle
  rcases List.mem_append.mp he with he | he
  · exact (h e he hle).mono (List.subset_append_left _ _)
  · rw [List.mem_singleton.mp he] at hle
    omega

theorem aged_default : SchemaState.default.Aged := by
  intro coll d hd
  cases hd

theorem SchemaState.Aged.apply (h : state.Aged) (hnew : state.version < entry.version) :
    (applyEntryMut state entry).Aged := by
  intro coll d hd
  rw [version_applyEntryMut]
  cases hop : entry.op with
  | createIndex =>
    rw [indexes_create hop] at hd
    split at hd
    · rcases List.mem_append.mp hd with hd | hd
      · exact (h coll d hd).trans hnew.le
      · rw [List.mem_singleton.mp hd]
        exact le_rfl
    · exact (h coll d hd).trans hnew.le
  | dropIndex =>
    rw [indexes_drop hop] at hd
    split at hd
    · exact (h coll d (List.mem_of_mem_filter hd)).trans hnew.le
    · exact (h coll d hd).trans hnew.le

theorem SchemaState.Aged.swap (h : state.Aged) (definition old : IndexDefinition) :
    (swapState definition old state).Aged := by
  intro coll d hd
  rw [indexes_swap] at hd
  split at hd
  · exact h coll d (List.mem_of_mem_filter hd)
  · exact h coll d hd

/-- A creation is applied: what was included stays so, as its id is a new one. -/
theorem Included.create (h : Included log state e) (hop : entry.op = .createIndex)
    (hid : e.op = .dropIndex → entry.indexId ≠ e.indexId) :
    Included log (applyEntryMut state entry) e where
  created hcreate := by
    refine (h.created hcreate).imp ?_ id
    intro hmem
    rw [indexes_create hop]
    split
    · exact List.mem_append_left _ hmem
    · exact hmem
  dropped hdrop d hd := by
    rw [indexes_create hop] at hd
    split at hd
    · rcases List.mem_append.mp hd with hd | hd
      · exact h.dropped hdrop d hd
      · rw [List.mem_singleton.mp hd]
        exact hid hdrop
    · exact h.dropped hdrop d hd

/-- A drop is applied: what it removes, it undoes. -/
theorem Included.drop (h : Included log state e) (hop : entry.op = .dropIndex)
    (hentry : entry ∈ log) (hlater : e.version < entry.version) :
    Included log (applyEntryMut state entry) e where
  created hcreate := by
    rcases h.created hcreate with hmem | hundone
    · rw [indexes_drop hop]
      by_cases hcoll : e.collection = entry.collection
      · by_cases hid : e.indexId = entry.indexId
        · exact Or.inr ⟨entry, hentry, hlater, hcoll.symm, Or.inl ⟨hop, hid.symm⟩⟩
        · rw [if_pos hcoll]
          exact Or.inl (List.mem_filter.mpr ⟨hmem, decide_eq_true hid⟩)
      · rw [if_neg hcoll]
        exact Or.inl hmem
    · exact Or.inr hundone
  dropped hdrop d hd := by
    rw [indexes_drop hop] at hd
    split at hd
    · exact h.dropped hdrop d (List.mem_of_mem_filter hd)
    · exact h.dropped hdrop d hd

/-- An entry that is applied is included. -/
theorem included_apply : Included log (applyEntryMut state entry) entry where
  created hop := by
    left
    rw [indexes_create hop, if_pos rfl]
    exact List.mem_append_right _ List.mem_cons_self
  dropped hop d hd := by
    rw [indexes_drop hop, if_pos rfl] at hd
    simpa using (List.mem_filter.mp hd).2

/-- The next entry of the log is applied. -/
theorem Reflects.apply (h : Reflects log state)
    (hdistinct : (drawn.map IndexDefinition.id).Nodup) (hdrawn : entry.Drawn drawn)
    (haged : ∀ e ∈ log, e.Aged drawn) (hentry : entry ∈ log)
    (hnew : state.version < entry.version)
    (hnext : ∀ e ∈ log, e.version ≤ entry.version → e.version ≤ state.version ∨ e = entry) :
    Reflects log (applyEntryMut state entry) := by
  intro e he hle
  rw [version_applyEntryMut] at hle
  rcases hnext e he hle with hold | rfl
  · have hincluded := h e he hold
    cases hop : entry.op with
    | createIndex =>
      refine hincluded.create hop ?_
      intro hdrop hid
      obtain ⟨d, hd, hdid, hlt⟩ := haged e he hdrop
      have heq : d = entry.definition :=
        List.inj_on_of_nodup_map hdistinct hd (hdrawn.created hop) (hdid.trans hid.symm)
      rw [heq] at hlt
      simp only [SchemaLogEntry.definition] at hlt
      omega
    | dropIndex => exact hincluded.drop hop hentry (by omega)
  · exact included_apply

/-- A replacement takes over: its entry undoes the one of the index that is removed. -/
theorem Reflects.swap {definition old : IndexDefinition} (h : Reflects log state)
    (hdistinct : (drawn.map IndexDefinition.id).Nodup) (hlog : ∀ e ∈ log, e.Drawn drawn)
    (hold : Supersedes drawn definition old) (holder : old.createdAt < definition.createdAt)
    (hentry : entry ∈ log) (hop : entry.op = .createIndex)
    (hdefinition : entry.definition = definition) :
    Reflects log (swapState definition old state) := by
  intro e he hle
  obtain ⟨hcreated, hdropped⟩ := h e he hle
  subst hdefinition
  constructor
  · intro hcreate
    rcases hcreated hcreate with hmem | hundone
    · rw [indexes_swap]
      by_cases hcoll : e.collection = entry.definition.collection
      · by_cases hid : e.indexId = old.id
        · have heq : e.definition = old := List.inj_on_of_nodup_map hdistinct
            ((hlog e he).created hcreate) hold.mem hid
          subst heq
          exact Or.inr ⟨entry, hentry, holder, hcoll.symm, Or.inr ⟨hop, hold.field.symm⟩⟩
        · rw [if_pos hcoll]
          exact Or.inl (List.mem_filter.mpr ⟨hmem, decide_eq_true hid⟩)
      · rw [if_neg hcoll]
        exact Or.inl hmem
    · exact Or.inr hundone
  · intro hdrop d hd
    rw [indexes_swap] at hd
    split at hd
    · exact hdropped hdrop d (List.mem_of_mem_filter hd)
    · exact hdropped hdrop d hd

/-- A log that is replayed in the order of its versions is all included. -/
theorem applyLoop_reflects {entries : List SchemaLogEntry} {state' : SchemaState}
    (hdistinct : (drawn.map IndexDefinition.id).Nodup) (hlog : ∀ e ∈ log, e.Drawn drawn)
    (haged : ∀ e ∈ log, e.Aged drawn) (hsub : entries ⊆ log)
    (hsorted : entries.Pairwise fun a b => a.version < b.version)
    (habove : ∀ e ∈ entries, state.version < e.version)
    (hrest : ∀ e ∈ log, e.version ≤ state.version ∨ e ∈ entries)
    (hloop : applyLoop state entries = (.ok (), state')) (hreflects : Reflects log state)
    (hstate : state.Aged) :
    Reflects log state' ∧ state'.Aged ∧ ∀ e ∈ log, e.version ≤ state'.version := by
  induction entries generalizing state with
  | nil =>
    cases hloop
    refine ⟨hreflects, hstate, ?_⟩
    intro e he
    exact (hrest e he).resolve_right fun hmem => nomatch hmem
  | cons entry entries ih =>
    obtain ⟨hlater, hsorted⟩ := List.pairwise_cons.mp hsorted
    have hentry : entry ∈ log := hsub List.mem_cons_self
    have hnew := habove entry List.mem_cons_self
    rcases applyLoop_cons_cases state entry entries with
      ⟨hold, -⟩ | ⟨-, ⟨-, heq⟩ | ⟨-, _, _, heq⟩⟩
    · exact absurd hnew (Nat.not_lt.mpr hold)
    · rw [heq] at hloop
      refine ih (fun e he => hsub (List.mem_cons_of_mem _ he)) hsorted ?_ ?_ hloop ?_
        (hstate.apply hnew)
      · intro e he
        rw [version_applyEntryMut]
        exact hlater e he
      · intro e he
        rw [version_applyEntryMut]
        rcases hrest e he with hle | hmem
        · exact Or.inl (hle.trans hnew.le)
        · rcases List.mem_cons.mp hmem with rfl | hmem
          · exact Or.inl le_rfl
          · exact Or.inr hmem
      · refine hreflects.apply hdistinct (hlog entry hentry) haged hentry hnew ?_
        intro e he hle
        refine (hrest e he).imp id ?_
        intro hmem
        rcases List.mem_cons.mp hmem with rfl | hmem
        · rfl
        · exact absurd hle (Nat.not_le.mpr (hlater e hmem))
    · cases heq.symm.trans hloop

theorem sorted_mergeSort (hunique : (log.map SchemaLogEntry.version).Nodup) :
    (log.mergeSort fun a b => a.version ≤ b.version).Pairwise fun a b => a.version < b.version := by
  have hperm := List.mergeSort_perm log fun a b => decide (a.version ≤ b.version)
  have hle : (log.mergeSort fun a b => a.version ≤ b.version).Pairwise
      fun a b => decide (a.version ≤ b.version) = true := by
    apply List.pairwise_mergeSort
    · intro a b c hab hbc
      simp only [decide_eq_true_eq] at *
      omega
    · intro a b
      simp only [Bool.or_eq_true, decide_eq_true_eq]
      omega
  have hne : (log.mergeSort fun a b => a.version ≤ b.version).Pairwise
      fun a b => a.version ≠ b.version := by
    rw [← List.pairwise_map (f := SchemaLogEntry.version) (R := fun v w => v ≠ w)]
    exact (hperm.map SchemaLogEntry.version).nodup_iff.mpr hunique
  refine (hle.and hne).imp ?_
  rintro a b ⟨hab, hne⟩
  simp only [decide_eq_true_eq] at hab
  omega

end BashfulDB.Schema
