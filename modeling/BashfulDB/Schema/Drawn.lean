import BashfulDB.Schema.Effects
import Mathlib.Data.List.Nodup

/-! Every definition that a node speaks of is one that it has drawn, under an id of its own. -/
namespace BashfulDB.Schema

open SchemaManager

variable {drawn drawn' : List IndexDefinition} {state : SchemaState} {entry : SchemaLogEntry}
  {ddl : Ddl} {n : Node}

/-- The id is that of an index on this field. -/
def Named (drawn : List IndexDefinition) (coll field id : String) : Prop :=
  ∃ d ∈ drawn, d.id = id ∧ d.collection = coll ∧ d.field = field

structure SchemaState.Drawn (drawn : List IndexDefinition) (state : SchemaState) : Prop where
  defined : ∀ coll, ∀ d ∈ state.indexes coll, d ∈ drawn ∧ d.collection = coll
  named : ∀ coll field id, state.active coll field = some id → Named drawn coll field id

structure SchemaLogEntry.Drawn (drawn : List IndexDefinition) (entry : SchemaLogEntry) : Prop where
  named : Named drawn entry.collection entry.field entry.indexId
  created : entry.op = .createIndex → entry.definition ∈ drawn

/-- The old definition is another one, on the field of the new one. -/
structure Supersedes (drawn : List IndexDefinition) (definition old : IndexDefinition) : Prop where
  mem : old ∈ drawn
  collection : old.collection = definition.collection
  field : old.field = definition.field
  ne : old.id ≠ definition.id

def Ddl.Drawn (drawn : List IndexDefinition) : Ddl → Prop
  | .create coll field replacement =>
    ∀ old ∈ replacement, old ∈ drawn ∧ old.collection = coll ∧ old.field = field
  | .drop coll index field => Named drawn coll field index

/-- An operation with the entry that it has made. -/
structure Held (drawn : List IndexDefinition) (ddl : Ddl) (entry : SchemaLogEntry) : Prop where
  operation : ddl.Drawn drawn
  logged : entry.Drawn drawn
  made : ∃ version o, entry = logEntry ddl version o
  replaced : ∀ coll field old, ddl = .create coll field (some old) → old.id ≠ entry.indexId

def Stage.Drawn (drawn : List IndexDefinition) : Stage → Prop
  | .checkQuota coll field replacement => (Ddl.create coll field replacement).Drawn drawn
  | .nextVersion ddl => ddl.Drawn drawn
  | .appendLine ddl entry | .appendNewline ddl entry | .applyEntry ddl entry
  | .snapshot ddl entry => Held drawn ddl entry
  | .put ddl entry taken => Held drawn ddl entry ∧ taken.Drawn drawn

def Task.Drawn (drawn : List IndexDefinition) : Task → Prop
  | .materialize definition replacement =>
    definition ∈ drawn ∧ ∀ old ∈ replacement, Supersedes drawn definition old
  | .swap definition old => definition ∈ drawn ∧ Supersedes drawn definition old
  | .dropMaterialized _ => True

def Background.Drawn (drawn : List IndexDefinition) : Background → Prop
  | .task t => t.Drawn drawn
  | .dropOld _ | .snapshot _ => True
  | .put _ taken => taken.Drawn drawn

structure Node.Drawn (n : Node) : Prop where
  distinct : (n.drawn.map IndexDefinition.id).Nodup
  state : n.state.Drawn n.drawn
  metadata : ∀ taken ∈ n.metadata, taken.Drawn n.drawn
  log : ∀ entry ∈ n.log.entries, entry.Drawn n.drawn
  calls : ∀ stage ∈ n.calls, stage.Drawn n.drawn
  tasks : ∀ task ∈ n.tasks, task.Drawn n.drawn

/-- The ids that the event draws are new ones. -/
def Fresh (n : Node) : Event → Prop
  | .call i o => ∀ stage ∈ n.calls[i]?, ∀ d ∈ n.draws o stage, ∀ d' ∈ n.drawn, d'.id ≠ d.id
  | _ => True

instance decidableFresh (n : Node) : (a : Event) → Decidable (Fresh n a)
  | .call i o => inferInstanceAs
      (Decidable (∀ stage ∈ n.calls[i]?, ∀ d ∈ n.draws o stage, ∀ d' ∈ n.drawn, d'.id ≠ d.id))
  | .createIndex _ _ | .dropIndex _ _ | .task _ _ | .crash | .restart _ =>
    inferInstanceAs (Decidable True)

theorem Stage.Drawn.held {stage : Stage} (h : stage.Drawn drawn)
    (hheld : stage.held = some (ddl, entry)) : Held drawn ddl entry := by
  cases stage with
  | checkQuota coll field replacement => cases hheld
  | nextVersion ddl => cases hheld
  | put ddl entry taken =>
    cases hheld
    exact h.1
  | _ =>
    cases hheld
    exact h

section Mono

variable (hsub : drawn ⊆ drawn')
include hsub

theorem Named.mono {coll field id : String} (h : Named drawn coll field id) :
    Named drawn' coll field id := by
  obtain ⟨d, hd, h⟩ := h
  exact ⟨d, hsub hd, h⟩

theorem SchemaState.Drawn.mono (h : state.Drawn drawn) : state.Drawn drawn' where
  defined coll d hd := ⟨hsub (h.defined coll d hd).1, (h.defined coll d hd).2⟩
  named coll field id hid := (h.named coll field id hid).mono hsub

theorem SchemaLogEntry.Drawn.mono (h : entry.Drawn drawn) : entry.Drawn drawn' where
  named := h.named.mono hsub
  created hop := hsub (h.created hop)

theorem Supersedes.mono {definition old : IndexDefinition} (h : Supersedes drawn definition old) :
    Supersedes drawn' definition old := { h with mem := hsub h.mem }

theorem Ddl.Drawn.mono (h : ddl.Drawn drawn) : ddl.Drawn drawn' := by
  cases ddl with
  | create coll field replacement =>
    intro old hold
    exact ⟨hsub (h old hold).1, (h old hold).2⟩
  | drop coll index field => exact Named.mono hsub h

theorem Held.mono (h : Held drawn ddl entry) : Held drawn' ddl entry :=
  { h with operation := h.operation.mono hsub, logged := h.logged.mono hsub }

theorem Stage.Drawn.mono {stage : Stage} (h : stage.Drawn drawn) : stage.Drawn drawn' := by
  cases stage with
  | checkQuota coll field replacement =>
    have hddl : (Ddl.create coll field replacement).Drawn drawn := h
    exact hddl.mono hsub
  | nextVersion ddl => exact Ddl.Drawn.mono hsub h
  | put ddl entry taken => exact ⟨Held.mono hsub h.1, h.2.mono hsub⟩
  | _ => exact Held.mono hsub h

theorem Background.Drawn.mono {task : Background} (h : task.Drawn drawn) : task.Drawn drawn' := by
  cases task with
  | task t =>
    cases t with
    | materialize definition replacement =>
      exact ⟨hsub h.1, fun old hold => (h.2 old hold).mono hsub⟩
    | swap definition old => exact ⟨hsub h.1, h.2.mono hsub⟩
    | dropMaterialized index => trivial
  | dropOld old => trivial
  | snapshot old => trivial
  | put old taken => exact SchemaState.Drawn.mono hsub h

end Mono

theorem Node.Drawn.eq_of_id (h : n.Drawn) {d d' : IndexDefinition} (hd : d ∈ n.drawn)
    (hd' : d' ∈ n.drawn) (hid : d.id = d'.id) : d = d' :=
  List.inj_on_of_nodup_map h.distinct hd hd' hid

theorem mem_replacement {coll field : String} {old : IndexDefinition}
    (h : state.replacement coll field = some old) :
    old ∈ state.indexes coll ∧ state.active coll field = some old.id := by
  unfold SchemaState.replacement at h
  simp only [Option.bind_eq_bind, Option.bind_eq_some_iff] at h
  obtain ⟨active, hactive, id, hid, schema, hschema, hfind⟩ := h
  have hsame : old.id = id := by simpa using List.find?_some hfind
  refine ⟨?_, ?_⟩
  · simpa [SchemaState.indexes, hschema] using List.mem_of_find?_eq_some hfind
  · simp [SchemaState.active, hactive, hid, hsame]

/-- What a creation replaces is an index on its field. -/
theorem Node.Drawn.replacement (h : n.Drawn) (coll field : String) :
    (Ddl.create coll field (n.state.replacement coll field)).Drawn n.drawn := by
  intro old hold
  obtain ⟨hmem, hactive⟩ := mem_replacement hold
  obtain ⟨hdrawn, -⟩ := h.state.defined coll old hmem
  obtain ⟨d, hd, hid, hcoll, hfield⟩ := h.state.named coll field old.id hactive
  obtain rfl : d = old := h.eq_of_id hd hdrawn hid
  exact ⟨hdrawn, hcoll, hfield⟩

theorem drawn_default : SchemaState.default.Drawn drawn where
  defined coll d hd := by cases hd
  named coll field id hid := by cases hid

theorem SchemaState.Drawn.apply (h : state.Drawn drawn) (hentry : entry.Drawn drawn) :
    (applyEntryMut state entry).Drawn drawn := by
  cases hop : entry.op with
  | createIndex =>
    constructor
    · intro coll d hd
      rw [indexes_create hop] at hd
      split at hd
      · rename_i hcoll
        rcases List.mem_append.mp hd with hd | hd
        · exact h.defined coll d hd
        · rw [List.mem_singleton.mp hd, hcoll]
          exact ⟨hentry.created hop, rfl⟩
      · exact h.defined coll d hd
    · intro coll field id hid
      rw [active_create hop] at hid
      split at hid
      · rename_i heq
        obtain ⟨rfl, rfl⟩ := heq
        cases hid
        exact hentry.named
      · exact h.named coll field id hid
  | dropIndex =>
    constructor
    · intro coll d hd
      rw [indexes_drop hop] at hd
      split at hd
      · exact h.defined coll d (List.mem_of_mem_filter hd)
      · exact h.defined coll d hd
    · intro coll field id hid
      rw [active_drop hop] at hid
      split at hid
      · cases hid
      · exact h.named coll field id hid

theorem SchemaState.Drawn.swap (h : state.Drawn drawn) {definition old : IndexDefinition}
    (hdefinition : definition ∈ drawn) : (swapState definition old state).Drawn drawn where
  defined coll d hd := by
    rw [indexes_swap] at hd
    split at hd
    · exact h.defined coll d (List.mem_of_mem_filter hd)
    · exact h.defined coll d hd
  named coll field id hid := by
    rw [active_swap] at hid
    split at hid
    · rename_i heq
      cases hid
      exact ⟨definition, hdefinition, rfl, heq.1.symm, heq.2.1.symm⟩
    · exact h.named coll field id hid

/-- An operation only adds to its entry what is there already. -/
theorem Held.activate (h : Held drawn ddl entry) (state : SchemaState) :
    activate ddl entry (applyEntryMut state entry) = applyEntryMut state entry := by
  obtain ⟨version, o, rfl⟩ := h.made
  exact activate_logEntry state

/-- The background task of an operation builds what it has created. -/
theorem Held.spawned (h : Held drawn ddl entry) : (spawned ddl entry).Drawn drawn := by
  obtain ⟨version, o, rfl⟩ := h.made
  cases ddl with
  | create coll field replacement =>
    refine ⟨h.logged.created rfl, fun old hold => ?_⟩
    obtain ⟨hmem, hcoll, hfield⟩ := h.operation old hold
    exact ⟨hmem, hcoll, hfield, h.replaced coll field old (by rw [Option.mem_def.mp hold])⟩
  | drop coll index field => trivial

/-- An operation draws its entry, and nothing that was drawn before has its id. -/
theorem Ddl.Drawn.draw {o : Outcome} (h : ddl.Drawn n.drawn)
    (hfresh : ∀ d ∈ n.draws o (.nextVersion ddl), ∀ d' ∈ n.drawn, d'.id ≠ d.id) :
    Held (n.draws o (.nextVersion ddl) ++ n.drawn) ddl (logEntry ddl (n.version + 1) o) where
  operation := h.mono (List.subset_append_right _ _)
  logged := by
    cases ddl with
    | create coll field replacement =>
      exact ⟨⟨_, List.mem_cons_self, rfl, rfl, rfl⟩, fun _ => List.mem_cons_self⟩
    | drop coll index field => exact ⟨h, fun hop => nomatch hop⟩
  made := ⟨_, o, rfl⟩
  replaced := by
    rintro coll field old rfl
    exact hfresh _ List.mem_cons_self old (h old rfl).1

theorem nodup_draws {o : Outcome} {ddl : Ddl} (h : (n.drawn.map IndexDefinition.id).Nodup)
    (hfresh : ∀ d ∈ n.draws o (.nextVersion ddl), ∀ d' ∈ n.drawn, d'.id ≠ d.id) :
    ((n.draws o (.nextVersion ddl) ++ n.drawn).map IndexDefinition.id).Nodup := by
  cases ddl with
  | drop coll index field => exact h
  | create coll field replacement =>
    refine List.nodup_cons.mpr ⟨?_, h⟩
    intro hmem
    obtain ⟨d', hd', hid⟩ := List.mem_map.mp hmem
    exact hfresh _ List.mem_cons_self d' hd' hid

/-- A step of a call. -/
theorem Node.Drawn.advance {n' : Node} {i : Nat} {o : Outcome} {stage : Stage}
    {next : Option Stage} (h : n.Drawn) (hi : n.calls[i]? = some stage)
    (hfresh : Fresh n (.call i o)) (hadvance : n.Advances o stage next n') :
    Node.Drawn { n' with calls := Pool.resume n.calls i next } := by
  have hstage := h.calls stage (List.mem_of_getElem? hi)
  have hmore (drawn : List IndexDefinition) (hsub : n.drawn ⊆ drawn)
      (hnext : ∀ b, next = some b → b.Drawn drawn) :
      ∀ b ∈ Pool.resume n.calls i next, b.Drawn drawn :=
    Pool.forall_resume hi (fun b hb => (h.calls b hb).mono hsub) hnext
  have hcalls := hmore n.drawn (List.Subset.refl _)
  cases hadvance with
  | refuse => exact { h with calls := hcalls fun b hb => nomatch hb }
  | @accept coll field replacement =>
    refine { h with calls := hcalls ?_ }
    rintro b ⟨⟩
    exact hstage
  | @draw ddl =>
    have hfresh := hfresh _ hi
    have hsub := List.subset_append_right (n.draws o (.nextVersion ddl)) n.drawn
    refine ⟨nodup_draws h.distinct hfresh, h.state.mono hsub,
      fun taken ht => (h.metadata taken ht).mono hsub, fun e he => (h.log e he).mono hsub, ?_,
      fun t ht => (h.tasks t ht).mono hsub⟩
    refine hmore _ hsub ?_
    rintro b ⟨⟩
    exact Ddl.Drawn.draw hstage hfresh
  | lose hwrite => exact { h with calls := hcalls fun b hb => nomatch hb }
  | cut hwrite => exact { h with calls := hcalls fun b hb => nomatch hb }
  | append hwrite =>
    refine { h with log := Pool.forall_concat h.log hstage.logged, calls := hcalls ?_ }
    rintro b ⟨⟩
    exact hstage
  | tear hwrite => exact { h with calls := hcalls fun b hb => nomatch hb }
  | endLine hwrite =>
    refine { h with calls := hcalls ?_ }
    rintro b ⟨⟩
    exact hstage
  | apply =>
    refine { h with state := ?_, calls := hcalls ?_ }
    · rw [hstage.activate]
      exact h.state.apply hstage.logged
    · rintro b ⟨⟩
      exact hstage
  | snapshot =>
    refine { h with calls := hcalls ?_ }
    rintro b ⟨⟩
    exact ⟨hstage, h.state⟩
  | miss hput => exact { h with calls := hcalls fun b hb => nomatch hb }
  | put hput =>
    refine { h with
      metadata := ?_
      calls := hcalls fun b hb => nomatch hb
      tasks := Pool.forall_concat h.tasks hstage.1.spawned }
    rintro taken ⟨⟩
    exact hstage.2

/-- A step of a background task. -/
theorem Node.Drawn.work {n' : Node} {i : Nat} {o : Outcome} {task : Background}
    {next : Option Background} (h : n.Drawn) (hi : n.tasks[i]? = some task)
    (hwork : n.Works o task next n') :
    Node.Drawn { n' with tasks := Pool.resume n.tasks i next } := by
  have htask := h.tasks task (List.mem_of_getElem? hi)
  have htasks (hnext : ∀ b, next = some b → b.Drawn n.drawn) :
      ∀ b ∈ Pool.resume n.tasks i next, b.Drawn n.drawn := Pool.forall_resume hi h.tasks hnext
  cases hwork with
  | abandon => exact { h with tasks := htasks fun b hb => nomatch hb }
  | @build definition replacement =>
    refine { h with tasks := htasks ?_ }
    intro b hb
    obtain ⟨old, hold, rfl⟩ := Option.map_eq_some_iff.mp hb
    exact ⟨htask.1, htask.2 old hold⟩
  | swap =>
    refine { h with state := h.state.swap htask.1, tasks := htasks ?_ }
    rintro b ⟨⟩
    trivial
  | drop hready => exact { h with tasks := htasks fun b hb => nomatch hb }
  | dropOld hready =>
    refine { h with tasks := htasks ?_ }
    rintro b ⟨⟩
    trivial
  | snapshot =>
    refine { h with tasks := htasks ?_ }
    rintro b ⟨⟩
    exact h.state
  | miss => exact { h with tasks := htasks fun b hb => nomatch hb }
  | put =>
    refine { h with metadata := ?_, tasks := htasks fun b hb => nomatch hb }
    rintro taken ⟨⟩
    exact htask

theorem Node.Drawn.crashed (h : n.Drawn) : n.crashed.Drawn :=
  { h with
    state := drawn_default
    calls := fun _ hb => nomatch hb
    tasks := fun _ hb => nomatch hb }

theorem Node.Drawn.restore {m : SchemaManager} {metadata : Option SchemaState} {o : Outcome}
    (h : n.Drawn)
    (hrestore : restoreState n.log n.metadata n.maxSecondaryIndexesPerCollection o =
      .ok (m, metadata)) :
    Node.Drawn { n.crashed with
      up := true, state := m.state, version := m.version, metadata := metadata } := by
  rcases restoreState_cases hrestore with
    ⟨hsome, -, rfl⟩ | ⟨-, -, hstate, -, rfl⟩ | ⟨-, rfl, -, hloop⟩
  · exact { h.crashed with state := h.metadata _ hsome, metadata := h.metadata }
  · refine { h.crashed with state := ?_, metadata := fun taken ht => nomatch ht }
    rw [hstate]
    exact drawn_default
  · have hstate : m.state.Drawn n.drawn := by
      have happly (state : SchemaState) (e : SchemaLogEntry)
          (he : e ∈ n.log.entries.mergeSort fun a b => a.version ≤ b.version)
          (_ : e.Valid) (hs : state.Drawn n.drawn) : (applyEntryMut state e).Drawn n.drawn :=
        hs.apply (h.log e (List.mem_mergeSort.mp he))
      have hpreserves := applyLoop_preserves happly drawn_default
      rwa [hloop] at hpreserves
    refine { h.crashed with state := hstate, metadata := ?_ }
    rintro taken ⟨⟩
    exact hstate

/-- What an event preserves. -/
theorem Node.Drawn.step {n' : Node} {a : Event} (h : n.Drawn) (hfresh : Fresh n a)
    (hstep : n.Step a n') : n'.Drawn := by
  cases hstep with
  | idle => exact h
  | @create coll field hup hrunning =>
    exact { h with calls := Pool.forall_concat h.calls (h.replacement coll field) }
  | @drop coll index idx hup hidx hid hrunning =>
    obtain ⟨hmem, hcoll⟩ := h.state.defined coll idx hidx
    exact { h with calls := Pool.forall_concat h.calls ⟨idx, hmem, hid, hcoll, rfl⟩ }
  | call hi hadvance => exact h.advance hi hfresh hadvance
  | task hi hwork => exact h.work hi hwork
  | crash => exact h.crashed
  | restart hup hrestore => exact h.restore hrestore
  | stuck hup => exact h.crashed

theorem drawn_new (limit : Nat) : (Node.new limit).Drawn where
  distinct := List.nodup_nil
  state := drawn_default
  metadata _ ht := nomatch ht
  log _ he := nomatch he
  calls _ hstage := nomatch hstage
  tasks _ htask := nomatch htask

end BashfulDB.Schema
