import BashfulDB.Schema.Agreement
import BashfulDB.Schema.Durable

/-! What each event does to a node. -/
namespace BashfulDB.Schema

open SchemaManager

def Call.isPersist : Call → Bool
  | .persist _ _ => true
  | _ => false

/-- The number of active fields, as `create_index` counts them. -/
def SchemaState.activeCount (state : SchemaState) (coll : String) : Nat :=
  (state.activeByField.get coll).elim 0 OrdMap.length

theorem advance_checkQuota (m other : SchemaManager) (o : Outcome) (coll field : String)
    (replacement : Option IndexDefinition) :
    ((m.maxSecondaryIndexesPerCollection ≤ m.state.activeCount coll ∧ replacement = none) ∧
        ∃ e, m.advance other o (.checkQuota coll field replacement) = (.done (.error e), m)) ∨
      ¬ (m.maxSecondaryIndexesPerCollection ≤ m.state.activeCount coll ∧ replacement = none) ∧
      m.advance other o (.checkQuota coll field replacement) =
        (.running (.nextVersion (.create coll field replacement)), m) := by
  unfold SchemaManager.advance
  simp only [ge_iff_le, Option.isNone_iff_eq_none, SchemaState.activeCount]
  split
  · exact Or.inl ⟨‹_›, _, rfl⟩
  · exact Or.inr ⟨‹_›, rfl⟩

theorem advance_nextVersion (m other : SchemaManager) (o : Outcome) (ddl : Ddl) :
    m.advance other o (.nextVersion ddl) =
      (.running (.appendLine ddl (logEntry ddl (m.version + 1) o)),
        { m with version := m.version + 1 }) := by
  have hid : checkId ddl (logEntry ddl (m.version + 1) o) = .ok () := by
    cases ddl with
    | create coll field replacement => exact validateIdentifier_eq_ok.mpr (identifier_hyphenated _)
    | drop coll index field => rfl
  simp only [SchemaManager.advance, hid]

/-- What a new manager finds: a snapshot, nothing at all, or a log. -/
theorem restoreState_cases {log : SchemaLog} {metadata metadata' : Option SchemaState}
    {limit : Nat} {o : Outcome} {m : SchemaManager}
    (h : restoreState log metadata limit o = .ok (m, metadata')) :
    (metadata = some m.state ∧ m.version = m.state.version ∧ metadata' = metadata) ∨
      (metadata = none ∧ log.entries = [] ∧ m.state = .default ∧ m.version = 0 ∧
        metadata' = none) ∨
      metadata = none ∧ metadata' = some m.state ∧ m.version = m.state.version ∧
        applyLoop .default (log.entries.mergeSort fun a b => a.version ≤ b.version) =
          (.ok (), m.state) := by
  unfold restoreState at h
  cases metadata with
  | some restored =>
    cases h
    exact Or.inl ⟨rfl, rfl, rfl⟩
  | none =>
    right
    simp only [replayFromLog, SchemaLog.readLogEntries] at h
    cases hcorrupt : log.corrupt with
    | true => simp [hcorrupt, bind, Except.bind] at h
    | false =>
      simp only [hcorrupt, Bool.false_eq_true, if_false, bind, Except.bind] at h
      by_cases hempty : (log.entries.mergeSort fun a b => a.version ≤ b.version) = []
      · left
        have hlog : log.entries = [] := by
          have hperm := List.mergeSort_perm log.entries fun a b => a.version ≤ b.version
          simpa [hempty] using hperm.symm
        simp only [hempty, List.isEmpty_nil, if_true] at h
        cases h
        exact ⟨rfl, hlog, rfl, rfl, rfl⟩
      · right
        rw [if_neg (by simpa using hempty)] at h
        simp only [applyEntries] at h
        cases hloop :
            applyLoop .default (log.entries.mergeSort fun a b => a.version ≤ b.version) with
        | mk result state =>
          cases result with
          | error e => simp [hloop] at h
          | ok u =>
            simp only [hloop] at h
            cases hput : o.persisted with
            | false => simp [hput] at h
            | true =>
              simp only [hput, if_true] at h
              cases h
              exact ⟨rfl, rfl, rfl, rfl⟩

/-- What valid entries preserve holds of the schema that the entries build. -/
theorem applyLoop_preserves {P : SchemaState → Prop} {entries : List SchemaLogEntry}
    {state : SchemaState}
    (h : ∀ state, ∀ entry ∈ entries, entry.Valid → P state → P (applyEntryMut state entry))
    (hstate : P state) : P (applyLoop state entries).2 := by
  induction entries generalizing state with
  | nil => exact hstate
  | cons entry entries ih =>
    have ih' {state : SchemaState} := @ih state fun state entry hentry =>
      h state entry (List.mem_cons_of_mem _ hentry)
    rcases applyLoop_cons_cases state entry entries with
      ⟨-, heq⟩ | ⟨-, ⟨hvalid, heq⟩ | ⟨-, _, _, heq⟩⟩
    · rw [heq]
      exact ih' hstate
    · rw [heq]
      exact ih' (h state entry List.mem_cons_self hvalid hstate)
    · rw [heq]
      exact hstate

namespace Node

/-- What a step of the `i`-th call does, by its stage. -/
inductive Advances (n : Node) (o : Outcome) : Stage → Option Stage → Node → Prop
  | refuse {coll field replacement} : Advances n o (.checkQuota coll field replacement) none n
  | accept {coll field replacement} : Advances n o (.checkQuota coll field replacement)
      (some (.nextVersion (.create coll field replacement))) n
  | draw {ddl} : Advances n o (.nextVersion ddl)
      (some (.appendLine ddl (logEntry ddl (n.version + 1) o)))
      { n with version := n.version + 1, drawn := n.draws o (.nextVersion ddl) ++ n.drawn }
  | lose {ddl entry} (hwrite : o.write = .failed) : Advances n o (.appendLine ddl entry) none n
  | cut {ddl entry} (hwrite : o.write = .cut) : Advances n o (.appendLine ddl entry) none
      { n with log := { n.log with corrupt := true } }
  | append {ddl entry} (hwrite : o.write = .done ∨ o.write = .torn) :
      Advances n o (.appendLine ddl entry) (some (.appendNewline ddl entry))
      { n with log := ⟨n.log.entries ++ [entry], true, n.log.corrupt || n.log.torn⟩ }
  | tear {ddl entry} (hwrite : o.write ≠ .done) : Advances n o (.appendNewline ddl entry) none n
  | endLine {ddl entry} (hwrite : o.write = .done) : Advances n o (.appendNewline ddl entry)
      (some (.applyEntry ddl entry)) { n with log := { n.log with torn := false } }
  | apply {ddl entry} : Advances n o (.applyEntry ddl entry) (some (.snapshot ddl entry))
      { n with state := activate ddl entry (applyEntryMut n.state entry) }
  | snapshot {ddl entry} :
      Advances n o (.snapshot ddl entry) (some (.put ddl entry n.state)) n
  | miss {ddl entry taken} (hput : o.persisted = false) : Advances n o (.put ddl entry taken) none n
  | put {ddl entry taken} (hput : o.persisted = true) : Advances n o (.put ddl entry taken) none
      { n with
        metadata := some taken
        tasks := n.tasks ++ [.task (spawned ddl entry)]
        returned := n.returned ++ [entry.version] }

/-- A step of the manager, as one of the node. -/
theorem advance_of (n : Node) (o : Outcome) (stage : Stage) {progress : Progress}
    {m : SchemaManager} (h : n.manager.advance (.new 0) o stage.call = (progress, m))
    (hstage : stage.call.isPersist = false) :
    n.advance o stage = (progress.stage, { n with
      state := m.state, version := m.version, log := m.log
      drawn := n.draws o stage ++ n.drawn }) := by
  cases stage with
  | snapshot ddl entry => cases hstage
  | put ddl entry taken => cases hstage
  | _ => simp only [Node.advance, h]

theorem advances (n : Node) (o : Outcome) (stage : Stage) :
    Advances n o stage (n.advance o stage).1 (n.advance o stage).2 := by
  cases stage with
  | checkQuota coll field replacement =>
    rcases advance_checkQuota n.manager (.new 0) o coll field replacement with ⟨-, e, h⟩ | ⟨-, h⟩
    · rw [n.advance_of o (.checkQuota coll field replacement) h rfl]
      exact .refuse
    · rw [n.advance_of o (.checkQuota coll field replacement) h rfl]
      exact .accept
  | nextVersion ddl =>
    rw [n.advance_of o (.nextVersion ddl) (advance_nextVersion n.manager (.new 0) o ddl) rfl]
    exact .draw
  | appendLine ddl entry =>
    simp only [Node.advance, Node.manager, Stage.call, SchemaManager.advance, SchemaLog.appendLine]
    cases hwrite : o.write with
    | done => exact .append (Or.inl hwrite)
    | failed => exact .lose hwrite
    | cut => exact .cut hwrite
    | torn => exact .append (Or.inr hwrite)
  | appendNewline ddl entry =>
    simp only [Node.advance, Node.manager, Stage.call, SchemaManager.advance,
      SchemaLog.appendNewline]
    cases hwrite : o.write with
    | done => exact .endLine hwrite
    | _ => exact .tear (by simp [hwrite])
  | applyEntry ddl entry => exact .apply
  | snapshot ddl entry => exact .snapshot
  | put ddl entry taken =>
    cases hput : o.persisted with
    | false =>
      simp only [Node.advance, hput]
      exact .miss hput
    | true =>
      simp only [Node.advance, hput]
      exact .put hput

/-- What a step of a background task does. -/
inductive Works (n : Node) (o : Outcome) : Background → Option Background → Node → Prop
  | abandon {definition replacement} :
      Works n o (.task (.materialize definition replacement)) none n
  | build {definition replacement} : Works n o (.task (.materialize definition replacement))
      (replacement.map fun old => .task (.swap definition old))
      { n with ready := n.ready.insert definition.id () }
  | swap {definition old} : Works n o (.task (.swap definition old)) (some (.dropOld old.id))
      { n with state := swapState definition old n.state }
  | drop {index ready} (hready : ready = n.ready ∨ ready = n.ready.erase index) :
      Works n o (.task (.dropMaterialized index)) none { n with ready := ready }
  | dropOld {old ready} (hready : ready = n.ready ∨ ready = n.ready.erase old) :
      Works n o (.dropOld old) (some (.snapshot old)) { n with ready := ready }
  | snapshot {old} : Works n o (.snapshot old) (some (.put old n.state)) n
  | miss {old taken} : Works n o (.put old taken) none n
  | put {old taken} : Works n o (.put old taken) none { n with metadata := some taken }

theorem dropMaterialized_eq (n : Node) (index : String) (o : Outcome) :
    ∃ ready, (ready = n.ready ∨ ready = n.ready.erase index) ∧
      n.dropMaterialized index o = { n with ready := ready } := by
  unfold dropMaterialized
  split
  · exact ⟨_, Or.inr rfl, rfl⟩
  · exact ⟨_, Or.inl rfl, rfl⟩

theorem works (n : Node) (o : Outcome) (task : Background) :
    Works n o task (n.work o task).1 (n.work o task).2 := by
  cases task with
  | task t =>
    cases t with
    | materialize definition replacement =>
      cases hbuilt : o.materialized with
      | false =>
        simp only [work, hbuilt]
        exact .abandon
      | true =>
        simp only [work, hbuilt]
        exact .build
    | swap definition old => exact .swap
    | dropMaterialized index =>
      obtain ⟨ready, hready, heq⟩ := n.dropMaterialized_eq index o
      simp only [work, heq]
      exact .drop hready
  | dropOld old =>
    obtain ⟨ready, hready, heq⟩ := n.dropMaterialized_eq old o
    simp only [work, heq]
    exact .dropOld hready
  | snapshot old => exact .snapshot
  | put old taken =>
    cases hput : o.persisted with
    | false =>
      simp only [work, hput]
      exact .miss
    | true =>
      simp only [work, hput]
      exact .put

/-- What an event does. -/
inductive Step (n : Node) : Event → Node → Prop
  | idle {a} : Step n a n
  | create {coll field} (hup : n.up = true) (hrunning : n.manager.createIndex coll field =
        .running (.checkQuota coll field (n.state.replacement coll field))) :
      Step n (.createIndex coll field)
        { n with calls := n.calls ++ [.checkQuota coll field (n.state.replacement coll field)] }
  | drop {coll index idx} (hup : n.up = true) (hidx : idx ∈ n.state.indexes coll)
      (hid : idx.id = index) (hrunning : n.manager.dropIndex coll index =
        .running (.nextVersion (.drop coll index idx.field))) :
      Step n (.dropIndex coll index)
        { n with calls := n.calls ++ [.nextVersion (.drop coll index idx.field)] }
  | call {i o stage next n'} (hi : n.calls[i]? = some stage) (h : Advances n o stage next n') :
      Step n (.call i o) { n' with calls := Pool.resume n.calls i next }
  | task {i o task next n'} (hi : n.tasks[i]? = some task) (h : Works n o task next n') :
      Step n (.task i o) { n' with tasks := Pool.resume n.tasks i next }
  | crash : Step n .crash n.crashed
  | restart {o m metadata} (hup : n.up = false)
      (h : restoreState n.log n.metadata n.maxSecondaryIndexesPerCollection o = .ok (m, metadata)) :
      Step n (.restart o) { n.crashed with
        up := true, state := m.state, version := m.version, metadata := metadata }
  | stuck {o} (hup : n.up = false) : Step n (.restart o) n.crashed

theorem start_create (n : Node) (coll field : String) :
    Step n (.createIndex coll field) (n.start (n.manager.createIndex coll field)) := by
  unfold start
  by_cases hup : n.up = true
  · rw [if_pos hup]
    rcases createIndex_cases n.manager coll field with ⟨-, e, hdone⟩ | ⟨-, -, hrunning⟩
    · simp only [hdone, Progress.stage, Option.toList_none, List.append_nil]
      exact .idle
    · simp only [hrunning, Progress.stage, Option.toList_some]
      exact .create hup hrunning
  · rw [if_neg hup]
    exact .idle

theorem start_drop (n : Node) (coll index : String) :
    Step n (.dropIndex coll index) (n.start (n.manager.dropIndex coll index)) := by
  unfold start
  by_cases hup : n.up = true
  · rw [if_pos hup]
    rcases dropIndex_cases n.manager coll index with
      ⟨-, e, hdone⟩ | ⟨-, -, idx, hidx, hid, hrunning⟩
    · simp only [hdone, Progress.stage, Option.toList_none, List.append_nil]
      exact .idle
    · simp only [hrunning, Progress.stage, Option.toList_some]
      exact .drop hup hidx hid hrunning
  · rw [if_neg hup]
    exact .idle

/-- Every event does one of these. -/
theorem step_next (n : Node) (a : Event) : Step n a (n.next a) := by
  cases a with
  | createIndex coll field => exact n.start_create coll field
  | dropIndex coll index => exact n.start_drop coll index
  | call i o =>
    simp only [next]
    cases hi : n.calls[i]? with
    | none => exact .idle
    | some stage => exact .call hi (n.advances o stage)
  | task i o =>
    simp only [next]
    cases hi : n.tasks[i]? with
    | none => exact .idle
    | some task => exact .task hi (n.works o task)
  | crash => exact .crash
  | restart o =>
    simp only [next]
    cases hup : n.up with
    | true => exact .idle
    | false =>
      simp only [Bool.false_eq_true, if_false, withMaterializer]
      cases h : restoreState n.log n.metadata n.maxSecondaryIndexesPerCollection o with
      | error e => exact .stuck hup
      | ok result => exact .restart hup h

/-- The schema of a node, and the snapshots that it has taken or stored. -/
inductive Holds (n : Node) : SchemaState → Prop
  | state : Holds n n.state
  | metadata {taken} (h : n.metadata = some taken) : Holds n taken
  | call {ddl entry taken} (h : .put ddl entry taken ∈ n.calls) : Holds n taken
  | task {old taken} (h : .put old taken ∈ n.tasks) : Holds n taken

/-- How an event comes to a schema that was not there. -/
inductive Changes (n : Node) : Event → SchemaState → Prop
  | apply {i o ddl entry} (hi : n.calls[i]? = some (.applyEntry ddl entry)) :
      Changes n (.call i o) (activate ddl entry (applyEntryMut n.state entry))
  | swap {i o definition old} (hi : n.tasks[i]? = some (.task (.swap definition old))) :
      Changes n (.task i o) (swapState definition old n.state)
  | reset {a} : Changes n a .default
  | replay {o state} (hmetadata : n.metadata = none)
      (happly : applyLoop .default (n.log.entries.mergeSort fun a b => a.version ≤ b.version) =
        (.ok (), state)) :
      Changes n (.restart o) state

theorem holds_crashed {n : Node} {a : Event} {state : SchemaState} (h : n.crashed.Holds state) :
    n.Holds state ∨ n.Changes a state ∧ state = n.crashed.state := by
  cases h with
  | state => exact Or.inr ⟨.reset, rfl⟩
  | metadata h => exact Or.inl (.metadata h)
  | call h => cases h
  | task h => cases h

theorem holds_call {n n' : Node} {i : Nat} {o : Outcome} {stage : Stage} {next : Option Stage}
    {state : SchemaState} (hi : n.calls[i]? = some stage) (hadvance : n.Advances o stage next n')
    (h : Holds { n' with calls := Pool.resume n.calls i next } state) :
    n.Holds state ∨ n.Changes (.call i o) state ∧ state = n'.state := by
  cases h with
  | state =>
    cases hadvance with
    | apply => exact Or.inr ⟨.apply hi, rfl⟩
    | _ => exact Or.inl .state
  | metadata h =>
    cases hadvance with
    | put hput =>
      cases h
      exact Or.inl (.call (List.mem_of_getElem? hi))
    | _ => exact Or.inl (.metadata h)
  | call h =>
    rcases (Pool.mem_resume hi).mp h with hnext | hother
    · cases hadvance with
      | snapshot =>
        cases hnext
        exact Or.inl .state
      | _ => cases hnext
    · exact Or.inl (.call (List.mem_of_mem_eraseIdx hother))
  | task h =>
    cases hadvance with
    | put hput =>
      rcases List.mem_append.mp h with h | h
      · exact Or.inl (.task h)
      · cases List.mem_singleton.mp h
    | _ => exact Or.inl (.task h)

theorem holds_task {n n' : Node} {i : Nat} {o : Outcome} {task : Background}
    {next : Option Background} {state : SchemaState} (hi : n.tasks[i]? = some task)
    (hwork : n.Works o task next n')
    (h : Holds { n' with tasks := Pool.resume n.tasks i next } state) :
    n.Holds state ∨ n.Changes (.task i o) state ∧ state = n'.state := by
  cases h with
  | state =>
    cases hwork with
    | swap => exact Or.inr ⟨.swap hi, rfl⟩
    | _ => exact Or.inl .state
  | metadata h =>
    cases hwork with
    | put =>
      cases h
      exact Or.inl (.task (List.mem_of_getElem? hi))
    | _ => exact Or.inl (.metadata h)
  | call h =>
    cases hwork with
    | _ => exact Or.inl (.call h)
  | task h =>
    rcases (Pool.mem_resume hi).mp h with hnext | hother
    · cases hwork with
      | snapshot =>
        cases hnext
        exact Or.inl .state
      | build =>
        obtain ⟨old, -, heq⟩ := Option.map_eq_some_iff.mp hnext
        cases heq
      | _ => cases hnext
    · exact Or.inl (.task (List.mem_of_mem_eraseIdx hother))

theorem holds_start {n : Node} {stage : Stage} {state : SchemaState}
    (hstage : ∀ ddl entry taken, stage ≠ .put ddl entry taken)
    (h : Holds { n with calls := n.calls ++ [stage] } state) : n.Holds state := by
  cases h with
  | state => exact .state
  | metadata h => exact .metadata h
  | call h =>
    rcases List.mem_append.mp h with h | h
    · exact .call h
    · exact absurd (List.mem_singleton.mp h).symm (hstage _ _ _)
  | task h => exact .task h

/-- A schema that is there after an event was there before, or is the one that comes from it. -/
theorem holds_of_step {n n' : Node} {a : Event} {state : SchemaState} (hstep : n.Step a n')
    (h : n'.Holds state) : n.Holds state ∨ n.Changes a state ∧ state = n'.state := by
  cases hstep with
  | idle => exact Or.inl h
  | create hup hrunning =>
    refine Or.inl (holds_start ?_ h)
    rintro _ _ _ ⟨⟩
  | drop hup hidx hid hrunning =>
    refine Or.inl (holds_start ?_ h)
    rintro _ _ _ ⟨⟩
  | call hi hadvance => exact (holds_call hi hadvance h :)
  | task hi hwork => exact (holds_task hi hwork h :)
  | crash => exact holds_crashed h
  | stuck hup => exact holds_crashed h
  | restart hup hrestore =>
    rcases restoreState_cases hrestore with
      ⟨hsome, -, rfl⟩ | ⟨-, -, hstate, -, rfl⟩ | ⟨hnone, rfl, -, hloop⟩
    · cases h with
      | state => exact Or.inl (.metadata hsome)
      | metadata h => exact Or.inl (.metadata h)
      | call h => cases h
      | task h => cases h
    · cases h with
      | state =>
        refine Or.inr ⟨?_, rfl⟩
        simp only [hstate]
        exact .reset
      | metadata h => cases h
      | call h => cases h
      | task h => cases h
    · cases h with
      | state => exact Or.inr ⟨.replay hnone hloop, rfl⟩
      | metadata h =>
        cases h
        exact Or.inr ⟨.replay hnone hloop, rfl⟩
      | call h => cases h
      | task h => cases h

end Node

end BashfulDB.Schema
