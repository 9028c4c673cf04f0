import BashfulDB.Library.Steps
import BashfulDB.Schema.Effects
import Mathlib.Order.Bounds.Defs

/-! When the versions of schema, snapshots and answers keep to the order they were drawn in. -/
namespace BashfulDB.Schema

open SchemaManager

/-- The entry that a call has still to apply. -/
def Stage.pending : Stage → Option SchemaLogEntry
  | .appendLine _ entry | .appendNewline _ entry | .applyEntry _ entry => some entry
  | _ => none

/-- A call applies its entry before those that have drawn later versions, and stores its snapshot
over none that is newer. -/
def Stage.Timely (metadata : Option SchemaState) (others : List Stage) (o : Outcome) : Stage → Prop
  | .applyEntry _ entry => ∀ b ∈ others, ∀ e ∈ b.pending, entry.version < e.version
  | .put _ _ taken =>
    o.persisted = true ∧ ∀ stored ∈ metadata, stored.version ≤ taken.version
  | _ => True

instance decidableStageTimely (metadata : Option SchemaState) (others : List Stage) (o : Outcome) :
    (stage : Stage) → Decidable (stage.Timely metadata others o)
  | .applyEntry _ entry =>
    inferInstanceAs (Decidable (∀ b ∈ others, ∀ e ∈ b.pending, entry.version < e.version))
  | .put _ _ taken => inferInstanceAs
      (Decidable (o.persisted = true ∧ ∀ stored ∈ metadata, stored.version ≤ taken.version))
  | .checkQuota _ _ _ | .nextVersion _ | .appendLine _ _ | .appendNewline _ _ | .snapshot _ _ =>
    inferInstanceAs (Decidable True)

def Background.Timely (metadata : Option SchemaState) : Background → Prop
  | .put _ taken => ∀ stored ∈ metadata, stored.version ≤ taken.version
  | _ => True

instance decidableBackgroundTimely (metadata : Option SchemaState) :
    (task : Background) → Decidable (task.Timely metadata)
  | .put _ taken =>
    inferInstanceAs (Decidable (∀ stored ∈ metadata, stored.version ≤ taken.version))
  | .task _ | .dropOld _ | .snapshot _ => inferInstanceAs (Decidable True)

def InOrder (n : Node) : Event → Prop
  | .call i o => ∀ stage ∈ n.calls[i]?, stage.Timely n.metadata (n.calls.eraseIdx i) o
  | .task i _ => ∀ task ∈ n.tasks[i]?, task.Timely n.metadata
  | _ => True

instance decidableInOrder (n : Node) : (a : Event) → Decidable (InOrder n a)
  | .call i o => inferInstanceAs
      (Decidable (∀ stage ∈ n.calls[i]?, stage.Timely n.metadata (n.calls.eraseIdx i) o))
  | .task i _ => inferInstanceAs (Decidable (∀ task ∈ n.tasks[i]?, task.Timely n.metadata))
  | .createIndex _ _ | .dropIndex _ _ | .crash | .restart _ => inferInstanceAs (Decidable True)

/-- The version of a call against that of the schema and the last one drawn. -/
def Stage.Ordered (current version : Nat) : Stage → Prop
  | .checkQuota _ _ _ | .nextVersion _ => True
  | .appendLine _ entry | .appendNewline _ entry | .applyEntry _ entry =>
    current < entry.version ∧ entry.version ≤ version
  | .snapshot _ entry => entry.version ≤ current
  | .put _ entry taken => entry.version ≤ taken.version

structure Node.Ordered (n : Node) : Prop where
  down : n.up = false → n.crashed = n
  version : n.state.version ≤ n.version
  calls : ∀ stage ∈ n.calls, stage.Ordered n.state.version n.version
  holds : n.up = true → ∀ state, n.Holds state → state.version ≤ n.state.version
  returned : ∀ v ∈ n.returned, ∃ stored, n.metadata = some stored ∧ v ≤ stored.version

variable {n n' : Node} {a : Event}

@[simp] theorem version_activate (ddl : Ddl) (entry : SchemaLogEntry) (state : SchemaState) :
    (activate ddl entry state).version = state.version := by
  unfold activate
  split <;> rfl

theorem Stage.Ordered.mono {current version version' : Nat} {stage : Stage}
    (h : stage.Ordered current version) (hle : version ≤ version') :
    stage.Ordered current version' := by
  cases stage with
  | appendLine ddl entry => exact ⟨h.1, h.2.trans hle⟩
  | appendNewline ddl entry => exact ⟨h.1, h.2.trans hle⟩
  | applyEntry ddl entry => exact ⟨h.1, h.2.trans hle⟩
  | _ => exact h

/-- The schema goes on to a version that no other call has still to apply. -/
theorem Stage.Ordered.apply {current current' version : Nat} {stage : Stage}
    (h : stage.Ordered current version) (hle : current ≤ current')
    (hpending : ∀ e ∈ stage.pending, current' < e.version) : stage.Ordered current' version := by
  cases stage with
  | appendLine ddl entry => exact ⟨hpending entry rfl, h.2⟩
  | appendNewline ddl entry => exact ⟨hpending entry rfl, h.2⟩
  | applyEntry ddl entry => exact ⟨hpending entry rfl, h.2⟩
  | snapshot ddl entry => exact h.trans hle
  | _ => exact h

theorem Node.Ordered.up_of_call {i : Nat} {stage : Stage} (h : n.Ordered)
    (hi : n.calls[i]? = some stage) : n.up = true := by
  by_contra hup
  rw [← h.down (by simpa using hup)] at hi
  cases hi

theorem Node.Ordered.up_of_task {i : Nat} {task : Background} (h : n.Ordered)
    (hi : n.tasks[i]? = some task) : n.up = true := by
  by_contra hup
  rw [← h.down (by simpa using hup)] at hi
  cases hi

/-- The version of the schema does not go back between crashes. -/
theorem Node.Ordered.state_le (h : n.Ordered) (hcrash : a ≠ .crash) (hstep : n.Step a n') :
    n.state.version ≤ n'.state.version := by
  cases hstep with
  | idle => exact le_rfl
  | create hup hrunning => exact le_rfl
  | drop hup hidx hid hrunning => exact le_rfl
  | call hi hadvance =>
    cases hadvance with
    | apply =>
      have hstage := h.calls _ (List.mem_of_getElem? hi)
      simpa using hstage.1.le
    | _ => exact le_rfl
  | task hi hwork =>
    cases hwork with
    | swap => exact le_rfl
    | _ => exact le_rfl
  | crash => exact absurd rfl hcrash
  | restart hup hrestore =>
    rw [← h.down hup]
    exact Nat.zero_le _
  | stuck hup =>
    rw [h.down hup]

/-- A step of a call: its version, and what it stores and returns. -/
theorem Node.Ordered.advance {i : Nat} {o : Outcome} {stage : Stage} {next : Option Stage}
    (h : n.Ordered) (hi : n.calls[i]? = some stage) (horder : InOrder n (.call i o))
    (hadvance : n.Advances o stage next n') :
    n'.up = n.up ∧ n'.state.version ≤ n'.version ∧
      (∀ b ∈ Pool.resume n.calls i next, b.Ordered n'.state.version n'.version) ∧
      ∀ v ∈ n'.returned, ∃ stored, n'.metadata = some stored ∧ v ≤ stored.version := by
  have hstage := h.calls stage (List.mem_of_getElem? hi)
  have horder := horder stage hi
  have hcalls (hnext : ∀ b, next = some b → b.Ordered n.state.version n.version) :
      ∀ b ∈ Pool.resume n.calls i next, b.Ordered n.state.version n.version :=
    Pool.forall_resume hi h.calls hnext
  cases hadvance with
  | refuse => exact ⟨rfl, h.version, hcalls (fun b hb => nomatch hb), h.returned⟩
  | accept =>
    refine ⟨rfl, h.version, hcalls ?_, h.returned⟩
    rintro b ⟨⟩
    trivial
  | @draw ddl =>
    refine ⟨rfl, h.version.trans (Nat.le_succ _), ?_, h.returned⟩
    refine Pool.forall_resume hi (fun b hb => (h.calls b hb).mono (Nat.le_succ _)) ?_
    rintro b ⟨⟩
    rw [Stage.Ordered, version_logEntry]
    exact ⟨Nat.lt_succ_of_le h.version, le_rfl⟩
  | lose hwrite => exact ⟨rfl, h.version, hcalls (fun b hb => nomatch hb), h.returned⟩
  | cut hwrite => exact ⟨rfl, h.version, hcalls (fun b hb => nomatch hb), h.returned⟩
  | append hwrite =>
    refine ⟨rfl, h.version, hcalls ?_, h.returned⟩
    rintro b ⟨⟩
    exact hstage
  | tear hwrite => exact ⟨rfl, h.version, hcalls (fun b hb => nomatch hb), h.returned⟩
  | endLine hwrite =>
    refine ⟨rfl, h.version, hcalls ?_, h.returned⟩
    rintro b ⟨⟩
    exact hstage
  | @apply ddl entry =>
    have hversion : (activate ddl entry (applyEntryMut n.state entry)).version = entry.version := by
      simp
    refine ⟨rfl, hversion.trans_le hstage.2, ?_, h.returned⟩
    intro b hb
    change b.Ordered (activate ddl entry (applyEntryMut n.state entry)).version n.version
    rw [hversion]
    rcases (Pool.mem_resume hi).mp hb with hb | hb
    · cases hb
      exact le_rfl
    · exact (h.calls b (List.mem_of_mem_eraseIdx hb)).apply hstage.1.le (horder b hb)
  | snapshot =>
    refine ⟨rfl, h.version, hcalls ?_, h.returned⟩
    rintro b ⟨⟩
    exact hstage
  | miss hput => exact ⟨rfl, h.version, hcalls (fun b hb => nomatch hb), h.returned⟩
  | @put ddl entry taken hput =>
    refine ⟨rfl, h.version, hcalls (fun b hb => nomatch hb), ?_⟩
    intro v hv
    refine ⟨taken, rfl, ?_⟩
    rcases List.mem_append.mp hv with hv | hv
    · obtain ⟨stored, hstored, hle⟩ := h.returned v hv
      exact hle.trans (horder.2 stored hstored)
    · rw [List.mem_singleton.mp hv]
      exact hstage

/-- A step of a task stores nothing older. -/
theorem Node.Ordered.work {i : Nat} {o : Outcome} {task : Background} {next : Option Background}
    (h : n.Ordered) (hi : n.tasks[i]? = some task) (horder : InOrder n (.task i o))
    (hwork : n.Works o task next n') :
    n'.up = n.up ∧ n'.state.version = n.state.version ∧ n'.version = n.version ∧
      n'.calls = n.calls ∧
      ∀ v ∈ n'.returned, ∃ stored, n'.metadata = some stored ∧ v ≤ stored.version := by
  cases hwork with
  | @put old taken =>
    refine ⟨rfl, rfl, rfl, rfl, ?_⟩
    intro v hv
    obtain ⟨stored, hstored, hle⟩ := h.returned v hv
    exact ⟨taken, rfl, hle.trans (horder _ hi stored hstored)⟩
  | _ => exact ⟨rfl, rfl, rfl, rfl, h.returned⟩

theorem Node.Ordered.crashed (h : n.Ordered) : n.crashed.Ordered where
  down _ := rfl
  version := le_rfl
  calls _ hstage := nomatch hstage
  holds hup := nomatch hup
  returned := h.returned

theorem Node.Ordered.restore {m : SchemaManager} {metadata : Option SchemaState} {o : Outcome}
    (h : n.Ordered)
    (hrestore : restoreState n.log n.metadata n.maxSecondaryIndexesPerCollection o =
      .ok (m, metadata)) :
    Node.Ordered { n.crashed with
      up := true, state := m.state, version := m.version, metadata := metadata } := by
  have hversion : m.version = m.state.version := by
    rcases restoreState_cases hrestore with ⟨-, h, -⟩ | ⟨-, -, hstate, h, -⟩ | ⟨-, -, h, -⟩
    · exact h
    · rw [h, hstate]
      rfl
    · exact h
  have hmetadata : ∀ stored, metadata = some stored → stored = m.state := by
    intro stored hstored
    rcases restoreState_cases hrestore with ⟨hsome, -, rfl⟩ | ⟨-, -, -, -, rfl⟩ | ⟨-, rfl, -⟩
    · exact Option.some.inj (hstored.symm.trans hsome)
    · cases hstored
    · exact (Option.some.inj hstored).symm
  have hreturned : ∀ v ∈ n.returned, ∃ stored, metadata = some stored ∧ v ≤ stored.version := by
    intro v hv
    obtain ⟨stored, hstored, hle⟩ := h.returned v hv
    rcases restoreState_cases hrestore with ⟨-, -, rfl⟩ | ⟨hnone, -⟩ | ⟨hnone, -⟩
    · exact ⟨stored, hstored, hle⟩
    · cases hstored.symm.trans hnone
    · cases hstored.symm.trans hnone
  refine ⟨(fun hup => nomatch hup), hversion.ge, (fun _ hstage => nomatch hstage), ?_, hreturned⟩
  intro _ state hstate
  cases hstate with
  | state => exact le_rfl
  | metadata hstored => exact (congrArg SchemaState.version (hmetadata _ hstored)).le
  | call hstage => cases hstage
  | task htask => cases htask

/-- What an event preserves. -/
theorem Node.Ordered.step (h : n.Ordered) (horder : InOrder n a) (hstep : n.Step a n') :
    n'.Ordered := by
  have hholds (hup : n.up = true) (hcrash : a ≠ .crash) :
      ∀ state, n'.Holds state → state.version ≤ n'.state.version := by
    intro state hstate
    rcases holds_of_step hstep hstate with hold | ⟨-, rfl⟩
    · exact (h.holds hup state hold).trans (h.state_le hcrash hstep)
    · exact le_rfl
  -- A call that starts has no version yet.
  have hstart {stage : Stage} (hstage : stage.Ordered n.state.version n.version) :
      ∀ b ∈ n.calls ++ [stage], b.Ordered n.state.version n.version :=
    Pool.forall_concat h.calls hstage
  cases hstep with
  | idle => exact h
  | create hup hrunning =>
    exact ⟨(fun hdown => nomatch hup.symm.trans hdown), h.version, hstart trivial,
      (fun _ => hholds hup (fun hcrash => nomatch hcrash)), h.returned⟩
  | drop hup hidx hid hrunning =>
    exact ⟨(fun hdown => nomatch hup.symm.trans hdown), h.version, hstart trivial,
      (fun _ => hholds hup (fun hcrash => nomatch hcrash)), h.returned⟩
  | call hi hadvance =>
    obtain ⟨hsame, hversion, hcalls, hreturned⟩ := h.advance hi horder hadvance
    have hup := h.up_of_call hi
    exact ⟨(fun hdown => nomatch hup.symm.trans (hsame.symm.trans hdown)), hversion, hcalls,
      (fun _ => hholds hup (fun hcrash => nomatch hcrash)), hreturned⟩
  | task hi hwork =>
    obtain ⟨hsame, hstate, hversion, hcalls, hreturned⟩ := h.work hi horder hwork
    have hup := h.up_of_task hi
    refine ⟨(fun hdown => nomatch hup.symm.trans (hsame.symm.trans hdown)), ?_, ?_,
      (fun _ => hholds hup (fun hcrash => nomatch hcrash)), hreturned⟩
    · simp only [hstate, hversion]
      exact h.version
    · simp only [hstate, hversion, hcalls]
      exact h.calls
  | crash => exact h.crashed
  | restart hup hrestore => exact h.restore hrestore
  | stuck hup => exact h.crashed

theorem ordered_new (limit : Nat) : (Node.new limit).Ordered where
  down hup := nomatch hup
  version := le_rfl
  calls _ hstage := nomatch hstage
  holds _ state hstate := by
    cases hstate with
    | state => exact le_rfl
    | metadata hstored => cases hstored
    | call hstage => cases hstage
    | task htask => cases htask
  returned _ hv := nomatch hv

/-- The entry that a call has applied and not yet answered for. -/
def Stage.finishing : Stage → Option SchemaLogEntry
  | .snapshot _ entry | .put _ entry _ => some entry
  | _ => none

/-- The version of the schema was returned by a call, or is going to be. -/
def Node.Answered (n : Node) : Prop :=
  n.state.version = 0 ∨ n.state.version ∈ n.returned ∨
    ∃ stage ∈ n.calls, ∃ entry, stage.finishing = some entry ∧ entry.version = n.state.version

theorem Node.Answered.advance {i : Nat} {o : Outcome} {stage : Stage} {next : Option Stage}
    (h : n.Answered) (hi : n.calls[i]? = some stage) (horder : InOrder n (.call i o))
    (hadvance : n.Advances o stage next n') :
    Node.Answered { n' with calls := Pool.resume n.calls i next } := by
  have horder := horder stage hi
  have hothers {b : Stage} (hb : b ∈ n.calls) (hne : b ≠ stage) :
      b ∈ Pool.resume n.calls i next := Pool.mem_resume_of_ne hi hb hne
  -- What another call answers for, it still does; the stages before have nothing to answer for.
  have hkeep (hnone : stage.finishing = none) :
      n.state.version = 0 ∨ n.state.version ∈ n.returned ∨ ∃ b ∈ Pool.resume n.calls i next,
        ∃ entry, b.finishing = some entry ∧ entry.version = n.state.version := by
    refine h.imp id (Or.imp id ?_)
    rintro ⟨b, hb, entry, hentry, hversion⟩
    refine ⟨b, hothers hb ?_, entry, hentry, hversion⟩
    rintro rfl
    cases hnone.symm.trans hentry
  cases hadvance with
  | refuse => exact hkeep rfl
  | accept => exact hkeep rfl
  | draw => exact hkeep rfl
  | lose hwrite => exact hkeep rfl
  | cut hwrite => exact hkeep rfl
  | append hwrite => exact hkeep rfl
  | tear hwrite => exact hkeep rfl
  | endLine hwrite => exact hkeep rfl
  | @apply ddl entry =>
    refine Or.inr (Or.inr ⟨.snapshot ddl entry, ?_, entry, rfl, by simp⟩)
    exact (Pool.mem_resume hi).mpr (Or.inl rfl)
  | @snapshot ddl entry =>
    refine h.imp id (Or.imp id ?_)
    rintro ⟨b, hb, e, he, hversion⟩
    by_cases hown : b = .snapshot ddl entry
    · subst hown
      cases he
      exact ⟨.put ddl entry n.state, (Pool.mem_resume hi).mpr (Or.inl rfl), entry, rfl, hversion⟩
    · exact ⟨b, hothers hb hown, e, he, hversion⟩
  | miss hput => cases hput.symm.trans horder.1
  | @put ddl entry taken hput =>
    rcases h with h | h | ⟨b, hb, e, he, hversion⟩
    · exact Or.inl h
    · exact Or.inr (Or.inl (List.mem_append_left _ h))
    · by_cases hown : b = .put ddl entry taken
      · subst hown
        cases he
        exact Or.inr (Or.inl (List.mem_append_right _ (List.mem_singleton.mpr hversion.symm)))
      · exact Or.inr (Or.inr ⟨b, hothers hb hown, e, he, hversion⟩)

/-- What an event preserves between crashes. -/
theorem Node.Answered.step (h : n.Answered) (hup : n.up = true) (horder : InOrder n a)
    (hcrash : a ≠ .crash) (hstep : n.Step a n') : n'.up = true ∧ n'.Answered := by
  have hstart (stage : Stage) : Node.Answered { n with calls := n.calls ++ [stage] } := by
    refine h.imp id (Or.imp id ?_)
    rintro ⟨b, hb, hfinishing⟩
    exact ⟨b, List.mem_append_left _ hb, hfinishing⟩
  cases hstep with
  | idle => exact ⟨hup, h⟩
  | create hup hrunning => exact ⟨hup, hstart _⟩
  | drop hup hidx hid hrunning => exact ⟨hup, hstart _⟩
  | call hi hadvance =>
    refine ⟨?_, h.advance hi horder hadvance⟩
    cases hadvance with
    | _ => exact hup
  | task hi hwork =>
    cases hwork with
    | _ => exact ⟨hup, h⟩
  | crash => exact absurd rfl hcrash
  | restart hdown hrestore => cases hup.symm.trans hdown
  | stuck hdown => cases hup.symm.trans hdown

/-- At rest, what is stored has the version of the schema, and that is the last one returned. -/
theorem Node.Ordered.isGreatest (h : n.Ordered) (hup : n.up = true) (hanswered : n.Answered)
    (hrest : n.calls = []) (hreturned : n.returned ≠ []) :
    ∃ stored, n.metadata = some stored ∧ IsGreatest {v | v ∈ n.returned} stored.version := by
  obtain ⟨v, hv⟩ := List.exists_mem_of_ne_nil _ hreturned
  obtain ⟨stored, hstored, hle⟩ := h.returned v hv
  have hupper : ∀ w ∈ n.returned, w ≤ stored.version := by
    intro w hw
    obtain ⟨stored', hstored', hle⟩ := h.returned w hw
    rwa [Option.some.inj (hstored.symm.trans hstored')]
  have hstate : stored.version ≤ n.state.version := h.holds hup stored (.metadata hstored)
  refine ⟨stored, hstored, ?_, hupper⟩
  rcases hanswered with hzero | hmem | ⟨stage, hstage, -⟩
  · have heq : v = stored.version := by omega
    exact heq ▸ hv
  · have heq : n.state.version = stored.version := le_antisymm (hupper _ hmem) hstate
    exact heq ▸ hmem
  · rw [hrest] at hstage
    cases hstage

/-- In every run in which entries are applied in the order of their versions and no snapshot is
stored over a newer one, the schema's version never goes back, the snapshot at rest has the largest
version returned, and a restart goes on above all of them. -/
theorem versions_in_order (limit : Nat) (events : List Event) (a : Event)
    (hcrash : ∀ e ∈ events ++ [a], e ≠ .crash)
    (horder : Throughout Node.next InOrder (.new limit) events) :
    let n := events.foldl Node.next (.new limit)
    n.state.version ≤ (n.next a).state.version ∧
      (n.calls = [] → n.returned ≠ [] →
        ∃ stored, n.metadata = some stored ∧ IsGreatest {v | v ∈ n.returned} stored.version) ∧
      ∀ o, ∀ v ∈ n.returned, v ≤ (n.crashed.next (.restart o)).version := by
  have hok : Throughout Node.next (fun n a => InOrder n a ∧ a ≠ .crash) (.new limit) events :=
    horder.and (.of_forall fun e he => hcrash e (List.mem_append_left _ he))
  obtain ⟨hordered, hup, hanswered⟩ := hok.invariant
    (I := fun n => n.Ordered ∧ n.up = true ∧ n.Answered)
    (fun n a ok h => ⟨h.1.step ok.1 (n.step_next a),
      h.2.2.step h.2.1 ok.1 ok.2 (n.step_next a)⟩)
    ⟨ordered_new limit, rfl, Or.inl rfl⟩
  revert hordered hup hanswered
  generalize events.foldl Node.next (.new limit) = n
  intro hordered hup hanswered
  refine ⟨hordered.state_le (hcrash a (by simp)) (n.step_next a),
    hordered.isGreatest hup hanswered, ?_⟩
  intro o v hv
  obtain ⟨stored, hstored, hle⟩ := hordered.returned v hv
  have hversion : (n.crashed.next (.restart o)).version = stored.version := by
    simp [Node.next, Node.withMaterializer, restoreState, Node.crashed, hstored]
  rwa [hversion]

/-- Two calls side by side, up to where both have logged their entries. -/
def twoCreations : List Event :=
  [.createIndex "users" "name", .createIndex "users" "age",
    .call 0 (succeeding 1), .call 1 (succeeding 2), .call 0 (succeeding 1), .call 1 (succeeding 2),
    .call 0 (succeeding 1), .call 0 (succeeding 1), .call 1 (succeeding 2), .call 1 (succeeding 2)]

/-- They apply their entries in the order of their versions. -/
def inTurn : List Event :=
  twoCreations ++ Event.call 0 (succeeding 1) :: Event.call 1 (succeeding 2) ::
    List.replicate 4 (Event.call 0 (succeeding 1))

theorem inTurn_isGreatest : (inTurn.foldl Node.next (.new 8)).returned = [1, 2] ∧
    ∃ stored, (inTurn.foldl Node.next (.new 8)).metadata = some stored ∧
      IsGreatest {v | v ∈ (inTurn.foldl Node.next (.new 8)).returned} stored.version := by
  refine ⟨by decide +kernel, ?_⟩
  have h := versions_in_order 8 inTurn (.dropIndex "users" "")
    (by simp [inTurn, twoCreations]) (by decide +kernel)
  exact h.2.1 (List.isEmpty_iff.mp (by decide +kernel)) (by decide +kernel)

/-- The call with the second version is faster with its entry and its snapshot. -/
def racing : List Event :=
  twoCreations ++ Event.call 1 (succeeding 2) :: Event.call 0 (succeeding 1) ::
    (List.replicate 2 (Event.call 1 (succeeding 2)) ++
      List.replicate 2 (Event.call 0 (succeeding 1)))

/-- The schema goes back to the first version, which is stored at rest, and a restart gives the
second one again. -/
theorem racing_versions :
    ((racing.take 11).foldl Node.next (.new 8)).state.version = 2 ∧
    ((racing.take 12).foldl Node.next (.new 8)).state.version = 1 ∧
    (racing.foldl Node.next (.new 8)).calls.length = 0 ∧
    (racing.foldl Node.next (.new 8)).returned = [2, 1] ∧
    (racing.foldl Node.next (.new 8)).metadata.map SchemaState.version = some 1 ∧
    ((racing.foldl Node.next (.new 8)).crashed.next (.restart (succeeding 0))).version = 1 := by
  decide +kernel

end BashfulDB.Schema
