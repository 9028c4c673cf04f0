import BashfulDB.Schema.References
import BashfulDB.Schema.Versions

/-! When calls side by side keep to the quota of a collection. -/
namespace BashfulDB.Schema

open SchemaManager

def Node.KeepsQuota (coll : String) (n : Node) : Prop :=
  n.state.activeCount coll ≤ n.maxSecondaryIndexesPerCollection

/-- The field is active, or the quota has room for it. -/
def Node.HasRoom (n : Node) (coll field : String) : Prop :=
  (n.state.active coll field).isSome ∨
    n.state.activeCount coll < n.maxSecondaryIndexesPerCollection

/-- A creation is applied when there is room for its field. -/
def Stage.Fits (n : Node) (coll : String) : Stage → Prop
  | .applyEntry (.create c field _) _ => c = coll → n.HasRoom coll field
  | _ => True

/-- A replacement takes over when there is room for its field. -/
def Background.Fits (n : Node) (coll : String) : Background → Prop
  | .task (.swap definition _) =>
    definition.collection = coll → (n.state.activeByField.get coll).isSome →
      n.HasRoom coll definition.field
  | _ => True

/-- The quota would be checked again, with success, where a field becomes active. -/
def Rechecked (coll : String) (n : Node) : Event → Prop
  | .call i _ => ∀ stage ∈ n.calls[i]?, stage.Fits n coll
  | .task i _ => ∀ task ∈ n.tasks[i]?, task.Fits n coll
  | _ => True

/-- The collection and field of a creation under way, and whether it is past its check. Until then
it goes by the active index that it has read. -/
def Stage.relies : Stage → Option (String × String × Bool)
  | .checkQuota coll field (some _) => some (coll, field, false)
  | .nextVersion (.create coll field _) | .appendLine (.create coll field _) _
  | .appendNewline (.create coll field _) _
  | .applyEntry (.create coll field _) _ => some (coll, field, true)
  | _ => none

/-- The collection of the entry that a call applies. -/
def Stage.applies : Stage → Option String
  | .applyEntry _ entry => some entry.collection
  | _ => none

/-- The field of a replacement that takes over is still active. -/
def Background.Current (state : SchemaState) (coll : String) : Background → Prop
  | .task (.swap definition _) =>
    definition.collection = coll → (state.active coll definition.field).isSome
  | _ => True

/-- Nothing is applied to the collection while another creation on it is under way. -/
def Undisturbed (coll : String) (n : Node) : Event → Prop
  | .call i _ => ∀ stage ∈ n.calls[i]?, stage.applies = some coll →
      ∀ other ∈ n.calls.eraseIdx i, ∀ r ∈ other.relies, r.1 ≠ coll
  | .task i _ => ∀ task ∈ n.tasks[i]?, task.Current n.state coll
  | _ => True

instance decidableCurrent (state : SchemaState) (coll : String) :
    (task : Background) → Decidable (task.Current state coll)
  | .task (.swap definition _) => inferInstanceAs (Decidable
      (definition.collection = coll → (state.active coll definition.field).isSome))
  | .task (.materialize _ _) | .task (.dropMaterialized _) | .dropOld _ | .snapshot _ | .put _ _ =>
    inferInstanceAs (Decidable True)

instance decidableUndisturbed (coll : String) (n : Node) :
    (a : Event) → Decidable (Undisturbed coll n a)
  | .call i _ => inferInstanceAs (Decidable (∀ stage ∈ n.calls[i]?, stage.applies = some coll →
      ∀ other ∈ n.calls.eraseIdx i, ∀ r ∈ other.relies, r.1 ≠ coll))
  | .task i _ => inferInstanceAs (Decidable (∀ task ∈ n.tasks[i]?, task.Current n.state coll))
  | .createIndex _ _ | .dropIndex _ _ | .crash | .restart _ => inferInstanceAs (Decidable True)

section Count

variable {state : SchemaState} {entry : SchemaLogEntry} {coll : String}

theorem activeCount_create (h : entry.op = .createIndex) :
    (applyEntryMut state entry).activeCount coll =
      if coll = entry.collection ∧ (state.active coll entry.field).isSome = false then
        state.activeCount coll + 1
      else state.activeCount coll := by
  simp only [applyEntryMut, h, SchemaState.activeCount, SchemaState.active]
  by_cases hcoll : coll = entry.collection
  · subst hcoll
    rcases Option.eq_none_or_eq_some (state.activeByField.get entry.collection) with
      hget | ⟨active, hget⟩
    · have hone : (OrdMap.empty.insert entry.field entry.indexId).length = 1 := rfl
      simp [hget, hone]
    · cases hfield : active.get entry.field <;> simp [hget, OrdMap.length_insert, hfield]
  · simp [hcoll, OrdMap.get_insert_of_ne _ hcoll]

theorem activeCount_drop_le (h : entry.op = .dropIndex) :
    (applyEntryMut state entry).activeCount coll ≤ state.activeCount coll := by
  simp only [applyEntryMut, h, SchemaState.activeCount]
  cases hget : state.activeByField.get entry.collection with
  | none => exact le_rfl
  | some active =>
    dsimp only
    split
    · by_cases hcoll : coll = entry.collection
      · subst hcoll
        simpa [hget] using OrdMap.length_erase_le active
      · simp [OrdMap.get_insert_of_ne _ hcoll]
    · exact le_rfl

theorem activeCount_swap {definition old : IndexDefinition} :
    (swapState definition old state).activeCount coll =
      if (coll = definition.collection ∧ (state.activeByField.get coll).isSome) ∧
          (state.active coll definition.field).isSome = false then
        state.activeCount coll + 1
      else state.activeCount coll := by
  simp only [swapState, SchemaState.activeCount, SchemaState.active]
  by_cases hcoll : coll = definition.collection
  · subst hcoll
    rcases Option.eq_none_or_eq_some (state.activeByField.get definition.collection) with
      hget | ⟨active, hget⟩
    · simp [hget]
    · cases hfield : active.get definition.field <;> simp [hget, OrdMap.length_insert, hfield]
  · cases state.activeByField.get definition.collection <;>
      simp [hcoll, OrdMap.get_insert_of_ne _ hcoll]

theorem count_le_iff {p : Prop} [Decidable p] {active : Bool} {count limit : Nat}
    (h : count ≤ limit) :
    (if p ∧ active = false then count + 1 else count) ≤ limit ↔
      (p → active = true ∨ count < limit) := by
  constructor
  · intro hle hp
    cases active with
    | true => exact Or.inl rfl
    | false =>
      rw [if_pos ⟨hp, rfl⟩] at hle
      exact Or.inr hle
  · intro himp
    split
    · rename_i hnew
      rcases himp hnew.1 with hactive | hlt
      · exact absurd (hnew.2.symm.trans hactive) (by decide)
      · exact hlt
    · exact h

end Count

/-- The schema after a step of a call. -/
def Stage.after (state : SchemaState) : Stage → SchemaState
  | .applyEntry _ entry => applyEntryMut state entry
  | _ => state

/-- The schema after a step of a background task. -/
def Background.after (state : SchemaState) : Background → SchemaState
  | .task (.swap definition old) => swapState definition old state
  | _ => state

/-- The node is up, and the entry of a call is the one that its operation makes. -/
structure Node.Matched (n : Node) : Prop where
  up : n.up = true
  held : ∀ stage ∈ n.calls, ∀ ddl entry, stage.held = some (ddl, entry) →
    ∃ v o, entry = logEntry ddl v o

variable {n n' : Node} {coll field : String} {a : Event} {stage : Stage} {i : Nat} {o : Outcome}

theorem held_of_advances {next : Stage} {ddl : Ddl} {entry : SchemaLogEntry}
    (h : n.Advances o stage (some next) n') (hheld : next.held = some (ddl, entry)) :
    stage.held = some (ddl, entry) ∨ entry = logEntry ddl (n.version + 1) o := by
  cases h with
  | accept => cases hheld
  | draw =>
    cases hheld
    exact Or.inr rfl
  | append hwrite => exact Or.inl hheld
  | endLine hwrite => exact Or.inl hheld
  | apply => exact Or.inl hheld
  | snapshot => exact Or.inl hheld

theorem Node.Matched.step (h : n.Matched) (hcrash : a ≠ .crash) (hstep : n.Step a n') :
    n'.Matched := by
  cases hstep with
  | idle => exact h
  | create hup hrunning =>
    exact ⟨hup, Pool.forall_concat h.held fun ddl entry hheld => nomatch hheld⟩
  | drop hup hidx hid hrunning =>
    exact ⟨hup, Pool.forall_concat h.held fun ddl entry hheld => nomatch hheld⟩
  | call hi hadvance =>
    refine ⟨?_, Pool.forall_resume hi h.held ?_⟩
    · cases hadvance <;> exact h.up
    · rintro next rfl ddl entry hheld
      rcases held_of_advances hadvance hheld with hheld | rfl
      · exact h.held _ (List.mem_of_getElem? hi) ddl entry hheld
      · exact ⟨_, _, rfl⟩
  | task hi hwork => cases hwork <;> exact ⟨h.up, h.held⟩
  | crash => exact absurd rfl hcrash
  | restart hup hrestore => exact absurd (h.up.symm.trans hup) (by decide)
  | stuck hup => exact absurd (h.up.symm.trans hup) (by decide)

theorem limit_of_step (hstep : n.Step a n') :
    n'.maxSecondaryIndexesPerCollection = n.maxSecondaryIndexesPerCollection := by
  cases hstep with
  | call hi hadvance => cases hadvance <;> rfl
  | task hi hwork => cases hwork <;> rfl
  | _ => rfl

@[simp] theorem state_start (progress : Progress) : (n.start progress).state = n.state := by
  unfold Node.start
  split <;> rfl

theorem state_next_call (h : n.Matched) (hi : n.calls[i]? = some stage) :
    (n.next (.call i o)).state = stage.after n.state := by
  have hadvance := n.advances o stage
  rcases hresult : n.advance o stage with ⟨next, n'⟩
  simp only [hresult] at hadvance
  simp only [Node.next, hi, hresult]
  cases hadvance with
  | @apply ddl entry =>
    obtain ⟨v, o', rfl⟩ := h.held _ (List.mem_of_getElem? hi) ddl entry rfl
    exact activate_logEntry n.state
  | _ => rfl

theorem state_next_task {task : Background} (hi : n.tasks[i]? = some task) :
    (n.next (.task i o)).state = task.after n.state := by
  have hwork := n.works o task
  rcases hresult : n.work o task with ⟨next, n'⟩
  simp only [hresult] at hwork
  simp only [Node.next, hi, hresult]
  cases hwork <;> rfl

/-- A step of a call keeps to the quota exactly when there is room for what it activates. -/
theorem activeCount_stage_le_iff (h : n.Matched) (hstage : stage ∈ n.calls)
    (hkept : n.KeepsQuota coll) :
    (stage.after n.state).activeCount coll ≤ n.maxSecondaryIndexesPerCollection ↔
      stage.Fits n coll := by
  cases stage with
  | applyEntry ddl entry =>
    obtain ⟨v, o, rfl⟩ := h.held _ hstage ddl entry rfl
    cases ddl with
    | create c field replacement =>
      rw [Stage.after, activeCount_create rfl, count_le_iff hkept]
      exact imp_congr eq_comm Iff.rfl
    | drop c index field => exact iff_of_true ((activeCount_drop_le rfl).trans hkept) trivial
  | _ => exact iff_of_true hkept trivial

theorem activeCount_task_le_iff {task : Background} (hkept : n.KeepsQuota coll) :
    (task.after n.state).activeCount coll ≤ n.maxSecondaryIndexesPerCollection ↔
      task.Fits n coll := by
  cases task with
  | task t =>
    cases t with
    | swap definition old =>
      rw [Background.after, activeCount_swap, count_le_iff hkept, and_imp]
      exact imp_congr eq_comm Iff.rfl
    | _ => exact iff_of_true hkept trivial
  | _ => exact iff_of_true hkept trivial

/-- A step that is rechecked is one that keeps to the quota. -/
theorem keepsQuota_next_iff (h : n.Matched) (hcrash : a ≠ .crash) (hkept : n.KeepsQuota coll) :
    (n.next a).KeepsQuota coll ↔ Rechecked coll n a := by
  rw [Node.KeepsQuota, limit_of_step (n.step_next a)]
  cases a with
  | createIndex c field =>
    rw [Node.next, state_start]
    exact iff_of_true hkept trivial
  | dropIndex c index =>
    rw [Node.next, state_start]
    exact iff_of_true hkept trivial
  | call i o =>
    cases hi : n.calls[i]? with
    | none =>
      simp only [Node.next, Rechecked, hi]
      exact iff_of_true hkept (by simp)
    | some stage =>
      rw [state_next_call h hi, activeCount_stage_le_iff h (List.mem_of_getElem? hi) hkept]
      simp only [Rechecked, hi, Option.mem_def, Option.some.injEq, forall_eq']
  | task i o =>
    cases hi : n.tasks[i]? with
    | none =>
      simp only [Node.next, Rechecked, hi]
      exact iff_of_true hkept (by simp)
    | some task =>
      rw [state_next_task hi, activeCount_task_le_iff hkept]
      simp only [Rechecked, hi, Option.mem_def, Option.some.injEq, forall_eq']
  | crash => exact absurd rfl hcrash
  | restart o =>
    rw [Node.next, if_pos h.up]
    exact iff_of_true hkept trivial

/-- What a creation on the collection relies on. -/
def Stage.Entitled (n : Node) (coll : String) (stage : Stage) : Prop :=
  ∀ field checked, stage.relies = some (coll, field, checked) →
    (n.state.active coll field).isSome ∨
      checked = true ∧ n.state.activeCount coll < n.maxSecondaryIndexesPerCollection

structure Node.Guarded (coll : String) (n : Node) : Prop extends n.Matched where
  calls : ∀ stage ∈ n.calls, stage.Entitled n coll

theorem Stage.Entitled.mono (h : stage.Entitled n coll)
    (hactive : ∀ field, (n.state.active coll field).isSome → (n'.state.active coll field).isSome)
    (hcount : n'.state.activeCount coll ≤ n.state.activeCount coll)
    (hlimit : n'.maxSecondaryIndexesPerCollection = n.maxSecondaryIndexesPerCollection) :
    stage.Entitled n' coll := by
  intro field checked hrelies
  rcases h field checked hrelies with hfield | ⟨hchecked, hlt⟩
  · exact Or.inl (hactive field hfield)
  · exact Or.inr ⟨hchecked, by omega⟩

/-- A call that applies nothing to the collection leaves it as it is. -/
theorem active_after {state : SchemaState} (h : stage.applies ≠ some coll) :
    (stage.after state).active coll field = state.active coll field := by
  cases stage with
  | applyEntry ddl entry =>
    have hne : coll ≠ entry.collection := fun hcoll => h (congrArg some hcoll.symm)
    cases hop : entry.op with
    | createIndex => rw [Stage.after, active_create hop, if_neg fun hand => hne hand.1]
    | dropIndex => rw [Stage.after, active_drop hop, if_neg fun hand => hne hand.1]
  | _ => rfl

theorem activeCount_after_le {state : SchemaState} (h : stage.applies ≠ some coll) :
    (stage.after state).activeCount coll ≤ state.activeCount coll := by
  cases stage with
  | applyEntry ddl entry =>
    have hne : coll ≠ entry.collection := fun hcoll => h (congrArg some hcoll.symm)
    cases hop : entry.op with
    | createIndex => rw [Stage.after, activeCount_create hop, if_neg fun hand => hne hand.1]
    | dropIndex => exact activeCount_drop_le hop
  | _ => exact le_rfl

theorem Stage.Entitled.call {other : Stage} (h : other.Entitled n coll) (hmatched : n.Matched)
    (hi : n.calls[i]? = some stage) (happlies : stage.applies ≠ some coll) :
    other.Entitled (n.next (.call i o)) coll := by
  have hstate := state_next_call (o := o) hmatched hi
  refine h.mono ?_ ?_ (limit_of_step (n.step_next _))
  · intro field hfield
    rwa [hstate, active_after happlies]
  · rw [hstate]
    exact activeCount_after_le happlies

theorem isSome_active_task {state : SchemaState} {task : Background}
    (h : (state.active coll field).isSome) : ((task.after state).active coll field).isSome := by
  cases task with
  | task t =>
    cases t with
    | swap definition old =>
      rw [Background.after, active_swap]
      split
      · rfl
      · exact h
    | _ => exact h
  | _ => exact h

theorem activeCount_task_le {state : SchemaState} {task : Background}
    (h : task.Current state coll) :
    (task.after state).activeCount coll ≤ state.activeCount coll := by
  cases task with
  | task t =>
    cases t with
    | swap definition old =>
      rw [Background.after, activeCount_swap, if_neg]
      rintro ⟨⟨hcoll, -⟩, hnone⟩
      exact absurd ((h hcoll.symm).symm.trans hnone) (by decide)
    | _ => exact le_rfl
  | _ => exact le_rfl

theorem Stage.Entitled.task {task : Background} (h : stage.Entitled n coll)
    (hi : n.tasks[i]? = some task) (hcurrent : task.Current n.state coll) :
    stage.Entitled (n.next (.task i o)) coll := by
  have hstate := state_next_task (o := o) hi
  refine h.mono ?_ ?_ (limit_of_step (n.step_next _))
  · intro field hfield
    rw [hstate]
    exact isSome_active_task hfield
  · rw [hstate]
    exact activeCount_task_le hcurrent

theorem room_of_checkQuota {c : String} {replacement : Option IndexDefinition} {next : Stage}
    (h : (n.advance o (.checkQuota c field replacement)).1 = some next) :
    replacement.isSome ∨ n.state.activeCount c < n.maxSecondaryIndexesPerCollection := by
  simp only [Node.advance, Stage.call, SchemaManager.advance] at h
  by_cases hfull : (n.manager.state.activeByField.get c).elim 0 OrdMap.length ≥
      n.manager.maxSecondaryIndexesPerCollection ∧ replacement.isNone = true
  · rw [if_pos hfull] at h
    cases h
  · cases replacement with
    | some old => exact Or.inl rfl
    | none => exact Or.inr (Nat.lt_of_not_le fun hle => hfull ⟨hle, rfl⟩)

/-- A creation goes past its check with an active field, or with room. -/
theorem Stage.Entitled.advance (h : stage.Entitled n coll) {next : Stage}
    (hnext : (n.advance o stage).1 = some next) : next.Entitled n coll := by
  have hadvance := n.advances o stage
  rw [hnext] at hadvance
  generalize (n.advance o stage).2 = n' at hadvance
  intro field checked hrelies
  cases hadvance with
  | @accept c f replacement =>
    cases hrelies
    cases replacement with
    | some old =>
      have hactive := h field false rfl
      exact Or.inl (hactive.resolve_right fun hchecked => nomatch hchecked.1)
    | none =>
      have hroom := room_of_checkQuota hnext
      exact Or.inr ⟨rfl, hroom.resolve_left fun hsome => nomatch hsome⟩
  | @draw ddl => cases ddl <;> exact h field checked hrelies
  | @append ddl entry hwrite => cases ddl <;> exact h field checked hrelies
  | @endLine ddl entry hwrite => cases ddl <;> exact h field checked hrelies
  | apply => cases hrelies
  | snapshot => cases hrelies

theorem Node.Guarded.call (h : n.Guarded coll) (hok : Undisturbed coll n (.call i o)) :
    ∀ other ∈ (n.next (.call i o)).calls, other.Entitled (n.next (.call i o)) coll := by
  cases hi : n.calls[i]? with
  | none =>
    simp only [Node.next, hi]
    exact h.calls
  | some stage =>
    intro other hother
    have hstage := List.mem_of_getElem? hi
    have hcalls : (n.next (.call i o)).calls = Pool.resume n.calls i (n.advance o stage).1 := by
      simp only [Node.next, hi]
    rw [hcalls, Pool.mem_resume hi] at hother
    by_cases happlies : stage.applies = some coll
    · -- the call itself is applied now, and no other one relies on the collection
      intro field checked hrelies
      rcases hother with hnext | hother
      · cases stage with
        | applyEntry ddl entry =>
          cases hnext
          cases hrelies
        | _ => cases happlies
      · exact absurd rfl (hok stage hi happlies other hother _ hrelies)
    · rcases hother with hnext | hother
      · exact ((h.calls stage hstage).advance hnext).call h.toMatched hi happlies
      · exact (h.calls other (List.mem_of_mem_eraseIdx hother)).call h.toMatched hi happlies

theorem Node.Guarded.task (h : n.Guarded coll) (hok : Undisturbed coll n (.task i o)) :
    ∀ other ∈ (n.next (.task i o)).calls, other.Entitled (n.next (.task i o)) coll := by
  cases hi : n.tasks[i]? with
  | none =>
    simp only [Node.next, hi]
    exact h.calls
  | some task =>
    have hcalls : (n.next (.task i o)).calls = n.calls := by
      have hwork := n.works o task
      rcases hresult : n.work o task with ⟨next, n'⟩
      simp only [hresult] at hwork
      simp only [Node.next, hi, hresult]
      cases hwork <;> rfl
    rw [hcalls]
    intro other hother
    exact (h.calls other hother).task hi (hok task hi)

/-- A new call is entitled to the active index that it has read. -/
theorem Node.Guarded.start (h : n.Guarded coll) {progress : Progress}
    (hnew : ∀ stage, progress.stage = some stage → stage.Entitled n coll) :
    ∀ stage ∈ (n.start progress).calls, stage.Entitled (n.start progress) coll := by
  unfold Node.start
  rw [if_pos h.up]
  intro stage hstage
  rcases List.mem_append.mp hstage with hstage | hstage
  · exact h.calls stage hstage
  · exact hnew stage (Option.mem_toList.mp hstage)

theorem entitled_create {c : String} (hstage : (n.manager.createIndex c field).stage = some stage) :
    stage.Entitled n coll := by
  rcases createIndex_cases n.manager c field with ⟨-, e, hdone⟩ | ⟨-, -, hrunning⟩
  · rw [hdone] at hstage
    cases hstage
  · rw [hrunning] at hstage
    cases hstage
    intro f checked hrelies
    cases hreplacement : n.manager.state.replacement c field with
    | none =>
      rw [hreplacement] at hrelies
      cases hrelies
    | some old =>
      rw [hreplacement] at hrelies
      cases hrelies
      exact Or.inl (Option.isSome_of_eq_some (mem_replacement hreplacement).2)

theorem entitled_drop {c index : String}
    (hstage : (n.manager.dropIndex c index).stage = some stage) : stage.Entitled n coll := by
  rcases dropIndex_cases n.manager c index with ⟨-, e, hdone⟩ | ⟨-, -, idx, -, -, hrunning⟩
  · rw [hdone] at hstage
    cases hstage
  · rw [hrunning] at hstage
    cases hstage
    exact fun f checked hrelies => nomatch hrelies

theorem Node.Guarded.step (h : n.Guarded coll) (hcrash : a ≠ .crash) (hok : Undisturbed coll n a) :
    (n.next a).Guarded coll := by
  refine ⟨h.toMatched.step hcrash (n.step_next a), ?_⟩
  cases a with
  | createIndex c f => exact h.start fun stage => entitled_create
  | dropIndex c index => exact h.start fun stage => entitled_drop
  | call i o => exact h.call hok
  | task i o => exact h.task hok
  | crash => exact absurd rfl hcrash
  | restart o =>
    rw [Node.next, if_pos h.up]
    exact h.calls

/-- An undisturbed step would pass a second check. -/
theorem Node.Guarded.rechecked (h : n.Guarded coll) (hok : Undisturbed coll n a) :
    Rechecked coll n a := by
  cases a with
  | call i o =>
    intro stage hstage
    cases stage with
    | applyEntry ddl entry =>
      cases ddl with
      | create c field replacement =>
        rintro rfl
        have hentitled := h.calls _ (List.mem_of_getElem? hstage) field true rfl
        exact hentitled.imp_right And.right
      | drop c index field => trivial
    | _ => trivial
  | task i o =>
    intro task htask
    cases task with
    | task t =>
      cases t with
      | swap definition old => exact fun hcoll _ => Or.inl (hok _ htask hcoll)
      | _ => trivial
    | _ => trivial
  | _ => trivial

/-- The active fields of a collection keep to its quota after every step exactly when the quota
would pass a second check where a field becomes active. It does when nothing is applied to the
collection while another creation on it is under way, and no replacement takes over for a field
that has been dropped. -/
theorem quota_kept_iff (n : Node) (coll : String) (events : List Event) (hup : n.up = true)
    (hcalls : n.calls = []) (hkept : n.KeepsQuota coll) (hcrash : ∀ a ∈ events, a ≠ .crash) :
    (Throughout Node.next (fun n a => (n.next a).KeepsQuota coll) n events ↔
      Throughout Node.next (Rechecked coll) n events) ∧
    (Throughout Node.next (Undisturbed coll) n events →
      Throughout Node.next (fun n a => (n.next a).KeepsQuota coll) n events) := by
  have hguarded : n.Guarded coll := ⟨⟨hup, by simp [hcalls]⟩, by simp [hcalls]⟩
  have hiff : Throughout Node.next (fun n a => (n.next a).KeepsQuota coll) n events ↔
      Throughout Node.next (Rechecked coll) n events :=
    Throughout.after_iff (fun n a ha hmatched => hmatched.step (hcrash a ha) (n.step_next a))
      (fun n a ha hmatched hkept => keepsQuota_next_iff hmatched (hcrash a ha) hkept)
      hguarded.toMatched hkept
  refine ⟨hiff, fun hok => hiff.mpr ?_⟩
  -- what a creation has checked stays true until it is applied
  have hinvariant : Throughout Node.next (fun n _ => n.Guarded coll) n events :=
    (hok.and (Throughout.of_forall hcrash)).of_invariant (fun n a ok h => h.step ok.2 ok.1)
      (fun n a h => h) hguarded
  exact (hinvariant.and hok).imp fun n a h => h.1.rechecked h.2

/-- The only field that the quota allows gets a second index, in the place of the first. -/
theorem quota_kept_replaced :
    Throughout Node.next (fun n a => (n.next a).KeepsQuota "users") (.new 1)
      (indexing 1 ++ working 1 ++ indexing 2 ++ working 5) := by
  have hcrash : ∀ a ∈ indexing 1 ++ working 1 ++ indexing 2 ++ working 5, a ≠ .crash := by
    simp [indexing, working]
  exact (quota_kept_iff (.new 1) "users" _ rfl rfl (by unfold Node.KeepsQuota; decide)
    hcrash).2 (by decide +kernel)

/-- Both creations pass their check before one of them is applied. -/
def crowding : List Event :=
  twoCreations ++ [Event.call 0 (succeeding 1), .call 1 (succeeding 2)]

/-- The second index on a field is dropped before it takes over, and another field comes first. -/
def returning : List Event :=
  indexing 1 ++ working 1 ++ indexing 2 ++ working 1 ++
    Event.dropIndex "users" "00000000-0000-0000-0000-000000000002" ::
      (List.replicate 6 (Event.call 0 (succeeding 0)) ++ Event.createIndex "users" "age" ::
        (List.replicate 7 (Event.call 0 (succeeding 3)) ++ working 1))

/-- Two fields are active where the quota is one. -/
theorem quota_exceeded :
    (crowding.foldl Node.next (.new 1)).state.activeCount "users" = 2 ∧
      (returning.foldl Node.next (.new 1)).state.activeCount "users" = 2 := by
  decide +kernel

end BashfulDB.Schema
