import BashfulDB.Library.Steps
import BashfulDB.Schema.Drawn

/-! When every active index has a definition. -/
namespace BashfulDB.Schema

open SchemaManager

/-- The active index of a field is defined, on that field. -/
def SchemaState.Resolves (state : SchemaState) : Prop :=
  ∀ coll field id, state.active coll field = some id →
    ∃ d ∈ state.indexes coll, d.id = id ∧ d.field = field

/-- A replacement takes over while it is still defined. -/
def Background.InTime (state : SchemaState) : Background → Prop
  | .task (.swap definition _) => definition ∈ state.indexes definition.collection
  | _ => True

instance decidableBackgroundInTime (state : SchemaState) :
    (task : Background) → Decidable (task.InTime state)
  | .task (.swap definition _) =>
    inferInstanceAs (Decidable (definition ∈ state.indexes definition.collection))
  | .task (.materialize _ _) | .task (.dropMaterialized _) | .dropOld _ | .snapshot _ | .put _ _ =>
    inferInstanceAs (Decidable True)

def InTime (n : Node) : Event → Prop
  | .task i _ => ∀ task ∈ n.tasks[i]?, task.InTime n.state
  | _ => True

instance decidableInTime (n : Node) : (a : Event) → Decidable (InTime n a)
  | .task i _ => inferInstanceAs (Decidable (∀ task ∈ n.tasks[i]?, task.InTime n.state))
  | .createIndex _ _ | .dropIndex _ _ | .call _ _ | .crash | .restart _ =>
    inferInstanceAs (Decidable True)

variable {drawn : List IndexDefinition} {state : SchemaState} {entry : SchemaLogEntry} {n : Node}

theorem resolves_default : SchemaState.default.Resolves := by
  intro coll field id hid
  cases hid

/-- An entry that is applied leaves no active index without a definition. -/
theorem SchemaState.Resolves.apply (h : state.Resolves) (hstate : state.Drawn drawn)
    (hentry : entry.Drawn drawn) (hdistinct : (drawn.map IndexDefinition.id).Nodup) :
    (applyEntryMut state entry).Resolves := by
  intro coll field id hid
  cases hop : entry.op with
  | createIndex =>
    rw [active_create hop] at hid
    rw [indexes_create hop]
    by_cases hnew : coll = entry.collection ∧ field = entry.field
    · obtain ⟨rfl, rfl⟩ := hnew
      rw [if_pos ⟨rfl, rfl⟩] at hid
      cases hid
      rw [if_pos rfl]
      exact ⟨entry.definition, List.mem_append_right _ List.mem_cons_self, rfl, rfl⟩
    · rw [if_neg hnew] at hid
      obtain ⟨d, hd, hdid, hfield⟩ := h coll field id hid
      refine ⟨d, ?_, hdid, hfield⟩
      split
      · exact List.mem_append_left _ hd
      · exact hd
  | dropIndex =>
    rw [active_drop hop] at hid
    rw [indexes_drop hop]
    by_cases hold : coll = entry.collection ∧ field = entry.field ∧
        state.active coll field = some entry.indexId
    · rw [if_pos hold] at hid
      cases hid
    · rw [if_neg hold] at hid
      obtain ⟨d, hd, hdid, hfield⟩ := h coll field id hid
      refine ⟨d, ?_, hdid, hfield⟩
      by_cases hcoll : coll = entry.collection
      · rw [if_pos hcoll]
        refine List.mem_filter.mpr ⟨hd, decide_eq_true ?_⟩
        -- The id that is dropped belongs to the field of the entry, and that is another one.
        intro hsame
        obtain ⟨d', hd', hdid', hcoll', hfield'⟩ := hentry.named
        obtain rfl : d' = d := List.inj_on_of_nodup_map hdistinct hd'
          (hstate.defined coll d hd).1 (hdid'.trans hsame.symm)
        apply hold
        exact ⟨hcoll, hfield.symm.trans hfield', hid.trans (congrArg some (hdid.symm.trans hsame))⟩
      · rwa [if_neg hcoll]

theorem SchemaState.Resolves.swap {definition old : IndexDefinition} (h : state.Resolves)
    (hstate : state.Drawn drawn) (hold : Supersedes drawn definition old)
    (hdistinct : (drawn.map IndexDefinition.id).Nodup)
    (hpresent : definition ∈ state.indexes definition.collection) :
    (swapState definition old state).Resolves := by
  intro coll field id hid
  rw [active_swap] at hid
  rw [indexes_swap]
  by_cases hnew : coll = definition.collection ∧ field = definition.field ∧
      (state.activeByField.get coll).isSome
  · rw [if_pos hnew] at hid
    cases hid
    obtain ⟨rfl, rfl, -⟩ := hnew
    rw [if_pos rfl]
    exact ⟨definition, List.mem_filter.mpr ⟨hpresent, decide_eq_true hold.ne.symm⟩, rfl, rfl⟩
  · rw [if_neg hnew] at hid
    obtain ⟨d, hd, hdid, hfield⟩ := h coll field id hid
    refine ⟨d, ?_, hdid, hfield⟩
    by_cases hcoll : coll = definition.collection
    · rw [if_pos hcoll]
      refine List.mem_filter.mpr ⟨hd, decide_eq_true ?_⟩
      -- What is removed is on the field of the swap, whose active index is the new one.
      intro hsame
      obtain rfl : d = old :=
        List.inj_on_of_nodup_map hdistinct (hstate.defined coll d hd).1 hold.mem hsame
      apply hnew
      refine ⟨hcoll, hfield.symm.trans hold.field, ?_⟩
      cases hget : state.activeByField.get coll with
      | none => simp [SchemaState.active, hget] at hid
      | some active => rfl
    · rwa [if_neg hcoll]

/-- What an event preserves: all schemas of the node resolve. -/
theorem resolves_next {a : Event} (hfresh : Fresh n a) (htime : InTime n a)
    (h : n.Drawn ∧ ∀ state, n.Holds state → state.Resolves) :
    (n.next a).Drawn ∧ ∀ state, (n.next a).Holds state → state.Resolves := by
  obtain ⟨hdrawn, hresolves⟩ := h
  refine ⟨hdrawn.step hfresh (n.step_next a), ?_⟩
  intro state hstate
  rcases Node.holds_of_step (n.step_next a) hstate with hold | ⟨hchange, -⟩
  · exact hresolves state hold
  · cases hchange with
    | apply hi =>
      have hheld := hdrawn.calls _ (List.mem_of_getElem? hi)
      rw [Held.activate hheld]
      exact (hresolves _ .state).apply hdrawn.state hheld.logged hdrawn.distinct
    | swap hi =>
      have htask := hdrawn.tasks _ (List.mem_of_getElem? hi)
      exact (hresolves _ .state).swap hdrawn.state htask.2 hdrawn.distinct (htime _ hi)
    | reset => exact resolves_default
    | replay hmetadata happly =>
      have hentry (state : SchemaState) (e : SchemaLogEntry)
          (he : e ∈ n.log.entries.mergeSort fun a b => a.version ≤ b.version)
          (_ : e.Valid) (hs : state.Drawn n.drawn ∧ state.Resolves) :
          (applyEntryMut state e).Drawn n.drawn ∧ (applyEntryMut state e).Resolves := by
        have he := hdrawn.log e (List.mem_mergeSort.mp he)
        exact ⟨hs.1.apply he, hs.2.apply hs.1 he hdrawn.distinct⟩
      have hpreserves := applyLoop_preserves hentry ⟨drawn_default, resolves_default⟩
      rw [happly] at hpreserves
      exact hpreserves.2

/-- In every run in which ids are new and replacements take over in time, through crashes too, each
active index has its definition. -/
theorem active_resolves (limit : Nat) (events : List Event)
    (hfresh : Throughout Node.next Fresh (.new limit) events)
    (htime : Throughout Node.next InTime (.new limit) events) :
    (events.foldl Node.next (.new limit)).state.Resolves := by
  have hinitial : (Node.new limit).Drawn ∧
      ∀ state, (Node.new limit).Holds state → state.Resolves := by
    refine ⟨drawn_new limit, ?_⟩
    intro state hstate
    cases hstate with
    | state => exact resolves_default
    | metadata h => cases h
    | call h => cases h
    | task h => cases h
  obtain ⟨-, hresolves⟩ := (hfresh.and htime).invariant
    (I := fun n => n.Drawn ∧ ∀ state, n.Holds state → state.Resolves)
    (fun n a ok h => resolves_next ok.1 ok.2 h) hinitial
  exact hresolves _ .state

/-- A `create_index` from the call to its return, with the id that it draws. -/
def indexing (id : BitVec 128) : List Event :=
  .createIndex "users" "name" :: List.replicate 7 (.call 0 (succeeding id))

/-- Steps of the first background task. -/
def working (steps : Nat) : List Event := List.replicate steps (.task 0 (succeeding 0))

/-- An index is replaced by another, which is built and takes over. -/
theorem active_resolves_replaced :
    ((indexing 1 ++ working 1 ++ indexing 2 ++ working 5).foldl Node.next (.new 8)).state.active
      "users" "name" = some "00000000-0000-0000-0000-000000000002" ∧
    ((indexing 1 ++ working 1 ++ indexing 2 ++ working 5).foldl Node.next
      (.new 8)).state.Resolves := by
  generalize hrun : indexing 1 ++ working 1 ++ indexing 2 ++ working 5 = run
  have hend : (run.foldl Node.next (.new 8)).state.active "users" "name" =
        some "00000000-0000-0000-0000-000000000002" ∧
      Throughout Node.next Fresh (.new 8) run ∧ Throughout Node.next InTime (.new 8) run := by
    rw [← hrun]
    decide +kernel
  obtain ⟨hactive, hfresh, htime⟩ := hend
  exact ⟨hactive, active_resolves 8 run hfresh htime⟩

/-- The replacement is dropped after it was built and before it takes over. -/
def overtaken : List Event :=
  indexing 1 ++ working 1 ++ indexing 2 ++ working 1 ++
    .dropIndex "users" "00000000-0000-0000-0000-000000000002" ::
      (List.replicate 6 (.call 0 (succeeding 0)) ++ working 1)

/-- It is the active index then, and not defined. -/
theorem overtaken_dangles : Throughout Node.next Fresh (.new 8) overtaken ∧
    ¬ (overtaken.foldl Node.next (.new 8)).state.Resolves := by
  have hend : Throughout Node.next Fresh (.new 8) overtaken ∧
      (overtaken.foldl Node.next (.new 8)).state.active "users" "name" =
        some "00000000-0000-0000-0000-000000000002" ∧
      (overtaken.foldl Node.next (.new 8)).state.indexes "users" = [] := by decide +kernel
  obtain ⟨hfresh, hactive, hnone⟩ := hend
  refine ⟨hfresh, fun h => ?_⟩
  obtain ⟨d, hd, -⟩ := h _ _ _ hactive
  rw [hnone] at hd
  cases hd

end BashfulDB.Schema
