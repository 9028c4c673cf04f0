import BashfulDB.Schema.References

/-! A replaced index is not there for queries while its replacement is built. -/
namespace BashfulDB.Schema

open SchemaManager

/-- The id of the index that a call has drawn and not yet left to its background task. -/
def Stage.creates (stage : Stage) : Option String :=
  match stage.held with
  | some (.create _ _ _, entry) => some entry.indexId
  | _ => none

def Background.builds : Background → Option String
  | .task (.materialize definition _) => some definition.id
  | _ => none

/-- What a call has drawn is its own, and is not built yet. -/
structure Node.Unbuilt (n : Node) : Prop where
  ready : ∀ id, n.ready.contains id = true → ∃ d ∈ n.drawn, d.id = id
  distinct : Pool.Distinct Stage.creates n.calls
  calls : ∀ stage ∈ n.calls, ∀ id, stage.creates = some id →
    ¬ n.ready.contains id = true ∧ ∀ task ∈ n.tasks, task.builds ≠ some id

variable {n : Node}

theorem creates_of_held {stage stage' : Stage} (h : stage'.held = stage.held) :
    stage'.creates = stage.creates := by
  unfold Stage.creates
  rw [h]

theorem creates_eq_some {stage : Stage} {id : String} (h : stage.creates = some id) :
    ∃ coll field replacement entry,
      stage.held = some (.create coll field replacement, entry) ∧ entry.indexId = id := by
  unfold Stage.creates at h
  split at h
  · rename_i coll field replacement entry hheld
    exact ⟨coll, field, replacement, entry, hheld, Option.some.inj h⟩
  · cases h

theorem Stage.Drawn.creates {drawn : List IndexDefinition} {stage : Stage} {id : String}
    (h : stage.Drawn drawn) (hid : stage.creates = some id) : ∃ d ∈ drawn, d.id = id := by
  obtain ⟨coll, field, replacement, entry, hheld, rfl⟩ := creates_eq_some hid
  obtain ⟨d, hd, hdid, -⟩ := (h.held hheld).logged.named
  exact ⟨d, hd, hdid⟩

theorem Background.Drawn.builds {drawn : List IndexDefinition} {task : Background} {id : String}
    (h : task.Drawn drawn) (hid : task.builds = some id) : ∃ d ∈ drawn, d.id = id := by
  unfold Background.builds at hid
  split at hid
  · exact ⟨_, h.1, Option.some.inj hid⟩
  · cases hid

/-- A call goes on with what it holds, or ends. -/
theorem Node.Unbuilt.keep (h : n.Unbuilt) {i : Nat} {stage : Stage} {next : Option Stage}
    (hi : n.calls[i]? = some stage) (hnext : ∀ b, next = some b → b.held = stage.held) :
    Node.Unbuilt { n with calls := Pool.resume n.calls i next } := by
  refine { h with distinct := h.distinct.keep hi ?_, calls := Pool.forall_resume hi h.calls ?_ }
  · intro b hb id hid
    rwa [← creates_of_held (hnext b hb)]
  · intro b hb id hid
    rw [creates_of_held (hnext b hb)] at hid
    exact h.calls stage (List.mem_of_getElem? hi) id hid

/-- A step of a call. -/
theorem Node.Unbuilt.advance {n' : Node} {i : Nat} {o : Outcome} {stage : Stage}
    {next : Option Stage} (h : n.Unbuilt) (hdrawn : n.Drawn) (hi : n.calls[i]? = some stage)
    (hfresh : Fresh n (.call i o)) (hadvance : n.Advances o stage next n') :
    Node.Unbuilt { n' with calls := Pool.resume n.calls i next } := by
  have hkeep (hnext : ∀ b, next = some b → b.held = stage.held) :
      Node.Unbuilt { n with calls := Pool.resume n.calls i next } := h.keep hi hnext
  have hcalls (hnext : ∀ b, next = some b → ∀ id, b.creates = some id →
      ¬ n.ready.contains id = true ∧ ∀ task ∈ n.tasks, task.builds ≠ some id) :=
    Pool.forall_resume hi h.calls hnext
  cases hadvance with
  | refuse => exact hkeep fun b hb => nomatch hb
  | accept => exact hkeep (by rintro b ⟨⟩; rfl)
  | @draw ddl =>
    have hsub := List.subset_append_right (n.draws o (.nextVersion ddl)) n.drawn
    have hnew (id : String) (hid : (Stage.appendLine ddl (logEntry ddl (n.version + 1) o)).creates =
        some id) : ∀ d ∈ n.drawn, d.id ≠ id := by
      cases ddl with
      | create coll field replacement =>
        cases hid
        exact hfresh _ hi _ List.mem_cons_self
      | drop coll index field => cases hid
    have hready : ∀ id, n.ready.contains id = true →
        ∃ d ∈ n.draws o (.nextVersion ddl) ++ n.drawn, d.id = id := by
      intro id hid
      obtain ⟨d, hd, hdid⟩ := h.ready id hid
      exact ⟨d, hsub hd, hdid⟩
    refine ⟨hready, ?_, hcalls ?_⟩
    · refine (h.distinct.resume hi ?_ : Pool.Distinct Stage.creates (Pool.resume n.calls i
        (some (.appendLine ddl (logEntry ddl (n.version + 1) o)))))
      rintro c ⟨⟩ id hid b hb hbid
      obtain ⟨d, hd, hdid⟩ := (hdrawn.calls b (List.mem_of_mem_eraseIdx hb)).creates hbid
      exact hnew id hid d hd hdid
    · rintro c ⟨⟩ id hid
      constructor
      · intro hcontains
        obtain ⟨d, hd, hdid⟩ := h.ready id hcontains
        exact hnew id hid d hd hdid
      · intro task htask hbuilds
        obtain ⟨d, hd, hdid⟩ := (hdrawn.tasks task htask).builds hbuilds
        exact hnew id hid d hd hdid
  | lose hwrite => exact hkeep fun b hb => nomatch hb
  | cut hwrite => exact { hkeep fun b hb => nomatch hb with }
  | append hwrite => exact { hkeep (by rintro b ⟨⟩; rfl) with }
  | tear hwrite => exact hkeep fun b hb => nomatch hb
  | endLine hwrite => exact { hkeep (by rintro b ⟨⟩; rfl) with }
  | apply => exact { hkeep (by rintro b ⟨⟩; rfl) with }
  | snapshot => exact hkeep (by rintro b ⟨⟩; rfl)
  | miss hput => exact hkeep fun b hb => nomatch hb
  | @put ddl entry taken hput =>
    have hended := hkeep fun b hb => nomatch hb
    refine { hended with calls := ?_ }
    intro b hb id hid
    obtain ⟨hready, htasks⟩ := hended.calls b hb id hid
    refine ⟨hready, Pool.forall_concat htasks ?_⟩
    intro hbuilds
    cases ddl with
    | create coll field replacement =>
      exact h.distinct.others hi hbuilds hb hid
    | drop coll index field => cases hbuilds

theorem contains_insert {ready : OrdMap String Unit} {id id' : String} :
    (ready.insert id ()).contains id' = true ↔ id' = id ∨ ready.contains id' = true := by
  by_cases h : id' = id
  · subst h
    simp [OrdMap.contains]
  · simp [OrdMap.contains, OrdMap.get_insert_of_ne _ h, h]

/-- Dropping an index adds none to those that are ready. -/
theorem contains_of_dropped {ready ready' : OrdMap String Unit} {index id : String}
    (hready : ready' = ready ∨ ready' = ready.erase index) (h : ready'.contains id = true) :
    ready.contains id = true := by
  rcases hready with rfl | rfl
  · exact h
  · unfold OrdMap.contains at h ⊢
    rw [OrdMap.get_erase] at h
    split at h
    · cases h
    · exact h

/-- Less is built, and fewer indexes are to be built. -/
theorem Node.Unbuilt.less {ready : OrdMap String Unit} {tasks : List Background} (h : n.Unbuilt)
    (hready : ∀ id, ready.contains id = true → n.ready.contains id = true)
    (htasks : ∀ task ∈ tasks, ∀ id, task.builds = some id → ∃ t ∈ n.tasks, t.builds = some id) :
    Node.Unbuilt { n with ready := ready, tasks := tasks } where
  ready id hid := h.ready id (hready id hid)
  distinct := h.distinct
  calls stage hstage id hid := by
    obtain ⟨hunready, hnone⟩ := h.calls stage hstage id hid
    refine ⟨fun hcontains => hunready (hready id hcontains), ?_⟩
    intro task htask hbuilds
    obtain ⟨t, ht, hbuilds⟩ := htasks task htask id hbuilds
    exact hnone t ht hbuilds

/-- A step of a background task. -/
theorem Node.Unbuilt.work {n' : Node} {i : Nat} {o : Outcome} {task : Background}
    {next : Option Background} (h : n.Unbuilt) (hdrawn : n.Drawn) (hi : n.tasks[i]? = some task)
    (hwork : n.Works o task next n') :
    Node.Unbuilt { n' with tasks := Pool.resume n.tasks i next } := by
  have htasks (hnext : ∀ b, next = some b → b.builds = none) :
      ∀ t ∈ Pool.resume n.tasks i next, ∀ id, t.builds = some id →
        ∃ t ∈ n.tasks, t.builds = some id := by
    intro t ht id hid
    rcases (Pool.mem_resume hi).mp ht with hnext' | ht
    · rw [hnext t hnext'] at hid
      cases hid
    · exact ⟨t, List.mem_of_mem_eraseIdx ht, hid⟩
  have hless (hnext : ∀ b, next = some b → b.builds = none) :=
    h.less (fun _ hid => hid) (htasks hnext)
  cases hwork with
  | abandon => exact hless fun b hb => nomatch hb
  | @build definition replacement =>
    have hnone : ∀ b, replacement.map (fun old => Background.task (.swap definition old)) = some b →
        b.builds = none := by
      intro b hb
      obtain ⟨old, -, rfl⟩ := Option.map_eq_some_iff.mp hb
      rfl
    have hended := hless hnone
    refine ⟨?_, hended.distinct, ?_⟩
    · intro id hid
      rcases contains_insert.mp hid with rfl | hid
      · exact (hdrawn.tasks _ (List.mem_of_getElem? hi)).builds rfl
      · exact h.ready id hid
    · intro stage hstage id hid
      obtain ⟨hready, hbuilds⟩ := hended.calls stage hstage id hid
      refine ⟨?_, hbuilds⟩
      intro hcontains
      rcases contains_insert.mp hcontains with rfl | hcontains
      · exact (h.calls stage hstage _ hid).2 _ (List.mem_of_getElem? hi) rfl
      · exact hready hcontains
  | swap => exact { hless (by rintro b ⟨⟩; rfl) with }
  | drop hready =>
    exact h.less (fun _ => contains_of_dropped hready) (htasks fun b hb => nomatch hb)
  | dropOld hready =>
    exact h.less (fun _ => contains_of_dropped hready) (htasks (by rintro b ⟨⟩; rfl))
  | snapshot => exact hless (by rintro b ⟨⟩; rfl)
  | miss => exact hless fun b hb => nomatch hb
  | put => exact { hless fun b hb => nomatch hb with }

theorem unbuilt_crashed (n : Node) : n.crashed.Unbuilt where
  ready _ hid := nomatch hid
  distinct := List.Pairwise.nil
  calls _ hstage := nomatch hstage

/-- What an event preserves. -/
theorem Node.Unbuilt.step {n' : Node} {a : Event} (h : n.Unbuilt) (hdrawn : n.Drawn)
    (hfresh : Fresh n a) (hstep : n.Step a n') : n'.Unbuilt := by
  have hstart {stage : Stage} (hstage : stage.creates = none) :
      Node.Unbuilt { n with calls := n.calls ++ [stage] } := by
    refine { h with distinct := h.distinct.concat hstage, calls := Pool.forall_concat h.calls ?_ }
    intro id hid
    cases hstage.symm.trans hid
  cases hstep with
  | idle => exact h
  | create hup hrunning => exact hstart rfl
  | drop hup hidx hid hrunning => exact hstart rfl
  | call hi hadvance => exact h.advance hdrawn hi hfresh hadvance
  | task hi hwork => exact h.work hdrawn hi hwork
  | crash => exact unbuilt_crashed n
  | restart hup hrestore => exact { unbuilt_crashed n with }
  | stuck hup => exact unbuilt_crashed n

theorem unbuilt_new (limit : Nat) : (Node.new limit).Unbuilt where
  ready _ hid := nomatch hid
  distinct := List.Pairwise.nil
  calls _ hstage := nomatch hstage

theorem query_of_active {coll field id : String} {r : Nat}
    (hactive : n.state.active coll field = some id) (hready : ¬ n.ready.contains id = true) :
    n.queryIndexForField coll field r = none := by
  unfold SchemaState.active at hactive
  simp only [Node.queryIndexForField, Option.bind_eq_bind, hactive, if_neg hready]

/-- In every run in which ids are new, a replacement that is applied leaves the field without an
index for queries, whatever the index before it was. -/
theorem replacement_unavailable (limit : Nat) (events : List Event)
    (hfresh : Throughout Node.next Fresh (.new limit) events) {i : Nat} {o : Outcome}
    {coll field : String} {old : IndexDefinition} {entry : SchemaLogEntry} (r : Nat)
    (hi : (events.foldl Node.next (.new limit)).calls[i]? =
      some (.applyEntry (.create coll field (some old)) entry)) :
    ((events.foldl Node.next (.new limit)).next (.call i o)).queryIndexForField coll field r =
      none := by
  have hinvariant := hfresh.invariant (I := fun n => n.Drawn ∧ n.Unbuilt)
    (fun n a ok h => ⟨h.1.step ok (n.step_next a), h.2.step h.1 ok (n.step_next a)⟩)
    ⟨drawn_new limit, unbuilt_new limit⟩
  revert hi hinvariant
  generalize events.foldl Node.next (.new limit) = n
  rintro hi ⟨hdrawn, hunbuilt⟩
  have hheld := hdrawn.calls _ (List.mem_of_getElem? hi)
  obtain ⟨version, o', rfl⟩ := Held.made hheld
  have hunready := (hunbuilt.calls _ (List.mem_of_getElem? hi) _ rfl).1
  simp only [Node.next, hi]
  refine query_of_active ?_ hunready
  change (activate _ _ (applyEntryMut n.state _)).active coll field = _
  rw [activate_logEntry, active_create rfl, if_pos ⟨rfl, rfl⟩]

/-- An index is built and then created again, up to where its replacement is to be applied. -/
def renewal : List Event := indexing 1 ++ working 1 ++ (indexing 2).take 5

theorem renewal_unavailable :
    (renewal.foldl Node.next (.new 8)).queryIndexForField "users" "name" 1 =
      some "00000000-0000-0000-0000-000000000001" ∧
    ((renewal.foldl Node.next (.new 8)).next (.call 0 (succeeding 2))).queryIndexForField
      "users" "name" 1 = none := by
  refine ⟨by decide +kernel, ?_⟩
  have hi : (renewal.foldl Node.next (.new 8)).calls[0]? = some (.applyEntry
      (.create "users" "name" (some ⟨"00000000-0000-0000-0000-000000000001", "users", "name", 1⟩))
      ⟨2, .createIndex, "users", "name", "00000000-0000-0000-0000-000000000002", "2024-01-01"⟩) :=
    rfl
  exact replacement_unavailable 8 renewal (by decide +kernel) 1 hi

/-- The index was there before the second `create_index`, is gone when that has returned, and stays
away when the replacement cannot be built. -/
theorem query_gap :
    ((indexing 1 ++ working 1).foldl Node.next (.new 8)).queryIndexForField "users" "name" 1 =
      some "00000000-0000-0000-0000-000000000001" ∧
    ((indexing 1 ++ working 1 ++ indexing 2).foldl Node.next (.new 8)).queryIndexForField
      "users" "name" 1 = none ∧
    ((indexing 1 ++ working 1 ++ indexing 2 ++
      [Event.task 0 { succeeding 0 with materialized := false }]).foldl Node.next
      (.new 8)).queryIndexForField "users" "name" 1 = none := by
  decide +kernel

end BashfulDB.Schema
