import BashfulDB.Schema.Tracks

/-!
Two managers that gossip their logs, and when equal versions mean equal schemas.

An operation draws its version from the manager that runs it, so two managers can give one version
to different operations. They cannot when operations come one at a time, each on a manager that is
not behind: one history then explains both managers at every moment.
-/
namespace BashfulDB.Schema

open SchemaManager

/-- The `(collection, index id, field)` definitions of a schema. -/
def SchemaState.definitions (state : SchemaState) : List (String × String × String) :=
  state.collections.entries.flatMap fun entry =>
    entry.2.indexes.map fun idx => (entry.1, idx.id, idx.field)

/-- No call and no background task is in progress. -/
def System.Quiet (s : System) : Prop := ∀ side, (s side).calls = [] ∧ (s side).tasks = []

/-- At rest, equal versions stand for equal schemas. -/
def System.Agrees (s : System) : Prop :=
  s.Quiet → (s .left).version = (s .right).version →
    (∀ d, d ∈ (s .left).state.definitions ↔ d ∈ (s .right).state.definitions) ∧
      (s .left).state.activeByField = (s .right).state.activeByField

/-- No other call runs here, no operation runs on the other side, and that side is not ahead. -/
def MayIssue (s : System) (side : Side) : Prop :=
  (s side).calls = [] ∧ Idle (s side.other).calls ∧ (s side.other).version ≤ (s side).version

instance decidableMayIssue (s : System) (side : Side) : Decidable (MayIssue s side) :=
  inferInstanceAs (Decidable (_ ∧ _ ∧ _))

/-- Operations come one at a time and replace no index, gossip does not overlap with an operation
of its own manager, and every append to a log succeeds. -/
def Orderly (s : System) (side : Side) : Action → Prop
  | .createIndex coll field =>
    MayIssue s side ∧ (s side).state.replacement coll field = none
  | .dropIndex _ _ => MayIssue s side
  | .convergeFromGossip _ => Idle (s side).calls
  | .call i o => (s side).calls[i]?.any Call.isAppend = true → o.write = .done
  | .task _ _ => True

instance decidableOrderly (s : System) (side : Side) (action : Action) :
    Decidable (Orderly s side action) :=
  match action with
  | .createIndex _ _ => inferInstanceAs (Decidable (_ ∧ _))
  | .dropIndex _ _ => inferInstanceAs (Decidable (MayIssue _ _))
  | .convergeFromGossip _ => inferInstanceAs (Decidable (Idle _))
  | .call _ _ => inferInstanceAs (Decidable (_ → _))
  | .task _ _ => inferInstanceAs (Decidable True)

/-- The system after some actions. -/
def System.run (s : System) (actions : List (Side × Action)) : System :=
  actions.foldl (fun s a => s.after a.1 a.2) s

/-- Every action of the run is orderly in the state that it meets. -/
def OrderlyRun (s : System) : List (Side × Action) → Prop
  | [] => True
  | a :: actions => Orderly s a.1 a.2 ∧ OrderlyRun (s.after a.1 a.2) actions

instance decidableOrderlyRun : (s : System) → (actions : List (Side × Action)) →
    Decidable (OrderlyRun s actions)
  | _, [] => inferInstanceAs (Decidable True)
  | s, a :: actions =>
    have := decidableOrderlyRun (s.after a.1 a.2) actions
    inferInstanceAs (Decidable (_ ∧ _))

/-- The calls of a manager whose `i`-th call makes this progress. -/
def Progress.among (calls : List Call) (i : Nat) : Progress → List Call
  | .running next => calls.set i next
  | .done _ => calls.eraseIdx i

/-- One history explains both managers. -/
structure Explains (s : System) (history : List Issued) (known : Side → List Issued) : Prop where
  wellFormed : WellFormed history
  tracks : ∀ side,
    Tracks history (visibleThrough history (s side.other).calls) side (s side) (known side)
  exclusive : ∀ side, Idle (s side).calls ∨
    (∃ c, (s side).calls = [c] ∧ c.isDdl = true) ∧ Idle (s side.other).calls

variable {s : System} {history : List Issued} {side : Side} {m other : SchemaManager}

/-- A manager that is not behind has the whole history. -/
theorem Explains.known_eq {known : Side → List Issued} (h : Explains s history known)
    (hle : (s side.other).version ≤ (s side).version) : known side = history := by
  obtain ⟨rest, hrest, hforeign⟩ := (h.tracks side).foreign
  obtain ⟨rest', hrest', hforeign'⟩ := (h.tracks side.other).foreign
  rcases List.eq_nil_or_concat rest with rfl | ⟨front, x, rfl⟩
  · rw [hrest, List.append_nil]
  · -- The last entry is foreign here, so that the other side, which issued it, is at the end.
    rcases List.eq_nil_or_concat rest' with rfl | ⟨front', x', rfl⟩
    · have hother : known side.other = history := by rw [hrest', List.append_nil]
      have hlt := (hrest ▸ h.wellFormed).version_lt (x := x) (by simp)
      have hle' := h.wellFormed.le_version (x := x) (by rw [hrest]; simp)
      rw [(h.tracks side).version, (h.tracks side.other).version, hother] at hle
      omega
    · have hlast : x = x' := by
        have := congrArg List.getLast? (hrest.symm.trans hrest')
        simpa using this
      have hx := hforeign x (by simp)
      have hx' := hforeign' x' (by simp)
      rw [← hlast, hx, Side.other_other] at hx'
      exact absurd hx' side.other_ne

/-- At rest, equal versions mean that both managers have the whole history. -/
theorem Explains.agrees {known : Side → List Issued} (h : Explains s history known) :
    s.Agrees := by
  intro hquiet hversion
  have hstate (side : Side) (hle : (s side.other).version ≤ (s side).version) :
      (s side).state = replay history := by
    have htracks := (h.tracks side).state
    rw [(hquiet side).1, h.known_eq hle] at htracks
    exact htracks
  rw [hstate .left hversion.ge, hstate .right hversion.le]
  exact ⟨fun _ => Iff.rfl, rfl⟩

section Run

variable {known : Side → List Issued}

/-- One side changes: it is still explained, and so is the other side in view of the change. -/
theorem Explains.update {m' : SchemaManager} {here there : List Issued} (hwf : WellFormed history)
    (hside : Tracks history (visibleThrough history (s side.other).calls) side m' here)
    (hother : Tracks history (visibleThrough history m'.calls) side.other (s side.other) there)
    (hexclusive : Idle m'.calls ∨
      (∃ c, m'.calls = [c] ∧ c.isDdl = true) ∧ Idle (s side.other).calls)
    (hexclusive' : Idle (s side.other).calls ∨
      (∃ c, (s side.other).calls = [c] ∧ c.isDdl = true) ∧ Idle m'.calls) :
    ∃ known, Explains (Function.update s side m') history known := by
  have hself : Function.update s side m' side = m' := Function.update_self ..
  have hrest : Function.update s side m' side.other = s side.other :=
    Function.update_of_ne side.other_ne ..
  have hcases (i : Side) : i = side ∨ i = side.other := by
    cases i <;> cases side <;> simp [Side.other]
  refine ⟨fun i => if i = side then here else there, hwf, fun i => ?_, fun i => ?_⟩
  · rcases hcases i with rfl | rfl
    · rwa [hself, hrest, if_pos rfl]
    · rwa [Side.other_other, hself, hrest, if_neg side.other_ne]
  · rcases hcases i with rfl | rfl
    · rwa [hself, hrest]
    · rwa [Side.other_other, hself, hrest]

/-- A step that leaves the entry in progress as it is does not concern the other side. -/
theorem Explains.update_same {m' : SchemaManager} {here : List Issued}
    (h : Explains s history known)
    (hside : Tracks history (visibleThrough history (s side.other).calls) side m' here)
    (hcalls : Idle (s side).calls ∧ Idle m'.calls ∨ m'.calls = (s side).calls) :
    ∃ known, Explains (Function.update s side m') history known := by
  have hother := h.tracks side.other
  have hexclusive := h.exclusive side
  have hexclusive' := h.exclusive side.other
  rw [Side.other_other] at hother hexclusive'
  rcases hcalls with ⟨hidle, hidle'⟩ | hsame
  · have hvis : visibleThrough history m'.calls = visibleThrough history (s side).calls := by
      rw [visibleThrough_of_unlogged hidle.unlogged, visibleThrough_of_unlogged hidle'.unlogged]
    refine Explains.update h.wellFormed hside (hvis ▸ hother) (Or.inl hidle') ?_
    exact hexclusive'.imp id fun hbusy => ⟨hbusy.1, hidle'⟩
  · rw [← hsame] at hother hexclusive hexclusive'
    exact Explains.update h.wellFormed hside hother hexclusive hexclusive'

theorem createIndex_cases (m : SchemaManager) (coll field : String) :
    (¬ (Identifier coll ∧ Identifier field) ∧
        ∃ e, m.createIndex coll field = .done (.error e)) ∨
      Identifier coll ∧ Identifier field ∧ m.createIndex coll field =
        .running (.checkQuota coll field (m.state.replacement coll field)) := by
  unfold createIndex
  rcases validateIdentifier_cases coll "collection" with ⟨hcoll, hok⟩ | ⟨hcoll, herror⟩
  · rcases validateIdentifier_cases field "field" with ⟨hfield, hok'⟩ | ⟨hfield, herror⟩
    · rw [hok, hok']
      exact Or.inr ⟨hcoll, hfield, rfl⟩
    · rw [hok, herror]
      exact Or.inl ⟨fun h => hfield h.2, _, rfl⟩
  · rw [herror]
    exact Or.inl ⟨fun h => hcoll h.1, _, rfl⟩

theorem dropIndex_cases (m : SchemaManager) (coll index : String) :
    (¬ (Identifier coll ∧ Identifier index ∧ ∃ idx ∈ m.state.indexes coll, idx.id = index) ∧
        ∃ e, m.dropIndex coll index = .done (.error e)) ∨
      Identifier coll ∧ Identifier index ∧ ∃ idx ∈ m.state.indexes coll, idx.id = index ∧
        m.dropIndex coll index = .running (.nextVersion (.drop coll index idx.field)) := by
  unfold dropIndex
  rcases validateIdentifier_cases coll "collection" with ⟨hcoll, hok⟩ | ⟨hcoll, herror⟩
  · rcases validateIdentifier_cases index "index" with ⟨hindex, hok'⟩ | ⟨hindex, herror⟩
    · rw [hok, hok']
      cases hschema : m.state.collections.get coll with
      | none =>
        exact Or.inl ⟨by simp [SchemaState.indexes, hschema], .indexNotFound coll index, rfl⟩
      | some schema =>
        cases hfind : schema.indexes.find? fun idx => idx.id = index with
        | none =>
          refine Or.inl ⟨?_, .indexNotFound coll index, by simp [hfind, bind, Except.bind]⟩
          rintro ⟨-, -, idx, hidx, hid⟩
          simp only [SchemaState.indexes, hschema] at hidx
          simpa [hid] using List.find?_eq_none.mp hfind idx hidx
        | some idx =>
          have hid : idx.id = index := by simpa using List.find?_some hfind
          refine Or.inr ⟨hcoll, hindex, idx, ?_, hid, ?_⟩
          · simpa [SchemaState.indexes, hschema] using List.mem_of_find?_eq_some hfind
          · simp [hfind, bind, Except.bind]
    · rw [hok, herror]
      exact Or.inl ⟨fun h => hindex h.2.1, _, rfl⟩
  · rw [herror]
    exact Or.inl ⟨fun h => hcoll h.1, _, rfl⟩

/-- An operation that may start has the whole history before it. -/
theorem Explains.start {c : Call} (h : Explains s history known) (hmay : MayIssue s side)
    (hc : c.isDdl = true) (hlog : unlogged [c] = []) (hstate : unapplied [c] = [])
    (hended : unended [c] = false) (hok : CallOk history history history side c) :
    ∃ known, Explains (Function.update s side ((s side).start (.running c))) history known := by
  obtain ⟨hnone, hidle, hle⟩ := hmay
  have hknown := h.known_eq hle
  have hside := h.tracks side
  have hother := h.tracks side.other
  rw [Side.other_other, hnone] at hother
  rw [hknown, visibleThrough_of_unlogged hidle.unlogged] at hside
  have hcalls : ((s side).start (.running c)).calls = [c] := by simp [SchemaManager.start, hnone]
  have hside' : Tracks history (visibleThrough history (s side.other).calls) side
      ((s side).start (.running c)) history := by
    rw [visibleThrough_of_unlogged hidle.unlogged, SchemaManager.start, hnone, List.nil_append]
    refine hside.setCalls ?_ ?_ ?_ ?_
    · rw [hnone, hlog]; rfl
    · rw [hnone, hstate]; rfl
    · rw [hnone, hended]; rfl
    · intro c' hc'
      rwa [List.mem_singleton.mp hc']
  have hvis : visibleThrough history ((s side).start (.running c)).calls =
      visibleThrough history [] := by
    rw [hcalls, visibleThrough_of_unlogged hlog, visibleThrough_of_unlogged rfl]
  exact Explains.update h.wellFormed hside' (hvis ▸ hother) (Or.inr ⟨⟨c, hcalls, hc⟩, hidle⟩)
    (Or.inl hidle)

theorem after_call {i : Nat} {o : Outcome} {c : Call} {progress : Progress} {m' : SchemaManager}
    (hc : m.calls[i]? = some c) (hadvance : m.advance other o c = (progress, m')) :
    m.after other (.call i o) = { m' with calls := progress.among m.calls i } := by
  simp only [after, hc, hadvance]
  cases progress <;> rfl

/-- A step of `converge_from_gossip`. -/
theorem Explains.call_gossip {i : Nat} {o : Outcome} {c : Call} (h : Explains s history known)
    (hc : (s side).calls[i]? = some c) (hidle : Idle (s side).calls) :
    ∃ known, Explains (s.after side (.call i o)) history known := by
  have hother := h.tracks side.other
  rw [Side.other_other] at hother
  obtain ⟨progress, m', known', hadvance, hcalls, htracks, hnext⟩ :=
    (h.tracks side).advance_gossip (o := o) h.wellFormed hidle hother (List.mem_of_getElem? hc)
  rw [System.after, after_call hc hadvance]
  have hnew : ∀ c ∈ progress.among (s side).calls i, c.isDdl = false ∧
        CallOk history (visibleThrough history (s side.other).calls) known' side c := by
    intro c hc
    cases progress with
    | running next =>
      rcases List.mem_or_eq_of_mem_set hc with hc | rfl
      · exact ⟨hidle c hc, htracks.calls c (hcalls ▸ hc)⟩
      · exact hnext c rfl
    | done answer =>
      have hc := List.mem_of_mem_eraseIdx hc
      exact ⟨hidle c hc, htracks.calls c (hcalls ▸ hc)⟩
  exact h.update_same (htracks.setIdle (hcalls ▸ hidle) hnew)
    (Or.inl ⟨hidle, fun c hc => (hnew c hc).1⟩)

/-- A step of an operation, which is the only call. -/
theorem Explains.call_ddl {o : Outcome} {c : Call} (h : Explains s history known)
    (hone : (s side).calls = [c]) (hddl : c.isDdl = true) (hidle : Idle (s side.other).calls)
    (hwrite : c.isAppend = true → o.write = .done) :
    ∃ history known, Explains (s.after side (.call 0 o)) history known := by
  have hother := h.tracks side.other
  rw [Side.other_other] at hother
  obtain ⟨progress, m', history', known', hadvance, hwf, hside, hother, hnext⟩ :=
    (h.tracks side).advance_ddl h.wellFormed hother hidle hone hddl hwrite
  have hafter : (s side).after (s side.other) (.call 0 o) =
      { m' with calls := progress.calls } := by
    rw [after_call (by rw [hone]; rfl) hadvance, hone]
    cases progress <;> rfl
  rw [System.after, hafter]
  refine ⟨history', Explains.update hwf hside hother ?_ (Or.inl hidle)⟩
  cases progress with
  | running next => exact Or.inr ⟨⟨next, rfl, hnext next rfl⟩, hidle⟩
  | done answer => exact Or.inl (by simp [Idle, Progress.calls])

/-- A step of a call. -/
theorem Explains.call {i : Nat} {o : Outcome} (h : Explains s history known)
    (horderly : Orderly s side (.call i o)) :
    ∃ history known, Explains (s.after side (.call i o)) history known := by
  cases hc : (s side).calls[i]? with
  | none =>
    have hsame : (s side).after (s side.other) (.call i o) = s side := by simp [after, hc]
    rw [System.after, hsame, Function.update_eq_self]
    exact ⟨history, known, h⟩
  | some c =>
    rcases h.exclusive side with hidle | ⟨⟨c', hone, hddl⟩, hidle⟩
    · exact ⟨history, h.call_gossip hc hidle⟩
    · have hi : i = 0 ∧ c = c' := by
        rw [hone] at hc
        cases i with
        | zero => exact ⟨rfl, by simpa using hc.symm⟩
        | succ i => simp at hc
      obtain ⟨rfl, rfl⟩ := hi
      exact h.call_ddl hone hddl hidle fun happend => horderly (by rw [hc]; exact happend)

/-- A step of a background task: it touches no schema, as nothing is replaced. -/
theorem Explains.task {i : Nat} {o : Outcome} (h : Explains s history known) :
    ∃ known, Explains (s.after side (.task i o)) history known := by
  unfold System.after
  cases ht : (s side).tasks[i]? with
  | none =>
    have hsame : (s side).after (s side.other) (.task i o) = s side := by simp [after, ht]
    rw [hsame, Function.update_eq_self]
    exact ⟨known, h⟩
  | some task =>
    have hplain := (h.tracks side).tasks task (List.mem_of_getElem? ht)
    have hwork : (s side).work o task = (none, s side) := by
      cases task with
      | materialize definition replacement =>
        obtain rfl : replacement = none := hplain
        cases hdone : o.materialized <;> simp [work, hdone]
      | swap definition old => cases hplain
      | dropMaterialized index => rfl
    have hafter : (s side).after (s side.other) (.task i o) =
        { s side with tasks := (s side).tasks.eraseIdx i } := by
      simp only [after, ht, hwork]
    rw [hafter]
    refine h.update_same ((h.tracks side).setTasks fun t ht => ?_) (Or.inr rfl)
    exact (h.tracks side).tasks t (List.mem_of_mem_eraseIdx ht)

/-- What an orderly step preserves. -/
theorem Explains.step {action : Action} (h : Explains s history known)
    (horderly : Orderly s side action) :
    ∃ history known, Explains (s.after side action) history known := by
  have hsame : Explains (Function.update s side (s side)) history known := by
    rwa [Function.update_eq_self]
  cases action with
  | createIndex coll field =>
    obtain ⟨hmay, hreplacement⟩ := horderly
    simp only [System.after, after]
    rcases createIndex_cases (s side) coll field with ⟨-, e, hdone⟩ | ⟨hcoll, hfield, hrunning⟩
    · rw [hdone]
      exact ⟨history, known, hsame⟩
    · rw [hrunning, hreplacement]
      exact ⟨history, h.start hmay rfl rfl rfl rfl ⟨rfl, hcoll, hfield, rfl⟩⟩
  | dropIndex coll index =>
    simp only [System.after, after]
    rcases dropIndex_cases (s side) coll index with
      ⟨-, e, hdone⟩ | ⟨hcoll, hindex, idx, hidx, -, hrunning⟩
    · rw [hdone]
      exact ⟨history, known, hsame⟩
    · have hstate := (h.tracks side).state
      rw [horderly.1, h.known_eq horderly.2.2] at hstate
      change (s side).state = replay history at hstate
      rw [hstate] at hidx
      have hfield := h.wellFormed.identifier_field hidx
      rw [hrunning]
      exact ⟨history, h.start horderly rfl rfl rfl rfl ⟨rfl, hcoll, hindex, hfield⟩⟩
  | convergeFromGossip remoteVersion =>
    simp only [System.after, after, convergeFromGossip]
    split
    · exact ⟨history, known, hsame⟩
    · have hnew : ∀ c ∈ (s side).calls ++ [.loadVersion remoteVersion 0], c.isDdl = false ∧
          CallOk history (visibleThrough history (s side.other).calls) (known side) side c := by
        intro c hc
        rcases List.mem_append.mp hc with hc | hc
        · exact ⟨horderly c hc, (h.tracks side).calls c hc⟩
        · rw [List.mem_singleton.mp hc]
          exact ⟨rfl, trivial⟩
      exact ⟨history, h.update_same ((h.tracks side).setIdle horderly hnew)
        (Or.inl ⟨horderly, fun c hc => (hnew c hc).1⟩)⟩
  | call i o => exact h.call horderly
  | task i o => exact ⟨history, h.task⟩

/-- Two new managers. -/
def System.new (limit : Side → Nat) : System := fun side => .new (limit side)

theorem explains_new (limit : Side → Nat) : Explains (.new limit) [] fun _ => [] where
  wellFormed := ⟨by simp, by simp, List.Pairwise.nil⟩
  tracks side := ⟨⟨rfl, rfl⟩, rfl, rfl, rfl, ⟨[], rfl, by simp⟩, List.prefix_refl _,
    by simp [System.new, SchemaManager.new], by simp [System.new, SchemaManager.new]⟩
  exclusive side := Or.inl (by simp [Idle, System.new, SchemaManager.new])

theorem Explains.run {actions : List (Side × Action)} (h : Explains s history known)
    (hrun : OrderlyRun s actions) : ∃ history known, Explains (s.run actions) history known := by
  induction actions generalizing s history known with
  | nil => exact ⟨history, known, h⟩
  | cons a actions ih =>
    obtain ⟨history', known', h'⟩ := h.step hrun.1
    exact ih h' hrun.2

/-- After every orderly run, equal versions at rest stand for equal schemas. -/
theorem agrees_of_orderlyRun (limit : Side → Nat) (actions : List (Side × Action))
    (hrun : OrderlyRun (.new limit) actions) : ((System.new limit).run actions).Agrees := by
  obtain ⟨history, known, h⟩ := (explains_new limit).run hrun
  exact h.agrees

/-- Outside calls that succeed, with this index id. -/
def succeeding (id : BitVec 128) : Outcome := ⟨⟨id⟩, "2024-01-01", .done, true, true, true⟩

/-- A creation from the call to the end of its background task. -/
def creation (side : Side) (field : String) (id : BitVec 128) : List (Side × Action) :=
  (side, .createIndex "users" field) ::
    (List.replicate 6 (side, .call 0 (succeeding id)) ++ [(side, .task 0 (succeeding id))])

/-- A `converge_from_gossip` that finds entries. -/
def convergence (side : Side) (remoteVersion : Nat) : List (Side × Action) :=
  (side, .convergeFromGossip remoteVersion) :: List.replicate 4 (side, .call 0 (succeeding 0))

/-- Each manager creates an index in turn and the other one fetches it. -/
def turns : System :=
  (System.new fun _ => 8).run (creation .left "name" 1 ++ convergence .right 1 ++
    creation .right "age" 2 ++ convergence .left 2)

/-- The managers are at rest at version 2, with both indexes. -/
theorem turns_agrees :
    turns.Quiet ∧ (turns .left).version = 2 ∧ (turns .right).version = 2 ∧
      (turns .left).state.definitions.length = 2 ∧ turns.Agrees := by
  -- one evaluation of the run for all that is read off its end
  have hend : (((turns .left).calls = [] ∧ (turns .left).tasks = []) ∧
      (turns .right).calls = [] ∧ (turns .right).tasks = []) ∧ (turns .left).version = 2 ∧
      (turns .right).version = 2 ∧ (turns .left).state.definitions.length = 2 := by decide +kernel
  obtain ⟨hquiet, hversion, hversion', hdefinitions⟩ := hend
  refine ⟨?_, hversion, hversion', hdefinitions, agrees_of_orderlyRun _ _ (by decide +kernel)⟩
  rintro (_ | _)
  · exact hquiet.1
  · exact hquiet.2

/-- Each manager creates an index before it has heard of the other's: both reach version 1. -/
def rivals : System :=
  (System.new fun _ => 8).run (creation .left "name" 1 ++ creation .right "age" 2)

/-- At rest at one version, with different indexes. -/
theorem rivals_disagree : ¬ rivals.Agrees := by
  intro h
  have hend : (((rivals .left).calls = [] ∧ (rivals .left).tasks = []) ∧
      (rivals .right).calls = [] ∧ (rivals .right).tasks = []) ∧
      (rivals .left).version = (rivals .right).version ∧
      ("users", "00000000-0000-0000-0000-000000000001", "name") ∈
        (rivals .left).state.definitions ∧
      ("users", "00000000-0000-0000-0000-000000000001", "name") ∉
        (rivals .right).state.definitions := by decide +kernel
  obtain ⟨hends, hversion, hleft, hright⟩ := hend
  have hquiet : rivals.Quiet := by
    rintro (_ | _)
    · exact hends.1
    · exact hends.2
  obtain ⟨hdefinitions, -⟩ := h hquiet hversion
  exact hright ((hdefinitions _).mp hleft)

end Run

end BashfulDB.Schema
