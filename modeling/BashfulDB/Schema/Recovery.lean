import BashfulDB.Schema.Journal
import BashfulDB.Schema.Reflects

/-! A manager that is rebuilt after a crash, against the log that it finds. -/
namespace BashfulDB.Schema

open SchemaManager

variable {drawn drawn' : List IndexDefinition} {log log' : List SchemaLogEntry} {n n' : Node}
  {a : Event}

/-- What an operation replaces or drops was created before the version it gets. -/
def Ddl.Aged (drawn : List IndexDefinition) (bound : Nat) : Ddl → Prop
  | .create _ _ replacement => ∀ old ∈ replacement, old.createdAt < bound
  | .drop _ index _ => ∃ d ∈ drawn, d.id = index ∧ d.createdAt < bound

def Stage.Aged (drawn : List IndexDefinition) (bound : Nat) : Stage → Prop
  | .checkQuota coll field replacement => (Ddl.create coll field replacement).Aged drawn bound
  | .nextVersion ddl => ddl.Aged drawn bound
  | .appendLine ddl entry | .appendNewline ddl entry | .applyEntry ddl entry | .snapshot ddl entry
  | .put ddl entry _ => ddl.Aged drawn entry.version

/-- The index that a task builds is in the log, and newer than the one it replaces. -/
def Task.Logged (log : List SchemaLogEntry) : Task → Prop
  | .materialize definition replacement =>
    (∃ e ∈ log, e.op = .createIndex ∧ e.definition = definition) ∧
      ∀ old ∈ replacement, old.createdAt < definition.createdAt
  | .swap definition old => (∃ e ∈ log, e.op = .createIndex ∧ e.definition = definition) ∧
      old.createdAt < definition.createdAt
  | .dropMaterialized _ => True

def Background.Logged (log : List SchemaLogEntry) : Background → Prop
  | .task t => t.Logged log
  | _ => True

/-- Every schema that the node holds includes the entries of the log up to its version. -/
structure Node.Reflecting (n : Node) : Prop where
  log : ∀ e ∈ n.log.entries, e.Aged n.drawn
  calls : ∀ stage ∈ n.calls, stage.Aged n.drawn (n.version + 1)
  tasks : ∀ task ∈ n.tasks, task.Logged n.log.entries
  holds : ∀ state, n.Holds state → Reflects n.log.entries state ∧ state.Aged

theorem SchemaLogEntry.Aged.mono {entry : SchemaLogEntry} (h : entry.Aged drawn)
    (hsub : drawn ⊆ drawn') : entry.Aged drawn' := by
  intro hop
  obtain ⟨d, hd, hage⟩ := h hop
  exact ⟨d, hsub hd, hage⟩

theorem Ddl.Aged.mono {ddl : Ddl} {bound bound' : Nat} (h : ddl.Aged drawn bound)
    (hsub : drawn ⊆ drawn') (hle : bound ≤ bound') : ddl.Aged drawn' bound' := by
  cases ddl with
  | create coll field replacement =>
    intro old hold
    exact (h old hold).trans_le hle
  | drop coll index field =>
    obtain ⟨d, hd, hid, hlt⟩ := h
    exact ⟨d, hsub hd, hid, hlt.trans_le hle⟩

theorem Stage.Aged.mono {stage : Stage} {bound bound' : Nat} (h : stage.Aged drawn bound)
    (hsub : drawn ⊆ drawn') (hle : bound ≤ bound') : stage.Aged drawn' bound' := by
  cases stage with
  | checkQuota coll field replacement =>
    have hddl : (Ddl.create coll field replacement).Aged drawn bound := h
    exact hddl.mono hsub hle
  | nextVersion ddl => exact Ddl.Aged.mono h hsub hle
  | _ => exact Ddl.Aged.mono h hsub le_rfl

theorem Background.Logged.mono {task : Background} (h : task.Logged log) (hsub : log ⊆ log') :
    task.Logged log' := by
  cases task with
  | task t =>
    cases t with
    | materialize definition replacement =>
      obtain ⟨⟨e, he, hentry⟩, hold⟩ := h
      exact ⟨⟨e, hsub he, hentry⟩, hold⟩
    | swap definition old =>
      obtain ⟨⟨e, he, hentry⟩, hold⟩ := h
      exact ⟨⟨e, hsub he, hentry⟩, hold⟩
    | dropMaterialized index => trivial
  | _ => trivial

/-- The entry of a drop is as old as its operation says. -/
theorem Held.aged {ddl : Ddl} {entry : SchemaLogEntry} (h : Held drawn ddl entry)
    (haged : ddl.Aged drawn entry.version) : entry.Aged drawn := by
  intro hop
  obtain ⟨version, o, rfl⟩ := h.made
  cases ddl with
  | create coll field replacement => cases hop
  | drop coll index field => exact haged

/-- The task of a call, once its entry is in the log. -/
theorem Held.task_logged {ddl : Ddl} {entry : SchemaLogEntry} (h : Held drawn ddl entry)
    (haged : ddl.Aged drawn entry.version) (hentry : entry ∈ log) :
    (SchemaManager.spawned ddl entry).Logged log := by
  obtain ⟨version, o, rfl⟩ := h.made
  cases ddl with
  | create coll field replacement => exact ⟨⟨_, hentry, rfl, rfl⟩, haged⟩
  | drop coll index field => trivial

/-- The log stays as it is, or grows by the entry of a call. -/
theorem Node.log_of_step (hstep : n.Step a n') :
    n'.log.entries = n.log.entries ∨ ∃ i o ddl entry, a = .call i o ∧
      n.calls[i]? = some (.appendLine ddl entry) ∧
      n'.log.entries = n.log.entries ++ [entry] := by
  cases hstep with
  | call hi hadvance =>
    cases hadvance with
    | append hwrite => exact Or.inr ⟨_, _, _, _, rfl, hi, rfl⟩
    | _ => exact Or.inl rfl
  | task hi hwork =>
    cases hwork with
    | _ => exact Or.inl rfl
  | _ => exact Or.inl rfl

/-- A step of a call. -/
theorem Node.Reflecting.advance {i : Nat} {o : Outcome} {stage : Stage} {next : Option Stage}
    (h : n.Reflecting) (hdrawn : n.Drawn) (hjournal : n.Journal)
    (hi : n.calls[i]? = some stage) (hadvance : n.Advances o stage next n') :
    (∀ e ∈ n'.log.entries, e.Aged n'.drawn) ∧
      (∀ b ∈ Pool.resume n.calls i next, b.Aged n'.drawn (n'.version + 1)) ∧
      ∀ task ∈ n'.tasks, task.Logged n'.log.entries := by
  have hmem := List.mem_of_getElem? hi
  have hstage := h.calls stage hmem
  have hheld := hdrawn.calls stage hmem
  have hcalls (hnext : ∀ b, next = some b → b.Aged n.drawn (n.version + 1)) :
      ∀ b ∈ Pool.resume n.calls i next, b.Aged n.drawn (n.version + 1) :=
    Pool.forall_resume hi h.calls hnext
  cases hadvance with
  | refuse => exact ⟨h.log, hcalls (fun b hb => nomatch hb), h.tasks⟩
  | accept =>
    refine ⟨h.log, hcalls ?_, h.tasks⟩
    rintro b ⟨⟩
    exact hstage
  | @draw ddl =>
    have hsub := List.subset_append_right (n.draws o (.nextVersion ddl)) n.drawn
    refine ⟨fun e he => (h.log e he).mono hsub, ?_, h.tasks⟩
    refine Pool.forall_resume hi (fun b hb => (h.calls b hb).mono hsub (Nat.le_succ _)) ?_
    rintro b ⟨⟩
    have haged : ddl.Aged n.drawn (n.version + 1) := hstage
    exact haged.mono hsub version_logEntry.ge
  | lose hwrite => exact ⟨h.log, hcalls (fun b hb => nomatch hb), h.tasks⟩
  | cut hwrite => exact ⟨h.log, hcalls (fun b hb => nomatch hb), h.tasks⟩
  | append hwrite =>
    refine ⟨Pool.forall_concat h.log (hheld.aged hstage), hcalls ?_,
      fun task ht => (h.tasks task ht).mono (List.subset_append_left _ _)⟩
    rintro b ⟨⟩
    exact hstage
  | tear hwrite => exact ⟨h.log, hcalls (fun b hb => nomatch hb), h.tasks⟩
  | endLine hwrite =>
    refine ⟨h.log, hcalls ?_, h.tasks⟩
    rintro b ⟨⟩
    exact hstage
  | apply =>
    refine ⟨h.log, hcalls ?_, h.tasks⟩
    rintro b ⟨⟩
    exact hstage
  | snapshot =>
    refine ⟨h.log, hcalls ?_, h.tasks⟩
    rintro b ⟨⟩
    exact hstage
  | miss hput => exact ⟨h.log, hcalls (fun b hb => nomatch hb), h.tasks⟩
  | put hput =>
    exact ⟨h.log, hcalls (fun b hb => nomatch hb), Pool.forall_concat h.tasks
      (hheld.1.task_logged hstage (hjournal.logged _ hmem _ rfl))⟩

/-- A step of a background task. -/
theorem Node.Reflecting.work {i : Nat} {o : Outcome} {task : Background}
    {next : Option Background} (h : n.Reflecting) (hi : n.tasks[i]? = some task)
    (hwork : n.Works o task next n') :
    ∀ b ∈ Pool.resume n.tasks i next, b.Logged n.log.entries := by
  have htask := h.tasks task (List.mem_of_getElem? hi)
  refine Pool.forall_resume hi h.tasks ?_
  intro b hb
  cases hwork with
  | build =>
    obtain ⟨old, hold, rfl⟩ := Option.map_eq_some_iff.mp hb
    exact ⟨htask.1, htask.2 old hold⟩
  | swap =>
    cases hb
    trivial
  | dropOld hready =>
    cases hb
    trivial
  | snapshot =>
    cases hb
    trivial
  | _ => cases hb

/-- A schema that comes from an event includes the log up to its version. -/
theorem Node.Reflecting.changes {state : SchemaState} (h : n.Reflecting) (hdrawn : n.Drawn)
    (hjournal : n.Journal) (hordered : n.Ordered) (horder : InOrder n a)
    (hchanges : n.Changes a state) : Reflects n.log.entries state ∧ state.Aged := by
  obtain ⟨hreflects, haged⟩ := h.holds n.state .state
  cases hchanges with
  | @apply i o ddl entry hi =>
    have hmem := List.mem_of_getElem? hi
    have hheld : Held n.drawn ddl entry := hdrawn.calls _ hmem
    have hnew := (hordered.calls _ hmem).1
    rw [hheld.activate]
    refine ⟨?_, haged.apply hnew⟩
    refine hreflects.apply hdrawn.distinct hheld.logged h.log (hjournal.logged _ hmem entry rfl)
      hnew ?_
    -- What is below the entry was applied, as no other call holds a smaller version.
    intro e he hle
    refine (hjournal.applied (hordered.up_of_call hi) e he).imp id ?_
    rintro ⟨b, hb, hbe⟩
    rcases (Pool.mem_iff_others hi).mp hb with rfl | hother
    · cases hbe
      rfl
    · exact absurd hle (Nat.not_le.mpr (horder _ hi b hother e (pending_of_unapplied hbe)))
  | @swap i o definition old hi =>
    obtain ⟨-, hold⟩ := hdrawn.tasks _ (List.mem_of_getElem? hi)
    obtain ⟨⟨e, he, hop, hdefinition⟩, holder⟩ := h.tasks _ (List.mem_of_getElem? hi)
    exact ⟨hreflects.swap hdrawn.distinct hdrawn.log hold holder he hop hdefinition, haged.swap _ _⟩
  | reset => exact ⟨reflects_default hjournal.positive, aged_default⟩
  | replay hmetadata happly =>
    have hloop := applyLoop_reflects hdrawn.distinct hdrawn.log h.log
      (fun e he => List.mem_mergeSort.mp he) (sorted_mergeSort hjournal.unique)
      (fun e he => hjournal.positive e (List.mem_mergeSort.mp he))
      (fun e he => Or.inr (List.mem_mergeSort.mpr he)) happly
      (reflects_default hjournal.positive) aged_default
    exact ⟨hloop.1, hloop.2.1⟩

/-- The schemas that are there after an event. -/
theorem Node.Reflecting.holds_step (h : n.Reflecting) (hdrawn : n.Drawn) (hjournal : n.Journal)
    (hordered : n.Ordered) (horder : InOrder n a) (hstep : n.Step a n') :
    ∀ state, n'.Holds state → Reflects n'.log.entries state ∧ state.Aged := by
  intro state hstate
  have hbefore : Reflects n.log.entries state ∧ state.Aged := by
    rcases holds_of_step hstep hstate with hold | ⟨hchanges, -⟩
    · exact h.holds state hold
    · exact h.changes hdrawn hjournal hordered horder hchanges
  refine ⟨?_, hbefore.2⟩
  rcases log_of_step hstep with hsame | ⟨i, o, ddl, entry, rfl, hi, hlog⟩
  · rw [hsame]
    exact hbefore.1
  · rw [hlog]
    have hentry := (hordered.calls _ (List.mem_of_getElem? hi)).1
    refine hbefore.1.concat ?_
    rcases holds_of_step hstep hstate with hold | ⟨hchanges, -⟩
    · exact (hordered.holds (hordered.up_of_call hi) state hold).trans_lt hentry
    · cases hchanges with
      | apply hi' => cases hi.symm.trans hi'
      | reset => exact (Nat.zero_le _).trans_lt hentry

/-- What an event preserves. -/
theorem Node.Reflecting.step (h : n.Reflecting) (hdrawn : n.Drawn) (hjournal : n.Journal)
    (hordered : n.Ordered) (horder : InOrder n a) (hstep : n.Step a n') : n'.Reflecting := by
  have hholds := h.holds_step hdrawn hjournal hordered horder hstep
  have haged (coll : String) : ∀ d ∈ n.state.indexes coll, d.createdAt < n.version + 1 :=
    fun d hd => Nat.lt_succ_of_le (((h.holds _ .state).2 coll d hd).trans hordered.version)
  cases hstep with
  | idle => exact h
  | @create coll field hup hrunning =>
    refine ⟨h.log, Pool.forall_concat h.calls ?_, h.tasks, hholds⟩
    intro old hold
    exact haged coll old (mem_replacement hold).1
  | @drop coll index idx hup hidx hid hrunning =>
    refine ⟨h.log, Pool.forall_concat h.calls ?_, h.tasks, hholds⟩
    exact ⟨idx, (hdrawn.state.defined coll idx hidx).1, hid, haged coll idx hidx⟩
  | call hi hadvance =>
    obtain ⟨hlog, hcalls, htasks⟩ := h.advance hdrawn hjournal hi hadvance
    exact ⟨hlog, hcalls, htasks, hholds⟩
  | task hi hwork =>
    have htasks := h.work hi hwork
    cases hwork with
    | _ => exact ⟨h.log, h.calls, htasks, hholds⟩
  | _ => exact ⟨h.log, (fun _ hb => nomatch hb), (fun _ hb => nomatch hb), hholds⟩

theorem reflecting_new (limit : Nat) : (Node.new limit).Reflecting where
  log _ he := nomatch he
  calls _ hstage := nomatch hstage
  tasks _ htask := nomatch htask
  holds state hstate := by
    cases hstate with
    | state => exact ⟨reflects_default (fun _ he => nomatch he), aged_default⟩
    | metadata h => cases h
    | call h => cases h
    | task h => cases h

def IndexDefinition.Valid (d : IndexDefinition) : Prop :=
  Identifier d.id ∧ Identifier d.collection ∧ Identifier d.field

/-- The names that a creation comes with were checked. -/
def Stage.Checked : Stage → Prop
  | .checkQuota coll field _ | .nextVersion (.create coll field _) =>
    Identifier coll ∧ Identifier field
  | _ => True

/-- The log can be read, its last line has its newline unless a call is at it, and all that it names
is valid. -/
structure Node.Readable (n : Node) : Prop where
  torn : n.log.torn = true → ∃ stage ∈ n.calls, stage.isMidline = true
  corrupt : n.log.corrupt = false
  drawn : ∀ d ∈ n.drawn, d.Valid
  calls : ∀ stage ∈ n.calls, stage.Checked

/-- A call that is not within its line leaves the one that is. -/
theorem Node.Readable.torn_resume {i : Nat} {stage : Stage} (h : n.Readable)
    (hi : n.calls[i]? = some stage) (hstage : stage.isMidline = false) (next : Option Stage)
    (htorn : n.log.torn = true) : ∃ b ∈ Pool.resume n.calls i next, b.isMidline = true := by
  refine Pool.exists_resume hi ?_ (h.torn htorn)
  rw [hstage]
  exact Bool.false_ne_true

theorem Node.Readable.advance {i : Nat} {o : Outcome} {stage : Stage} {next : Option Stage}
    (h : n.Readable) (hi : n.calls[i]? = some stage) (hsettled : Settled n (.call i o))
    (hadvance : n.Advances o stage next n') :
    Node.Readable { n' with calls := Pool.resume n.calls i next } := by
  have hstage := h.calls stage (List.mem_of_getElem? hi)
  have hsettled := hsettled stage hi
  have htorn (hmid : stage.isMidline = false) := h.torn_resume hi hmid next
  have hcalls (hnext : ∀ b, next = some b → b.Checked) :
      ∀ b ∈ Pool.resume n.calls i next, b.Checked := Pool.forall_resume hi h.calls hnext
  cases hadvance with
  | accept =>
    refine { h with torn := htorn rfl, calls := hcalls ?_ }
    rintro b ⟨⟩
    exact hstage
  | @draw ddl =>
    refine ⟨htorn rfl, h.corrupt, List.forall_mem_append.mpr ⟨?_, h.drawn⟩, hcalls ?_⟩
    · cases ddl with
      | drop coll index field =>
        intro d hd
        cases hd
      | create coll field replacement =>
        intro d hd
        rw [List.mem_singleton.mp hd]
        exact ⟨identifier_hyphenated _, hstage⟩
    · rintro b ⟨⟩
      trivial
  | cut hwrite => simp [Stage.Settled, hwrite] at hsettled
  | @append ddl entry hwrite =>
    -- the line before has its newline, as no call is within it
    have hended : n.log.torn = false := by
      by_contra htorn
      obtain ⟨b, hb, hmid⟩ := h.torn (by simpa using htorn)
      cases (hsettled.2 b hb).symm.trans hmid
    refine ⟨fun _ => ⟨.appendNewline ddl entry, (Pool.mem_resume hi).mpr (Or.inl rfl), rfl⟩, ?_,
      h.drawn, hcalls ?_⟩
    · simp [h.corrupt, hended]
    · rintro b ⟨⟩
      trivial
  | tear hwrite => exact absurd hsettled hwrite
  | endLine hwrite =>
    refine { h with torn := ?_, calls := hcalls ?_ }
    · rintro ⟨⟩
    · rintro b ⟨⟩
      trivial
  | apply =>
    refine { h with torn := htorn rfl, calls := hcalls ?_ }
    rintro b ⟨⟩
    trivial
  | snapshot =>
    refine { h with torn := htorn rfl, calls := hcalls ?_ }
    rintro b ⟨⟩
    trivial
  | _ =>
    refine { h with torn := htorn rfl, calls := hcalls ?_ }
    rintro b ⟨⟩

/-- A call starts. -/
theorem Node.Readable.start {stage : Stage} (h : n.Readable) (hstage : stage.Checked) :
    Node.Readable { n with calls := n.calls ++ [stage] } := by
  refine { h with torn := ?_, calls := Pool.forall_concat h.calls hstage }
  intro htorn
  obtain ⟨b, hb, hmid⟩ := h.torn htorn
  exact ⟨b, List.mem_append_left _ hb, hmid⟩

/-- A crash, or a manager that is rebuilt, where no call is within its line. -/
theorem Node.Readable.ended (h : n.Readable) (hcalls : ∀ stage ∈ n.calls, stage.isMidline = false) :
    n.crashed.Readable := by
  refine { h with torn := ?_, calls := fun _ hb => nomatch hb }
  intro htorn
  obtain ⟨b, hb, hmid⟩ := h.torn htorn
  cases (hcalls b hb).symm.trans hmid

theorem Node.Readable.step (h : n.Readable) (hordered : n.Ordered) (hsettled : Settled n a)
    (hstep : n.Step a n') : n'.Readable := by
  have hdown (hup : n.up = false) : n.crashed.Readable := by
    refine h.ended ?_
    rw [← hordered.down hup]
    intro stage hstage
    cases hstage
  cases hstep with
  | idle => exact h
  | @create coll field hup hrunning =>
    refine h.start ?_
    rcases createIndex_cases n.manager coll field with ⟨-, e, hdone⟩ | ⟨hcoll, hfield, -⟩
    · cases hdone.symm.trans hrunning
    · exact ⟨hcoll, hfield⟩
  | drop hup hidx hid hrunning => exact h.start trivial
  | call hi hadvance => exact h.advance hi hsettled hadvance
  | task hi hwork =>
    cases hwork with
    | _ => exact { h with }
  | crash => exact h.ended hsettled.1
  | restart hup hrestore => exact { hdown hup with }
  | stuck hup => exact hdown hup

theorem readable_new (limit : Nat) : (Node.new limit).Readable :=
  ⟨(fun htorn => nomatch htorn), rfl, (fun _ hd => nomatch hd), (fun _ hstage => nomatch hstage)⟩

theorem applyLoop_of_valid {entries : List SchemaLogEntry} (state : SchemaState)
    (h : ∀ e ∈ entries, e.Valid) : ∃ state', applyLoop state entries = (.ok (), state') := by
  induction entries generalizing state with
  | nil => exact ⟨state, rfl⟩
  | cons entry entries ih =>
    obtain ⟨hentry, hentries⟩ := List.forall_mem_cons.mp h
    rcases applyLoop_cons_cases state entry entries with
      ⟨-, heq⟩ | ⟨-, ⟨-, heq⟩ | ⟨hinvalid, -⟩⟩
    · rw [heq]
      exact ih state hentries
    · rw [heq]
      exact ih _ hentries
    · exact absurd hentry hinvalid

/-- A log that can be read is replayed, when the snapshot of it can be stored. -/
theorem Node.Readable.restores {o : Outcome} (h : n.Readable) (hdrawn : n.Drawn)
    (hput : o.persisted = true) :
    ∃ result, restoreState n.log n.metadata n.maxSecondaryIndexesPerCollection o = .ok result := by
  have hvalid : ∀ e ∈ n.log.entries.mergeSort fun a b => a.version ≤ b.version, e.Valid := by
    intro e he
    obtain ⟨d, hd, hid, hcoll, hfield⟩ := (hdrawn.log e (List.mem_mergeSort.mp he)).named
    obtain ⟨hindex, hcollection, hfieldId⟩ := h.drawn d hd
    exact ⟨hcoll ▸ hcollection, hfield ▸ hfieldId, hid ▸ hindex⟩
  obtain ⟨state, hloop⟩ := applyLoop_of_valid .default hvalid
  unfold restoreState
  cases n.metadata with
  | some restored => exact ⟨_, rfl⟩
  | none =>
    simp only [replayFromLog, SchemaLog.readLogEntries, h.corrupt, applyEntries, hloop, hput, bind,
      Except.bind, Bool.false_eq_true, if_false, if_true]
    split
    · exact ⟨_, rfl⟩
    · exact ⟨_, rfl⟩

theorem Node.next_restart {o : Outcome} (hup : n.up = false) {m : SchemaManager}
    {metadata : Option SchemaState}
    (h : restoreState n.log n.metadata n.maxSecondaryIndexesPerCollection o = .ok (m, metadata)) :
    n.next (.restart o) = { n.crashed with
      up := true, state := m.state, version := m.version, metadata := metadata } := by
  simp [Node.next, Node.withMaterializer, hup, h]

/-- Where entries are logged one after the other, and the crashes of a run find no call within its
line and none between its entry and its snapshot, unless there is no snapshot yet, the log has no
version twice, no call draws one that is in it, and a manager that is rebuilt includes all of it. -/
theorem restart_includes_log (limit : Nat) (events : List Event)
    (hfresh : Throughout Node.next Fresh (.new limit) events)
    (horder : Throughout Node.next InOrder (.new limit) events)
    (hsettled : Throughout Node.next Settled (.new limit) events) :
    let n := events.foldl Node.next (.new limit)
    (n.log.entries.map SchemaLogEntry.version).Nodup ∧
      (∀ ddl, .nextVersion ddl ∈ n.calls → ∀ e ∈ n.log.entries, e.version < n.version + 1) ∧
      (n.up = false → ∀ o, o.persisted = true → (n.next (.restart o)).up = true) ∧
      (n.up = false → ∀ o, (n.next (.restart o)).up = true →
        ∀ e ∈ n.log.entries, e.version ≤ (n.next (.restart o)).version ∧
          Included n.log.entries (n.next (.restart o)).state e) := by
  obtain ⟨hdrawn, hordered, hjournal, hreflecting, hreadable⟩ :=
    ((hfresh.and horder).and hsettled).invariant
      (I := fun n => n.Drawn ∧ n.Ordered ∧ n.Journal ∧ n.Reflecting ∧ n.Readable)
      (fun n a ok h =>
        have hstep := n.step_next a
        ⟨h.1.step ok.1.1 hstep, h.2.1.step ok.1.2 hstep, h.2.2.1.step h.2.1 ok.1.2 ok.2 hstep,
          h.2.2.2.1.step h.1 h.2.2.1 h.2.1 ok.1.2 hstep, h.2.2.2.2.step h.2.1 ok.2 hstep⟩)
      ⟨drawn_new limit, ordered_new limit, journal_new limit, reflecting_new limit,
        readable_new limit⟩
  revert hdrawn hordered hjournal hreflecting hreadable
  generalize events.foldl Node.next (.new limit) = n
  intro hdrawn hordered hjournal hreflecting hreadable
  refine ⟨hjournal.unique, ?_, ?_, ?_⟩
  · intro ddl hddl e he
    obtain ⟨i, hi⟩ := List.mem_iff_getElem?.mp hddl
    exact Nat.lt_succ_of_le (hjournal.bounded (hordered.up_of_call hi) e he)
  · intro hup o hput
    obtain ⟨⟨m, metadata⟩, hrestore⟩ := hreadable.restores hdrawn hput
    rw [Node.next_restart hup hrestore]
  · intro hup o hrestart e he
    cases hrestore : restoreState n.log n.metadata n.maxSecondaryIndexesPerCollection o with
    | error err => simp [Node.next, Node.withMaterializer, hup, hrestore, Node.crashed] at hrestart
    | ok result =>
      obtain ⟨m, metadata⟩ := result
      obtain ⟨-, hversion, hle⟩ := hjournal.le_restored hordered hup hrestore e he
      have hreflecting' := hreflecting.step hdrawn hjournal hordered (a := .restart o) trivial
        (.restart hup hrestore)
      rw [Node.next_restart hup hrestore]
      exact ⟨hversion ▸ hle, (hreflecting'.holds _ .state).1 e he hle⟩

/-- A creation that has logged its entry. -/
def logging (field : String) (id : BitVec 128) : List Event :=
  .createIndex "users" field :: List.replicate 4 (.call 0 (succeeding id))

/-- The crash finds no snapshot, and the log is replayed. -/
def replayed : List Event := logging "name" 1 ++ [Event.crash]

theorem replayed_included :
    ∃ e, (replayed.foldl Node.next (.new 8)).log.entries = [e] ∧ e.version = 1 ∧
      ((replayed.foldl Node.next (.new 8)).next (.restart (succeeding 0))).version = 1 ∧
      e.definition ∈ ((replayed.foldl Node.next (.new 8)).next
        (.restart (succeeding 0))).state.indexes "users" := by
  let e := logEntry (.create "users" "name" none) 1 (succeeding 1)
  have hlog : (replayed.foldl Node.next (.new 8)).log.entries = [e] := by decide +kernel
  refine ⟨e, hlog, rfl, by decide +kernel, ?_⟩
  obtain ⟨-, -, hup, hincluded⟩ := restart_includes_log 8 replayed (by decide +kernel)
    (by decide +kernel) (by decide +kernel)
  have hentry := hincluded (by decide +kernel) (succeeding 0)
    (hup (by decide +kernel) (succeeding 0) rfl) e (hlog ▸ List.mem_cons_self)
  rcases hentry.2.created rfl with hmem | ⟨later, hlater, hlt, -⟩
  · exact hmem
  · rw [hlog, List.mem_singleton] at hlater
    exact absurd hlt (hlater ▸ lt_irrefl _)

/-- The crash finds the snapshot of the first creation and the entry of the second. -/
def interrupted : List Event :=
  logging "name" 1 ++ List.replicate 3 (Event.call 0 (succeeding 1)) ++ logging "age" 2 ++
    [Event.crash, Event.restart (succeeding 0)]

/-- The manager that is rebuilt is at the first version, has no index on the second field, and
draws the second version again. -/
theorem interrupted_forgotten :
    (interrupted.foldl Node.next (.new 8)).log.entries.map SchemaLogEntry.version = [1, 2] ∧
    (interrupted.foldl Node.next (.new 8)).up = true ∧
    (interrupted.foldl Node.next (.new 8)).version = 1 ∧
    ((interrupted.foldl Node.next (.new 8)).state.indexes "users").map IndexDefinition.field =
      ["name"] ∧
    ((interrupted ++ logging "city" 3).foldl Node.next (.new 8)).log.entries.map
      SchemaLogEntry.version = [1, 2, 2] := by
  decide +kernel

end BashfulDB.Schema
