import BashfulDB.Schema.Versions
import Mathlib.Data.List.Nodup

/-! The log of a node against its schema and its snapshot, through crashes. -/
namespace BashfulDB.Schema

open SchemaManager

/-- The entry that a call has still to log. -/
def Stage.unlogged : Stage → Option SchemaLogEntry
  | .appendLine _ entry => some entry
  | _ => none

/-- The entry that a call has logged and not yet applied. -/
def Stage.unapplied : Stage → Option SchemaLogEntry
  | .appendNewline _ entry | .applyEntry _ entry => some entry
  | _ => none

/-- The entry that a call has logged and not yet stored with the schema. -/
def Stage.logged : Stage → Option SchemaLogEntry
  | .appendNewline _ entry | .applyEntry _ entry | .snapshot _ entry | .put _ entry _ => some entry
  | _ => none

/-- The call has written its line, and not the newline. -/
def Stage.isMidline : Stage → Bool
  | .appendNewline _ _ => true
  | _ => false

/-- A call writes all of its line or nothing, where no other call stands within one, and then the
newline. -/
def Stage.Settled (calls : List Stage) (o : Outcome) : Stage → Prop
  | .appendLine _ _ =>
    (o.write = .done ∨ o.write = .failed) ∧ ∀ stage ∈ calls, stage.isMidline = false
  | .appendNewline _ _ => o.write = .done
  | _ => True

instance decidableStageSettled (calls : List Stage) (o : Outcome) :
    (stage : Stage) → Decidable (stage.Settled calls o)
  | .appendLine _ _ => inferInstanceAs (Decidable
      ((o.write = .done ∨ o.write = .failed) ∧ ∀ stage ∈ calls, stage.isMidline = false))
  | .appendNewline _ _ => inferInstanceAs (Decidable (o.write = .done))
  | .checkQuota _ _ _ | .nextVersion _ | .applyEntry _ _ | .snapshot _ _ | .put _ _ _ =>
    inferInstanceAs (Decidable True)

/-- Entries are logged one after the other, each as a whole or not at all. A crash finds no call
within its line, and, after the first snapshot was stored, none between its entry and its
snapshot. -/
def Settled (n : Node) : Event → Prop
  | .call i o => ∀ stage ∈ n.calls[i]?, stage.Settled n.calls o
  | .crash => (∀ stage ∈ n.calls, stage.isMidline = false) ∧
      (n.metadata = none ∨ ∀ stage ∈ n.calls, stage.logged = none)
  | _ => True

instance decidableSettled (n : Node) : (a : Event) → Decidable (Settled n a)
  | .call i o => inferInstanceAs (Decidable (∀ stage ∈ n.calls[i]?, stage.Settled n.calls o))
  | .crash => inferInstanceAs (Decidable ((∀ stage ∈ n.calls, stage.isMidline = false) ∧
      (n.metadata = none ∨ ∀ stage ∈ n.calls, stage.logged = none)))
  | .createIndex _ _ | .dropIndex _ _ | .task _ _ | .restart _ => inferInstanceAs (Decidable True)

def Stage.pendingVersion (stage : Stage) : Option Nat := stage.pending.map SchemaLogEntry.version

/-- Every entry of the log has a version of its own, and has reached the schema and the snapshot
unless a call is on its way with it. -/
structure Node.Journal (n : Node) : Prop where
  positive : ∀ e ∈ n.log.entries, 0 < e.version
  unique : (n.log.entries.map SchemaLogEntry.version).Nodup
  bounded : n.up = true → ∀ e ∈ n.log.entries, e.version ≤ n.version
  distinct : Pool.Distinct Stage.pendingVersion n.calls
  unlogged : ∀ stage ∈ n.calls, ∀ e, stage.unlogged = some e →
    ∀ e' ∈ n.log.entries, e'.version ≠ e.version
  logged : ∀ stage ∈ n.calls, ∀ e, stage.logged = some e → e ∈ n.log.entries
  applied : n.up = true → ∀ e ∈ n.log.entries, e.version ≤ n.state.version ∨
    ∃ stage ∈ n.calls, stage.unapplied = some e
  stored : ∀ e ∈ n.log.entries, (∃ stored, n.metadata = some stored ∧ e.version ≤ stored.version) ∨
    (∃ stage ∈ n.calls, stage.logged = some e) ∨ n.up = false ∧ n.metadata = none

variable {n n' : Node} {a : Event}

theorem pendingVersion_eq_some {stage : Stage} {v : Nat} (h : stage.pendingVersion = some v) :
    ∃ e, stage.pending = some e ∧ e.version = v := Option.map_eq_some_iff.mp h

theorem pending_of_unapplied {stage : Stage} {e : SchemaLogEntry}
    (h : stage.unapplied = some e) : stage.pending = some e := by
  cases stage with
  | appendNewline ddl entry => exact h
  | applyEntry ddl entry => exact h
  | _ => cases h

theorem pendingVersion_of_unlogged {stage : Stage} {e : SchemaLogEntry}
    (h : stage.unlogged = some e) : stage.pendingVersion = some e.version := by
  cases stage with
  | appendLine ddl entry =>
    cases h
    rfl
  | _ => cases h

/-- A call starts. -/
theorem Node.Journal.start (h : n.Journal) {stage : Stage} (hpending : stage.pending = none)
    (hlogged : stage.logged = none) :
    Node.Journal { n with calls := n.calls ++ [stage] } := by
  have hunlogged : stage.unlogged = none := by
    cases stage with
    | appendLine ddl entry => cases hpending
    | _ => rfl
  refine { h with
    distinct := h.distinct.concat (by simp [Stage.pendingVersion, hpending])
    unlogged := Pool.forall_concat h.unlogged fun e he => nomatch hunlogged.symm.trans he
    logged := Pool.forall_concat h.logged fun e he => nomatch hlogged.symm.trans he
    applied := ?_
    stored := ?_ }
  · intro hup e he
    refine (h.applied hup e he).imp id ?_
    rintro ⟨b, hb, hbe⟩
    exact ⟨b, List.mem_append_left _ hb, hbe⟩
  · intro e he
    refine (h.stored e he).imp id (Or.imp ?_ id)
    rintro ⟨b, hb, hbe⟩
    exact ⟨b, List.mem_append_left _ hb, hbe⟩

/-- A call goes on with what it has logged, or ends when that is stored. -/
theorem Node.Journal.keep (h : n.Journal) {i : Nat} {stage : Stage} {next : Option Stage}
    {state : SchemaState} {metadata : Option SchemaState} (hup : n.up = true)
    (hi : n.calls[i]? = some stage)
    (hpending : ∀ b, next = some b → b.pending = none ∨ b.pending = stage.pending)
    (hunlogged : ∀ b, next = some b → b.unlogged = none)
    (hlogged : ∀ b, next = some b → b.logged = stage.logged)
    (hstate : n.state.version ≤ state.version)
    (happly : ∀ e, stage.unapplied = some e →
      e.version ≤ state.version ∨ ∃ b, next = some b ∧ b.unapplied = some e)
    (hmetadata : ∀ stored, n.metadata = some stored →
      ∃ stored', metadata = some stored' ∧ stored.version ≤ stored'.version)
    (hended : next = none → ∀ e, stage.logged = some e →
      ∃ stored, metadata = some stored ∧ e.version ≤ stored.version) :
    Node.Journal { n with
      state := state, metadata := metadata, calls := Pool.resume n.calls i next } := by
  have hstage := List.mem_of_getElem? hi
  refine { h with
    distinct := h.distinct.keep hi ?_
    unlogged := Pool.forall_resume hi h.unlogged ?_
    logged := Pool.forall_resume hi h.logged ?_
    applied := ?_
    stored := ?_ }
  · intro b hb k hk
    rcases hpending b hb with hnone | hsame
    · simp [Stage.pendingVersion, hnone] at hk
    · simpa only [Stage.pendingVersion, hsame] using hk
  · intro b hb e he
    cases (hunlogged b hb).symm.trans he
  · intro b hb e he
    rw [hlogged b hb] at he
    exact h.logged stage hstage e he
  · intro _ e he
    rcases h.applied hup e he with hle | ⟨b, hb, hbe⟩
    · exact Or.inl (hle.trans hstate)
    · by_cases hown : b = stage
      · subst hown
        refine (happly e hbe).imp id ?_
        rintro ⟨c, hc, hce⟩
        exact ⟨c, (Pool.mem_resume hi).mpr (Or.inl hc), hce⟩
      · exact Or.inr ⟨b, Pool.mem_resume_of_ne hi hb hown, hbe⟩
  · intro e he
    rcases h.stored e he with ⟨stored, hstored, hle⟩ | ⟨b, hb, hbe⟩ | ⟨hdown, -⟩
    · obtain ⟨stored', hstored', hle'⟩ := hmetadata stored hstored
      exact Or.inl ⟨stored', hstored', hle.trans hle'⟩
    · by_cases hown : b = stage
      · subst hown
        cases next with
        | none => exact Or.inl (hended rfl e hbe)
        | some c =>
          have hc : c ∈ Pool.resume n.calls i (some c) :=
            (Pool.mem_resume hi).mpr (Or.inl rfl)
          exact Or.inr (Or.inl ⟨c, hc, (hlogged c rfl).trans hbe⟩)
      · exact Or.inr (Or.inl ⟨b, Pool.mem_resume_of_ne hi hb hown, hbe⟩)
    · cases hup.symm.trans hdown

/-- A call draws a version above all that are in the log or held by a call. -/
theorem Node.Journal.draw (h : n.Journal) (hordered : n.Ordered) {i : Nat} {ddl : Ddl}
    {entry : SchemaLogEntry} {next : Option Stage} (drawn : List IndexDefinition)
    (hi : n.calls[i]? = some (.nextVersion ddl)) (hversion : entry.version = n.version + 1)
    (hnext : next = some (.appendLine ddl entry)) :
    Node.Journal { n with
      version := n.version + 1, drawn := drawn, calls := Pool.resume n.calls i next } := by
  have hup := hordered.up_of_call hi
  have hpending : ∀ b ∈ n.calls, ∀ e, b.pending = some e → e.version ≤ n.version := by
    intro b hb e he
    have hb := hordered.calls b hb
    cases b with
    | appendLine ddl entry =>
      cases he
      exact hb.2
    | appendNewline ddl entry =>
      cases he
      exact hb.2
    | applyEntry ddl entry =>
      cases he
      exact hb.2
    | _ => cases he
  refine { h with
    bounded := fun _ e he => (h.bounded hup e he).trans (Nat.le_succ _)
    distinct := h.distinct.resume hi ?_
    unlogged := Pool.forall_resume hi h.unlogged ?_
    logged := Pool.forall_resume hi h.logged ?_
    applied := ?_
    stored := ?_ }
  · intro c hc v hv b hb hbv
    cases hnext.symm.trans hc
    cases hv
    obtain ⟨e, he, hsame⟩ := pendingVersion_eq_some hbv
    have hle := hpending b (List.mem_of_mem_eraseIdx hb) e he
    omega
  · intro b hb e he e' he'
    cases hnext.symm.trans hb
    cases he
    have hle := h.bounded hup e' he'
    omega
  · intro b hb e he
    cases hnext.symm.trans hb
    cases he
  · intro _ e he
    exact (h.applied hup e he).imp id (Pool.exists_resume hi (by rintro ⟨⟩))
  · intro e he
    exact (h.stored e he).imp id (Or.imp (Pool.exists_resume hi (by rintro ⟨⟩)) id)

/-- A call logs its entry. -/
theorem Node.Journal.append (h : n.Journal) (hordered : n.Ordered) {i : Nat} {ddl : Ddl}
    {entry : SchemaLogEntry} {next : Option Stage} {log : SchemaLog}
    (hi : n.calls[i]? = some (.appendLine ddl entry))
    (hnext : next = some (.appendNewline ddl entry))
    (hlog : log.entries = n.log.entries ++ [entry]) :
    Node.Journal { n with log := log, calls := Pool.resume n.calls i next } := by
  have hup := hordered.up_of_call hi
  have hstage := List.mem_of_getElem? hi
  obtain ⟨hnew, hle⟩ := hordered.calls _ hstage
  have hown : .appendNewline ddl entry ∈ Pool.resume n.calls i next :=
    (Pool.mem_resume hi).mpr (Or.inl hnext)
  have hmem : ∀ e, e ∈ log.entries ↔ e ∈ n.log.entries ∨ e = entry := by simp [hlog]
  refine ⟨?_, ?_, ?_, h.distinct.keep hi ?_, ?_, ?_, ?_, ?_⟩
  · intro e he
    rcases (hmem e).mp he with he | rfl
    · exact h.positive e he
    · omega
  · simp only [hlog, List.map_append, List.map_cons, List.map_nil]
    refine List.nodup_append.mpr ⟨h.unique, List.nodup_singleton _, ?_⟩
    intro v hv w hw
    obtain ⟨e, he, rfl⟩ := List.mem_map.mp hv
    rw [List.mem_singleton.mp hw]
    exact h.unlogged _ hstage entry rfl e he
  · intro _ e he
    rcases (hmem e).mp he with he | rfl
    · exact h.bounded hup e he
    · exact hle
  · intro c hc v hv
    cases hnext.symm.trans hc
    exact hv
  · intro b hb e he e' he'
    rcases (Pool.mem_resume hi).mp hb with hb | hb
    · cases hnext.symm.trans hb
      cases he
    · rcases (hmem e').mp he' with he' | rfl
      · exact h.unlogged b (List.mem_of_mem_eraseIdx hb) e he e' he'
      · intro hsame
        exact h.distinct.others hi rfl hb
          ((pendingVersion_of_unlogged he).trans (congrArg some hsame.symm))
  · intro b hb e he
    rcases (Pool.mem_resume hi).mp hb with hb | hb
    · cases hnext.symm.trans hb
      cases he
      exact (hmem _).mpr (Or.inr rfl)
    · exact (hmem e).mpr (Or.inl (h.logged b (List.mem_of_mem_eraseIdx hb) e he))
  · intro _ e he
    rcases (hmem e).mp he with he | rfl
    · exact (h.applied hup e he).imp id (Pool.exists_resume hi (by rintro ⟨⟩))
    · exact Or.inr ⟨_, hown, rfl⟩
  · intro e he
    rcases (hmem e).mp he with he | rfl
    · exact (h.stored e he).imp id (Or.imp (Pool.exists_resume hi (by rintro ⟨⟩)) id)
    · exact Or.inr (Or.inl ⟨_, hown, rfl⟩)

/-- A step of a call. -/
theorem Node.Journal.advance {i : Nat} {o : Outcome} {stage : Stage} {next : Option Stage}
    (h : n.Journal) (hordered : n.Ordered) (hi : n.calls[i]? = some stage)
    (horder : InOrder n (.call i o)) (hsettled : Settled n (.call i o))
    (hadvance : n.Advances o stage next n') :
    Node.Journal { n' with calls := Pool.resume n.calls i next } := by
  have hup := hordered.up_of_call hi
  have hstage := hordered.calls stage (List.mem_of_getElem? hi)
  have horder := horder stage hi
  have hsettled := hsettled stage hi
  have hsame : ∀ stored, n.metadata = some stored →
      ∃ stored', n.metadata = some stored' ∧ stored.version ≤ stored'.version :=
    fun stored hstored => ⟨stored, hstored, le_rfl⟩
  -- The stages that neither draw, log, apply nor store.
  have hkeep (hpending : ∀ b, next = some b → b.pending = none ∧ b.unlogged = none)
      (hlogged : ∀ b, next = some b → b.logged = stage.logged)
      (happly : stage.unapplied = none) (hended : next = none → stage.logged = none) :
      Node.Journal { n with calls := Pool.resume n.calls i next } :=
    h.keep hup hi (fun b hb => Or.inl (hpending b hb).1) (fun b hb => (hpending b hb).2) hlogged
      le_rfl (fun e he => nomatch happly.symm.trans he) hsame
      fun hnone e he => nomatch (hended hnone).symm.trans he
  cases hadvance with
  | refuse => exact hkeep (fun b hb => nomatch hb) (fun b hb => nomatch hb) rfl fun _ => rfl
  | accept =>
    exact hkeep (by rintro b ⟨⟩; exact ⟨rfl, rfl⟩) (by rintro b ⟨⟩; rfl) rfl
      fun hnone => nomatch hnone
  | draw => exact h.draw hordered _ hi version_logEntry rfl
  | lose hwrite => exact hkeep (fun b hb => nomatch hb) (fun b hb => nomatch hb) rfl fun _ => rfl
  | cut hwrite => simp [Stage.Settled, hwrite] at hsettled
  | append hwrite => exact h.append hordered hi rfl rfl
  | tear hwrite => exact absurd hsettled hwrite
  | @endLine ddl entry hwrite =>
    have hended : Node.Journal
        { n with calls := Pool.resume n.calls i (some (.applyEntry ddl entry)) } := by
      refine h.keep hup hi (by rintro b ⟨⟩; exact Or.inr rfl) (by rintro b ⟨⟩; rfl)
        (by rintro b ⟨⟩; rfl) le_rfl ?_ hsame fun hnone => nomatch hnone
      intro e he
      exact Or.inr ⟨_, rfl, he⟩
    exact { hended with }
  | @apply ddl entry =>
    refine h.keep hup hi (by rintro b ⟨⟩; exact Or.inl rfl) (by rintro b ⟨⟩; rfl)
      (by rintro b ⟨⟩; rfl) ?_ ?_ hsame fun hnone => nomatch hnone
    · simpa using hstage.1.le
    · rintro e ⟨⟩
      exact Or.inl (by simp)
  | snapshot =>
    exact hkeep (by rintro b ⟨⟩; exact ⟨rfl, rfl⟩) (by rintro b ⟨⟩; rfl) rfl
      fun hnone => nomatch hnone
  | miss hput => cases hput.symm.trans horder.1
  | @put ddl entry taken hput =>
    have hstored : Node.Journal
        { n with metadata := some taken, calls := Pool.resume n.calls i none } := by
      refine h.keep hup hi (fun b hb => nomatch hb) (fun b hb => nomatch hb)
        (fun b hb => nomatch hb) le_rfl (fun _ he => nomatch he) ?_ ?_
      · intro stored hstored
        exact ⟨taken, rfl, horder.2 stored hstored⟩
      · rintro - e ⟨⟩
        exact ⟨taken, rfl, hstage⟩
    exact { hstored with }

/-- A snapshot that is not older takes the place of the one before. -/
theorem Node.Journal.work {i : Nat} {o : Outcome} {task : Background} {next : Option Background}
    (h : n.Journal) (hordered : n.Ordered) (hi : n.tasks[i]? = some task)
    (horder : InOrder n (.task i o)) (hwork : n.Works o task next n') :
    Node.Journal { n' with tasks := Pool.resume n.tasks i next } := by
  cases hwork with
  | @put old taken =>
    refine { h with stored := ?_ }
    intro e he
    rcases h.stored e he with ⟨stored, hstored, hle⟩ | hcall | ⟨hdown, -⟩
    · exact Or.inl ⟨taken, rfl, hle.trans (horder _ hi stored hstored)⟩
    · exact Or.inr (Or.inl hcall)
    · cases (hordered.up_of_task hi).symm.trans hdown
  | _ => exact { h with }

/-- A crash that finds no entry between the log and the snapshot. -/
theorem Node.Journal.crashed (h : n.Journal) (hsettled : Settled n .crash) :
    n.crashed.Journal := by
  refine { h with
    bounded := fun hup => nomatch hup
    distinct := List.Pairwise.nil
    unlogged := fun _ hstage => nomatch hstage
    logged := fun _ hstage => nomatch hstage
    applied := fun hup => nomatch hup
    stored := ?_ }
  intro e he
  rcases hsettled.2 with hnone | hcalls
  · exact Or.inr (Or.inr ⟨rfl, hnone⟩)
  · rcases h.stored e he with hstored | ⟨stage, hstage, hlogged⟩ | ⟨-, hnone⟩
    · exact Or.inl hstored
    · cases (hcalls stage hstage).symm.trans hlogged
    · exact Or.inr (Or.inr ⟨rfl, hnone⟩)

theorem version_le_applyLoop (state : SchemaState) (entries : List SchemaLogEntry) :
    state.version ≤ (applyLoop state entries).2.version := by
  induction entries generalizing state with
  | nil => exact le_rfl
  | cons entry entries ih =>
    rcases applyLoop_cons_cases state entry entries with
      ⟨-, heq⟩ | ⟨hnew, ⟨-, heq⟩ | ⟨-, _, _, heq⟩⟩
    · rw [heq]
      exact ih state
    · rw [heq]
      have hrest := ih (applyEntryMut state entry)
      rw [version_applyEntryMut] at hrest
      exact hnew.le.trans hrest
    · rw [heq]

/-- A replay ends at or above the versions of its entries. -/
theorem applyLoop_version_le {entries : List SchemaLogEntry} {state state' : SchemaState}
    (h : applyLoop state entries = (.ok (), state')) :
    ∀ e ∈ entries, e.version ≤ state'.version := by
  induction entries generalizing state with
  | nil => exact fun e he => nomatch he
  | cons entry entries ih =>
    rcases applyLoop_cons_cases state entry entries with
      ⟨hold, heq⟩ | ⟨-, ⟨-, heq⟩ | ⟨-, _, _, heq⟩⟩
    · rw [heq] at h
      have hstate := version_le_applyLoop state entries
      rw [h] at hstate
      exact List.forall_mem_cons.mpr ⟨hold.trans hstate, ih h⟩
    · rw [heq] at h
      have hstate := version_le_applyLoop (applyEntryMut state entry) entries
      rw [h, version_applyEntryMut] at hstate
      exact List.forall_mem_cons.mpr ⟨hstate, ih h⟩
    · cases heq.symm.trans h

/-- A manager that is restored has reached all versions of the log. -/
theorem Node.Journal.le_restored {m : SchemaManager} {metadata : Option SchemaState} {o : Outcome}
    (h : n.Journal) (hordered : n.Ordered) (hup : n.up = false)
    (hrestore : restoreState n.log n.metadata n.maxSecondaryIndexesPerCollection o =
      .ok (m, metadata)) :
    ∀ e ∈ n.log.entries, metadata = some m.state ∧ m.version = m.state.version ∧
      e.version ≤ m.state.version := by
  intro e he
  rcases restoreState_cases hrestore with
    ⟨hsome, hversion, rfl⟩ | ⟨-, hempty, -⟩ | ⟨-, rfl, hversion, hloop⟩
  · refine ⟨hsome, hversion, ?_⟩
    rcases h.stored e he with ⟨stored, hstored, hle⟩ | ⟨stage, hstage, -⟩ | ⟨-, hnone⟩
    · cases hstored.symm.trans hsome
      exact hle
    · rw [← hordered.down hup] at hstage
      cases hstage
    · cases hnone.symm.trans hsome
  · rw [hempty] at he
    cases he
  · exact ⟨rfl, hversion, applyLoop_version_le hloop e (List.mem_mergeSort.mpr he)⟩

theorem Node.Journal.restore {m : SchemaManager} {metadata : Option SchemaState} {o : Outcome}
    (h : n.Journal) (hordered : n.Ordered) (hup : n.up = false)
    (hrestore : restoreState n.log n.metadata n.maxSecondaryIndexesPerCollection o =
      .ok (m, metadata)) :
    Node.Journal { n.crashed with
      up := true, state := m.state, version := m.version, metadata := metadata } := by
  have hle := h.le_restored hordered hup hrestore
  refine ⟨h.positive, h.unique, ?_, List.Pairwise.nil, (fun _ hstage => nomatch hstage),
    (fun _ hstage => nomatch hstage), ?_, ?_⟩
  · intro _ e he
    exact (hle e he).2.1 ▸ (hle e he).2.2
  · intro _ e he
    exact Or.inl (hle e he).2.2
  · intro e he
    exact Or.inl ⟨m.state, (hle e he).1, (hle e he).2.2⟩

/-- What an event preserves. -/
theorem Node.Journal.step (h : n.Journal) (hordered : n.Ordered) (horder : InOrder n a)
    (hsettled : Settled n a) (hstep : n.Step a n') : n'.Journal := by
  cases hstep with
  | idle => exact h
  | create hup hrunning => exact h.start rfl rfl
  | drop hup hidx hid hrunning => exact h.start rfl rfl
  | call hi hadvance => exact h.advance hordered hi horder hsettled hadvance
  | task hi hwork => exact h.work hordered hi horder hwork
  | crash => exact h.crashed hsettled
  | restart hup hrestore => exact h.restore hordered hup hrestore
  | stuck hup =>
    rw [hordered.down hup]
    exact h

theorem journal_new (limit : Nat) : (Node.new limit).Journal where
  positive _ he := nomatch he
  unique := List.nodup_nil
  bounded _ _ he := nomatch he
  distinct := List.Pairwise.nil
  unlogged _ hstage := nomatch hstage
  logged _ hstage := nomatch hstage
  applied _ _ he := nomatch he
  stored _ he := nomatch he

end BashfulDB.Schema
