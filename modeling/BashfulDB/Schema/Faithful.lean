import BashfulDB.Library.Steps
import BashfulDB.Schema.Agreement

/-! When the log of a manager is the history of its schema. -/
namespace BashfulDB.Schema

open SchemaManager

/-- A manager after an action, with the manager whose log a fetch reads. -/
def SchemaManager.next (m : SchemaManager) (a : SchemaManager × Action) : SchemaManager :=
  m.after a.1 a.2

def SchemaManager.Quiet (m : SchemaManager) : Prop := m.calls = [] ∧ m.tasks = []

instance decidableQuiet (m : SchemaManager) : Decidable m.Quiet :=
  decidable_of_iff (m.calls.isEmpty ∧ m.tasks.isEmpty) (by simp [SchemaManager.Quiet])

/-- The log replayed into an empty schema gives the schema and the version of the manager. -/
def SchemaManager.Faithful (m : SchemaManager) : Prop :=
  ∃ entries m', m.log.logEntriesSince 0 = .ok entries ∧
    (SchemaManager.new m.maxSecondaryIndexesPerCollection).applyEntries entries = (.ok (), m') ∧
    m'.version = m.version ∧ m'.state = m.state

/-- A call starts when the one before it has returned, and all that the outside does succeeds. -/
def Sequential (m : SchemaManager) (a : SchemaManager × Action) : Prop :=
  match a.2 with
  | .createIndex _ _ | .dropIndex _ _ | .convergeFromGossip _ => m.calls = []
  | .call _ o => o.write = .done ∧ o.fetched = true ∧ o.persisted = true
  | .task _ o => o.materialized = true

instance decidableSequential (m : SchemaManager) :
    (a : SchemaManager × Action) → Decidable (Sequential m a)
  | (_, .createIndex _ _) | (_, .dropIndex _ _) | (_, .convergeFromGossip _) =>
    decidable_of_iff (m.calls.isEmpty = true) List.isEmpty_iff
  | (_, .call _ o) => inferInstanceAs (Decidable (o.write = .done ∧ _ ∧ _))
  | (_, .task _ o) => inferInstanceAs (Decidable (o.materialized = true))

/-- The log that a fetch reads has no newer entries. -/
def NothingNew (other : SchemaManager) : Call → Prop
  | .fetchSince _ _ since => ∀ entry ∈ other.log.entries, entry.version ≤ since
  | _ => True

instance decidableNothingNew (other : SchemaManager) : (c : Call) → Decidable (NothingNew other c)
  | .fetchSince _ _ since =>
    inferInstanceAs (Decidable (∀ entry ∈ other.log.entries, entry.version ≤ since))
  | .checkQuota _ _ _ | .nextVersion _ | .appendLine _ _ | .appendNewline _ _ | .applyEntry _ _
  | .persist _ _ | .loadVersion _ _ | .applyMissing _ _ _ | .recheck _ _ =>
    inferInstanceAs (Decidable True)

/-- No index is replaced, and gossip brings no entries. -/
def Recorded (m : SchemaManager) (a : SchemaManager × Action) : Prop :=
  match a.2 with
  | .createIndex coll field => m.state.replacement coll field = none
  | .call i _ => ∀ call ∈ m.calls[i]?, NothingNew a.1 call
  | .dropIndex _ _ | .convergeFromGossip _ | .task _ _ => True

instance decidableRecorded (m : SchemaManager) :
    (a : SchemaManager × Action) → Decidable (Recorded m a)
  | (_, .createIndex coll field) =>
    inferInstanceAs (Decidable (m.state.replacement coll field = none))
  | (other, .call i _) =>
    inferInstanceAs (Decidable (∀ call ∈ m.calls[i]?, NothingNew other call))
  | (_, .dropIndex _ _) | (_, .convergeFromGossip _) | (_, .task _ _) =>
    inferInstanceAs (Decidable True)

/-- The manager beside one that has done nothing. -/
def beside (m : SchemaManager) : System
  | .left => m
  | .right => .new 0

theorem logEntriesSince_of_sorted {log : SchemaLog} (since : Nat) (hread : log.corrupt = false)
    (hsorted : log.entries.Pairwise fun a b => decide (a.version ≤ b.version) = true) :
    log.logEntriesSince since = .ok (log.entries.filter fun entry => entry.version > since) := by
  unfold SchemaLog.logEntriesSince SchemaLog.readLogEntries
  rw [hread, List.mergeSort_of_pairwise hsorted]
  rfl

theorem logEntriesSince_of_le {log : SchemaLog} {since : Nat}
    (h : ∀ entry ∈ log.entries, entry.version ≤ since) :
    log.logEntriesSince since = .ok [] ∨ ∃ e, log.logEntriesSince since = .error e := by
  unfold SchemaLog.logEntriesSince SchemaLog.readLogEntries
  cases log.corrupt with
  | true => exact Or.inr ⟨.serde, rfl⟩
  | false =>
    refine Or.inl (congrArg Except.ok (List.filter_eq_nil_iff.mpr fun entry hentry => ?_))
    have hle := h entry (List.mem_mergeSort.mp hentry)
    simpa using hle

/-- A fetch that brings nothing is one from a manager that has done nothing, or one that fails. -/
theorem after_beside {m other : SchemaManager} {i : Nat} {o : Outcome}
    (h : ∀ call ∈ m.calls[i]?, NothingNew other call) :
    ∃ o' : Outcome, o'.write = o.write ∧
      m.after other (.call i o) = m.after (.new 0) (.call i o') := by
  cases hc : m.calls[i]? with
  | none => exact ⟨o, rfl, by simp [after, hc]⟩
  | some c =>
    cases c with
    | fetchSince remoteVersion attempt since =>
      have hnew : (SchemaManager.new 0).log.logEntriesSince since = .ok [] := by
        simp [SchemaManager.new, SchemaLog.empty, SchemaLog.logEntriesSince,
          SchemaLog.readLogEntries, bind, Except.bind]
      rcases logEntriesSince_of_le (h _ hc) with hnone | ⟨e, herror⟩
      · exact ⟨o, rfl, by simp only [after, hc, advance, hnone, hnew]⟩
      · refine ⟨{ o with fetched := false }, rfl, ?_⟩
        cases hfetched : o.fetched <;> simp [after, hc, advance, herror, hfetched]
    | _ => exact ⟨o, rfl, by simp only [after, hc, advance]⟩

/-- One step: the manager and its idle companion are still explained by one history. -/
theorem explains_next {m : SchemaManager} {a : SchemaManager × Action}
    (hseq : Sequential m a) (hrec : Recorded m a)
    (h : ∃ history known, Explains (beside m) history known) :
    ∃ history known, Explains (beside (m.next a)) history known := by
  obtain ⟨history, known, h⟩ := h
  obtain ⟨other, action⟩ := a
  have hstep (action : Action) (horderly : Orderly (beside m) .left action) :
      ∃ history known, Explains (beside (m.after (.new 0) action)) history known := by
    have hafter : (beside m).after .left action = beside (m.after (.new 0) action) := by
      funext side
      cases side <;> rfl
    rw [← hafter]
    exact h.step horderly
  have hmay (hcalls : m.calls = []) : MayIssue (beside m) .left :=
    ⟨hcalls, by simp [Idle, beside, SchemaManager.new, Side.other], Nat.zero_le _⟩
  cases action with
  | createIndex coll field => exact hstep (.createIndex coll field) ⟨hmay hseq, hrec⟩
  | dropIndex coll index => exact hstep (.dropIndex coll index) (hmay hseq)
  | convergeFromGossip remoteVersion =>
    have hidle : Idle m.calls := by
      intro c hc
      rw [show m.calls = [] from hseq] at hc
      cases hc
    exact hstep (.convergeFromGossip remoteVersion) hidle
  | call i o =>
    obtain ⟨o', hwrite, heq⟩ := after_beside hrec
    rw [SchemaManager.next, heq]
    exact hstep (.call i o') fun _ => hwrite.trans hseq.1
  | task i o => exact hstep (.task i o) trivial

/-- At rest, the log is the whole history. -/
theorem Explains.faithful {m : SchemaManager} {history : List Issued} {known : Side → List Issued}
    (h : Explains (beside m) history known) (hquiet : m.Quiet) : m.Faithful := by
  have hleft : Tracks history _ .left m _ := h.tracks .left
  have hright : Tracks history _ .right (.new 0) _ := h.tracks .right
  have hknown : known .left = history := h.known_eq (Nat.zero_le _)
  have hnone : ∀ x ∈ history, x.1 = .left := by
    intro x hx
    cases hside : x.1 with
    | left => rfl
    | right =>
      have hmem : x.2 ∈ (history.filter (·.1 = .right)).map Prod.snd :=
        List.mem_map_of_mem (List.mem_filter.mpr ⟨hx, decide_eq_true hside⟩)
      rw [← hright.log] at hmem
      cases hmem
  have hlog : m.log.entries = history.map Prod.snd := by
    have hlog := hleft.log
    rw [hquiet.1, List.filter_eq_self.mpr fun x hx => decide_eq_true (hnone x hx)] at hlog
    simpa [unlogged] using hlog
  have hstate : m.state = replay history := by
    have hstate := hleft.state
    rw [hquiet.1, hknown] at hstate
    exact hstate
  have hversion : m.version = (replay history).version := by rw [hleft.version, hknown]
  have hsorted : m.log.entries.Pairwise fun a b => decide (a.version ≤ b.version) = true := by
    rw [hlog, List.pairwise_map]
    exact h.wellFormed.ascending.imp fun hlt => decide_eq_true hlt.le
  refine ⟨history.map Prod.snd, ⟨replay history, (replay history).version, .empty,
    m.maxSecondaryIndexesPerCollection, [], []⟩, ?_, ?_, hversion.symm, hstate.symm⟩
  · rw [logEntriesSince_of_sorted 0 hleft.readable.2 hsorted, hlog]
    refine congrArg Except.ok (List.filter_eq_self.mpr fun entry hentry => ?_)
    obtain ⟨x, hx, rfl⟩ := List.mem_map.mp hentry
    exact decide_eq_true (h.wellFormed.positive x hx)
  · have hloop : applyLoop (replay []) (history.map Prod.snd) = (.ok (), replay ([] ++ history)) :=
      applyLoop_new h.wellFormed
    change applyLoop .default _ = _ at hloop
    simp only [applyEntries, SchemaManager.new, hloop, List.nil_append]

/-- After every sequential run in which no index is replaced and gossip brings nothing, the log at
rest is the history of the schema. -/
theorem faithful_of_recorded (limit : Nat) (actions : List (SchemaManager × Action))
    (hseq : Throughout next Sequential (new limit) actions)
    (hrec : Throughout next Recorded (new limit) actions)
    (hquiet : (actions.foldl next (new limit)).Quiet) :
    (actions.foldl next (new limit)).Faithful := by
  have hnew : beside (new limit) = System.new fun side => if side = .left then limit else 0 := by
    funext side
    cases side <;> rfl
  have hinitial : ∃ history known, Explains (beside (new limit)) history known := by
    rw [hnew]
    exact ⟨_, _, explains_new _⟩
  obtain ⟨history, known, h⟩ := (hseq.and hrec).invariant
    (I := fun m => ∃ history known, Explains (beside m) history known)
    (fun m a ok h => explains_next ok.1 ok.2 h) hinitial
  exact h.faithful hquiet

/-- A creation from the call to the end of its first background step. -/
def creating (field : String) (id : BitVec 128) : List (SchemaManager × Action) :=
  (creation .left field id).map fun a => (new 0, a.2)

/-- A drop from the call to the end of its background task. -/
def dropping (index : String) : List (SchemaManager × Action) :=
  (new 0, .dropIndex "users" index) ::
    (List.replicate 5 (new 0, .call 0 (succeeding 0)) ++ [(new 0, .task 0 (succeeding 0))])

/-- Two indexes are created and one is dropped again. -/
theorem faithful_drop :
    ((creating "name" 1 ++ creating "age" 2 ++
      dropping "00000000-0000-0000-0000-000000000001").foldl next (new 8)).version = 3 ∧
    ((creating "name" 1 ++ creating "age" 2 ++
      dropping "00000000-0000-0000-0000-000000000001").foldl next (new 8)).Faithful := by
  generalize hrun : creating "name" 1 ++ creating "age" 2 ++
    dropping "00000000-0000-0000-0000-000000000001" = run
  have hend : (run.foldl next (new 8)).version = 3 ∧ (run.foldl next (new 8)).Quiet ∧
      Throughout next Sequential (new 8) run ∧ Throughout next Recorded (new 8) run := by
    rw [← hrun]
    decide +kernel
  obtain ⟨hversion, hquiet, hseq, hrec⟩ := hend
  exact ⟨hversion, faithful_of_recorded 8 run hseq hrec hquiet⟩

/-- An index is created twice on one field, and the second one takes the place of the first. -/
def replacing : List (SchemaManager × Action) :=
  creating "name" 1 ++ creating "name" 2 ++ List.replicate 2 (new 0, .task 0 (succeeding 0))

/-- The log still has the first one. -/
theorem replacing_not_faithful :
    Throughout next Sequential (new 8) replacing ∧ (replacing.foldl next (new 8)).Quiet ∧
      ¬ (replacing.foldl next (new 8)).Faithful := by
  have hend : Throughout next Sequential (new 8) replacing ∧
      (replacing.foldl next (new 8)).Quiet ∧
      (replacing.foldl next (new 8)).log.corrupt = false ∧
      (replacing.foldl next (new 8)).log.entries.Pairwise
        fun a b => decide (a.version ≤ b.version) = true := by decide +kernel
  obtain ⟨hseq, hquiet, hread, hsorted⟩ := hend
  refine ⟨hseq, hquiet, ?_⟩
  rintro ⟨entries, m', hentries, happly, -, hstate⟩
  rw [logEntriesSince_of_sorted 0 hread hsorted] at hentries
  cases hentries
  have hm' := congrArg Prod.snd happly
  dsimp only at hm'
  rw [← hm'] at hstate
  revert hstate
  decide +kernel

end BashfulDB.Schema
