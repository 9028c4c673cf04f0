import BashfulDB.Schema.Journal

/-! Calls of a schema manager one after the other, and what a call leaves when it fails. -/
namespace BashfulDB.Schema

open SchemaManager

inductive Request
  | createIndex (coll field : String)
  | dropIndex (coll index : String)
  | applyEntries (entries : List SchemaLogEntry)

/-- The entries that `apply_entries` comes to: those above the version and above all before them. -/
def newer (version : Nat) : List SchemaLogEntry → List SchemaLogEntry
  | [] => []
  | entry :: entries =>
    if entry.version ≤ version then newer version entries
    else entry :: newer entry.version entries

namespace SchemaManager

variable (m : SchemaManager) (o : Outcome)

/-- The steps of a call that meets no other one, until it returns. -/
def finish : Nat → SchemaManager → Progress →
    Option (Except SchemaError (Option Nat)) × SchemaManager
  | _, m, .done answer => (some answer, m)
  | 0, m, .running _ => (none, m)
  | fuel + 1, m, .running call =>
    let (progress, m) := m.advance (.new 0) o call
    finish fuel m progress

/-- A whole call, with what the outside decides in it. -/
def perform : Request → Option (Except SchemaError (Option Nat)) × SchemaManager
  | .createIndex coll field => finish o 6 m (m.createIndex coll field)
  | .dropIndex coll index => finish o 6 m (m.dropIndex coll index)
  | .applyEntries entries =>
    let (answer, m) := m.applyEntries entries
    (some (answer.map fun _ => none), m)

/-- The manager after a call. -/
def serve (call : Outcome × Request) : SchemaManager := (m.perform call.1 call.2).2

def Same (m' : SchemaManager) : Prop :=
  m'.state = m.state ∧ m'.version = m.version ∧ m'.log = m.log

/-- The counter is at the version of the schema. -/
def Level : Prop := m.version = m.state.version

/-- The counter can be raised. -/
def HasRoom : Prop := m.version + 1 < 2 ^ 64

/-- What the checks of a call do not let through, before anything has changed: names that are no
identifiers, a full quota, an index that is not there, and a first new entry that is invalid. -/
def Refuses : Request → Prop
  | .createIndex coll field => ¬ (Identifier coll ∧ Identifier field) ∨
      m.maxSecondaryIndexesPerCollection ≤ m.state.activeCount coll ∧
        m.state.replacement coll field = none
  | .dropIndex coll index =>
    ¬ (Identifier coll ∧ Identifier index ∧ ∃ idx ∈ m.state.indexes coll, idx.id = index)
  | .applyEntries entries => ∃ entry ∈ (newer m.state.version entries).head?, ¬ entry.Valid

/-- Nothing fails past the checks. -/
def Completes : Request → Prop
  | .applyEntries entries => ∀ entry ∈ newer m.state.version entries, entry.Valid
  | _ => o.write = .done ∧ o.persisted = true

/-- The counter and the schema move together: an entry that is logged is also applied. -/
def Moves : Request → Prop
  | .applyEntries entries => m.Completes o (.applyEntries entries)
  | _ => o.write = .done

/-- How a creation or drop ends once it is past its checks. -/
inductive Ends (ddl : Ddl) : Except SchemaError (Option Nat) → SchemaManager → Prop
  | unlogged {log} (hwrite : o.write ≠ .done) :
      Ends ddl (.error .io) { m with version := m.version + 1, log := log }
  | unsaved {log} (hwrite : o.write = .done) (hput : o.persisted = false) :
      Ends ddl (.error .storage) { m with
        version := m.version + 1
        log := log
        state := activate ddl (logEntry ddl (m.version + 1) o)
          (applyEntryMut m.state (logEntry ddl (m.version + 1) o)) }
  | answered {log} (hwrite : o.write = .done) (hput : o.persisted = true) :
      Ends ddl (.ok (some (m.version + 1))) { m with
        version := m.version + 1
        log := log
        state := activate ddl (logEntry ddl (m.version + 1) o)
          (applyEntryMut m.state (logEntry ddl (m.version + 1) o))
        tasks := m.tasks ++ [spawned ddl (logEntry ddl (m.version + 1) o)] }

/-- What a call answers and leaves. -/
inductive Leaves (request : Request) : Except SchemaError (Option Nat) → SchemaManager → Prop
  | refused {e} (hrefuses : m.Refuses request) : Leaves request (.error e) m
  | failed {e m'} (hrefuses : ¬ m.Refuses request) (hfails : ¬ m.Completes o request)
      (hsame : ¬ m.Same m') (hlevel : m.Level → (m'.Level ↔ m.Moves o request)) :
      Leaves request (.error e) m'
  | done {v m'} (hcompletes : m.Completes o request) (hlevel : m'.Level) :
      Leaves request (.ok v) m'

end SchemaManager

variable {m m' : SchemaManager} {o : Outcome} {e : SchemaError}

theorem SchemaManager.Completes.moves {request : Request} (h : m.Completes o request) :
    m.Moves o request := by
  cases request with
  | applyEntries entries => exact h
  | createIndex coll field => exact h.1
  | dropIndex coll index => exact h.1

theorem finish_nextVersion (m : SchemaManager) (o : Outcome) (ddl : Ddl) (fuel : Nat) :
    ∃ answer m', finish o (fuel + 5) m (.running (.nextVersion ddl)) = (some answer, m') ∧
      m.Ends o ddl answer m' := by
  rw [finish, advance_nextVersion]
  cases hwrite : o.write with
  | done =>
    cases hput : o.persisted with
    | false =>
      simp only [finish, SchemaManager.advance, SchemaLog.appendLine, SchemaLog.appendNewline,
        hwrite, hput, Bool.false_eq_true, if_false]
      exact ⟨_, _, rfl, .unsaved hwrite hput⟩
    | true =>
      simp only [finish, SchemaManager.advance, SchemaLog.appendLine, SchemaLog.appendNewline,
        hwrite, hput, if_true, version_logEntry]
      exact ⟨_, _, rfl, .answered hwrite hput⟩
  | _ =>
    simp only [finish, SchemaManager.advance, SchemaLog.appendLine, SchemaLog.appendNewline, hwrite]
    exact ⟨_, _, rfl, .unlogged (by simp [hwrite])⟩

/-- A creation or drop is refused, or goes on to its end. -/
theorem perform_cases (m : SchemaManager) (o : Outcome) (request : Request)
    (hrequest : ∀ entries, request ≠ .applyEntries entries) :
    (m.Refuses request ∧ ∃ e, m.perform o request = (some (.error e), m)) ∨
      ¬ m.Refuses request ∧
        ∃ ddl answer m', m.perform o request = (some answer, m') ∧ m.Ends o ddl answer m' := by
  cases request with
  | createIndex coll field =>
    rw [perform]
    rcases createIndex_cases m coll field with ⟨hnames, e, hdone⟩ | ⟨hcoll, hfield, hrunning⟩
    · exact Or.inl ⟨Or.inl hnames, e, by rw [hdone, finish]⟩
    · rw [hrunning, finish]
      rcases advance_checkQuota m (.new 0) o coll field _ with ⟨hfull, e, hquota⟩ | ⟨hroom, hquota⟩
      · exact Or.inl ⟨Or.inr hfull, e, by rw [hquota]; rfl⟩
      · rw [hquota]
        refine Or.inr ⟨?_, _, finish_nextVersion m o _ 0⟩
        rintro (hnames | hfull)
        · exact hnames ⟨hcoll, hfield⟩
        · exact hroom hfull
  | dropIndex coll index =>
    rw [perform]
    rcases dropIndex_cases m coll index with
      ⟨hnames, e, hdone⟩ | ⟨hcoll, hindex, idx, hidx, hid, hrunning⟩
    · exact Or.inl ⟨hnames, e, by rw [hdone, finish]⟩
    · rw [hrunning]
      exact Or.inr ⟨fun h => h ⟨hcoll, hindex, idx, hidx, hid⟩, _, finish_nextVersion m o _ 1⟩
  | applyEntries entries => exact absurd rfl (hrequest entries)

/-- What a call leaves that is past its checks. -/
theorem leaves_of_ends {ddl : Ddl} {request : Request} {answer : Except SchemaError (Option Nat)}
    (hrequest : ∀ entries, request ≠ .applyEntries entries) (hrefuses : ¬ m.Refuses request)
    (h : m.Ends o ddl answer m') : m.Leaves o request answer m' := by
  have hcompletes : m.Completes o request ↔ o.write = .done ∧ o.persisted = true := by
    cases request with
    | applyEntries entries => exact absurd rfl (hrequest entries)
    | _ => exact Iff.rfl
  have hmoves : m.Moves o request ↔ o.write = .done := by
    cases request with
    | applyEntries entries => exact absurd rfl (hrequest entries)
    | _ => exact Iff.rfl
  have hchanged (hversion : m'.version = m.version + 1) : ¬ m.Same m' := by
    intro hsame
    have hkept := hsame.2.1
    omega
  cases h with
  | unlogged hwrite =>
    refine .failed hrefuses (fun h => hwrite (hcompletes.mp h).1) (hchanged rfl) ?_
    -- the counter has moved on from a schema that has not
    intro hbefore
    rw [hmoves, Level, ← hbefore]
    exact iff_of_false (Nat.succ_ne_self _) hwrite
  | unsaved hwrite hput =>
    refine .failed hrefuses (fun h => ?_) (hchanged rfl) fun _ => ?_
    · cases hput.symm.trans (hcompletes.mp h).2
    · rw [hmoves]
      exact iff_of_true (by simp [Level, version_logEntry]) hwrite
  | answered hwrite hput =>
    exact .done (hcompletes.mpr ⟨hwrite, hput⟩) (by simp [Level, version_logEntry])

/-- A replay comes to its end, or to an invalid entry. It has changed the schema then, unless that
is the first one it came to. -/
theorem applyLoop_newer (state : SchemaState) (entries : List SchemaLogEntry) :
    ((∀ entry ∈ newer state.version entries, entry.Valid) ∧
      ∃ state', applyLoop state entries = (.ok (), state')) ∨
    (¬ ∀ entry ∈ newer state.version entries, entry.Valid) ∧
      ∃ e state', applyLoop state entries = (.error e, state') ∧
        (state' = state ∧ (∃ entry ∈ (newer state.version entries).head?, ¬ entry.Valid) ∨
          state.version < state'.version ∧
            ¬ ∃ entry ∈ (newer state.version entries).head?, ¬ entry.Valid) := by
  induction entries generalizing state with
  | nil => exact Or.inl ⟨fun entry hentry => (nomatch hentry), state, rfl⟩
  | cons entry entries ih =>
    rcases applyLoop_cons_cases state entry entries with
      ⟨hold, heq⟩ | ⟨hnew, ⟨hvalid, heq⟩ | ⟨hinvalid, kind, value, heq⟩⟩
    · rw [heq, newer, if_pos hold]
      exact ih state
    · have hrest := version_le_applyLoop (applyEntryMut state entry) entries
      have ih := ih (applyEntryMut state entry)
      rw [version_applyEntryMut] at hrest ih
      rw [heq, newer, if_neg (Nat.not_le.mpr hnew), List.forall_mem_cons]
      refine ih.imp (And.imp_left fun h => ⟨hvalid, h⟩) ?_
      rintro ⟨hinvalid, e, state', hloop, -⟩
      rw [hloop] at hrest
      refine ⟨fun h => hinvalid h.2, e, state', hloop, Or.inr ⟨hnew.trans_le hrest, ?_⟩⟩
      rintro ⟨first, hfirst, hinvalid⟩
      cases hfirst
      exact hinvalid hvalid
    · rw [heq, newer, if_neg (Nat.not_le.mpr hnew), List.forall_mem_cons]
      exact Or.inr ⟨fun h => hinvalid h.1, _, state, rfl, Or.inl ⟨rfl, entry, rfl, hinvalid⟩⟩

/-- Every call returns. -/
theorem perform_returns (m : SchemaManager) (o : Outcome) (request : Request) :
    ∃ answer, (m.perform o request).1 = some answer ∧
      m.Leaves o request answer (m.perform o request).2 := by
  by_cases hrequest : ∃ entries, request = .applyEntries entries
  · obtain ⟨entries, rfl⟩ := hrequest
    rcases applyLoop_newer m.state entries with
      ⟨hvalid, state, hloop⟩ | ⟨hinvalid, e, state, hloop, ⟨rfl, hfirst⟩ | ⟨hlt, hfirst⟩⟩
    · simp only [perform, applyEntries, hloop]
      exact ⟨_, rfl, .done hvalid rfl⟩
    · simp only [perform, applyEntries, hloop]
      exact ⟨_, rfl, .refused hfirst⟩
    · simp only [perform, applyEntries, hloop]
      refine ⟨_, rfl, .failed hfirst hinvalid ?_ fun hlevel => iff_of_false ?_ hinvalid⟩
      · rintro ⟨hstate, -, -⟩
        exact hlt.ne' (congrArg SchemaState.version hstate)
      · intro hafter
        exact hlt.ne (hlevel.symm.trans hafter)
  · have hrequest' : ∀ entries, request ≠ .applyEntries entries := fun entries h =>
      hrequest ⟨entries, h⟩
    rcases perform_cases m o request hrequest' with
      ⟨hrefuses, e, h⟩ | ⟨hrefuses, ddl, answer, m', h, hends⟩
    · rw [h]
      exact ⟨_, rfl, .refused hrefuses⟩
    · rw [h]
      exact ⟨_, rfl, leaves_of_ends hrequest' hrefuses hends⟩

theorem level_serve_iff (hlevel : m.Level) (call : Outcome × Request) :
    (m.serve call).Level ↔ m.Refuses call.2 ∨ m.Moves call.1 call.2 := by
  rw [serve]
  obtain ⟨answer, -, hleaves⟩ := perform_returns m call.1 call.2
  generalize (m.perform call.1 call.2).2 = m' at hleaves
  cases hleaves with
  | refused hrefuses => exact iff_of_true hlevel (Or.inl hrefuses)
  | failed hrefuses hfails hsame hiff => rw [hiff hlevel, or_iff_right hrefuses]
  | done hcompletes hafter => exact iff_of_true hafter (Or.inr hcompletes.moves)

/-- If a call fails, it has kept the schema, the version and the log: this is so exactly when its
checks refuse the call or nothing fails past them. Over a run of calls the version remains the one
of the schema exactly when every call is refused, or applies all that it logs. -/
theorem failed_call_atomic_iff (m : SchemaManager) :
    (∀ o request, m.HasRoom →
      (((∃ e, (m.perform o request).1 = some (.error e)) → m.Same (m.perform o request).2) ↔
        m.Refuses request ∨ m.Completes o request)) ∧
    (∀ calls, m.Level → Throughout serve (fun m _ => m.HasRoom) m calls →
      (Throughout serve (fun m call => (m.serve call).Level) m calls ↔
        Throughout serve (fun m call => m.Refuses call.2 ∨ m.Moves call.1 call.2) m calls)) := by
  refine ⟨fun o request _ => ?_, fun calls hlevel _ => ?_⟩
  · obtain ⟨answer, hanswer, hleaves⟩ := perform_returns m o request
    rw [hanswer]
    generalize (m.perform o request).2 = m' at hleaves
    cases hleaves with
    | refused hrefuses => exact iff_of_true (fun _ => ⟨rfl, rfl, rfl⟩) (Or.inl hrefuses)
    | failed hrefuses hfails hsame hlevel =>
      exact iff_of_false (fun h => hsame (h ⟨_, rfl⟩)) (not_or.mpr ⟨hrefuses, hfails⟩)
    | done hcompletes hlevel => exact iff_of_true (fun h => nomatch h) (Or.inr hcompletes)
  · exact Throughout.after_iff (I := fun _ => True) (fun _ _ _ _ => trivial)
      (fun m call _ _ hlevel => level_serve_iff hlevel call) trivial hlevel

/-- An index fills the quota, and the next creation is refused. -/
def refused : List (Outcome × Request) :=
  [(succeeding 1, .createIndex "users" "name"), (succeeding 2, .createIndex "users" "age")]

theorem refused_keeps :
    (((new 1).serve (succeeding 1, .createIndex "users" "name")).perform (succeeding 2)
        (.createIndex "users" "age")).1 = some (.error (.indexQuotaExceeded "users" 1)) ∧
      ((new 1).serve (succeeding 1, .createIndex "users" "name")).Same
        (refused.foldl serve (new 1)) ∧
      Throughout serve (fun m call => (m.serve call).Level) (new 1) refused := by
  let first := (new 1).serve (succeeding 1, .createIndex "users" "name")
  have hsecond : (first.perform (succeeding 2) (.createIndex "users" "age")).1 =
      some (.error (.indexQuotaExceeded "users" 1)) := by decide +kernel
  have hrefuses : first.Refuses (.createIndex "users" "age") :=
    Or.inr ⟨by decide +kernel, by decide +kernel⟩
  have hroom : (new 1).HasRoom ∧ first.HasRoom := by
    unfold HasRoom
    decide +kernel
  refine ⟨hsecond, ?_, ?_⟩
  · exact ((failed_call_atomic_iff first).1 (succeeding 2) _ hroom.2).mpr (Or.inl hrefuses)
      ⟨_, hsecond⟩
  · exact ((failed_call_atomic_iff (new 1)).2 refused rfl ⟨hroom.1, hroom.2, trivial⟩).mpr
      ⟨Or.inr rfl, Or.inl hrefuses, trivial⟩

/-- A version that nothing has, one that is logged without being applied, one that is applied
without being stored, and one of two entries. -/
theorem failed_calls_change :
    let create (write : LogWrite) (persisted : Bool) :=
      (new 8).perform { succeeding 1 with write := write, persisted := persisted }
        (.createIndex "users" "name")
    let apply := (new 8).perform (succeeding 1) (.applyEntries
      [⟨1, .createIndex, "users", "name", "i", ""⟩, ⟨2, .createIndex, "users", "", "j", ""⟩])
    ((create .failed true).1 = some (.error .io) ∧ (create .failed true).2.version = 1 ∧
      (create .failed true).2.state.version = 0) ∧
    ((create .torn true).1 = some (.error .io) ∧ (create .torn true).2.log.entries.length = 1 ∧
      (create .torn true).2.state.version = 0) ∧
    ((create .done false).1 = some (.error .storage) ∧
      (create .done false).2.log.entries.length = 1 ∧
      (create .done false).2.state.version = 1) ∧
    (apply.1 = some (.error (.invalidIdentifier "field" "")) ∧ apply.2.version = 0 ∧
      apply.2.state.version = 1) := by
  decide +kernel

end BashfulDB.Schema
