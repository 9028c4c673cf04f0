import BashfulDB.Schema.Replay

/-! What one step of a call keeps, when one history explains what both managers hold. -/
namespace BashfulDB.Schema

open SchemaManager

/-- A call of `create_index` or `drop_index`. -/
def Call.isDdl : Call → Bool
  | .checkQuota _ _ _ | .nextVersion _ | .appendLine _ _ | .appendNewline _ _ | .applyEntry _ _
  | .persist _ _ => true
  | .loadVersion _ _ | .fetchSince _ _ _ | .applyMissing _ _ _ | .recheck _ _ => false

def Call.isAppend : Call → Bool
  | .appendLine _ _ | .appendNewline _ _ => true
  | _ => false

def Idle (calls : List Call) : Prop := ∀ c ∈ calls, c.isDdl = false

instance decidableIdle (calls : List Call) : Decidable (Idle calls) :=
  inferInstanceAs (Decidable (∀ c ∈ calls, c.isDdl = false))

/-- The entry that is drawn but not logged yet. -/
def unlogged : List Call → List SchemaLogEntry
  | [.appendLine _ entry] => [entry]
  | _ => []

/-- The entry that is drawn but not applied yet. -/
def unapplied : List Call → List SchemaLogEntry
  | [.appendLine _ entry] | [.appendNewline _ entry] | [.applyEntry _ entry] => [entry]
  | _ => []

/-- The line of an entry is in the log and its newline is not. -/
def unended : List Call → Bool
  | [.appendNewline _ _] => true
  | _ => false

theorem Idle.unlogged {calls : List Call} (h : Idle calls) : unlogged calls = [] := by
  unfold Schema.unlogged
  split
  · cases h _ (List.mem_singleton_self _)
  · rfl

theorem Idle.unapplied {calls : List Call} (h : Idle calls) : unapplied calls = [] := by
  unfold Schema.unapplied
  split
  · cases h _ (List.mem_singleton_self _)
  · cases h _ (List.mem_singleton_self _)
  · cases h _ (List.mem_singleton_self _)
  · rfl

theorem Idle.unended {calls : List Call} (h : Idle calls) : unended calls = false := by
  unfold Schema.unended
  split
  · cases h _ (List.mem_singleton_self _)
  · rfl

/-- An operation with valid names that replaces nothing. -/
def Ddl.Fine : Ddl → Prop
  | .create coll field replacement => Identifier coll ∧ Identifier field ∧ replacement = none
  | .drop coll index field => Identifier coll ∧ Identifier index ∧ Identifier field

def Task.Plain : Task → Prop
  | .materialize _ replacement => replacement = none
  | .swap _ _ => False
  | .dropMaterialized _ => True

/-- What a call in progress on `side` holds, where `known` is the part of the history that its
manager has and `visible` the part that it can fetch. -/
def CallOk (history visible known : List Issued) (side : Side) : Call → Prop
  | .checkQuota coll field replacement =>
    known = history ∧ (Ddl.create coll field replacement).Fine
  | .nextVersion ddl => known = history ∧ ddl.Fine
  | .appendLine ddl entry | .appendNewline ddl entry | .applyEntry ddl entry
  | .persist ddl entry => ddl.Fine ∧ ∃ version o, entry = logEntry ddl version o
  | .fetchSince _ _ since => ∃ p rest, p <+: known ∧ history = p ++ rest ∧
      (∀ x ∈ rest, x.1 = side.other) ∧ since = (replay p).version
  | .applyMissing _ _ missing => ∃ p q, p <+: known ∧ p ++ q <+: visible ∧ missing = q.map Prod.snd
  | .loadVersion _ _ | .recheck _ _ => True

/-- A manager that has applied the part `known` of the history and issued its own entries. -/
structure Tracks (history visible : List Issued) (side : Side) (m : SchemaManager)
    (known : List Issued) : Prop where
  readable : m.log.torn = unended m.calls ∧ m.log.corrupt = false
  log : m.log.entries ++ unlogged m.calls = (history.filter (·.1 = side)).map Prod.snd
  state : (unapplied m.calls).foldl applyEntryMut m.state = replay known
  version : m.version = (replay known).version
  foreign : ∃ rest, history = known ++ rest ∧ ∀ x ∈ rest, x.1 = side.other
  seen : known <+: visible
  calls : ∀ c ∈ m.calls, CallOk history visible known side c
  tasks : ∀ t ∈ m.tasks, t.Plain

/-- The part of the history that can be had while the other manager has these calls. -/
def visibleThrough (history : List Issued) (calls : List Call) : List Issued :=
  history.take (history.length - (unlogged calls).length)

/-- The calls of a manager whose one call makes this progress. -/
def Progress.calls : Progress → List Call
  | .running next => [next]
  | .done _ => []

variable {history visible visible' known : List Issued} {side : Side} {m other : SchemaManager}
  {calls : List Call}

@[simp] theorem Side.other_other (side : Side) : side.other.other = side := by cases side <;> rfl

theorem Side.other_ne (side : Side) : side.other ≠ side := by cases side <;> decide

theorem visibleThrough_of_unlogged (h : unlogged calls = []) :
    visibleThrough history calls = history := by
  simp [visibleThrough, h]

theorem visibleThrough_initial (history : List Issued) (calls : List Call) :
    visibleThrough history calls <+: history := List.take_prefix _ _

section Gossip

variable {c : Call} {known' : List Issued}

theorem CallOk.mono (h : CallOk history visible known side c) (hc : c.isDdl = false)
    (hknown : known <+: known') (hvisible : visible <+: visible') :
    CallOk history visible' known' side c := by
  cases c with
  | fetchSince remoteVersion attempt since =>
    obtain ⟨p, rest, hp, hrest⟩ := h
    exact ⟨p, rest, hp.trans hknown, hrest⟩
  | applyMissing remoteVersion attempt missing =>
    obtain ⟨p, q, hp, hq, hmissing⟩ := h
    exact ⟨p, q, hp.trans hknown, hq.trans hvisible, hmissing⟩
  | loadVersion remoteVersion attempt => trivial
  | recheck remoteVersion attempt => trivial
  | _ => cases hc

theorem Tracks.setCalls (h : Tracks history visible side m known)
    (hlog : unlogged calls = unlogged m.calls) (hstate : unapplied calls = unapplied m.calls)
    (hended : unended calls = unended m.calls)
    (hcalls : ∀ c ∈ calls, CallOk history visible known side c) :
    Tracks history visible side { m with calls := calls } known where
  readable := hended.symm ▸ h.readable
  log := by rw [← h.log, ← hlog]
  state := by rw [← h.state, ← hstate]
  version := h.version
  foreign := h.foreign
  seen := h.seen
  calls := hcalls
  tasks := h.tasks

theorem Tracks.setTasks {tasks : List Task} (h : Tracks history visible side m known)
    (htasks : ∀ t ∈ tasks, t.Plain) :
    Tracks history visible side { m with tasks := tasks } known where
  readable := h.readable
  log := h.log
  state := h.state
  version := h.version
  foreign := h.foreign
  seen := h.seen
  calls := h.calls
  tasks := htasks

theorem Tracks.setIdle (h : Tracks history visible side m known) (hidle : Idle m.calls)
    (hcalls : ∀ c ∈ calls, c.isDdl = false ∧ CallOk history visible known side c) :
    Tracks history visible side { m with calls := calls } known := by
  have hidle' : Idle calls := fun c hc => (hcalls c hc).1
  refine h.setCalls ?_ ?_ ?_ fun c hc => (hcalls c hc).2
  · rw [hidle.unlogged, hidle'.unlogged]
  · rw [hidle.unapplied, hidle'.unapplied]
  · rw [hidle.unended, hidle'.unended]

/-- What a manager with no operation in progress does when the other side logs its entry. -/
theorem Tracks.reveal (h : Tracks history visible side m known) (hidle : Idle m.calls)
    (hvisible : visible <+: visible') : Tracks history visible' side m known where
  readable := h.readable
  log := h.log
  state := h.state
  version := h.version
  foreign := h.foreign
  seen := h.seen.trans hvisible
  calls c hc := (h.calls c hc).mono (hidle c hc) (List.prefix_refl _) hvisible
  tasks := h.tasks

/-- What a manager with no operation in progress does when the other side draws an entry. -/
theorem Tracks.extend (entry : SchemaLogEntry) (h : Tracks history history side m known)
    (hidle : Idle m.calls) :
    Tracks (history ++ [(side.other, entry)]) history side m known where
  readable := h.readable
  log := by
    rw [h.log, List.filter_append]
    simp [side.other_ne]
  state := h.state
  version := h.version
  foreign := by
    obtain ⟨rest, hrest, hforeign⟩ := h.foreign
    refine ⟨rest ++ [(side.other, entry)], by rw [hrest, List.append_assoc], ?_⟩
    intro x hx
    rcases List.mem_append.mp hx with hx | hx
    · exact hforeign x hx
    · rw [List.mem_singleton.mp hx]
  seen := h.seen
  calls c hc := by
    have hok := h.calls c hc
    cases c with
    | fetchSince remoteVersion attempt since =>
      obtain ⟨p, rest, hp, hrest, hforeign, hsince⟩ := hok
      refine ⟨p, rest ++ [(side.other, entry)], hp, by rw [hrest, List.append_assoc], ?_, hsince⟩
      intro x hx
      rcases List.mem_append.mp hx with hx | hx
      · exact hforeign x hx
      · rw [List.mem_singleton.mp hx]
    | applyMissing remoteVersion attempt missing => exact hok
    | loadVersion remoteVersion attempt => trivial
    | recheck remoteVersion attempt => trivial
    | _ => cases hidle _ hc
  tasks := h.tasks

/-- The other side's log answers with the entries after `p` that it has written. -/
theorem logEntriesSince_eq {p rest : List Issued} (hwf : WellFormed history)
    (hother : Tracks history visible' side.other other known')
    (hp : p <+: visibleThrough history other.calls) (hhistory : history = p ++ rest)
    (hforeign : ∀ x ∈ rest, x.1 = side.other) :
    ∃ q, p ++ q <+: visibleThrough history other.calls ∧
      other.log.logEntriesSince (replay p).version = .ok (q.map Prod.snd) := by
  obtain ⟨q, hq⟩ := hp
  obtain ⟨u, hu⟩ := visibleThrough_initial history other.calls
  have hrest : rest = q ++ u := by
    rw [← hq, List.append_assoc, hhistory] at hu
    exact (List.append_cancel_left hu).symm
  subst hrest
  refine ⟨q, hq ▸ List.prefix_refl _, ?_⟩
  -- The log is the other side's part of `p`, then all of `q`.
  have hlen : (unlogged other.calls).length = u.length := by
    have hvis := congrArg List.length hu
    have hlog := congrArg List.length hother.log
    have hle := List.length_filter_le (fun x : Issued => decide (x.1 = side.other)) history
    simp only [visibleThrough, List.length_append, List.length_take, List.length_map] at hvis hlog
    omega
  have hentries : other.log.entries =
      (p.filter (·.1 = side.other)).map Prod.snd ++ q.map Prod.snd := by
    have hlog := hother.log
    have hall : (q ++ u).filter (·.1 = side.other) = q ++ u :=
      List.filter_eq_self.mpr fun x hx => decide_eq_true (hforeign x hx)
    rw [hhistory, List.filter_append, hall, List.map_append, List.map_append,
      ← List.append_assoc] at hlog
    exact (List.append_inj' hlog (by rw [hlen, List.length_map])).1
  have hpq : WellFormed (p ++ q) := hwf.initial ⟨u, by rw [hhistory, List.append_assoc]⟩
  have hsorted : other.log.entries.Pairwise fun a b => decide (a.version ≤ b.version) = true := by
    rw [hentries, ← List.map_append, List.pairwise_map]
    have hsub : (p.filter (·.1 = side.other) ++ q).Sublist (p ++ q) :=
      List.filter_sublist.append (List.Sublist.refl q)
    exact (hpq.ascending.sublist hsub).imp fun hlt => decide_eq_true hlt.le
  unfold SchemaLog.logEntriesSince SchemaLog.readLogEntries
  rw [hother.readable.2, List.mergeSort_of_pairwise hsorted, hentries]
  have hold : ((p.filter (·.1 = side.other)).map Prod.snd).filter
      (fun entry => decide (entry.version > (replay p).version)) = [] := by
    refine List.filter_eq_nil_iff.mpr fun e he => ?_
    obtain ⟨x, hx, rfl⟩ := List.mem_map.mp he
    simpa using (hpq.initial (List.prefix_append _ _)).le_version (List.mem_of_mem_filter hx)
  have hnew : (q.map Prod.snd).filter
      (fun entry => decide (entry.version > (replay p).version)) = q.map Prod.snd := by
    refine List.filter_eq_self.mpr fun e he => ?_
    obtain ⟨x, hx, rfl⟩ := List.mem_map.mp he
    exact decide_eq_true (hpq.version_lt hx)
  simp only [Bool.false_eq_true, if_false, bind, Except.bind, List.filter_append, hold, hnew,
    List.nil_append]

theorem Tracks.applyMissing {p q : List Issued} (hwf : WellFormed history)
    (h : Tracks history visible side m known) (hidle : Idle m.calls)
    (hvisible : visible <+: history) (hp : p <+: known) (hq : p ++ q <+: visible) :
    ∃ m' known', m.applyEntries (q.map Prod.snd) = (.ok (), m') ∧ m'.calls = m.calls ∧
      Tracks history visible side m' known' := by
  have hstate := h.state
  rw [hidle.unapplied, List.foldl_nil] at hstate
  obtain ⟨known', hcases, hle, hloop⟩ :=
    applyLoop_fetched hwf hp (h.seen.trans hvisible) (hq.trans hvisible)
  have hknown' : known' <+: visible := by
    rcases hcases with rfl | rfl
    · exact h.seen
    · exact hq
  refine ⟨{ m with state := replay known', version := (replay known').version }, known', ?_, rfl,
    ?_⟩
  · rw [applyEntries, hstate, hloop]
  exact
    { readable := h.readable
      log := h.log
      state := by rw [hidle.unapplied]; rfl
      version := rfl
      foreign := by
        -- What is left is a part of what was left before.
        obtain ⟨rest, hrest, hforeign⟩ := h.foreign
        obtain ⟨r, rfl⟩ := hle
        obtain ⟨rest', hrest'⟩ := hknown'.trans hvisible
        refine ⟨rest', hrest'.symm, fun x hx => hforeign x ?_⟩
        rw [hrest, List.append_assoc, List.append_cancel_left_eq] at hrest'
        rw [← hrest']
        exact List.mem_append_right _ hx
      seen := hknown'
      calls := fun c hc => (h.calls c hc).mono (hidle c hc) hle (List.prefix_refl _)
      tasks := h.tasks }

/-- A retry starts the round anew. -/
theorem retry_eq_running {remoteVersion attempt : Nat} {next : Call}
    (h : retry remoteVersion attempt = .running next) :
    next = .loadVersion remoteVersion (attempt + 1) := by
  unfold retry at h
  split at h
  · cases h
    rfl
  · cases h

/-- One step of `converge_from_gossip`. -/
theorem Tracks.advance_gossip {o : Outcome} {knownOther : List Issued} (hwf : WellFormed history)
    (h : Tracks history (visibleThrough history other.calls) side m known) (hidle : Idle m.calls)
    (hother : Tracks history visible' side.other other knownOther)
    (hc : c ∈ m.calls) :
    ∃ progress m' known', m.advance other o c = (progress, m') ∧ m'.calls = m.calls ∧
      Tracks history (visibleThrough history other.calls) side m' known' ∧
      ∀ next, progress = .running next → next.isDdl = false ∧
        CallOk history (visibleThrough history other.calls) known' side next := by
  have hok := h.calls c hc
  have hretry (remoteVersion attempt : Nat) (next : Call)
      (hnext : retry remoteVersion attempt = .running next) : next.isDdl = false ∧
        CallOk history (visibleThrough history other.calls) known side next := by
    rw [retry_eq_running hnext]
    exact ⟨rfl, trivial⟩
  cases c with
  | loadVersion remoteVersion attempt =>
    refine ⟨_, m, known, rfl, rfl, h, ?_⟩
    rintro next ⟨⟩
    obtain ⟨rest, hrest, hforeign⟩ := h.foreign
    exact ⟨rfl, known, rest, List.prefix_refl _, hrest, hforeign, h.version⟩
  | fetchSince remoteVersion attempt since =>
    obtain ⟨p, rest, hp, hrest, hforeign, rfl⟩ := hok
    obtain ⟨q, hq, hfetch⟩ := logEntriesSince_eq hwf hother (hp.trans h.seen) hrest hforeign
    rw [advance, hfetch]
    cases o.fetched with
    | false => exact ⟨_, m, known, rfl, rfl, h, by rintro next ⟨⟩⟩
    | true =>
      cases q with
      | nil => exact ⟨_, m, known, rfl, rfl, h, hretry _ _⟩
      | cons x q =>
        refine ⟨_, m, known, rfl, rfl, h, ?_⟩
        rintro next ⟨⟩
        exact ⟨rfl, p, x :: q, hp, hq, rfl⟩
  | applyMissing remoteVersion attempt missing =>
    obtain ⟨p, q, hp, hq, rfl⟩ := hok
    obtain ⟨m', known', happly, hcalls, htracks⟩ :=
      h.applyMissing hwf hidle (visibleThrough_initial _ _) hp hq
    refine ⟨.running (.recheck remoteVersion attempt), m', known', ?_, hcalls, htracks, ?_⟩
    · rw [advance, happly]
    · rintro next ⟨⟩
      exact ⟨rfl, trivial⟩
  | recheck remoteVersion attempt =>
    rw [advance]
    cases o.persisted with
    | false => exact ⟨_, m, known, rfl, rfl, h, by rintro next ⟨⟩⟩
    | true =>
      by_cases hversion : m.version ≥ remoteVersion
      · exact ⟨.done (.ok none), m, known, by simp [hversion], rfl, h, by rintro next ⟨⟩⟩
      · exact ⟨retry remoteVersion attempt, m, known, by simp [hversion], rfl, h, hretry _ _⟩
  | _ => cases hidle _ hc

end Gossip

section Operation

variable {ddl : Ddl} {entry : SchemaLogEntry} {o : Outcome} {v : Nat} {c : Call}

theorem Ddl.Fine.valid (h : ddl.Fine) : (logEntry ddl v o).Valid := by
  cases ddl with
  | create coll field replacement => exact ⟨h.1, h.2.1, identifier_hyphenated _⟩
  | drop coll index field => exact ⟨h.1, h.2.2, h.2.1⟩

theorem Ddl.Fine.checkId (h : ddl.Fine) : checkId ddl (logEntry ddl v o) = .ok () := by
  cases ddl with
  | create coll field replacement => exact validateIdentifier_eq_ok.mpr h.valid.indexId
  | drop coll index field => rfl

theorem Ddl.Fine.plain (h : ddl.Fine) : (spawned ddl entry).Plain := by
  cases ddl with
  | create coll field replacement => exact h.2.2
  | drop coll index field => trivial

theorem version_logEntry : (logEntry ddl v o).version = v := by cases ddl <;> rfl

/-- What `create_index` adds to the entry it has applied is there already. -/
theorem activate_logEntry (state : SchemaState) :
    activate ddl (logEntry ddl v o) (applyEntryMut state (logEntry ddl v o)) =
      applyEntryMut state (logEntry ddl v o) := by
  cases ddl with
  | create coll field replacement =>
    exact activate_create rfl rfl rfl
  | drop coll index field => rfl

/-- An operation draws its version and writes it into its entry. -/
theorem Tracks.draw (h : Tracks history history side m history) (hlog : unlogged m.calls = [])
    (hstate : unapplied m.calls = []) (hended : unended m.calls = false) (hfine : ddl.Fine)
    (hentry : entry = logEntry ddl (m.version + 1) o) :
    Tracks (history ++ [(side, entry)]) (history ++ [(side, entry)]) side
      { m with version := m.version + 1, calls := [.appendLine ddl entry] }
      (history ++ [(side, entry)]) where
  readable := ⟨h.readable.1.trans hended, h.readable.2⟩
  log := by
    rw [List.filter_append, List.map_append, ← h.log, hlog]
    simp [unlogged]
  state := by
    rw [replay_concat, ← h.state, hstate]
    rfl
  version := by rw [replay_concat, version_applyEntryMut, hentry, version_logEntry]
  foreign := ⟨[], by simp, by simp⟩
  seen := List.prefix_refl _
  calls c hc := by
    rw [List.mem_singleton.mp hc]
    exact ⟨hfine, _, _, hentry⟩
  tasks := h.tasks

/-- The entry reaches the log. -/
theorem Tracks.logged (h : Tracks history visible side m known)
    (hcalls : m.calls = [.appendLine ddl entry]) :
    Tracks history visible side
      { m with log := ⟨m.log.entries ++ [entry], true, false⟩, calls := [.appendNewline ddl entry] }
      known where
  readable := ⟨rfl, rfl⟩
  log := by
    rw [← h.log, hcalls]
    simp [unlogged]
  state := by
    rw [← h.state, hcalls]
    rfl
  version := h.version
  foreign := h.foreign
  seen := h.seen
  calls c hc := by
    rw [List.mem_singleton.mp hc]
    exact h.calls (.appendLine ddl entry) (by rw [hcalls]; exact List.mem_singleton_self _)
  tasks := h.tasks

/-- The line of the entry ends. -/
theorem Tracks.endLine (h : Tracks history visible side m known)
    (hcalls : m.calls = [.appendNewline ddl entry]) :
    Tracks history visible side
      { m with log := { m.log with torn := false }, calls := [.applyEntry ddl entry] } known where
  readable := ⟨rfl, h.readable.2⟩
  log := by
    rw [← h.log, hcalls]
    rfl
  state := by
    rw [← h.state, hcalls]
    rfl
  version := h.version
  foreign := h.foreign
  seen := h.seen
  calls c hc := by
    rw [List.mem_singleton.mp hc]
    exact h.calls (.appendNewline ddl entry) (by rw [hcalls]; exact List.mem_singleton_self _)
  tasks := h.tasks

/-- The entry reaches the schema. -/
theorem Tracks.applied (h : Tracks history visible side m known)
    (hcalls : m.calls = [.applyEntry ddl entry]) :
    Tracks history visible side
      { m with
        state := activate ddl entry (applyEntryMut m.state entry)
        calls := [.persist ddl entry] } known := by
  have hok := h.calls (.applyEntry ddl entry) (by rw [hcalls]; exact List.mem_singleton_self _)
  obtain ⟨hfine, v, o, rfl⟩ := hok
  rw [activate_logEntry]
  exact
    { readable := ⟨h.readable.1.trans (by rw [hcalls]; rfl), h.readable.2⟩
      log := by
        rw [← h.log, hcalls]
        rfl
      state := by
        rw [← h.state, hcalls]
        rfl
      version := h.version
      foreign := h.foreign
      seen := h.seen
      calls := by
        intro c hc
        rw [List.mem_singleton.mp hc]
        exact ⟨hfine, v, o, rfl⟩
      tasks := h.tasks }

/-- The operation ends and leaves a task behind. -/
theorem Tracks.ended (h : Tracks history visible side m known)
    (hcalls : m.calls = [.persist ddl entry]) :
    Tracks history visible side
      { m with tasks := m.tasks ++ [spawned ddl entry], calls := [] } known := by
  have hok := h.calls (.persist ddl entry) (by rw [hcalls]; exact List.mem_singleton_self _)
  have hdone : Tracks history visible side { m with calls := [] } known :=
    h.setCalls (by rw [hcalls]; rfl) (by rw [hcalls]; rfl) (by rw [hcalls]; rfl) (by simp)
  refine hdone.setTasks fun t ht => ?_
  rcases List.mem_append.mp ht with ht | ht
  · exact h.tasks t ht
  · rw [List.mem_singleton.mp ht]
    exact hok.1.plain

/-- One step of an operation, which is the only call of its manager. -/
theorem Tracks.advance_ddl {knownOther : List Issued} (hwf : WellFormed history)
    (h : Tracks history (visibleThrough history other.calls) side m known)
    (hother : Tracks history (visibleThrough history m.calls) side.other other knownOther)
    (hidle : Idle other.calls) (hcalls : m.calls = [c]) (hc : c.isDdl = true)
    (hwrite : c.isAppend = true → o.write = .done) :
    ∃ progress m' history' known', m.advance other o c = (progress, m') ∧
      WellFormed history' ∧
      Tracks history' (visibleThrough history' other.calls) side
        { m' with calls := progress.calls } known' ∧
      Tracks history' (visibleThrough history' progress.calls) side.other other knownOther ∧
      (∀ next, progress = .running next → next.isDdl = true) := by
  have hok := h.calls c (by rw [hcalls]; exact List.mem_singleton_self c)
  rw [visibleThrough_of_unlogged hidle.unlogged] at h
  simp only [visibleThrough_of_unlogged hidle.unlogged]
  have hcalls' {calls : List Call} (hlog : unlogged calls = unlogged [c])
      (hstate : unapplied calls = unapplied [c]) (hended : unended calls = unended [c])
      (hcalls' : ∀ c ∈ calls, CallOk history history known side c) :
      Tracks history history side { m with calls := calls } known := by
    rw [← hcalls] at hlog hstate hended
    exact h.setCalls hlog hstate hended hcalls'
  cases c with
  | checkQuota coll field replacement =>
    rw [hcalls] at hother
    rw [advance]
    split
    · exact ⟨_, m, history, known, rfl, hwf, hcalls' rfl rfl rfl (by simp [Progress.calls]), hother,
        by rintro next ⟨⟩⟩
    · refine ⟨_, m, history, known, rfl, hwf, hcalls' rfl rfl rfl ?_, hother, ?_⟩
      · intro c hc
        rw [List.mem_singleton.mp hc]
        exact hok
      · rintro next ⟨⟩
        rfl
  | nextVersion ddl =>
    obtain ⟨rfl, hfine⟩ := hok
    rw [hcalls, visibleThrough_of_unlogged rfl] at hother
    let entry := logEntry ddl (m.version + 1) o
    refine ⟨.running (.appendLine ddl entry), { m with version := m.version + 1 },
      known ++ [(side, entry)], known ++ [(side, entry)], ?_, ?_, ?_, ?_, by rintro next ⟨⟩; rfl⟩
    · rw [advance, hfine.checkId]
    · refine hwf.concat hfine.valid ?_
      rw [version_logEntry, h.version]
      exact Nat.lt_succ_self _
    · exact h.draw (by rw [hcalls]; rfl) (by rw [hcalls]; rfl) (by rw [hcalls]; rfl) hfine rfl
    · have hvis : visibleThrough (known ++ [(side, entry)]) [.appendLine ddl entry] = known := by
        simp [visibleThrough, unlogged]
      have hextend := hother.extend entry hidle
      rw [Side.other_other] at hextend
      exact hvis.symm ▸ hextend
  | appendLine ddl entry =>
    refine ⟨.running (.appendNewline ddl entry),
      { m with log := ⟨m.log.entries ++ [entry], true, false⟩ }, history, known, ?_, hwf,
      h.logged hcalls, ?_, by rintro next ⟨⟩; rfl⟩
    · rw [advance, hwrite rfl, SchemaLog.appendLine, h.readable.1, h.readable.2, hcalls]
      rfl
    · have hvis : visibleThrough history [.appendNewline ddl entry] = history :=
        visibleThrough_of_unlogged rfl
      exact hvis.symm ▸ hother.reveal hidle (visibleThrough_initial _ _)
  | appendNewline ddl entry =>
    rw [hcalls] at hother
    refine ⟨.running (.applyEntry ddl entry), { m with log := { m.log with torn := false } },
      history, known, ?_, hwf, h.endLine hcalls, hother, by rintro next ⟨⟩; rfl⟩
    rw [advance, hwrite rfl, SchemaLog.appendNewline]
  | applyEntry ddl entry =>
    rw [hcalls] at hother
    exact ⟨_, _, history, known, rfl, hwf, h.applied hcalls, hother, by rintro next ⟨⟩; rfl⟩
  | persist ddl entry =>
    rw [hcalls] at hother
    rw [advance]
    cases o.persisted with
    | false =>
      exact ⟨_, m, history, known, rfl, hwf, hcalls' rfl rfl rfl (by simp [Progress.calls]), hother,
        by rintro next ⟨⟩⟩
    | true => exact ⟨_, _, history, known, rfl, hwf, h.ended hcalls, hother, by rintro next ⟨⟩⟩
  | _ => cases hc

end Operation

end BashfulDB.Schema
