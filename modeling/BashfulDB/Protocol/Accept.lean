import BashfulDB.Library.Bytes
import BashfulDB.Library.Pool
import BashfulDB.Library.Steps
import Mathlib.Data.List.Perm.Basic

/-!
The accept loop of the server, whose turns interleave with the tasks of the connections: the limit
on connections, the set of tasks that are still to be joined, and the shutdown.
-/
namespace BashfulDB.Protocol

/-- The part of the configuration that the loop reads. -/
structure ServerConfig where
  maxConnections : Nat
  /-- Whether there is a TLS acceptor. -/
  tls : Bool

/-- Where the loop stands. -/
inductive Phase
  /-- About to ask whether to shut down. -/
  | selecting
  /-- Not asked to shut down, and about to look for a connection. -/
  | accepting
  /-- Writing to a client that is turned away. -/
  | rejecting
  | reaping
  | draining
  | returned
  deriving DecidableEq

/-- The turns of the loop that are left once it is asked to shut down. -/
def Phase.turns : Phase → Nat
  | .returned => 0
  | .draining => 1
  | .selecting => 2
  | .rejecting => 3
  | .reaping => 3
  | .accepting => 6

structure AcceptLoop where
  phase : Phase
  permits : Nat
  connId : UInt64
  /-- The tasks that have not ended, each with a permit. -/
  running : List UInt64
  /-- The number of tasks that have dropped their permit and are not yet marked as finished. -/
  ending : Nat
  /-- The number of tasks that are marked as finished and are still in the set. -/
  finished : Nat
  signalled : Bool

/-- What the loop does, or a task, or the runtime, or the one who sends the signal. -/
inductive AcceptEvent
  | signal
  | poll
  | shutdown
  | pending
  | acceptError
  | spawn (id : UInt64)
  | refuse
  | refused
  /-- A task ends, in whatever way, and drops its permit. -/
  | finish (id : UInt64)
  /-- The runtime marks a task that has ended, so that it can be joined. -/
  | settle
  | reap
  | reaped
  | join
  | complete

namespace AcceptLoop

variable {config : ServerConfig} {s t : AcceptLoop} {e : AcceptEvent} {xs : List AcceptEvent}

def start (config : ServerConfig) : AcceptLoop :=
  ⟨.selecting, config.maxConnections, 0, [], 0, 0, false⟩

/-- The number of tasks in the set. -/
def joinSet (s : AcceptLoop) : Nat := s.running.length + s.ending + s.finished

/-- With TLS the loop goes on before it has looked for tasks that have ended. -/
inductive Step (config : ServerConfig) (s : AcceptLoop) : AcceptEvent → AcceptLoop → Prop
  | signal : Step config s .signal { s with signalled := true }
  | poll : s.phase = .selecting → s.signalled = false →
      Step config s .poll { s with phase := .accepting }
  | shutdown : s.phase = .selecting → s.signalled = true →
      Step config s .shutdown { s with phase := .draining }
  | pending : s.phase = .accepting → Step config s .pending { s with phase := .selecting }
  | acceptError : s.phase = .accepting → Step config s .acceptError { s with phase := .selecting }
  | spawn {permits : Nat} : s.phase = .accepting → s.permits = permits + 1 →
      Step config s (.spawn s.connId)
        { s with
          phase := if config.tls then .selecting else .reaping
          permits := permits
          connId := s.connId + 1
          running := s.running ++ [s.connId] }
  | refuse : s.phase = .accepting → s.permits = 0 →
      Step config s .refuse { s with phase := .rejecting }
  | refused : s.phase = .rejecting → Step config s .refused { s with phase := .selecting }
  | finish {i : Nat} {id : UInt64} : s.running[i]? = some id →
      Step config s (.finish id)
        { s with
          permits := s.permits + 1
          running := s.running.eraseIdx i
          ending := s.ending + 1 }
  | settle {ending : Nat} : s.ending = ending + 1 →
      Step config s .settle { s with ending := ending, finished := s.finished + 1 }
  | reap {finished : Nat} : s.phase = .reaping → s.finished = finished + 1 →
      Step config s .reap { s with finished := finished }
  | reaped : s.phase = .reaping → s.finished = 0 →
      Step config s .reaped { s with phase := .selecting }
  | join {finished : Nat} : s.phase = .draining → s.finished = finished + 1 →
      Step config s .join { s with finished := finished }
  | complete : s.phase = .draining → s.joinSet = 0 →
      Step config s .complete { s with phase := .returned }

end AcceptLoop

namespace AcceptEvent

/-- The connection that the event takes on. -/
def spawned : AcceptEvent → Option UInt64
  | spawn id => some id
  | _ => none

/-- The connection that the event ends. -/
def ended : AcceptEvent → Option UInt64
  | finish id => some id
  | _ => none

/-- The event answers to a connection, or to the failure to get one. -/
def answers : AcceptEvent → Bool
  | spawn _ => true
  | refuse => true
  | acceptError => true
  | _ => false

/-- The event is one of the loop or of a task. -/
def acts : AcceptEvent → Bool
  | signal => false
  | settle => false
  | _ => true

end AcceptEvent

namespace AcceptLoop

variable {config : ServerConfig} {s t : AcceptLoop} {e : AcceptEvent} {xs : List AcceptEvent}

/-- Every running task has a permit, and every other permit is free. -/
theorem permits_step (h : Step config s e t)
    (hs : s.permits + s.running.length = config.maxConnections) :
    t.permits + t.running.length = config.maxConnections := by
  cases h with
  | spawn _ hpermits =>
    rw [hpermits] at hs
    simp only [List.length_append, List.length_singleton]
    omega
  | finish hi =>
    have hlt := (List.getElem?_eq_some_iff.mp hi).1
    simp only [List.length_eraseIdx_of_lt hlt]
    omega
  | signal | poll | shutdown | pending | acceptError | refuse | refused | settle | reap | reaped
  | join | complete => exact hs

theorem connId_step (h : Step config s e t) :
    (e.spawned = none ∧ t.connId = s.connId) ∨
      (e.spawned = some s.connId ∧ t.connId = s.connId + 1) := by
  cases h with
  | spawn => exact Or.inr ⟨rfl, rfl⟩
  | signal | poll | shutdown | pending | acceptError | refuse | refused | finish | settle | reap
  | reaped | join | complete => exact Or.inl ⟨rfl, rfl⟩

/-- A task that is taken on runs until it ends. -/
theorem running_step (h : Step config s e t) :
    (e.spawned.toList ++ s.running).Perm (e.ended.toList ++ t.running) := by
  cases h with
  | spawn => exact List.perm_append_comm
  | finish hi => exact Pool.perm_others hi
  | signal | poll | shutdown | pending | acceptError | refuse | refused | settle | reap | reaped
  | join | complete => exact .refl _

/-- With TLS the set keeps every task until the loop has ended. -/
theorem unreaped_step (htls : config.tls = true) (h : Step config s e t)
    (hs : s.phase ≠ .reaping) :
    t.phase ≠ .reaping ∧ (t.phase ≠ .draining → t.phase ≠ .returned →
      s.phase ≠ .draining ∧ s.phase ≠ .returned ∧
        t.joinSet = s.joinSet + e.spawned.toList.length) := by
  unfold joinSet
  cases h with
  | finish hi =>
    have hlt := (List.getElem?_eq_some_iff.mp hi).1
    refine ⟨hs, fun hdraining hreturned => ⟨hdraining, hreturned, ?_⟩⟩
    simp only [List.length_eraseIdx_of_lt hlt, AcceptEvent.spawned, Option.toList_none,
      List.length_nil]
    omega
  | settle hending =>
    refine ⟨hs, fun hdraining hreturned => ⟨hdraining, hreturned, ?_⟩⟩
    simp only [hending, AcceptEvent.spawned, Option.toList_none, List.length_nil]
    omega
  | spawn hphase =>
    simp_all [AcceptEvent.spawned]
    omega
  | signal | poll hphase | shutdown hphase | pending hphase | acceptError hphase | refuse hphase
  | refused hphase | reap hphase | reaped hphase | join hphase | complete hphase =>
    simp_all [AcceptEvent.spawned]

theorem drained_step (h : Step config s e t) (hs : s.phase = .returned → s.joinSet = 0) :
    t.phase = .returned → t.joinSet = 0 := by
  cases h with
  | complete _ hempty => exact fun _ => hempty
  | finish hi =>
    intro hphase
    have hlt := (List.getElem?_eq_some_iff.mp hi).1
    have hempty := hs hphase
    simp only [joinSet] at hempty
    omega
  | settle hending =>
    intro hphase
    have hempty := hs hphase
    simp only [joinSet] at hempty
    omega
  | signal => exact hs
  | spawn => cases htls : config.tls <;> simp
  | reap hphase | join hphase =>
    intro hreturned
    cases hphase.symm.trans hreturned
  | poll | shutdown | pending | acceptError | refuse | refused | reaped => rintro ⟨⟩

/-- From the signal on the loop answers at most once, to what it was already looking for. -/
theorem answers_step (h : Step config s e t) (hs : s.signalled = true) :
    t.signalled = true ∧ (if e.answers then 1 else 0) + (if t.phase = .accepting then 1 else 0) ≤
      if s.phase = .accepting then 1 else 0 := by
  cases h with
  | spawn hphase => cases htls : config.tls <;> simp_all [AcceptEvent.answers]
  | signal | poll hphase | shutdown hphase | pending hphase | acceptError hphase | refuse hphase
  | refused hphase | finish | settle | reap hphase | reaped hphase | join hphase
  | complete hphase =>
    simp_all [AcceptEvent.answers]

/-- The connections taken on and ended in a run. -/
def spawned (xs : List AcceptEvent) : List UInt64 := xs.filterMap AcceptEvent.spawned

def ended (xs : List AcceptEvent) : List UInt64 := xs.filterMap AcceptEvent.ended

/-- What holds after the events of a run. -/
structure Accounts (config : ServerConfig) (xs : List AcceptEvent) (s : AcceptLoop) : Prop where
  permits : s.permits + s.running.length = config.maxConnections
  connId : s.connId = UInt64.ofNat (spawned xs).length
  ids : spawned xs = (List.range (spawned xs).length).map UInt64.ofNat
  tasks : (spawned xs).Perm (ended xs ++ s.running)
  unreaped : config.tls = true → s.phase ≠ .reaping ∧
    (s.phase ≠ .draining → s.phase ≠ .returned → s.joinSet = (spawned xs).length)
  drained : s.phase = .returned → s.joinSet = 0

theorem accounts_start (config : ServerConfig) : Accounts config [] (start config) where
  permits := rfl
  connId := rfl
  ids := rfl
  tasks := .nil
  unreaped _ := ⟨by rintro ⟨⟩, fun _ _ => rfl⟩
  drained h := by cases h

theorem Accounts.step (hs : Accounts config xs s) (h : Step config s e t) :
    Accounts config (xs ++ [e]) t := by
  have hspawned : spawned (xs ++ [e]) = spawned xs ++ e.spawned.toList := by
    cases hid : e.spawned <;> simp [spawned, hid]
  have hended : ended (xs ++ [e]) = ended xs ++ e.ended.toList := by
    cases hid : e.ended <;> simp [ended, hid]
  refine ⟨permits_step h hs.permits, ?_, ?_, ?_, ?_, drained_step h hs.drained⟩
  · rw [hspawned]
    rcases connId_step h with ⟨hnone, hid⟩ | ⟨hsome, hid⟩
    · rw [hnone, hid, Option.toList_none, List.append_nil, hs.connId]
    · rw [hsome, hid, hs.connId, Option.toList_some, List.length_append, List.length_singleton,
        UInt64.ofNat_add]
      rfl
  · rw [hspawned]
    rcases connId_step h with ⟨hnone, -⟩ | ⟨hsome, -⟩
    · rw [hnone, Option.toList_none, List.append_nil]
      exact hs.ids
    · rw [hsome, hs.connId, Option.toList_some, List.length_append, List.length_singleton,
        List.range_succ, List.map_append, ← hs.ids]
      rfl
  · have hbefore : (spawned xs ++ e.spawned.toList).Perm
        (ended xs ++ (e.spawned.toList ++ s.running)) := by
      refine (hs.tasks.append_right _).trans ?_
      rw [List.append_assoc]
      exact List.perm_append_comm.append_left _
    rw [hspawned, hended, List.append_assoc]
    exact hbefore.trans ((running_step h).append_left _)
  · intro htls
    obtain ⟨hreaping, hkept⟩ := hs.unreaped htls
    obtain ⟨hnext, hjoin⟩ := unreaped_step htls h hreaping
    refine ⟨hnext, fun hdraining hreturned => ?_⟩
    obtain ⟨hd, hr, heq⟩ := hjoin hdraining hreturned
    rw [heq, hkept hd hr, hspawned, List.length_append]

theorem accounts_run (h : Steps (Step config) (start config) xs s) : Accounts config xs s :=
  h.history (accounts_start config) fun _ _ _ _ _ _ hys hstep => hys.step hstep

/-- In every interleaving of the loop with its tasks: at most `max_connections` run at a time, and
a client is turned away just when so many do. Each connection has the number of those before it,
and ends once. With TLS the set of tasks holds every one since the start. `run` returns only when
all connections have ended. -/
theorem connections_limited (config : ServerConfig) (xs : List AcceptEvent) (s : AcceptLoop)
    (h : Steps (Step config) (start config) xs s) :
    s.running.length ≤ config.maxConnections ∧
    (∀ t, Step config s .refuse t → s.running.length = config.maxConnections) ∧
    (∀ id t, Step config s (.spawn id) t → s.running.length < config.maxConnections) ∧
    spawned xs = (List.range (spawned xs).length).map UInt64.ofNat ∧
    (spawned xs).Perm (ended xs ++ s.running) ∧
    (config.tls = true → s.phase ≠ .draining → s.phase ≠ .returned →
      s.joinSet = (spawned xs).length) ∧
    (s.phase = .returned → (spawned xs).Perm (ended xs)) := by
  have hs := accounts_run h
  have hpermits := hs.permits
  refine ⟨by omega, ?_, ?_, hs.ids, hs.tasks, fun htls => (hs.unreaped htls).2, ?_⟩
  · intro t hrefuse
    cases hrefuse with
    | refuse _ hnone => omega
  · intro id t hspawn
    cases hspawn with
    | spawn _ hsome => omega
  · intro hreturned
    have htasks := hs.tasks
    have hempty := hs.drained hreturned
    have hrunning : s.running = [] := by
      apply List.eq_nil_of_length_eq_zero
      rw [joinSet] at hempty
      omega
    rwa [hrunning, List.append_nil] at htasks

/-- A client that comes and goes twice leaves two tasks in the set of a server with TLS, where
only one connection is allowed. -/
theorem connections_limited_twice : ∃ s,
    Steps (Step ⟨1, true⟩) (start ⟨1, true⟩)
      [.poll, .spawn 0, .finish 0, .poll, .spawn 1, .finish 1] s ∧
    s.running = [] ∧ s.joinSet = 2 := by
  have hrun : Steps (Step ⟨1, true⟩) (start ⟨1, true⟩)
      [.poll, .spawn 0, .finish 0, .poll, .spawn 1, .finish 1] _ :=
    .cons (.poll rfl rfl) (.cons (.spawn rfl rfl) (.cons (@Step.finish _ _ 0 _ rfl)
      (.cons (.poll rfl rfl) (.cons (.spawn rfl rfl) (.single (@Step.finish _ _ 0 _ rfl))))))
  obtain ⟨-, -, -, -, -, hjoin, -⟩ := connections_limited _ _ _ hrun
  exact ⟨_, hrun, rfl, hjoin rfl (by rintro ⟨⟩) (by rintro ⟨⟩)⟩

/-- The steps that are left after the signal: the turns of the loop, the end of every task, and its
join. -/
def left (s : AcceptLoop) : Nat := s.phase.turns + 2 * s.running.length + s.ending + s.finished

theorem left_step (h : Step config s e t) (hs : s.signalled = true) :
    t.left + (if e.acts then 1 else 0) ≤ s.left := by
  unfold left
  cases h with
  | signal => simp [AcceptEvent.acts]
  | poll _ hquiet => cases hs.symm.trans hquiet
  | spawn hphase =>
    cases htls : config.tls <;>
      simp only [hphase, Phase.turns, AcceptEvent.acts, List.length_append,
        List.length_singleton, if_true, Bool.false_eq_true, if_false] <;>
      omega
  | finish hi =>
    have hlt := (List.getElem?_eq_some_iff.mp hi).1
    simp only [List.length_eraseIdx_of_lt hlt, AcceptEvent.acts, if_true]
    omega
  | settle hending =>
    simp only [hending, AcceptEvent.acts, Bool.false_eq_true, if_false]
    omega
  | shutdown hphase | pending hphase | acceptError hphase | refuse hphase | refused hphase
  | reaped hphase | complete hphase =>
    simp only [hphase, Phase.turns, AcceptEvent.acts, if_true]
    omega
  | reap hphase hfinished | join hphase hfinished =>
    simp only [hfinished, AcceptEvent.acts, if_true]
    omega

/-- Whatever follows the signal spends the turn of an answer and the steps that are left. -/
theorem signalled_run (h : Steps (Step config) s xs t) (hs : s.signalled = true) :
    t.signalled = true ∧
    xs.countP AcceptEvent.answers + (if t.phase = .accepting then 1 else 0) ≤
      (if s.phase = .accepting then 1 else 0) ∧
    xs.countP AcceptEvent.acts + t.left ≤ s.left := by
  induction h with
  | refl => simp [hs]
  | @cons s u t e xs hstep _ ih =>
    obtain ⟨hsignalled, hanswer⟩ := answers_step hstep hs
    obtain ⟨ht, hanswers, hleft⟩ := ih hsignalled
    have hspent := left_step hstep hs
    rw [List.countP_cons, List.countP_cons]
    exact ⟨ht, by omega, by omega⟩

/-- A loop that is asked to shut down always has a turn to take, until it waits for a task. -/
theorem exists_step_of_signalled (config : ServerConfig) (hs : s.signalled = true)
    (hrunning : s.running = []) (hphase : s.phase ≠ .returned) :
    ∃ e t, Step config s e t ∧ e ≠ .signal := by
  cases hp : s.phase with
  | selecting => exact ⟨_, _, .shutdown hp hs, by rintro ⟨⟩⟩
  | accepting => exact ⟨_, _, .pending hp, by rintro ⟨⟩⟩
  | rejecting => exact ⟨_, _, .refused hp, by rintro ⟨⟩⟩
  | reaping =>
    cases hfinished : s.finished with
    | zero => exact ⟨_, _, .reaped hp hfinished, by rintro ⟨⟩⟩
    | succ finished => exact ⟨_, _, .reap hp hfinished, by rintro ⟨⟩⟩
  | draining =>
    cases hfinished : s.finished with
    | zero =>
      cases hending : s.ending with
      | zero => exact ⟨_, _, .complete hp (by simp [joinSet, *]), by rintro ⟨⟩⟩
      | succ ending => exact ⟨_, _, .settle hending, by rintro ⟨⟩⟩
    | succ finished => exact ⟨_, _, .join hp hfinished, by rintro ⟨⟩⟩
  | returned => exact absurd hp hphase

/-- Asked to shut down, the loop answers at most once more, and everything that follows takes no
more steps than the tasks have left to end and to be joined, and six for the loop. When all tasks
have ended and nothing is left to do, `run` has returned. -/
theorem shutdown_completes (config : ServerConfig) (s t : AcceptLoop) (xs : List AcceptEvent)
    (hs : s.signalled = true) (h : Steps (Step config) s xs t) :
    xs.countP AcceptEvent.answers ≤ 1 ∧
    xs.countP AcceptEvent.acts ≤ 6 + 2 * s.running.length + s.ending + s.finished ∧
    (t.running = [] → (∀ e u, Step config t e u → e = .signal) → t.phase = .returned) := by
  obtain ⟨ht, hanswers, hleft⟩ := signalled_run h hs
  have hone : (if s.phase = .accepting then 1 else 0) ≤ 1 := by split <;> decide
  have hturns : s.phase.turns ≤ 6 := by cases s.phase <;> decide
  unfold left at hleft
  refine ⟨by omega, by omega, ?_⟩
  intro hrunning hstuck
  by_contra hphase
  obtain ⟨e, u, hstep, he⟩ := exists_step_of_signalled config ht hrunning hphase
  exact he (hstuck e u hstep)

/-- A connection that was found before the signal is taken on, and ends before `run` returns. -/
theorem shutdown_completes_once : ∃ t,
    Steps (Step ⟨1, false⟩) ⟨.accepting, 1, 0, [], 0, 0, true⟩
      [.spawn 0, .reaped, .shutdown, .finish 0, .settle, .join, .complete] t ∧
    t.phase = .returned := by
  have hrun : Steps (Step ⟨1, false⟩) ⟨.accepting, 1, 0, [], 0, 0, true⟩
      [.spawn 0, .reaped, .shutdown, .finish 0, .settle, .join, .complete] _ :=
    .cons (.spawn rfl rfl) (.cons (.reaped rfl rfl) (.cons (.shutdown rfl rfl)
      (.cons (@Step.finish _ _ 0 _ rfl) (.cons (.settle rfl) (.cons (.join rfl rfl) (.single
        (.complete rfl rfl)))))))
  refine ⟨_, hrun, (shutdown_completes _ _ _ _ rfl hrun).2.2 rfl ?_⟩
  intro e u hstep
  cases hstep with
  | signal => rfl
  | finish hi => cases hi
  | settle hending => cases hending
  | poll hphase | shutdown hphase | pending hphase | acceptError hphase | spawn hphase
  | refuse hphase | refused hphase | reap hphase | reaped hphase | join hphase | complete hphase =>
    cases hphase

end AcceptLoop

end BashfulDB.Protocol
