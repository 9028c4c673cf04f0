import BashfulDB.Library.Pool
import BashfulDB.Library.Steps
import Mathlib.Tactic.Simps.Basic

/-!
The controller that gives client traffic priority over background work. Each load, each change of a
counter, `notify_waiters` and the registration of a waiter is one step, and the steps of the guards
and of the calls of `run_background` come in any order.
-/
namespace BashfulDB.Ops

/-- A `ClientTrafficGuard`: held, or dropped and about to notify. -/
inductive Guard
  | held
  | notifying
  deriving DecidableEq, Repr

/-- The next step of a call of `run_background`, or what it waits for. -/
inductive Background
  | loadClients
  | loadActive (clients : Nat)
  | register
  | waiting
  | increment
  | running
  | notifying
  deriving DecidableEq, Repr

/-- `TrafficPriorityController`, with the guards and the background calls that use it. -/
structure Traffic where
  clientInFlight : Nat
  backgroundLimitWhileBusy : Nat
  activeBackground : Nat
  guards : List Guard
  calls : List Background
  deriving DecidableEq

/-- Whose turn it is. -/
inductive TrafficEvent
  | acquireClient
  | drop (i : Nat)
  | runBackground
  | background (i : Nat)
  deriving DecidableEq, Repr

/-- A waiter that is notified starts its loop again. -/
def Background.wake : Background → Background
  | .waiting => .loadClients
  | call => call

namespace Traffic

def new (backgroundLimitWhileBusy : Nat) : Traffic := ⟨0, backgroundLimitWhileBusy, 0, [], []⟩

/-- Only those that are registered are woken. -/
@[simps] def notifyWaiters (s : Traffic) : Traffic :=
  { s with calls := s.calls.map Background.wake }

@[simps] def resume (s : Traffic) (i : Nat) (call : Option Background) : Traffic :=
  { s with calls := Pool.resume s.calls i call }

@[simps] def resumeGuard (s : Traffic) (i : Nat) (guard : Option Guard) : Traffic :=
  { s with guards := Pool.resume s.guards i guard }

/-- `Drop for ClientTrafficGuard`. -/
def dropGuard (s : Traffic) (i : Nat) : Guard → Traffic
  | .held => { s with clientInFlight := s.clientInFlight - 1 }.resumeGuard i (some .notifying)
  | .notifying => s.notifyWaiters.resumeGuard i none

/-- `run_background`, with the loop of `background_yield_if_needed` up to `increment`. -/
def advance (s : Traffic) (i : Nat) : Background → Traffic
  | .loadClients => s.resume i (some (.loadActive s.clientInFlight))
  | .loadActive clients =>
    if clients = 0 ∨ s.activeBackground < s.backgroundLimitWhileBusy then
      s.resume i (some .increment)
    else s.resume i (some .register)
  | .register => s.resume i (some .waiting)
  | .waiting => s
  | .increment => { s with activeBackground := s.activeBackground + 1 }.resume i (some .running)
  | .running => { s with activeBackground := s.activeBackground - 1 }.resume i (some .notifying)
  | .notifying => s.notifyWaiters.resume i none

def next (s : Traffic) : TrafficEvent → Traffic
  | .acquireClient =>
    { s with clientInFlight := s.clientInFlight + 1, guards := s.guards ++ [.held] }
  | .drop i => (s.guards[i]?).elim s (s.dropGuard i)
  | .runBackground => { s with calls := s.calls ++ [.loadClients] }
  | .background i => (s.calls[i]?).elim s (s.advance i)

/-- What a step can be. -/
inductive Step (s : Traffic) : TrafficEvent → Traffic → Prop
  | acquire : Step s .acquireClient
      { s with clientInFlight := s.clientInFlight + 1, guards := s.guards ++ [.held] }
  | noGuard {i : Nat} : s.guards[i]? = none → Step s (.drop i) s
  | release {i : Nat} : s.guards[i]? = some .held →
      Step s (.drop i)
        ({ s with clientInFlight := s.clientInFlight - 1 }.resumeGuard i (some .notifying))
  | announce {i : Nat} : s.guards[i]? = some .notifying →
      Step s (.drop i) (s.notifyWaiters.resumeGuard i none)
  | start : Step s .runBackground { s with calls := s.calls ++ [.loadClients] }
  | noCall {i : Nat} : s.calls[i]? = none → Step s (.background i) s
  | loadClients {i : Nat} : s.calls[i]? = some .loadClients →
      Step s (.background i) (s.resume i (some (.loadActive s.clientInFlight)))
  | pass {i clients : Nat} : s.calls[i]? = some (.loadActive clients) →
      clients = 0 ∨ s.activeBackground < s.backgroundLimitWhileBusy →
      Step s (.background i) (s.resume i (some .increment))
  | refuse {i clients : Nat} : s.calls[i]? = some (.loadActive clients) → clients ≠ 0 →
      Step s (.background i) (s.resume i (some .register))
  | register {i : Nat} : s.calls[i]? = some .register →
      Step s (.background i) (s.resume i (some .waiting))
  | asleep {i : Nat} : s.calls[i]? = some .waiting → Step s (.background i) s
  | increment {i : Nat} : s.calls[i]? = some .increment →
      Step s (.background i)
        ({ s with activeBackground := s.activeBackground + 1 }.resume i (some .running))
  | finish {i : Nat} : s.calls[i]? = some .running →
      Step s (.background i)
        ({ s with activeBackground := s.activeBackground - 1 }.resume i (some .notifying))
  | complete {i : Nat} : s.calls[i]? = some .notifying →
      Step s (.background i) (s.notifyWaiters.resume i none)

theorem step_next (s : Traffic) (a : TrafficEvent) : s.Step a (s.next a) := by
  cases a with
  | acquireClient => exact .acquire
  | drop i =>
    rw [next]
    cases hi : s.guards[i]? with
    | none => exact .noGuard hi
    | some guard =>
      cases guard with
      | held => exact .release hi
      | notifying => exact .announce hi
  | runBackground => exact .start
  | background i =>
    rw [next]
    cases hi : s.calls[i]? with
    | none => exact .noCall hi
    | some call =>
      cases call with
      | loadClients => exact .loadClients hi
      | loadActive clients =>
        rw [Option.elim, advance]
        split_ifs with hpass
        · exact .pass hi hpass
        · exact .refuse hi fun hzero => hpass (Or.inl hzero)
      | register => exact .register hi
      | waiting => exact .asleep hi
      | increment => exact .increment hi
      | running => exact .finish hi
      | notifying => exact .complete hi

variable {s s' : Traffic} {a : TrafficEvent}

/-- The counters count the guards that are held and the operations that run. -/
structure Counted (s : Traffic) : Prop where
  clients : s.clientInFlight = s.guards.count .held
  active : s.activeBackground = s.calls.count .running

theorem count_running_wake (calls : List Background) :
    (calls.map Background.wake).count .running = calls.count .running := by
  induction calls with
  | nil => rfl
  | cons call calls ih => cases call <;> simp [Background.wake, ih]

theorem Counted.notifyWaiters (h : s.Counted) : s.notifyWaiters.Counted :=
  ⟨h.clients, h.active.trans (count_running_wake s.calls).symm⟩

/-- A call that neither begins nor ends its operation is not counted. -/
theorem Counted.resume {i : Nat} {call : Background} {next : Option Background} (h : s.Counted)
    (hi : s.calls[i]? = some call) (hcall : call ≠ .running) (hnext : next ≠ some .running) :
    (s.resume i next).Counted := by
  have hcount := Pool.count_resume hi next .running
  have hnone : next.toList.count .running = 0 := by
    rw [List.count_eq_zero, Option.mem_toList]
    exact hnext
  rw [List.count_singleton, hnone, if_neg (by simpa using hcall)] at hcount
  exact ⟨h.clients, h.active.trans hcount.symm⟩

theorem notifyWaiters_getElem {i : Nat} (hi : s.calls[i]? = some .notifying) :
    s.notifyWaiters.calls[i]? = some .notifying := by
  simp [Traffic.notifyWaiters, hi, Background.wake]

theorem Counted.step (h : s.Counted) (hstep : s.Step a s') : s'.Counted := by
  cases hstep with
  | acquire =>
    refine ⟨?_, h.active⟩
    rw [List.count_append, ← h.clients]
    rfl
  | noGuard hi => exact h
  | @release i hi =>
    have hcount : (Pool.resume s.guards i (some .notifying)).count .held + 1 =
        s.guards.count .held := by
      simpa using Pool.count_resume hi (some .notifying) .held
    have hclients := h.clients
    refine ⟨?_, h.active⟩
    simp only [resumeGuard_clientInFlight, resumeGuard_guards]
    omega
  | announce hi =>
    refine ⟨?_, h.notifyWaiters.active⟩
    have hcount := Pool.count_resume hi none .held
    simpa [h.clients] using hcount.symm
  | start =>
    refine ⟨h.clients, ?_⟩
    rw [List.count_append, ← h.active]
    rfl
  | noCall hi => exact h
  | loadClients hi => exact h.resume hi (by simp) (by simp)
  | pass hi hpass => exact h.resume hi (by simp) (by simp)
  | refuse hi hclients => exact h.resume hi (by simp) (by simp)
  | register hi => exact h.resume hi (by simp) (by simp)
  | asleep hi => exact h
  | @increment i hi =>
    have hcount : (Pool.resume s.calls i (some .running)).count .running =
        s.calls.count .running + 1 := by
      simpa using Pool.count_resume hi (some .running) .running
    refine ⟨h.clients, ?_⟩
    simp only [resume_activeBackground, resume_calls]
    rw [hcount, h.active]
  | @finish i hi =>
    have hcount : (Pool.resume s.calls i (some .notifying)).count .running + 1 =
        s.calls.count .running := by
      simpa using Pool.count_resume hi (some .notifying) .running
    have hactive := h.active
    refine ⟨h.clients, ?_⟩
    simp only [resume_activeBackground, resume_calls]
    omega
  | complete hi =>
    exact h.notifyWaiters.resume (notifyWaiters_getElem hi) (by simp) (by simp)

theorem counted_new (limit : Nat) : (new limit).Counted := ⟨rfl, rfl⟩

theorem counted_run (limit : Nat) (events : List TrafficEvent) :
    (events.foldl next (new limit)).Counted :=
  (Throughout.of_forall fun _ _ => trivial).invariant
    (fun s a _ h => h.step (s.step_next a)) (counted_new limit)

end Traffic

end BashfulDB.Ops
