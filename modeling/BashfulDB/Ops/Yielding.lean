import BashfulDB.Ops.Traffic

/-! When background work waits in vain, and when more of it runs than it should. -/
namespace BashfulDB.Ops

namespace Traffic

variable {s s' : Traffic} {a : TrafficEvent} {i limit : Nat}

/-- A notification is still to come: of a dropped guard, or of an operation that has begun. -/
def Pending (s : Traffic) : Prop :=
  .notifying ∈ s.guards ∨ .running ∈ s.calls ∨ .notifying ∈ s.calls

/-- A call waits although no client is there, and nothing is left that would wake it. -/
def Stalled (s : Traffic) : Prop := .waiting ∈ s.calls ∧ s.clientInFlight = 0 ∧ ¬ s.Pending

/-- A waiter registers while a client is there or a notification is still to come. -/
def Heard (s : Traffic) : TrafficEvent → Prop
  | .background i => s.calls[i]? = some .register → s.clientInFlight ≠ 0 ∨ s.Pending
  | _ => True

/-- The call has seen a client, and has neither passed nor registered yet. -/
def Deciding : Background → Prop
  | .loadActive clients => clients ≠ 0
  | .register => True
  | _ => False

/-- No guard is dropped while a call that has seen a client has yet to decide. -/
def Settled (s : Traffic) : TrafficEvent → Prop
  | .drop i => s.guards[i]? = some .held → ∀ call ∈ s.calls, ¬ Deciding call
  | _ => True

theorem waiting_notMem_wake (calls : List Background) :
    .waiting ∉ calls.map Background.wake := by
  rw [List.mem_map]
  rintro ⟨call, -, hwake⟩
  cases call <;> cases hwake

theorem not_stalled_of_woken (h : ∀ call ∈ s'.calls, call ∈ s.notifyWaiters.calls) :
    ¬ s'.Stalled := by
  rintro ⟨hwaiting, -⟩
  exact waiting_notMem_wake _ (h _ hwaiting)

theorem not_stalled_of_pending (h : s.Pending) : ¬ s.Stalled := fun hs => hs.2.2 h

/-- Between its loads and its decision a call changes nothing about who waits for what. -/
theorem stalled_resume {call call' : Background} (hi : s.calls[i]? = some call)
    (hcall : call ≠ .waiting ∧ call ≠ .running ∧ call ≠ .notifying)
    (hcall' : call' ≠ .waiting ∧ call' ≠ .running ∧ call' ≠ .notifying) :
    (s.resume i (some call')).Stalled ↔ s.Stalled := by
  obtain ⟨hw, hr, hn⟩ := hcall
  obtain ⟨hw', hr', hn'⟩ := hcall'
  simp only [Stalled, Pending, resume_calls, resume_clientInFlight, resume_guards,
    Pool.mem_resume_iff hi hw.symm (mt Option.some.inj hw'),
    Pool.mem_resume_iff hi hr.symm (mt Option.some.inj hr'),
    Pool.mem_resume_iff hi hn.symm (mt Option.some.inj hn')]

/-- A call that registers is stalled at once, or not at all. -/
theorem stalled_register (hi : s.calls[i]? = some .register) :
    (s.resume i (some .waiting)).Stalled ↔ s.clientInFlight = 0 ∧ ¬ s.Pending := by
  have hwaiting := Pool.self_mem_resume hi .waiting
  have hrunning : .running ∈ Pool.resume s.calls i (some .waiting) ↔ .running ∈ s.calls :=
    Pool.mem_resume_iff hi (by simp) (by simp)
  have hnotifying : .notifying ∈ Pool.resume s.calls i (some .waiting) ↔ .notifying ∈ s.calls :=
    Pool.mem_resume_iff hi (by simp) (by simp)
  simp only [Stalled, Pending, resume_calls, resume_clientInFlight, resume_guards, hwaiting,
    hrunning, hnotifying, true_and]

theorem heard_of_ne {call : Background} (hi : s.calls[i]? = some call) (hcall : call ≠ .register) :
    s.Heard (.background i) := by
  intro hregister
  exact absurd (Option.some.inj (hi.symm.trans hregister)) hcall

theorem stalled_step_iff (h : ¬ s.Stalled) (hstep : s.Step a s') : ¬ s'.Stalled ↔ s.Heard a := by
  cases hstep with
  | acquire => exact iff_of_true (fun hs => nomatch hs.2.1) trivial
  | noGuard hi => exact iff_of_true h trivial
  | release hi =>
    exact iff_of_true (not_stalled_of_pending (Or.inl (Pool.self_mem_resume hi _))) trivial
  | announce hi => exact iff_of_true (not_stalled_of_woken fun call hcall => hcall) trivial
  | start =>
    refine iff_of_true (fun hs => h ?_) trivial
    simpa [Stalled, Pending] using hs
  | noCall hi =>
    refine iff_of_true h fun hregister => ?_
    exact absurd (hi.symm.trans hregister) (by simp)
  | loadClients hi =>
    rw [stalled_resume hi (by simp) (by simp)]
    exact iff_of_true h (heard_of_ne hi (by simp))
  | pass hi hpass =>
    rw [stalled_resume hi (by simp) (by simp)]
    exact iff_of_true h (heard_of_ne hi (by simp))
  | refuse hi hclients =>
    rw [stalled_resume hi (by simp) (by simp)]
    exact iff_of_true h (heard_of_ne hi (by simp))
  | register hi =>
    rw [stalled_register hi, not_and_or, not_not]
    exact ⟨fun hheard _ => hheard, fun hheard => hheard hi⟩
  | asleep hi => exact iff_of_true h (heard_of_ne hi (by simp))
  | increment hi =>
    have hpending := Pool.self_mem_resume hi .running
    exact iff_of_true (not_stalled_of_pending (Or.inr (Or.inl hpending)))
      (heard_of_ne hi (by simp))
  | finish hi =>
    have hpending := Pool.self_mem_resume hi .notifying
    exact iff_of_true (not_stalled_of_pending (Or.inr (Or.inr hpending)))
      (heard_of_ne hi (by simp))
  | complete hi =>
    refine iff_of_true (not_stalled_of_woken (s := s) fun call hcall => ?_)
      (heard_of_ne hi (by simp))
    exact List.mem_of_mem_eraseIdx hcall

/-- A call that has seen a client and has yet to decide finds one still there. -/
def Informed (s : Traffic) : Prop := ∀ call ∈ s.calls, Deciding call → s.clientInFlight ≠ 0

theorem deciding_wake {call : Background} (h : Deciding call.wake) : Deciding call := by
  cases call <;> exact h

theorem Informed.notifyWaiters (h : s.Informed) : s.notifyWaiters.Informed := by
  intro call hcall hdeciding
  obtain ⟨call, hmem, rfl⟩ := List.mem_map.mp hcall
  exact h call hmem (deciding_wake hdeciding)

theorem Informed.resume (h : s.Informed) {call : Background} {next : Option Background}
    (hi : s.calls[i]? = some call)
    (hnext : ∀ call', next = some call' → Deciding call' → s.clientInFlight ≠ 0) :
    (s.resume i next).Informed :=
  Pool.forall_resume hi h hnext

theorem Informed.step (h : s.Informed) (hok : s.Settled a) (hstep : s.Step a s') :
    s'.Informed := by
  cases hstep with
  | acquire => exact fun call hcall hdeciding => Nat.succ_ne_zero _
  | noGuard hi => exact h
  | release hi => exact fun call hcall hdeciding => absurd hdeciding (hok hi call hcall)
  | announce hi => exact h.notifyWaiters
  | start => exact Pool.forall_concat h fun hdeciding => hdeciding.elim
  | noCall hi => exact h
  | loadClients hi =>
    refine h.resume hi ?_
    rintro call ⟨⟩ hdeciding
    exact hdeciding
  | pass hi hpass =>
    refine h.resume hi ?_
    rintro call ⟨⟩ hdeciding
    exact hdeciding.elim
  | refuse hi hclients =>
    refine h.resume hi ?_
    rintro call ⟨⟩ -
    exact h _ (List.mem_of_getElem? hi) hclients
  | register hi =>
    refine h.resume hi ?_
    rintro call ⟨⟩ hdeciding
    exact hdeciding.elim
  | asleep hi => exact h
  | increment hi =>
    refine Informed.resume h hi ?_
    rintro call ⟨⟩ hdeciding
    exact hdeciding.elim
  | finish hi =>
    refine Informed.resume h hi ?_
    rintro call ⟨⟩ hdeciding
    exact hdeciding.elim
  | complete hi =>
    exact h.notifyWaiters.resume (notifyWaiters_getElem hi) fun call hcall => nomatch hcall

theorem Informed.heard (h : s.Informed) : s.Heard a := by
  cases a with
  | background i => exact fun hi => Or.inl (h _ (List.mem_of_getElem? hi) trivial)
  | _ => trivial

end Traffic

/-- No background call ever waits in vain exactly when each waiter registers while a client is there
or a notification is still to come. It does when no guard is dropped while a call that has seen a
client has yet to pass or to register. -/
theorem never_stalled_iff (limit : Nat) (events : List TrafficEvent) :
    (Throughout Traffic.next (fun s a => ¬ (s.next a).Stalled) (.new limit) events ↔
      Throughout Traffic.next Traffic.Heard (.new limit) events) ∧
    (Throughout Traffic.next Traffic.Settled (.new limit) events →
      Throughout Traffic.next (fun s a => ¬ (s.next a).Stalled) (.new limit) events) := by
  have hiff : Throughout Traffic.next (fun s a => ¬ (s.next a).Stalled) (.new limit) events ↔
      Throughout Traffic.next Traffic.Heard (.new limit) events :=
    Throughout.after_iff (I := fun _ => True) (P := fun s : Traffic => ¬ s.Stalled)
      (fun _ _ _ _ => trivial)
      (fun s a _ _ h => Traffic.stalled_step_iff h (s.step_next a)) trivial
      (by simp [Traffic.Stalled, Traffic.new])
  refine ⟨hiff, fun hok => hiff.mpr ?_⟩
  exact hok.of_invariant (fun s a ok h => Traffic.Informed.step h ok (s.step_next a))
    (fun s a h => Traffic.Informed.heard h) (by simp [Traffic.Informed, Traffic.new])

/-- The only guard is dropped, and has notified, between the check of the call and its
registration. -/
def lostWakeup : List TrafficEvent :=
  [.acquireClient, .runBackground, .background 0, .background 0, .drop 0, .drop 0, .background 0]

theorem background_stalls : lostWakeup.foldl Traffic.next (.new 0) = ⟨0, 0, 0, [], [.waiting]⟩ ∧
    (lostWakeup.foldl Traffic.next (.new 0)).Stalled := by
  have hend : lostWakeup.foldl Traffic.next (.new 0) = ⟨0, 0, 0, [], [.waiting]⟩ := by decide
  rw [hend]
  exact ⟨rfl, by simp [Traffic.Stalled, Traffic.Pending]⟩

namespace Traffic

variable {s s' : Traffic} {a : TrafficEvent} {i : Nat}

def WithinLimit (s : Traffic) : Prop := s.calls.count .running ≤ s.backgroundLimitWhileBusy

/-- An operation begins while there is room for it. -/
def Granted (s : Traffic) : TrafficEvent → Prop
  | .background i =>
    s.calls[i]? = some .increment → s.activeBackground < s.backgroundLimitWhileBusy
  | _ => True

/-- An operation begins while no other call has passed the check. -/
def Alone (s : Traffic) : TrafficEvent → Prop
  | .background i => s.calls[i]? = some .increment → .increment ∉ s.calls.eraseIdx i
  | _ => True

instance decidableAlone (s : Traffic) : (a : TrafficEvent) → Decidable (s.Alone a)
  | .background i => inferInstanceAs (Decidable
      (s.calls[i]? = some .increment → .increment ∉ s.calls.eraseIdx i))
  | .acquireClient | .drop _ | .runBackground => inferInstanceAs (Decidable True)

theorem Counted.withinLimit_iff (h : s.Counted) :
    s.WithinLimit ↔ s.activeBackground ≤ s.backgroundLimitWhileBusy := by
  rw [WithinLimit, h.active]

theorem granted_of_ne {call : Background} (hi : s.calls[i]? = some call)
    (hcall : call ≠ .increment) : s.Granted (.background i) := by
  intro hincrement
  exact absurd (Option.some.inj (hi.symm.trans hincrement)) hcall

theorem withinLimit_step_iff (hcounted : s.Counted) (h : s.WithinLimit) (hstep : s.Step a s') :
    s'.WithinLimit ↔ s.Granted a := by
  rw [(hcounted.step hstep).withinLimit_iff]
  rw [hcounted.withinLimit_iff] at h
  cases hstep with
  | acquire => exact iff_of_true h trivial
  | noGuard hi => exact iff_of_true h trivial
  | release hi => exact iff_of_true h trivial
  | announce hi => exact iff_of_true h trivial
  | start => exact iff_of_true h trivial
  | noCall hi =>
    refine iff_of_true h fun hincrement => ?_
    exact absurd (hi.symm.trans hincrement) (by simp)
  | loadClients hi => exact iff_of_true h (granted_of_ne hi (by simp))
  | pass hi hpass => exact iff_of_true h (granted_of_ne hi (by simp))
  | refuse hi hclients => exact iff_of_true h (granted_of_ne hi (by simp))
  | register hi => exact iff_of_true h (granted_of_ne hi (by simp))
  | asleep hi => exact iff_of_true h (granted_of_ne hi (by simp))
  | increment hi => exact ⟨fun hroom _ => hroom, fun hgranted => hgranted hi⟩
  | finish hi =>
    exact iff_of_true (Nat.le_trans (Nat.sub_le _ _) h) (granted_of_ne hi (by simp))
  | complete hi => exact iff_of_true h (granted_of_ne hi (by simp))

/-- A call that has loaded the clients has seen one, and one that has passed still has room. -/
def Cleared (s : Traffic) : Background → Prop
  | .loadActive clients => clients ≠ 0
  | .increment => s.activeBackground < s.backgroundLimitWhileBusy
  | _ => True

/-- All calls are cleared. -/
def Clear (s : Traffic) : Prop := ∀ call ∈ s.calls, s.Cleared call

theorem cleared_wake {call : Background} (h : s.Cleared call) : s.Cleared call.wake := by
  cases call <;> exact h

theorem Clear.notifyWaiters (h : s.Clear) : s.notifyWaiters.Clear := by
  intro call hcall
  obtain ⟨call, hmem, rfl⟩ := List.mem_map.mp hcall
  exact cleared_wake (h call hmem)

theorem Clear.resume (h : s.Clear) {call : Background} {next : Option Background}
    (hi : s.calls[i]? = some call) (hnext : ∀ call', next = some call' → s.Cleared call') :
    (s.resume i next).Clear :=
  Pool.forall_resume hi h hnext

/-- An operation that has ended leaves more room. -/
theorem Clear.finish (h : s.Clear) :
    { s with activeBackground := s.activeBackground - 1 }.Clear := by
  intro call hcall
  have hcleared := h call hcall
  cases call with
  | increment => exact Nat.lt_of_le_of_lt (Nat.sub_le _ _) hcleared
  | _ => exact hcleared

/-- While a client is there, a call passes only if there is room, and the room stays until it begins
its operation. -/
theorem Clear.step (h : s.Clear) (hbusy : s.clientInFlight ≠ 0) (hok : s.Alone a)
    (hstep : s.Step a s') : s'.Clear := by
  cases hstep with
  | acquire => exact h
  | noGuard hi => exact h
  | release hi => exact h
  | announce hi => exact h.notifyWaiters
  | start => exact Pool.forall_concat h trivial
  | noCall hi => exact h
  | loadClients hi =>
    refine h.resume hi ?_
    rintro call ⟨⟩
    exact hbusy
  | pass hi hpass =>
    refine h.resume hi ?_
    rintro call ⟨⟩
    exact hpass.resolve_left (h _ (List.mem_of_getElem? hi))
  | refuse hi hclients =>
    refine h.resume hi ?_
    rintro call ⟨⟩
    trivial
  | register hi =>
    refine h.resume hi ?_
    rintro call ⟨⟩
    trivial
  | asleep hi => exact h
  | @increment i hi =>
    intro call hcall
    rw [resume_calls, Pool.mem_resume hi] at hcall
    rcases hcall with hnext | hother
    · cases hnext
      trivial
    · have hcleared := h call (List.mem_of_mem_eraseIdx hother)
      cases call with
      | increment => exact absurd hother (hok hi)
      | _ => exact hcleared
  | finish hi =>
    refine h.finish.resume hi ?_
    rintro call ⟨⟩
    trivial
  | complete hi =>
    exact h.notifyWaiters.resume (notifyWaiters_getElem hi) fun call hcall => nomatch hcall

/-- What holds of a busy controller in an interval that began without background calls. -/
structure Supervised (s : Traffic) : Prop extends s.Counted where
  clear : s.Clear

theorem Counted.busy (h : s.Counted) (hheld : .held ∈ s.guards) : s.clientInFlight ≠ 0 := by
  rw [h.clients]
  exact Nat.ne_of_gt (List.count_pos_iff.mpr hheld)

theorem Supervised.granted (h : s.Supervised) : s.Granted a := by
  cases a with
  | background i => exact fun hi => h.clear _ (List.mem_of_getElem? hi)
  | _ => trivial

end Traffic

/-- While a client guard is held throughout an interval that began without background calls, the
operations keep to the limit exactly when each of them begins while there is room. It does when
no operation begins while another call has passed the check. -/
theorem background_limited_iff (limit : Nat) (before interval : List TrafficEvent)
    (hidle : (before.foldl Traffic.next (.new limit)).calls = [])
    (hbusy : Throughout Traffic.next (fun s _ => .held ∈ s.guards)
      (before.foldl Traffic.next (.new limit)) interval) :
    (Throughout Traffic.next (fun s a => (s.next a).WithinLimit)
        (before.foldl Traffic.next (.new limit)) interval ↔
      Throughout Traffic.next Traffic.Granted
        (before.foldl Traffic.next (.new limit)) interval) ∧
    (Throughout Traffic.next Traffic.Alone (before.foldl Traffic.next (.new limit)) interval →
      Throughout Traffic.next (fun s a => (s.next a).WithinLimit)
        (before.foldl Traffic.next (.new limit)) interval) := by
  have hcounted := Traffic.counted_run limit before
  generalize before.foldl Traffic.next (.new limit) = s at *
  have hiff : Throughout Traffic.next (fun s a => (s.next a).WithinLimit) s interval ↔
      Throughout Traffic.next Traffic.Granted s interval :=
    Throughout.after_iff (fun s a _ h => Traffic.Counted.step h (s.step_next a))
      (fun s a _ h hwithin => Traffic.withinLimit_step_iff h hwithin (s.step_next a)) hcounted
      (by simp [Traffic.WithinLimit, hidle])
  refine ⟨hiff, fun hok => hiff.mpr ?_⟩
  refine (hok.and hbusy).of_invariant (I := Traffic.Supervised) ?_ (fun s a h => h.granted)
    ⟨hcounted, by simp [Traffic.Clear, hidle]⟩
  rintro s a ⟨halone, hheld⟩ h
  exact ⟨h.toCounted.step (s.step_next a),
    h.clear.step (h.toCounted.busy hheld) halone (s.step_next a)⟩

/-- The second call comes to its check when the first one runs. -/
def inTurn : List TrafficEvent :=
  [.runBackground, .runBackground, .background 0, .background 0, .background 0, .background 1,
    .background 1, .background 1]

theorem limit_kept_in_turn :
    Throughout Traffic.next (fun s a => (s.next a).WithinLimit)
      ([.acquireClient].foldl Traffic.next (.new 1)) inTurn :=
  (background_limited_iff 1 [.acquireClient] inTurn rfl (by decide)).2 (by decide)

/-- Both calls come to their check before one of them runs. -/
def sideBySide : List TrafficEvent :=
  [.runBackground, .runBackground, .background 0, .background 0, .background 1, .background 1,
    .background 0, .background 1]

/-- Two operations run beside a client where the limit is one. -/
theorem limit_exceeded_side_by_side :
    ([.acquireClient].foldl Traffic.next (.new 1)).calls = [] ∧
    Throughout Traffic.next (fun s a => .held ∈ (s.next a).guards)
      ([.acquireClient].foldl Traffic.next (.new 1)) sideBySide ∧
    (sideBySide.foldl Traffic.next ([.acquireClient].foldl Traffic.next (.new 1))).calls =
      [.running, .running] := by
  decide

end BashfulDB.Ops
