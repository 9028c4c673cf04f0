import BashfulDB.Clock.WallClock
import BashfulDB.Library.Steps

/-! Whole runs of one node's clock, across crashes and wall clocks that jump backward. -/
namespace BashfulDB.Clock

/-- One call on the node's clock, with the wall reading it observes. -/
inductive Call
  | tick (nowMs : UInt64)
  | update (nowMs : UInt64) (received : Hlc)
  | restart (nowMs : UInt64)
  deriving DecidableEq, Repr

def Call.reading : Call → UInt64
  | .tick nowMs | .update nowMs _ | .restart nowMs => nowMs

/-- A call with its answer; a restart answers nothing. -/
structure Event where
  call : Call
  answer : Option (Except Fault Hlc)

/-- A node is its clock and the values it has returned, latest first. -/
structure Node where
  clock : WallClock
  returned : List Hlc

def record (answer : Except Fault Hlc) (returned : List Hlc) : List Hlc :=
  match answer with
  | .ok v => v :: returned
  | .error _ => returned

/-- A restart persists the last value returned before the crash, so it needs one. -/
inductive Step : Node → Event → Node → Prop
  | tick {n : Node} {nowMs : UInt64} {r : Except Fault Hlc} {c : WallClock} :
      (WallClock.tick nowMs).call n.clock = (r, c) →
      Step n ⟨.tick nowMs, some r⟩ ⟨c, record r n.returned⟩
  | update {n : Node} {nowMs : UInt64} {received : Hlc} {r : Except Fault Hlc} {c : WallClock} :
      (WallClock.update nowMs received).call n.clock = (r, c) →
      Step n ⟨.update nowMs received, some r⟩ ⟨c, record r n.returned⟩
  | restart {n : Node} {nowMs : UInt64} {persisted : Hlc} {c : WallClock} :
      n.returned.head? = some persisted →
      WallClock.fromPersisted persisted nowMs = .ok c →
      Step n ⟨.restart nowMs, none⟩ ⟨c, n.returned⟩

def Event.value (e : Event) : Option Hlc :=
  match e.answer with
  | some (.ok v) => some v
  | _ => none

/-- The values returned along a run, in the order they were returned. -/
def returnedValues (log : List Event) : List Hlc := log.filterMap Event.value

/-- Everything returned so far descends from the latest value, and the clock is not behind it. -/
def Ahead (n : Node) : Prop :=
  n.returned.Pairwise (· > ·) ∧ ∀ v ∈ n.returned, v ≤ n.clock.state

variable {n n' : Node} {e : Event} {log : List Event}

/-- A step is a clock call with its outcome, or a restart from the latest value. -/
theorem step_cases (h : Step n e n') :
    (∃ r c, e.answer = some r ∧ n' = ⟨c, record r n.returned⟩ ∧
      WallClock.Outcome e.call.reading (fun v => n.clock.state < v) n.clock (r, c)) ∨
    (∃ persisted c, e.answer = none ∧ n' = ⟨c, n.returned⟩ ∧
      n.returned.head? = some persisted ∧
      WallClock.fromPersisted persisted e.call.reading = .ok c) := by
  cases h with
  | @tick nowMs r c hc =>
    have ho := WallClock.tick_outcome nowMs n.clock
    rw [hc] at ho
    exact Or.inl ⟨r, c, rfl, rfl, ho⟩
  | @update nowMs received r c hc =>
    have ho := WallClock.update_outcome nowMs received n.clock
    rw [hc] at ho
    exact Or.inl ⟨r, c, rfl, rfl, ho.mono (fun _ hv => hv.1)⟩
  | @restart nowMs persisted c hp hc => exact Or.inr ⟨persisted, c, rfl, rfl, hp, hc⟩

theorem ahead_step (h : Step n e n') (ha : Ahead n) : Ahead n' := by
  obtain ⟨hs, hle⟩ := ha
  obtain ⟨r, c, _, rfl, ho⟩ | ⟨persisted, c, _, rfl, hp, hc⟩ := step_cases h
  · obtain ⟨v, he, hv⟩ | ⟨p, he⟩ | ⟨he, _⟩ := ho
    · cases he
      have above : ∀ w ∈ n.returned, w < v := fun w hw => lt_of_le_of_lt (hle w hw) hv
      refine ⟨List.pairwise_cons.mpr ⟨above, hs⟩, ?_⟩
      intro w hw
      rcases List.mem_cons.mp hw with rfl | hw
      · exact le_rfl
      · exact le_of_lt (above w hw)
    · cases he
      exact ⟨hs, hle⟩
    · cases he
      exact ⟨hs, hle⟩
  · refine ⟨hs, ?_⟩
    intro v hv
    have hge := (WallClock.fromPersisted_ge hc).1
    obtain ⟨rest, hr⟩ := List.head?_eq_some_iff.mp hp
    rw [hr] at hs hv
    rcases List.mem_cons.mp hv with rfl | hv
    · exact hge
    · exact le_trans (le_of_lt (List.rel_of_pairwise_cons hs hv)) hge

theorem returned_step (h : Step n e n') : n'.returned = e.value.toList ++ n.returned := by
  obtain ⟨r, c, hr, rfl, _⟩ | ⟨_, c, hr, rfl, _⟩ := step_cases h
  · cases r <;> simp [Event.value, hr, record]
  · simp [Event.value, hr]

theorem returned_run (h : Steps Step n log n') :
    n'.returned = (returnedValues log).reverse ++ n.returned := by
  induction h with
  | refl => rfl
  | @cons s u t a xs hs _ ih =>
    rw [ih, returned_step hs]
    cases hv : a.value <;> simp [returnedValues, hv]

theorem returnedValues_increasing (h : Steps Step n log n') (hn : n.returned = []) :
    (returnedValues log).Pairwise (· < ·) := by
  have ha : Ahead n := by simp [Ahead, hn]
  have ha' : Ahead n' := h.invariant (fun _ _ _ hs => ahead_step hs) ha
  have hr := returned_run h
  rw [hn, List.append_nil] at hr
  rw [← List.pairwise_reverse, ← hr]
  exact ha'.1

theorem update_above_received {nowMs : UInt64} {received v : Hlc}
    (h : Step n ⟨.update nowMs received, some (.ok v)⟩ n') : received < v := by
  cases h with
  | update hc =>
    have ho := WallClock.update_outcome nowMs received n.clock
    rw [hc] at ho
    obtain ⟨w, he, hw⟩ | ⟨p, he⟩ | ⟨he, _⟩ := ho
    · cases he
      exact hw.2
    · cases he
    · cases he

/-- The overflow answer is returned before the guard is written. -/
theorem overflow_unchanged {p : UInt64} (h : Step n e n')
    (he : e.answer = some (.error (.error (.logicalOverflow p)))) : n' = n := by
  obtain ⟨r, c, hr, rfl, ho⟩ | ⟨_, c, hr, _⟩ := step_cases h
  · rw [he] at hr
    cases hr
    obtain ⟨v, hv, _⟩ | ⟨q, hq⟩ | ⟨hp, _⟩ := ho
    · cases hv
    · cases hq
      rfl
    · cases hp
  · simp [he] at hr

/-- With 48-bit readings an unpoisoned clock answers and stays unpoisoned. -/
theorem unpoisoned_step (h : Step n e n') (hr : e.call.reading.toNat < 2 ^ 48)
    (hn : n.clock.poisoned = false) :
    n'.clock.poisoned = false ∧ e.answer ≠ some (.error .panic) := by
  obtain ⟨r, c, ha, rfl, ho⟩ | ⟨_, c, ha, rfl, _, hc⟩ := step_cases h
  · obtain ⟨v, hv, _⟩ | ⟨q, hq⟩ | ⟨_, hp | hp⟩ := ho
    · cases hv
      simp [ha]
    · cases hq
      simp [ha, hn]
    · simp [hn] at hp
    · omega
  · exact ⟨(WallClock.fromPersisted_ge hc).2, by simp [ha]⟩

theorem no_panic_run (h : Steps Step n log n') (hn : n.clock.poisoned = false)
    (hr : ∀ e ∈ log, e.call.reading.toNat < 2 ^ 48) :
    ∀ e ∈ log, e.answer ≠ some (.error .panic) := by
  induction h with
  | refl => simp
  | @cons s u t a xs hs _ ih =>
    obtain ⟨hu, ha⟩ := unpoisoned_step hs (hr a (by simp)) hn
    intro e he
    rcases List.mem_cons.mp he with rfl | he
    · exact ha
    · exact ih hu (fun e he => hr e (by simp [he])) e he

theorem step_of_mem (h : Steps Step n log n') (he : e ∈ log) : ∃ m m', Step m e m' := by
  induction h with
  | refl => simp at he
  | cons hs _ ih =>
    rcases List.mem_cons.mp he with rfl | he
    · exact ⟨_, _, hs⟩
    · exact ih he

/-- Strict growth over ticks, merges and restarts, with overflow answers leaving no trace. -/
theorem hlc_monotone_across_restarts (h : Steps Step n log n') (hn : n.returned = [])
    (hu : n.clock.poisoned = false) (hr : ∀ e ∈ log, e.call.reading.toNat < 2 ^ 48) :
    (returnedValues log).Pairwise (· < ·) ∧
    (∀ nowMs received v, ⟨.update nowMs received, some (.ok v)⟩ ∈ log → received < v) ∧
    (∀ m e m' p, Step m e m' → e.answer = some (.error (.error (.logicalOverflow p))) → m' = m) ∧
    (∀ e ∈ log, e.answer ≠ some (.error .panic)) ∧
    (∀ a b : Hlc, a < b ↔ toLex (a.physicalMs.toNat, a.logical.toNat) <
      toLex (b.physicalMs.toNat, b.logical.toNat)) := by
  refine ⟨returnedValues_increasing h hn, ?_, ?_, no_panic_run h hu hr, ?_⟩
  · intro nowMs received v he
    obtain ⟨m, m', hs⟩ := step_of_mem h he
    exact update_above_received hs
  · intro m e m' p hs he
    exact overflow_unchanged hs he
  · intro a b
    rw [Hlc.lt_iff_lex, Prod.Lex.toLex_lt_toLex]

/-- A crash after one tick, and a wall clock that has gone back two milliseconds. -/
theorem hlc_monotone_across_backward_restart :
    ∃ log n', Steps Step ⟨⟨Hlc.zero, false⟩, []⟩ log n' ∧
      returnedValues log = [⟨5 * 65536⟩, ⟨5 * 65536 + 2⟩] ∧
      (returnedValues log).Pairwise (· < ·) := by
  have run : Steps Step ⟨⟨Hlc.zero, false⟩, []⟩
      [⟨.tick 5, some (.ok ⟨5 * 65536⟩)⟩, ⟨.restart 3, none⟩,
        ⟨.tick 3, some (.ok ⟨5 * 65536 + 2⟩)⟩]
      ⟨⟨⟨5 * 65536 + 2⟩, false⟩, [⟨5 * 65536 + 2⟩, ⟨5 * 65536⟩]⟩ :=
    .cons (.tick rfl) (.cons (.restart rfl rfl) (.cons (.tick rfl) .refl))
  exact ⟨_, _, run, rfl, (hlc_monotone_across_restarts run rfl rfl (by decide)).1⟩

end BashfulDB.Clock
