import BashfulDB.Clock.WallClock
import BashfulDB.Library.Except

/-! How many calls the counter of a clock lasts within one millisecond. -/
namespace BashfulDB.Clock

/-- A call on a running clock, with the wall reading that it observes. -/
inductive Use
  | tick (nowMs : UInt64)
  | update (nowMs : UInt64) (received : Hlc)
  deriving DecidableEq

def Use.call (c : WallClock) : Use → Except Fault Hlc × WallClock
  | .tick nowMs => (WallClock.tick nowMs).call c
  | .update nowMs received => (WallClock.update nowMs received).call c

/-- How far a received value sets the counter ahead of what the local calls account for. -/
def Use.lead (c : WallClock) : Use → Nat
  | .tick _ => 0
  | .update nowMs received =>
    if received.physicalMs < max nowMs c.state.physicalMs then 0
    else if received.physicalMs = c.state.physicalMs then
      received.logical.toNat - c.state.logical.toNat
    else received.logical.toNat + 1

/-- A clock with its successful calls since the physical component last changed, and how far
received values have set its counter ahead in that time. -/
structure Tally where
  clock : WallClock
  since : Nat
  ahead : Nat
  deriving DecidableEq

namespace Tally

def next (t : Tally) (u : Use) : Tally :=
  match u.call t.clock with
  | (.error _, c) => ⟨c, t.since, t.ahead⟩
  | (.ok v, c) =>
    if v.physicalMs = t.clock.state.physicalMs then ⟨c, t.since + 1, t.ahead + u.lead t.clock⟩
    else ⟨c, 0, u.lead t.clock⟩

/-- The counter is made up of the local calls and of what was received. -/
def Balanced (t : Tally) : Prop := t.clock.state.logical.toNat = t.since + t.ahead

end Tally

namespace WallClock

variable {nowMs p : UInt64} {received : Hlc} {c c' : WallClock} {v : Hlc}

theorem checkedAdd_one_eq_none {a : UInt16} (h : checkedAdd a 1 = none) : a.toNat = 65535 := by
  have ha := a.toNat_lt
  unfold checkedAdd at h
  split at h
  · cases h
  · rename_i hge
    have hone : (1 : UInt16).toNat = 1 := rfl
    omega

/-- Building a value fails by a panic only. -/
theorem error_newHeld {l : UInt16} {f : Fault}
    (h : ((newHeld p l >>= store).call c).1 = .error f) : f = .panic := by
  rw [call_bind, call_newHeld] at h
  cases hnew : Hlc.new p l with
  | ok v =>
    rw [hnew] at h
    cases h
  | error f' =>
    rw [hnew, (Hlc.new_eq_error hnew).1] at h
    cases h
    rfl

/-- A tick overflows at the last count only, and while the wall clock has not gone on. -/
theorem tick_overflow (h : ((tick nowMs).call c).1 = .error (.error (.logicalOverflow p))) :
    c.state.logical.toNat = 65535 ∧ nowMs.toNat ≤ c.state.physicalMs.toNat := by
  unfold tick at h
  rw [call_bind, call_lock] at h
  cases hpoisoned : c.poisoned with
  | true => simp [hpoisoned] at h
  | false =>
    simp only [hpoisoned, Bool.false_eq_true, if_false] at h
    by_cases hn : nowMs > c.state.physicalMs
    · rw [if_pos hn] at h
      exact absurd (error_newHeld h) (by simp)
    · rw [if_neg hn, call_bind, call_nextLogical] at h
      refine ⟨?_, ?_⟩
      · cases hl : checkedAdd c.state.logical 1 with
        | none => exact checkedAdd_one_eq_none hl
        | some l =>
          simp only [hl] at h
          exact absurd (error_newHeld h) (by simp)
      · rw [gt_iff_lt, UInt64.lt_iff_toNat_lt] at hn
        omega

theorem new_eq_ok {start : UInt64} (h : WallClock.new start = .ok c) :
    c.state.logical.toNat = 0 := by
  obtain ⟨state, hstate, hc⟩ := Except.bind_eq_ok.mp h
  cases hc
  exact (Hlc.new_eq_ok hstate).2.2

end WallClock

section

variable {c c' : WallClock} {u : Use} {answer : Except Fault Hlc} {v : Hlc} {t : Tally}

theorem moves_of_call (h : u.call c = (answer, c')) : c.Moves answer c' := by
  cases u with
  | tick nowMs =>
    have houtcome := WallClock.tick_outcome nowMs c
    rw [← Use.call, h] at houtcome
    exact houtcome.moves fun v hv => hv
  | update nowMs received =>
    have houtcome := WallClock.update_outcome nowMs received c
    rw [← Use.call, h] at houtcome
    exact houtcome.moves fun v hv => hv.1

/-- A successful call counts on within a millisecond, or starts again, and adds what it received. -/
theorem logical_of_call (h : u.call c = (.ok v, c')) :
    v.logical.toNat =
      (if v.physicalMs = c.state.physicalMs then c.state.logical.toNat + 1 else 0) + u.lead c := by
  simp only [← UInt64.toNat_inj]
  cases u with
  | tick nowMs =>
    have houtcome := WallClock.tick_value nowMs c
    rw [← Use.call, h] at houtcome
    have hvalue := houtcome.of_ok
    rw [Use.lead]
    split_ifs <;> omega
  | update nowMs received =>
    have houtcome := WallClock.update_value nowMs received c
    rw [← Use.call, h] at houtcome
    obtain ⟨hp, hl⟩ := houtcome.of_ok
    rw [hl, Use.lead]
    simp only [UInt64.lt_iff_toNat_lt, ← UInt64.toNat_inj, toNat_max_u64]
    split_ifs <;> omega

theorem Tally.Balanced.next (h : t.Balanced) (u : Use) : (t.next u).Balanced := by
  rcases hcall : u.call t.clock with ⟨answer, c⟩
  have hmoves := moves_of_call hcall
  unfold Tally.Balanced at h ⊢
  simp only [Tally.next, hcall]
  cases answer with
  | error f =>
    have hstate : c.state = t.clock.state := hmoves.elim (fun hok => nomatch hok) And.right
    rw [← h, hstate]
  | ok v =>
    have hstate : c.state = v := by
      rcases hmoves with ⟨w, hw, -, hstate⟩ | ⟨⟨f, hf⟩, -⟩
      · cases hw
        exact hstate
      · cases hf
    have hlogical := logical_of_call hcall
    by_cases hp : v.physicalMs = t.clock.state.physicalMs
    · simp only [if_pos hp, hstate] at hlogical ⊢
      omega
    · simp only [if_neg hp, hstate] at hlogical ⊢
      omega

end

/-- The successful calls on a new clock, counted. -/
def tally (c : WallClock) (uses : List Use) : Tally := uses.foldl Tally.next ⟨c, 0, 0⟩

theorem balanced_tally {start : UInt64} {c : WallClock} (hnew : WallClock.new start = .ok c)
    (uses : List Use) : (tally c uses).Balanced := by
  have hrun (t : Tally) (h : t.Balanced) : (uses.foldl Tally.next t).Balanced := by
    induction uses generalizing t with
    | nil => exact h
    | cons u uses ih => exact ih _ (h.next u)
  exact hrun _ (WallClock.new_eq_ok hnew)

/-- A tick that overflows comes after 65535 successful calls within one millisecond exactly when
none of the values received in that time had set the counter ahead. -/
theorem overflow_exhausted_iff {start nowMs p : UInt64} {c : WallClock} (uses : List Use)
    (hnew : WallClock.new start = .ok c)
    (hoverflow : ((WallClock.tick nowMs).call (tally c uses).clock).1 =
      .error (.error (.logicalOverflow p))) :
    65535 ≤ (tally c uses).since ↔ (tally c uses).ahead = 0 := by
  have hbalanced : (tally c uses).clock.state.logical.toNat = _ := balanced_tally hnew uses
  have hlast := (WallClock.tick_overflow hoverflow).1
  omega

/-- After `n` ticks within the millisecond `physicalMs`. -/
structure Tally.Ticked (physicalMs : UInt64) (n : Nat) (t : Tally) : Prop where
  since : t.since = n
  ahead : t.ahead = 0
  poisoned : t.clock.poisoned = false
  physical : t.clock.state.physicalMs = physicalMs

section Ticks

variable {nowMs physicalMs : UInt64} {t : Tally} {n : Nat}

theorem Tally.Ticked.tick (h : t.Ticked physicalMs n) (hbalanced : t.Balanced)
    (hnow : nowMs.toNat ≤ physicalMs.toNat) :
    (n < 65535 ∧ (t.next (.tick nowMs)).Ticked physicalMs (n + 1)) ∨
    (n = 65535 ∧ ∃ p, ((WallClock.tick nowMs).call t.clock).1 =
      .error (.error (.logicalOverflow p))) := by
  have hcount : t.clock.state.logical.toNat = n := by
    rw [hbalanced, h.since, h.ahead, Nat.add_zero]
  have hphysical := t.clock.state.physicalMs_lt
  rw [← h.physical] at hnow ⊢
  rcases WallClock.tick_value nowMs t.clock with ⟨v, hcall, hvalue⟩ | ⟨p, hcall⟩ | ⟨-, hpanic⟩
  · have hl := v.logical.toNat_lt
    have hp : v.physicalMs = t.clock.state.physicalMs := UInt64.toNat_inj.mp (by omega)
    refine Or.inl ⟨by omega, ?_⟩
    simp only [Tally.next, Use.call, hcall, if_pos hp, Use.lead, h.since, h.ahead]
    exact ⟨rfl, rfl, rfl, hp⟩
  · have hoverflow := congrArg Prod.fst hcall
    have hlast := (WallClock.tick_overflow hoverflow).1
    exact Or.inr ⟨by omega, p, hoverflow⟩
  · rcases hpanic with hpanic | hlarge
    · exact absurd (h.poisoned.symm.trans hpanic) (by decide)
    · omega

/-- Within one millisecond a new clock ticks until its counter is used up. -/
theorem ticked_tally {start : UInt64} {c : WallClock} (hnew : WallClock.new start = .ok c)
    (hnow : nowMs.toNat ≤ c.state.physicalMs.toNat) (hn : n ≤ 65535) :
    (tally c (List.replicate n (.tick nowMs))).Ticked c.state.physicalMs n := by
  induction n with
  | zero =>
    obtain ⟨state, -, hc⟩ := Except.bind_eq_ok.mp hnew
    cases hc
    exact ⟨rfl, rfl, rfl, rfl⟩
  | succ n ih =>
    rw [tally, List.replicate_succ', List.foldl_append]
    rcases (ih (by omega)).tick (balanced_tally hnew _) hnow with ⟨-, hticked⟩ | ⟨hlast, -⟩
    · exact hticked
    · omega

end Ticks

/-- The clock of millisecond 5. -/
def five : WallClock := ⟨⟨0x50000⟩, false⟩

/-- Where only ticks are made, 65535 of them come before an overflow. -/
theorem ticks_exhaust : ∃ p, ((WallClock.tick 5).call
      (tally five (List.replicate 65535 (.tick 5))).clock).1 =
        .error (.error (.logicalOverflow p)) ∧
    65535 ≤ (tally five (List.replicate 65535 (.tick 5))).since := by
  have hnew : WallClock.new 5 = .ok five := by decide
  have hnow : (5 : UInt64).toNat ≤ five.state.physicalMs.toNat := by decide
  have hticked := ticked_tally hnew hnow (le_refl 65535)
  rcases hticked.tick (balanced_tally hnew _) hnow with ⟨hlt, -⟩ | ⟨-, p, hoverflow⟩
  · omega
  · exact ⟨p, hoverflow, (overflow_exhausted_iff _ hnew hoverflow).mpr hticked.ahead⟩

/-- The count before the last one of millisecond 5. -/
def nearlyLast : Hlc := ⟨0x5FFFE⟩

/-- One value received from another node leaves no count for the next tick. -/
theorem received_exhausts : WallClock.new 5 = .ok five ∧
    (tally five [.update 5 nearlyLast]).since = 1 ∧
    ((WallClock.tick 5).call (tally five [.update 5 nearlyLast]).clock).1 =
      .error (.error (.logicalOverflow 5)) := by
  decide +kernel

end BashfulDB.Clock
