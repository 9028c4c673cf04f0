import BashfulDB.Clock.Hlc

/-! The production clock: a mutex around the last value it returned. -/
namespace BashfulDB.Clock

/-- Why a clock call returned no value: a `ClockError`, or a panic. -/
inductive Fault
  | error (e : ClockError)
  | panic
  deriving DecidableEq, Repr

/-- `Mutex<Hlc>`. A panic while its guard is held poisons the mutex for good. -/
structure WallClock where
  state : Hlc
  poisoned : Bool
  deriving DecidableEq, Repr

abbrev ClockM := ExceptT Fault (StateM WallClock)

def ClockM.call {α : Type} (m : ClockM α) (c : WallClock) : Except Fault α × WallClock :=
  (m.run.run c).run

def checkedAdd (a b : UInt16) : Option UInt16 :=
  if a.toNat + b.toNat < 2 ^ 16 then some (a + b) else none

def saturatingAdd (a b : UInt16) : UInt16 := (checkedAdd a b).getD 65535

/-- `Hlc::new` outside any guard. -/
def Hlc.new (physicalMs : UInt64) (logical : UInt16) : Except Fault Hlc :=
  match tryNew physicalMs logical with
  | .ok h => .ok h
  | .error _ => .error .panic

namespace WallClock

def new (nowMs : UInt64) : Except Fault WallClock := do
  let state ← Hlc.new nowMs 0
  return ⟨state, false⟩

def fromPersisted (persisted : Hlc) (nowMs : UInt64) : Except Fault WallClock := do
  let physical := max nowMs persisted.physicalMs
  let logical :=
    if physical = persisted.physicalMs then saturatingAdd persisted.logical 1 else 0
  let state ← Hlc.new physical logical
  return ⟨state, false⟩

def lock : ClockM Hlc := do
  let c ← get
  if c.poisoned then throw .panic else return c.state

/-- `Hlc::new` while the guard is held. -/
def newHeld (physicalMs : UInt64) (logical : UInt16) : ClockM Hlc := do
  match Hlc.new physicalMs logical with
  | .ok h => return h
  | .error f =>
    modify fun c => { c with poisoned := true }
    throw f

/-- `logical.checked_add(1).ok_or(LogicalOverflow)?`. -/
def nextLogical (logical : UInt16) (physicalMs : UInt64) : ClockM UInt16 :=
  match checkedAdd logical 1 with
  | some l => return l
  | none => throw (.error (.logicalOverflow physicalMs))

def store (h : Hlc) : ClockM Hlc := do
  set (⟨h, false⟩ : WallClock)
  return h

def now : ClockM Hlc := lock

def tick (nowMs : UInt64) : ClockM Hlc := do
  let state ← lock
  let new ←
    if nowMs > state.physicalMs then
      newHeld nowMs 0
    else do
      let l ← nextLogical state.logical state.physicalMs
      newHeld state.physicalMs l
  store new

def update (nowMs : UInt64) (received : Hlc) : ClockM Hlc := do
  let state ← lock
  let maxPhysical := max (max nowMs state.physicalMs) received.physicalMs
  let logical ←
    if maxPhysical = state.physicalMs ∧ maxPhysical = received.physicalMs then
      nextLogical (max state.logical received.logical) maxPhysical
    else if maxPhysical = state.physicalMs then
      nextLogical state.logical maxPhysical
    else if maxPhysical = received.physicalMs then
      nextLogical received.logical maxPhysical
    else
      pure 0
  let new ← newHeld maxPhysical logical
  store new

end WallClock

theorem checkedAdd_one_eq_some {a l : UInt16} :
    checkedAdd a 1 = some l → l.toNat = a.toNat + 1 := by
  intro h
  have ha := a.toNat_lt
  unfold checkedAdd at h
  split at h
  · rename_i hlt
    cases h
    rw [UInt16.toNat_add]
    exact Nat.mod_eq_of_lt hlt
  · cases h

theorem saturatingAdd_one_ge (a : UInt16) : a.toNat ≤ (saturatingAdd a 1).toNat := by
  cases h : checkedAdd a 1 with
  | none =>
    have ha := a.toNat_lt
    simp [saturatingAdd, h]
    omega
  | some l =>
    have := checkedAdd_one_eq_some h
    simp [saturatingAdd, h]
    omega

theorem Hlc.new_of_lt {p : UInt64} (hp : p.toNat < 2 ^ 48) (l : UInt16) :
    ∃ h, Hlc.new p l = .ok h ∧ h.physicalMs.toNat = p.toNat ∧ h.logical.toNat = l.toNat := by
  obtain ⟨h, he, hr⟩ := Hlc.tryNew_of_lt hp l
  exact ⟨h, by simp [Hlc.new, he], hr⟩

theorem Hlc.new_eq_ok {p : UInt64} {l : UInt16} {h : Hlc} (he : Hlc.new p l = .ok h) :
    p.toNat < 2 ^ 48 ∧ h.physicalMs.toNat = p.toNat ∧ h.logical.toNat = l.toNat := by
  by_cases hp : p.toNat < 2 ^ 48
  · obtain ⟨h', he', hr⟩ := Hlc.new_of_lt hp l
    rw [he] at he'
    cases he'
    exact ⟨hp, hr⟩
  · simp [Hlc.new, Hlc.tryNew_of_ge (Nat.le_of_not_lt hp)] at he

theorem toNat_max_u64 (a b : UInt64) : (max a b).toNat = max a.toNat b.toNat := by
  change (if a ≤ b then b else a).toNat = _
  by_cases h : a ≤ b
  · rw [if_pos h]
    exact (max_eq_right (UInt64.le_iff_toNat_le.mp h)).symm
  · rw [if_neg h]
    rw [UInt64.le_iff_toNat_le] at h
    omega

theorem toNat_max_u16 (a b : UInt16) : (max a b).toNat = max a.toNat b.toNat := by
  change (if a ≤ b then b else a).toNat = _
  by_cases h : a ≤ b
  · rw [if_pos h]
    exact (max_eq_right (UInt16.le_iff_toNat_le.mp h)).symm
  · rw [if_neg h]
    rw [UInt16.le_iff_toNat_le] at h
    omega

theorem Hlc.new_eq_error {p : UInt64} {l : UInt16} {f : Fault} (he : Hlc.new p l = .error f) :
    f = .panic ∧ 2 ^ 48 ≤ p.toNat := by
  by_cases hp : p.toNat < 2 ^ 48
  · obtain ⟨h, hok, _⟩ := Hlc.new_of_lt hp l
    simp [hok] at he
  · have hge := Nat.le_of_not_lt hp
    simp [Hlc.new, Hlc.tryNew_of_ge hge] at he
    exact ⟨he.symm, hge⟩

namespace WallClock

theorem call_bind {α β : Type} (m : ClockM α) (f : α → ClockM β) (c : WallClock) :
    (m >>= f).call c = match m.call c with
      | (.ok a, c') => (f a).call c'
      | (.error e, c') => (.error e, c') := by
  rcases h : m.call c with ⟨r, c'⟩
  cases r <;> simp_all [ClockM.call, ExceptT.run_bind, StateT.run_bind]

theorem call_lock (c : WallClock) :
    lock.call c = (if c.poisoned then .error .panic else .ok c.state, c) := by
  obtain ⟨s, p⟩ := c
  cases p <;> rfl

theorem call_newHeld (p : UInt64) (l : UInt16) (c : WallClock) :
    (newHeld p l).call c = match Hlc.new p l with
      | .ok h => (.ok h, c)
      | .error f => (.error f, { c with poisoned := true }) := by
  unfold newHeld
  cases Hlc.new p l <;> rfl

theorem call_nextLogical (l : UInt16) (p : UInt64) (c : WallClock) :
    (nextLogical l p).call c = match checkedAdd l 1 with
      | some l' => (.ok l', c)
      | none => (.error (.error (.logicalOverflow p)), c) := by
  unfold nextLogical
  cases checkedAdd l 1 <;> rfl

/-- What one call under the reading `nowMs` can do: store and return a value with `P`,
report overflow and change nothing, or panic on a poisoned lock or a 48-bit overflow. -/
def Outcome (nowMs : UInt64) (P : Hlc → Prop) (c : WallClock)
    (res : Except Fault Hlc × WallClock) : Prop :=
  (∃ v, res = (.ok v, ⟨v, false⟩) ∧ P v) ∨
  (∃ p, res = (.error (.error (.logicalOverflow p)), c)) ∨
  (res = (.error .panic, ⟨c.state, true⟩) ∧ (c.poisoned = true ∨ 2 ^ 48 ≤ nowMs.toNat))

variable {nowMs p : UInt64} {l : UInt16} {P Q : Hlc → Prop} {c : WallClock}

theorem Outcome.mono {res : Except Fault Hlc × WallClock} (h : Outcome nowMs P c res)
    (hPQ : ∀ v, P v → Q v) : Outcome nowMs Q c res := by
  obtain ⟨v, he, hv⟩ | h := h
  · exact Or.inl ⟨v, he, hPQ v hv⟩
  · exact Or.inr h

theorem outcome_lock {f : Hlc → ClockM Hlc}
    (hf : c.poisoned = false → Outcome nowMs P c ((f c.state).call c)) :
    Outcome nowMs P c ((lock >>= f).call c) := by
  rw [call_bind, call_lock]
  cases hp : c.poisoned with
  | false => exact hf hp
  | true =>
    obtain ⟨s, q⟩ := c
    cases hp
    exact Or.inr (Or.inr ⟨rfl, Or.inl rfl⟩)

theorem outcome_newHeld (hp : 2 ^ 48 ≤ p.toNat → 2 ^ 48 ≤ nowMs.toNat)
    (hP : ∀ h : Hlc, h.physicalMs.toNat = p.toNat → h.logical.toNat = l.toNat → P h) :
    Outcome nowMs P c ((newHeld p l >>= store).call c) := by
  rw [call_bind, call_newHeld]
  cases hn : Hlc.new p l with
  | ok h =>
    obtain ⟨_, hph, hl⟩ := Hlc.new_eq_ok hn
    exact Or.inl ⟨h, rfl, hP h hph hl⟩
  | error f =>
    obtain ⟨rfl, hge⟩ := Hlc.new_eq_error hn
    exact Or.inr (Or.inr ⟨rfl, Or.inr (hp hge)⟩)

/-- The counter goes up by one, and what it gives is stored. -/
theorem outcome_count {q : UInt64} (hp : 2 ^ 48 ≤ p.toNat → 2 ^ 48 ≤ nowMs.toNat)
    (hP : ∀ h : Hlc, h.physicalMs.toNat = p.toNat → h.logical.toNat = l.toNat + 1 → P h) :
    Outcome nowMs P c ((nextLogical l q >>= fun l' => newHeld p l' >>= store).call c) := by
  rw [call_bind, call_nextLogical]
  cases hl : checkedAdd l 1 with
  | none => exact Or.inr (Or.inl ⟨q, rfl⟩)
  | some l' =>
    apply outcome_newHeld hp
    intro h hph hlog
    exact hP h hph (hlog.trans (checkedAdd_one_eq_some hl))

/-- The value of a tick: the reading, or the next count within the same millisecond. -/
theorem tick_value (nowMs : UInt64) (c : WallClock) :
    Outcome nowMs (fun v =>
      (c.state.physicalMs.toNat < nowMs.toNat ∧ v.physicalMs.toNat = nowMs.toNat ∧
        v.logical.toNat = 0) ∨
      (v.physicalMs.toNat = c.state.physicalMs.toNat ∧
        v.logical.toNat = c.state.logical.toNat + 1)) c ((tick nowMs).call c) := by
  apply outcome_lock
  intro _
  by_cases hn : nowMs > c.state.physicalMs
  · rw [if_pos hn]
    rw [gt_iff_lt, UInt64.lt_iff_toNat_lt] at hn
    apply outcome_newHeld id
    intro h hp hlog
    exact Or.inl ⟨hn, hp, hlog⟩
  · rw [if_neg hn]
    apply outcome_count
    · have := c.state.physicalMs_lt
      omega
    · intro h hp hlog
      exact Or.inr ⟨hp, hlog⟩

theorem tick_outcome (nowMs : UInt64) (c : WallClock) :
    Outcome nowMs (fun v => c.state < v) c ((tick nowMs).call c) := by
  refine (tick_value nowMs c).mono fun v hv => ?_
  rw [Hlc.lt_iff_lex]
  omega

theorem maxPhysical_toNat (nowMs : UInt64) (a b : Hlc) :
    (max (max nowMs a.physicalMs) b.physicalMs).toNat =
      max (max nowMs.toNat a.physicalMs.toNat) b.physicalMs.toNat := by
  rw [toNat_max_u64, toNat_max_u64]

/-- The value of an update: the largest physical component, with the count after the largest one
that came with it. -/
theorem update_value (nowMs : UInt64) (received : Hlc) (c : WallClock) :
    Outcome nowMs (fun v =>
      v.physicalMs.toNat =
        max (max nowMs.toNat c.state.physicalMs.toNat) received.physicalMs.toNat ∧
      v.logical.toNat =
        if v.physicalMs.toNat = c.state.physicalMs.toNat then
          if v.physicalMs.toNat = received.physicalMs.toNat then
            max c.state.logical.toNat received.logical.toNat + 1
          else c.state.logical.toNat + 1
        else if v.physicalMs.toNat = received.physicalMs.toNat then received.logical.toNat + 1
        else 0) c ((update nowMs received).call c) := by
  apply outcome_lock
  intro _
  have hm := maxPhysical_toNat nowMs c.state received
  have hs := c.state.physicalMs_lt
  have hr := received.physicalMs_lt
  dsimp only
  generalize max (max nowMs c.state.physicalMs) received.physicalMs = m at hm ⊢
  have hbig : 2 ^ 48 ≤ m.toNat → 2 ^ 48 ≤ nowMs.toNat := by omega
  split_ifs with hb hl hx
  · rw [← UInt64.toNat_inj, ← UInt64.toNat_inj] at hb
    apply outcome_count hbig
    intro h hp hlog
    rw [toNat_max_u16] at hlog
    rw [hp, if_pos hb.1, if_pos hb.2]
    exact ⟨hm, hlog⟩
  · rw [← UInt64.toNat_inj, ← UInt64.toNat_inj] at hb
    rw [← UInt64.toNat_inj] at hl
    apply outcome_count hbig
    intro h hp hlog
    rw [hp, if_pos hl, if_neg fun hx => hb ⟨hl, hx⟩]
    exact ⟨hm, hlog⟩
  · rw [← UInt64.toNat_inj] at hl hx
    apply outcome_count hbig
    intro h hp hlog
    rw [hp, if_neg hl, if_pos hx]
    exact ⟨hm, hlog⟩
  · rw [← UInt64.toNat_inj] at hl hx
    rw [pure_bind]
    apply outcome_newHeld hbig
    intro h hp hlog
    rw [hp, if_neg hl, if_neg hx]
    exact ⟨hm, hlog⟩

theorem update_outcome (nowMs : UInt64) (received : Hlc) (c : WallClock) :
    Outcome nowMs (fun v => c.state < v ∧ received < v) c ((update nowMs received).call c) := by
  refine (update_value nowMs received c).mono ?_
  rintro v ⟨hp, hl⟩
  rw [Hlc.lt_iff_lex, Hlc.lt_iff_lex]
  split_ifs at hl <;> omega

/-- A call either moves the clock to the value it returns, or leaves its value as it was. -/
def Moves (c : WallClock) (answer : Except Fault Hlc) (c' : WallClock) : Prop :=
  (∃ v, answer = .ok v ∧ c.state < v ∧ c'.state = v) ∨ (∃ f, answer = .error f) ∧ c'.state = c.state

theorem Outcome.moves {answer : Except Fault Hlc} {c' : WallClock}
    (h : Outcome nowMs P c (answer, c')) (hP : ∀ v, P v → c.state < v) : c.Moves answer c' := by
  rcases h with ⟨v, he, hv⟩ | ⟨p, he⟩ | ⟨he, -⟩
  · cases he
    exact Or.inl ⟨v, rfl, hP v hv, rfl⟩
  · cases he
    exact Or.inr ⟨⟨_, rfl⟩, rfl⟩
  · cases he
    exact Or.inr ⟨⟨_, rfl⟩, rfl⟩

theorem Outcome.of_ok {v : Hlc} {c' : WallClock} (h : Outcome nowMs P c (.ok v, c')) : P v := by
  rcases h with ⟨w, he, hw⟩ | ⟨p, he⟩ | ⟨he, -⟩
  · cases he
    exact hw
  · cases he
  · cases he

theorem fromPersisted_ge {persisted : Hlc} {nowMs : UInt64} {c : WallClock}
    (h : fromPersisted persisted nowMs = .ok c) :
    persisted ≤ c.state ∧ c.poisoned = false := by
  have hm := toNat_max_u64 nowMs persisted.physicalMs
  have hl := saturatingAdd_one_ge persisted.logical
  unfold fromPersisted at h
  dsimp only at h
  generalize max nowMs persisted.physicalMs = m at h hm
  cases hn : Hlc.new m (if m = persisted.physicalMs then
      saturatingAdd persisted.logical 1 else 0) with
  | error f => simp [hn, bind, Except.bind] at h
  | ok s =>
    simp only [hn, bind, Except.bind, pure, Except.pure, Except.ok.injEq] at h
    obtain ⟨_, hp, hs⟩ := Hlc.new_eq_ok hn
    rw [← h]
    refine ⟨?_, rfl⟩
    change persisted ≤ s
    rw [Hlc.le_iff_lex]
    by_cases he : m = persisted.physicalMs
    · rw [if_pos he] at hs
      rw [he] at hp
      omega
    · rw [← UInt64.toNat_inj] at he
      omega

end WallClock
end BashfulDB.Clock
