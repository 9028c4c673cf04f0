import BashfulDB.Library.OrdMap

/-!
Caches whose entries live for a fixed time and are pruned lazily, and what such a cache
shows to one group of its users while strangers share it.
-/

namespace Expiry

variable {K V W : Type*} [LinearOrder K]

section

variable (stamp : V → Nat) (ttl : Nat)

def fresh (now : Nat) (v : V) : Bool := now - stamp v < ttl

def prune (m : OrdMap K V) (now : Nat) : OrdMap K V := m.retain fun _ v => fresh stamp ttl now v

/-- What a lookup at `now` finds. -/
def live (m : OrdMap K V) (k : K) (now : Nat) : Option V := (m.get k).filter (fresh stamp ttl now)

end

variable {stamp : V → Nat} {stamp' : W → Nat} {ttl now since t : Nat} {m : OrdMap K V}
  {m' : OrdMap K W} {k j : K} {v : V} {w : W}

theorem get_prune : (prune stamp ttl m now).get k = live stamp ttl m k now :=
  m.get_retain _

theorem fresh_of_le (h : since ≤ now) (hv : fresh stamp ttl now v = true) :
    fresh stamp ttl since v = true := by
  simp only [fresh, decide_eq_true_eq] at hv ⊢
  omega

/-- Pruning at an earlier time takes away nothing that is still live. -/
theorem live_prune (h : since ≤ now) :
    live stamp ttl (prune stamp ttl m since) k now = live stamp ttl m k now := by
  rw [live, get_prune, live, live]
  cases m.get k with
  | none => rfl
  | some v =>
    cases hv : fresh stamp ttl now v with
    | true => simp [Option.filter, hv, fresh_of_le h hv]
    | false => cases hs : fresh stamp ttl since v <;> simp [Option.filter, hv, hs]

theorem live_insert_of_ne (h : j ≠ k) :
    live stamp ttl (m.insert k v) j now = live stamp ttl m j now := by
  rw [live, OrdMap.get_insert_of_ne m h, live]

theorem live_eq_none (h : ∀ v, m.get k = some v → ttl ≤ now - stamp v) :
    live stamp ttl m k now = none := by
  rw [live]
  cases hk : m.get k with
  | none => rfl
  | some v =>
    have hle := h v hk
    have hstale : fresh stamp ttl now v = false := decide_eq_false (by omega)
    simp [Option.filter, hstale]

/-- `m'` is `m` without the entries of strangers: lookups from `since` on agree, except on a key
that a stranger used less than `ttl` ago. -/
structure Shadows (stamp : V → Nat) (stamp' : W → Nat) (ttl : Nat) (R : V → W → Prop)
    (strangers : List (K × Nat)) (since : Nat) (m : OrdMap K V) (m' : OrdMap K W) : Prop where
  old : ∀ k w, m'.get k = some w → stamp' w ≤ since
  agree : ∀ k now, since ≤ now → (∀ t, (k, t) ∈ strangers → ttl ≤ now - t) →
    Option.Rel R (live stamp ttl m k now) (live stamp' ttl m' k now)

namespace Shadows

variable {R : V → W → Prop} {strangers : List (K × Nat)}

theorem empty : Shadows stamp stamp' ttl R strangers since OrdMap.empty OrdMap.empty where
  old _ _ h := by cases h
  agree _ _ _ _ := .none

theorem live_eq {m' : OrdMap K V} (h : Shadows stamp stamp ttl Eq strangers since m m')
    (hnow : since ≤ now) (hapart : ∀ t, (k, t) ∈ strangers → ttl ≤ now - t) :
    live stamp ttl m k now = live stamp ttl m' k now := by
  have hrel := h.agree k now hnow hapart
  generalize live stamp ttl m k now = o at hrel ⊢
  generalize live stamp ttl m' k now = o' at hrel ⊢
  cases hrel with
  | none => rfl
  | some heq => rw [heq]

theorem later (h : Shadows stamp stamp' ttl R strangers since m m') (hle : since ≤ now) :
    Shadows stamp stamp' ttl R strangers now m m' where
  old k w hw := (h.old k w hw).trans hle
  agree k t ht := h.agree k t (hle.trans ht)

theorem prune (h : Shadows stamp stamp' ttl R strangers since m m') (hle : t ≤ since) :
    Shadows stamp stamp' ttl R strangers since (prune stamp ttl m t) m' where
  old := h.old
  agree k now hnow hapart := by
    rw [live_prune (hle.trans hnow)]
    exact h.agree k now hnow hapart

theorem insert (h : Shadows stamp stamp' ttl R strangers since m m') (hR : R v w)
    (hv : stamp v = stamp' w) (hold : stamp' w ≤ since) (k : K) :
    Shadows stamp stamp' ttl R strangers since (m.insert k v) (m'.insert k w) where
  old j x hx := by
    rw [OrdMap.get_insert] at hx
    split at hx
    · cases hx
      exact hold
    · exact h.old j x hx
  agree j now hnow hapart := by
    by_cases hj : j = k
    · subst hj
      have hfresh : fresh stamp ttl now v = fresh stamp' ttl now w := by rw [fresh, fresh, hv]
      rw [live, live, OrdMap.get_insert_self, OrdMap.get_insert_self, Option.filter, Option.filter,
        hfresh]
      split
      · exact .some hR
      · exact .none
    · rw [live_insert_of_ne hj, live_insert_of_ne hj]
      exact h.agree j now hnow hapart

theorem mono {strangers' : List (K × Nat)} (h : Shadows stamp stamp' ttl R strangers since m m')
    (hsub : strangers ⊆ strangers') :
    Shadows stamp stamp' ttl R strangers' since m m' where
  old := h.old
  agree k now hnow hapart := h.agree k now hnow fun t ht => hapart t (hsub ht)

/-- Once a stranger's entry has expired, so has everything it may have replaced. -/
theorem insert_stranger (h : Shadows stamp stamp' ttl R strangers since m m')
    (hk : (k, t) ∈ strangers) (hle : since ≤ t) (hv : stamp v ≤ t) :
    Shadows stamp stamp' ttl R strangers since (m.insert k v) m' where
  old := h.old
  agree j now hnow hapart := by
    by_cases hj : j = k
    · subst hj
      have hexpired : ttl ≤ now - t := hapart t hk
      rw [live_eq_none, live_eq_none]
      · exact .none
      · intro w hw
        have := h.old j w hw
        omega
      · intro x hx
        rw [OrdMap.get_insert_self] at hx
        cases hx
        omega
    · rw [live_insert_of_ne hj]
      exact h.agree j now hnow hapart

end Shadows

end Expiry
