import Mathlib.Algebra.Group.Nat.Defs
import Mathlib.Tactic.Common

/-!
Computations that can fail, panic or run out of fuel, and that leave a record behind; and what it
means that such a computation ends as a plain one does. Arithmetic on a `usize` of 64 bits and
access to slices panic where Rust's do.
-/

/-- Why a computation did not return. -/
inductive Stop (ε : Type)
  | error (e : ε)
  | panic
  | exhausted

abbrev Traced (ε τ : Type) := ExceptT (Stop ε) (StateM (List τ))

namespace Traced

variable {ε τ α β γ : Type}

/-- The result, and the record with what was added to it. -/
def exec (m : Traced ε τ α) (log : List τ) : Except (Stop ε) α × List τ := (m.run.run log).run

def fail (e : ε) : Traced ε τ α := throw (.error e)

/-- Panics unless the condition holds. -/
def ensure (c : Prop) [Decidable c] : Traced ε τ Unit := if c then pure () else throw .panic

/-- Runs `m`, and records what became of it. -/
def record (entry : Option α → τ) (m : Traced ε τ α) : Traced ε τ α :=
  ExceptT.mk do
    let r ← m.run
    modify (· ++ [entry r.toOption])
    return r

def usizeMax : Nat := 2 ^ 64 - 1

/-- `isize::MAX`: no slice is longer. -/
def isizeMax : Nat := 2 ^ 63 - 1

def addUsize (a b : Nat) : Traced ε τ Nat := do
  ensure (a + b ≤ usizeMax)
  return a + b

def subUsize (a b : Nat) : Traced ε τ Nat := do
  ensure (b ≤ a)
  return a - b

/-- `l[i]`. -/
def index (l : List γ) (i : Nat) : Traced ε τ γ :=
  match l[i]? with
  | some a => pure a
  | none => throw .panic

/-- `&l[start..stop]`. -/
def slice (l : List γ) (start stop : Nat) : Traced ε τ (List γ) := do
  ensure (start ≤ stop ∧ stop ≤ l.length)
  return (l.drop start).take (stop - start)

theorem exec_bind (m : Traced ε τ α) (f : α → Traced ε τ β) (log : List τ) :
    (m >>= f).exec log = match m.exec log with
      | (.ok a, log) => (f a).exec log
      | (.error e, log) => (.error e, log) := by
  change ExceptT.bindCont f (m log).1 (m log).2 = match m log with
    | (.ok a, log) => f a log
    | (.error e, log) => (.error e, log)
  obtain ⟨_ | _, _⟩ := m log <;> rfl

theorem exec_record (entry : Option α → τ) (m : Traced ε τ α) (log : List τ) :
    (record entry m).exec log =
      ((m.exec log).1, (m.exec log).2 ++ [entry (m.exec log).1.toOption]) := rfl

/-- `m` ends as `r` does, without a panic and within its fuel, and all that it records is `G`. -/
def Refines (G : τ → Prop) (m : Traced ε τ α) (r : Except ε α) : Prop :=
  ∀ log, (m.exec log).1 = r.mapError .error ∧
    ∃ added, (m.exec log).2 = log ++ added ∧ ∀ t ∈ added, G t

namespace Refines

variable {G : τ → Prop} {m : Traced ε τ α} {f : α → Traced ε τ β} {r r' : Except ε α}
  {g : α → Except ε β} {s : Except ε β} {a : α}

theorem pure (a : α) : Refines G (Pure.pure a : Traced ε τ α) (.ok a) :=
  fun _ => ⟨rfl, [], (List.append_nil _).symm, by simp⟩

theorem fail (e : ε) : Refines G (fail e : Traced ε τ α) (.error e) :=
  fun _ => ⟨rfl, [], (List.append_nil _).symm, by simp⟩

theorem fail_of {e : ε} (h : r = .error e) : Refines G (Traced.fail e) r := h ▸ .fail e

theorem bind (hm : Refines G m r) (hf : ∀ a, r = .ok a → Refines G (f a) (g a)) :
    Refines G (m >>= f) (r >>= g) := by
  intro log
  obtain ⟨hresult, added, hlog, hadded⟩ := hm log
  rw [exec_bind]
  generalize m.exec log = out at hresult hlog ⊢
  obtain ⟨result, log'⟩ := out
  dsimp only at hresult hlog
  subst hresult hlog
  cases r with
  | error e => exact ⟨rfl, added, rfl, hadded⟩
  | ok a =>
    obtain ⟨hresult, added', hlog, hadded'⟩ := hf a rfl (log ++ added)
    refine ⟨hresult, added ++ added', ?_, List.forall_mem_append.mpr ⟨hadded, hadded'⟩⟩
    rw [← List.append_assoc]
    exact hlog

/-- A step that the plain computation does not have. -/
theorem step (hm : Refines G m (.ok a)) (hf : Refines G (f a) s) : Refines G (m >>= f) s := by
  have hbind : Refines G (m >>= f) ((.ok a : Except ε α) >>= fun _ => s) := by
    refine hm.bind ?_
    intro a' ha
    cases ha
    exact hf
  exact hbind

theorem ite {c : Prop} [Decidable c] {m' : Traced ε τ α} (ht : c → Refines G m r)
    (he : ¬ c → Refines G m' r') :
    Refines G (if c then m else m') (if c then r else r') := by
  by_cases hc : c
  · rw [if_pos hc, if_pos hc]
    exact ht hc
  · rw [if_neg hc, if_neg hc]
    exact he hc

theorem record {entry : Option α → τ} (hm : Refines G m r) (h : G (entry r.toOption)) :
    Refines G (record entry m) r := by
  intro log
  obtain ⟨hresult, added, hlog, hadded⟩ := hm log
  rw [exec_record, hresult, hlog]
  refine ⟨rfl, added ++ [entry r.toOption], ?_, ?_⟩
  · cases r <;> exact List.append_assoc _ _ _
  · exact List.forall_mem_append.mpr ⟨hadded, List.forall_mem_singleton.mpr h⟩

theorem ensure {c : Prop} [Decidable c] (h : c) :
    Refines G (ensure c : Traced ε τ Unit) (.ok ()) := by
  rw [Traced.ensure, if_pos h]
  exact pure ()

theorem addUsize {a b : Nat} (h : a + b ≤ usizeMax) :
    Refines G (addUsize a b : Traced ε τ Nat) (.ok (a + b)) :=
  (ensure h).step (pure _)

theorem subUsize {a b : Nat} (h : b ≤ a) :
    Refines G (subUsize a b : Traced ε τ Nat) (.ok (a - b)) :=
  (ensure h).step (pure _)

theorem index {l : List γ} {i : Nat} {x : γ} (h : l[i]? = some x) :
    Refines G (index l i : Traced ε τ γ) (.ok x) := by
  rw [Traced.index, h]
  exact pure x

theorem slice {l : List γ} {start stop : Nat} (h : start ≤ stop) (hle : stop ≤ l.length) :
    Refines G (slice l start stop : Traced ε τ (List γ))
      (.ok ((l.drop start).take (stop - start))) :=
  (ensure ⟨h, hle⟩).step (pure _)

end Refines

end Traced
