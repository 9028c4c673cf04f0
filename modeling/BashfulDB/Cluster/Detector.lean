import Mathlib.Algebra.Order.Field.Rat
import Mathlib.Algebra.Order.BigOperators.Group.List
import Mathlib.Tactic.GCongr
import Mathlib.Tactic.Positivity
import BashfulDB.Clock.VectorClock

/-! Failure detectors, and the phi accrual detector in exact arithmetic. -/
namespace BashfulDB.Cluster

open Clock

/-- What the engine uses of a failure detector whose states are `δ`. Instants are nanoseconds of
the monotonic clock. -/
structure Detector (δ : Type*) where
  heartbeat : δ → NodeId → Nat → δ
  isSuspect : δ → NodeId → Nat → Bool

/-- Only a heartbeat of a node lifts the suspicion on it. -/
structure Detector.Lasting {δ : Type*} (D : Detector δ) : Prop where
  lasts : ∀ {d node i j}, D.isSuspect d node i = true → i ≤ j → D.isSuspect d node j = true
  others : ∀ {d node sender i j}, node ≠ sender →
    D.isSuspect (D.heartbeat d sender i) node j = D.isSuspect d node j

def defaultPhiThreshold : ℚ := 8

def maxSamples : Nat := 100

def minMeanIntervalSeconds : ℚ := 1 / 1000

/-- `std::f64::consts::LOG10_E`, as the double it is. -/
def log10E : ℚ := 3911776933737095 / 9007199254740992

/-- `saturating_duration_since` in seconds. -/
def secondsSince (now earlier : Nat) : ℚ := (now - earlier : Nat) / 1000000000

structure NodeHeartbeatHistory where
  lastSeen : Option Nat
  interArrivals : List ℚ

namespace NodeHeartbeatHistory

def new : NodeHeartbeatHistory := ⟨none, []⟩

def recordHeartbeat (h : NodeHeartbeatHistory) (now : Nat) : NodeHeartbeatHistory :=
  match h.lastSeen with
  | some last =>
    let interArrivals :=
      h.interArrivals ++ [max (secondsSince now last) minMeanIntervalSeconds]
    ⟨some now, if interArrivals.length > maxSamples then interArrivals.tail else interArrivals⟩
  | none => ⟨some now, h.interArrivals⟩

def phi (h : NodeHeartbeatHistory) (now : Nat) : ℚ :=
  match h.lastSeen with
  | none => 0
  | some lastSeen =>
    if h.interArrivals.isEmpty then 0
    else
      let mean := h.interArrivals.sum / h.interArrivals.length
      secondsSince now lastSeen / max mean minMeanIntervalSeconds * log10E

/-- The longer a node is silent, the higher its phi. -/
theorem phi_le {i j : Nat} (h : NodeHeartbeatHistory) (hij : i ≤ j) : h.phi i ≤ h.phi j := by
  unfold phi
  cases h.lastSeen with
  | none => exact le_rfl
  | some last =>
    dsimp only
    split
    · exact le_rfl
    · have hsince : secondsSince i last ≤ secondsSince j last := by
        unfold secondsSince
        gcongr
      have hmean : 0 < max (h.interArrivals.sum / h.interArrivals.length) minMeanIntervalSeconds :=
        lt_max_of_lt_right (by unfold minMeanIntervalSeconds; positivity)
      have hlog : 0 ≤ log10E := by
        unfold log10E
        positivity
      gcongr

end NodeHeartbeatHistory

/-- The state behind its mutex. -/
structure PhiAccrualFailureDetector where
  threshold : ℚ
  nodes : OrdMap NodeId NodeHeartbeatHistory

namespace PhiAccrualFailureDetector

def withThreshold (threshold : ℚ) : PhiAccrualFailureDetector := ⟨threshold, OrdMap.empty⟩

def new : PhiAccrualFailureDetector := withThreshold defaultPhiThreshold

def heartbeat (d : PhiAccrualFailureDetector) (node : NodeId) (now : Nat) :
    PhiAccrualFailureDetector :=
  let history := (d.nodes.get node).getD .new
  { d with nodes := d.nodes.insert node (history.recordHeartbeat now) }

def phi (d : PhiAccrualFailureDetector) (node : NodeId) (now : Nat) : ℚ :=
  ((d.nodes.get node).map (·.phi now)).getD 0

def isSuspect (d : PhiAccrualFailureDetector) (node : NodeId) (now : Nat) : Bool :=
  d.phi node now ≥ d.threshold

end PhiAccrualFailureDetector

def phiAccrual : Detector PhiAccrualFailureDetector :=
  ⟨PhiAccrualFailureDetector.heartbeat, PhiAccrualFailureDetector.isSuspect⟩

theorem phiAccrual_lasting : phiAccrual.Lasting where
  lasts := by
    intro d node i j h hij
    have hphi : d.phi node i ≤ d.phi node j := by
      unfold PhiAccrualFailureDetector.phi
      cases d.nodes.get node with
      | none => exact le_rfl
      | some history => exact history.phi_le hij
    have hsuspect : d.threshold ≤ d.phi node i := of_decide_eq_true h
    exact decide_eq_true (hsuspect.trans hphi)
  others := by
    intro d node sender i j hne
    have hphi : (d.heartbeat sender i).phi node j = d.phi node j := by
      unfold PhiAccrualFailureDetector.phi PhiAccrualFailureDetector.heartbeat
      rw [OrdMap.get_insert_of_ne _ hne]
    change decide ((d.heartbeat sender i).phi node j ≥ d.threshold) = d.isSuspect node j
    rw [hphi]
    rfl

end BashfulDB.Cluster
