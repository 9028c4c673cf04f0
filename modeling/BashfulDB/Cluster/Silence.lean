import BashfulDB.Cluster.Accrual
import BashfulDB.Cluster.Detection

/-! What becomes of a member that falls silent, evaluation by evaluation. -/
namespace BashfulDB.Cluster

open Clock

/-- The state of a member that is suspected, so many evaluations later: only a Healthy one is made
Suspect. -/
def NodeState.unheard : NodeState → Nat → NodeState
  | .healthy, 0 => .healthy
  | .healthy, 1 => .suspect
  | .healthy, _ + 2 => .down
  | .suspect, 0 => .suspect
  | .suspect, _ + 1 => .down
  | state, _ => state

namespace NodeState

@[simp] theorem unheard_zero (state : NodeState) : state.unheard 0 = state := by
  cases state <;> rfl

theorem unheard_unheard_one (state : NodeState) (n : Nat) :
    (state.unheard 1).unheard n = state.unheard (n + 1) := by
  cases state <;> cases n <;> rfl

theorem unheard_unheard (state : NodeState) (m n : Nat) :
    (state.unheard m).unheard n = state.unheard (m + n) := by
  induction m generalizing state with
  | zero => rw [unheard_zero, Nat.zero_add]
  | succ m ih => rw [← unheard_unheard_one, ih, unheard_unheard_one, Nat.add_right_comm]

theorem unheard_one_of_illegal {state : NodeState} (hsuspect : state ≠ .suspect)
    (h : state.canTransitionTo .suspect = false) : state.unheard 1 = state := by
  cases state with
  | healthy => cases h
  | suspect => exact absurd rfl hsuspect
  | joining | bootstrapping | leaving | draining | down | rebuilding => rfl

end NodeState

namespace GossipNode

variable {n : GossipNode} {member : NodeId} {target state : NodeState}

/-- An illegal move is not made, and the error is dropped. -/
theorem nodeState_evaluate_of_illegal (hstate : n.membership.nodeState member = some state)
    (hne : state ≠ target) (hillegal : state.canTransitionTo target = false) (nowMs : UInt64) :
    (n.evaluate member target nowMs).2.membership.nodeState member = some state := by
  obtain ⟨r, hget, rfl⟩ := Option.map_eq_some_iff.mp hstate
  have hrefused (hlc : Hlc) : n.membership.transitionState member target hlc =
      .error (.invalidStateTransition r.state target) := by
    simp [ClusterMembership.transitionState, hget, hne, hillegal]
  unfold evaluate
  split
  · simpa only [hrefused] using hstate
  · exact hstate

end GossipNode

namespace Engine

variable {δ : Type*} {D : Detector δ} {e : Engine δ} {turns : NodeId → Reading} {x : NodeId}
  {state : NodeState} {steps : List EngineStep}

/-- The turn of a member that the detector suspects. -/
theorem nodeState_turn_of_suspected (hstate : e.nodeState x = some state)
    (hsuspect : D.isSuspect e.detector x (e.instant (turns x)) = true)
    (hok : (e.turn D turns x).1.isOk) :
    (e.turn D turns x).2.nodeState x = some (state.unheard 1) := by
  by_cases hdown : state = .down
  · subst hdown
    have hturn : e.turn D turns x = (.ok (), e) := by simp [turn, hstate, GossipNode.nextState]
    rw [hturn]
    exact hstate
  · by_cases hstill : state = .suspect
    · subst hstill
      rcases nodeState_turn_of_suspect D turns hstate with ⟨-, hafter⟩ | ⟨hfail, -⟩
      · exact hafter
      · rw [hfail] at hok
        cases hok
    · have hturn : e.turn D turns x =
          ((e.node.evaluate x .suspect (turns x).nowMs).1.map fun _ => (),
            { e with node := (e.node.evaluate x .suspect (turns x).nowMs).2 }) := by
        simp [turn, hstate, GossipNode.nextState, hdown, hstill, hsuspect]
      rw [hturn] at hok ⊢
      cases hlegal : state.canTransitionTo .suspect with
      | true =>
        obtain rfl : state = .healthy := by
          revert hlegal
          cases state <;> decide
        refine GossipNode.nodeState_evaluate_of_legal hstate hlegal ?_
        revert hok
        cases (e.node.evaluate x .suspect (turns x).nowMs).1 <;> exact id
      | false =>
        rw [NodeState.unheard_one_of_illegal hstill hlegal]
        exact GossipNode.nodeState_evaluate_of_illegal hstate hstill hlegal _

/-- The evaluation of a member that the detector suspects. -/
theorem nodeState_evaluation_of_suspected (hstate : e.nodeState x = some state)
    (hsuspect : D.isSuspect e.detector x (e.instant (turns x)) = true)
    (hpast : e.GetsPast D turns x) :
    (e.evaluateFailureDetector D turns).2.nodeState x = some (state.unheard 1) := by
  obtain ⟨before, after, hsplit, hok⟩ := hpast
  have hnodup : (before ++ x :: after).Nodup := hsplit ▸ OrdMap.nodup_keys _
  have hbefore : x ∉ before := fun hmem =>
    (List.disjoint_of_nodup_append hnodup) hmem List.mem_cons_self
  have hafter : x ∉ after := (List.nodup_cons.mp hnodup.of_append_right).1
  have hreached : (e.turnAll D turns before).2.nodeState x = some state :=
    (nodeState_turnAll_of_not_mem hbefore).trans hstate
  have hverdict : D.isSuspect (e.turnAll D turns before).2.detector x
      ((e.turnAll D turns before).2.instant (turns x)) = true := by
    rw [detector_turnAll, instant, now_turnAll]
    exact hsuspect
  change (e.turnAll D turns e.node.membership.allNodes).2.nodeState x = _
  rw [hsplit, turnAll_append]
  rw [turnAll_append] at hok
  generalize e.turnAll D turns before = first at hreached hverdict hok ⊢
  obtain ⟨fault | _, e'⟩ := first
  · cases hok
  · have hturn := nodeState_turn_of_suspected hreached hverdict
    simp only [turnAll] at hok ⊢
    generalize e'.turn D turns x = own at hturn hok ⊢
    obtain ⟨fault | _, e''⟩ := own
    · cases hok
    · exact (nodeState_turnAll_of_not_mem hafter).trans (hturn rfl)

/-- Nothing is heard of `x`: no message comes from it, or moves it. The evaluations come at or after
`since`, and their clock does not fail before the turn of `x`. -/
def Quiet (D : Detector δ) (x : NodeId) (since : Nat) (e : Engine δ) : EngineStep → Prop
  | .gossipTick _ => True
  | .handleIncoming sender message received replyMs =>
    x ≠ sender ∧ (e.handleIncoming D sender message received replyMs).nodeState x = e.nodeState x
  | .evaluateFailureDetector turns => since ≤ e.instant (turns x) ∧ e.GetsPast D turns x

def evaluations (steps : List EngineStep) : Nat :=
  steps.countP fun
    | .evaluateFailureDetector _ => true
    | _ => false

/-- The detector suspects `x`, from the instant `since` on. -/
def Suspects (D : Detector δ) (x : NodeId) (since : Nat) (e : Engine δ) : Prop :=
  ∀ now, since ≤ now → D.isSuspect e.detector x now = true

section

variable {since : Nat} (hothers : ∀ d sender i j, x ≠ sender →
  D.isSuspect (D.heartbeat d sender i) x j = D.isSuspect d x j)

include hothers

theorem Quiet.next {step : EngineStep} (hquiet : Quiet D x since e step)
    (hsuspects : Suspects D x since e) (hstate : e.nodeState x = some state) :
    (e.next D step).nodeState x = some (state.unheard (evaluations [step])) ∧
      Suspects D x since (e.next D step) := by
  cases step with
  | gossipTick nowMs =>
    obtain ⟨hstates, hdetector, -⟩ := gossipTick_frame e nowMs
    refine ⟨((hstates x).trans hstate).trans (by simp [evaluations]), fun now hle => ?_⟩
    rw [Engine.next, hdetector]
    exact hsuspects now hle
  | handleIncoming sender message received replyMs =>
    obtain ⟨hne, hsame⟩ := hquiet
    obtain ⟨hdetector, -⟩ :=
      detector_handleIncoming (e := e) (D := D) sender message received replyMs
    refine ⟨(hsame.trans hstate).trans (by simp [evaluations]), fun now hle => ?_⟩
    rw [Engine.next, hdetector, hothers _ _ _ _ hne]
    exact hsuspects now hle
  | evaluateFailureDetector turns =>
    obtain ⟨hlate, hpast⟩ := hquiet
    refine ⟨nodeState_evaluation_of_suspected hstate (hsuspects _ hlate) hpast, fun now hle => ?_⟩
    have hdetector : (e.next D (.evaluateFailureDetector turns)).detector = e.detector :=
      detector_turnAll
    rw [hdetector]
    exact hsuspects now hle

/-- While nothing is heard of a member that is suspected, each evaluation moves it on. -/
theorem nodeState_of_quiet (hquiet : Throughout (Engine.next D) (Quiet D x since) e steps)
    (hsuspects : Suspects D x since e) (hstate : e.nodeState x = some state) :
    (steps.foldl (Engine.next D) e).nodeState x = some (state.unheard (evaluations steps)) := by
  induction steps generalizing e state with
  | nil => simpa [evaluations] using hstate
  | cons step steps ih =>
    obtain ⟨hnext, hsuspects'⟩ := Quiet.next hothers hquiet.1 hsuspects hstate
    have hcount : evaluations (step :: steps) = evaluations [step] + evaluations steps := by
      rw [evaluations, ← List.singleton_append, List.countP_append]
      rfl
    rw [List.foldl_cons, ih hquiet.2 hsuspects' hnext, NodeState.unheard_unheard, hcount]

end

end Engine

namespace F64

open Engine

def phiAccrual : Detector DetectorState := ⟨DetectorState.heartbeat, DetectorState.isSuspect⟩

variable {e : Engine DetectorState} {x : NodeId}

theorem isSuspect_heartbeat_of_ne (d : DetectorState) (sender : NodeId) (i j : Nat)
    (h : x ≠ sender) :
    phiAccrual.isSuspect (phiAccrual.heartbeat d sender i) x j = phiAccrual.isSuspect d x j := by
  have hphi : (d.heartbeat sender i).phi x j = d.phi x j := by
    rw [DetectorState.phi, DetectorState.heartbeat, OrdMap.get_insert_of_ne _ h]
    rfl
  exact congrArg d.threshold.le hphi

/-- The call that a step makes of its detector. -/
def heartbeatOf (e : Engine DetectorState) : EngineStep → List Call
  | .handleIncoming sender _ received _ => [.heartbeat sender (e.instant received)]
  | _ => []

/-- The heartbeats that a run of the engine gives its detector. -/
def heartbeats (e : Engine DetectorState) : List EngineStep → List Call
  | [] => []
  | step :: steps => heartbeatOf e step ++ heartbeats (e.next phiAccrual step) steps

theorem detector_next (e : Engine DetectorState) (step : EngineStep) :
    (e.next phiAccrual step).detector =
      (heartbeatOf e step).foldl DetectorState.next e.detector := by
  cases step with
  | gossipTick nowMs => exact (gossipTick_frame e nowMs).2.1
  | handleIncoming sender message received replyMs =>
    exact (detector_handleIncoming sender message received replyMs).1
  | evaluateFailureDetector turns => exact detector_turnAll

theorem detector_foldl (e : Engine DetectorState) (steps : List EngineStep) :
    (steps.foldl (Engine.next phiAccrual) e).detector =
      (heartbeats e steps).foldl DetectorState.next e.detector := by
  induction steps generalizing e with
  | nil => rfl
  | cons step steps ih => rw [List.foldl_cons, ih, heartbeats, List.foldl_append, detector_next]

/-- The engine never sets the threshold. -/
theorem threshold_heartbeats (d : DetectorState) (e : Engine DetectorState)
    (steps : List EngineStep) :
    ((heartbeats e steps).foldl DetectorState.next d).threshold = d.threshold := by
  induction steps generalizing d e with
  | nil => rfl
  | cons step steps ih =>
    rw [heartbeats, List.foldl_append, ih]
    cases step <;> rfl

/-- Once a member has been silent for as many mean gaps as the threshold asks for, each evaluation
moves it on: a Healthy one is Down after two. A member in any other state than Healthy and Suspect
stays as it is, however long it is silent. -/
theorem silent_member_goes_down (before steps : List EngineStep) (last since : Nat)
    (state : NodeState) {threshold : ℚ} (hnew : e.detector = .withThreshold (.finite threshold))
    (hinstants : ∀ t ∈ beats x (heartbeats e before), t < 2 ^ 94)
    (hlast : (beats x (heartbeats e before)).getLast? = some last)
    (htwo : 2 ≤ (beats x (heartbeats e before)).length)
    (hsilent : threshold * meanGap (beats x (heartbeats e before)) * (1 + 1 / 2 ^ 44) ≤
      (since - last : Nat) * log10E)
    (hstate : (before.foldl (Engine.next phiAccrual) e).nodeState x = some state)
    (hquiet : Throughout (Engine.next phiAccrual) (Quiet phiAccrual x since)
      (before.foldl (Engine.next phiAccrual) e) steps) :
    ((before ++ steps).foldl (Engine.next phiAccrual) e).nodeState x =
      some (state.unheard (evaluations steps)) := by
  have hthreshold : (DetectorState.run (.finite threshold) (heartbeats e before)).threshold =
      .finite threshold := threshold_heartbeats _ e before
  rw [List.foldl_append]
  refine nodeState_of_quiet isSuspect_heartbeat_of_ne hquiet (fun now hlate => ?_) hstate
  rw [detector_foldl, hnew]
  refine isSuspect_of_silent hthreshold hinstants hlast htwo (hsilent.trans ?_)
  have hlog : 0 ≤ log10E := by norm_num [log10E]
  gcongr

def listener : Engine DetectorState := ⟨twoNodes ⟨⟨1⟩⟩, .new, 0⟩

/-- Two messages of the other node, a second apart. -/
def hearsTwice : List EngineStep :=
  [.handleIncoming ⟨⟨2⟩⟩ ⟨⟨⟨2⟩⟩, Hlc.zero, 0, []⟩ ⟨1, 0⟩ 2,
    .handleIncoming ⟨⟨2⟩⟩ ⟨⟨⟨2⟩⟩, Hlc.zero, 0, []⟩ ⟨3, 1000000000⟩ 4]

theorem silent_member_goes_down_twice :
    ((hearsTwice ++ [evaluation 20000 20, evaluation 21000 1]).foldl (Engine.next phiAccrual)
      listener).nodeState ⟨⟨2⟩⟩ = some .down := by
  have hbeats : beats ⟨⟨2⟩⟩ (heartbeats listener hearsTwice) = [0, 1000000000] := by
    decide +kernel
  refine silent_member_goes_down hearsTwice _ 1000000000 21000000000 .healthy rfl ?_ ?_ ?_ ?_ ?_ ?_
  · rw [hbeats]
    decide
  · rw [hbeats]
    rfl
  · rw [hbeats]
    decide
  · rw [hbeats]
    norm_num [meanGap, recentGaps, gaps, maxSamples, log10E]
  · decide +kernel
  · refine ⟨⟨?_, [⟨⟨1⟩⟩], [], ?_, ?_⟩, ⟨?_, [⟨⟨1⟩⟩], [], ?_, ?_⟩, trivial⟩
    all_goals decide +kernel

end F64

end BashfulDB.Cluster
