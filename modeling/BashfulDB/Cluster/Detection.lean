import BashfulDB.Cluster.Detector
import BashfulDB.Cluster.Gossip

/-! The failure detection of the gossip engine, and when a member that it declares down is one
that its detector suspects. -/
namespace BashfulDB.Cluster

open Clock

/-- What the clocks show: the wall clock, and the monotonic clock beyond the last step. -/
structure Reading where
  nowMs : UInt64
  elapsed : Nat

/-- `now` is the latest instant that the engine has read. -/
structure Engine (δ : Type*) where
  node : GossipNode
  detector : δ
  now : Nat

/-- The steps of the engine's task. An evaluation reads the clocks at each member's turn. -/
inductive EngineStep
  | gossipTick (nowMs : UInt64)
  | handleIncoming (sender : NodeId) (message : GossipMessage) (received : Reading)
      (replyMs : UInt64)
  | evaluateFailureDetector (turns : NodeId → Reading)

namespace Engine

variable {δ : Type*}

def nodeState (e : Engine δ) (member : NodeId) : Option NodeState :=
  e.node.membership.nodeState member

/-- The instant of a reading. -/
def instant (e : Engine δ) (reading : Reading) : Nat := e.now + reading.elapsed

def gossipTick (e : Engine δ) (nowMs : UInt64) : Engine δ :=
  if e.node.peers.isEmpty then e
  else { e with node := (e.node.announce nowMs).2.1 }

variable (D : Detector δ)

/-- The heartbeat is taken before anything can fail; the reply is sent at once. -/
def handleIncoming (e : Engine δ) (sender : NodeId) (message : GossipMessage)
    (received : Reading) (replyMs : UInt64) : Engine δ :=
  let now := e.instant received
  let detector := D.heartbeat e.detector sender now
  match e.node.handleIncoming sender message received.nowMs with
  | (.ok _, node) =>
    ⟨(GossipNode.announce { node with replies := e.node.replies } replyMs).2.1, detector, now⟩
  | (.error _, node) => ⟨node, detector, now⟩

/-- A turn of the loop of `evaluate_failure_detector`. -/
def turn (e : Engine δ) (turns : NodeId → Reading) (member : NodeId) :
    Except Fault Unit × Engine δ :=
  match e.nodeState member with
  | none => (.ok (), e)
  | some state =>
    match GossipNode.nextState state
        (D.isSuspect e.detector member (e.instant (turns member))) with
    | none => (.ok (), e)
    | some target =>
      let (answer, node) := e.node.evaluate member target (turns member).nowMs
      (answer.map fun _ => (), { e with node := node })

/-- The loop; a clock that fails ends it. -/
def turnAll (e : Engine δ) (turns : NodeId → Reading) :
    List NodeId → Except Fault Unit × Engine δ
  | [] => (.ok (), e)
  | member :: rest =>
    match e.turn D turns member with
    | (.ok _, e) => turnAll e turns rest
    | (.error fault, e) => (.error fault, e)

def evaluateFailureDetector (e : Engine δ) (turns : NodeId → Reading) :
    Except Fault Unit × Engine δ :=
  let nodes := e.node.membership.allNodes
  let (answer, e) := e.turnAll D turns nodes
  (answer, { e with now := e.now + (nodes.map fun n => (turns n).elapsed).foldr max 0 })

def next (e : Engine δ) : EngineStep → Engine δ
  | .gossipTick nowMs => e.gossipTick nowMs
  | .handleIncoming sender message received replyMs =>
    e.handleIncoming D sender message received replyMs
  | .evaluateFailureDetector turns => (e.evaluateFailureDetector D turns).2

end Engine

namespace ClusterMembership

variable {m m' : ClusterMembership} {member x : NodeId} {target state : NodeState} {hlc : Hlc}

/-- A transition that is taken moves its member and no other. -/
theorem nodeState_transitionState (h : m.transitionState member target hlc = .ok m') :
    m'.nodeState x = if x = member then some target else m.nodeState x := by
  unfold transitionState at h
  cases hget : m.members.get member with
  | none =>
    rw [hget] at h
    cases h
  | some r =>
    rw [hget] at h
    dsimp only at h
    split at h
    · cases h
    · cases h
      simp only [nodeState, OrdMap.get_insert]
      split <;> rfl

theorem transitionState_of_legal (hstate : m.nodeState member = some state)
    (hlegal : state.canTransitionTo target = true) (hlc : Hlc) :
    ∃ m', m.transitionState member target hlc = .ok m' := by
  obtain ⟨r, hget, rfl⟩ := Option.map_eq_some_iff.mp hstate
  unfold transitionState
  rw [hget]
  exact ⟨_, if_neg fun h => by simp [hlegal] at h⟩

end ClusterMembership

namespace GossipNode

variable {n : GossipNode} {member x : NodeId} {target state : NodeState} {nowMs : UInt64}

@[simp] theorem membership_announce (n : GossipNode) (nowMs : UInt64) :
    (n.announce nowMs).2.1.membership = n.membership := by
  unfold announce
  split <;> rfl

/-- What an evaluation of a member does to the states: nothing, or the move it is asked for. -/
theorem nodeState_evaluate (n : GossipNode) (member : NodeId) (target : NodeState)
    (nowMs : UInt64) :
    (∀ x, (n.evaluate member target nowMs).2.membership.nodeState x = n.membership.nodeState x) ∨
      (n.evaluate member target nowMs).1.isOk ∧
        ∀ x, (n.evaluate member target nowMs).2.membership.nodeState x =
          if x = member then some target else n.membership.nodeState x := by
  unfold evaluate
  split
  · split
    · next hmoved =>
      exact Or.inr ⟨rfl, fun x => ClusterMembership.nodeState_transitionState hmoved⟩
    · exact Or.inl fun x => rfl
  · exact Or.inl fun x => rfl

/-- A legal move is made unless the clock fails. -/
theorem nodeState_evaluate_of_legal (hstate : n.membership.nodeState member = some state)
    (hlegal : state.canTransitionTo target = true)
    (hok : (n.evaluate member target nowMs).1.isOk) :
    (n.evaluate member target nowMs).2.membership.nodeState member = some target := by
  unfold evaluate at hok ⊢
  split
  · next hlc clock hcall =>
    obtain ⟨m', hmoved⟩ := ClusterMembership.transitionState_of_legal hstate hlegal hlc
    simp only [hmoved]
    rw [ClusterMembership.nodeState_transitionState hmoved, if_pos rfl]
  · next hcall =>
    simp [hcall, Except.isOk, Except.toBool] at hok

theorem nextState_suspect {isSuspect : Bool} (h : nextState state isSuspect = some .suspect) :
    isSuspect = true := by
  unfold nextState at h
  cases isSuspect with
  | true => rfl
  | false =>
    by_cases hdown : state = .down
    · simp [hdown] at h
    · by_cases hsuspect : state = .suspect <;> simp [hsuspect, hdown] at h

end GossipNode

namespace Engine

variable {δ : Type*} {D : Detector δ} {e : Engine δ} {turns : NodeId → Reading}
  {member x : NodeId} {members before after : List NodeId}

@[simp] theorem detector_turn : (e.turn D turns member).2.detector = e.detector := by
  unfold turn
  split
  · rfl
  · split <;> rfl

@[simp] theorem now_turn : (e.turn D turns member).2.now = e.now := by
  unfold turn
  split
  · rfl
  · split <;> rfl

theorem nodeState_turn_of_ne (h : x ≠ member) :
    (e.turn D turns member).2.nodeState x = e.nodeState x := by
  unfold turn
  split
  · rfl
  · split
    · rfl
    · next target _ =>
      rcases GossipNode.nodeState_evaluate e.node member target (turns member).nowMs with
        hsame | ⟨-, hmoved⟩
      · exact hsame x
      · exact (hmoved x).trans (if_neg h)

/-- A turn makes its member Suspect only on the word of the detector. -/
theorem suspect_of_turn (h : (e.turn D turns member).2.nodeState member = some .suspect) :
    e.nodeState member = some .suspect ∨
      D.isSuspect e.detector member (e.instant (turns member)) = true := by
  unfold turn at h
  split at h
  · exact Or.inl h
  · split at h
    · exact Or.inl h
    · next target hnext =>
      rcases GossipNode.nodeState_evaluate e.node member target (turns member).nowMs with
        hsame | ⟨-, hmoved⟩
      · exact Or.inl ((hsame member).symm.trans h)
      · have htarget : some target = some NodeState.suspect :=
          ((if_pos rfl).symm.trans (hmoved member).symm).trans h
        obtain rfl := Option.some.inj htarget
        exact Or.inr (GossipNode.nextState_suspect hnext)

variable (D turns) in
/-- A member that is Suspect at its turn is Down after it, if the clock works: the detector is not
asked. -/
theorem nodeState_turn_of_suspect (h : e.nodeState member = some .suspect) :
    (e.turn D turns member).1.isOk = true ∧
        (e.turn D turns member).2.nodeState member = some .down ∨
      (e.turn D turns member).1.isOk = false ∧
        (e.turn D turns member).2.nodeState member = some .suspect := by
  have hturn : e.turn D turns member =
      ((e.node.evaluate member .down (turns member).nowMs).1.map fun _ => (),
        { e with node := (e.node.evaluate member .down (turns member).nowMs).2 }) := by
    simp [turn, h, GossipNode.nextState]
  rw [hturn]
  rcases hok : (e.node.evaluate member .down (turns member).nowMs).1 with fault | hlc
  · right
    rcases GossipNode.nodeState_evaluate e.node member .down (turns member).nowMs with
      hsame | ⟨hok', -⟩
    · exact ⟨rfl, (hsame member).trans h⟩
    · rw [hok] at hok'
      cases hok'
  · refine Or.inl ⟨rfl, GossipNode.nodeState_evaluate_of_legal h (by decide) ?_⟩
    rw [hok]
    rfl

theorem turnAll_append : e.turnAll D turns (before ++ after) =
    match e.turnAll D turns before with
    | (.ok _, e) => e.turnAll D turns after
    | (.error fault, e) => (.error fault, e) := by
  induction before generalizing e with
  | nil => rfl
  | cons first before ih =>
    simp only [List.cons_append, turnAll]
    rcases e.turn D turns first with ⟨fault | _, e'⟩
    · rfl
    · exact ih

/-- What no turn changes, the loop does not change. -/
theorem turnAll_induction {I : Engine δ → Prop}
    (hturn : ∀ e member, member ∈ members → I e → I (e.turn D turns member).2) (h : I e) :
    I (e.turnAll D turns members).2 := by
  induction members generalizing e with
  | nil => exact h
  | cons first members ih =>
    have hfirst := hturn e first List.mem_cons_self h
    rw [turnAll]
    generalize e.turn D turns first = next at hfirst ⊢
    obtain ⟨fault | _, e'⟩ := next
    · exact hfirst
    · exact ih (fun e member hmem => hturn e member (List.mem_cons_of_mem _ hmem)) hfirst

@[simp] theorem detector_turnAll : (e.turnAll D turns members).2.detector = e.detector :=
  turnAll_induction (I := fun e' => e'.detector = e.detector)
    (fun _ _ _ h => detector_turn.trans h) rfl

@[simp] theorem now_turnAll : (e.turnAll D turns members).2.now = e.now :=
  turnAll_induction (I := fun e' => e'.now = e.now) (fun _ _ _ h => now_turn.trans h) rfl

theorem nodeState_turnAll_of_not_mem (h : x ∉ members) :
    (e.turnAll D turns members).2.nodeState x = e.nodeState x := by
  refine turnAll_induction (I := fun e' => e'.nodeState x = e.nodeState x) ?_ rfl
  intro e' member hmem hstate
  have hne : x ≠ member := fun heq => h (heq ▸ hmem)
  exact (nodeState_turn_of_ne hne).trans hstate

theorem suspect_of_turnAll (h : (e.turnAll D turns members).2.nodeState x = some .suspect) :
    e.nodeState x = some .suspect ∨ D.isSuspect e.detector x (e.instant (turns x)) = true := by
  refine (turnAll_induction (I := fun e' => e'.detector = e.detector ∧ e'.now = e.now ∧
    (e'.nodeState x = some .suspect → e.nodeState x = some .suspect ∨
      D.isSuspect e.detector x (e.instant (turns x)) = true)) ?_ ⟨rfl, rfl, Or.inl⟩).2.2 h
  rintro e' member - ⟨hdetector, hnow, hsuspect⟩
  refine ⟨detector_turn.trans hdetector, now_turn.trans hnow, fun hafter => ?_⟩
  by_cases hmember : x = member
  · subst hmember
    rcases suspect_of_turn hafter with hbefore | hverdict
    · exact hsuspect hbefore
    · rw [hdetector, instant, hnow] at hverdict
      exact Or.inr hverdict
  · exact hsuspect ((nodeState_turn_of_ne hmember).symm.trans hafter)

/-- A member that the loop finds Suspect is Down in the end if the loop gets past its turn. -/
theorem nodeState_turnAll_of_suspect (hnodup : (before ++ x :: after).Nodup)
    (h : e.nodeState x = some .suspect) :
    (e.turnAll D turns (before ++ [x])).1.isOk = true ∧
        (e.turnAll D turns (before ++ x :: after)).2.nodeState x = some .down ∨
      (e.turnAll D turns (before ++ [x])).1.isOk = false ∧
        (e.turnAll D turns (before ++ x :: after)).2.nodeState x = some .suspect := by
  have hbefore : x ∉ before := fun hmem =>
    (List.disjoint_of_nodup_append hnodup) hmem List.mem_cons_self
  have hafter : x ∉ after := (List.nodup_cons.mp hnodup.of_append_right).1
  have hstate : (e.turnAll D turns before).2.nodeState x = some .suspect :=
    (nodeState_turnAll_of_not_mem hbefore).trans h
  rw [turnAll_append, turnAll_append]
  generalize e.turnAll D turns before = first at hstate ⊢
  obtain ⟨fault | _, e'⟩ := first
  · exact Or.inr ⟨rfl, hstate⟩
  · have hturn := nodeState_turn_of_suspect D turns hstate
    simp only [turnAll]
    generalize e'.turn D turns x = own at hturn ⊢
    obtain ⟨fault | _, e''⟩ := own
    · exact hturn
    · rcases hturn with ⟨-, hdown⟩ | ⟨hfail, -⟩
      · exact Or.inl ⟨rfl, (nodeState_turnAll_of_not_mem hafter).trans hdown⟩
      · cases hfail

/-- The evaluation gets past a member's turn: no clock call fails up to then. -/
def GetsPast (D : Detector δ) (e : Engine δ) (turns : NodeId → Reading) (x : NodeId) : Prop :=
  ∃ before after, e.node.membership.allNodes = before ++ x :: after ∧
    (e.turnAll D turns (before ++ [x])).1.isOk

/-- Whatever the detector says, an evaluation declares those Suspect members down that it gets
past. -/
theorem down_iff_getsPast (h : e.nodeState x = some .suspect) :
    (e.evaluateFailureDetector D turns).2.nodeState x = some .down ↔ e.GetsPast D turns x := by
  have hmem : x ∈ e.node.membership.allNodes := by
    obtain ⟨r, hget, -⟩ := Option.map_eq_some_iff.mp h
    exact OrdMap.mem_keys.mpr (Option.isSome_of_mem hget)
  have hnodup : e.node.membership.allNodes.Nodup := OrdMap.nodup_keys _
  change (e.turnAll D turns e.node.membership.allNodes).2.nodeState x = some .down ↔ _
  constructor
  · intro hdown
    obtain ⟨before, after, hsplit⟩ := List.append_of_mem hmem
    rw [hsplit] at hdown hnodup
    rcases nodeState_turnAll_of_suspect hnodup h with ⟨hok, -⟩ | ⟨-, hsuspect⟩
    · exact ⟨before, after, hsplit, hok⟩
    · rw [hsuspect] at hdown
      cases hdown
  · rintro ⟨before, after, hsplit, hok⟩
    rw [hsplit] at hnodup ⊢
    rcases nodeState_turnAll_of_suspect hnodup h with ⟨-, hdown⟩ | ⟨hfail, -⟩
    · exact hdown
    · rw [hfail] at hok
      cases hok

/-- A step moves a member from Suspect to Down only if the detector suspects it then. -/
def DownOnlyIfSuspected (D : Detector δ) (e : Engine δ) : EngineStep → Prop
  | .evaluateFailureDetector turns =>
    ∀ x, e.nodeState x = some .suspect →
      (e.evaluateFailureDetector D turns).2.nodeState x = some .down →
      D.isSuspect e.detector x (e.instant (turns x)) = true
  | _ => True

/-- An evaluation finds no member Suspect that has recovered. -/
def NoneRecovered (D : Detector δ) (e : Engine δ) : EngineStep → Prop
  | .evaluateFailureDetector turns =>
    ∀ x, e.nodeState x = some .suspect → e.GetsPast D turns x →
      D.isSuspect e.detector x (e.instant (turns x)) = true
  | _ => True

/-- No message comes from a member while it is Suspect, and none makes a member Suspect that the
detector does not suspect. -/
def Steady (D : Detector δ) (e : Engine δ) : EngineStep → Prop
  | .handleIncoming sender message received replyMs =>
    let e' := e.handleIncoming D sender message received replyMs
    e.nodeState sender ≠ some .suspect ∧ ∀ x, e'.nodeState x = some .suspect →
      e.nodeState x = some .suspect ∨ D.isSuspect e'.detector x e'.now = true
  | _ => True

/-- Every Suspect member is one that the detector suspects. -/
def Backed (D : Detector δ) (e : Engine δ) : Prop :=
  ∀ x, e.nodeState x = some .suspect → D.isSuspect e.detector x e.now = true

theorem downOnlyIfSuspected_iff (D : Detector δ) (e : Engine δ) (step : EngineStep) :
    DownOnlyIfSuspected D e step ↔ NoneRecovered D e step := by
  cases step with
  | evaluateFailureDetector turns =>
    refine forall_congr' fun x => ?_
    constructor
    · intro h hsuspect hpast
      exact h hsuspect ((down_iff_getsPast hsuspect).mpr hpast)
    · intro h hsuspect hdown
      exact h hsuspect ((down_iff_getsPast hsuspect).mp hdown)
  | gossipTick | handleIncoming => exact Iff.rfl

theorem Backed.downOnlyIfSuspected (hD : D.Lasting) (h : e.Backed D) (step : EngineStep) :
    DownOnlyIfSuspected D e step := by
  cases step with
  | evaluateFailureDetector turns =>
    intro x hsuspect _
    exact hD.lasts (h x hsuspect) (Nat.le_add_right _ _)
  | gossipTick | handleIncoming => trivial

theorem gossipTick_frame (e : Engine δ) (nowMs : UInt64) :
    (∀ x, (e.gossipTick nowMs).nodeState x = e.nodeState x) ∧
      (e.gossipTick nowMs).detector = e.detector ∧ (e.gossipTick nowMs).now = e.now := by
  unfold gossipTick
  split
  · exact ⟨fun _ => rfl, rfl, rfl⟩
  · exact ⟨fun _ => by simp [nodeState], rfl, rfl⟩

theorem detector_handleIncoming (sender : NodeId) (message : GossipMessage) (received : Reading)
    (replyMs : UInt64) :
    (e.handleIncoming D sender message received replyMs).detector =
        D.heartbeat e.detector sender (e.instant received) ∧
      (e.handleIncoming D sender message received replyMs).now = e.instant received := by
  unfold handleIncoming
  dsimp only
  split <;> exact ⟨rfl, rfl⟩

theorem elapsed_le_foldr (h : x ∈ members) :
    (turns x).elapsed ≤ (members.map fun n => (turns n).elapsed).foldr max 0 := by
  induction members with
  | nil => cases h
  | cons first members ih =>
    rcases List.mem_cons.mp h with rfl | hmem
    · exact le_max_left _ _
    · exact (ih hmem).trans (le_max_right _ _)

theorem Backed.next (hD : D.Lasting) (h : e.Backed D) {step : EngineStep}
    (hsteady : Steady D e step) : (e.next D step).Backed D := by
  cases step with
  | gossipTick nowMs =>
    obtain ⟨hstates, hdetector, hnow⟩ := gossipTick_frame e nowMs
    intro x hsuspect
    change D.isSuspect (e.gossipTick nowMs).detector x (e.gossipTick nowMs).now = true
    rw [hdetector, hnow]
    exact h x ((hstates x).symm.trans hsuspect)
  | handleIncoming sender message received replyMs =>
    intro x hsuspect
    rcases hsteady.2 x hsuspect with hbefore | hverdict
    · have hne : x ≠ sender := fun heq => hsteady.1 (heq ▸ hbefore)
      obtain ⟨hdetector, hnow⟩ :=
        detector_handleIncoming (e := e) (D := D) sender message received replyMs
      change D.isSuspect (e.handleIncoming D sender message received replyMs).detector x
        (e.handleIncoming D sender message received replyMs).now = true
      rw [hdetector, hnow, hD.others hne]
      exact hD.lasts (h x hbefore) (Nat.le_add_right _ _)
    · exact hverdict
  | evaluateFailureDetector turns =>
    intro x hsuspect
    let nodes := e.node.membership.allNodes
    change (e.turnAll D turns nodes).2.nodeState x = some .suspect at hsuspect
    change D.isSuspect (e.turnAll D turns nodes).2.detector x
      ((e.turnAll D turns nodes).2.now + (nodes.map fun n => (turns n).elapsed).foldr max 0) = true
    rw [detector_turnAll, now_turnAll]
    rcases suspect_of_turnAll hsuspect with hbefore | hverdict
    · exact hD.lasts (h x hbefore) (Nat.le_add_right _ _)
    · by_cases hmem : x ∈ nodes
      · exact hD.lasts hverdict (Nat.add_le_add_left (elapsed_le_foldr hmem) _)
      · rw [nodeState_turnAll_of_not_mem hmem] at hsuspect
        exact hD.lasts (h x hsuspect) (Nat.le_add_right _ _)

/-- Along every run, members are declared down on the word of the detector if and only if no
evaluation finds one Suspect that has recovered. It is so when only a heartbeat lifts a suspicion,
and a member that is Suspect is not heard from. -/
theorem down_only_if_suspected (D : Detector δ) (e : Engine δ) (steps : List EngineStep) :
    (Throughout (Engine.next D) (DownOnlyIfSuspected D) e steps ↔
        Throughout (Engine.next D) (NoneRecovered D) e steps) ∧
      (D.Lasting → e.Backed D → Throughout (Engine.next D) (Steady D) e steps →
        Throughout (Engine.next D) (DownOnlyIfSuspected D) e steps) := by
  refine ⟨Throughout.congr (downOnlyIfSuspected_iff D), fun hD hbacked hsteady => ?_⟩
  exact hsteady.of_invariant (fun e step hstep h => h.next hD hstep)
    (fun e step h => h.downOnlyIfSuspected hD step) hbacked

/-- A node that has heard twice from another, a second apart. -/
def watcher : Engine PhiAccrualFailureDetector where
  node := twoNodes ⟨⟨1⟩⟩
  detector := (PhiAccrualFailureDetector.new.heartbeat ⟨⟨2⟩⟩ 0).heartbeat ⟨⟨2⟩⟩ 1000000000
  now := 1000000000

/-- All turns of an evaluation, so many seconds later. -/
def evaluation (nowMs : UInt64) (seconds : Nat) : EngineStep :=
  .evaluateFailureDetector fun _ => ⟨nowMs, seconds * 1000000000⟩

theorem down_only_if_suspected_silence :
    Throughout (Engine.next phiAccrual) (DownOnlyIfSuspected phiAccrual) watcher
        [evaluation 7 20, evaluation 8 1] ∧
      (([evaluation 7 20, evaluation 8 1].foldl (Engine.next phiAccrual) watcher).nodeState
        ⟨⟨2⟩⟩ = some .down) := by
  refine ⟨(down_only_if_suspected _ _ _).2 phiAccrual_lasting ?_ ⟨trivial, trivial, trivial⟩, ?_⟩
  · intro x hsuspect
    obtain ⟨r, hget, hstate⟩ := Option.map_eq_some_iff.mp hsuspect
    have hentry : (x, r) ∈ [((⟨⟨1⟩⟩ : NodeId), (⟨.healthy, 0, Hlc.zero⟩ : MemberRecord)),
        (⟨⟨2⟩⟩, ⟨.healthy, 0, Hlc.zero⟩)] := OrdMap.get_eq_some_iff.mp hget
    have hhealthy : r.state = .healthy := by
      rcases List.mem_pair.mp hentry with heq | heq <;> rw [(Prod.mk.inj heq).2]
    rw [hhealthy] at hstate
    cases hstate
  · decide +kernel

/-- The member is heard from again after it has been suspected, and declared down a second later. -/
theorem down_after_recovery :
    ¬ Throughout (Engine.next phiAccrual) (DownOnlyIfSuspected phiAccrual) watcher
      [evaluation 7 20,
        .handleIncoming ⟨⟨2⟩⟩ ⟨⟨⟨2⟩⟩, Hlc.zero, 0, []⟩ ⟨8, 1000000000⟩ 8,
        evaluation 9 1] := by
  rintro ⟨-, -, hdown, -⟩
  have hsuspect := hdown ⟨⟨2⟩⟩ (by decide +kernel) (by decide +kernel)
  revert hsuspect
  decide +kernel

end Engine

end BashfulDB.Cluster
