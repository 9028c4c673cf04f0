import Mathlib.Logic.Function.Basic
import Mathlib.Logic.Relation
import BashfulDB.Clock.WallClock
import BashfulDB.Cluster.Membership
import BashfulDB.Library.Steps

/-! Gossiping nodes over an unreliable network, and the clock condition across them. -/
namespace BashfulDB.Cluster

open Clock

structure GossipMessage where
  sender : NodeId
  hlc : Hlc
  schemaVersion : UInt64
  members : List MemberDigest

/-- The engine's state at one node; `replies` are the senders still to be answered. -/
structure GossipNode where
  membership : ClusterMembership
  clock : WallClock
  replies : List NodeId

namespace GossipNode

def peers (n : GossipNode) : List NodeId :=
  n.membership.allNodes.filter (fun node => node ≠ n.membership.localNode)

/-- What `gossip_tick`, its target chosen, and `reply_with_local_digest` have in common: tick,
and on success build the message to send. -/
def announce (n : GossipNode) (nowMs : UInt64) :
    Except Fault Hlc × GossipNode × Option GossipMessage :=
  match (WallClock.tick nowMs).call n.clock with
  | (.ok hlc, clock) =>
    (.ok hlc, { n with clock := clock },
      some ⟨n.membership.localNode, hlc, n.membership.schemaVersion, n.membership.memberDigests⟩)
  | (.error e, clock) => (.error e, { n with clock := clock }, none)

/-- `handle_incoming` up to its reply, which is left in `replies`. -/
def handleIncoming (n : GossipNode) (sender : NodeId) (message : GossipMessage) (nowMs : UInt64) :
    Except Fault Hlc × GossipNode :=
  match (WallClock.update nowMs message.hlc).call n.clock with
  | (.ok hlc, clock) =>
    let merged := (n.membership.mergeRemoteDigests message.members).2
    let membership :=
      if message.schemaVersion > merged.schemaVersion then
        { merged with schemaVersion := message.schemaVersion }
      else merged
    (.ok hlc, ⟨membership, clock, n.replies ++ [sender]⟩)
  | (.error e, clock) => (.error e, { n with clock := clock })

/-- The state `evaluate_failure_detector` wants for a member, if it wants a change. -/
def nextState (state : NodeState) (isSuspect : Bool) : Option NodeState :=
  if state = .down then none
  else if state = .suspect then some .down
  else if isSuspect then some .suspect
  else none

/-- One member's turn in `evaluate_failure_detector`, once a change is wanted. -/
def evaluate (n : GossipNode) (node : NodeId) (target : NodeState) (nowMs : UInt64) :
    Except Fault Hlc × GossipNode :=
  match (WallClock.tick nowMs).call n.clock with
  | (.ok hlc, clock) =>
    match n.membership.transitionState node target hlc with
    | .ok membership => (.ok hlc, { n with membership := membership, clock := clock })
    | .error _ => (.ok hlc, { n with clock := clock })
  | (.error e, clock) => (.error e, { n with clock := clock })

end GossipNode

/-- A message on its way, with the position of the clock event that sent it. -/
structure Packet where
  source : NodeId
  target : NodeId
  message : GossipMessage
  sentAt : Nat

/-- All nodes, every message ever sent, and the number of clock events so far. -/
structure Network where
  nodes : NodeId → GossipNode
  packets : List Packet
  time : Nat

/-- One clock call; a receive names the send event its message came from. -/
structure Event where
  node : NodeId
  answer : Except Fault Hlc
  cause : Option Nat

namespace Network

/-- `node` becomes `n'`, and sends `message` to `target` if there is one. -/
def advance (s : Network) (node : NodeId) (n' : GossipNode) (target : NodeId)
    (message : Option GossipMessage) : Network where
  nodes := Function.update s.nodes node n'
  packets := (message.map (fun m => ⟨node, target, m, s.time⟩)).toList ++ s.packets
  time := s.time + 1

/-- A packet stays in the network, so it may arrive late, repeatedly, out of order or never.
A failed send only loses its packet. -/
inductive Step : Network → Event → Network → Prop
  | gossip {s : Network} {node target : NodeId} {nowMs : UInt64} {answer : Except Fault Hlc}
      {n' : GossipNode} {message : Option GossipMessage} :
      target ∈ (s.nodes node).peers →
      (s.nodes node).announce nowMs = (answer, n', message) →
      Step s ⟨node, answer, none⟩ (s.advance node n' target message)
  | reply {s : Network} {node target : NodeId} {nowMs : UInt64} {answer : Except Fault Hlc}
      {n' : GossipNode} {message : Option GossipMessage} {before after : List NodeId} :
      (s.nodes node).replies = before ++ target :: after →
      GossipNode.announce { s.nodes node with replies := before ++ after } nowMs =
        (answer, n', message) →
      Step s ⟨node, answer, none⟩ (s.advance node n' target message)
  | receive {s : Network} {p : Packet} {nowMs : UInt64} {answer : Except Fault Hlc}
      {n' : GossipNode} :
      p ∈ s.packets →
      (s.nodes p.target).handleIncoming p.source p.message nowMs = (answer, n') →
      Step s ⟨p.target, answer, some p.sentAt⟩ (s.advance p.target n' p.target none)
  | evaluate {s : Network} {node member : NodeId} {state target : NodeState} {isSuspect : Bool}
      {nowMs : UInt64} {answer : Except Fault Hlc} {n' : GossipNode} :
      (s.nodes node).membership.nodeState member = some state →
      GossipNode.nextState state isSuspect = some target →
      (s.nodes node).evaluate member target nowMs = (answer, n') →
      Step s ⟨node, answer, none⟩ (s.advance node n' node none)
  | tick {s : Network} {node : NodeId} {nowMs : UInt64} {answer : Except Fault Hlc}
      {clock : WallClock} :
      (WallClock.tick nowMs).call (s.nodes node).clock = (answer, clock) →
      Step s ⟨node, answer, none⟩
        (s.advance node { s.nodes node with clock := clock } node none)

/-- Everything the clock argument needs to know about a step. -/
structure Effect (s : Network) (e : Event) (t : Network) : Prop where
  time : t.time = s.time + 1
  others : ∀ n, n ≠ e.node → t.nodes n = s.nodes n
  moves : (s.nodes e.node).clock.Moves e.answer (t.nodes e.node).clock
  cause : ∀ k, e.cause = some k →
    ∃ p ∈ s.packets, p.sentAt = k ∧ ∀ v, e.answer = .ok v → p.message.hlc < v
  packets : ∀ p ∈ t.packets, p ∈ s.packets ∨ p.sentAt = s.time ∧ e.answer = .ok p.message.hlc

variable {s t : Network} {e : Event} {node target : NodeId} {nowMs : UInt64}
  {answer : Except Fault Hlc} {n n' : GossipNode} {message : Option GossipMessage}

theorem effect_advance (hmoves : (s.nodes node).clock.Moves answer n'.clock)
    (hmessage : ∀ m, message = some m → answer = .ok m.hlc) :
    Effect s ⟨node, answer, none⟩ (s.advance node n' target message) where
  time := rfl
  others m hm := Function.update_of_ne hm _ _
  moves := by simpa [advance] using hmoves
  cause k hk := by cases hk
  packets p hp := by
    cases message with
    | none => exact Or.inl hp
    | some m =>
      rcases List.mem_cons.mp hp with rfl | hp
      · exact Or.inr ⟨rfl, hmessage m rfl⟩
      · exact Or.inl hp

theorem announce_moves (h : n.announce nowMs = (answer, n', message)) :
    n.clock.Moves answer n'.clock ∧ ∀ m, message = some m → answer = .ok m.hlc := by
  have ho := WallClock.tick_outcome nowMs n.clock
  unfold GossipNode.announce at h
  rcases hcall : (WallClock.tick nowMs).call n.clock with ⟨f | v, clock⟩
  · rw [hcall] at h ho
    cases h
    exact ⟨ho.moves (fun _ => id), by simp⟩
  · rw [hcall] at h ho
    cases h
    refine ⟨ho.moves (fun _ => id), ?_⟩
    rintro m ⟨⟩
    rfl

theorem evaluate_moves {member : NodeId} {state : NodeState}
    (h : n.evaluate member state nowMs = (answer, n')) : n.clock.Moves answer n'.clock := by
  have ho := WallClock.tick_outcome nowMs n.clock
  unfold GossipNode.evaluate at h
  rcases hcall : (WallClock.tick nowMs).call n.clock with ⟨f | v, clock⟩
  · rw [hcall] at h ho
    cases h
    exact ho.moves (fun _ => id)
  · rw [hcall] at h ho
    dsimp only at h
    split at h
    · cases h
      exact ho.moves (fun _ => id)
    · cases h
      exact ho.moves (fun _ => id)

theorem handleIncoming_moves {sender : NodeId} {m : GossipMessage}
    (h : n.handleIncoming sender m nowMs = (answer, n')) :
    n.clock.Moves answer n'.clock ∧ ∀ v, answer = .ok v → m.hlc < v := by
  have ho := WallClock.update_outcome nowMs m.hlc n.clock
  unfold GossipNode.handleIncoming at h
  rcases hcall : (WallClock.update nowMs m.hlc).call n.clock with ⟨f | v, clock⟩
  · rw [hcall] at h ho
    cases h
    exact ⟨ho.moves (fun _ => And.left), by simp⟩
  · rw [hcall] at h ho
    cases h
    refine ⟨ho.moves (fun _ => And.left), ?_⟩
    rintro w ⟨⟩
    exact ho.of_ok.2

theorem effect_of_step (h : Step s e t) : Effect s e t := by
  cases h with
  | gossip _ hann =>
    obtain ⟨hmoves, hmsg⟩ := announce_moves hann
    exact effect_advance hmoves hmsg
  | reply _ hann =>
    obtain ⟨hmoves, hmsg⟩ := announce_moves hann
    exact effect_advance hmoves hmsg
  | @receive p nowMs answer n' hp hin =>
    obtain ⟨hmoves, hlt⟩ := handleIncoming_moves hin
    have heff : Effect s ⟨p.target, answer, none⟩ (s.advance p.target n' p.target none) :=
      effect_advance hmoves (by simp)
    refine ⟨heff.time, heff.others, heff.moves, ?_, heff.packets⟩
    rintro k ⟨⟩
    exact ⟨p, hp, rfl, hlt⟩
  | evaluate _ _ heval => exact effect_advance (evaluate_moves heval) (by simp)
  | tick hcall =>
    refine effect_advance ?_ (by simp)
    exact (hcall ▸ WallClock.tick_outcome _ _).moves (fun _ => id)

end Network

/-- The clock call at position `i` was made at `n` and returned `v`. -/
def Returns (xs : List Event) (i : Nat) (n : NodeId) (v : Hlc) : Prop :=
  ∃ e : Event, xs[i]? = some e ∧ e.node = n ∧ e.answer = .ok v

/-- The clock call at position `j` took in the message sent at position `i`. -/
def Receives (xs : List Event) (j i : Nat) : Prop :=
  ∃ e : Event, xs[j]? = some e ∧ e.cause = some i

/-- The clock call at position `i` was made at `n`. -/
def At (xs : List Event) (i : Nat) (n : NodeId) : Prop := ∃ e : Event, xs[i]? = some e ∧ e.node = n

/-- Direct causality between clock events: one follows the other at its node, or takes in the
message that the other sent. -/
inductive Direct (xs : List Event) (i j : Nat) : Prop
  | sameNode {n : NodeId} : i < j → At xs i n → At xs j n → Direct xs i j
  | message : Receives xs j i → Direct xs i j

def HappensBefore (xs : List Event) : Nat → Nat → Prop := Relation.TransGen (Direct xs)

/-- Direct causality, where the update with a message does not fail. -/
structure Heard (xs : List Event) (i j : Nat) : Prop where
  direct : Direct xs i j
  updated : Receives xs j i → ∃ n v, Returns xs j n v

/-- What holds of the events so far and the network they led to. -/
structure Tracks (xs : List Event) (s : Network) : Prop where
  time : s.time = xs.length
  bounded : ∀ i n v, Returns xs i n v → v ≤ (s.nodes n).clock.state
  sent : ∀ p ∈ s.packets, ∃ n, Returns xs p.sentAt n p.message.hlc
  ordered : ∀ i j n a b, i < j → Returns xs i n a → Returns xs j n b → a < b
  caused : ∀ i j n b, Receives xs j i → Returns xs j n b → ∃ m a, Returns xs i m a ∧ a < b

variable {xs : List Event} {e : Event} {s t : Network} {i j : Nat} {m n : NodeId} {a b v : Hlc}

theorem Returns.unique (h : Returns xs i m a) (k : Returns xs i n b) : m = n ∧ a = b := by
  obtain ⟨e, he, rfl, ha⟩ := h
  obtain ⟨f, hf, rfl, hb⟩ := k
  cases he.symm.trans hf
  cases ha.symm.trans hb
  exact ⟨rfl, rfl⟩

theorem Returns.at (h : Returns xs i n v) : At xs i n := by
  obtain ⟨e, he, hn, -⟩ := h
  exact ⟨e, he, hn⟩

theorem At.unique (h : At xs i m) (k : At xs i n) : m = n := by
  obtain ⟨e, he, rfl⟩ := h
  obtain ⟨f, hf, rfl⟩ := k
  cases he.symm.trans hf
  rfl

theorem getElem?_concat_eq_some {f : Event} : (xs ++ [e])[i]? = some f ↔
    xs[i]? = some f ∨ i = xs.length ∧ e = f := by
  rcases lt_trichotomy i xs.length with hi | hi | hi
  · simp [List.getElem?_append_left hi, hi.ne]
  · simp [hi]
  · have hout : (xs ++ [e])[i]? = none := List.getElem?_eq_none (by simp; omega)
    simp [hout, List.getElem?_eq_none hi.le, hi.ne']

theorem returns_concat : Returns (xs ++ [e]) i n v ↔
    Returns xs i n v ∨ i = xs.length ∧ e.node = n ∧ e.answer = .ok v := by
  simp only [Returns, getElem?_concat_eq_some, or_and_right, exists_or]
  simp

theorem receives_concat : Receives (xs ++ [e]) j i ↔
    Receives xs j i ∨ j = xs.length ∧ e.cause = some i := by
  simp only [Receives, getElem?_concat_eq_some, or_and_right, exists_or]
  simp

theorem At.lt_length (h : At xs i n) : i < xs.length := by
  obtain ⟨e, he, -⟩ := h
  exact (List.getElem?_eq_some_iff.mp he).1

theorem Returns.lt_length (h : Returns xs i n v) : i < xs.length := h.at.lt_length

theorem clock_le_step (h : Network.Step s e t) (n : NodeId) :
    (s.nodes n).clock.state ≤ (t.nodes n).clock.state := by
  have heff := Network.effect_of_step h
  by_cases hn : n = e.node
  · subst hn
    rcases heff.moves with ⟨v, -, hlt, heq⟩ | ⟨-, heq⟩
    · exact heq ▸ hlt.le
    · exact heq.ge
  · rw [heff.others n hn]

theorem clock_lt_of_step (h : Network.Step s e t) (hv : e.answer = .ok v) :
    (s.nodes e.node).clock.state < v ∧ (t.nodes e.node).clock.state = v := by
  rcases (Network.effect_of_step h).moves with ⟨w, hw, hlt, heq⟩ | ⟨⟨f, hf⟩, -⟩
  · cases hw.symm.trans hv
    exact ⟨hlt, heq⟩
  · cases hf.symm.trans hv

theorem tracks_step (ht : Tracks xs s) (h : Network.Step s e t) : Tracks (xs ++ [e]) t := by
  have heff := Network.effect_of_step h
  refine ⟨?_, ?_, ?_, ?_, ?_⟩
  · rw [heff.time, ht.time, List.length_append, List.length_singleton]
  · intro i n v hv
    rcases returns_concat.mp hv with hold | ⟨-, rfl, hnew⟩
    · exact (ht.bounded i n v hold).trans (clock_le_step h n)
    · exact (clock_lt_of_step h hnew).2.ge
  · intro p hp
    rcases heff.packets p hp with hp | ⟨hat, hans⟩
    · obtain ⟨n, hn⟩ := ht.sent p hp
      exact ⟨n, returns_concat.mpr (Or.inl hn)⟩
    · exact ⟨e.node, returns_concat.mpr (Or.inr ⟨hat.trans ht.time, rfl, hans⟩)⟩
  · intro i j n a b hij ha hb
    rcases returns_concat.mp hb with hold | ⟨rfl, rfl, hnew⟩
    · rcases returns_concat.mp ha with ha | ⟨rfl, -⟩
      · exact ht.ordered i j n a b hij ha hold
      · exact absurd hold.lt_length (not_lt_of_gt hij)
    · rcases returns_concat.mp ha with ha | ⟨rfl, -⟩
      · exact lt_of_le_of_lt (ht.bounded i _ a ha) (clock_lt_of_step h hnew).1
      · exact absurd hij (lt_irrefl _)
  · intro i j n b hrec hb
    rcases returns_concat.mp hb with hold | ⟨rfl, rfl, hnew⟩
    · rcases receives_concat.mp hrec with hrec | ⟨rfl, -⟩
      · obtain ⟨m, a, ha, hlt⟩ := ht.caused i j n b hrec hold
        exact ⟨m, a, returns_concat.mpr (Or.inl ha), hlt⟩
      · exact absurd hold.lt_length (lt_irrefl _)
    · rcases receives_concat.mp hrec with ⟨f, hf, -⟩ | ⟨-, hcause⟩
      · exact absurd (List.getElem?_eq_some_iff.mp hf).1 (lt_irrefl _)
      · obtain ⟨p, hp, rfl, hlt⟩ := heff.cause i hcause
        obtain ⟨m, hm⟩ := ht.sent p hp
        exact ⟨m, _, returns_concat.mpr (Or.inl hm), hlt b hnew⟩

theorem tracks_run {nodes : NodeId → GossipNode}
    (hrun : Steps Network.Step ⟨nodes, [], 0⟩ xs t) : Tracks xs t := by
  refine hrun.history ⟨rfl, ?_, by simp, ?_, ?_⟩ fun ys u a v _ _ hys hstep => tracks_step hys hstep
  · rintro i n v ⟨e, he, -⟩
    simp at he
  · rintro i j n a b - ⟨e, he, -⟩
    simp at he
  · rintro i j n b ⟨e, he, -⟩
    simp at he

/-- Whatever a node's clock returns from position `j` on is above `a`. -/
def Above (xs : List Event) (a : Hlc) (j : Nat) : Prop :=
  ∀ n, At xs j n → ∀ k b, j ≤ k → Returns xs k n b → a < b

/-- What a node's clock returns stays above what it has returned. -/
theorem Tracks.above (ht : Tracks xs s) (hj : Returns xs j n b) (hlt : a < b) : Above xs a j := by
  intro n' hn' k c hjk hk
  obtain rfl := hn'.unique hj.at
  rcases hjk.eq_or_lt with rfl | hjk
  · obtain ⟨-, rfl⟩ := hj.unique hk
    exact hlt
  · exact hlt.trans (ht.ordered j k _ b c hjk hj hk)

theorem Tracks.above_step {k : Nat} (ht : Tracks xs s) (h : Above xs a j) (hnext : Heard xs j k) :
    Above xs a k := by
  cases hnext.direct with
  | sameNode hjk hj hk =>
    intro n hn l b hkl hb
    obtain rfl := hk.unique hn
    exact h _ hj l b (hjk.le.trans hkl) hb
  | message hrec =>
    obtain ⟨n, b, hb⟩ := hnext.updated hrec
    obtain ⟨m, c, hc, hlt⟩ := ht.caused j k n b hrec hb
    exact ht.above hb ((h m hc.at j c le_rfl hc).trans hlt)

theorem Tracks.above_of_heard (ht : Tracks xs s) (ha : Returns xs i m a) (h : Heard xs i j) :
    Above xs a j := by
  cases h.direct with
  | sameNode hij hi hj =>
    intro n hn k b hjk hb
    obtain rfl := hj.unique hn
    obtain rfl := hi.unique ha.at
    exact ht.ordered i k _ a b (hij.trans_le hjk) ha hb
  | message hrec =>
    obtain ⟨n, b, hb⟩ := h.updated hrec
    obtain ⟨m', a', ha', hlt⟩ := ht.caused i j n b hrec hb
    obtain ⟨-, rfl⟩ := ha'.unique ha
    exact ht.above hb hlt

/-- Clock values follow causality along the messages whose update does not fail, whatever is lost,
delayed, reordered or duplicated, and whatever the wall clocks show. -/
theorem hlc_lt_of_happensBefore {nodes : NodeId → GossipNode}
    (hrun : Steps Network.Step ⟨nodes, [], 0⟩ xs t) (h : Relation.TransGen (Heard xs) i j)
    (ha : Returns xs i m a) (hb : Returns xs j n b) : a < b := by
  have ht := tracks_run hrun
  have habove : Above xs a j := by
    clear hb
    induction h with
    | single hheard => exact ht.above_of_heard ha hheard
    | tail _ hheard ih => exact ht.above_step ih hheard
  exact habove n hb.at j b le_rfl hb

/-- Nodes that know one another, with clocks at zero. -/
def twoNodes (node : NodeId) : GossipNode where
  membership := ⟨node, (OrdMap.empty.insert ⟨⟨1⟩⟩ ⟨.healthy, 0, Hlc.zero⟩).insert ⟨⟨2⟩⟩
    ⟨.healthy, 0, Hlc.zero⟩, 0⟩
  clock := ⟨Hlc.zero, false⟩
  replies := []

/-- The second node's wall clock is behind, and its HLC still moves past the message. -/
theorem hlc_lt_of_happensBefore_one_message :
    ∃ xs t a b, Steps Network.Step ⟨twoNodes, [], 0⟩ xs t ∧ HappensBefore xs 0 1 ∧
      Returns xs 0 ⟨⟨1⟩⟩ a ∧ Returns xs 1 ⟨⟨2⟩⟩ b ∧ a < b := by
  let sent : Event := ⟨⟨⟨1⟩⟩, .ok ⟨7 * 65536⟩, none⟩
  let received : Event := ⟨⟨⟨2⟩⟩, .ok ⟨7 * 65536 + 1⟩, some 0⟩
  have hsend : Returns [sent, received] 0 ⟨⟨1⟩⟩ ⟨7 * 65536⟩ := ⟨sent, rfl, rfl, rfl⟩
  have hreceive : Returns [sent, received] 1 ⟨⟨2⟩⟩ ⟨7 * 65536 + 1⟩ := ⟨received, rfl, rfl, rfl⟩
  have hdirect : Direct [sent, received] 0 1 := .message ⟨received, rfl, rfl⟩
  have hrun : Steps Network.Step ⟨twoNodes, [], 0⟩ [sent, received] _ :=
    .cons (@Network.Step.gossip _ _ ⟨⟨2⟩⟩ 7 _ _ _ (by decide) rfl)
      (.single
        (@Network.Step.receive _ ⟨⟨⟨1⟩⟩, ⟨⟨2⟩⟩, _, 0⟩ 3 _ _ (List.mem_singleton.mpr rfl) rfl))
  exact ⟨_, _, _, _, hrun, .single hdirect, hsend, hreceive,
    hlc_lt_of_happensBefore hrun (.single ⟨hdirect, fun _ => ⟨_, _, hreceive⟩⟩) hsend hreceive⟩

/-- The first node's clock is one step before the end of its millisecond. -/
def nearOverflow (node : NodeId) : GossipNode :=
  { twoNodes node with
    clock := ⟨if node = ⟨⟨1⟩⟩ then ⟨9 * 65536 + 65534⟩ else Hlc.zero, false⟩ }

/-- The second node cannot move past the message; its next tick, by a wall clock that is behind,
returns less than the sender's. -/
theorem hlc_not_lt_after_failed_update :
    ∃ xs t a b, Steps Network.Step ⟨nearOverflow, [], 0⟩ xs t ∧ HappensBefore xs 0 2 ∧
      Returns xs 0 ⟨⟨1⟩⟩ a ∧ Returns xs 2 ⟨⟨2⟩⟩ b ∧ b < a := by
  let sent : Event := ⟨⟨⟨1⟩⟩, .ok ⟨9 * 65536 + 65535⟩, none⟩
  let received : Event := ⟨⟨⟨2⟩⟩, .error (.error (.logicalOverflow 9)), some 0⟩
  let ticked : Event := ⟨⟨⟨2⟩⟩, .ok ⟨3 * 65536⟩, none⟩
  have hrun : Steps Network.Step ⟨nearOverflow, [], 0⟩ [sent, received, ticked] _ :=
    .cons (@Network.Step.gossip _ _ ⟨⟨2⟩⟩ 9 _ _ _ (by decide) rfl)
      (.cons
        (@Network.Step.receive _ ⟨⟨⟨1⟩⟩, ⟨⟨2⟩⟩, _, 0⟩ 3 _ _ (List.mem_singleton.mpr rfl) rfl)
        (.single (@Network.Step.tick _ ⟨⟨2⟩⟩ 3 _ _ rfl)))
  have hfirst : Direct [sent, received, ticked] 0 1 := .message ⟨received, rfl, rfl⟩
  have hsecond : Direct [sent, received, ticked] 1 2 :=
    .sameNode (n := ⟨⟨2⟩⟩) (by decide) ⟨received, rfl, rfl⟩ ⟨ticked, rfl, rfl⟩
  exact ⟨_, _, _, _, hrun, .tail (.single hfirst) hsecond, ⟨sent, rfl, rfl, rfl⟩,
    ⟨ticked, rfl, rfl, rfl⟩, by decide⟩

end BashfulDB.Cluster
