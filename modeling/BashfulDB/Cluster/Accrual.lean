import BashfulDB.Cluster.Detector
import BashfulDB.Library.Binary64
import Mathlib.Algebra.BigOperators.Ring.List

/-!
The phi accrual detector in double precision, as the code computes it: how far it is from the one
in exact arithmetic, and after how long a silence it suspects a node.
-/
namespace BashfulDB.Cluster.F64

open Clock Binary64

/-- `as_secs_f64` of nanoseconds. -/
def asSecsF64 (nanos : Nat) : ℚ :=
  Binary64.round (Binary64.round (nanos / 1000000000 : Nat) +
    Binary64.round ((nanos % 1000000000 : Nat) / 1000000000))

def minMeanIntervalSeconds : ℚ := Binary64.round (1 / 1000)

def recordHeartbeat (h : NodeHeartbeatHistory) (now : Nat) : NodeHeartbeatHistory :=
  match h.lastSeen with
  | some last =>
    let interArrivals := h.interArrivals ++ [max (asSecsF64 (now - last)) minMeanIntervalSeconds]
    ⟨some now, if interArrivals.length > maxSamples then interArrivals.tail else interArrivals⟩
  | none => ⟨some now, h.interArrivals⟩

def phi (h : NodeHeartbeatHistory) (now : Nat) : ℚ :=
  match h.lastSeen with
  | none => 0
  | some lastSeen =>
    if h.interArrivals.isEmpty then 0
    else
      let elapsed := asSecsF64 (now - lastSeen)
      let mean :=
        Binary64.round (Binary64.sum h.interArrivals / Binary64.round h.interArrivals.length)
      Binary64.round (Binary64.round (elapsed / max mean minMeanIntervalSeconds) * log10E)

/-- The state behind the mutex of `PhiAccrualFailureDetector`. -/
structure DetectorState where
  threshold : Double
  nodes : OrdMap NodeId NodeHeartbeatHistory

namespace DetectorState

def withThreshold (threshold : Double) : DetectorState := ⟨threshold, OrdMap.empty⟩

def new : DetectorState := withThreshold (.finite 8)

def heartbeat (d : DetectorState) (node : NodeId) (now : Nat) : DetectorState :=
  let history := (d.nodes.get node).getD .new
  { d with nodes := d.nodes.insert node (recordHeartbeat history now) }

def phi (d : DetectorState) (node : NodeId) (now : Nat) : ℚ :=
  ((d.nodes.get node).map (F64.phi · now)).getD 0

def isSuspect (d : DetectorState) (node : NodeId) (now : Nat) : Bool :=
  d.threshold.le (d.phi node now)

def setThreshold (d : DetectorState) (threshold : Double) : DetectorState :=
  { d with threshold := threshold }

end DetectorState

/-- The calls that change a detector, with the instant that a heartbeat reads. -/
inductive Call
  | heartbeat (node : NodeId) (now : Nat)
  | setThreshold (threshold : Double)

def DetectorState.next (d : DetectorState) : Call → DetectorState
  | .heartbeat node now => d.heartbeat node now
  | .setThreshold threshold => d.setThreshold threshold

def DetectorState.run (threshold : Double) (calls : List Call) : DetectorState :=
  calls.foldl next (withThreshold threshold)

/-- The instants of the heartbeats of a node. -/
def beats (node : NodeId) (calls : List Call) : List Nat :=
  calls.filterMap fun
    | .heartbeat sender now => if sender = node then some now else none
    | .setThreshold _ => none

/-- What exact arithmetic keeps of a node. -/
def exactly (instants : List Nat) : NodeHeartbeatHistory :=
  instants.foldl NodeHeartbeatHistory.recordHeartbeat .new

/-- The times between heartbeats, in nanoseconds. -/
def gaps : List Nat → List Nat
  | first :: second :: rest => (second - first) :: gaps (second :: rest)
  | _ => []

def recentGaps (instants : List Nat) : List Nat :=
  (gaps instants).drop ((gaps instants).length - maxSamples)

/-- The mean of the recent gaps, where one of less than a millisecond counts as a millisecond. -/
def meanGap (instants : List Nat) : ℚ :=
  ((recentGaps instants).map fun gap : Nat => max (gap : ℚ) 1000000).sum /
    (recentGaps instants).length

variable {h h' : NodeHeartbeatHistory} {now last nanos a b : Nat} {node : NodeId}
  {calls : List Call} {instants : List Nat}

/-! ### Rounding -/

theorem normal_of_le {x : ℚ} (hx : 1 / 2 ^ 100 ≤ x) : 2 ^ (-1000 : ℤ) ≤ x :=
  calc (2 : ℚ) ^ (-1000 : ℤ) ≤ 2 ^ (-100 : ℤ) := zpow_le_zpow_right₀ (by norm_num) (by norm_num)
    _ = 1 / 2 ^ 100 := by norm_num
    _ ≤ x := hx

theorem normal_natCast_div (n : Nat) {c : ℚ} (hpos : 0 < c) (hc : c ≤ 2 ^ 100) :
    n / c = 0 ∨ 2 ^ (-1000 : ℤ) ≤ n / c := by
  rcases Nat.eq_zero_or_pos n with rfl | hn
  · exact Or.inl (by simp)
  · have hone : (1 : ℚ) ≤ n := by exact_mod_cast hn
    exact Or.inr (normal_of_le (by gcongr))

theorem close_asSecsF64 (nanos : Nat) : Close 2 (nanos / 1000000000) (asSecsF64 nanos) := by
  have hsecs : Close 1 ((nanos / 1000000000 : Nat) : ℚ)
      (Binary64.round (nanos / 1000000000 : Nat)) := by
    refine (Close.refl (n := 0) (by positivity)).round (by norm_num) ?_
    simpa using normal_natCast_div (nanos / 1000000000) one_pos (by norm_num)
  have hnanos : Close 1 ((nanos % 1000000000 : Nat) / 1000000000 : ℚ)
      (Binary64.round ((nanos % 1000000000 : Nat) / 1000000000)) :=
    (Close.refl (n := 0) (by positivity)).round (by norm_num)
      (normal_natCast_div _ (by norm_num) (by norm_num))
  have hsum : (nanos / 1000000000 : ℚ) =
      (nanos / 1000000000 : Nat) + (nanos % 1000000000 : Nat) / 1000000000 := by
    have hdiv : (nanos : ℚ) = (1000000000 * (nanos / 1000000000) + nanos % 1000000000 : Nat) := by
      rw [Nat.div_add_mod]
    rw [hdiv]
    push_cast
    ring
  have hadd := hsecs.add hnanos
  rw [← hsum] at hadd
  exact hadd.round (by norm_num) (normal_natCast_div nanos (by norm_num) (by norm_num))

theorem close_minMeanIntervalSeconds :
    Close 1 Cluster.minMeanIntervalSeconds minMeanIntervalSeconds :=
  (Close.refl (n := 0) (by norm_num [Cluster.minMeanIntervalSeconds])).round (by norm_num)
    (.inr (normal_of_le (by norm_num [Cluster.minMeanIntervalSeconds])))

/-! ### The two detectors -/

/-- What exact arithmetic keeps of a node, and what the code keeps. -/
structure Tracks (h h' : NodeHeartbeatHistory) : Prop where
  lastSeen : h'.lastSeen = h.lastSeen
  samples : List.Forall₂ (Close 2) h.interArrivals h'.interArrivals
  bounds : ∀ x ∈ h.interArrivals, Cluster.minMeanIntervalSeconds ≤ x ∧ x ≤ 2 ^ 65
  few : h.interArrivals.length ≤ maxSamples

theorem tracks_new : Tracks .new .new :=
  ⟨rfl, .nil, List.forall_mem_nil _, Nat.zero_le _⟩

theorem close_sample (now last : Nat) :
    Close 2 (max (secondsSince now last) Cluster.minMeanIntervalSeconds)
      (max (asSecsF64 (now - last)) minMeanIntervalSeconds) := by
  refine (close_asSecsF64 (now - last)).max (close_minMeanIntervalSeconds.mono ?_ one_le_two)
  norm_num [Cluster.minMeanIntervalSeconds]

theorem sample_le (hnow : now < 2 ^ 94) (last : Nat) :
    max (secondsSince now last) Cluster.minMeanIntervalSeconds ≤ 2 ^ 65 := by
  have hle : ((now - last : Nat) : ℚ) ≤ 2 ^ 94 := by
    exact_mod_cast (Nat.sub_le now last).trans hnow.le
  refine max_le ?_ (by norm_num [Cluster.minMeanIntervalSeconds])
  rw [secondsSince, div_le_iff₀ (by norm_num)]
  exact hle.trans (by norm_num)

/-- A heartbeat adds a sample on both sides, and drops one on both. -/
theorem Tracks.recordHeartbeat (ht : Tracks h h') (hnow : now < 2 ^ 94) :
    Tracks (h.recordHeartbeat now) (recordHeartbeat h' now) := by
  unfold F64.recordHeartbeat NodeHeartbeatHistory.recordHeartbeat
  rw [ht.lastSeen]
  cases h.lastSeen with
  | none => exact ⟨rfl, ht.samples, ht.bounds, ht.few⟩
  | some last =>
    have hsamples := List.rel_append ht.samples (.cons (close_sample now last) .nil)
    have hbounds := List.forall_mem_append.mpr
      ⟨ht.bounds, List.forall_mem_singleton.mpr ⟨le_max_right _ _, sample_le hnow last⟩⟩
    dsimp only
    rw [← hsamples.length_eq]
    split
    · refine ⟨rfl, ?_, fun x hx => hbounds x (List.mem_of_mem_tail hx), ?_⟩
      · simpa using List.forall₂_drop 1 hsamples
      · simpa using ht.few
    · next hfew => exact ⟨rfl, hsamples, hbounds, not_lt.mp hfew⟩

theorem le_mean {samples : List ℚ} {least : ℚ} (hne : samples ≠ [])
    (h : ∀ x ∈ samples, least ≤ x) : least ≤ samples.sum / samples.length := by
  have hpos : (0 : ℚ) < samples.length := by exact_mod_cast List.length_pos_iff.mpr hne
  have hsum := List.card_nsmul_le_sum samples least h
  rw [nsmul_eq_mul, mul_comm] at hsum
  exact (le_div_iff₀ hpos).mpr hsum

theorem mean_le {samples : List ℚ} {most : ℚ} (hne : samples ≠ [])
    (h : ∀ x ∈ samples, x ≤ most) : samples.sum / samples.length ≤ most := by
  have hpos : (0 : ℚ) < samples.length := by exact_mod_cast List.length_pos_iff.mpr hne
  have hsum := List.sum_le_card_nsmul samples most h
  rw [nsmul_eq_mul, mul_comm] at hsum
  exact (div_le_iff₀ hpos).mpr hsum

theorem Tracks.close_mean (ht : Tracks h h') (hne : h.interArrivals ≠ []) :
    Close 104 (h.interArrivals.sum / h.interArrivals.length)
      (Binary64.round (Binary64.sum h'.interArrivals /
        Binary64.round h'.interArrivals.length)) := by
  have hnormal {x : ℚ} (hx : Cluster.minMeanIntervalSeconds ≤ x) : 2 ^ (-1000 : ℤ) ≤ x :=
    normal_of_le (le_trans (by norm_num [Cluster.minMeanIntervalSeconds]) hx)
  have hfew : h.interArrivals.length ≤ 100 := ht.few
  have hpos : (0 : ℚ) < h.interArrivals.length := by exact_mod_cast List.length_pos_iff.mpr hne
  have hnonneg : 0 ≤ h.interArrivals.sum :=
    List.sum_nonneg fun x hx => le_trans (by positivity) (hnormal (ht.bounds x hx).1)
  have hsum : Close 102 h.interArrivals.sum (Binary64.sum h'.interArrivals) :=
    (close_sum ht.samples (fun x hx => hnormal (ht.bounds x hx).1) (by omega)).mono hnonneg
      (by omega)
  have hcount : Close 1 (h.interArrivals.length : ℚ)
      (Binary64.round h'.interArrivals.length) := by
    rw [← ht.samples.length_eq]
    refine (Close.refl (n := 0) hpos.le).round (by norm_num) ?_
    simpa using normal_natCast_div h.interArrivals.length one_pos (by norm_num)
  exact (hsum.div hcount hnonneg hpos).round (by norm_num)
    (.inr (hnormal (le_mean hne fun x hx => (ht.bounds x hx).1)))

theorem close_ratio (now last : Nat) {mean mean' : ℚ} (hmean : Close 104 mean mean')
    (hpos : 0 < mean) (hmost : mean ≤ 2 ^ 65) :
    Close 108 (secondsSince now last / mean * log10E)
      (Binary64.round (Binary64.round (asSecsF64 (now - last) / mean') * log10E)) := by
  have hlog : 0 < log10E := by norm_num [log10E]
  have hratio : secondsSince now last / mean = (now - last : Nat) / (1000000000 * mean) := by
    rw [secondsSince, div_div]
  have hproduct : secondsSince now last / mean * log10E =
      (now - last : Nat) / (1000000000 * mean / log10E) := by
    rw [hratio]
    field_simp
  have hsecs : Close 2 (secondsSince now last) (asSecsF64 (now - last)) := close_asSecsF64 _
  have hnonneg : 0 ≤ secondsSince now last := by
    unfold secondsSince
    positivity
  have hdiv := hsecs.div hmean hnonneg hpos
  have hround : Close 107 (secondsSince now last / mean)
      (Binary64.round (asSecsF64 (now - last) / mean')) := by
    refine hdiv.round (by norm_num) ?_
    rw [hratio]
    exact normal_natCast_div _ (by positivity) (by linarith only [hmost])
  refine (hround.mul_right hlog.le).round (by norm_num) ?_
  rw [hproduct]
  refine normal_natCast_div _ (div_pos (by positivity) hlog) ?_
  rw [div_le_iff₀ hlog, log10E]
  linarith only [hmost]

theorem Tracks.close_phi (ht : Tracks h h') (now : Nat) :
    Close 108 (h.phi now) (phi h' now) := by
  unfold F64.phi NodeHeartbeatHistory.phi
  rw [ht.lastSeen]
  cases h.lastSeen with
  | none => exact .refl le_rfl
  | some last =>
    have hempty : h'.interArrivals.isEmpty = h.interArrivals.isEmpty := by
      rw [Bool.eq_iff_iff, List.isEmpty_iff, List.isEmpty_iff, ← List.length_eq_zero_iff,
        ← List.length_eq_zero_iff, ht.samples.length_eq]
    dsimp only
    rw [hempty]
    split
    · exact .refl le_rfl
    · next hne =>
      rw [List.isEmpty_iff] at hne
      have hmean := (ht.close_mean hne).max (close_minMeanIntervalSeconds.mono
        (by norm_num [Cluster.minMeanIntervalSeconds]) (by norm_num))
      refine close_ratio now last hmean ?_ (max_le (mean_le hne fun x hx => (ht.bounds x hx).2) ?_)
      · exact lt_max_of_lt_right (by norm_num [Cluster.minMeanIntervalSeconds])
      · norm_num [Cluster.minMeanIntervalSeconds]

theorem tracks_exactly (h : ∀ t ∈ instants, t < 2 ^ 94) :
    Tracks (exactly instants) (instants.foldl recordHeartbeat .new) := by
  have hfold (h' h'' : NodeHeartbeatHistory) (ht : Tracks h' h'') :
      Tracks (instants.foldl NodeHeartbeatHistory.recordHeartbeat h')
        (instants.foldl recordHeartbeat h'') := by
    induction instants generalizing h' h'' with
    | nil => exact ht
    | cons now instants ih =>
      rw [List.forall_mem_cons] at h
      exact ih h.2 _ _ (ht.recordHeartbeat h.1)
  exact hfold _ _ tracks_new

/-! ### Runs -/

theorem phi_eq (d : DetectorState) (node : NodeId) (now : Nat) :
    d.phi node now = phi ((d.nodes.get node).getD .new) now := by
  unfold DetectorState.phi
  cases d.nodes.get node <;> rfl

/-- What a run keeps of a node is what its own heartbeats leave. -/
theorem get_run (calls : List Call) (d : DetectorState) (node : NodeId) :
    ((calls.foldl DetectorState.next d).nodes.get node).getD .new =
      (beats node calls).foldl recordHeartbeat ((d.nodes.get node).getD .new) := by
  induction calls generalizing d with
  | nil => rfl
  | cons call calls ih =>
    rw [List.foldl_cons, ih]
    cases call with
    | setThreshold threshold => rfl
    | heartbeat sender now =>
      by_cases hsender : sender = node
      · subst hsender
        simp [DetectorState.next, DetectorState.heartbeat, beats]
      · simp [DetectorState.next, DetectorState.heartbeat, beats, hsender,
          OrdMap.get_insert_of_ne _ (Ne.symm hsender)]

theorem gaps_concat (instants : List Nat) (now : Nat) :
    gaps (instants ++ [now]) =
      gaps instants ++ (instants.getLast?.map (now - ·)).toList := by
  induction instants with
  | nil => rfl
  | cons first instants ih =>
    cases instants with
    | nil => rfl
    | cons second rest =>
      rw [List.cons_append, List.cons_append, gaps, gaps, List.cons_append, List.getLast?_cons_cons]
      rw [← ih]
      rfl

theorem lastSeen_exactly (instants : List Nat) :
    (exactly instants).lastSeen = instants.getLast? := by
  induction instants using List.reverseRecOn with
  | nil => rfl
  | append_singleton instants now _ =>
    rw [exactly, List.foldl_concat, NodeHeartbeatHistory.recordHeartbeat, List.getLast?_concat]
    split <;> rfl

/-- Dropping the oldest of more than a hundred leaves the last hundred. -/
theorem recentGaps_concat (h : instants.getLast? = some last) (now : Nat) :
    recentGaps (instants ++ [now]) =
      if (recentGaps instants ++ [now - last]).length > maxSamples then
        (recentGaps instants ++ [now - last]).tail
      else recentGaps instants ++ [now - last] := by
  have hgaps : gaps (instants ++ [now]) = gaps instants ++ [now - last] := by
    rw [gaps_concat, h]
    rfl
  rw [recentGaps, hgaps, recentGaps]
  generalize gaps instants = old
  simp only [List.length_append, List.length_drop, List.length_singleton]
  split
  · have hdrop : old.length + 1 - maxSamples = old.length - maxSamples + 1 := by omega
    rw [hdrop, ← List.tail_drop, List.drop_append_of_le_length (Nat.sub_le _ _)]
  · have hdrop : old.length + 1 - maxSamples = old.length - maxSamples := by omega
    rw [hdrop, List.drop_append_of_le_length (Nat.sub_le _ _)]

/-- The samples are those of the recent gaps. -/
theorem interArrivals_exactly (instants : List Nat) :
    (exactly instants).interArrivals =
      (recentGaps instants).map fun gap : Nat =>
        max (gap / 1000000000 : ℚ) Cluster.minMeanIntervalSeconds := by
  induction instants using List.reverseRecOn with
  | nil => rfl
  | append_singleton instants now ih =>
    rw [exactly, List.foldl_concat, ← exactly, NodeHeartbeatHistory.recordHeartbeat,
      lastSeen_exactly, ih]
    cases hlast : instants.getLast? with
    | none =>
      obtain rfl := List.getLast?_eq_none_iff.mp hlast
      rfl
    | some last =>
      rw [recentGaps_concat hlast now]
      simp only [List.length_append, List.length_map, List.length_singleton]
      split
      · rw [List.map_tail, List.map_append]
        rfl
      · rw [List.map_append]
        rfl

theorem le_meanGap (h : recentGaps instants ≠ []) : 1000000 ≤ meanGap instants := by
  rw [meanGap, ← List.length_map (f := fun gap : Nat => max (gap : ℚ) 1000000)]
  exact le_mean (by simpa using h) (List.forall_mem_map.mpr fun gap _ => le_max_right _ _)

/-- The mean of the samples is that of the gaps in seconds. -/
theorem mean_exactly (instants : List Nat) :
    (exactly instants).interArrivals.sum / (exactly instants).interArrivals.length =
      meanGap instants / 1000000000 := by
  have hsample (gap : Nat) : max (gap / 1000000000 : ℚ) Cluster.minMeanIntervalSeconds =
      max (gap : ℚ) 1000000 / 1000000000 := by
    have hmin : Cluster.minMeanIntervalSeconds = 1000000 / 1000000000 := by
      norm_num [Cluster.minMeanIntervalSeconds]
    rw [hmin, max_div_div_right (by norm_num)]
  rw [interArrivals_exactly, List.length_map, meanGap, div_right_comm]
  simp only [hsample]
  simp only [div_eq_mul_inv, List.sum_map_mul_right]

/-- The phi of exact arithmetic, once a node has been heard twice. -/
theorem phi_exactly (hlast : instants.getLast? = some last) (hne : recentGaps instants ≠ [])
    (now : Nat) :
    (exactly instants).phi now = (now - last : Nat) / meanGap instants * log10E := by
  have hsamples : (exactly instants).interArrivals.isEmpty = false := by
    simp [interArrivals_exactly, hne]
  have hmax : max (meanGap instants / 1000000000) Cluster.minMeanIntervalSeconds =
      meanGap instants / 1000000000 := by
    refine max_eq_left ?_
    rw [Cluster.minMeanIntervalSeconds, le_div_iff₀ (by norm_num)]
    linarith [le_meanGap hne]
  simp only [NodeHeartbeatHistory.phi, lastSeen_exactly, hlast, hsamples, mean_exactly, hmax,
    secondsSince, Bool.false_eq_true, if_false]
  rw [div_div_div_cancel_right₀ (by norm_num)]

theorem phi_exactly_of_nil (h : recentGaps instants = []) (now : Nat) :
    (exactly instants).phi now = 0 := by
  have hsamples : (exactly instants).interArrivals.isEmpty = true := by
    simp [interArrivals_exactly, h]
  unfold NodeHeartbeatHistory.phi
  split
  · rfl
  · rw [hsamples]
    rfl

theorem phi_exactly_nonneg (instants : List Nat) (now : Nat) : 0 ≤ (exactly instants).phi now := by
  have hzero : (exactly instants).phi 0 = 0 := by
    unfold NodeHeartbeatHistory.phi
    split
    · rfl
    · simp [secondsSince]
  rw [← hzero]
  exact NodeHeartbeatHistory.phi_le _ (Nat.zero_le now)

theorem length_gaps (instants : List Nat) : (gaps instants).length = instants.length - 1 := by
  fun_induction gaps instants with
  | case1 first second rest ih =>
    rw [List.length_cons, ih]
    rfl
  | case2 instants hshort =>
    rcases instants with _ | ⟨first, _ | ⟨second, rest⟩⟩
    · rfl
    · rfl
    · exact absurd rfl (hshort first second rest)

theorem recentGaps_eq_nil : recentGaps instants = [] ↔ instants.length ≤ 1 := by
  rw [← List.length_eq_zero_iff, recentGaps, List.length_drop, length_gaps, maxSamples]
  omega

/-- In every run, the code's phi is off the exact one by at most so many roundings. -/
theorem close_phi_run (threshold : Double) (h : ∀ t ∈ beats node calls, t < 2 ^ 94) (now : Nat) :
    Close 108 ((exactly (beats node calls)).phi now)
      ((DetectorState.run threshold calls).phi node now) := by
  rw [phi_eq, DetectorState.run, get_run]
  exact (tracks_exactly h).close_phi now

/-- The verdict on a phi that is not next to the threshold is that of exact arithmetic. -/
theorem isSuspect_run {initial : Double} {threshold : ℚ}
    (hthreshold : (DetectorState.run initial calls).threshold = .finite threshold)
    (hinstants : ∀ t ∈ beats node calls, t < 2 ^ 94) (now : Nat) :
    (threshold * (1 + 1 / 2 ^ 44) ≤ (exactly (beats node calls)).phi now →
      (DetectorState.run initial calls).isSuspect node now = true) ∧
    ((exactly (beats node calls)).phi now * (1 + 1 / 2 ^ 44) < threshold →
      (DetectorState.run initial calls).isSuspect node now = false) := by
  have hclose := close_phi_run initial hinstants now
  have hnonneg := phi_exactly_nonneg (beats node calls) now
  have hslack := slack_pow_le (n := 108) (by norm_num)
  rw [DetectorState.isSuspect, hthreshold, Double.le, decide_eq_true_iff, decide_eq_false_iff_not,
    not_le]
  generalize (exactly (beats node calls)).phi now = exact at *
  generalize (DetectorState.run initial calls).phi node now = computed at *
  constructor
  · intro hle
    have hmul : threshold * (1 + 1 / 2 ^ 44) ≤ computed * (1 + 1 / 2 ^ 44) :=
      hle.trans (hclose.1.trans (mul_le_mul_of_nonneg_left hslack (hclose.nonneg hnonneg)))
    exact le_of_mul_le_mul_right hmul (by norm_num)
  · intro hlt
    exact (hclose.2.trans (mul_le_mul_of_nonneg_left hslack hnonneg)).trans_lt hlt

section

variable {initial : Double} {threshold : ℚ}
  (hthreshold : (DetectorState.run initial calls).threshold = .finite threshold)
  (hinstants : ∀ t ∈ beats node calls, t < 2 ^ 94)
  (hlast : (beats node calls).getLast? = some last) (htwo : 2 ≤ (beats node calls).length)

include htwo in
theorem recentGaps_ne_nil : recentGaps (beats node calls) ≠ [] := by
  rw [Ne, recentGaps_eq_nil]
  omega

include hthreshold hinstants hlast htwo

theorem isSuspect_of_silent
    (h : threshold * meanGap (beats node calls) * (1 + 1 / 2 ^ 44) ≤ (now - last : Nat) * log10E) :
    (DetectorState.run initial calls).isSuspect node now = true := by
  have hne := recentGaps_ne_nil htwo
  have hpos : 0 < meanGap (beats node calls) := by linarith [le_meanGap hne]
  refine (isSuspect_run hthreshold hinstants now).1 ?_
  rw [phi_exactly hlast hne, div_mul_eq_mul_div, le_div_iff₀ hpos]
  linarith

theorem isSuspect_of_heard
    (h : (now - last : Nat) * log10E * (1 + 1 / 2 ^ 44) < threshold * meanGap (beats node calls)) :
    (DetectorState.run initial calls).isSuspect node now = false := by
  have hne := recentGaps_ne_nil htwo
  have hpos : 0 < meanGap (beats node calls) := by linarith [le_meanGap hne]
  refine (isSuspect_run hthreshold hinstants now).2 ?_
  rw [phi_exactly hlast hne, div_mul_eq_mul_div, div_mul_eq_mul_div, div_lt_iff₀ hpos]
  exact h

end

/-- After any run, a node is suspected once its silence is as many mean gaps as the threshold asks
for, and not before, but for the rounding. A node that has been heard less than twice has no gap
yet, and is not suspected. -/
theorem suspected_by_silence (initial : Double) (calls : List Call) (node : NodeId) (now : Nat)
    {threshold : ℚ}
    (hthreshold : (DetectorState.run initial calls).threshold = .finite threshold)
    (hinstants : ∀ t ∈ beats node calls, t < 2 ^ 94) :
    (∀ last, (beats node calls).getLast? = some last → 2 ≤ (beats node calls).length →
      (threshold * meanGap (beats node calls) * (1 + 1 / 2 ^ 44) ≤ (now - last : Nat) * log10E →
        (DetectorState.run initial calls).isSuspect node now = true) ∧
      ((now - last : Nat) * log10E * (1 + 1 / 2 ^ 44) < threshold * meanGap (beats node calls) →
        (DetectorState.run initial calls).isSuspect node now = false)) ∧
    ((beats node calls).length < 2 →
      ((DetectorState.run initial calls).isSuspect node now = true ↔ threshold ≤ 0)) := by
  constructor
  · intro last hlast htwo
    exact ⟨isSuspect_of_silent hthreshold hinstants hlast htwo,
      isSuspect_of_heard hthreshold hinstants hlast htwo⟩
  · intro hfew
    obtain ⟨hyes, hno⟩ := isSuspect_run hthreshold hinstants now
    rw [phi_exactly_of_nil (recentGaps_eq_nil.mpr (by omega))] at hyes hno
    constructor
    · intro hsuspect
      by_contra hpos
      rw [hno (by linarith)] at hsuspect
      cases hsuspect
    · intro hle
      refine hyes ?_
      linarith

/-- Two heartbeats of a node, a second apart, with one of another node between them. -/
def secondApart : List Call :=
  [.heartbeat ⟨⟨2⟩⟩ 0, .heartbeat ⟨⟨1⟩⟩ 500000000, .heartbeat ⟨⟨2⟩⟩ 1000000000]

theorem beats_secondApart : beats ⟨⟨2⟩⟩ secondApart = [0, 1000000000] := by decide

theorem meanGap_secondApart : meanGap (beats ⟨⟨2⟩⟩ secondApart) = 1000000000 := by
  rw [beats_secondApart]
  norm_num [meanGap, recentGaps, gaps, maxSamples]

theorem instants_secondApart : ∀ t ∈ beats ⟨⟨2⟩⟩ secondApart, t < 2 ^ 94 := by
  rw [beats_secondApart]
  decide

/-- The default threshold is that of some 18.42 seconds of silence. -/
theorem suspected_by_silence_default :
    (DetectorState.run (.finite 8) secondApart).isSuspect ⟨⟨2⟩⟩ 19430000000 = true ∧
      (DetectorState.run (.finite 8) secondApart).isSuspect ⟨⟨2⟩⟩ 19420000000 = false ∧
      (DetectorState.run (.finite 8) secondApart).isSuspect ⟨⟨1⟩⟩ 19430000000 = false := by
  have htwice (now : Nat) := (suspected_by_silence (.finite 8) secondApart ⟨⟨2⟩⟩ now rfl
    instants_secondApart).1 1000000000 (by decide) (by decide)
  have honce := (suspected_by_silence (.finite 8) secondApart ⟨⟨1⟩⟩ 19430000000 rfl (by decide)).2
    (by decide)
  refine ⟨(htwice _).1 ?_, (htwice _).2 ?_, ?_⟩
  · norm_num [meanGap_secondApart, log10E]
  · norm_num [meanGap_secondApart, log10E]
  · rw [← Bool.not_eq_true, honce]
    norm_num

end BashfulDB.Cluster.F64
