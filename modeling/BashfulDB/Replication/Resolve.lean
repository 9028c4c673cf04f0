import Mathlib.Data.List.Pairwise
import Mathlib.Data.Prod.Lex
import Mathlib.Order.BooleanAlgebra.Basic
import BashfulDB.Clock.VectorClock
import BashfulDB.Data.Value
import BashfulDB.Library.Selection

/-! Versioned documents, and how a reader settles on one of several versions. -/
namespace BashfulDB.Replication

open Clock Data

structure VersionedDoc where
  document : Option Document
  version : VectorClock
  hlc : Hlc
  isTombstone : Bool

namespace VersionedDoc

def new (document : Document) (version : VectorClock) (hlc : Hlc) : VersionedDoc :=
  ⟨some document, version, hlc, false⟩

def tombstone (version : VectorClock) (hlc : Hlc) : VersionedDoc := ⟨none, version, hlc, true⟩

end VersionedDoc

def resolveTwo (a b : VersionedDoc) : VersionedDoc :=
  match a.version.compare b.version with
  | .after => a
  | .before => b
  | .equal => a
  | .concurrent =>
    match a.isTombstone, b.isTombstone with
    | true, false => a
    | false, true => b
    | _, _ => if a.hlc ≥ b.hlc then a else b

/-- `none` on an empty list, where the source panics. -/
def resolveConflict : List VersionedDoc → Option VersionedDoc
  | [] => none
  | winner :: docs => some (docs.foldl resolveTwo winner)

theorem resolveConflict_eq_champion : resolveConflict = Selection.champion resolveTwo := by
  funext docs
  cases docs <;> rfl

theorem resolveTwo_selective : Selection.Selective resolveTwo := by
  intro a b
  unfold resolveTwo
  split
  · exact Or.inl rfl
  · exact Or.inr rfl
  · exact Or.inl rfl
  · split
    · exact Or.inl rfl
    · exact Or.inr rfl
    · split
      · exact Or.inl rfl
      · exact Or.inr rfl

/-- The version that is resolved to is one of those given. -/
theorem resolveConflict_mem {docs : List VersionedDoc} {w : VersionedDoc}
    (h : resolveConflict docs = some w) : w ∈ docs := by
  rw [resolveConflict_eq_champion] at h
  exact Selection.champion_mem resolveTwo_selective h

/-- Tombstones rank above live documents, and a later HLC above an earlier one. -/
def rank (d : VersionedDoc) : Bool ×ₗ Hlc := toLex (d.isTombstone, d.hlc)

def Precedes (a b : VersionedDoc) : Prop := a.version.compare b.version = .before

instance (a b : VersionedDoc) : Decidable (Precedes a b) :=
  inferInstanceAs (Decidable (_ = _))

instance : IsStrictOrder VersionedDoc Precedes where
  irrefl a h := by
    obtain ⟨hle, hnle⟩ := VectorClock.compare_before_iff.mp h
    exact hnle hle
  trans _ _ _ := VectorClock.before_trans

variable {a b c w : VersionedDoc} {docs : List VersionedDoc}

theorem rank_le_iff : rank a ≤ rank b ↔
    a.isTombstone < b.isTombstone ∨ a.isTombstone = b.isTombstone ∧ a.hlc ≤ b.hlc :=
  Prod.Lex.toLex_le_toLex

theorem rank_lt_iff : rank a < rank b ↔
    a.isTombstone < b.isTombstone ∨ a.isTombstone = b.isTombstone ∧ a.hlc < b.hlc :=
  Prod.Lex.toLex_lt_toLex

theorem resolveTwo_of_after (h : Precedes b a) : resolveTwo a b = a := by
  simp [resolveTwo, VectorClock.compare_after_iff_before.mpr h]

theorem resolveTwo_of_before (h : Precedes a b) : resolveTwo a b = b := by
  simp [resolveTwo, show a.version.compare b.version = .before from h]

/-- Between concurrent versions the higher rank is kept, the first on a tie. -/
theorem resolveTwo_of_concurrent (h : a.version.compare b.version = .concurrent) :
    resolveTwo a b = if rank b ≤ rank a then a else b := by
  simp only [resolveTwo, h, rank_le_iff]
  cases a.isTombstone <;> cases b.isTombstone <;> simp

theorem compare_cases (h : a.version.compare b.version ≠ .equal) :
    Precedes a b ∨ Precedes b a ∨ a.version.compare b.version = .concurrent := by
  cases hc : a.version.compare b.version with
  | before => exact Or.inl hc
  | after => exact Or.inr (Or.inl (VectorClock.compare_after_iff_before.mp hc))
  | concurrent => exact Or.inr (Or.inr rfl)
  | equal => exact absurd hc h

/-- No two of the documents carry the same causal version. -/
def DistinctVersions (docs : List VersionedDoc) : Prop :=
  docs.Pairwise (fun a b => a.version.compare b.version ≠ .equal)

instance (docs : List VersionedDoc) : Decidable (DistinctVersions docs) :=
  inferInstanceAs (Decidable (docs.Pairwise _))

theorem DistinctVersions.ne_equal (h : DistinctVersions docs) (ha : a ∈ docs) (hb : b ∈ docs)
    (hne : a ≠ b) : a.version.compare b.version ≠ .equal := by
  have : Std.Symm (fun a b : VersionedDoc => a.version.compare b.version ≠ .equal) :=
    ⟨fun _ _ hxy hyx => hxy (VectorClock.compare_equal_symm.mp hyx)⟩
  exact List.Pairwise.forall h ha hb hne

/-- With distinct versions, the choice follows causality, and the rank where it is silent. -/
theorem resolveTwo_prefers (h : DistinctVersions docs) :
    Selection.Prefers Precedes rank resolveTwo docs where
  selective := resolveTwo_selective
  above _ _ _ _ := resolveTwo_of_after
  below _ _ _ _ := resolveTwo_of_before
  keep a ha b hb hab hba hle := by
    by_cases heq : a = b
    · subst heq
      exact resolveTwo_selective.self a
    · rcases compare_cases (h.ne_equal ha hb heq) with hlt | hlt | hcon
      · exact absurd hlt hab
      · exact absurd hlt hba
      · rw [resolveTwo_of_concurrent hcon, if_pos hle]
  replace a ha b hb hab hba hlt := by
    have hne : a ≠ b := by
      rintro rfl
      exact lt_irrefl _ hlt
    rcases compare_cases (h.ne_equal ha hb hne) with hlt' | hlt' | hcon
    · exact absurd hlt' hab
    · exact absurd hlt' hba
    · rw [resolveTwo_of_concurrent hcon, if_neg (not_le_of_gt hlt)]

/-- `w` wins against `e`, whichever of the two is met first. -/
def Prevails (w e : VersionedDoc) : Prop :=
  e.version.compare w.version = .before ∨
    e.version.compare w.version = .concurrent ∧
      (w.isTombstone = true ∧ e.isTombstone = false ∨
        w.isTombstone = e.isTombstone ∧ e.hlc < w.hlc)

theorem Prevails.resolveTwo (h : Prevails a b) : resolveTwo a b = a ∧ resolveTwo b a = a := by
  rcases h with hlt | ⟨hcon, hrank⟩
  · exact ⟨resolveTwo_of_after hlt, resolveTwo_of_before hlt⟩
  · have hrank : rank b < rank a := by
      rw [rank_lt_iff]
      rcases hrank with ⟨ha, hb⟩ | ⟨hkind, hlt⟩
      · simp [ha, hb]
      · exact Or.inr ⟨hkind.symm, hlt⟩
    rw [resolveTwo_of_concurrent (VectorClock.compare_concurrent_symm.mp hcon), if_pos hrank.le,
      resolveTwo_of_concurrent hcon, if_neg (not_le_of_gt hrank)]
    exact ⟨rfl, rfl⟩

/-- A version takes the place of another just where it prevails. -/
theorem displaces_iff : Selection.Displaces resolveTwo a b ↔ Prevails a b := by
  constructor
  · intro h
    cases hcmp : b.version.compare a.version with
    | before => exact Or.inl hcmp
    | after => exact absurd (resolveTwo_of_after (VectorClock.compare_after_iff_before.mp hcmp)) h
    | equal => exact absurd (by simp [resolveTwo, hcmp]) h
    | concurrent =>
      have hlt : rank b < rank a := by
        by_contra hle
        exact h (by rw [resolveTwo_of_concurrent hcmp, if_pos (not_lt.mp hle)])
      rcases rank_lt_iff.mp hlt with hkind | ⟨hkind, hhlc⟩
      · exact Or.inr ⟨hcmp, Or.inl ((Bool.lt_iff.mp hkind).symm)⟩
      · exact Or.inr ⟨hcmp, Or.inr ⟨hkind.symm, hhlc⟩⟩
  · intro h heq
    obtain rfl : a = b := h.resolveTwo.2.symm.trans heq
    have hself : a.version.compare a.version = .equal :=
      VectorClock.compare_equal_iff.mpr ⟨.refl _, .refl _⟩
    rcases h with hlt | ⟨hcon, -⟩
    · cases hself.symm.trans hlt
    · cases hself.symm.trans hcon

theorem resolveTwo_eq_left_iff (hver : a.version.compare b.version ≠ .equal)
    (hhlc : a.hlc ≠ b.hlc) : resolveTwo a b = a ↔ Prevails a b := by
  have hne : b ≠ a := by
    rintro rfl
    exact hhlc rfl
  rcases compare_cases hver with hlt | hlt | hcon
  · have hafter : b.version.compare a.version = .after :=
      VectorClock.compare_after_iff_before.mpr hlt
    simp [resolveTwo_of_before hlt, hne, Prevails, hafter]
  · have hbefore : b.version.compare a.version = .before := hlt
    simp [resolveTwo_of_after hlt, Prevails, hbefore]
  · have hlt : b.hlc ≤ a.hlc ↔ b.hlc < a.hlc := (Ne.symm hhlc).le_iff_lt
    simp only [resolveTwo_of_concurrent hcon, Prevails, rank_le_iff, hlt,
      VectorClock.compare_concurrent_symm.mp hcon]
    cases a.isTombstone <;> cases b.isTombstone <;> simp [hne]

theorem resolveTwo_comm (hver : a.version.compare b.version ≠ .equal) (hhlc : a.hlc ≠ b.hlc) :
    resolveTwo a b = resolveTwo b a := by
  rcases compare_cases hver with hlt | hlt | hcon
  · rw [resolveTwo_of_before hlt, resolveTwo_of_after hlt]
  · rw [resolveTwo_of_after hlt, resolveTwo_of_before hlt]
  · have hrank : rank a ≠ rank b := fun h => hhlc (congrArg (fun k => (ofLex k).2) h)
    rw [resolveTwo_of_concurrent hcon,
      resolveTwo_of_concurrent (VectorClock.compare_concurrent_symm.mp hcon)]
    rcases lt_or_gt_of_ne hrank with hlt | hlt
    · rw [if_neg (not_le_of_gt hlt), if_pos hlt.le]
    · rw [if_pos hlt.le, if_neg (not_le_of_gt hlt)]

/-- A write by one node. -/
def writeByOne : VersionedDoc := .new (.blank ⟨⟨0⟩⟩) (.single ⟨⟨1⟩⟩ ⟨10⟩) ⟨10⟩

/-- A delete by another node, concurrent with the write. -/
def deleteByTwo : VersionedDoc := .tombstone (.single ⟨⟨2⟩⟩ ⟨5⟩) ⟨5⟩

/-- A write by that other node, after its delete. -/
def rewriteByTwo : VersionedDoc := .new (.blank ⟨⟨0⟩⟩) (.single ⟨⟨2⟩⟩ ⟨7⟩) ⟨7⟩

/-- The response order never matters exactly when one document wins against each other one. -/
theorem resolveConflict_perm_iff (hne : docs ≠ []) (hver : DistinctVersions docs)
    (hhlc : docs.Pairwise (fun a b => a.hlc ≠ b.hlc)) :
    (∀ docs', docs'.Perm docs → resolveConflict docs' = resolveConflict docs) ↔
      ∃ w ∈ docs, ∀ e ∈ docs, e = w ∨ Prevails w e := by
  have : Std.Symm (fun a b : VersionedDoc => a.hlc ≠ b.hlc) := ⟨fun _ _ => Ne.symm⟩
  have hhlc := List.Pairwise.forall hhlc
  have hcomm : ∀ a ∈ docs, ∀ b ∈ docs, resolveTwo a b = resolveTwo b a := by
    intro a ha b hb
    by_cases hab : a = b
    · rw [hab]
    · exact resolveTwo_comm (hver.ne_equal ha hb hab) (hhlc ha hb hab)
  rw [resolveConflict_eq_champion, Selection.champion_perm_iff resolveTwo_selective hne hcomm]
  refine exists_congr fun w => and_congr_right fun hw => forall₂_congr fun e he => ?_
  by_cases hew : e = w
  · subst hew
    simp [resolveTwo_selective.self e]
  · have hwe : w ≠ e := Ne.symm hew
    simp [hew, resolveTwo_eq_left_iff (hver.ne_equal hw he hwe) (hhlc hw he hwe)]

theorem resolveConflict_perm_iff_two :
    resolveConflict [deleteByTwo, writeByOne] = resolveConflict [writeByOne, deleteByTwo] := by
  have hwins : ∃ w ∈ [writeByOne, deleteByTwo],
      ∀ e ∈ [writeByOne, deleteByTwo], e = w ∨ Prevails w e := by
    refine ⟨deleteByTwo, by simp, ?_⟩
    simp only [List.mem_cons, List.not_mem_nil, or_false, forall_eq_or_imp, forall_eq, true_or,
      and_true]
    exact Or.inr (Or.inr ⟨by decide, by decide⟩)
  exact (resolveConflict_perm_iff (by simp) (by decide) (by decide)).mpr hwins _ (.swap _ _ [])

/-- The delete removes the concurrent write, unless its own successor has removed it first. -/
theorem resolveConflict_order_matters :
    ∃ docs docs', docs ≠ [] ∧ DistinctVersions docs ∧ docs.Pairwise (fun a b => a.hlc ≠ b.hlc) ∧
      docs'.Perm docs ∧ resolveConflict docs' ≠ resolveConflict docs := by
  refine ⟨[writeByOne, deleteByTwo, rewriteByTwo], [writeByOne, rewriteByTwo, deleteByTwo], by simp,
    by decide, by decide, (List.Perm.swap _ _ []).cons writeByOne, ?_⟩
  have h₁ : resolveConflict [writeByOne, deleteByTwo, rewriteByTwo] = some rewriteByTwo := rfl
  have h₂ : resolveConflict [writeByOne, rewriteByTwo, deleteByTwo] = some deleteByTwo := rfl
  rw [h₁, h₂]
  intro h
  exact absurd (congrArg VersionedDoc.isTombstone (Option.some.inj h)) (by decide)

/-- No document of the list is causally later. -/
def Latest (docs : List VersionedDoc) (d : VersionedDoc) : Prop :=
  ∀ e ∈ docs, d.version.compare e.version ≠ .before

/-- The documented rules, in priority order. -/
structure FollowsRules (docs : List VersionedDoc) (w : VersionedDoc) : Prop where
  mem : w ∈ docs
  causallyLatest : Latest docs w
  deleteWins : (∃ e ∈ docs, Latest docs e ∧ e.isTombstone = true) → w.isTombstone = true
  lastWriteWins : ∀ e ∈ docs, Latest docs e → e.isTombstone = w.isTombstone → e.hlc ≤ w.hlc

theorem followsRules_iff : FollowsRules docs w ↔ Selection.IsChoice Precedes rank docs w := by
  constructor
  · intro h
    refine ⟨h.mem, h.causallyLatest, fun e he hlatest => rank_le_iff.mpr ?_⟩
    have hdel : e.isTombstone = true → w.isTombstone = true := fun htomb =>
      h.deleteWins ⟨e, he, hlatest, htomb⟩
    have hlww := h.lastWriteWins e he hlatest
    revert hdel hlww
    cases e.isTombstone <;> cases w.isTombstone <;> simp
  · intro h
    refine ⟨h.mem, h.top, ?_, fun e he hlatest heq => ?_⟩
    · rintro ⟨e, he, hlatest, htomb⟩
      have hle := rank_le_iff.mp (h.best e he hlatest)
      rw [htomb] at hle
      revert hle
      cases w.isTombstone <;> simp
    · rcases rank_le_iff.mp (h.best e he hlatest) with hlt | hle
      · exact absurd heq (ne_of_lt hlt)
      · exact hle.2

/-- Whatever part of the documents answers, and in whatever order, the rules are followed
exactly when no document ranks between another and that one's lower-ranked successor. -/
theorem resolveConflict_followsRules_iff (hver : DistinctVersions docs) :
    (∀ docs', docs' ≠ [] → docs'.Subperm docs →
        ∃ w, resolveConflict docs' = some w ∧ FollowsRules docs' w) ↔
      ∀ a ∈ docs, ∀ b ∈ docs, ∀ c ∈ docs, ¬ Selection.Crossed Precedes rank a b c := by
  rw [← Selection.isChoice_champion_iff (resolveTwo_prefers hver), resolveConflict_eq_champion]
  simp only [followsRules_iff]
  constructor
  · intro h docs' w hsub hw
    have hne : docs' ≠ [] := by
      rintro rfl
      cases hw
    obtain ⟨v, hv, hchoice⟩ := h docs' hne hsub
    cases hv.symm.trans hw
    exact hchoice
  · intro h docs' hne hsub
    obtain ⟨w, hw⟩ := Selection.exists_champion resolveTwo hne
    exact ⟨w, hw, h docs' w hsub hw⟩

theorem resolveConflict_followsRules_two :
    ∃ w, resolveConflict [writeByOne, deleteByTwo] = some w ∧
      FollowsRules [writeByOne, deleteByTwo] w :=
  (resolveConflict_followsRules_iff (by decide)).mpr (by
    intro a _ b hb c hc h
    have hnone : ∀ b ∈ [writeByOne, deleteByTwo], ∀ c ∈ [writeByOne, deleteByTwo],
        ¬ Precedes b c := by
      decide
    exact hnone b hb c hc h.below) _ (by simp) (List.Subperm.refl _)

/-- The fold ends on a delete although the list holds its causal successor. -/
theorem resolveConflict_superseded :
    ∃ docs w, docs ≠ [] ∧ DistinctVersions docs ∧ resolveConflict docs = some w ∧
      ¬ FollowsRules docs w := by
  refine ⟨[writeByOne, rewriteByTwo, deleteByTwo], deleteByTwo, by simp, by decide, rfl, ?_⟩
  intro h
  exact h.causallyLatest rewriteByTwo (by simp) rfl

end BashfulDB.Replication
