import Mathlib.Data.List.Induction
import Mathlib.Data.List.Perm.Subperm
import Mathlib.Order.Lattice
import Mathlib.Tactic.Common

/-!
Choosing one element of a list by a pairwise choice, from left to right: when the order of
the list does not matter, which elements some order ends on, and when a priority that a partial
order may override still selects the best of the maximal elements.
-/

namespace Selection

variable {α κ : Type*} {pick : α → α → α} {l : List α} {a b c w : α}

/-- The survivor of the choices made along the list. -/
def champion (pick : α → α → α) : List α → Option α
  | [] => none
  | a :: l => some (l.foldl pick a)

theorem champion_concat (h : champion pick l = some w) :
    champion pick (l ++ [a]) = some (pick w a) := by
  cases l with
  | nil => cases h
  | cons b l =>
    cases h
    simp [champion]

theorem exists_champion (pick : α → α → α) (h : l ≠ []) : ∃ w, champion pick l = some w := by
  cases l with
  | nil => exact absurd rfl h
  | cons a l => exact ⟨_, rfl⟩

/-- Induction along the run of choices. -/
theorem champion_induction {P : List α → α → Prop} (single : ∀ a, P [a] a)
    (step : ∀ l w a, champion pick l = some w → P l w → P (l ++ [a]) (pick w a))
    (h : champion pick l = some w) : P l w := by
  induction l using List.reverseRecOn generalizing w with
  | nil => cases h
  | append_singleton l a ih =>
    by_cases hl : l = []
    · subst hl
      cases h
      exact single a
    · obtain ⟨v, hv⟩ := exists_champion pick hl
      cases (champion_concat hv).symm.trans h
      exact step l v a hv (ih hv)

/-- A choice returns one of its two arguments. -/
def Selective (pick : α → α → α) : Prop := ∀ a b, pick a b = a ∨ pick a b = b

theorem Selective.self (hsel : Selective pick) (a : α) : pick a a = a := by
  rcases hsel a a with h | h <;> exact h

theorem champion_mem (hsel : Selective pick) (h : champion pick l = some w) : w ∈ l := by
  refine champion_induction (P := fun l w => w ∈ l) (by simp) ?_ h
  intro l w a _ hw
  rcases hsel w a with h | h <;> simp [h, hw]

/-- A measure that no choice lowers is highest at the survivor. -/
theorem le_champion [Preorder κ] {f : α → κ} (hsel : Selective pick)
    (hpick : ∀ a ∈ l, ∀ b ∈ l, f a ≤ f (pick a b) ∧ f b ≤ f (pick a b))
    (h : champion pick l = some w) : ∀ e ∈ l, f e ≤ f w := by
  refine champion_induction (P := fun l w =>
    (∀ a ∈ l, ∀ b ∈ l, f a ≤ f (pick a b) ∧ f b ≤ f (pick a b)) → ∀ e ∈ l, f e ≤ f w) ?_ ?_ h hpick
  · intro a _ e he
    rw [List.mem_singleton.mp he]
  · intro l w a hw ih hpick e he
    obtain ⟨hleft, hright⟩ := hpick w (by simp [champion_mem hsel hw]) a (by simp)
    rcases List.mem_append.mp he with he | he
    · refine le_trans (ih (fun a ha b hb => ?_) e he) hleft
      exact hpick a (List.mem_append_left _ ha) b (List.mem_append_left _ hb)
    · rw [List.mem_singleton.mp he]
      exact hright

/-- An element that no other displaces, and that displaces every other, wins. -/
theorem champion_of_undefeated (hsel : Selective pick) (hw : w ∈ l)
    (hbeat : ∀ e ∈ l, pick w e = w ∧ pick e w = w) : champion pick l = some w := by
  obtain ⟨v, hv⟩ := exists_champion pick (List.ne_nil_of_mem hw)
  suffices hvw : (∀ e ∈ l, pick w e = w ∧ pick e w = w) → w ∈ l → v = w by
    rw [hv, hvw hbeat hw]
  refine champion_induction (P := fun l v =>
    (∀ e ∈ l, pick w e = w ∧ pick e w = w) → w ∈ l → v = w) ?_ ?_ hv
  · intro a _ ha
    exact (List.mem_singleton.mp ha).symm
  · intro l v a hv ih hbeat hmem
    by_cases ha : a = w
    · subst ha
      exact (hbeat v (by simp [champion_mem hsel hv])).2
    · have hwl : w ∈ l := by simpa [Ne.symm ha] using hmem
      have hvw : v = w := ih (fun e he => hbeat e (by simp [he])) hwl
      rw [hvw, (hbeat a (by simp)).1]

/-- With a choice that does not depend on the order of its two arguments, the order of the
list does not matter exactly when one element of it is never displaced. -/
theorem champion_perm_iff (hsel : Selective pick) (hne : l ≠ [])
    (hcomm : ∀ a ∈ l, ∀ b ∈ l, pick a b = pick b a) :
    (∀ l', l'.Perm l → champion pick l' = champion pick l) ↔
      ∃ w ∈ l, ∀ e ∈ l, pick w e = w := by
  constructor
  · intro h
    obtain ⟨w, hw⟩ := exists_champion pick hne
    have hmem := champion_mem hsel hw
    refine ⟨w, hmem, fun e he => ?_⟩
    by_contra hlose
    have hew : e ≠ w := fun heq => hlose (heq ▸ hsel.self e)
    have hpick : pick w e = e := (hsel w e).resolve_left hlose
    classical
    -- The challenger goes last and the winner just before it.
    let rest := (l.erase w).erase e
    have hperm : (rest ++ [w, e]).Perm l := by
      have h₁ := List.perm_cons_erase hmem
      have h₂ := List.perm_cons_erase ((List.mem_erase_of_ne hew).mpr he)
      have h₃ : (rest ++ [w, e]).Perm (w :: e :: rest) := List.perm_append_comm
      exact h₃.trans ((h₂.symm.cons w).trans h₁.symm)
    have hfinal := (h _ hperm).trans hw
    by_cases hrest : rest = []
    · rw [hrest] at hfinal
      simp only [champion, List.nil_append, List.foldl_cons, List.foldl_nil, hpick,
        Option.some.injEq] at hfinal
      exact hew hfinal
    · obtain ⟨s, hs⟩ := exists_champion pick hrest
      have htwo := champion_concat (champion_concat hs (a := w)) (a := e)
      rw [List.append_assoc] at htwo
      have hw' : pick (pick s w) e = w := Option.some.inj (htwo.symm.trans hfinal)
      rcases hsel (pick s w) e with hk | hk
      · rw [hk] at hw'
        rw [hw', hpick] at hk
        exact hew hk
      · exact hew (hk.symm.trans hw')
  · rintro ⟨w, hmem, hbest⟩
    have hchamp : ∀ l', l'.Perm l → champion pick l' = some w := by
      intro l' hl'
      refine champion_of_undefeated hsel (hl'.mem_iff.mpr hmem) fun e he => ?_
      have he := hl'.mem_iff.mp he
      exact ⟨hbest e he, (hcomm e he w hmem).trans (hbest e he)⟩
    exact fun l' hl' => (hchamp l' hl').trans (hchamp l (List.Perm.refl l)).symm

/-- A later `a` takes the place of the survivor `b`. -/
def Displaces (pick : α → α → α) (a b : α) : Prop := pick b a ≠ b

/-- `w` heads a chain of elements, each of which displaces the next, and no element of the list
displaces them all. -/
def CanWin (pick : α → α → α) (l : List α) (w : α) : Prop :=
  ∃ chain, (w :: chain).Subperm l ∧ (w :: chain).IsChain (Displaces pick) ∧
    ∀ e ∈ l, ∃ s ∈ w :: chain, ¬ Displaces pick e s

theorem CanWin.mem (h : CanWin pick l w) : w ∈ l := by
  obtain ⟨chain, hsub, -⟩ := h
  exact hsub.subset (by simp)

theorem CanWin.perm {l' : List α} (h : CanWin pick l' w) (hperm : l'.Perm l) :
    CanWin pick l w := by
  obtain ⟨chain, hsub, hchain, hresist⟩ := h
  exact ⟨chain, hsub.trans hperm.subperm, hchain, fun e he => hresist e (hperm.mem_iff.mpr he)⟩

theorem canWin_of_champion (hsel : Selective pick) (h : champion pick l = some w) :
    CanWin pick l w := by
  have hself : ∀ a, ¬ Displaces pick a a := fun a ha => ha (hsel.self a)
  refine champion_induction (P := CanWin pick) ?_ ?_ h
  · intro a
    exact ⟨[], .refl _, .singleton a, by simp [hself]⟩
  · rintro l w a - ⟨chain, hsub, hchain, hresist⟩
    by_cases hkeep : pick w a = w
    · rw [hkeep]
      refine ⟨chain, hsub.trans (List.sublist_append_left l [a]).subperm, hchain, fun e he => ?_⟩
      rcases List.mem_append.mp he with he | he
      · exact hresist e he
      · rw [List.mem_singleton.mp he]
        exact ⟨w, by simp, fun h => h hkeep⟩
    · rw [(hsel w a).resolve_left hkeep]
      refine ⟨w :: chain, ?_, hchain.cons_cons hkeep, fun e he => ?_⟩
      · exact ((List.subperm_cons a).mpr hsub).trans (List.perm_append_singleton a l).symm.subperm
      · rcases List.mem_append.mp he with he | he
        · obtain ⟨s, hs, hstay⟩ := hresist e he
          exact ⟨s, List.mem_cons_of_mem a hs, hstay⟩
        · rw [List.mem_singleton.mp he]
          exact ⟨a, by simp, hself a⟩

/-- A survivor stays as long as nothing displaces it. -/
theorem champion_append {l' : List α} (h : champion pick l = some w)
    (hstay : ∀ e ∈ l', ¬ Displaces pick e w) : champion pick (l ++ l') = some w := by
  induction l' using List.reverseRecOn with
  | nil => rwa [List.append_nil]
  | append_singleton l' a ih =>
    have hw := champion_concat (a := a) (ih fun e he => hstay e (by simp [he]))
    rw [← List.append_assoc, hw, not_not.mp (hstay a (by simp))]

theorem exists_perm_of_canWin (hsel : Selective pick) (h : CanWin pick l w) :
    ∃ l', l'.Perm l ∧ champion pick l' = some w := by
  classical
  obtain ⟨chain, hsub, hchain, hresist⟩ := h
  induction chain generalizing l w with
  | nil =>
    obtain ⟨m, hm, hsub⟩ := List.subperm_iff.mp hsub
    obtain ⟨rest, hrest⟩ := hsub.exists_perm_append
    have hperm : ([w] ++ rest).Perm l := hrest.symm.trans hm
    refine ⟨[w] ++ rest, hperm, champion_append rfl fun e he => ?_⟩
    obtain ⟨s, hs, hstay⟩ := hresist e (hperm.mem_iff.mp (by simp [he]))
    rwa [List.mem_singleton.mp hs] at hstay
  | cons s chain ih =>
    obtain ⟨m, hm, hsub⟩ := List.subperm_iff.mp hsub
    obtain ⟨rest, hrest⟩ := hsub.exists_perm_append
    have hperm : (w :: (s :: chain ++ rest)).Perm l := hrest.symm.trans hm
    obtain ⟨hlast, hchain⟩ := List.isChain_cons_cons.mp hchain
    -- First those that the rest of the chain withstands, then `w`, then those that `w` withstands.
    let first : α → Prop := fun e => ∃ t ∈ s :: chain, ¬ Displaces pick e t
    obtain ⟨front, hfront, hs⟩ := ih (l := (s :: chain ++ rest).filter first) (w := s) (by
      have hkeep : (s :: chain).filter first = s :: chain :=
        List.filter_eq_self.mpr fun e he => decide_eq_true ⟨e, he, fun h => h (hsel.self e)⟩
      rw [List.filter_append, hkeep]
      exact (List.sublist_append_left _ _).subperm) hchain
      fun e he => of_decide_eq_true (List.mem_filter.mp he).2
    have hw : champion pick (front ++ [w]) = some w := by
      rw [champion_concat hs, (hsel s w).resolve_left hlast]
    let back := (s :: chain ++ rest).filter fun e => !decide (first e)
    refine ⟨front ++ [w] ++ back, ?_, champion_append hw fun e he => ?_⟩
    · have hsplit := List.filter_append_perm (fun e => decide (first e)) (s :: chain ++ rest)
      have hfirst : (front ++ back).Perm (s :: chain ++ rest) :=
        (hfront.append_right back).trans hsplit
      refine List.Perm.trans ?_ ((hfirst.cons w).trans hperm)
      rw [List.append_assoc]
      exact List.perm_middle
    · obtain ⟨hmem, hlate⟩ := List.mem_filter.mp he
      obtain ⟨t, ht, hstay⟩ := hresist e (hperm.mem_iff.mp (List.mem_cons_of_mem w hmem))
      rcases List.mem_cons.mp ht with rfl | ht
      · exact hstay
      · simp only [Bool.not_eq_true', decide_eq_false_iff_not] at hlate
        exact absurd ⟨t, ht, hstay⟩ hlate

/-- Any order of the values that the elements of a list have comes from an order of the list. -/
theorem exists_perm_filterMap {β : Type*} {f : α → Option β} {m : List β}
    (h : m.Perm (l.filterMap f)) : ∃ l' : List α, l'.Perm l ∧ l'.filterMap f = m := by
  induction l generalizing m with
  | nil => exact ⟨[], .refl _, (h.eq_nil).symm⟩
  | cons a l ih =>
    cases ha : f a with
    | none =>
      rw [List.filterMap_cons_none ha] at h
      obtain ⟨l', hl', hm⟩ := ih h
      exact ⟨a :: l', hl'.cons a, by rw [List.filterMap_cons_none ha, hm]⟩
    | some b =>
      rw [List.filterMap_cons_some ha] at h
      obtain ⟨front, back, rfl⟩ := List.append_of_mem (h.mem_iff.mpr List.mem_cons_self)
      obtain ⟨l', hl', hm⟩ := ih (List.perm_middle.symm.trans h).cons_inv
      obtain ⟨l₁, l₂, rfl, rfl, rfl⟩ := List.filterMap_eq_append_iff.mp hm
      refine ⟨l₁ ++ a :: l₂, List.perm_middle.trans (hl'.cons a), ?_⟩
      rw [List.filterMap_append, List.filterMap_cons_some ha]

/-! A linear priority that a strict partial order overrides. -/

variable [LinearOrder κ] {r : α → α → Prop} [IsStrictOrder α r] {key : α → κ}

/-- Nothing in the list is above `a`. -/
def IsTop (r : α → α → Prop) (l : List α) (a : α) : Prop := ∀ e ∈ l, ¬ r a e

/-- `w` is maximal in the list, and first by key among its maximal elements. -/
structure IsChoice (r : α → α → Prop) (key : α → κ) (l : List α) (w : α) : Prop where
  mem : w ∈ l
  top : IsTop r l w
  best : ∀ e ∈ l, IsTop r l e → key e ≤ key w

/-- Within the list, `pick` follows the partial order, and the key where the order is silent. -/
structure Prefers (r : α → α → Prop) (key : α → κ) (pick : α → α → α) (l : List α) : Prop where
  selective : Selective pick
  above : ∀ a ∈ l, ∀ b ∈ l, r b a → pick a b = a
  below : ∀ a ∈ l, ∀ b ∈ l, r a b → pick a b = b
  keep : ∀ a ∈ l, ∀ b ∈ l, ¬ r a b → ¬ r b a → key b ≤ key a → pick a b = a
  replace : ∀ a ∈ l, ∀ b ∈ l, ¬ r a b → ¬ r b a → key a < key b → pick a b = b

/-- `b` is below `c` but ranks above it, and `a`, unrelated to both, ranks between them. -/
structure Crossed (r : α → α → Prop) (key : α → κ) (a b c : α) : Prop where
  below : r b c
  left : ¬ r a b ∧ ¬ r b a
  right : ¬ r a c ∧ ¬ r c a
  lower : key c ≤ key a
  upper : key a ≤ key b
  strict : key c < key b

omit [IsStrictOrder α r] in
theorem Prefers.subset {l' : List α} (h : Prefers r key pick l) (hsub : l' ⊆ l) :
    Prefers r key pick l' where
  selective := h.selective
  above a ha b hb := h.above a (hsub ha) b (hsub hb)
  below a ha b hb := h.below a (hsub ha) b (hsub hb)
  keep a ha b hb := h.keep a (hsub ha) b (hsub hb)
  replace a ha b hb := h.replace a (hsub ha) b (hsub hb)

/-- Every element of a list is, or is below, a maximal one. -/
theorem exists_isTop (ha : a ∈ l) : ∃ m ∈ l, (a = m ∨ r a m) ∧ IsTop r l m := by
  induction l generalizing a with
  | nil => simp at ha
  | cons b l ih =>
    by_cases hb : ∃ x ∈ l, r b x
    · obtain ⟨x, hx, hbx⟩ := hb
      have hlift : ∀ m, IsTop r l m → IsTop r (b :: l) m := by
        intro m hm
        refine List.forall_mem_cons.mpr ⟨fun hmb => hm x hx (trans_of r hmb hbx), hm⟩
      rcases List.mem_cons.mp ha with rfl | ha
      · obtain ⟨m, hm, hxm, htop⟩ := ih hx
        refine ⟨m, by simp [hm], Or.inr ?_, hlift m htop⟩
        rcases hxm with rfl | hxm
        · exact hbx
        · exact trans_of r hbx hxm
      · obtain ⟨m, hm, ham, htop⟩ := ih ha
        exact ⟨m, by simp [hm], ham, hlift m htop⟩
    · have hbtop : IsTop r (b :: l) b :=
        List.forall_mem_cons.mpr ⟨irrefl_of r b, fun x hx hbx => hb ⟨x, hx, hbx⟩⟩
      rcases List.mem_cons.mp ha with rfl | ha
      · exact ⟨a, by simp, Or.inl rfl, hbtop⟩
      · obtain ⟨m, hm, ham, htop⟩ := ih ha
        by_cases hmb : r m b
        · refine ⟨b, by simp, Or.inr ?_, hbtop⟩
          rcases ham with rfl | ham
          · exact hmb
          · exact trans_of r ham hmb
        · exact ⟨m, by simp [hm], ham, List.forall_mem_cons.mpr ⟨hmb, htop⟩⟩

omit [IsStrictOrder α r] in
theorem isTop_concat : IsTop r (l ++ [c]) a ↔ IsTop r l a ∧ ¬ r a c := by
  simp [IsTop, or_imp, forall_and]

omit [IsStrictOrder α r] in
theorem IsChoice.concat_keep (hw : IsChoice r key l w) (hwc : ¬ r w c)
    (hc : IsTop r l c → key c ≤ key w) : IsChoice r key (l ++ [c]) w where
  mem := by simp [hw.mem]
  top := isTop_concat.mpr ⟨hw.top, hwc⟩
  best e he htop := by
    obtain ⟨htop, -⟩ := isTop_concat.mp htop
    rcases List.mem_append.mp he with he | he
    · exact hw.best e he htop
    · rw [List.mem_singleton.mp he] at htop ⊢
      exact hc htop

theorem IsChoice.concat_replace (hw : IsChoice r key l w) (hc : IsTop r l c)
    (hbest : ∀ e ∈ l, IsTop r l e → ¬ r e c → key e ≤ key w → key e ≤ key c) :
    IsChoice r key (l ++ [c]) c where
  mem := by simp
  top := isTop_concat.mpr ⟨hc, irrefl_of r c⟩
  best e he htop := by
    obtain ⟨htop, hec⟩ := isTop_concat.mp htop
    rcases List.mem_append.mp he with he | he
    · exact hbest e he htop hec (hw.best e he htop)
    · rw [List.mem_singleton.mp he]

/-- Without crossed triples, one more choice keeps the survivor the best maximal element. -/
theorem isChoice_concat (hpref : Prefers r key pick (l ++ [c]))
    (hcross : ∀ a ∈ l ++ [c], ∀ b ∈ l ++ [c], ∀ d ∈ l ++ [c], ¬ Crossed r key a b d)
    (hw : IsChoice r key l w) : IsChoice r key (l ++ [c]) (pick w c) := by
  have hwm : w ∈ l ++ [c] := by simp [hw.mem]
  have hcm : c ∈ l ++ [c] := by simp
  have hlm : ∀ e ∈ l, e ∈ l ++ [c] := fun e he => by simp [he]
  by_cases hwc : r w c
  · rw [hpref.below w hwm c hcm hwc]
    have hctop : IsTop r l c := fun e he hce => hw.top e he (trans_of r hwc hce)
    refine hw.concat_replace hctop fun e he htop hec hew => ?_
    -- An unrelated element that ranks between `w` and its successor would be passed over.
    by_contra hlt
    exact hcross e (hlm e he) w hwm c hcm ⟨hwc, ⟨htop w hw.mem, hw.top e he⟩, ⟨hec, hctop e he⟩,
      le_of_not_ge hlt, hew, lt_of_lt_of_le (lt_of_not_ge hlt) hew⟩
  by_cases hcw : r c w
  · rw [hpref.above w hwm c hcm hcw]
    exact hw.concat_keep hwc fun hctop => absurd hcw (hctop w hw.mem)
  rcases le_or_gt (key c) (key w) with hle | hlt
  · rw [hpref.keep w hwm c hcm hwc hcw hle]
    exact hw.concat_keep hwc fun _ => hle
  · rw [hpref.replace w hwm c hcm hwc hcw hlt]
    refine hw.concat_replace (fun e he hce => ?_) fun e _ _ _ hew => hew.trans hlt.le
    -- A maximal element above `c` ranks at most `w`: the key displaced `w` against the order.
    obtain ⟨m, hm, hem, hmtop⟩ := exists_isTop (r := r) he
    have hcm' : r c m := by
      rcases hem with rfl | hem
      · exact hce
      · exact trans_of r hce hem
    have hmw : key m ≤ key w := hw.best m hm hmtop
    exact hcross w hwm c hcm m (hlm m hm) ⟨hcm', ⟨hwc, hcw⟩, ⟨hw.top m hm, hmtop w hw.mem⟩,
      hmw, hlt.le, lt_of_le_of_lt hmw hlt⟩

/-- Without crossed triples the survivor is the best maximal element. -/
theorem isChoice_champion (hpref : Prefers r key pick l)
    (hcross : ∀ a ∈ l, ∀ b ∈ l, ∀ c ∈ l, ¬ Crossed r key a b c)
    (h : champion pick l = some w) : IsChoice r key l w := by
  refine champion_induction (P := fun l w => Prefers r key pick l →
    (∀ a ∈ l, ∀ b ∈ l, ∀ c ∈ l, ¬ Crossed r key a b c) → IsChoice r key l w) ?_ ?_ h hpref hcross
  · intro a _ _
    exact ⟨by simp, by simp [IsTop, irrefl_of r a], by simp⟩
  · intro l w a _ ih hpref hcross
    have hsub : l ⊆ l ++ [a] := List.subset_append_left l [a]
    exact isChoice_concat hpref hcross (ih (hpref.subset hsub)
      fun a ha b hb c hc => hcross a (hsub ha) b (hsub hb) c (hsub hc))

/-- A crossed triple, in the wrong order, has a survivor that is not its best maximal element. -/
theorem exists_bad_order (hpref : Prefers r key pick [a, b, c])
    (h : Crossed r key a b c) :
    ∃ l', l'.Perm [a, b, c] ∧ ∀ w, champion pick l' = some w → ¬ IsChoice r key l' w := by
  have hcb : ¬ r c b := fun hcb => irrefl_of r b (trans_of r h.below hcb)
  rcases lt_or_eq_of_le h.lower with hlt | heq
  · refine ⟨[b, a, c], List.Perm.swap a b [c], ?_⟩
    have h₁ : pick b a = b := hpref.keep b (by simp) a (by simp) h.left.2 h.left.1 h.upper
    have h₂ : pick b c = c := hpref.below b (by simp) c (by simp) h.below
    rintro w hw hchoice
    simp only [champion, List.foldl_cons, List.foldl_nil, h₁, h₂, Option.some.injEq] at hw
    subst hw
    have hatop : IsTop r [b, a, c] a := by
      simp [IsTop, h.left, h.right, irrefl_of r a]
    exact absurd (hchoice.best a (by simp) hatop) (not_le_of_gt hlt)
  · have hab : key a < key b := heq ▸ h.strict
    refine ⟨[a, c, b], (List.Perm.swap b c []).cons a, ?_⟩
    have h₁ : pick a c = a := hpref.keep a (by simp) c (by simp) h.right.1 h.right.2 h.lower
    have h₂ : pick a b = b := hpref.replace a (by simp) b (by simp) h.left.1 h.left.2 hab
    rintro w hw hchoice
    simp only [champion, List.foldl_cons, List.foldl_nil, h₁, h₂, Option.some.injEq] at hw
    subst hw
    exact hchoice.top c (by simp) h.below

/-- The survivor is the best maximal element of every part of the list, in every order,
exactly when the list has no crossed triple. -/
theorem isChoice_champion_iff (hpref : Prefers r key pick l) :
    (∀ l' w, l'.Subperm l → champion pick l' = some w → IsChoice r key l' w) ↔
      ∀ a ∈ l, ∀ b ∈ l, ∀ c ∈ l, ¬ Crossed r key a b c := by
  constructor
  · intro h a ha b hb c hc hcross
    have hab : a ≠ b := by
      rintro rfl
      exact hcross.right.1 hcross.below
    have hac : a ≠ c := by
      rintro rfl
      exact hcross.left.2 hcross.below
    have hbc : b ≠ c := by
      rintro rfl
      exact irrefl_of r b hcross.below
    have hsub : [a, b, c] ⊆ l := by simp [ha, hb, hc]
    have hnodup : [a, b, c].Nodup := by simp [hab, hac, hbc]
    obtain ⟨l', hperm, hbad⟩ := exists_bad_order (hpref.subset hsub) hcross
    obtain ⟨w, hw⟩ := exists_champion pick (l := l') (by
      rintro rfl
      simpa using hperm.length_eq)
    exact hbad w hw (h l' w (hperm.subperm.trans (hnodup.subperm hsub)) hw)
  · intro hcross l' w hsub hw
    have hsub' := hsub.subset
    exact isChoice_champion (hpref.subset hsub')
      (fun a ha b hb c hc => hcross a (hsub' ha) b (hsub' hb) c (hsub' hc)) hw

end Selection
