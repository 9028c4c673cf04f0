import Mathlib.Order.Lattice
import Mathlib.Tactic.Common

/-!
Finite maps kept as entry lists in strictly ascending key order. The list operations
stand on their own, for types that store the entries inline; `OrdMap` bundles them with
the order as a field.
-/

namespace Entries

variable {K V : Type*} [LinearOrder K] {k j : K} {v w : V} {l : List (K × V)}

/-- Keys strictly ascend, so each key has at most one entry. -/
def Ascending (l : List (K × V)) : Prop := l.Pairwise (fun a b => a.1 < b.1)

instance (l : List (K × V)) : Decidable (Ascending l) :=
  inferInstanceAs (Decidable (l.Pairwise _))

theorem ascending_map {W : Type*} {f : V → W} :
    Ascending (l.map fun e => (e.1, f e.2)) ↔ Ascending l := List.pairwise_map

def get (k : K) : List (K × V) → Option V
  | [] => none
  | (j, w) :: l => if k = j then some w else get k l

def insert (k : K) (v : V) : List (K × V) → List (K × V)
  | [] => [(k, v)]
  | (j, w) :: l =>
    if k < j then (k, v) :: (j, w) :: l
    else if k = j then (k, v) :: l
    else (j, w) :: insert k v l

theorem mem_insert {e : K × V} (h : e ∈ insert k v l) : e = (k, v) ∨ e ∈ l := by
  induction l with
  | nil => simpa [insert] using h
  | cons a l ih =>
    obtain ⟨j, w⟩ := a
    unfold insert at h
    split at h
    · simpa using h
    · split at h
      · rcases List.mem_cons.mp h with h | h
        · exact Or.inl h
        · exact Or.inr (by simp [h])
      · rcases List.mem_cons.mp h with h | h
        · exact Or.inr (by simp [h])
        · rcases ih h with h | h
          · exact Or.inl h
          · exact Or.inr (by simp [h])

theorem ascending_insert (h : Ascending l) : Ascending (insert k v l) := by
  induction l with
  | nil => simp [insert, Ascending]
  | cons a l ih =>
    obtain ⟨j, w⟩ := a
    obtain ⟨hj, hl⟩ := List.pairwise_cons.mp h
    unfold insert
    split
    · rename_i hlt
      refine List.pairwise_cons.mpr ⟨?_, h⟩
      intro e he
      rcases List.mem_cons.mp he with rfl | he
      · exact hlt
      · exact lt_trans hlt (hj e he)
    · split
      · rename_i _ heq
        subst heq
        exact List.pairwise_cons.mpr ⟨hj, hl⟩
      · rename_i hlt hne
        refine List.pairwise_cons.mpr ⟨?_, ih hl⟩
        intro e he
        rcases mem_insert he with rfl | he
        · exact lt_of_le_of_ne (not_lt.mp hlt) (Ne.symm hne)
        · exact hj e he

theorem get_insert_self : get k (insert k v l) = some v := by
  induction l with
  | nil => simp [insert, get]
  | cons a l ih =>
    obtain ⟨j, w⟩ := a
    unfold insert
    split
    · simp [get]
    · split
      · simp [get]
      · rename_i hne
        simp [get, hne, ih]

theorem get_insert_of_ne (h : j ≠ k) : get j (insert k v l) = get j l := by
  induction l with
  | nil => simp [insert, get, h]
  | cons a l ih =>
    obtain ⟨i, w⟩ := a
    unfold insert
    split
    · simp [get, h]
    · split
      · rename_i heq
        subst heq
        simp [get, h]
      · by_cases hi : j = i <;> simp [get, hi, ih]

/-- Off its own key an insertion changes nothing. -/
theorem filter_insert (k : K) (v : V) (l : List (K × V)) :
    (insert k v l).filter (fun e => e.1 ≠ k) = l.filter (fun e => e.1 ≠ k) := by
  induction l with
  | nil => simp [insert]
  | cons a l ih =>
    obtain ⟨j, w⟩ := a
    unfold insert
    split
    · simp
    · split
      · rename_i heq
        simp [← heq]
      · rw [List.filter_cons, List.filter_cons, ih]

theorem length_insert_le (k : K) (v : V) (l : List (K × V)) :
    (insert k v l).length ≤ l.length + 1 := by
  induction l with
  | nil => exact le_rfl
  | cons a l ih =>
    unfold insert
    split
    · exact le_rfl
    · split
      · exact Nat.le_succ _
      · exact Nat.succ_le_succ ih

/-- Appending in ascending order is what insertion does with a key above all others. -/
theorem insert_of_forall_lt (h : ∀ e ∈ l, e.1 < k) : insert k v l = l ++ [(k, v)] := by
  induction l with
  | nil => rfl
  | cons a l ih =>
    obtain ⟨j, w⟩ := a
    have hj : j < k := h (j, w) (by simp)
    unfold insert
    rw [if_neg (not_lt_of_gt hj), if_neg (ne_of_gt hj), ih (fun e he => h e (by simp [he]))]
    rfl

/-- Inserts entries one after the other: of those with one key, the last stays. -/
def insertAll (m l : List (K × V)) : List (K × V) := l.foldl (fun m e => insert e.1 e.2 m) m

variable {m : List (K × V)}

theorem mem_insertAll {e : K × V} (h : e ∈ insertAll m l) : e ∈ m ∨ e ∈ l := by
  induction l generalizing m with
  | nil => exact .inl h
  | cons a l ih =>
    rcases ih h with hmem | hmem
    · rcases mem_insert hmem with rfl | hmem
      · exact .inr (by simp)
      · exact .inl hmem
    · exact .inr (by simp [hmem])

theorem ascending_insertAll (h : Ascending m) : Ascending (insertAll m l) := by
  induction l generalizing m with
  | nil => exact h
  | cons a l ih => exact ih (ascending_insert h)

theorem length_insertAll_le (m l : List (K × V)) :
    (insertAll m l).length ≤ m.length + l.length := by
  induction l generalizing m with
  | nil => exact le_rfl
  | cons a l ih =>
    calc (insertAll m (a :: l)).length
        ≤ (insert a.1 a.2 m).length + l.length := ih _
      _ ≤ m.length + 1 + l.length := Nat.add_le_add_right (length_insert_le _ _ _) _
      _ = m.length + (l.length + 1) := by omega

/-- Entries in ascending order all stay. -/
theorem insertAll_of_ascending (h : Ascending (m ++ l)) : insertAll m l = m ++ l := by
  induction l generalizing m with
  | nil => exact (List.append_nil m).symm
  | cons a l ih =>
    have hlt : ∀ e ∈ m, e.1 < a.1 := fun e he =>
      (List.pairwise_append.mp h).2.2 e he a (by simp)
    have hsplit : m ++ a :: l = m ++ [a] ++ l := by simp
    calc insertAll m (a :: l)
        = insertAll (m ++ [a]) l := by rw [← insert_of_forall_lt hlt]; rfl
      _ = m ++ [a] ++ l := ih (hsplit ▸ h)
      _ = m ++ a :: l := hsplit.symm

theorem insertAll_nil (h : Ascending l) : insertAll [] l = l := insertAll_of_ascending h

theorem get_of_forall_lt (h : ∀ e ∈ l, k < e.1) : get k l = none := by
  induction l with
  | nil => rfl
  | cons a l ih =>
    obtain ⟨j, w⟩ := a
    have hj : k < j := h (j, w) (by simp)
    rw [get, if_neg (ne_of_lt hj)]
    exact ih fun e he => h e (by simp [he])

theorem get_filter (p : K → V → Bool) (h : Ascending l) :
    get k (l.filter fun e => p e.1 e.2) = (get k l).filter (p k) := by
  induction l with
  | nil => rfl
  | cons a l ih =>
    obtain ⟨j, w⟩ := a
    obtain ⟨hj, hl⟩ := List.pairwise_cons.mp h
    by_cases hk : k = j
    · subst hk
      cases hp : p k w with
      | true => simp [get, Option.filter, hp]
      | false =>
        have hnone : get k (l.filter fun e => p e.1 e.2) = none :=
          get_of_forall_lt fun e he => hj e (List.mem_filter.mp he).1
        simp [get, Option.filter, hp, hnone]
    · cases hp : p j w <;> simp [get, hk, hp, ih hl]

theorem get_eq_some_iff (h : Ascending l) : get k l = some v ↔ (k, v) ∈ l := by
  induction l with
  | nil => simp [get]
  | cons a l ih =>
    obtain ⟨j, w⟩ := a
    obtain ⟨hj, hl⟩ := List.pairwise_cons.mp h
    by_cases hk : k = j
    · subst hk
      have hout : (k, v) ∉ l := fun hm => lt_irrefl k (hj (k, v) hm)
      simp [get, hout, eq_comm]
    · simp [get, hk, ih hl]

theorem get_isSome_iff : (get k l).isSome ↔ k ∈ l.map Prod.fst := by
  induction l with
  | nil => simp [get]
  | cons a l ih =>
    obtain ⟨j, w⟩ := a
    by_cases h : k = j <;> simp [get, h, ih]

theorem mem_of_get (h : get k l = some v) : (k, v) ∈ l := by
  induction l with
  | nil => cases h
  | cons a l ih =>
    rw [get] at h
    split at h
    · rename_i heq
      cases h
      exact heq ▸ List.mem_cons_self
    · exact List.mem_cons_of_mem _ (ih h)

theorem get_append (k : K) (l l' : List (K × V)) : get k (l ++ l') = (get k l).or (get k l') := by
  induction l with
  | nil => rfl
  | cons a l ih =>
    rw [List.cons_append, get, get, ih]
    split <;> rfl

/-- Of the entries with one key, the last one is found. -/
theorem get_insertAll (k : K) (m l : List (K × V)) :
    get k (insertAll m l) = (get k l.reverse).or (get k m) := by
  induction l generalizing m with
  | nil => rfl
  | cons a l ih =>
    have hfirst : get k (insert a.1 a.2 m) = (get k [a]).or (get k m) := by
      by_cases hk : k = a.1
      · subst hk
        simp [get, get_insert_self]
      · simp [get, hk, get_insert_of_ne]
    rw [List.reverse_cons, get_append, Option.or_assoc, ← hfirst]
    exact ih _

theorem mem_insertAll_nil {e : K × V} : e ∈ insertAll [] l ↔ get e.1 l.reverse = some e.2 := by
  rw [← get_eq_some_iff (ascending_insertAll List.Pairwise.nil), get_insertAll, get, Option.or_none]

theorem keys_insertAll_nil : k ∈ (insertAll [] l).map Prod.fst ↔ k ∈ l.map Prod.fst := by
  rw [← get_isSome_iff, get_insertAll, get, Option.or_none, get_isSome_iff, List.map_reverse,
    List.mem_reverse]

end Entries

/-- A finite map whose entries cannot be out of order. -/
structure OrdMap (K V : Type*) [LinearOrder K] where
  entries : List (K × V)
  ascending : Entries.Ascending entries

namespace OrdMap

variable {K V : Type*} [LinearOrder K] {k j : K} {v : V}

instance [DecidableEq V] : DecidableEq (OrdMap K V) := fun a b =>
  decidable_of_iff (a.entries = b.entries) (by cases a; cases b; simp)

def empty : OrdMap K V := ⟨[], List.Pairwise.nil⟩

def get (m : OrdMap K V) (k : K) : Option V := Entries.get k m.entries

def contains (m : OrdMap K V) (k : K) : Bool := (m.get k).isSome

def insert (m : OrdMap K V) (k : K) (v : V) : OrdMap K V :=
  ⟨Entries.insert k v m.entries, Entries.ascending_insert m.ascending⟩

def keys (m : OrdMap K V) : List K := m.entries.map Prod.fst

def values (m : OrdMap K V) : List V := m.entries.map Prod.snd

def length (m : OrdMap K V) : Nat := m.entries.length

/-- `retain`: keep the entries that satisfy `p`. -/
def retain (m : OrdMap K V) (p : K → V → Bool) : OrdMap K V :=
  ⟨m.entries.filter (fun e => p e.1 e.2), m.ascending.filter _⟩

@[simp] theorem get_empty : (empty : OrdMap K V).get k = none := rfl

@[simp] theorem get_insert_self (m : OrdMap K V) : (m.insert k v).get k = some v :=
  Entries.get_insert_self

theorem get_insert_of_ne (m : OrdMap K V) (h : j ≠ k) : (m.insert k v).get j = m.get j :=
  Entries.get_insert_of_ne h

theorem get_insert (m : OrdMap K V) :
    (m.insert k v).get j = if j = k then some v else m.get j := by
  by_cases h : j = k
  · subst h
    simp
  · rw [get_insert_of_ne m h, if_neg h]

theorem get_retain (m : OrdMap K V) (p : K → V → Bool) :
    (m.retain p).get k = (m.get k).filter (p k) :=
  Entries.get_filter p m.ascending

theorem get_retain_of_forall {m : OrdMap K V} {p : K → V → Bool}
    (h : ∀ v, m.get k = some v → p k v = true) : (m.retain p).get k = m.get k := by
  rw [get_retain]
  cases hget : m.get k with
  | none => rfl
  | some v => rw [Option.filter_some, if_pos (h v hget)]

theorem get_eq_some_iff {m : OrdMap K V} : m.get k = some v ↔ (k, v) ∈ m.entries :=
  Entries.get_eq_some_iff m.ascending

/-- A map is known by its lookups. -/
theorem ext_get {m n : OrdMap K V} (h : ∀ k, m.get k = n.get k) : m = n := by
  have hmem (e : K × V) : e ∈ m.entries ↔ e ∈ n.entries := by
    rw [← get_eq_some_iff, ← get_eq_some_iff, h]
  have hnodup (p : OrdMap K V) : p.entries.Nodup :=
    p.ascending.imp fun hlt heq => absurd (congrArg Prod.fst heq) (ne_of_lt hlt)
  have hperm : m.entries.Perm n.entries :=
    (List.perm_ext_iff_of_nodup (hnodup m) (hnodup n)).mpr hmem
  have hentries : m.entries = n.entries :=
    hperm.eq_of_pairwise (fun a b _ _ hab hba => absurd hab (lt_asymm hba))
      m.ascending n.ascending
  cases m
  cases n
  simpa using hentries

/-- Writing what is there already changes nothing. -/
theorem insert_of_get {m : OrdMap K V} (h : m.get k = some v) : m.insert k v = m := by
  refine ext_get fun j => ?_
  by_cases hj : j = k
  · rw [hj, get_insert_self, h]
  · exact get_insert_of_ne m hj

theorem mem_keys {m : OrdMap K V} : k ∈ m.keys ↔ (m.get k).isSome := Entries.get_isSome_iff.symm

theorem mem_keys_insert {m : OrdMap K V} : j ∈ (m.insert k v).keys ↔ j = k ∨ j ∈ m.keys := by
  rw [mem_keys, mem_keys, get_insert]
  by_cases h : j = k <;> simp [h]

theorem nodup_keys (m : OrdMap K V) : m.keys.Nodup := by
  rw [keys, List.Nodup, List.pairwise_map]
  exact m.ascending.imp fun hlt => ne_of_lt hlt

/-- A map has one entry more when a key is new. -/
theorem length_insert (m : OrdMap K V) :
    (m.insert k v).length = if (m.get k).isSome then m.length else m.length + 1 := by
  have hkeys (m : OrdMap K V) : m.length = m.keys.length := (List.length_map _).symm
  rw [hkeys, hkeys m]
  split
  · rename_i hk
    refine ((List.perm_ext_iff_of_nodup (nodup_keys _) (nodup_keys m)).mpr fun j => ?_).length_eq
    rw [mem_keys_insert, or_iff_right_iff_imp]
    rintro rfl
    exact mem_keys.mpr hk
  · rename_i hk
    have hnew : (k :: m.keys).Nodup := List.nodup_cons.mpr ⟨mem_keys.not.mpr hk, nodup_keys m⟩
    refine ((List.perm_ext_iff_of_nodup (nodup_keys _) hnew).mpr fun j => ?_).length_eq
    rw [mem_keys_insert, List.mem_cons]

/-- Enter the listed entries, one after the other. -/
def insertAll (m : OrdMap K V) (l : List (K × V)) : OrdMap K V :=
  l.foldl (fun m e => m.insert e.1 e.2) m

theorem insertAll_append (m : OrdMap K V) (l l' : List (K × V)) :
    m.insertAll (l ++ l') = (m.insertAll l).insertAll l' := List.foldl_append

/-- No two of the entries give one key different values. -/
def Coherent (l : List (K × V)) : Prop := ∀ p ∈ l, ∀ q ∈ l, p.1 = q.1 → p.2 = q.2

/-- Coherent entries are all there in the end, none replaced by a later one. -/
theorem get_insertAll {m : OrdMap K V} {l : List (K × V)} (h : Coherent l) :
    (m.insertAll l).get k = some v ↔ (k, v) ∈ l ∨ k ∉ l.map Prod.fst ∧ m.get k = some v := by
  induction l generalizing m with
  | nil => simp [insertAll]
  | cons e l ih =>
    have hl : Coherent l := fun p hp q hq => h p (List.mem_cons_of_mem _ hp) q
      (List.mem_cons_of_mem _ hq)
    obtain ⟨j, w⟩ := e
    refine (ih (m := m.insert j w) hl).trans ?_
    rw [get_insert]
    by_cases hk : k = j
    · subst hk
      have hw : ∀ u, (k, u) ∈ l → u = w := fun u hu =>
        h (k, u) (List.mem_cons_of_mem _ hu) (k, w) List.mem_cons_self rfl
      by_cases hin : k ∈ l.map Prod.fst
      · obtain ⟨⟨k, u⟩, hu, rfl⟩ := List.mem_map.mp hin
        obtain rfl := hw u hu
        have hiff : (k, v) ∈ l ↔ v = u ∨ (k, v) ∈ l :=
          ⟨Or.inr, fun hv => hv.elim (fun heq => heq ▸ hu) id⟩
        simpa [hin] using hiff
      · have hnot : ∀ u, (k, u) ∉ l := fun u hu => hin (List.mem_map_of_mem hu)
        simp [hnot, eq_comm]
    · simp [hk]

/-- The order in which coherent entries are entered, and how often, does not matter. -/
theorem insertAll_congr {m : OrdMap K V} {l l' : List (K × V)} (h : Coherent l)
    (hmem : ∀ e, e ∈ l ↔ e ∈ l') : m.insertAll l = m.insertAll l' := by
  have h' : Coherent l' := fun p hp q hq => h p ((hmem p).mpr hp) q ((hmem q).mpr hq)
  have hkeys : ∀ k, k ∈ l.map Prod.fst ↔ k ∈ l'.map Prod.fst := by
    intro k
    simp only [List.mem_map, hmem]
  refine ext_get fun k => Option.ext fun v => ?_
  rw [get_insertAll h, get_insertAll h', hmem, hkeys]

/-- Enter `v` under `k`, combined by `f` with the value already there. -/
def insertWith (f : V → V → V) (m : OrdMap K V) (k : K) (v : V) : OrdMap K V :=
  match m.get k with
  | some existing => m.insert k (f existing v)
  | none => m.insert k v

theorem get_insertWith (f : V → V → V) (m : OrdMap K V) :
    (m.insertWith f k v).get j = if j = k then (m.get k).merge f (some v) else m.get j := by
  unfold insertWith
  cases m.get k <;> simp [get_insert]

/-- Enter all entries of `n` into `m`, one after the other. -/
def unionWith (f : V → V → V) (m n : OrdMap K V) : OrdMap K V :=
  n.entries.foldl (fun acc e => acc.insertWith f e.1 e.2) m

theorem get_unionWith (f : V → V → V) (m n : OrdMap K V) :
    (m.unionWith f n).get k = (m.get k).merge f (n.get k) := by
  have step (l : List (K × V)) (acc : OrdMap K V) (h : Entries.Ascending l) :
      (l.foldl (fun acc e => acc.insertWith f e.1 e.2) acc).get k =
        (acc.get k).merge f (Entries.get k l) := by
    induction l generalizing acc with
    | nil => simp [Entries.get]
    | cons e l ih =>
      obtain ⟨j, w⟩ := e
      obtain ⟨hj, hl⟩ := List.pairwise_cons.mp h
      rw [List.foldl_cons, ih _ hl, get_insertWith]
      by_cases hk : k = j
      · subst hk
        simp [Entries.get, Entries.get_of_forall_lt hj]
      · simp [Entries.get, hk]
  exact step n.entries m n.ascending

def erase (m : OrdMap K V) (k : K) : OrdMap K V := m.retain fun j _ => j ≠ k

theorem length_erase_le (m : OrdMap K V) : (m.erase k).length ≤ m.length :=
  List.length_filter_le _ _

theorem get_erase (m : OrdMap K V) : (m.erase k).get j = if j = k then none else m.get j := by
  rw [erase, get_retain]
  by_cases h : j = k
  · simp [h]
  · cases m.get j <;> simp [h]

/-- The set of the listed keys, ascending and without repetition. -/
def collect (l : List K) : OrdMap K Unit := l.foldl (fun s k => s.insert k ()) empty

theorem mem_keys_collect {l : List K} : k ∈ (collect l).keys ↔ k ∈ l := by
  have step (l : List K) (s : OrdMap K Unit) :
      k ∈ (l.foldl (fun s k => s.insert k ()) s).keys ↔ k ∈ l ∨ k ∈ s.keys := by
    induction l generalizing s with
    | nil => simp
    | cons a l ih =>
      rw [List.foldl_cons, ih, mem_keys_insert, List.mem_cons]
      tauto
  rw [collect, step]
  simp [keys, empty]

end OrdMap
