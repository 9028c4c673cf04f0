import Mathlib.Tactic.Common

/-! Input that arrives in non-empty pieces, and computations that read from it. -/

/-- What a buffered reader still has to hand out, piece by piece. -/
abbrev Chunks (α : Type) := List { c : List α // c ≠ [] }

namespace Chunks

variable {α : Type}

def flat (cs : Chunks α) : List α := cs.flatMap Subtype.val

/-- `rest` goes back in front of the pieces, unless nothing is left of it. -/
def push (rest : List α) (cs : Chunks α) : Chunks α :=
  if h : rest = [] then cs else ⟨rest, h⟩ :: cs

/-- The next `n` elements. Where there are fewer, all of them are used up. -/
def readExact : Nat → Chunks α → Option (List α) × Chunks α
  | n, [] => (if n = 0 then some [] else none, [])
  | n, c :: cs =>
    if n ≤ c.val.length then (some (c.val.take n), push (c.val.drop n) cs)
    else
      match readExact (n - c.val.length) cs with
      | (rest, cs) => (rest.map (c.val ++ ·), cs)

@[simp] theorem flat_nil : flat ([] : Chunks α) = [] := rfl

@[simp] theorem flat_cons (c : { c : List α // c ≠ [] }) (cs : Chunks α) :
    flat (c :: cs) = c.val ++ flat cs := List.flatMap_cons

@[simp] theorem flat_push (rest : List α) (cs : Chunks α) :
    flat (push rest cs) = rest ++ flat cs := by
  unfold push
  split
  · rename_i h
    rw [h, List.nil_append]
  · rw [flat_cons]

theorem flat_eq_nil {cs : Chunks α} : flat cs = [] ↔ cs = [] := by
  constructor
  · intro h
    cases cs with
    | nil => rfl
    | cons c cs =>
      rw [flat_cons] at h
      exact absurd (List.append_eq_nil_iff.mp h).1 c.property
  · rintro rfl
    rfl

/-- Reading does not depend on the pieces. -/
theorem readExact_eq (n : Nat) (cs : Chunks α) :
    (readExact n cs).1 = (if n ≤ cs.flat.length then some (cs.flat.take n) else none) ∧
      (readExact n cs).2.flat = cs.flat.drop n := by
  induction cs generalizing n with
  | nil =>
    by_cases hn : n = 0 <;> simp [readExact, hn]
  | cons c cs ih =>
    rw [readExact, flat_cons]
    by_cases hle : n ≤ c.val.length
    · have hflat : n ≤ (c.val ++ flat cs).length := by
        rw [List.length_append]
        omega
      rw [if_pos hle, if_pos hflat, List.take_append_of_le_length hle,
        List.drop_append_of_le_length hle]
      exact ⟨rfl, flat_push _ _⟩
    · obtain ⟨hread, hrest⟩ := ih (n - c.val.length)
      have htake : c.val.take n = c.val := List.take_of_length_le (by omega)
      have hdrop : c.val.drop n = [] := List.drop_of_length_le (by omega)
      rw [if_neg hle, List.take_append, List.drop_append, htake, hdrop, List.length_append]
      refine ⟨?_, hrest⟩
      dsimp only
      rw [hread]
      by_cases hn : n - c.val.length ≤ (flat cs).length
      · rw [if_pos hn, if_pos (by omega), Option.map_some]
      · rw [if_neg hn, if_neg (by omega), Option.map_none]

end Chunks

/-- A computation that reads pieces of input and may fail. -/
abbrev ReadM (α ε : Type) := ExceptT ε (StateM (Chunks α))

namespace ReadM

variable {α ε β γ : Type}

/-- The result, and the input that is left. -/
def call (m : ReadM α ε β) (cs : Chunks α) : Except ε β × Chunks α := (m.run.run cs).run

/-- A computation by what it does to the input. -/
def of (f : Chunks α → Except ε β × Chunks α) : ReadM α ε β := ExceptT.mk fun cs => f cs

@[simp] theorem call_of (f : Chunks α → Except ε β × Chunks α) (cs : Chunks α) :
    (of f).call cs = f cs := rfl

@[simp] theorem call_pure (b : β) (cs : Chunks α) :
    (pure b : ReadM α ε β).call cs = (.ok b, cs) := rfl

@[simp] theorem call_throw (e : ε) (cs : Chunks α) :
    (throw e : ReadM α ε β).call cs = (.error e, cs) := rfl

@[simp] theorem call_lift (x : Except ε β) (cs : Chunks α) :
    (liftM x : ReadM α ε β).call cs = (x, cs) := rfl

theorem call_bind (m : ReadM α ε β) (f : β → ReadM α ε γ) (cs : Chunks α) :
    (m >>= f).call cs = match m.call cs with
      | (.ok b, rest) => (f b).call rest
      | (.error e, rest) => (.error e, rest) := by
  rcases h : m.call cs with ⟨res, rest⟩
  cases res <;> simp_all [call, ExceptT.run_bind, StateT.run_bind]

theorem call_bind_ok {m : ReadM α ε β} {f : β → ReadM α ε γ} {cs rest : Chunks α} {b : β}
    (h : m.call cs = (.ok b, rest)) : (m >>= f).call cs = (f b).call rest := by
  rw [call_bind, h]

theorem call_bind_error {m : ReadM α ε β} {f : β → ReadM α ε γ} {cs rest : Chunks α} {e : ε}
    (h : m.call cs = (.error e, rest)) : (m >>= f).call cs = (.error e, rest) := by
  rw [call_bind, h]

/-- `m` succeeds just as `R` says: on which input, with what, and with what input left. -/
def Accepts (R : List α → β → List α → Prop) (m : ReadM α ε β) : Prop :=
  ∀ cs b rest, (m.call cs).1 = .ok b ∧ (m.call cs).2.flat = rest ↔ R cs.flat b rest

/-- The inputs on which `m` fails with a `bad` error are those in `P`. -/
def Fails (bad : ε → Prop) (P : List α → Prop) (m : ReadM α ε β) : Prop :=
  ∀ cs, (∃ e, (m.call cs).1 = .error e ∧ bad e) ↔ P cs.flat

/-- The same result, and the same input left. -/
def Same (x y : Except ε β × Chunks α) : Prop := x.1 = y.1 ∧ x.2.flat = y.2.flat

/-- On an input outside `P`, the outcome is the same however the input is cut. -/
def Uncut (P : List α → Prop) (m : ReadM α ε β) : Prop :=
  ∀ cs cs' : Chunks α, cs.flat = cs'.flat → ¬ P cs.flat → Same (m.call cs) (m.call cs')

section Rules

variable {R R' : List α → β → List α → Prop} {S : β → List α → γ → List α → Prop}
  {bad : ε → Prop} {P P' : List α → Prop} {Q : β → List α → Prop}
  {m : ReadM α ε β} {f : β → ReadM α ε γ}

theorem Accepts.congr (h : Accepts R m) (hR : ∀ l b rest, R l b rest ↔ R' l b rest) :
    Accepts R' m := by
  intro cs b rest
  rw [← hR]
  exact h cs b rest

theorem accepts_lift (x : Except ε β) :
    Accepts (fun l b rest => x = .ok b ∧ l = rest) (liftM x : ReadM α ε β) := by
  intro cs b rest
  rfl

theorem accepts_pure (v : β) :
    Accepts (fun l b rest => b = v ∧ l = rest) (pure v : ReadM α ε β) := by
  intro cs b rest
  simp [eq_comm]

theorem accepts_throw (e : ε) : Accepts (fun _ _ _ => False) (throw e : ReadM α ε β) := by
  intro cs b rest
  simp

theorem Accepts.bind (hm : Accepts R m) (hf : ∀ b, Accepts (S b) (f b)) :
    Accepts (fun l c rest => ∃ b mid, R l b mid ∧ S b mid c rest) (m >>= f) := by
  intro cs c rest
  constructor
  · rintro ⟨hres, hrest⟩
    rcases hcs : m.call cs with ⟨e | b, mid⟩
    · rw [call_bind_error hcs] at hres
      cases hres
    · rw [call_bind_ok hcs] at hres hrest
      refine ⟨b, mid.flat, (hm cs b mid.flat).mp ?_, (hf b mid c rest).mp ⟨hres, hrest⟩⟩
      rw [hcs]
      exact ⟨rfl, rfl⟩
  · rintro ⟨b, mid, hR, hS⟩
    obtain ⟨hres, hmid⟩ := (hm cs b mid).mpr hR
    subst hmid
    rw [call_bind_ok (Prod.ext hres rfl)]
    exact (hf b _ c rest).mpr hS

theorem Accepts.ite {c : Prop} [Decidable c] {m' : ReadM α ε β} (hm : Accepts R m)
    (hm' : Accepts R' m') :
    Accepts (fun l b rest => c ∧ R l b rest ∨ ¬ c ∧ R' l b rest) (if c then m else m') := by
  intro cs b rest
  by_cases hc : c
  · simpa [hc] using hm cs b rest
  · simpa [hc] using hm' cs b rest

theorem Fails.bind (hR : Accepts R m) (hm : Fails bad P m) (hf : ∀ b, Fails bad (Q b) (f b)) :
    Fails bad (fun l => P l ∨ ∃ b mid, R l b mid ∧ Q b mid) (m >>= f) := by
  intro cs
  beta_reduce
  rw [← hm cs]
  rcases hcs : m.call cs with ⟨e | b, mid⟩
  · rw [call_bind_error hcs]
    constructor
    · rintro ⟨e', he, hbad⟩
      cases he
      exact Or.inl ⟨e, rfl, hbad⟩
    · rintro (⟨e', he, hbad⟩ | ⟨b, mid', hb, -⟩)
      · cases he
        exact ⟨e, rfl, hbad⟩
      · rw [← hR cs b mid', hcs] at hb
        cases hb.1
  · rw [call_bind_ok hcs, hf b mid]
    constructor
    · intro hq
      refine Or.inr ⟨b, mid.flat, (hR cs b _).mp ?_, hq⟩
      rw [hcs]
      exact ⟨rfl, rfl⟩
    · rintro (⟨e, he, -⟩ | ⟨b', mid', hb, hq⟩)
      · cases he
      · rw [← hR cs b' mid', hcs] at hb
        obtain ⟨hb, rfl⟩ := hb
        cases hb
        exact hq

theorem Uncut.bind (hR : Accepts R m) (hm : Uncut P m) (hf : ∀ b, Uncut (Q b) (f b)) :
    Uncut (fun l => P l ∨ ∃ b mid, R l b mid ∧ Q b mid) (m >>= f) := by
  intro cs cs' hflat hp
  obtain ⟨hres, hrest⟩ := hm cs cs' hflat fun h => hp (Or.inl h)
  rcases hcs : m.call cs with ⟨e | b, mid⟩ <;> rcases hcs' : m.call cs' with ⟨e' | b', mid'⟩ <;>
    rw [hcs, hcs'] at hres hrest <;> cases hres
  · rw [call_bind_error hcs, call_bind_error hcs']
    exact ⟨rfl, hrest⟩
  · rw [call_bind_ok hcs, call_bind_ok hcs']
    refine hf b mid mid' hrest fun hq => hp (Or.inr ⟨b, mid.flat, (hR cs b _).mp ?_, hq⟩)
    rw [hcs]
    exact ⟨rfl, rfl⟩

/-- The next `n` elements, or the error `e` where there are fewer. -/
def exactly (e : ε) (n : Nat) : ReadM α ε (List α) :=
  of fun cs => match Chunks.readExact n cs with
    | (some data, rest) => (.ok data, rest)
    | (none, rest) => (.error e, rest)

theorem call_exactly (e : ε) (n : Nat) (cs : Chunks α) :
    ((exactly e n).call cs).1 =
        (if n ≤ cs.flat.length then .ok (cs.flat.take n) else .error e) ∧
      ((exactly e n).call cs).2.flat = cs.flat.drop n := by
  obtain ⟨hdata, hrest⟩ := Chunks.readExact_eq n cs
  rcases hread : Chunks.readExact n cs with ⟨data, rest⟩
  rw [hread] at hdata hrest
  obtain rfl : data = _ := hdata
  rw [exactly, call_of, hread]
  by_cases hn : n ≤ cs.flat.length <;> simpa [hn] using hrest

theorem accepts_exactly (e : ε) (n : Nat) :
    Accepts (fun l data rest => data.length = n ∧ l = data ++ rest)
      (exactly e n : ReadM α ε (List α)) := by
  intro cs data rest
  obtain ⟨hres, hrest⟩ := call_exactly e n cs
  rw [hres, hrest]
  constructor
  · rintro ⟨hdata, rfl⟩
    by_cases hn : n ≤ cs.flat.length
    · rw [if_pos hn] at hdata
      cases hdata
      exact ⟨List.length_take_of_le hn, (List.take_append_drop n cs.flat).symm⟩
    · rw [if_neg hn] at hdata
      cases hdata
  · rintro ⟨rfl, hflat⟩
    rw [hflat, if_pos (by simp), List.take_left, List.drop_left]
    exact ⟨rfl, rfl⟩

theorem fails_exactly {e : ε} (he : ¬ bad e) (n : Nat) :
    Fails bad (fun _ => False) (exactly e n : ReadM α ε (List α)) := by
  intro cs
  rw [(call_exactly e n cs).1]
  by_cases hn : n ≤ cs.flat.length <;> simp [hn, he]

theorem uncut_lift (x : Except ε β) : Uncut P (liftM x : ReadM α ε β) := by
  intro cs cs' hflat _
  exact ⟨rfl, hflat⟩

theorem uncut_exactly (e : ε) (n : Nat) : Uncut P (exactly e n : ReadM α ε (List α)) := by
  intro cs cs' hflat _
  obtain ⟨hres, hrest⟩ := call_exactly e n cs
  obtain ⟨hres', hrest'⟩ := call_exactly e n cs'
  rw [Same, hres, hrest, hres', hrest', hflat]
  exact ⟨rfl, rfl⟩

end Rules

/-- Where the first computation may report the end of the input. -/
theorem Accepts.bindOption {R : List α → Option β → List α → Prop} {S₀ : List α → γ → List α → Prop}
    {S : β → List α → γ → List α → Prop} {m : ReadM α ε (Option β)} {f : Option β → ReadM α ε γ}
    (hm : Accepts R m) (hnone : Accepts S₀ (f none)) (hsome : ∀ b, Accepts (S b) (f (some b))) :
    Accepts (fun l c rest => (∃ mid, R l none mid ∧ S₀ mid c rest) ∨
      ∃ b mid, R l (some b) mid ∧ S b mid c rest) (m >>= f) := by
  refine Accepts.congr (hm.bind (S := fun o => o.elim S₀ S) ?_) ?_
  · rintro (_ | b)
    · exact hnone
    · exact hsome b
  · intro l c rest
    simp [Option.exists]

/-- A judgement on computations, relative to a set of inputs, that follows how they are composed. -/
structure Logic (α ε : Type) where
  Holds : {β : Type} → (List α → Prop) → ReadM α ε β → Prop
  congr : ∀ {β : Type} {P P' : List α → Prop} {m : ReadM α ε β},
    Holds P m → (∀ l, P l ↔ P' l) → Holds P' m
  bind : ∀ {β γ : Type} {R : List α → β → List α → Prop} {P : List α → Prop}
    {Q : β → List α → Prop} {m : ReadM α ε β} {f : β → ReadM α ε γ},
    Accepts R m → Holds P m → (∀ b, Holds (Q b) (f b)) →
    Holds (fun l => P l ∨ ∃ b mid, R l b mid ∧ Q b mid) (m >>= f)

/-- Which inputs lead to a `bad` error. -/
def Logic.fails (bad : ε → Prop) : Logic α ε where
  Holds := Fails bad
  congr := by
    intro β P P' m h hP cs
    rw [← hP]
    exact h cs
  bind := Fails.bind

theorem Logic.holds_fails {bad : ε → Prop} {P : List α → Prop} {m : ReadM α ε β} :
    (Logic.fails bad).Holds P m ↔ Fails bad P m := Iff.rfl

/-- Outside which inputs the cut does not matter. -/
def Logic.uncut : Logic α ε where
  Holds := Uncut
  congr := by
    intro β P P' m h hP cs cs' hflat hp
    exact h cs cs' hflat fun hl => hp ((hP _).mp hl)
  bind := Uncut.bind

theorem Logic.holds_uncut {P : List α → Prop} {m : ReadM α ε β} :
    Logic.uncut.Holds P m ↔ Uncut P m := Iff.rfl

/-- What is left is the end of the input. -/
def Keeps (m : ReadM α ε β) : Prop := ∀ cs, (m.call cs).2.flat <:+ cs.flat

theorem Keeps.bind {m : ReadM α ε β} {f : β → ReadM α ε γ} (hm : Keeps m) (hf : ∀ b, Keeps (f b)) :
    Keeps (m >>= f) := by
  intro cs
  have hrest := hm cs
  rcases hcs : m.call cs with ⟨e | b, rest⟩
  · rw [call_bind_error hcs]
    rwa [hcs] at hrest
  · rw [call_bind_ok hcs]
    rw [hcs] at hrest
    exact (hf b rest).trans hrest

theorem keeps_lift (x : Except ε β) : Keeps (liftM x : ReadM α ε β) := fun _ => List.suffix_rfl

theorem keeps_exactly (e : ε) (n : Nat) : Keeps (exactly e n : ReadM α ε (List α)) := by
  intro cs
  rw [(call_exactly e n cs).2]
  exact List.drop_suffix _ _

/-- Which computations leave the end of the input, whatever the input is. -/
def Logic.keeps : Logic α ε where
  Holds _ m := Keeps m
  congr h _ := h
  bind _ := Keeps.bind

theorem Logic.holds_keeps {P : List α → Prop} {m : ReadM α ε β} :
    Logic.keeps.Holds P m ↔ Keeps m := Iff.rfl

/-- Unless it reports the end of the input or a `bad` error, `m` uses up some of the input. -/
def Consumes (bad : ε → Prop) (m : ReadM α ε (Option β)) : Prop :=
  ∀ cs, (m.call cs).1 = .ok none ∨ (∃ e, (m.call cs).1 = .error e ∧ bad e) ∨
    ∃ used, used ≠ [] ∧ cs.flat = used ++ (m.call cs).2.flat

theorem Consumes.bindOption {bad : ε → Prop} {m : ReadM α ε (Option β)}
    {f : Option β → ReadM α ε (Option γ)} (hm : Consumes bad m) (hnone : f none = pure none)
    (hsome : ∀ b, Keeps (f (some b))) : Consumes bad (m >>= f) := by
  intro cs
  have hused := hm cs
  rcases hcs : m.call cs with ⟨e | _ | b, rest⟩ <;> rw [hcs] at hused
  · rw [call_bind_error hcs]
    rcases hused with h | ⟨e', h, hbad⟩ | hused
    · cases h
    · cases h
      exact Or.inr (Or.inl ⟨e, rfl, hbad⟩)
    · exact Or.inr (Or.inr hused)
  · rw [call_bind_ok hcs, hnone]
    exact Or.inl rfl
  · rw [call_bind_ok hcs]
    rcases hused with h | ⟨e, h, -⟩ | ⟨used, hne, hflat⟩
    · cases h
    · cases h
    · obtain ⟨more, hmore⟩ := hsome b rest
      refine Or.inr (Or.inr ⟨used ++ more, by simp [hne], ?_⟩)
      rw [List.append_assoc, hmore]
      exact hflat

namespace Logic

variable (J : Logic α ε) {P P' Q₀ : List α → Prop} {Q : β → List α → Prop}

theorem ite {c : Prop} [Decidable c] {m m' : ReadM α ε β} (hm : J.Holds P m)
    (hm' : J.Holds P' m') :
    J.Holds (fun l => c ∧ P l ∨ ¬ c ∧ P' l) (if c then m else m') := by
  by_cases hc : c
  · rw [if_pos hc]
    exact J.congr hm (by simp [hc])
  · rw [if_neg hc]
    exact J.congr hm' (by simp [hc])

theorem bindOption {R : List α → Option β → List α → Prop} {m : ReadM α ε (Option β)}
    {f : Option β → ReadM α ε γ} (hR : Accepts R m) (hm : J.Holds P m)
    (hnone : J.Holds Q₀ (f none)) (hsome : ∀ b, J.Holds (Q b) (f (some b))) :
    J.Holds (fun l => P l ∨ (∃ mid, R l none mid ∧ Q₀ mid) ∨
      ∃ b mid, R l (some b) mid ∧ Q b mid) (m >>= f) := by
  refine J.congr (J.bind (Q := fun o => o.elim Q₀ Q) hR hm ?_) ?_
  · rintro (_ | b)
    · exact hnone
    · exact hsome b
  · intro l
    simp [Option.exists]

end Logic

end ReadM
