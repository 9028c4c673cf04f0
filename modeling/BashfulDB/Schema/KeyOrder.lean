import BashfulDB.Schema.Coverage

/-! What the value part of an index key says about the field value: which values it tells apart, and
in which order texts come. -/
namespace BashfulDB.Schema

open Api

variable (displayNumber : JsonNumber → String)

/-- The value part of the key of an index row. Arrays and objects have none. -/
def component (v : JsonValue) : Option String :=
  (indexText displayNumber v).map encodeFieldValueForKey

def IsScalar (v : JsonValue) : Prop := ∃ text, v = .string text ∨ Spells displayNumber v text

/-- One of the values is the string that the other one is printed as, or both are no strings and
printed alike. -/
def LookAlike (v w : JsonValue) : Prop :=
  ∃ text, v = .string text ∧ Spells displayNumber w text ∨
    Spells displayNumber v text ∧ w = .string text ∨
    Spells displayNumber v text ∧ Spells displayNumber w text

theorem encodeFieldValueForKey_inj {text text' : String}
    (h : encodeFieldValueForKey text = encodeFieldValueForKey text') : text = text' :=
  String.asBytes_inj (Base64.encode_inj h)

variable {displayNumber} {v w : JsonValue}

theorem component_eq_iff (hv : IsScalar displayNumber v) :
    component displayNumber v = component displayNumber w ↔
      ∃ text, (v = .string text ∨ Spells displayNumber v text) ∧
        (w = .string text ∨ Spells displayNumber w text) := by
  have hinj : Function.Injective encodeFieldValueForKey := fun _ _ => encodeFieldValueForKey_inj
  simp only [component, (Option.map_injective hinj).eq_iff, ← indexText_eq_some]
  constructor
  · intro h
    obtain ⟨text, htext⟩ := hv
    rw [← indexText_eq_some] at htext
    exact ⟨text, htext, h ▸ htext⟩
  · rintro ⟨text, htext, htext'⟩
    exact htext.trans htext'.symm

/-- Two different values have one component exactly if they look alike. -/
theorem component_eq_iff_lookAlike (hv : IsScalar displayNumber v) (hne : v ≠ w) :
    component displayNumber v = component displayNumber w ↔ LookAlike displayNumber v w := by
  rw [component_eq_iff hv]
  refine exists_congr fun text => ?_
  constructor
  · rintro ⟨rfl | hv, rfl | hw⟩
    · exact absurd rfl hne
    · exact Or.inl ⟨rfl, hw⟩
    · exact Or.inr (Or.inl ⟨hv, rfl⟩)
    · exact Or.inr (Or.inr ⟨hv, hw⟩)
  · rintro (⟨hv, hw⟩ | ⟨hv, hw⟩ | ⟨hv, hw⟩)
    · exact ⟨Or.inl hv, Or.inr hw⟩
    · exact ⟨Or.inr hv, Or.inl hw⟩
    · exact ⟨Or.inr hv, Or.inr hw⟩

/-- Two scalars have different components exactly if they do not look alike. Two texts are in
the order of their components exactly if no smaller digit of them has the greater character where
they first differ. -/
theorem component_faithful_iff (displayNumber : JsonNumber → String) :
    (∀ v w, IsScalar displayNumber v → IsScalar displayNumber w → v ≠ w →
      (component displayNumber v ≠ component displayNumber w ↔ ¬ LookAlike displayNumber v w)) ∧
    ∀ s t : String, s.asBytes < t.asBytes →
      ((encodeFieldValueForKey s).asBytes < (encodeFieldValueForKey t).asBytes ↔
        ∀ x y, Base64.firstDifference (Base64.digits s.asBytes) (Base64.digits t.asBytes) =
          some (x, y) → ¬ Base64.Inverted x y) := by
  constructor
  · intro v w hv _ hne
    exact not_congr (component_eq_iff_lookAlike hv hne)
  · exact fun s t h => Base64.encode_lt_iff h

/-- A value and the text that it is printed as have one component, and the texts `c1` and `ca` come
in the opposite order. -/
theorem component_not_faithful :
    let display := sampleSerde.displayNumber
    (component display (.number (.posInt 1)) = component display (.string "1") ∧
      component display (.bool true) = component display (.string "true") ∧
      component display .null = component display (.string "null")) ∧
    "c1".asBytes < "ca".asBytes ∧
      (encodeFieldValueForKey "ca").asBytes < (encodeFieldValueForKey "c1").asBytes := by
  refine ⟨⟨rfl, rfl, rfl⟩, by decide, ?_⟩
  have hc1 : (encodeFieldValueForKey "c1").asBytes = "YzE".asBytes := by decide +kernel
  have hca : (encodeFieldValueForKey "ca").asBytes = "Y2E".asBytes := by decide +kernel
  rw [hc1, hca]
  decide

end BashfulDB.Schema
