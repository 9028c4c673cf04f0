import BashfulDB.Library.Bytes
import Mathlib.Data.Countable.Basic
import Mathlib.Logic.Denumerable
import Mathlib.Logic.Equiv.List

/-! Written forms of countable data, for what is written by code that is not modelled. -/
namespace Codec

instance countableUInt8 : Countable UInt8 :=
  Function.Injective.countable (f := UInt8.toNat) fun _ _ => UInt8.toNat_inj.mp

instance countableUInt64 : Countable UInt64 :=
  Function.Injective.countable (f := UInt64.toNat) fun _ _ => UInt64.toNat_inj.mp

instance countableString : Countable String :=
  Function.Injective.countable (f := String.asBytes) fun _ _ => String.asBytes_inj

instance infiniteString : Infinite String :=
  Infinite.of_injective String.ofList fun _ _ => String.ofList_inj.mp

/-- Whatever is countable can be written as texts or bytes, and read back. -/
theorem exists_codec (α β : Type) [Countable α] [Nonempty α] [Infinite β] : ∃ (write : α → β)
    (read : β → Except String α), ∀ a, read (write a) = .ok a := by
  obtain ⟨f, hf⟩ := exists_injective_nat α
  let write : α → β := Infinite.natEmbedding β ∘ f
  have hwrite : Function.Injective write := (Infinite.natEmbedding β).injective.comp hf
  refine ⟨write, fun b => .ok (Function.invFun write b), fun a => ?_⟩
  exact congrArg Except.ok (Function.leftInverse_invFun hwrite a)

end Codec
