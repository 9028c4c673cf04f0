import BashfulDB.Api.Echo
import BashfulDB.Data.Json

/-! Which of the documents that the handlers hand to the coordinator the codec accepts. -/
namespace BashfulDB.Api

open Auth Data Replication

theorem isFinite_of_lt {bits : Nat} (h : bits < 2047 * 2 ^ 52) :
    (F64.mk (UInt64.ofNat bits)).isFinite = true := by
  have hexponent : (UInt64.ofNat bits >>> 52 &&& 0x7FF).toNat < 2047 := by
    calc (UInt64.ofNat bits >>> 52 &&& 0x7FF).toNat
        ≤ (UInt64.ofNat bits >>> 52).toNat := by
          rw [UInt64.toNat_and]
          exact Nat.and_le_left
      _ = bits % 2 ^ 64 / 2 ^ 52 := by
          rw [UInt64.toNat_shiftRight, Nat.shiftRight_eq_div_pow]
          rfl
      _ < 2047 := by omega
  rw [F64.isFinite, bne_iff_ne]
  intro hones
  rw [hones] at hexponent
  exact absurd hexponent (by decide)

/-- The bits of an integer fill the significand of a double, and rounding adds one at most. -/
theorem shiftRight_log2_lt {n : Nat} (h : 52 < n.log2) : n >>> (n.log2 - 52) < 2 ^ 53 := by
  have hn : n < 2 ^ (n.log2 - 52) * 2 ^ 53 := by
    calc n < 2 ^ (n.log2 + 1) := Nat.lt_log2_self
      _ = 2 ^ (n.log2 - 52) * 2 ^ 53 := by
        rw [← Nat.pow_add]
        congr 1
        omega
  rw [Nat.shiftRight_eq_div_pow]
  exact Nat.div_lt_of_lt_mul hn

theorem shiftLeft_log2_lt {n : Nat} (h : n.log2 ≤ 52) : n <<< (52 - n.log2) < 2 ^ 53 := by
  rw [Nat.shiftLeft_eq]
  calc n * 2 ^ (52 - n.log2) < 2 ^ (n.log2 + 1) * 2 ^ (52 - n.log2) :=
        Nat.mul_lt_mul_of_pos_right Nat.lt_log2_self (Nat.two_pow_pos _)
    _ = 2 ^ 53 := by
      rw [← Nat.pow_add]
      congr 1
      omega

theorem isFinite_f64OfNat {n : Nat} (h : n < 2 ^ 64) : (f64OfNat n).isFinite = true := by
  unfold f64OfNat
  by_cases hzero : n = 0
  · rw [if_pos hzero]
    decide
  · rw [if_neg hzero]
    apply isFinite_of_lt
    have hexponent : n.log2 < 64 := (Nat.log2_lt hzero).mpr h
    by_cases hlow : n.log2 ≤ 52
    · have hsignificand := shiftLeft_log2_lt hlow
      simp only [if_pos hlow]
      omega
    · have hquotient := shiftRight_log2_lt (Nat.lt_of_not_le hlow)
      simp only [if_neg hlow]
      split <;> omega

/-- Both conversions of a JSON tree, that of the handlers and that of the data model, agree. -/
theorem jsonToRaw_eq (display : JsonNumber → String) (j : JsonValue) :
    jsonToRaw display j = .ok (rawFromJson j) := by
  induction j using JsonValue.induct with
  | null | bool | string => rfl
  | number n =>
    obtain ⟨f, hf⟩ := exists_asF64 n
    rw [jsonToRaw, rawFromJson, hf]
    cases n.asI64 with
    | some i => rfl
    | none => rfl
  | array items ih =>
    have hitems : jsonToItems display items = .ok (fromItems items) := by
      induction items with
      | nil => rfl
      | cons j items ihitems =>
        obtain ⟨hj, hrest⟩ := List.forall_mem_cons.mp ih
        rw [jsonToItems, hj, Except.ok_bind, ihitems hrest]
        rfl
    rw [jsonToRaw, hitems]
    rfl
  | object entries ih =>
    have hentries : ∀ btree, jsonToEntries display btree entries =
        .ok (Entries.insertAll btree (fromEntries entries)) := by
      induction entries with
      | nil => exact fun _ => rfl
      | cons e entries ihentries =>
        intro btree
        obtain ⟨he, hrest⟩ := List.forall_mem_cons.mp ih
        rw [jsonToEntries, he, Except.ok_bind, ihentries hrest]
        rfl
    rw [jsonToRaw, hentries]
    rfl

/-- The conversion of the handlers never fails, and gives the value of the other one. -/
theorem jsonToValue_eq_fromJson (display : JsonNumber → String) (j : JsonValue) :
    jsonToValue display j = .ok (fromJson j) := by
  have hraw := jsonToRaw_eq display j
  unfold jsonToValue
  split
  · rename_i v hv
    cases hv.symm.trans hraw
    rfl
  · rename_i e he
    cases he.symm.trans hraw

/-- `w` occurs in a tree, `d` levels below its top. -/
inductive JsonValue.OccursAt : JsonValue → (d : Nat) → (w : JsonValue) → Prop
  | self (j : JsonValue) : OccursAt j 0 j
  | item {items : List JsonValue} {j w : JsonValue} {d : Nat} : j ∈ items → OccursAt j d w →
      OccursAt (.array items) (d + 1) w
  | entry {entries : List (String × JsonValue)} {e : String × JsonValue} {w : JsonValue} {d : Nat} :
      e ∈ entries → OccursAt e.2 d w → OccursAt (.object entries) (d + 1) w

/-- The limits of the codec on one value of a JSON tree, in which every number is finite. -/
def JsonValue.Bounded : JsonValue → Prop
  | .string s => s.utf8ByteSize ≤ maxStringBlobSize
  | .array items => items.length ≤ maxArrayElements
  | .object entries =>
    entries.length ≤ maxObjectKeys ∧ ∀ e ∈ entries, e.1.utf8ByteSize ≤ maxKeySize
  | _ => True

theorem rawFromJson_object {entries : List (String × JsonValue)} (h : Entries.Ascending entries) :
    rawFromJson (.object entries) = .object (entries.map fun e => (e.1, rawFromJson e.2)) := by
  rw [rawFromJson, fromEntries_eq_map, Entries.insertAll_nil (Entries.ascending_map.mpr h)]

theorem JsonValue.OccursAt.ordered {j w : JsonValue} {d : Nat} (h : j.OccursAt d w)
    (hordered : j.Ordered) : w.Ordered := by
  induction h with
  | self j => exact hordered
  | item hj _ ih =>
    cases hordered with
    | array hitems => exact ih (hitems _ hj)
  | entry he _ ih =>
    cases hordered with
    | object hasc hentries => exact ih (hentries _ he)

theorem JsonValue.OccursAt.rawFromJson {j w : JsonValue} {d : Nat} (h : j.OccursAt d w)
    (hordered : j.Ordered) : Data.OccursAt (Data.rawFromJson j) d (Data.rawFromJson w) := by
  induction h with
  | self j => exact .self _
  | @item items j w d hj _ ih =>
    rw [Data.rawFromJson, fromItems_eq_map]
    cases hordered with
    | array hitems => exact .item (List.mem_map_of_mem hj) (ih (hitems j hj))
  | @entry entries e w d he _ ih =>
    cases hordered with
    | object hasc hentries =>
      rw [rawFromJson_object hasc]
      exact .entry (List.mem_map_of_mem he) (ih (hentries e he))

theorem exists_of_occursAt_rawFromJson {j : JsonValue} {d : Nat} {v : RawValue}
    (hordered : j.Ordered) (h : OccursAt (rawFromJson j) d v) :
    ∃ w, j.OccursAt d w ∧ rawFromJson w = v := by
  induction j using JsonValue.induct generalizing d with
  | null | bool | string =>
    cases h
    exact ⟨_, .self _, rfl⟩
  | number n =>
    rw [rawFromJson] at h
    cases hint : n.asI64 with
    | some i =>
      rw [hint] at h
      cases h
      exact ⟨_, .self _, by rw [rawFromJson, hint]⟩
    | none =>
      rw [hint] at h
      cases h
      exact ⟨_, .self _, by rw [rawFromJson, hint]⟩
  | array items ih =>
    rw [rawFromJson, fromItems_eq_map] at h
    cases h with
    | self => exact ⟨_, .self _, by rw [rawFromJson, fromItems_eq_map]⟩
    | item hmem hocc =>
      obtain ⟨j, hj, rfl⟩ := List.mem_map.mp hmem
      cases hordered with
      | array hitems =>
        obtain ⟨w, hw, hresult⟩ := ih j hj (hitems j hj) hocc
        exact ⟨w, .item hj hw, hresult⟩
  | object entries ih =>
    cases hordered with
    | object hasc hentries =>
      rw [rawFromJson_object hasc] at h
      cases h with
      | self => exact ⟨_, .self _, rawFromJson_object hasc⟩
      | entry hmem hocc =>
        obtain ⟨e, he, rfl⟩ := List.mem_map.mp hmem
        obtain ⟨w, hw, hresult⟩ := ih e he (hentries e he) hocc
        exact ⟨w, .entry he hw, hresult⟩

/-- What occurs in the value of a tree is the value of what occurs in the tree. -/
theorem occursAt_rawFromJson {j : JsonValue} {d : Nat} {v : RawValue} (hordered : j.Ordered) :
    OccursAt (rawFromJson j) d v ↔ ∃ w, j.OccursAt d w ∧ rawFromJson w = v := by
  constructor
  · exact exists_of_occursAt_rawFromJson hordered
  · rintro ⟨w, hocc, rfl⟩
    exact hocc.rawFromJson hordered

/-- JSON has no number that is not finite, and rounding a large integer makes none. -/
theorem sizeOk_number (n : JsonNumber) : SizeOk (rawFromJson (.number n)) := by
  rw [rawFromJson]
  cases n with
  | posInt n =>
    by_cases hlt : n.toNat < 2 ^ 63
    · simp only [JsonNumber.asI64, if_pos hlt]
      trivial
    · simp only [JsonNumber.asI64, if_neg hlt, JsonNumber.asF64, Option.getD_some]
      exact isFinite_f64OfNat n.toNat_lt
  | negInt i hneg => trivial
  | float f hfinite => exact hfinite

theorem sizeOk_rawFromJson {w : JsonValue} (hordered : w.Ordered) :
    SizeOk (rawFromJson w) ↔ w.Bounded := by
  cases w with
  | null | bool | string => exact Iff.rfl
  | number n => exact iff_of_true (sizeOk_number n) trivial
  | array items =>
    rw [rawFromJson, fromItems_eq_map, SizeOk, List.length_map]
    rfl
  | object entries =>
    cases hordered with
    | object hasc hentries =>
      rw [rawFromJson_object hasc, SizeOk, List.length_map, List.forall_mem_map]
      rfl

/-- The body of a creation or an upsert. -/
def Request.body? : Request → Option Bytes
  | .create _ _ _ body | .upsert _ _ _ _ body => some body
  | .get _ _ _ | .delete _ _ _ _ => none

variable {libs : Libs} {members : Membership} {s : AppState} {req : Request} {env : RequestEnv}
  {key : ObjectKey} {doc : Document}

/-- The document that is handed over to be written is made of the JSON tree of the body. -/
theorem rawFromJson_of_submitted {body : Bytes} {json : JsonValue} (hbody : req.body? = some body)
    (hjson : libs.fromSlice body = .ok json)
    (h : s.submitted libs members req env = some (key, some doc)) :
    doc.data.val = rawFromJson json := by
  have hparse : parseBody libs body = .ok json := Except.mapError_eq_ok.mpr hjson
  have hbuild : ∃ id, buildDocument libs id json = .ok doc := by
    cases req with
    | create path headers claims body' =>
      cases hbody
      unfold AppState.submitted at h
      dsimp only at h
      split at h
      · next hbuilt =>
        cases h
        obtain ⟨json', hparse', hbuild⟩ := Except.bind_eq_ok.mp hbuilt
        cases hparse.symm.trans hparse'
        exact ⟨_, hbuild⟩
      · cases h
    | get => cases hbody
    | upsert path id headers claims body' =>
      cases hbody
      exact ⟨_, (buildDocument_of_submitted hparse h).2⟩
    | delete => cases hbody
  obtain ⟨id, hbuild⟩ := hbuild
  obtain ⟨-, hraw⟩ := buildDocument_eq_ok hbuild
  rw [jsonToRaw_eq] at hraw
  injection hraw with hraw
  exact hraw.symm

/-- The documents that creations and upserts hand over have finite floats, and the codec accepts
exactly those whose body is a JSON tree within its limits on nesting, keys, texts, arrays and
maps. -/
theorem encode_of_submitted_iff (libs : Libs) (members : Membership) (s : AppState) (req : Request)
    (env : RequestEnv) (key : ObjectKey) (doc : Document) (body : Bytes) (json : JsonValue)
    (hbody : req.body? = some body) (hjson : libs.fromSlice body = .ok json)
    (hordered : json.Ordered) (h : s.submitted libs members req env = some (key, some doc)) :
    (∀ d f, OccursAt doc.data.val d (.float f) → f.isFinite = true) ∧
      ((∃ b, encode doc.data = .ok b) ↔
        ∀ d w, json.OccursAt d w → d ≤ maxNestingDepth ∧ w.Bounded) := by
  have hraw := rawFromJson_of_submitted hbody hjson h
  have hlimits : (∃ b, encode doc.data = .ok b) ↔ RespectsLimits doc.data :=
    ⟨fun ⟨_, hok⟩ => (encode_eq_ok.mp hok).1, fun hfit => ⟨_, encode_eq_ok.mpr ⟨hfit, rfl⟩⟩⟩
  rw [hlimits, RespectsLimits, FitsAt, hraw]
  simp only [occursAt_rawFromJson hordered, Nat.zero_add]
  refine ⟨?_, ?_, ?_⟩
  · rintro d f ⟨w, -, hfloat⟩
    cases w with
    | number n => exact (hfloat ▸ sizeOk_number n : SizeOk (.float f))
    | _ => cases hfloat
  · intro hfit d w hocc
    exact (hfit d _ ⟨w, hocc, rfl⟩).imp_right (sizeOk_rawFromJson (hocc.ordered hordered)).mp
  · rintro hfit d v ⟨w, hocc, rfl⟩
    exact (hfit d w hocc).imp_right (sizeOk_rawFromJson (hocc.ordered hordered)).mpr

theorem nameDocument_encodes :
    ∃ key, (AppState.initial ⟨⟨0⟩⟩ ⟨1, 1, 1⟩ .zero).submitted nameLibs oneOwner namePut
        (sampleEnv 1 ⟨1⟩) = some (key, some nameDocument) ∧
      ∃ b, encode nameDocument.data = .ok b := by
  have hordered : (JsonValue.object [("name", .string "alice")]).Ordered :=
    .object (List.pairwise_singleton _ _) (List.forall_mem_singleton.mpr (.string _))
  refine ⟨_, namePut_submitted, (encode_of_submitted_iff _ _ _ _ _ _ _ _ _ rfl rfl hordered
    namePut_submitted).2.mpr ?_⟩
  intro d w hocc
  cases hocc with
  | self =>
    have hkey : "name".utf8ByteSize ≤ maxKeySize := by decide +kernel
    exact ⟨by decide, Nat.le_of_ble_eq_true rfl, List.forall_mem_singleton.mpr hkey⟩
  | entry he hw =>
    rw [List.mem_singleton.mp he] at hw
    cases hw
    have htext : "alice".utf8ByteSize ≤ maxStringBlobSize := by decide +kernel
    exact ⟨by decide, htext⟩

/-- Every body is an object with one key. -/
def keyLibs (key : String) : Libs :=
  { sampleLibs (fun _ => 0) with fromSlice := fun _ => .ok (.object [(key, .null)]) }

def keyDocument (key : String) : Document :=
  ⟨⟨⟨0⟩⟩, ⟨.object [(key, .null)],
    .object (List.pairwise_singleton _ _) (by simpa using RawValue.Ordered.null)⟩, rfl⟩

theorem encode_long_key {key : String} (hlong : maxKeySize < key.utf8ByteSize) :
    encode (keyDocument key).data = .error (.keyTooLarge key.utf8ByteSize maxKeySize) := by
  change encodeValue.encodeEntries [(key, .null)] _ 1 = _
  rw [encodeValue.encodeEntries, if_pos hlong]

/-- A key of 257 bytes is taken by the handler and refused by the codec. -/
theorem long_key_submitted :
    ∃ key objectKey, (AppState.initial ⟨⟨0⟩⟩ ⟨1, 1, 1⟩ .zero).submitted (keyLibs key) oneOwner
        namePut (sampleEnv 1 ⟨1⟩) = some (objectKey, some (keyDocument key)) ∧
      ((AppState.initial ⟨⟨0⟩⟩ ⟨1, 1, 1⟩ .zero).respond (keyLibs key) oneOwner namePut
        (sampleEnv 1 ⟨1⟩)).status = 201 ∧
      encode (keyDocument key).data = .error (.keyTooLarge 257 256) := by
  have hsize : (String.ofList (List.replicate 257 'a')).utf8ByteSize = 257 := by decide +kernel
  refine ⟨String.ofList (List.replicate 257 'a'), ⟨"a/d/c", ⟨⟨0⟩⟩⟩, rfl, rfl, ?_⟩
  rw [encode_long_key (by rw [hsize]; decide), hsize]
  rfl

end BashfulDB.Api
