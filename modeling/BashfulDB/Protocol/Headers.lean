import BashfulDB.Protocol.Format

/-! Where in its input the parser can go wrong: at the start of a header. -/
namespace BashfulDB.Protocol

variable {p : Platform} {limits : Limits} {l rest : Bytes} {header payload : String}
  {elem : Bytes → RespFrame → Bytes → Prop} {parse : ParseM (Option RespFrame)} {X : Bytes → Prop}

/-- Before one of the next `count` frames `X` holds, and the frames before that one are whole. -/
def AtElement (elem : Bytes → RespFrame → Bytes → Prop) (X : Bytes → Prop) (count : Nat)
    (l : Bytes) : Prop :=
  ∃ fs mid, fs.length < count ∧ Elements elem l fs mid ∧ X mid

/-- `X` holds where a header of the frame at `l` starts. The header of an element is reached once
the header of its array and the elements before it are whole. -/
def AtHeader (p : Platform) (limits : Limits) (X : Bytes → Prop) : (levels : Nat) → Bytes → Prop
  | 0, _ => False
  | levels + 1, l => X l ∨ ∃ header body payload n, Line p limits.maxLine l header body ∧
    splitHeader header = .ok ('*'.toUInt8, payload) ∧ Digits.parseI64 payload = some n ∧
    AtElement (Frame p limits levels) (AtHeader p limits X levels) n.toInt.toNat body

theorem atElement_zero : ¬ AtElement elem X 0 l := by
  rintro ⟨fs, mid, hlen, -⟩
  cases hlen

theorem atElement_succ {count : Nat} : AtElement elem X (count + 1) l ↔
    X l ∨ ∃ f mid, elem l f mid ∧ AtElement elem X count mid := by
  constructor
  · rintro ⟨fs, mid, hlen, hfs, hX⟩
    cases hfs with
    | nil => exact Or.inl hX
    | cons hf hfs => exact Or.inr ⟨_, _, hf, _, mid, Nat.lt_of_succ_lt_succ hlen, hfs, hX⟩
  · rintro (hX | ⟨f, mid, hf, fs, mid', hlen, hfs, hX⟩)
    · exact ⟨[], l, Nat.succ_pos count, .nil l, hX⟩
    · exact ⟨f :: fs, mid', Nat.succ_lt_succ hlen, .cons hf hfs, hX⟩

theorem atElement_of_neg {n : Int64} (hn : n < 0) : ¬ AtElement elem X n.toInt.toNat l := by
  have hneg : n.toInt < 0 := Int64.lt_iff_toInt_lt.mp hn
  rw [Int.toNat_of_nonpos (by omega)]
  exact atElement_zero

theorem Elements.isSuffix {fs : List RespFrame} (helem : ∀ l f rest, elem l f rest → rest <:+ l)
    (h : Elements elem l fs rest) : rest <:+ l := by
  induction h with
  | nil => exact List.suffix_rfl
  | cons hf _ ih => exact ih.trans (helem _ _ _ hf)

theorem Body.isSuffix {typeByte : UInt8} {f : RespFrame}
    (helem : ∀ l f rest, elem l f rest → rest <:+ l)
    (h : Body limits elem typeByte payload l f rest) : rest <:+ l := by
  cases h with
  | simple | error | integer | nullBulk | nullArray => exact List.suffix_rfl
  | bulk => exact List.suffix_append _ _
  | array _ _ _ hfs => exact hfs.isSuffix helem

theorem Frame.isSuffix {levels : Nat} {f : RespFrame} (h : Frame p limits levels l f rest) :
    rest <:+ l := by
  induction levels generalizing l f rest with
  | zero => cases h
  | succ levels ih =>
    obtain ⟨header, body, typeByte, payload, ⟨line, ⟨-, -, -, rfl⟩, -⟩, -, hbody⟩ := h
    exact (hbody.isSuffix fun _ _ _ => ih).trans (List.drop_suffix (lineLength l) l)

/-- A header starts somewhere in the input. -/
theorem AtHeader.exists_suffix {levels : Nat} (h : AtHeader p limits X levels l) :
    ∃ t, t <:+ l ∧ X t := by
  induction levels generalizing l with
  | zero => cases h
  | succ levels ih =>
    rcases h with hX |
      ⟨header, body, payload, n, ⟨line, ⟨-, -, -, rfl⟩, -⟩, -, -, fs, mid, -, hfs, hat⟩
    · exact ⟨l, List.suffix_rfl, hX⟩
    · obtain ⟨t, ht, hX⟩ := ih hat
      have hmid := hfs.isSuffix fun _ _ _ => Frame.isSuffix
      exact ⟨t, ht.trans (hmid.trans (List.drop_suffix _ _)), hX⟩

theorem fromUtf8_ne_panic (message : String) (buf : Bytes) :
    fromUtf8 message buf ≠ .error .panic := by
  unfold fromUtf8
  split <;> simp

theorem parseNumber_ne_panic (what payload : String) :
    parseNumber p what payload ≠ .error .panic := by
  unfold parseNumber
  cases Digits.parseI64 payload <;> simp

theorem bind_ne_panic {α β : Type} {x : Except Fault α} {g : α → Except Fault β}
    (hx : x ≠ .error .panic) (hg : ∀ a, g a ≠ .error .panic) : x >>= g ≠ .error .panic := by
  cases x with
  | error e => simpa [bind, Except.bind] using hx
  | ok a => exact hg a

theorem parseArg_ne_panic (f : RespFrame) : parseArg f ≠ .error .panic := by
  unfold parseArg
  split <;> simp

theorem mapM_parseArg_ne_panic (fs : List RespFrame) : fs.mapM parseArg ≠ .error .panic := by
  induction fs with
  | nil => exact nofun
  | cons f fs ih =>
    rw [List.mapM_cons]
    exact bind_ne_panic (parseArg_ne_panic f) fun _ => bind_ne_panic ih fun _ => nofun

theorem parseName_ne_panic (f : RespFrame) : parseName f ≠ .error .panic := by
  unfold parseName
  split
  · exact fromUtf8_ne_panic _ _
  · exact nofun
  · simp

theorem frameArrayToCommand_ne_panic (fs : List RespFrame) :
    frameArrayToCommand p fs ≠ .error .panic := by
  cases fs with
  | nil => simp [frameArrayToCommand]
  | cons f fs =>
    exact bind_ne_panic (parseName_ne_panic f) fun _ =>
      bind_ne_panic (mapM_parseArg_ne_panic fs) fun _ => nofun

theorem commandOf_ne_panic (o : Option RespFrame) : commandOf p o ≠ .error .panic := by
  unfold commandOf
  split
  · exact nofun
  · simp
  · rename_i fs _
    have hfs := frameArrayToCommand_ne_panic (p := p) fs
    cases h : frameArrayToCommand p fs <;> simp_all [Except.map]
  · simp
  · simp

/-- A judgement that ignores what only fails with an error of the protocol. -/
structure Lenient (J : ReadM.Logic UInt8 Fault) : Prop where
  lift : ∀ {β : Type} {x : Except Fault β}, x ≠ .error .panic →
    J.Holds (fun _ => False) (liftM x : ParseM β)
  exact : ∀ n, J.Holds (fun _ => False) (readExact n)

section

variable {J : ReadM.Logic UInt8 Fault} (hJ : Lenient J)
include hJ

theorem Lenient.pure {β : Type} (v : β) : J.Holds (fun _ => False) (Pure.pure v : ParseM β) :=
  hJ.lift (x := .ok v) nofun

theorem Lenient.throw {β : Type} (e : ProtocolError) :
    J.Holds (fun _ => False) (MonadExcept.throw (.error e) : ParseM β) :=
  hJ.lift (x := .error (.error e)) (by simp)

theorem Lenient.parseBulk : J.Holds (fun _ => False) (parseBulk p limits payload) := by
  refine J.congr (J.bind (accepts_parseNumber _ _) (hJ.lift (parseNumber_ne_panic _ _)) fun n =>
    J.ite (hJ.pure _) (J.ite (hJ.throw _) (J.bind (ReadM.accepts_exactly _ _) (hJ.exact _)
      fun data => J.bind (ReadM.accepts_exactly _ _) (hJ.exact _) fun ending =>
        J.ite (hJ.throw _) (hJ.pure _)))) ?_
  simp

theorem Lenient.parseElements (helem : Parses elem parse) (hX : J.Holds X parse) (count : Nat) :
    J.Holds (AtElement elem X count) (parseElements parse count) := by
  obtain ⟨R, hparse, hR⟩ := id helem
  induction count with
  | zero => exact J.congr (hJ.pure []) (by simp [atElement_zero])
  | succ count ih =>
    refine J.congr (J.bindOption hparse hX (hJ.throw _) fun f =>
      J.bind (accepts_parseElements helem count) ih fun fs => hJ.pure (f :: fs)) ?_
    intro l
    simp [atElement_succ, hR]

theorem Lenient.parseArray (helem : Parses elem parse) (hX : J.Holds X parse) :
    J.Holds (fun l => ∃ n, Digits.parseI64 payload = some n ∧ AtElement elem X n.toInt.toNat l)
      (parseArray p parse payload) := by
  refine J.congr (J.bind (accepts_parseNumber _ _) (hJ.lift (parseNumber_ne_panic _ _)) fun n =>
    J.ite (hJ.pure _) (J.bind (accepts_parseElements helem _) (hJ.parseElements helem hX _)
      fun fs => hJ.pure _)) ?_
  intro l
  simp only [and_false, false_or, or_false, exists_false]
  constructor
  · rintro ⟨n, _, ⟨hn, rfl⟩, -, hat⟩
    exact ⟨n, hn, hat⟩
  · rintro ⟨n, hn, hat⟩
    exact ⟨n, l, ⟨hn, rfl⟩, fun hneg => atElement_of_neg hneg hat, hat⟩

variable {W : String → Prop}
  (hW : ∀ header, J.Holds (fun _ => W header) (liftM (splitHeader header) : ParseM _))
include hW

theorem Lenient.parseBody (helem : Parses elem parse) (hX : J.Holds X parse) :
    J.Holds (fun l => W header ∨ ∃ payload n, splitHeader header = .ok ('*'.toUInt8, payload) ∧
      Digits.parseI64 payload = some n ∧ AtElement elem X n.toInt.toNat l)
      (parseBody p limits parse header) := by
  refine J.congr (J.bind (ReadM.accepts_lift _) (hW header) fun split =>
    J.ite (hJ.pure _) <| J.ite (hJ.pure _) <|
    J.ite (J.bind (accepts_parseNumber _ _) (hJ.lift (parseNumber_ne_panic _ _)) fun n =>
      hJ.pure _) <|
    J.ite hJ.parseBulk <| J.ite (hJ.parseArray helem hX) <| hJ.throw _) ?_
  intro l
  simp only [and_false, false_or, or_false, exists_false]
  constructor
  · rintro (hw | ⟨⟨typeByte, payload⟩, _, ⟨hsplit, rfl⟩, -, -, -, -, rfl, n, hn, hat⟩)
    · exact Or.inl hw
    · exact Or.inr ⟨payload, n, hsplit, hn, hat⟩
  · rintro (hw | ⟨payload, n, hsplit, hn, hat⟩)
    · exact Or.inl hw
    · refine Or.inr ⟨_, l, ⟨hsplit, rfl⟩, ?_⟩
      dsimp only
      exact ⟨by decide, by decide, by decide, by decide, rfl, n, hn, hat⟩

variable {L : Bytes → Prop}
  (hL : J.Holds L (ReadM.of (readLineLoop p limits.maxLine []) : ParseM _))
include hL

/-- What holds of reading a line and of splitting it, holds of a frame, at its headers. -/
theorem Lenient.parseFrameInner (levels : Nat) :
    J.Holds (AtHeader p limits (fun l => L l ∨ ∃ header rest,
        Line p limits.maxLine l header rest ∧ W header) levels)
      (parseFrameInner p limits levels) := by
  have hline : J.Holds L (readLineLimited p limits.maxLine) := by
    refine J.congr (J.bindOption accepts_readLineLoop hL (hJ.pure none) fun line =>
      J.bind (ReadM.accepts_lift _) (hJ.lift (fromUtf8_ne_panic _ _)) fun header =>
        hJ.pure (some header)) ?_
    simp
  induction levels with
  | zero => exact J.congr (hJ.throw _) (by simp [AtHeader])
  | succ levels ih =>
    have helem : Parses (Frame p limits levels) (Protocol.parseFrameInner p limits levels) :=
      parses_parseFrameInner levels
    refine J.congr (J.bindOption accepts_readLineLimited hline (hJ.pure none) fun header =>
      J.bind (accepts_parseBody helem) (hJ.parseBody hW helem ih) fun frame =>
        hJ.pure (some frame)) ?_
    intro l
    simp only [AtHeader, OrEnd, and_false, false_or, or_false, exists_false]
    constructor
    · rintro (hl | ⟨header, body, hline, hw | ⟨payload, n, hsplit, hn, hat⟩⟩)
      · exact Or.inl (Or.inl hl)
      · exact Or.inl (Or.inr ⟨header, body, hline, hw⟩)
      · exact Or.inr ⟨header, body, payload, n, hline, hsplit, hn, hat⟩
    · rintro ((hl | ⟨header, body, hline, hw⟩) |
        ⟨header, body, payload, n, hline, hsplit, hn, hat⟩)
      · exact Or.inl hl
      · exact Or.inr ⟨header, body, hline, Or.inl hw⟩
      · exact Or.inr ⟨header, body, hline, Or.inr ⟨payload, n, hsplit, hn, hat⟩⟩

theorem Lenient.parseCommand :
    J.Holds (AtHeader p limits (fun l => L l ∨ ∃ header rest,
      Line p limits.maxLine l header rest ∧ W header) (maxNestingDepth + 1))
      (parseCommand p limits) := by
  refine J.congr (J.bind (accepts_parseFrameInner _) (hJ.parseFrameInner hW hL _) fun frame =>
    hJ.lift (commandOf_ne_panic frame)) ?_
  simp

end

end BashfulDB.Protocol
