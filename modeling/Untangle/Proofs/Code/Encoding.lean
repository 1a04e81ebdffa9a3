import Untangle.Code.Encoding
import Untangle.Proofs.Code.Decoding
import Untangle.Proofs.Pool

/-!
# Instructions are spelled by their bytes

The bytes of an instruction's chunk spell the instruction, in the pool that its constants were interned into
and in every pool that this one grows to. Short, long and wide forms are all spellings, so the decoder reads
each of them as the instruction.
-/

namespace Untangle

open Pool Int32

variable {v : Int32} {i : Instr} {c : Chunk}

namespace Decoding

variable {value : Literal} {i slot : UInt16} {q pool : Pool} {bootstraps : List BootstrapEntry} {o : Nat}

open Opcode

/-! ### Literals -/

/-- A slot that fits a byte comes back from it. -/
theorem toUInt16_toUInt8 (h : slot ≤ 0xff) : slot.toUInt8.toUInt16 = slot := by
  have hle : slot.toNat ≤ 255 := UInt16.le_iff_toNat_le.mp h
  apply UInt16.toNat_inj.mp
  simp only [UInt8.toNat_toUInt16, UInt16.toNat_toUInt8]
  omega

/-- A slot that holds a literal gives that literal. -/
theorem loadable_eq_ok (h : pool.literal? i = .ok (some value)) (wide : Bool) : pool.loadable i wide = .ok value := by
  rw [loadable, h]
  rfl

/-- A slot that names a class holds a literal. -/
theorem literal?_of_className {name : String} (h : pool.className i = .ok name) :
    pool.literal? i = .ok (some (.type name)) := by
  obtain ⟨c, hget, hname⟩ := bind_eq_ok.mp h
  cases c with
  | «class» n =>
    simp only [literal?, hget, h]
    rfl
  | _ => cases hname

theorem literal?_of_string {text : Utf16} (h : pool.string i = .ok text) :
    pool.literal? i = .ok (some (.text text)) := by
  obtain ⟨c, hget, htext⟩ := bind_eq_ok.mp h
  cases c with
  | string n =>
    simp only [literal?, hget, h]
    rfl
  | _ => cases htext

theorem literal?_of_methodType {n : UInt16} {descriptor : String} (hget : pool.get i = .ok (.methodType n))
    (hname : pool.name n = .ok descriptor) : pool.literal? i = .ok (some (.methodType descriptor)) := by
  simp only [literal?, hget, bind, Except.bind, hname]
  rfl

/-- A number of eight bits comes back from its byte. -/
theorem ofInt_toInt8 (h : -0x80 ≤ v ∧ v ≤ 0x7f) : Int32.ofInt v.toInt8.toInt = v := by
  have hlow : -0x80 ≤ v.toInt := le_iff_toInt_le.mp h.1
  have hhigh : v.toInt ≤ 0x7f := le_iff_toInt_le.mp h.2
  rw [toInt_toInt8, Int.bmod_eq_of_le (by omega) (by omega), ofInt_toInt]

/-- A number of sixteen bits comes back from its two bytes. -/
theorem ofInt_toInt16 (h : -0x8000 ≤ v ∧ v ≤ 0x7fff) : Int32.ofInt v.toInt16.toInt = v := by
  have hlow : -0x8000 ≤ v.toInt := le_iff_toInt_le.mp h.1
  have hhigh : v.toInt ≤ 0x7fff := le_iff_toInt_le.mp h.2
  rw [toInt_toInt16, Int.bmod_eq_of_le (by omega) (by omega), ofInt_toInt]

/-- In every pool that grows from `q`, the bytes spell the instruction wherever they stand. -/
def SpelledIn (q : Pool) (bootstraps : List BootstrapEntry) (data : List UInt8) (i : Decoded) : Prop :=
  ∀ (pool : Pool) (o : Nat), pool.Extends q → Spelled pool bootstraps o data i

/-- A literal of the pool is loaded from its slot by the short form or the long one. -/
theorem spelled_loadSlot (h : pool.loadable i false = .ok value) :
    Spelled pool bootstraps o (Encoding.loadSlot i) (.push value) := by
  unfold Encoding.loadSlot
  split
  case isTrue hi =>
    rw [← toUInt16_toUInt8 hi] at h
    exact .constantNear h
  case isFalse => exact .constant h

/-- A literal that was interned is loaded again. -/
theorem spelledIn_loadSlot (h : q.literal? i = .ok (some value)) :
    SpelledIn q bootstraps (Encoding.loadSlot i) (.push value) :=
  fun pool _ hq => spelled_loadSlot (loadable_eq_ok (stable_literal? i q pool _ hq h) false)

theorem spelledIn_ldc2W (h : q.literal? i = .ok (some value)) :
    SpelledIn q bootstraps (ldc2W :: Bytes.be16 i) (.push value) :=
  fun pool _ hq => .constantWide (loadable_eq_ok (stable_literal? i q pool _ hq h) true)

/-- A literal is spelled by the bytes that push it. A constant that is not taken apart has to be one that the
decoder does not take apart either. -/
theorem spelledIn_literal {data : List UInt8} (hp : p.Sound)
    (hv : ∀ i wide, value = .pooled i wide → p.literal? i = .ok none) (h : Encoding.literal value p = .ok data q) :
    p.Grows q ∧ SpelledIn q bootstraps data (.push value) := by
  cases value with
  | int v =>
    simp only [Encoding.literal] at h
    split at h
    case isTrue hsmall =>
      cases h
      exact ⟨hp.grows, fun _ _ _ => .int hsmall⟩
    split at h
    case isTrue hbyte =>
      cases h
      refine ⟨hp.grows, fun pool o _ => ?_⟩
      have hs : Spelled pool bootstraps o _ _ := .byte v.toInt8
      rwa [ofInt_toInt8 hbyte] at hs
    split at h
    case isTrue hshort =>
      cases h
      refine ⟨hp.grows, fun pool o _ => ?_⟩
      have hs : Spelled pool bootstraps o _ _ := .short v.toInt16
      rwa [ofInt_toInt16 hshort] at hs
    case isFalse =>
      obtain ⟨i, r, hi, h⟩ := Interning.bind_eq_ok.mp h
      cases h
      obtain ⟨hq, hget⟩ := hp.intern hi
      exact ⟨hq, spelledIn_loadSlot (by rw [literal?, hget]; rfl)⟩
  | long v =>
    simp only [Encoding.literal] at h
    split at h
    case isTrue hsmall =>
      cases h
      exact ⟨hp.grows, fun _ _ _ => .long hsmall⟩
    case isFalse =>
      obtain ⟨i, r, hi, h⟩ := Interning.bind_eq_ok.mp h
      cases h
      obtain ⟨hq, hget⟩ := hp.intern hi
      exact ⟨hq, spelledIn_ldc2W (by rw [literal?, hget]; rfl)⟩
  | float bits =>
    simp only [Encoding.literal] at h
    cases hj : floatBits.idxOf? bits with
    | some j =>
      simp only [hj] at h
      cases h
      exact ⟨hp.grows, fun _ _ _ => .float hj⟩
    | none =>
      simp only [hj] at h
      obtain ⟨i, r, hi, h⟩ := Interning.bind_eq_ok.mp h
      cases h
      obtain ⟨hq, hget⟩ := hp.intern hi
      exact ⟨hq, spelledIn_loadSlot (by rw [literal?, hget]; rfl)⟩
  | double bits =>
    simp only [Encoding.literal] at h
    cases hj : doubleBits.idxOf? bits with
    | some j =>
      simp only [hj] at h
      cases h
      exact ⟨hp.grows, fun _ _ _ => .double hj⟩
    | none =>
      simp only [hj] at h
      obtain ⟨i, r, hi, h⟩ := Interning.bind_eq_ok.mp h
      cases h
      obtain ⟨hq, hget⟩ := hp.intern hi
      exact ⟨hq, spelledIn_ldc2W (by rw [literal?, hget]; rfl)⟩
  | text s =>
    obtain ⟨i, r, hi, h⟩ := Interning.bind_eq_ok.mp h
    cases h
    obtain ⟨hq, hs⟩ := hp.internString hi
    exact ⟨hq, spelledIn_loadSlot (literal?_of_string hs)⟩
  | null =>
    cases h
    exact ⟨hp.grows, fun _ _ _ => .null⟩
  | type =>
    obtain ⟨i, r, hi, h⟩ := Interning.bind_eq_ok.mp h
    cases h
    obtain ⟨hq, hname, -⟩ := hp.internClass hi
    exact ⟨hq, spelledIn_loadSlot (literal?_of_className hname)⟩
  | methodType =>
    obtain ⟨i, r, hi, h⟩ := Interning.bind_eq_ok.mp h
    cases h
    obtain ⟨hq, n, hget, hname⟩ := hp.internMethodType hi
    exact ⟨hq, spelledIn_loadSlot (literal?_of_methodType hget hname)⟩
  | pooled i wide =>
    have hload : ∀ pool : Pool, pool.Extends p → pool.loadable i wide = .ok (.pooled i wide) := by
      intro pool hq
      have hnone := stable_literal? i p pool _ hq (hv i wide rfl)
      simp only at hnone
      rw [loadable, hnone]
      rfl
    cases wide with
    | true =>
      cases h
      exact ⟨hp.grows, fun pool _ hq => .constantWide (hload pool hq)⟩
    | false =>
      cases h
      exact ⟨hp.grows, fun pool _ hq => spelled_loadSlot (hload pool hq)⟩

/-! ### Local variables -/

theorem spelledIn_load (kind : ValueKind) (slot : UInt16) :
    SpelledIn q bootstraps (Encoding.localAccess iload iload0 kind slot) (.load kind slot) := by
  intro pool o _
  unfold Encoding.localAccess
  split
  case isTrue hfirst => exact .loadFirst kind hfirst
  split
  case isTrue hbyte =>
    have hs : Spelled pool bootstraps o _ _ := .load kind slot.toUInt8
    rwa [toUInt16_toUInt8 hbyte] at hs
  case isFalse => exact .loadWide kind slot

theorem spelledIn_store (kind : ValueKind) (slot : UInt16) :
    SpelledIn q bootstraps (Encoding.localAccess istore istore0 kind slot) (.store kind slot) := by
  intro pool o _
  unfold Encoding.localAccess
  split
  case isTrue hfirst => exact .storeFirst kind hfirst
  split
  case isTrue hbyte =>
    have hs : Spelled pool bootstraps o _ _ := .store kind slot.toUInt8
    rwa [toUInt16_toUInt8 hbyte] at hs
  case isFalse => exact .storeWide kind slot

theorem spelled_increment {delta : Int16} (hslot : slot ≤ 0xff) (hdelta : -0x80 ≤ delta ∧ delta ≤ 0x7f) :
    Spelled pool bootstraps o [iinc, slot.toUInt8, delta.toInt8.toUInt8] (.increment slot delta) := by
  have hlow : -0x80 ≤ delta.toInt := Int16.le_iff_toInt_le.mp hdelta.1
  have hhigh : delta.toInt ≤ 0x7f := Int16.le_iff_toInt_le.mp hdelta.2
  have hs : Spelled pool bootstraps o _ _ := .increment slot.toUInt8 delta.toInt8
  rwa [toUInt16_toUInt8 hslot, Int16.toInt_toInt8, Int.bmod_eq_of_le (by omega) (by omega), Int16.ofInt_toInt] at hs

theorem spelledIn_leaveSub (slot : UInt16) :
    SpelledIn q bootstraps (if slot ≤ 0xff then [ret, slot.toUInt8] else wide :: ret :: Bytes.be16 slot)
      (.leaveSub slot) := by
  intro pool o _
  split
  case isTrue hbyte =>
    have hs : Spelled pool bootstraps o _ _ := .leaveSub slot.toUInt8
    rwa [toUInt16_toUInt8 hbyte] at hs
  case isFalse => exact .leaveSubWide slot

end Decoding

/-! ### Chunks -/

/-- What the instruction takes from the pool by slot is what the pool holds there. -/
def Instruction.ResolvesIn (pool : Pool) (bootstraps : List BootstrapEntry) : Instr → Prop
  | .push (.pooled i _) => pool.literal? i = .ok none
  | .invokeDynamic site => pool.callSite bootstraps site.index = .ok site
  | _ => True

/-- An opcode that the body keeps by number is one that the decoder keeps by number. -/
def Instruction.KeptByNumber : Instr → Prop
  | .plain opcode => Opcode.shape? opcode = some .plain
  | _ => True

theorem Instruction.ResolvesIn.mono (hi : i.ResolvesIn p bootstraps) (hq : q.Extends p) :
    i.ResolvesIn q bootstraps := by
  cases i with
  | push value =>
    cases value with
    | pooled j => exact stable_literal? j p q _ hq hi
    | _ => trivial
  | invokeDynamic site => exact stable_callSite bootstraps site.index p q _ hq hi
  | _ => trivial

namespace Encoding

open Decoding Opcode

/-- The chunk says what the instruction does: bytes spell the instruction, in every pool that grows from `q`;
jumps and switches are kept as they are, with the keys of a switch in order. -/
def Writes (q : Pool) (bootstraps : List BootstrapEntry) (c : Chunk) : Instr → Prop
  | .label name => c = .mark name
  | .line number => c = .line number
  | .jump target => c = .jump target
  | .callSub target => c = .callSub target
  | .branch cond target => c = .branch cond target
  | .tableSwitch low high otherwise targets => c = .tableSwitch low high otherwise targets
  | .lookupSwitch otherwise pairs => c = .lookupSwitch otherwise (pairs.mergeSort fun a b => a.1 ≤ b.1)
  | i => ∃ data, c = .fixed data ∧ ∀ f, SpelledIn q bootstraps data (i.mapTargets f)

variable {p q : Pool} {bootstraps : List BootstrapEntry}

theorem writes_invoke {kind : InvokeKind} {member : Member} {isInterface : Bool} (hp : p.Sound)
    (h : chunk (.invoke kind member isInterface) p = .ok c q) :
    p.Grows q ∧ Writes q bootstraps c (.invoke kind member isInterface) := by
  obtain ⟨index, r, hi, h⟩ := Interning.bind_eq_ok.mp h
  obtain ⟨hr, hmember⟩ := hp.internMethod hi
  split at h
  case isTrue hk =>
    subst hk
    obtain ⟨_, _, hd, h⟩ := Interning.bind_eq_ok.mp h
    obtain ⟨-, rfl⟩ := Interning.lift_eq_ok.mp hd
    cases h
    exact ⟨hr, _, rfl, fun f pool o hq => .invokeInterface _ _ (stable_member index q pool _ hq hmember)⟩
  case isFalse hk =>
    cases h
    exact ⟨hr, _, rfl, fun f pool o hq => .invoke hk (stable_member index q pool _ hq hmember)⟩

/-- Every instruction is written by its chunk. -/
theorem writes_chunk (hp : p.Sound) (hr : i.ResolvesIn p bootstraps) (hn : i.KeptByNumber) (h : chunk i p = .ok c q) :
    p.Grows q ∧ Writes q bootstraps c i := by
  cases i with
  | label | line | jump | callSub | branch | tableSwitch | lookupSwitch =>
    cases h
    exact ⟨hp.grows, rfl⟩
  | push value =>
    obtain ⟨data, r, hd, h⟩ := Interning.bind_eq_ok.mp h
    cases h
    have hv : ∀ i wide, value = .pooled i wide → p.literal? i = .ok none := by
      rintro i wide rfl
      exact hr
    obtain ⟨hq, hdata⟩ := spelledIn_literal hp hv hd
    exact ⟨hq, data, rfl, fun _ => hdata⟩
  | load kind slot =>
    cases h
    exact ⟨hp.grows, _, rfl, fun _ => spelledIn_load kind slot⟩
  | store kind slot =>
    cases h
    exact ⟨hp.grows, _, rfl, fun _ => spelledIn_store kind slot⟩
  | increment slot delta =>
    simp only [chunk] at h
    split at h
    case isTrue hsmall =>
      cases h
      exact ⟨hp.grows, _, rfl, fun _ _ _ _ => spelled_increment hsmall.1 hsmall.2⟩
    case isFalse =>
      cases h
      exact ⟨hp.grows, _, rfl, fun _ _ _ _ => .incrementWide slot delta⟩
  | leaveSub slot =>
    cases h
    exact ⟨hp.grows, _, rfl, fun _ => spelledIn_leaveSub slot⟩
  | field op member =>
    obtain ⟨index, r, hi, h⟩ := Interning.bind_eq_ok.mp h
    cases h
    obtain ⟨hq, hmember⟩ := hp.internField hi
    exact ⟨hq, _, rfl, fun f pool o hpool => .field op (stable_member index q pool _ hpool hmember)⟩
  | invoke kind member => exact writes_invoke hp h
  | invokeDynamic site =>
    cases h
    refine ⟨hp.grows, _, rfl, fun f pool o hpool => ?_⟩
    exact .invokeDynamic 0 0 (stable_callSite bootstraps site.index p pool _ hpool hr)
  | typed op name =>
    obtain ⟨index, r, hi, h⟩ := Interning.bind_eq_ok.mp h
    cases h
    obtain ⟨hq, hname, -⟩ := hp.internClass hi
    exact ⟨hq, _, rfl, fun f pool o hpool => .typed op (stable_className index q pool _ hpool hname)⟩
  | newArray element =>
    cases h
    exact ⟨hp.grows, _, rfl, fun _ _ _ _ => .newArray element⟩
  | newMultiArray name dims =>
    obtain ⟨index, r, hi, h⟩ := Interning.bind_eq_ok.mp h
    cases h
    obtain ⟨hq, hname, -⟩ := hp.internClass hi
    exact ⟨hq, _, rfl, fun f pool o hpool => .newMultiArray dims (stable_className index q pool _ hpool hname)⟩
  | stack op =>
    cases h
    exact ⟨hp.grows, _, rfl, fun _ _ _ _ => .stack op⟩
  | math kind op =>
    cases ho : mathOpcode? kind op with
    | none =>
      simp only [chunk, ho] at h
      cases h
    | some opcode =>
      simp only [chunk, ho] at h
      cases h
      exact ⟨hp.grows, _, rfl, fun _ _ _ _ => .math ho⟩
  | leave kind =>
    cases kind with
    | none =>
      cases h
      exact ⟨hp.grows, _, rfl, fun _ _ _ _ => .leaveVoid⟩
    | some kind =>
      cases h
      exact ⟨hp.grows, _, rfl, fun _ _ _ _ => .leave kind⟩
  | raise =>
    cases h
    exact ⟨hp.grows, _, rfl, fun _ _ _ _ => .raise⟩
  | plain opcode =>
    cases h
    exact ⟨hp.grows, _, rfl, fun _ _ _ _ => .plain (hasOpcode_of_shape? hn)⟩

end Encoding

end Untangle
