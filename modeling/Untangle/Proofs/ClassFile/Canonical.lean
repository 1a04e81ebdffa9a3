import Untangle.Proofs.ClassFile.RoundTrip

/-!
# Class files are written as they were read

Every record has one form: the bytes that a reader takes off the front are those that its value is written
with. The one exception is the count at the head of the constant pool. It counts slots, and two counts do not
say how many there are: one that ends in the middle of a wide constant, and zero, though slot 0 is always
there. A class file with such a count is written with the true one, and with all else as it was.
-/

namespace Untangle

open Bytes List

namespace ClassFile

/-- The number of slots that class data declares, in its ninth and tenth byte. -/
def declaredSlots (data : List UInt8) : Nat :=
  match data.drop 8 with
  | high :: low :: _ => (join16 high low).toNat
  | _ => 0

/-- The declared number stands behind the first eight bytes. -/
theorem declaredSlots_append {front : List UInt8} (h : front.length = 8) (count : UInt16) (rest : List UInt8) :
    declaredSlots (front ++ (be16 count ++ rest)) = count.toNat := by
  rw [declaredSlots, ← h, drop_left]
  simp only [be16, cons_append, join16_be16]

/-- A class file that is read comes back from its bytes, and its bytes are those that were read exactly if the
number of slots that they declare is the number that there are: it is not zero, and the last declared slot
does not hold a wide constant. -/
theorem bytes_of_parse {data : List UInt8} {c : ClassFile} (h : parse data = .ok c) :
    parse c.bytes = .ok c ∧
      ∃ taken rest, data = taken ++ rest ∧ read data = .ok (c, rest) ∧
        (c.bytes = taken ↔ declaredSlots data = c.pool.size) ∧
        (declaredSlots data = c.pool.size ↔
          declaredSlots data ≠ 0 ∧ ¬ c.pool.WideAt (declaredSlots data - 1)) := by
  obtain ⟨⟨_, rest⟩, hread, hc⟩ := map_eq_ok.mp h
  cases hc
  obtain ⟨hfits, front, back, count, hfront, hdata, hbytes, hcount⟩ := of_read hread
  have hdeclared : declaredSlots data = count.toNat := by rw [hdata, declaredSlots_append hfront]
  refine ⟨(parse_bytes_iff _).mpr hfits, front ++ (be16 count ++ back), rest, by simpa using hdata, hread, ?_, ?_⟩
  · rw [hdeclared, hbytes, append_cancel_left_eq, append_cancel_right_eq, count16, be16_inj,
      ← UInt16.toNat_inj, toNat_ofNat16 hfits.pool.size_le, eq_comm]
  · rwa [hdeclared]

/-- A class file that has nothing but constants. -/
def bare (p : Pool) : ClassFile := ⟨0, 52, p, 0, 0, 0, [], [], [], []⟩

/-- Class data that declares two slots, with a long for its one constant. -/
def longData : List UInt8 :=
  be32 magic ++ be16 0 ++ be16 52 ++ be16 2 ++ (Constant.long 7).bytes ++ List.replicate 14 0

theorem parse_longData : parse longData = .ok (bare (Pool.empty.append (.long 7))) := by
  have hone : (2 : UInt16).toNat - 1 = 0 + 1 := rfl
  simp only [parse, Bytes.parse, read, longData, bind, StateT.bind, Except.bind, append_assoc, u16_be16, u32_be32,
    bne_self_eq_false, Bool.false_eq_true, if_false, Pool.read, Pool.readSlots, hone]
  rfl

/-- Data that ends within its last constant declares two slots, and there are three. -/
theorem bytes_of_parse_longData :
    parse longData = .ok (bare (Pool.empty.append (.long 7))) ∧
      ∃ taken rest, longData = taken ++ rest ∧
        read longData = .ok (bare (Pool.empty.append (.long 7)), rest) ∧
        (bare (Pool.empty.append (.long 7))).bytes ≠ taken := by
  obtain ⟨-, taken, rest, hdata, hread, hbytes, -⟩ := bytes_of_parse parse_longData
  refine ⟨parse_longData, taken, rest, hdata, hread, ?_⟩
  rw [ne_eq, hbytes]
  decide

/-- Class data that declares no slot at all. -/
def countless : List UInt8 := be32 magic ++ be16 0 ++ be16 52 ++ be16 0 ++ List.replicate 14 0

/-- Data that declares no slots has no wide constant, and yet it is not what is written. -/
theorem bytes_ne_countless :
    read countless = .ok (bare Pool.empty, []) ∧ (∀ i, ¬ (bare Pool.empty).pool.WideAt i) ∧
      (bare Pool.empty).bytes ≠ countless := by
  refine ⟨rfl, ?_, by decide⟩
  rintro (_ | i) ⟨c, hc, -⟩ <;> cases hc

end ClassFile

end Untangle
