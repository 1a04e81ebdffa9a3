import Mathlib.Data.Int.Bitwise
import Untangle.Proofs.Machine.Arithmetic

/-!
# Integers are evaluated exactly

The value of an operation on two integers of `w` bits is the true result, taken modulo `2 ^ w` into the signed
range. Quotients are cut off toward zero, bits are those of two's complement, and a distance is taken modulo the
width. There is no true result for a division by zero, which is the one way in which integers of one kind fail;
operands of different kinds always fail, but for a `long` that is shifted by an `int`.
-/

namespace Untangle

open Machine

variable {w : Nat} {a b : Int}

/-- The true result of an operator on two integers of `w` bits, of which the right one is the distance for a shift.
There is none for a division by zero, and none for the operator that takes one operand. -/
def MathOp.exact (w : Nat) (op : MathOp) (a b : Int) : Option Int :=
  match op with
  | .add => some (a + b)
  | .sub => some (a - b)
  | .mul => some (a * b)
  | .div => if b = 0 then none else some (a.tdiv b)
  | .rem => if b = 0 then none else some (a.tmod b)
  | .and => some (a.land b)
  | .or => some (a.lor b)
  | .xor => some (a.xor b)
  | .shl => some (a * 2 ^ (b % w).toNat)
  | .shr => some (a / 2 ^ (b % w).toNat)
  | .ushr => some (a % 2 ^ w / 2 ^ (b % w).toNat)
  | .neg => none

namespace Machine

/-! ### Bits -/

section Bits

variable {w : Nat}

/-- The bits of an integer modulo `2 ^ w` are its lowest ones. -/
theorem getLsbD_ofInt (n : Int) (i : Nat) : (BitVec.ofInt w n).getLsbD i = (decide (i < w) && n.testBit i) := by
  cases n with
  | ofNat n => simp [Int.testBit, BitVec.getLsbD_ofNat]
  | negSucc n =>
    rw [BitVec.ofInt_negSucc_eq_not_ofNat, BitVec.getLsbD_not, BitVec.getLsbD_ofNat]
    cases decide (i < w) <;> rfl

theorem testBit_toInt (a : BitVec w) {i : Nat} (hi : i < w) : a.toInt.testBit i = a.getLsbD i := by
  have h := getLsbD_ofInt (w := w) a.toInt i
  simpa [hi] using h.symm

theorem emod_toInt (a : BitVec w) : a.toInt % 2 ^ w = a.toNat := by
  have hcast : (2 ^ w : Int) = ((2 ^ w : Nat) : Int) := by simp
  rw [BitVec.toInt_eq_toNat_bmod, hcast, Int.bmod_emod]
  exact Int.emod_eq_of_lt (Int.natCast_nonneg _) (Int.ofNat_lt.mpr a.isLt)

theorem ofInt_land (a b : BitVec w) : BitVec.ofInt w (a.toInt.land b.toInt) = a &&& b := by
  refine BitVec.eq_of_getLsbD_eq fun i hi => ?_
  rw [getLsbD_ofInt, Int.testBit_land, testBit_toInt a hi, testBit_toInt b hi]
  simp [hi]

theorem ofInt_lor (a b : BitVec w) : BitVec.ofInt w (a.toInt.lor b.toInt) = a ||| b := by
  refine BitVec.eq_of_getLsbD_eq fun i hi => ?_
  rw [getLsbD_ofInt, Int.testBit_lor, testBit_toInt a hi, testBit_toInt b hi]
  simp [hi]

theorem ofInt_xor (a b : BitVec w) : BitVec.ofInt w (a.toInt.xor b.toInt) = a ^^^ b := by
  refine BitVec.eq_of_getLsbD_eq fun i hi => ?_
  rw [getLsbD_ofInt, Int.testBit_lxor, testBit_toInt a hi, testBit_toInt b hi]
  simp [hi]

end Bits

/-! ### The machine is exact -/

section Exact

variable {w : Nat} {op : MathOp} {a b : BitVec w}

/-- What the machine computes of two integers is the true result modulo `2 ^ w`. -/
theorem integer_eq_exact (hshift : op.isShift = false) (hneg : op ≠ .neg) :
    integer op a b = (op.exact w a.toInt b.toInt).elim (.error .divisionByZero) fun n => .ok (.ofInt w n) := by
  cases op with
  | add | sub | mul => rfl
  | div | rem =>
    rw [integer, MathOp.exact]
    split <;> rfl
  | and => exact congrArg _ (ofInt_land a b).symm
  | or => exact congrArg _ (ofInt_lor a b).symm
  | xor => exact congrArg _ (ofInt_xor a b).symm
  | neg => exact absurd rfl hneg
  | _ => cases hshift

/-- What the machine makes of an integer that it shifts is the true result modulo `2 ^ w`. -/
theorem shift_eq_exact (hop : op.isShift = true) (distance : Int) :
    ∃ n, op.exact w a.toInt distance = some n ∧ shift op a distance = .ofInt w n := by
  cases op with
  | shl | shr => exact ⟨_, rfl, rfl⟩
  | ushr =>
    refine ⟨_, rfl, ?_⟩
    rw [emod_toInt]
    rfl
  | _ => cases hop

/-- A quotient and its remainder make up the dividend, modulo `2 ^ w`. -/
theorem sdiv_mul_add_srem (a b : BitVec w) : a.sdiv b * b + a.srem b = a := by
  have hdiv : a.sdiv b = .ofInt w (a.toInt.tdiv b.toInt) := by
    rw [← BitVec.toInt_inj, BitVec.toInt_ofInt, BitVec.toInt_sdiv]
  have hrem : a.srem b = .ofInt w (a.toInt.tmod b.toInt) := by
    rw [← BitVec.toInt_srem, BitVec.ofInt_toInt]
  calc a.sdiv b * b + a.srem b
      = .ofInt w (a.toInt.tdiv b.toInt * b.toInt + a.toInt.tmod b.toInt) := by
        rw [BitVec.ofInt_add, BitVec.ofInt_mul, BitVec.ofInt_toInt, hdiv, hrem]
    _ = a := by rw [Int.tdiv_mul_add_tmod, BitVec.ofInt_toInt]

end Exact

end Machine

/-! ### Kinds of integers -/

/-- The number is an integer of `w` bits, and this is its value. -/
inductive Value.IsInteger : Value → Nat → Int → Prop where
  | int (a : Int32) : IsInteger (.int a) 32 a.toInt
  | long (a : Int64) : IsInteger (.long a) 64 a.toInt

theorem Value.isInteger_int {v : Int32} {n : Int} (h : v.toBitVec = .ofInt 32 n) :
    (Value.int v).IsInteger 32 (n.bmod (2 ^ 32)) := by
  have hv : v.toInt = n.bmod (2 ^ 32) := by rw [Int32.toInt, h, BitVec.toInt_ofInt]
  exact hv ▸ .int v

theorem Value.isInteger_long {v : Int64} {n : Int} (h : v.toBitVec = .ofInt 64 n) :
    (Value.long v).IsInteger 64 (n.bmod (2 ^ 64)) := by
  have hv : v.toInt = n.bmod (2 ^ 64) := by rw [Int64.toInt, h, BitVec.toInt_ofInt]
  exact hv ▸ .long v

namespace Evaluation

variable {op : MathOp} {l r : Value}

/-- The outcome of an operation on integers of `w` bits that has this true result, or none. -/
def Reduced (w : Nat) (outcome : Except EvalError Value) : Option Int → Prop
  | some n => ∃ v, outcome = .ok v ∧ v.IsInteger w (n.bmod (2 ^ w))
  | none => outcome = .error .divisionByZero

/-- There is no true result just for a division by zero. -/
theorem exact_eq_none_iff (hneg : op ≠ .neg) : op.exact w a b = none ↔ (op = .div ∨ op = .rem) ∧ b = 0 := by
  cases op with
  | neg => exact absurd rfl hneg
  | _ => simp [MathOp.exact]

/-- Two integers of one kind, not shifted. -/
theorem reduced_unshifted (hl : l.IsInteger w a) (hr : r.IsInteger w b) (hshift : op.isShift = false)
    (hneg : op ≠ .neg) : Reduced w (binary op l r) (op.exact w a b) := by
  cases hl with
  | int l =>
    cases hr with
    | int r =>
      have hexact := integer_eq_exact (a := l.toBitVec) (b := r.toBitVec) hshift hneg
      simp only [binary, hshift, onInts_eq_integer, hexact]
      change Reduced _ _ (op.exact 32 l.toBitVec.toInt r.toBitVec.toInt)
      cases op.exact 32 l.toBitVec.toInt r.toBitVec.toInt with
      | none => rfl
      | some n => exact ⟨_, rfl, Value.isInteger_int rfl⟩
  | long l =>
    cases hr with
    | long r =>
      have hexact := integer_eq_exact (a := l.toBitVec) (b := r.toBitVec) hshift hneg
      simp only [binary, hshift, onLongs_eq_integer, hexact]
      change Reduced _ _ (op.exact 64 l.toBitVec.toInt r.toBitVec.toInt)
      cases op.exact 64 l.toBitVec.toInt r.toBitVec.toInt with
      | none => rfl
      | some n => exact ⟨_, rfl, Value.isInteger_long rfl⟩

/-- An integer that is shifted by an `int`. -/
theorem reduced_shifted (hl : l.IsInteger w a) (hr : r.IsInteger 32 b) (hshift : op.isShift = true) :
    Reduced w (binary op l r) (op.exact w a b) := by
  cases hr with
  | int distance =>
    cases hl with
    | int l =>
      obtain ⟨n, hexact, hn⟩ := shift_eq_exact hshift distance.toInt
      rw [shift_eq_shiftInt hshift] at hn
      have hexact' : op.exact 32 l.toInt distance.toInt = some n := hexact
      simp only [binary, hshift, hexact']
      exact ⟨_, rfl, Value.isInteger_int hn⟩
    | long l =>
      obtain ⟨n, hexact, hn⟩ := shift_eq_exact hshift distance.toInt
      rw [shift_eq_shiftLong hshift] at hn
      have hexact' : op.exact 64 l.toInt distance.toInt = some n := hexact
      simp only [binary, hshift, hexact']
      exact ⟨_, rfl, Value.isInteger_long hn⟩

/-- Operands of different kinds have no value, but for a `long` that is shifted by an `int`. -/
theorem binary_of_kinds_ne (hkinds : l.kind ≠ r.kind)
    (hshift : ¬ (op.isShift = true ∧ l.kind = .long ∧ r.kind = .int)) : binary op l r = .error (.operands l op r) := by
  unfold binary
  split
  · next h =>
    split
    · exact absurd rfl hkinds
    · exact absurd ⟨h, rfl, rfl⟩ hshift
    · rfl
  · split
    · exact absurd rfl hkinds
    · exact absurd rfl hkinds
    · exact absurd rfl hkinds
    · exact absurd rfl hkinds
    · rfl

/-- The operator that takes one operand has no value on two, and not because of a division. -/
theorem binary_neg (l r : Value) : ∃ e, binary .neg l r = .error e ∧ e ≠ .divisionByZero := by
  unfold binary
  split
  · next h => cases h
  · split <;> exact ⟨_, rfl, nofun⟩

theorem onFloats_ne_divisionByZero {α : Type} {f : BinaryFormat} {kind : NumKind} {a b : Nat} {g : Nat → α} :
    (onFloats f kind op a b).map g ≠ .error .divisionByZero := by
  intro h
  cases op <;> cases h

/-- Only integers of one kind are divided by zero. -/
theorem isInteger_of_divisionByZero (h : binary op l r = .error .divisionByZero) :
    op.isShift = false ∧ ∃ w a b, l.IsInteger w a ∧ r.IsInteger w b := by
  unfold binary at h
  split at h
  · split at h <;> cases h
  · next hshift =>
    refine ⟨Bool.eq_false_of_not_eq_true hshift, ?_⟩
    split at h
    · exact ⟨32, _, _, .int _, .int _⟩
    · exact ⟨64, _, _, .long _, .long _⟩
    · exact absurd h onFloats_ne_divisionByZero
    · exact absurd h onFloats_ne_divisionByZero
    · cases h

/-- A division by zero is reported for a quotient or a remainder of integers, and for nothing else. -/
theorem binary_eq_divisionByZero_iff :
    binary op l r = .error .divisionByZero ↔ (op = .div ∨ op = .rem) ∧ ∃ w a, l.IsInteger w a ∧ r.IsInteger w 0 := by
  constructor
  · intro h
    obtain ⟨hshift, w, a, b, hl, hr⟩ := isInteger_of_divisionByZero h
    have hneg : op ≠ .neg := by
      rintro rfl
      obtain ⟨e, herror, he⟩ := binary_neg l r
      rw [herror] at h
      exact he (Except.error.inj h)
    have hreduced := reduced_unshifted hl hr hshift hneg
    cases hexact : op.exact w a b with
    | none =>
      obtain ⟨hop, rfl⟩ := (exact_eq_none_iff hneg).mp hexact
      exact ⟨hop, w, a, hl, hr⟩
    | some n =>
      rw [hexact] at hreduced
      obtain ⟨v, hv, -⟩ := hreduced
      rw [h] at hv
      cases hv
  · rintro ⟨hop, w, a, hl, hr⟩
    have hplain : op.isShift = false ∧ op ≠ .neg := by
      rcases hop with rfl | rfl <;> exact ⟨rfl, nofun⟩
    have hreduced := reduced_unshifted hl hr hplain.1 hplain.2
    rw [(exact_eq_none_iff hplain.2).mpr ⟨hop, rfl⟩] at hreduced
    exact hreduced

/-! ### Quotients and remainders -/

/-- The quotient times the divisor, with the remainder on top. -/
def recomposed (l r : Value) : Except EvalError Value := do
  let quotient ← binary .div l r
  let remainder ← binary .rem l r
  let product ← binary .mul quotient r
  binary .add product remainder

/-- That is the dividend, also where the quotient does not fit. -/
theorem recomposed_eq (hl : l.IsInteger w a) (hr : r.IsInteger w b) (hb : b ≠ 0) : recomposed l r = .ok l := by
  cases hl with
  | int l =>
    cases hr with
    | int r =>
      have hr : r ≠ 0 := fun h => hb (h ▸ rfl)
      have hdiv : onInts .div l r = .ok (l / r) := if_neg hr
      have hrem : onInts .rem l r = .ok (l % r) := if_neg hr
      have hwhole : l / r * r + l % r = l := Int32.toBitVec_inj.mp (sdiv_mul_add_srem _ _)
      calc recomposed (.int l) (.int r)
          = .ok (.int (l / r * r + l % r)) := by
            simp only [recomposed, binary, hdiv, hrem]
            rfl
        _ = .ok (.int l) := by rw [hwhole]
  | long l =>
    cases hr with
    | long r =>
      have hr : r ≠ 0 := fun h => hb (h ▸ rfl)
      have hdiv : onLongs .div l r = .ok (l / r) := if_neg hr
      have hrem : onLongs .rem l r = .ok (l % r) := if_neg hr
      have hwhole : l / r * r + l % r = l := Int64.toBitVec_inj.mp (sdiv_mul_add_srem _ _)
      calc recomposed (.long l) (.long r)
          = .ok (.long (l / r * r + l % r)) := by
            simp only [recomposed, binary, hdiv, hrem]
            rfl
        _ = .ok (.long l) := by rw [hwhole]

/-- A number turned around is the true one modulo `2 ^ w`. -/
theorem unary_neg {v : Value} (hv : v.IsInteger w a) :
    ∃ u, unary .neg v = .ok u ∧ u.IsInteger w ((-a).bmod (2 ^ w)) := by
  have hbits {w : Nat} (a : BitVec w) : -a = .ofInt w (-a.toInt) := by rw [BitVec.ofInt_neg, BitVec.ofInt_toInt]
  cases hv with
  | int v => exact ⟨.int (-v), rfl, Value.isInteger_int (hbits v.toBitVec)⟩
  | long v => exact ⟨.long (-v), rfl, Value.isInteger_long (hbits v.toBitVec)⟩

/-- Integers of one kind, and a `long` with an `int` as a distance, are evaluated to the true result modulo `2 ^ w`.
The operator that takes one operand is refused, and a division by zero fails as such and nothing else does; a
quotient and its remainder make up the dividend; a negated integer is the true one modulo `2 ^ w`; and operands of
different kinds have no value. -/
theorem integers_evaluated_exactly :
    (∀ (w : Nat) (op : MathOp) (l r : Value) (a b : Int), op ≠ .neg → l.IsInteger w a →
        r.IsInteger (if op.isShift then 32 else w) b → Reduced w (binary op l r) (op.exact w a b)) ∧
      (∀ l r : Value, ∃ e, binary .neg l r = .error e) ∧
      (∀ (op : MathOp) (l r : Value), binary op l r = .error .divisionByZero ↔
        (op = .div ∨ op = .rem) ∧ ∃ w a, l.IsInteger w a ∧ r.IsInteger w 0) ∧
      (∀ (w : Nat) (l r : Value) (a b : Int), l.IsInteger w a → r.IsInteger w b → b ≠ 0 → recomposed l r = .ok l) ∧
      (∀ (w : Nat) (v : Value) (a : Int), v.IsInteger w a →
        ∃ u, unary .neg v = .ok u ∧ u.IsInteger w ((-a).bmod (2 ^ w))) ∧
      ∀ (op : MathOp) (l r : Value), l.kind ≠ r.kind →
        ¬ (op.isShift = true ∧ l.kind = .long ∧ r.kind = .int) → ∃ e, binary op l r = .error e := by
  refine ⟨fun w op l r a b hneg hl hr => ?_, fun l r => ?_, fun op l r => binary_eq_divisionByZero_iff,
    fun w l r a b hl hr hb => recomposed_eq hl hr hb, fun w v a hv => unary_neg hv,
    fun op l r hkinds hshift => ⟨_, binary_of_kinds_ne hkinds hshift⟩⟩
  · cases hshift : op.isShift with
    | true =>
      rw [hshift] at hr
      exact reduced_shifted hl hr hshift
    | false =>
      rw [hshift] at hr
      exact reduced_unshifted hl hr hshift hneg
  · obtain ⟨e, herror, -⟩ := binary_neg l r
    exact ⟨e, herror⟩

/-- The least `int` divided by -1 and negated, a negative `long` shifted by a negative distance, and two kinds. -/
theorem leastInt_evaluated_exactly :
    Reduced 32 (binary .div (.int Int32.minValue) (.int (-1))) (some 2147483648) ∧
      Reduced 64 (binary .ushr (.long (-16)) (.int (-4))) (some 15) ∧
      recomposed (.int Int32.minValue) (.int (-1)) = .ok (.int Int32.minValue) ∧
      (∃ u, unary .neg (.int Int32.minValue) = .ok u ∧ u.IsInteger 32 (Int.bmod (-Int32.minValue.toInt) (2 ^ 32))) ∧
      ∃ e, binary .add (.int 1) (.long 1) = .error e := by
  have hquotient : MathOp.exact 32 .div Int32.minValue.toInt (-1 : Int32).toInt = some 2147483648 := by decide
  have hshifted : MathOp.exact 64 .ushr (-16 : Int64).toInt (-4 : Int32).toInt = some 15 := by decide
  obtain ⟨hbinary, -, -, hrecomposed, hnegated, hkinds⟩ := integers_evaluated_exactly
  refine ⟨?_, ?_, ?_, ?_, ?_⟩
  · rw [← hquotient]
    exact hbinary 32 .div _ _ _ _ nofun (.int Int32.minValue) (.int (-1))
  · rw [← hshifted]
    exact hbinary 64 .ushr _ _ _ _ nofun (.long (-16)) (.int (-4))
  · exact hrecomposed 32 _ _ _ _ (.int Int32.minValue) (.int (-1)) (by decide)
  · exact hnegated 32 _ _ (.int Int32.minValue)
  · exact hkinds .add (.int 1) (.long 1) nofun nofun

end Evaluation

end Untangle
