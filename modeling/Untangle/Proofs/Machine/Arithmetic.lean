import Mathlib.Data.BitVec
import Untangle.Evaluation
import Untangle.Proofs.Results

/-!
# Arithmetic of the machine

What the machine computes, said over the integers: a result is the true one modulo `2 ^ w`, quotients
are cut off toward zero, shift distances are taken modulo the width, and an integer that is divided by
zero gives no value but an exception. Floating-point operations are those of `Evaluation`.

`binary_of_evaluation` and `negate_of_evaluation` say that what was computed ahead of time is what the
machine would have computed, and `negate_negate` that a number turned around twice is the same number,
bit for bit.
-/

namespace Untangle.Machine

open Int32

variable {op : MathOp} {v u : Value} {bits : Nat}

/-- Why an instruction gives no value. -/
inductive Fault where
  /-- An integer was divided by zero, which throws an exception. -/
  | divisionByZero
  /-- An operand is missing, or the instruction does not take operands of its kind. -/
  | wrong
deriving DecidableEq, Repr, Inhabited

/-! ### Operations -/

/-- Two integers of `w` bits, not shifted. -/
def integer {w : Nat} (op : MathOp) (a b : BitVec w) : Except Fault (BitVec w) :=
  match op with
  | .add => .ok (.ofInt w (a.toInt + b.toInt))
  | .sub => .ok (.ofInt w (a.toInt - b.toInt))
  | .mul => .ok (.ofInt w (a.toInt * b.toInt))
  | .div => if b.toInt = 0 then .error .divisionByZero else .ok (.ofInt w (a.toInt.tdiv b.toInt))
  | .rem => if b.toInt = 0 then .error .divisionByZero else .ok (.ofInt w (a.toInt.tmod b.toInt))
  | .and => .ok (a &&& b)
  | .or => .ok (a ||| b)
  | .xor => .ok (a ^^^ b)
  | _ => .error .wrong

/-- Shifts an integer of `w` bits: to the left it is multiplied, to the right it is divided, rounding
down, as a signed or as an unsigned number. -/
def shift {w : Nat} (op : MathOp) (a : BitVec w) (distance : Int) : BitVec w :=
  let places := (distance % w).toNat
  match op with
  | .shl => .ofInt w (a.toInt * 2 ^ places)
  | .ushr => .ofInt w (a.toNat / 2 ^ places)
  | .shr => .ofInt w (a.toInt / 2 ^ places)
  | _ => a

/-- What an operator on numbers of this kind makes of two operands, the left one pushed first. -/
def binary (kind : NumKind) (op : MathOp) (l r : Value) : Except Fault Value :=
  if op.isShift then
    match kind, l, r with
    | .int, .int a, .int n => .ok (.int (.ofBitVec (shift op a.toBitVec n.toInt)))
    | .long, .long a, .int n => .ok (.long (.ofBitVec (shift op a.toBitVec n.toInt)))
    | _, _, _ => .error .wrong
  else
    match kind, l, r with
    | .int, .int a, .int b => (integer op a.toBitVec b.toBitVec).map fun v => .int (.ofBitVec v)
    | .long, .long a, .long b => (integer op a.toBitVec b.toBitVec).map fun v => .long (.ofBitVec v)
    | .float, .float _, .float _ | .double, .double _, .double _ =>
      (Evaluation.binary op l r).mapError fun _ => .wrong
    | _, _, _ => .error .wrong

/-- A number of this kind, turned around. -/
def negate (kind : NumKind) (v : Value) : Except Fault Value :=
  match kind, v with
  | .int, .int a => .ok (.int (.ofBitVec (.ofInt 32 (-a.toInt))))
  | .long, .long a => .ok (.long (.ofBitVec (.ofInt 64 (-a.toInt))))
  | .float, .float _ | .double, .double _ => (Evaluation.unary .neg v).mapError fun _ => .wrong
  | _, _ => .error .wrong

/-! ### Integers -/

section Integers

variable {w : Nat} (a b : BitVec w)

theorem integer_add : integer .add a b = .ok (a + b) := by
  rw [integer, BitVec.ofInt_add, BitVec.ofInt_toInt, BitVec.ofInt_toInt]

theorem integer_sub : integer .sub a b = .ok (a - b) := by
  rw [integer, sub_eq_add_neg, BitVec.ofInt_add, BitVec.ofInt_neg, BitVec.ofInt_toInt,
    BitVec.ofInt_toInt, sub_eq_add_neg]

theorem integer_mul : integer .mul a b = .ok (a * b) := by
  rw [integer, BitVec.ofInt_mul, BitVec.ofInt_toInt, BitVec.ofInt_toInt]

theorem toInt_ne_zero {b : BitVec w} (hb : b ≠ 0) : b.toInt ≠ 0 := by
  intro h
  exact hb (BitVec.toInt_inj.mp (h.trans BitVec.toInt_zero.symm))

theorem integer_div (hb : b ≠ 0) : integer .div a b = .ok (a.sdiv b) := by
  have hdiv : BitVec.ofInt w (a.toInt.tdiv b.toInt) = a.sdiv b := by
    rw [← BitVec.toInt_inj, BitVec.toInt_ofInt, BitVec.toInt_sdiv]
  rw [integer, if_neg (toInt_ne_zero hb), hdiv]

theorem integer_rem (hb : b ≠ 0) : integer .rem a b = .ok (a.srem b) := by
  rw [integer, if_neg (toInt_ne_zero hb), ← BitVec.toInt_srem, BitVec.ofInt_toInt]

theorem shift_shl (distance : Int) : shift .shl a distance = a <<< (distance % w).toNat := by
  have hpow (k : Nat) : BitVec.ofInt w (2 ^ k) = BitVec.twoPow w k := by
    have hcast : (2 ^ k : Int) = ((2 ^ k : Nat) : Int) := by simp
    rw [hcast, BitVec.ofInt_natCast, ← BitVec.toNat_inj, BitVec.toNat_ofNat, BitVec.toNat_twoPow]
  rw [shift, BitVec.ofInt_mul, BitVec.ofInt_toInt, hpow, BitVec.shiftLeft_eq_mul_twoPow]

theorem shift_ushr (distance : Int) : shift .ushr a distance = a >>> (distance % w).toNat := by
  have hcast (k : Nat) : ((a.toNat : Int) / 2 ^ k) = ((a.toNat / 2 ^ k : Nat) : Int) := by simp
  rw [shift, hcast, BitVec.ofInt_natCast, ← BitVec.toNat_inj, BitVec.toNat_ushiftRight,
    BitVec.toNat_ofNat, Nat.shiftRight_eq_div_pow, Nat.mod_eq_of_lt]
  exact lt_of_le_of_lt (Nat.div_le_self _ _) a.isLt

theorem shift_shr (distance : Int) : shift .shr a distance = a.sshiftRight (distance % w).toNat := by
  have hpow (k : Nat) : (2 ^ k : Int) = ((2 ^ k : Nat) : Int) := by simp
  rw [shift, hpow, ← Int.shiftRight_eq_div_pow, ← BitVec.toInt_sshiftRight, BitVec.ofInt_toInt]

/-- A distance that is reduced as an unsigned number is reduced as a signed one too. -/
theorem toNat_umod {k : Nat} (hk : k ∣ 2 ^ w) : a.toNat % k = (a.toInt % k).toNat := by
  have hmod : a.toInt % k = ((a.toNat % k : Nat) : Int) := by
    obtain ⟨c, hc⟩ := hk
    rw [BitVec.toInt_eq_toNat_cond]
    split
    · exact (Int.natCast_emod _ _).symm
    · rw [hc, Nat.cast_mul, Int.sub_mul_emod_self_left, Int.natCast_emod]
  rw [hmod, Int.toNat_natCast]

theorem toNat_smod (hb : 0 < b.toInt) : (a.smod b).toNat = (a.toInt % b.toInt).toNat := by
  have h : (a.smod b).toInt = a.toInt % b.toInt := by
    rw [BitVec.toInt_smod, Int.fmod_eq_emod_of_nonneg _ hb.le]
  have hpos : 0 ≤ a.toInt % b.toInt := Int.emod_nonneg _ hb.ne'
  rw [← h] at hpos ⊢
  rw [BitVec.toInt_eq_toNat_cond] at hpos ⊢
  split at hpos <;> omega

end Integers

/-! ### Computing ahead of time -/

/-- The failure that a fault is when it is met ahead of time. -/
def Fault.failure (op : MathOp) : Fault → EvalError
  | divisionByZero => .divisionByZero
  | wrong => .arity op

/-- What is computed of two `int`s ahead of time is what the machine computes. -/
theorem onInts_eq_integer (op : MathOp) (l r : Int32) :
    Evaluation.onInts op l r = ((integer op l.toBitVec r.toBitVec).map .ofBitVec).mapError (Fault.failure op) := by
  cases op with
  | add => rw [integer_add]; rfl
  | sub => rw [integer_sub]; rfl
  | mul => rw [integer_mul]; rfl
  | div =>
    by_cases hr : r = 0
    · subst hr
      rfl
    · rw [integer_div _ _ (fun he => hr (toBitVec_inj.mp he)), Evaluation.onInts, if_neg hr]
      rfl
  | rem =>
    by_cases hr : r = 0
    · subst hr
      rfl
    · rw [integer_rem _ _ (fun he => hr (toBitVec_inj.mp he)), Evaluation.onInts, if_neg hr]
      rfl
  | _ => rfl

/-- What is computed of two `long`s ahead of time is what the machine computes. -/
theorem onLongs_eq_integer (op : MathOp) (l r : Int64) :
    Evaluation.onLongs op l r = ((integer op l.toBitVec r.toBitVec).map .ofBitVec).mapError (Fault.failure op) := by
  cases op with
  | add => rw [integer_add]; rfl
  | sub => rw [integer_sub]; rfl
  | mul => rw [integer_mul]; rfl
  | div =>
    by_cases hr : r = 0
    · subst hr
      rfl
    · rw [integer_div _ _ (fun he => hr (Int64.toBitVec_inj.mp he)), Evaluation.onLongs, if_neg hr]
      rfl
  | rem =>
    by_cases hr : r = 0
    · subst hr
      rfl
    · rw [integer_rem _ _ (fun he => hr (Int64.toBitVec_inj.mp he)), Evaluation.onLongs, if_neg hr]
      rfl
  | _ => rfl

theorem ok_of_failure {α β : Type} {outcome : Except Fault α} {f : α → β} {v : β}
    (h : (outcome.map f).mapError (Fault.failure op) = .ok v) : ∃ u, outcome = .ok u ∧ f u = v := by
  cases outcome with
  | ok u => exact ⟨u, rfl, Except.ok.inj h⟩
  | error e => cases h

theorem shift_eq_shiftInt (h : op.isShift = true) (v n : Int32) :
    shift op v.toBitVec n.toInt = (Evaluation.shiftInt op v n).toBitVec := by
  have hsigned : (n.toBitVec.smod 32).toNat = (n.toInt % 32).toNat := toNat_smod _ _ (by decide)
  have hunsigned : (n.toBitVec % 32).toNat = (n.toInt % 32).toNat := toNat_umod _ (by decide)
  cases op with
  | shl =>
    rw [shift_shl, Evaluation.shiftInt, Int32.toBitVec_shiftLeft, BitVec.shiftLeft_eq', hsigned]
    rfl
  | ushr =>
    rw [shift_ushr, Evaluation.shiftInt, UInt32.toBitVec_toInt32, UInt32.toBitVec_shiftRight,
      BitVec.ushiftRight_eq', toBitVec_toUInt32, toBitVec_toUInt32, hunsigned]
    rfl
  | shr =>
    have hv : Evaluation.shiftInt .shr v n = v >>> n := rfl
    rw [shift_shr, hv, Int32.toBitVec_shiftRight, BitVec.sshiftRight', hsigned]
    rfl
  | _ => cases h

theorem shift_eq_shiftLong (h : op.isShift = true) (v : Int64) (n : Int32) :
    shift op v.toBitVec n.toInt = (Evaluation.shiftLong op v n).toBitVec := by
  have hsigned : (n.toInt64.toBitVec.smod 64).toNat = (n.toInt % 64).toNat := by
    rw [← toInt_toInt64]
    exact toNat_smod _ _ (by decide)
  have hunsigned : (n.toInt64.toBitVec % 64).toNat = (n.toInt % 64).toNat := by
    rw [← toInt_toInt64]
    exact toNat_umod _ (by decide)
  cases op with
  | shl =>
    rw [shift_shl, Evaluation.shiftLong, Int64.toBitVec_shiftLeft, BitVec.shiftLeft_eq', hsigned]
    rfl
  | ushr =>
    rw [shift_ushr, Evaluation.shiftLong, UInt64.toBitVec_toInt64, UInt64.toBitVec_shiftRight,
      BitVec.ushiftRight_eq', Int64.toBitVec_toUInt64, Int64.toBitVec_toUInt64, hunsigned]
    rfl
  | shr =>
    have hv : Evaluation.shiftLong .shr v n = v >>> n.toInt64 := rfl
    rw [shift_shr, hv, Int64.toBitVec_shiftRight, BitVec.sshiftRight', hsigned]
    rfl
  | _ => cases h

/-- An operation on two numbers that was done ahead of time, for an instruction of the kind of the
left one, gives what the machine gives. -/
theorem binary_of_evaluation {l r : Value} (h : Evaluation.binary op l r = .ok v) : binary l.kind op l r = .ok v := by
  have hevaluated := h
  unfold Evaluation.binary at h
  unfold binary
  cases hs : op.isShift with
  | true =>
    simp only [hs, if_true] at h ⊢
    split at h
    · cases h
      simp only [shift_eq_shiftInt hs]
      rfl
    · cases h
      simp only [shift_eq_shiftLong hs]
      rfl
    · cases h
  | false =>
    simp only [hs, Bool.false_eq_true, if_false] at h ⊢
    split at h
    · obtain ⟨v, hv, rfl⟩ := map_eq_ok.mp h
      obtain ⟨u, hu, rfl⟩ := ok_of_failure (onInts_eq_integer op _ _ ▸ hv)
      simp only [Value.kind, hu]
      rfl
    · obtain ⟨v, hv, rfl⟩ := map_eq_ok.mp h
      obtain ⟨u, hu, rfl⟩ := ok_of_failure (onLongs_eq_integer op _ _ ▸ hv)
      simp only [Value.kind, hu]
      rfl
    · simp only [hevaluated]
      rfl
    · simp only [hevaluated]
      rfl
    · cases h

/-- A number that was turned around ahead of time is what the machine makes of it. -/
theorem negate_of_evaluation (h : Evaluation.unary .neg v = .ok u) : negate v.kind v = .ok u := by
  cases v with
  | int a =>
    cases h
    rw [Value.kind, negate, toInt, BitVec.ofInt_neg, BitVec.ofInt_toInt]
    rfl
  | long a =>
    cases h
    rw [Value.kind, negate, Int64.toInt, BitVec.ofInt_neg, BitVec.ofInt_toInt]
    rfl
  | float bits | double bits =>
    simp only [negate, h]
    rfl

/-! ### Turning around twice -/

theorem negate_of_lt (f : BinaryFormat) (h : bits < f.signBit) : f.negate bits = bits + f.signBit := by
  rw [BinaryFormat.negate, Nat.div_eq_of_lt h]
  rfl

theorem negate_of_ge (f : BinaryFormat) (h : f.signBit ≤ bits) (hlt : bits < 2 * f.signBit) :
    f.negate bits = bits - f.signBit := by
  rw [BinaryFormat.negate, Nat.div_eq_of_lt_le (k := 1) (by omega) (by omega)]
  rfl

/-- The sign bit is the highest one, so flipping it twice gives the same bits. -/
theorem flip_flip (f : BinaryFormat) (h : bits < 2 * f.signBit) :
    f.negate bits < 2 * f.signBit ∧ f.negate (f.negate bits) = bits := by
  rcases Nat.lt_or_ge bits f.signBit with hlt | hge
  · rw [negate_of_lt f hlt, negate_of_ge f (by omega) (by omega)]
    omega
  · rw [negate_of_ge f hge h, negate_of_lt f (by omega)]
    omega

theorem ofInt_neg_neg (a : BitVec w) : BitVec.ofInt w (-(BitVec.ofInt w (-a.toInt)).toInt) = a := by
  rw [BitVec.ofInt_neg, BitVec.ofInt_toInt, BitVec.ofInt_neg, BitVec.ofInt_toInt, neg_neg]

/-- Two negations cancel out, bit for bit. -/
theorem negate_negate {kind : NumKind} (h : negate kind v = .ok u) : negate kind u = .ok v := by
  cases kind <;> cases v
  case int.int a =>
    cases h
    exact congrArg (fun x => Except.ok (Value.int (.ofBitVec x))) (ofInt_neg_neg a.toBitVec)
  case long.long a =>
    cases h
    exact congrArg (fun x => Except.ok (Value.long (.ofBitVec x))) (ofInt_neg_neg a.toBitVec)
  case float.float bits =>
    cases h
    obtain ⟨hlt, hflip⟩ := flip_flip .single bits.toNat_lt
    simp only [negate, Evaluation.unary, UInt32.toNat_ofNat_of_lt' hlt, hflip, UInt32.ofNat_toNat]
    rfl
  case double.double bits =>
    cases h
    obtain ⟨hlt, hflip⟩ := flip_flip .double bits.toNat_lt
    simp only [negate, Evaluation.unary, UInt64.toNat_ofNat_of_lt' hlt, hflip, UInt64.ofNat_toNat]
    rfl
  all_goals cases h

end Untangle.Machine
