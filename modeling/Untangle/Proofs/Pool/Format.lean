import Mathlib.Data.List.Induction
import Untangle.Proofs.Pool

/-!
# Pools come back from their bytes

Constants are read one after the other while the slot counter is below the declared number of slots. A pool that was
read is the empty pool with these constants added, none of them longer than its length can say and all of them within
65535 slots. Such a pool comes back from its bytes: the same constants are read in the same order, so that even the
index is the same. The counter leaves the slot numbers in one case only, that of a wide constant in slot 65534.
-/

namespace Untangle

open List Constant

variable {c : Constant} {s rest : List UInt8} {p : Pool} {tag : UInt8} {count : Nat}

open Bytes

namespace Constant

/-- The length of the constant can be written. -/
def Fits : Constant → Prop
  | utf8 data => data.length ≤ 65535
  | _ => True

theorem read_bytes (h : c.Fits) (rest : List UInt8) : read (c.bytes ++ rest) = .ok (c, rest) := by
  cases c with
  | utf8 =>
    simp only [read, bytes, cons_append, append_assoc, bind, StateT.bind, Except.bind, u8, readParts,
      count16, u16_be16, toNat_ofNat16 h, Bytes.take_append]
    rfl
  | methodHandle =>
    simp only [read, bytes, cons_append, bind, StateT.bind, Except.bind, u8, readParts, u16_be16]
    rfl
  | _ =>
    simp only [read, bytes, cons_append, append_assoc, bind, StateT.bind, Except.bind, u8, readParts,
      readPair, u16_be16, u32_be32, u64_be64]
    rfl

theorem of_one {α : Type} {read : Reader α} {part : α → List UInt8} (hread : Exact read part) {make : α → Constant}
    (h : (do return make (← read) : Reader Constant) s = .ok (c, rest))
    (hmake : ∀ a, (make a).Fits ∧ (make a).bytes = tag :: part a) : c.Fits ∧ tag :: s = c.bytes ++ rest := by
  obtain ⟨⟨a, _⟩, ha, h⟩ := bind_eq_ok.mp h
  cases h
  rw [(hmake a).2, hread _ _ _ ha]
  exact ⟨(hmake a).1, rfl⟩

theorem of_readPair {make : UInt16 → UInt16 → Constant} (h : readPair make s = .ok (c, rest))
    (hmake : ∀ a b, (make a b).Fits ∧ (make a b).bytes = tag :: (be16 a ++ be16 b)) :
    c.Fits ∧ tag :: s = c.bytes ++ rest := by
  obtain ⟨⟨a, _⟩, ha, h⟩ := bind_eq_ok.mp h
  obtain ⟨⟨b, _⟩, hb, h⟩ := bind_eq_ok.mp h
  cases h
  rw [(hmake a b).2, exact_u16 _ _ _ ha, exact_u16 _ _ _ hb]
  exact ⟨(hmake a b).1, by simp⟩

theorem of_readParts (h : readParts tag s = .ok (c, rest)) : c.Fits ∧ tag :: s = c.bytes ++ rest := by
  unfold readParts at h
  split at h
  · obtain ⟨⟨n, s'⟩, hn, h⟩ := bind_eq_ok.mp h
    obtain ⟨⟨_, s''⟩, hdata, h⟩ := bind_eq_ok.mp h
    cases h
    have hlt := n.toNat_lt
    rw [Fits, exact_u16 _ _ _ hn, exact_take _ _ _ _ hdata, bytes, count16, length_of_take hdata]
    exact ⟨by omega, by simp⟩
  case h_18 => cases h
  case h_12 =>
    obtain ⟨⟨_, s'⟩, hkind, h⟩ := bind_eq_ok.mp h
    obtain ⟨⟨_, s''⟩, hreference, h⟩ := bind_eq_ok.mp h
    cases h
    rw [exact_u8 _ _ _ hkind, exact_u16 _ _ _ hreference]
    exact ⟨trivial, rfl⟩
  case h_2 | h_3 => exact of_one exact_u32 h fun _ => ⟨trivial, rfl⟩
  case h_4 | h_5 => exact of_one exact_u64 h fun _ => ⟨trivial, rfl⟩
  case h_8 | h_9 | h_10 | h_11 | h_14 | h_15 => exact of_readPair h fun _ _ => ⟨trivial, rfl⟩
  all_goals exact of_one exact_u16 h fun _ => ⟨trivial, rfl⟩

/-- A constant that is read fits, and it is read from its own bytes. -/
theorem of_read (h : read s = .ok (c, rest)) : c.Fits ∧ s = c.bytes ++ rest := by
  obtain ⟨⟨_, _⟩, htag, h⟩ := bind_eq_ok.mp h
  rw [exact_u8 _ _ _ htag]
  exact of_readParts h

theorem width_cases (c : Constant) : c.isWide = true ∧ c.width = 2 ∨ c.isWide = false ∧ c.width = 1 := by
  cases h : c.isWide <;> simp [width, h]

/-- A constant takes no slots while it is read. -/
theorem overflowFree_read : OverflowFree read := by
  refine overflowFree_u8.bind fun tag => ?_
  unfold readParts
  split
  case h_18 =>
    intro s e h
    cases h
    rfl
  case h_1 => exact overflowFree_u16.bind fun n => (overflowFree_take _).bind fun _ => .pure _
  case h_12 => exact overflowFree_u8.bind fun _ => overflowFree_u16.bind fun _ => .pure _
  case h_2 | h_3 => exact overflowFree_u32.bind fun _ => .pure _
  case h_4 | h_5 => exact (overflowFree_u32.bind fun _ => overflowFree_u32.bind fun _ => .pure _).bind fun _ => .pure _
  case h_8 | h_9 | h_10 | h_11 | h_14 | h_15 =>
    exact overflowFree_u16.bind fun _ => overflowFree_u16.bind fun _ => .pure _
  all_goals exact overflowFree_u16.bind fun _ => .pure _

end Constant

namespace Pool

theorem size_empty : empty.size = 1 := rfl

/-- The slots that a constant takes, as they are filled. -/
def filled (c : Constant) : List (Option Constant) := if c.isWide then [some c, none] else [some c]

theorem slots_toList_append (p : Pool) (c : Constant) : (p.append c).slots.toList = p.slots.toList ++ filled c := by
  simp only [append, filled]
  split <;> simp

theorem slots_foldl_append (cs : List Constant) (p : Pool) :
    (cs.foldl append p).slots.toList = p.slots.toList ++ cs.flatMap filled := by
  induction cs generalizing p with
  | nil => simp
  | cons c cs ih => rw [foldl_cons, ih, slots_toList_append, flatMap_cons, append_assoc]

theorem size_foldl_append (cs : List Constant) (p : Pool) :
    (cs.foldl append p).size = p.size + (cs.map Constant.width).sum := by
  induction cs generalizing p with
  | nil => simp
  | cons c cs ih => rw [foldl_cons, ih, size_append, map_cons, sum_cons, add_assoc]

/-- The slot after those of the constants. -/
def nextSlot (cs : List Constant) : Nat := 1 + (cs.map Constant.width).sum

theorem size_made (cs : List Constant) : (cs.foldl append empty).size = nextSlot cs := size_foldl_append cs empty

/-- The bytes of the constants, one after the other. -/
def constantBytes (p : Pool) : List UInt8 := p.slots.toList.flatMap fun slot => slot.elim [] Constant.bytes

theorem bytes_eq (p : Pool) : p.bytes = count16 p.size ++ p.constantBytes := rfl

theorem constantBytes_made (cs : List Constant) :
    (cs.foldl append empty).constantBytes = cs.flatMap Constant.bytes := by
  have hfilled : ∀ c, (filled c).flatMap (fun slot => slot.elim [] Constant.bytes) = c.bytes := by
    intro c
    unfold filled
    split <;> simp
  rw [constantBytes, slots_foldl_append, flatMap_append, flatMap_assoc]
  simp only [hfilled]
  rfl

/-- The bytes of a pool are its size and the bytes of the constants that were added. -/
theorem bytes_foldl_append (cs : List Constant) :
    (cs.foldl append empty).bytes = count16 (nextSlot cs) ++ cs.flatMap Constant.bytes := by
  rw [bytes_eq, size_made, constantBytes_made]

/-! ### The slot counter -/

@[simp] theorem nextSlot_snoc (cs : List Constant) (c : Constant) : nextSlot (cs ++ [c]) = nextSlot cs + c.width := by
  simp [nextSlot, add_assoc]

/-- The constants that have been read from `s`, and what is left of it, at some point of a loop that counts slots up
from 1 and goes on while the count is below `count`. -/
inductive Filling (count : Nat) (s : List UInt8) : List Constant → List UInt8 → Prop
  | none : Filling count s [] s
  | more {cs : List Constant} {c : Constant} {rest rest' : List UInt8} (before : Filling count s cs rest)
      (below : nextSlot cs < count) (read : Constant.read rest = .ok (c, rest')) : Filling count s (cs ++ [c]) rest'

/-- One constant more, and the counter goes on by its width. -/
theorem readSlots_of_read {left : Nat} (hleft : 0 < left) (hsize : p.size + left ≤ 65535)
    (h : Constant.read s = .ok (c, rest)) :
    readSlots left p s =
      if 65535 < p.size + c.width then .error .slotOverflow else readSlots (left - c.width) (p.append c) rest := by
  obtain ⟨left, rfl⟩ : ∃ fewer, left = fewer + 1 := ⟨left - 1, by omega⟩
  simp only [readSlots, h]
  obtain ⟨hwide, hwidth⟩ | ⟨hnarrow, hwidth⟩ := c.width_cases
  · rw [hwide, hwidth]
    cases left with
    | zero =>
      by_cases hlast : p.size = 65534
      · simp [hlast]
      · simp only [if_neg hlast, if_neg (show ¬ 65535 < p.size + 2 by omega)]
        rfl
    | succ left =>
      rw [if_neg (show ¬ 65535 < p.size + 2 by omega)]
      rfl
  · rw [hnarrow, hwidth, if_neg Bool.false_ne_true, if_neg (by omega)]
    rfl

theorem length_lt_nextSlot (cs : List Constant) : cs.length < nextSlot cs := by
  induction cs using reverseRecOn with
  | nil => exact Nat.one_pos
  | append_singleton cs c =>
    have hpos := c.width_pos
    rw [nextSlot_snoc, length_append, length_singleton]
    omega

/-- The slot holds a constant that takes two slots. -/
def WideAt (p : Pool) (i : Nat) : Prop := ∃ c : Constant, p.slots[i]? = some (some c) ∧ c.isWide = true

/-- The first of the new slots is wide if the constant is. -/
theorem wideAt_append_size (p : Pool) (c : Constant) : (p.append c).WideAt p.size ↔ c.isWide = true := by
  constructor
  · rintro ⟨d, hd, hwide⟩
    rwa [(eq_of_slots_append le_rfl hd).2] at hwide
  · exact fun hwide => ⟨c, slots_append_size p c, hwide⟩

/-- A constant that is added is followed by all the slots that it takes. -/
theorem not_wideAt_last (p : Pool) (c : Constant) : ¬ (p.append c).WideAt ((p.append c).size - 1) := by
  have hsize := size_append p c
  intro hwide
  cases hc : c.isWide with
  | true =>
    rw [width, if_pos hc] at hsize
    obtain ⟨d, hd, -⟩ := hwide
    have := (eq_of_slots_append (by omega) hd).1
    omega
  | false =>
    rw [width, hc, if_neg Bool.false_ne_true] at hsize
    rw [hsize, Nat.add_sub_cancel, wideAt_append_size, hc] at hwide
    cases hwide

namespace Filling

variable {count : Nat} {cs : List Constant}

/-- Constants that fit are read one by one up to the last, if their slots are declared. -/
theorem of_fits (hcs : ∀ c ∈ cs, c.Fits) (hslots : nextSlot cs ≤ count) (rest : List UInt8) :
    Filling count (cs.flatMap Constant.bytes ++ rest) cs rest := by
  induction cs using reverseRecOn generalizing rest with
  | nil => exact .none
  | append_singleton cs c ih =>
    have hpos := c.width_pos
    rw [nextSlot_snoc] at hslots
    obtain ⟨hcs, hc⟩ := forall_mem_append.mp hcs
    have hbefore := ih hcs (by omega) (c.bytes ++ rest)
    rw [flatMap_append, flatMap_singleton, append_assoc]
    exact hbefore.more (by omega) (read_bytes (hc c mem_cons_self) rest)

section

variable (h : Filling count s cs rest)

include h

theorem fits : ∀ c ∈ cs, c.Fits := by
  induction h with
  | none => simp
  | more _ _ hread ih => exact forall_mem_append.mpr ⟨ih, forall_mem_singleton.mpr (of_read hread).1⟩

theorem bytes_eq : s = cs.flatMap Constant.bytes ++ rest := by
  induction h with
  | none => rfl
  | more _ _ hread ih =>
    rw [flatMap_append, flatMap_singleton, append_assoc, ← (of_read hread).2]
    exact ih

/-- Fewer constants are read than slots are declared, and the counter passes their number by one at most. -/
theorem bounds : cs.length ≤ count - 1 ∧ nextSlot cs ≤ count + 1 := by
  cases h with
  | none => exact ⟨Nat.zero_le _, Nat.succ_le_succ (Nat.zero_le _)⟩
  | @more cs c =>
    have hlength := length_lt_nextSlot cs
    have hwidth := c.width_cases
    rw [length_append, length_singleton, nextSlot_snoc]
    omega

section

variable (hcount : count ≤ 65535)

include hcount

/-- The counter leaves the slot numbers exactly if the largest number is declared and the last constant is a wide
one in the slot before. -/
theorem past_iff :
    65535 < nextSlot cs ↔
      count = 65535 ∧
        ∃ (ds : List Constant) (c : Constant), cs = ds ++ [c] ∧ nextSlot ds = 65534 ∧ c.isWide = true := by
  constructor
  · intro hpast
    cases h with
    | none => simp [nextSlot] at hpast
    | @more ds c =>
      rw [nextSlot_snoc] at hpast
      obtain ⟨hwide, hwidth⟩ | ⟨-, hwidth⟩ := c.width_cases
      · exact ⟨by omega, ds, c, rfl, by omega, hwide⟩
      · omega
  · rintro ⟨-, ds, c, rfl, hds, hwide⟩
    rw [nextSlot_snoc, hds, width, if_pos hwide]
    decide

/-- As long as the counter is a slot number, the pool is read on from there. -/
theorem readSlots_eq (hslot : nextSlot cs ≤ 65535) :
    readSlots (count - 1) empty s = readSlots (count - nextSlot cs) (cs.foldl append empty) rest := by
  induction h with
  | none => rfl
  | @more cs c _ _ _ _ hread ih =>
    rw [nextSlot_snoc] at hslot
    rw [ih (by omega), readSlots_of_read (by omega) (by rw [size_made]; omega) hread, size_made, if_neg (by omega),
      nextSlot_snoc, Nat.sub_sub, foldl_append]
    rfl

theorem readSlots_eq_ok (hdone : count ≤ nextSlot cs) (hslot : nextSlot cs ≤ 65535) :
    readSlots (count - 1) empty s = .ok (cs.foldl append empty, rest) := by
  rw [h.readSlots_eq hcount hslot, Nat.sub_eq_zero_of_le hdone]
  rfl

theorem readSlots_eq_overflow (hslot : 65535 < nextSlot cs) : readSlots (count - 1) empty s = .error .slotOverflow := by
  cases h with
  | none => simp [nextSlot] at hslot
  | more before _ hread =>
    rw [nextSlot_snoc] at hslot
    rw [before.readSlots_eq hcount (by omega), readSlots_of_read (by omega) (by rw [size_made]; omega) hread, size_made,
      if_pos hslot]

/-- The counter reaches the declared number, unless something is met that is no constant. -/
theorem exists_end :
    (∃ ds rest', Filling count s ds rest' ∧ count ≤ nextSlot ds) ∨
      ∃ e, e.isOverflow = false ∧ readSlots (count - 1) empty s = .error e := by
  -- the slots that are left grow fewer with every constant
  induction hleft : count - nextSlot cs using Nat.strongRecOn generalizing cs rest with
  | _ _ ih =>
    by_cases hdone : count ≤ nextSlot cs
    · exact .inl ⟨cs, rest, h, hdone⟩
    · cases hread : Constant.read rest with
      | error e =>
        obtain ⟨fewer, hfewer⟩ : ∃ fewer, count - nextSlot cs = fewer + 1 := ⟨count - nextSlot cs - 1, by omega⟩
        refine .inr ⟨e, overflowFree_read _ _ hread, ?_⟩
        rw [h.readSlots_eq hcount (by omega), hfewer, readSlots]
        simp [hread]
      | ok r =>
        have hpos := r.1.width_pos
        exact ih _ (by rw [nextSlot_snoc]; omega) (h.more (by omega) hread) rfl

end

/-- There is one slot more than declared exactly if a wide constant is in the last of them. -/
theorem size_eq (hdone : count ≤ nextSlot cs) :
    ((cs.foldl append empty).WideAt (count - 1) → (cs.foldl append empty).size = count + 1) ∧
      (¬ (cs.foldl append empty).WideAt (count - 1) → (cs.foldl append empty).size = max count 1) := by
  cases h with
  | none =>
    have hcount : count ≤ 1 := hdone
    rw [foldl_nil, show count - 1 = 0 by omega, size_empty]
    refine ⟨?_, fun _ => by omega⟩
    rintro ⟨c, hc, -⟩
    cases hc
  | @more cs c =>
    have hsize := size_made (cs ++ [c])
    have hbefore := size_made cs
    have hlast := not_wideAt_last (cs.foldl append empty) c
    have hfirst := wideAt_append_size (cs.foldl append empty) c
    rw [nextSlot_snoc] at hdone hsize
    rw [foldl_append, foldl_cons, foldl_nil] at hsize ⊢
    obtain ⟨hwide, hwidth⟩ | ⟨-, hwidth⟩ := c.width_cases
    · by_cases hend : count = nextSlot cs + 1
      · rw [hend, Nat.add_sub_cancel, ← hbefore, hfirst]
        exact ⟨fun _ => by omega, fun hnarrow => absurd hwide hnarrow⟩
      · rw [show count = nextSlot cs + c.width by omega, ← hsize]
        exact ⟨fun hwide => absurd hwide hlast, fun _ => by omega⟩
    · rw [show count = nextSlot cs + c.width by omega, ← hsize]
      exact ⟨fun hwide => absurd hwide hlast, fun _ => by omega⟩

end

end Filling

/-- A pool is read if the counter reaches the declared number of slots and is a slot number then. -/
theorem readSlots_eq_ok_iff (hcount : count ≤ 65535) :
    readSlots (count - 1) empty s = .ok (p, rest) ↔
      ∃ cs, Filling count s cs rest ∧ count ≤ nextSlot cs ∧ nextSlot cs ≤ 65535 ∧ p = cs.foldl append empty := by
  constructor
  · intro h
    obtain ⟨cs, _, hcs, hdone⟩ | ⟨e, -, he⟩ := Filling.none.exists_end hcount
    · by_cases hslot : nextSlot cs ≤ 65535
      · rw [hcs.readSlots_eq_ok hcount hdone hslot] at h
        cases h
        exact ⟨cs, hcs, hdone, hslot, rfl⟩
      · rw [hcs.readSlots_eq_overflow hcount (by omega)] at h
        cases h
    · rw [he] at h
      cases h
  · rintro ⟨cs, hcs, hdone, hslot, rfl⟩
    exact hcs.readSlots_eq_ok hcount hdone hslot

theorem readSlots_eq_overflow_iff (hcount : count ≤ 65535) :
    readSlots (count - 1) empty s = .error .slotOverflow ↔
      ∃ cs rest, Filling count s cs rest ∧ 65535 < nextSlot cs := by
  constructor
  · intro h
    obtain ⟨cs, rest, hcs, hdone⟩ | ⟨e, hcalm, he⟩ := Filling.none.exists_end hcount
    · by_cases hslot : nextSlot cs ≤ 65535
      · rw [hcs.readSlots_eq_ok hcount hdone hslot] at h
        cases h
      · exact ⟨cs, rest, hcs, by omega⟩
    · rw [he] at h
      cases h
      cases hcalm
  · rintro ⟨cs, rest, hcs, hslot⟩
    exact hcs.readSlots_eq_overflow hcount hslot

/-- The pool is made of constants that fit, and they have slot numbers. -/
structure Fits (p : Pool) : Prop where
  made : ∃ cs : List Constant, p = cs.foldl append empty ∧ ∀ c ∈ cs, c.Fits
  size_le : p.size ≤ 65535

theorem read_bytes (h : p.Fits) (rest : List UInt8) : read (p.bytes ++ rest) = .ok (p, rest) := by
  obtain ⟨⟨_, rfl, hcs⟩, hsize⟩ := h
  rw [size_made] at hsize
  have hread := (Filling.of_fits hcs le_rfl rest).readSlots_eq_ok hsize le_rfl hsize
  rw [bytes_foldl_append, append_assoc]
  simp only [read, count16, bind, StateT.bind, Except.bind, u16_be16]
  rwa [toNat_ofNat16 hsize]

theorem fits_of_read (h : read s = .ok (p, rest)) : p.Fits := by
  obtain ⟨⟨count, s⟩, -, h⟩ := bind_eq_ok.mp h
  have hcount := count.toNat_lt
  obtain ⟨cs, hcs, -, hslot, rfl⟩ := (readSlots_eq_ok_iff (by omega)).mp h
  exact ⟨⟨cs, rfl, hcs.fits⟩, by rwa [size_made]⟩

/-- A pool is read from a count and from the bytes of its constants. The count is the true one unless it is
zero or ends within a wide constant. -/
theorem of_read (h : read s = .ok (p, rest)) :
    ∃ count : UInt16, s = be16 count ++ (p.constantBytes ++ rest) ∧
      (count.toNat = p.size ↔ count.toNat ≠ 0 ∧ ¬ p.WideAt (count.toNat - 1)) := by
  obtain ⟨⟨count, _⟩, hcount, h⟩ := bind_eq_ok.mp h
  have hlt := count.toNat_lt
  obtain ⟨cs, hcs, hdone, -, rfl⟩ := (readSlots_eq_ok_iff (by omega)).mp h
  have hsize := hcs.size_eq hdone
  refine ⟨count, by rw [exact_u16 _ _ _ hcount, constantBytes_made, ← hcs.bytes_eq], ?_⟩
  by_cases hwide : (cs.foldl append empty).WideAt (count.toNat - 1)
  · simp only [hsize.1 hwide, hwide, not_true_eq_false, and_false, iff_false]
    omega
  · simp only [hsize.2 hwide, hwide, not_false_eq_true, and_true]
    omega

theorem Sound.foldl_append {cs : List Constant} (hp : p.Sound) (hsize : (cs.foldl Pool.append p).size ≤ 65535) :
    (cs.foldl Pool.append p).Sound := by
  induction cs generalizing p with
  | nil => exact hp
  | cons c cs ih =>
    have hgrown := size_foldl_append (c :: cs) p
    exact ih (hp.append (by omega)) hsize

/-- A pool that was read is sound. -/
theorem Fits.sound (h : p.Fits) : p.Sound := by
  obtain ⟨⟨_, rfl, -⟩, hsize⟩ := h
  exact sound_empty.foldl_append hsize

/-! ### Declared slots and slots there are -/

theorem read_eq {data : List UInt8} {count : UInt16} (h : u16 data = .ok (count, s)) :
    read data = readSlots (count.toNat - 1) empty s := by
  simp [read, bind, StateT.bind, Except.bind, h]

/-- Without a number of slots there is no counter. While a pool is read, fewer constants are met than slots are
declared, and the counter stays a slot number unless 65535 slots are declared and a wide constant is met in the last of
them, which is number 65534. Reading overflows exactly then. A pool that is read has the declared slots, and one more
exactly if the last of them holds a wide constant; slot 0 is there even if none is declared. -/
theorem read_slots (data : List UInt8) :
    (∀ e, u16 data = .error e → read data = .error e ∧ e.isOverflow = false) ∧
    ∀ count s, u16 data = .ok (count, s) →
      (∀ cs rest, Filling count.toNat s cs rest → cs.length ≤ count.toNat - 1 ∧
        (65535 < nextSlot cs ↔ count = 65535 ∧
          ∃ (ds : List Constant) (c : Constant), cs = ds ++ [c] ∧ nextSlot ds = 65534 ∧ c.isWide = true)) ∧
      (read data = .error .slotOverflow ↔ ∃ cs rest, Filling count.toNat s cs rest ∧ 65535 < nextSlot cs) ∧
      (∀ p rest, read data = .ok (p, rest) ↔ ∃ cs, Filling count.toNat s cs rest ∧ count.toNat ≤ nextSlot cs ∧
        nextSlot cs ≤ 65535 ∧ p = cs.foldl append empty) ∧
      ∀ p rest, read data = .ok (p, rest) → p.size ≤ 65535 ∧
        (p.WideAt (count.toNat - 1) → p.size = count.toNat + 1) ∧
        (¬ p.WideAt (count.toNat - 1) → p.size = max count.toNat 1) := by
  refine ⟨fun e he => ⟨?_, overflowFree_u16 _ _ he⟩, fun count s h => ?_⟩
  · simp [read, bind, StateT.bind, Except.bind, he]
  have hcount : count.toNat ≤ 65535 := Nat.le_of_lt_succ count.toNat_lt
  rw [read_eq h]
  refine ⟨fun cs rest hcs => ⟨hcs.bounds.1, ?_⟩, readSlots_eq_overflow_iff hcount,
    fun p rest => readSlots_eq_ok_iff hcount, fun p rest hread => ?_⟩
  · rw [hcs.past_iff hcount, ← UInt16.toNat_inj]
    rfl
  · obtain ⟨cs, hcs, hdone, hslot, rfl⟩ := (readSlots_eq_ok_iff hcount).mp hread
    exact ⟨by rwa [size_made], hcs.size_eq hdone⟩

/-- Two slots are declared for a long in slot 1, and there are three. -/
theorem read_slots_long :
    u16 (be16 2 ++ (Constant.long 7).bytes) = .ok (2, (Constant.long 7).bytes) ∧
      ∃ p, read (be16 2 ++ (Constant.long 7).bytes) = .ok (p, []) ∧ p.WideAt 1 ∧ p.size = 3 := by
  have hcount := u16_be16 2 (long 7).bytes
  obtain ⟨-, -, hread, hsize⟩ := (read_slots _).2 _ _ hcount
  have hlong : Filling 2 (long 7).bytes [.long 7] [] :=
    Filling.none.more (by decide) (Constant.read_bytes (c := .long 7) trivial [])
  have hpool := (hread _ _).mpr ⟨_, hlong, by decide, by decide, rfl⟩
  have hwide : ([long 7].foldl append empty).WideAt 1 := ⟨.long 7, rfl, rfl⟩
  exact ⟨hcount, _, hpool, hwide, (hsize _ _ hpool).2.1 hwide⟩

/-- So many empty texts, and a long. -/
def crowd (n : Nat) : List Constant := List.replicate n (.utf8 []) ++ [.long 0]

theorem nextSlot_texts (n : Nat) : nextSlot (List.replicate n (.utf8 [])) = 1 + n := by
  simp [nextSlot, width, isWide]

theorem filling_crowd (n : Nat) : Filling (n + 2) ((crowd n).flatMap Constant.bytes) (crowd n) [] := by
  have htexts : ∀ c ∈ replicate n (Constant.utf8 []), c.Fits := by
    intro c hc
    rw [eq_of_mem_replicate hc]
    exact Nat.zero_le _
  have hslot := nextSlot_texts n
  have hbefore : Filling (n + 2) _ _ _ := .of_fits htexts (by omega) (long 0).bytes
  rw [crowd, flatMap_append]
  exact hbefore.more (by omega) (Constant.read_bytes (c := .long 0) trivial [])

/-- After 65533 texts, a long in slot 65534 takes the counter past the slot numbers. -/
theorem read_crowd :
    Filling 65535 ((crowd 65533).flatMap Constant.bytes) (crowd 65533) [] ∧ nextSlot (crowd 65533) = 65536 ∧
      read (be16 65535 ++ (crowd 65533).flatMap Constant.bytes) = .error .slotOverflow := by
  have hcrowd := filling_crowd 65533
  have hslot : nextSlot (crowd 65533) = 65536 := by
    rw [crowd, nextSlot_snoc, nextSlot_texts]
    rfl
  refine ⟨hcrowd, hslot, ?_⟩
  rw [read_eq (u16_be16 65535 _)]
  exact hcrowd.readSlots_eq_overflow le_rfl (by omega)

end Pool

end Untangle
