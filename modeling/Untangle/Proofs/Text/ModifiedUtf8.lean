import Mathlib.Data.Nat.Bitwise
import Untangle.Proofs.Bytes

/-!
# Text comes back from its bytes

A text is read back from its modified UTF-8 unit by unit, and a string from its units character by
character: no character of a string is a surrogate, so none of its units is paired with a wrong one.
Units in which no surrogate stands alone are those of a string.
-/

namespace Untangle

open List

variable {b c : UInt8} {u : UInt16}

namespace ModifiedUtf8

/-! ### Units -/

/-- The bits of a byte that starts a form of two, that starts a form of three, or that trails. -/
theorem read_bits : ∀ b : UInt8,
    (b &&& 0xE0 = 0xC0 → b.toNat = 192 + (b &&& 0x1F).toNat ∧ (b &&& 0x1F).toNat < 32 ∧ b &&& 0x80 ≠ 0) ∧
    (b &&& 0xF0 = 0xE0 → b.toNat = 224 + (b &&& 0x0F).toNat ∧ (b &&& 0x0F).toNat < 16 ∧ b &&& 0x80 ≠ 0 ∧
      b &&& 0xE0 ≠ 0xC0) ∧
    (isTrailing b = true → b.toNat = 128 + (b &&& 0x3F).toNat ∧ (b &&& 0x3F).toNat < 64) :=
  forall_byte (by decide +kernel)

/-- The bits of such bytes as they are written, and those of a byte that stands alone. -/
theorem written_bits : ∀ x : UInt8,
    (x.toNat < 32 → (x ||| 0xC0) &&& 0xE0 = 0xC0 ∧ (x ||| 0xC0).toNat = 192 + x.toNat) ∧
    (x.toNat < 16 → (x ||| 0xE0) &&& 0xF0 = 0xE0 ∧ (x ||| 0xE0).toNat = 224 + x.toNat) ∧
    (x.toNat < 64 → isTrailing (x ||| 0x80) = true ∧ (x ||| 0x80).toNat = 128 + x.toNat) ∧
    (x.toNat < 128 → x &&& 0x80 = 0) :=
  forall_byte (by decide +kernel)

/-- Six bits in front of six others. -/
theorem shiftLeft_or {a b k : Nat} (h : b < 2 ^ k) : a <<< k ||| b = a * 2 ^ k + b := by
  rw [← Nat.shiftLeft_add_eq_or_of_lt h, Nat.shiftLeft_eq]

theorem toNat_join2 (hb : b &&& 0xE0 = 0xC0) (hc : isTrailing c = true) :
    (join2 b c).toNat = (b.toNat - 192) * 64 + (c.toNat - 128) := by
  obtain ⟨hb, hb', -⟩ := (read_bits b).1 hb
  obtain ⟨hc, hc'⟩ := (read_bits c).2.2 hc
  rw [join2, UInt16.toNat_or, UInt16.toNat_shiftLeft, UInt8.toNat_toUInt16, UInt8.toNat_toUInt16]
  simp only [UInt16.reduceToNat, Nat.reduceMod]
  rw [Nat.mod_eq_of_lt (by rw [Nat.shiftLeft_eq]; omega), shiftLeft_or (show _ < 2 ^ 6 by omega)]
  omega

theorem toNat_join3 {d : UInt8} (hb : b &&& 0xF0 = 0xE0) (hc : isTrailing c = true) (hd : isTrailing d = true) :
    (join3 b c d).toNat = (b.toNat - 224) * 4096 + (c.toNat - 128) * 64 + (d.toNat - 128) := by
  obtain ⟨hb, hb', -⟩ := (read_bits b).2.1 hb
  obtain ⟨hc, hc'⟩ := (read_bits c).2.2 hc
  obtain ⟨hd, hd'⟩ := (read_bits d).2.2 hd
  rw [join3, UInt16.toNat_or, UInt16.toNat_or, UInt16.toNat_shiftLeft, UInt16.toNat_shiftLeft, UInt8.toNat_toUInt16,
    UInt8.toNat_toUInt16, UInt8.toNat_toUInt16]
  simp only [UInt16.reduceToNat, Nat.reduceMod]
  rw [Nat.mod_eq_of_lt (by rw [Nat.shiftLeft_eq]; omega), Nat.mod_eq_of_lt (by rw [Nat.shiftLeft_eq]; omega),
    Nat.or_assoc, shiftLeft_or (show _ < 2 ^ 6 by omega), shiftLeft_or (show _ < 2 ^ 12 by omega)]
  omega

theorem toNat_low (u : UInt16) : (u &&& 0x3F).toUInt8.toNat = u.toNat % 64 := by
  have hlow : u.toNat &&& 63 = u.toNat % 64 := Nat.and_two_pow_sub_one_eq_mod u.toNat 6
  rw [UInt16.toNat_toUInt8, UInt16.toNat_and]
  simp only [UInt16.reduceToNat]
  omega

theorem toNat_shiftRight (u : UInt16) : (u >>> 6).toNat = u.toNat / 64 ∧ (u >>> 12).toNat = u.toNat / 4096 := by
  simp [Nat.shiftRight_eq_div_pow]

/-! ### Forms -/

/-- A byte string that is read as one unit. -/
inductive Form : UInt16 → List UInt8 → Prop where
  /-- `0xxxxxxx`. -/
  | one {b : UInt8} : b &&& 0x80 = 0 → Form b.toUInt16 [b]
  /-- `110xxxxx 10xxxxxx`. -/
  | two {b c : UInt8} : b &&& 0xE0 = 0xC0 → isTrailing c → Form (join2 b c) [b, c]
  /-- `1110xxxx 10xxxxxx 10xxxxxx`. -/
  | three {b c d : UInt8} : b &&& 0xF0 = 0xE0 → isTrailing c → isTrailing d → Form (join3 b c d) [b, c, d]

/-- A form is read as its unit. -/
theorem Form.scan_append {form : List UInt8} (h : Form u form) (offset : Nat) (done : List UInt16) (rest : List UInt8) :
    scan offset done (form ++ rest) = scan (offset + form.length) (u :: done) rest := by
  cases h with
  | one hb =>
    rw [scan.eq_def]
    simp [hb]
  | @two b c hb hc =>
    simp [scan, ((read_bits b).1 hb).2.2, hb, hc]
  | @three b c d hb hc hd =>
    obtain ⟨-, -, hone, htwo⟩ := (read_bits b).2.1 hb
    simp [scan, hone, htwo, hb, hc, hd]

/-- What a unit is written with is a form of it. -/
theorem form_encodeUnit (u : UInt16) : Form u (encodeUnit u) := by
  obtain ⟨hsix, htwelve⟩ := toNat_shiftRight u
  have hu := u.toNat_lt
  obtain ⟨hlow, hlow'⟩ := (written_bits (u &&& 0x3F).toUInt8).2.2.1 (by rw [toNat_low]; omega)
  unfold encodeUnit
  split
  · rename_i h
    have hu : u.toNat ≤ 0x7f := h.2
    have hbyte : u.toUInt8.toNat = u.toNat := by
      rw [UInt16.toNat_toUInt8]
      omega
    have hform := Form.one ((written_bits u.toUInt8).2.2.2 (by omega))
    rwa [show u.toUInt8.toUInt16 = u from UInt16.toNat_inj.mp (by rw [UInt8.toNat_toUInt16, hbyte])] at hform
  · split
    · rename_i h
      have hu : u.toNat ≤ 0x7ff := h
      have hhigh : (u >>> 6).toUInt8.toNat = u.toNat / 64 := by
        rw [UInt16.toNat_toUInt8]
        omega
      obtain ⟨hlead, hlead'⟩ := (written_bits (u >>> 6).toUInt8).1 (by omega)
      have hback := toNat_join2 hlead hlow
      rw [hlow', toNat_low] at hback
      have hform := Form.two hlead hlow
      rwa [show join2 _ _ = u from UInt16.toNat_inj.mp (by omega)] at hform
    · have hhigh : (u >>> 12).toUInt8.toNat = u.toNat / 4096 := by
        rw [UInt16.toNat_toUInt8]
        omega
      have hmid := toNat_low (u >>> 6)
      obtain ⟨hlead, hlead'⟩ := (written_bits (u >>> 12).toUInt8).2.1 (by omega)
      obtain ⟨hnext, hnext'⟩ := (written_bits (u >>> 6 &&& 0x3F).toUInt8).2.2.1 (by omega)
      have hback := toNat_join3 hlead hnext hlow
      rw [hnext', hlow', hmid, toNat_low] at hback
      have hform := Form.three hlead hnext hlow
      rwa [show join3 _ _ _ = u from UInt16.toNat_inj.mp (by omega)] at hform

theorem scan_flatMap_encodeUnit (us : List UInt16) (offset : Nat) (done : List UInt16) :
    scan offset done (us.flatMap encodeUnit) = .ok (done.reverse ++ us) := by
  induction us generalizing offset done with
  | nil => simp [scan]
  | cons u us ih =>
    rw [flatMap_cons, (form_encodeUnit u).scan_append, ih]
    simp

/-- A text is read back from its bytes. -/
@[simp] theorem decode_encode (s : Utf16) : decode (encode s) = .ok s := by
  rw [decode, encode, scan_flatMap_encodeUnit]
  rfl

end ModifiedUtf8

/-! ### Characters -/

namespace Utf16

/-- A character is no surrogate. -/
theorem toNat_not_surrogate (c : Char) : c.toNat < 0xD800 ∨ 0xDFFF < c.toNat ∧ c.toNat < 0x110000 := by
  have hv := c.valid
  rcases hv with hv | hv
  · exact .inl hv
  · exact .inr hv

theorem isHigh_iff : isHigh u = true ↔ 0xD800 ≤ u.toNat ∧ u.toNat < 0xDC00 := by
  simp [isHigh, UInt16.le_iff_toNat_le, UInt16.lt_iff_toNat_lt]

theorem isLow_iff : isLow u = true ↔ 0xDC00 ≤ u.toNat ∧ u.toNat < 0xE000 := by
  simp [isLow, UInt16.le_iff_toNat_le, UInt16.lt_iff_toNat_lt]

theorem not_surrogate_iff : (isHigh u || isLow u) = false ↔ u.toNat < 0xD800 ∨ 0xE000 ≤ u.toNat := by
  rw [Bool.or_eq_false_iff, ← Bool.not_eq_true, ← Bool.not_eq_true, isHigh_iff, isLow_iff]
  omega

theorem scan_ofChar (c : Char) (done : List (Option Char)) (rest : List UInt16) :
    scan done (ofChar c ++ rest) = scan (some c :: done) rest := by
  have hc := toNat_not_surrogate c
  unfold ofChar
  split
  · have hn : (c.toNat.toUInt16).toNat = c.toNat := by
      rw [UInt16.toNat_ofNat']
      omega
    have hsurrogate := not_surrogate_iff.mpr (show c.toNat.toUInt16.toNat < 0xD800 ∨ 0xE000 ≤ _ by omega)
    have hback : Char.ofNat (c.toNat.toUInt16).toNat = c := by
      rw [hn]
      exact Char.ofNat_toNat c
    rw [singleton_append]
    cases rest with
    | nil => simp only [scan, hsurrogate, Bool.false_eq_true, if_false, hback]
    | cons v rest =>
      obtain ⟨hhigh, hlow⟩ := Bool.or_eq_false_iff.mp hsurrogate
      rw [scan]
      simp only [hhigh, hlow, Bool.false_and, Bool.or_self, Bool.false_eq_true, if_false, hback]
  · have hhigh : ((0xD800 + (c.toNat - 0x10000) / 0x400).toUInt16).toNat =
        0xD800 + (c.toNat - 0x10000) / 0x400 := by
      rw [UInt16.toNat_ofNat']
      omega
    have hlow : ((0xDC00 + (c.toNat - 0x10000) % 0x400).toUInt16).toNat =
        0xDC00 + (c.toNat - 0x10000) % 0x400 := by
      rw [UInt16.toNat_ofNat']
      omega
    generalize (0xD800 + (c.toNat - 0x10000) / 0x400).toUInt16 = high at hhigh ⊢
    generalize (0xDC00 + (c.toNat - 0x10000) % 0x400).toUInt16 = low at hlow ⊢
    have hpair : (isHigh high && isLow low) = true := by
      rw [Bool.and_eq_true, isHigh_iff, isLow_iff]
      omega
    have hback : pair high low = c := by
      have hnat : 0x10000 + (high.toNat - 0xD800) * 0x400 + (low.toNat - 0xDC00) = c.toNat := by
        omega
      rw [pair, hnat]
      exact Char.ofNat_toNat c
    rw [cons_append, cons_append, nil_append, scan, if_pos hpair, hback]

theorem scan_flatMap_ofChar (cs : List Char) (done : List (Option Char)) :
    scan done (cs.flatMap ofChar) = done.reverse ++ cs.map some := by
  induction cs generalizing done with
  | nil => simp [scan]
  | cons c cs ih =>
    rw [flatMap_cons, scan_ofChar, ih]
    simp

/-- A string is read back from its units. -/
@[simp] theorem lossy_ofString (s : String) : (ofString s).lossy = s := by
  rw [lossy, chars, ofString, scan_flatMap_ofChar]
  simp

/-! ### Characters from units -/

theorem toNat_ofNat_char {n : Nat} (h : n < 0xD800 ∨ 0xDFFF < n ∧ n < 0x110000) : (Char.ofNat n).toNat = n := by
  have hv : n.isValidChar := h
  rw [Char.ofNat, dif_pos hv]
  rfl

/-- A unit that is no surrogate is the unit of its character. -/
theorem ofChar_ofNat (h : (isHigh u || isLow u) = false) : ofChar (Char.ofNat u.toNat) = [u] := by
  have hu := u.toNat_lt
  rw [not_surrogate_iff] at h
  have hback := toNat_ofNat_char (n := u.toNat) (by omega)
  rw [ofChar, if_pos (by omega), hback, Nat.toUInt16, UInt16.ofNat_toNat]

/-- A surrogate pair is the pair of its character. -/
theorem ofChar_pair {v : UInt16} (h : (isHigh u && isLow v) = true) : ofChar (pair u v) = [u, v] := by
  rw [Bool.and_eq_true, isHigh_iff, isLow_iff] at h
  have hback := toNat_ofNat_char
    (n := 0x10000 + (u.toNat - 0xD800) * 0x400 + (v.toNat - 0xDC00)) (by omega)
  have hhigh : 0xD800 + (0x10000 + (u.toNat - 0xD800) * 0x400 + (v.toNat - 0xDC00) - 0x10000) / 0x400 = u.toNat := by
    omega
  have hlow : 0xDC00 + (0x10000 + (u.toNat - 0xD800) * 0x400 + (v.toNat - 0xDC00) - 0x10000) % 0x400 = v.toNat := by
    omega
  rw [ofChar, pair, hback, if_neg (by omega), hhigh, hlow]
  simp

/-- The units are those of the characters, if none of these is missing. -/
def Spells (read : List (Option Char)) (us : List UInt16) : Prop :=
  ∀ cs : List Char, read = cs.map some → us = cs.flatMap ofChar

theorem spells_nil : Spells [] [] := by
  intro _ h
  rw [eq_comm, map_eq_nil_iff] at h
  rw [h]
  rfl

theorem spells_none (read : List (Option Char)) (us : List UInt16) : Spells (none :: read) us := by
  intro cs h
  cases cs <;> cases h

theorem Spells.cons {c : Char} {read : List (Option Char)} {us front : List UInt16} (h : Spells read us)
    (hc : ofChar c = front) : Spells (some c :: read) (front ++ us) := by
  intro cs hcs
  cases cs with
  | nil => cases hcs
  | cons d ds =>
    rw [map_cons, cons.injEq, Option.some.injEq] at hcs
    rw [flatMap_cons, ← hcs.1, hc, ← h ds hcs.2]

/-- Units among which no surrogate stands alone are those of the characters read from them. -/
theorem spells_scan (done : List (Option Char)) (us : List UInt16) :
    ∃ read, scan done us = done.reverse ++ read ∧ Spells read us := by
  fun_induction scan done us with
  | case1 done => exact ⟨[], by simp, spells_nil⟩
  | case2 done u =>
    by_cases hlone : (isHigh u || isLow u) = true
    · exact ⟨[none], by simp [hlone], spells_none _ _⟩
    · exact ⟨[some (Char.ofNat u.toNat)], by simp [hlone], spells_nil.cons (ofChar_ofNat (by simpa using hlone))⟩
  | case3 done u v rest hpair ih =>
    obtain ⟨read, hread, hspells⟩ := ih
    exact ⟨some (pair u v) :: read, by simp [hread], hspells.cons (ofChar_pair hpair)⟩
  | case4 done u v rest hpair hlone ih =>
    obtain ⟨read, hread, -⟩ := ih
    exact ⟨none :: read, by simp [hread], spells_none _ _⟩
  | case5 done u v rest hpair hlone ih =>
    obtain ⟨read, hread, hspells⟩ := ih
    exact ⟨some (Char.ofNat u.toNat) :: read, by simp [hread], hspells.cons (ofChar_ofNat (by simpa using hlone))⟩

/-- A text in which no character had to be replaced is the text of its characters. -/
theorem eq_ofString_of_lossy {t : Utf16} (h : '�' ∉ t.lossy.toList) : t = ofString t.lossy := by
  obtain ⟨read, hread, hspells⟩ := spells_scan [] t.units
  have hchars : t.chars = read := hread
  have hlossy : t.lossy.toList = read.map (·.getD '�') := by simp [lossy, hchars]
  have hall : read = t.lossy.toList.map some := by
    rw [hlossy, map_map]
    symm
    refine (map_congr_left fun o ho => ?_).trans (map_id read)
    cases o with
    | none =>
      refine absurd ?_ h
      rw [hlossy]
      exact mem_map.mpr ⟨none, ho, rfl⟩
    | some c => rfl
  have hunits := hspells _ hall
  exact congrArg mk hunits

end Utf16

end Untangle
