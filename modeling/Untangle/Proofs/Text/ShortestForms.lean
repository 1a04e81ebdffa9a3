import Untangle.Proofs.Text.ModifiedUtf8

/-!
# Which bytes writing gives back

A byte string that is read is a row of forms, one for each unit, and the first byte of a form says how long it
is; no byte inside of a form can be the first of another one. So a form is found in such a byte string only
where a unit is read from it.

Reading takes forms that writing never uses, and writing gives back exactly the byte strings without one.
-/

namespace Untangle.ModifiedUtf8

open List

variable {u v : UInt16} {other rest bytes : List UInt8} {done us : List UInt16}

/-! ### Rows of forms -/

/-- The forms that are read but never written: a zero byte, and a form that is longer than its unit needs. -/
inductive Lax : List UInt8 → Prop where
  | zero : Lax [0]
  | two {u : UInt16} {b c : UInt8} : Form u [b, c] → 1 ≤ u → u ≤ 0x7F → Lax [b, c]
  | three {u : UInt16} {b c d : UInt8} : Form u [b, c, d] → u < 0x800 → Lax [b, c, d]

/-- None of those forms stands anywhere in the bytes. -/
def Canonical (bytes : List UInt8) : Prop := ∀ form, Lax form → ¬ form <:+: bytes

/-- How many bytes a form has that starts with this one; none does if it is zero. -/
def width (b : UInt8) : Nat :=
  if b &&& 0x80 = 0 then 1
  else if b &&& 0xE0 = 0xC0 then 2
  else if b &&& 0xF0 = 0xE0 then 3
  else 0

theorem width_two (b : UInt8) (h : b &&& 0xE0 = 0xC0) : width b = 2 := by
  rw [width, if_neg ((read_bits b).1 h).2.2, if_pos h]

theorem width_three (b : UInt8) (h : b &&& 0xF0 = 0xE0) : width b = 3 := by
  obtain ⟨-, -, hone, htwo⟩ := (read_bits b).2.1 h
  rw [width, if_neg hone, if_neg htwo, if_pos h]

theorem width_trailing : ∀ b : UInt8, isTrailing b = true → width b = 0 := forall_byte (by decide +kernel)

theorem Form.ne_nil {form : List UInt8} (h : Form u form) : form ≠ [] := by
  cases h <;> exact cons_ne_nil _ _

/-- The first byte says how long a form is, and the others cannot be the first of one. -/
theorem Form.width_head {b : UInt8} {tail : List UInt8} (h : Form u (b :: tail)) :
    (b :: tail).length = width b ∧ ∀ c ∈ tail, width c = 0 := by
  cases h with
  | one hb => exact ⟨(if_pos hb).symm, by simp⟩
  | two hb hc => exact ⟨(width_two b hb).symm, by simpa using width_trailing _ hc⟩
  | three hb hc hd =>
    exact ⟨(width_three b hb).symm, by simpa using ⟨width_trailing _ hc, width_trailing _ hd⟩⟩

theorem Form.unit_unique {form : List UInt8} (hu : Form u form) (hv : Form v form) : u = v := by
  cases hu <;> cases hv <;> rfl

/-- No form is the beginning of another one. -/
theorem Form.eq_of_start {form : List UInt8} (hu : Form u form) (hv : Form v other) (h : other <+: form ++ rest) :
    other = form := by
  obtain ⟨b, tail, rfl⟩ := exists_cons_of_ne_nil hu.ne_nil
  obtain ⟨c, tail', rfl⟩ := exists_cons_of_ne_nil hv.ne_nil
  have hhead : c = b := (cons_prefix_cons.mp h).1
  subst hhead
  have hlength : (c :: tail').length = (c :: tail).length := hv.width_head.1.trans hu.width_head.1.symm
  exact (prefix_of_prefix_length_le h (prefix_append _ _) hlength.le).eq_of_length hlength

/-- A form that is found where bytes other than the first of a form stand in front is found after them. -/
theorem Form.found_after {front : List UInt8} (hv : Form v other) (hfront : ∀ c ∈ front, width c = 0)
    (h : other <:+: front ++ rest) : other <:+: rest := by
  induction front with
  | nil => exact h
  | cons c front ih =>
    rw [forall_mem_cons] at hfront
    rcases infix_cons_iff.mp h with hstart | hfound
    · obtain ⟨b, _, rfl⟩ := exists_cons_of_ne_nil hv.ne_nil
      have hhead : b = c := (cons_prefix_cons.mp hstart).1
      have hlength := hv.width_head.1
      rw [hhead, hfront.1] at hlength
      cases hlength
    · exact ih hfront.2 hfound

/-- A form that is found in a row of forms is the first one, or it is found among the others. -/
theorem Form.found_append_iff {form : List UInt8} (hu : Form u form) (hv : Form v other) :
    other <:+: form ++ rest ↔ other = form ∨ other <:+: rest := by
  constructor
  · intro h
    obtain ⟨b, _, rfl⟩ := exists_cons_of_ne_nil hu.ne_nil
    rcases infix_cons_iff.mp h with hstart | hfound
    · exact .inl (hu.eq_of_start hv hstart)
    · exact .inr (hv.found_after hu.width_head.2 hfound)
  · rintro (rfl | h)
    · exact (prefix_append _ _).isInfix
    · exact h.trans (suffix_append _ _).isInfix

theorem Lax.form {form : List UInt8} (h : Lax form) : ∃ u, Form u form := by
  cases h with
  | zero => exact ⟨0, .one (b := 0) (by decide)⟩
  | two h => exact ⟨_, h⟩
  | three h => exact ⟨_, h⟩

theorem canonical_nil : Canonical [] := by
  intro form hlax h
  obtain ⟨u, hform⟩ := hlax.form
  exact hform.ne_nil (infix_nil.mp h)

theorem Form.canonical_append_iff {form : List UInt8} (h : Form u form) :
    Canonical (form ++ rest) ↔ ¬ Lax form ∧ Canonical rest := by
  constructor
  · intro hcanonical
    refine ⟨fun hlax => hcanonical form hlax (prefix_append _ _).isInfix, fun other hlax hfound => ?_⟩
    exact hcanonical other hlax (hfound.trans (suffix_append _ _).isInfix)
  · rintro ⟨hstrict, hcanonical⟩ other hlax hfound
    obtain ⟨v, hother⟩ := hlax.form
    rcases (h.found_append_iff hother).mp hfound with rfl | hrest
    · exact hstrict hlax
    · exact hcanonical other hlax hrest

/-! ### What is written -/

/-- A unit has at most one form of each length. -/
theorem Form.eq_of_length {form : List UInt8} (hu : Form u form) (hv : Form v other) (hunit : u.toNat = v.toNat)
    (hlength : form.length = other.length) : form = other := by
  cases hu with
  | one hb =>
    cases hv with
    | one hb' =>
      rw [UInt8.toNat_toUInt16, UInt8.toNat_toUInt16, UInt8.toNat_inj] at hunit
      rw [hunit]
    | two => cases hlength
    | three => cases hlength
  | @two b c hb hc =>
    cases hv with
    | one => cases hlength
    | @two b' c' hb' hc' =>
      rw [toNat_join2 hb hc, toNat_join2 hb' hc'] at hunit
      have := (read_bits b).1 hb
      have := (read_bits b').1 hb'
      have := (read_bits c).2.2 hc
      have := (read_bits c').2.2 hc'
      simp only [cons.injEq, and_true, ← UInt8.toNat_inj]
      omega
    | three => cases hlength
  | @three b c d hb hc hd =>
    cases hv with
    | one => cases hlength
    | two => cases hlength
    | @three b' c' d' hb' hc' hd' =>
      rw [toNat_join3 hb hc hd, toNat_join3 hb' hc' hd'] at hunit
      have := (read_bits b).2.1 hb
      have := (read_bits b').2.1 hb'
      have := (read_bits c).2.2 hc
      have := (read_bits c').2.2 hc'
      have := (read_bits d).2.2 hd
      have := (read_bits d').2.2 hd'
      simp only [cons.injEq, and_true, ← UInt8.toNat_inj]
      omega

theorem length_encodeUnit (u : UInt16) :
    (encodeUnit u).length = if 1 ≤ u ∧ u ≤ 0x7F then 1 else if u < 0x800 then 2 else 3 := by
  have hstep : u ≤ 0x7FF ↔ u < 0x800 := by
    exact Nat.lt_succ_iff.symm
  simp only [encodeUnit, hstep]
  split
  · rfl
  · split <;> rfl

/-- A unit is written in none of the forms that are only read. -/
theorem not_lax_encodeUnit (u : UInt16) : ¬ Lax (encodeUnit u) := by
  intro hlax
  have hform := form_encodeUnit u
  have hlength := length_encodeUnit u
  generalize encodeUnit u = form at hform hlax hlength
  cases hlax with
  | zero =>
    obtain rfl := hform.unit_unique (.one (by decide))
    cases hlength
  | two hlong hlow hhigh =>
    obtain rfl := hform.unit_unique hlong
    rw [if_pos ⟨hlow, hhigh⟩] at hlength
    cases hlength
  | three hlong =>
    obtain rfl := hform.unit_unique hlong
    split at hlength <;> cases hlength

theorem unit_of_one : ∀ b : UInt8, b &&& 0x80 = 0 → b ≠ 0 → 1 ≤ b.toUInt16 ∧ b.toUInt16 ≤ 0x7F :=
  forall_byte (by decide +kernel)

/-- Every other form is as long as what its unit is written with. -/
theorem Form.length_of_not_lax {form : List UInt8} (h : Form u form) (hstrict : ¬ Lax form) :
    (encodeUnit u).length = form.length := by
  have hform := h
  rw [length_encodeUnit]
  cases h with
  | @one b hb =>
    have hzero : b ≠ 0 := fun hzero => hstrict (hzero ▸ .zero)
    rw [if_pos (unit_of_one b hb hzero)]
    rfl
  | @two b c hb hc =>
    have hsmall : join2 b c < 0x800 := by
      rw [UInt16.lt_iff_toNat_lt, toNat_join2 hb hc]
      have := (read_bits b).1 hb
      have := (read_bits c).2.2 hc
      simp only [UInt16.reduceToNat]
      omega
    rw [if_neg fun hlow => hstrict (.two hform hlow.1 hlow.2), if_pos hsmall]
    rfl
  | @three b c d hb hc =>
    have hlarge : ¬ join3 b c d < 0x800 := fun hsmall => hstrict (.three hform hsmall)
    have hlow : ¬ (1 ≤ join3 b c d ∧ join3 b c d ≤ 0x7F) := by
      rintro ⟨-, hlow⟩
      exact hlarge (UInt16.lt_of_le_of_lt hlow (by decide))
    rw [if_neg hlow, if_neg hlarge]
    rfl

theorem Form.encodeUnit_eq_iff {form : List UInt8} (h : Form u form) : encodeUnit u = form ↔ ¬ Lax form := by
  constructor
  · rintro rfl
    exact not_lax_encodeUnit u
  · intro hstrict
    exact (form_encodeUnit u).eq_of_length h rfl (h.length_of_not_lax hstrict)

/-! ### Whole texts -/

/-- A row of forms, one for each unit. -/
inductive Forms : List UInt16 → List UInt8 → Prop where
  | nil : Forms [] []
  | cons {u : UInt16} {us : List UInt16} {form rest : List UInt8} :
      Form u form → Forms us rest → Forms (u :: us) (form ++ rest)

theorem forms_of_rest {form : List UInt8} (h : Form u form)
    (hrest : ∃ read, us = (u :: done).reverse ++ read ∧ Forms read rest) :
    ∃ read, us = done.reverse ++ read ∧ Forms read (form ++ rest) := by
  obtain ⟨read, hus, hforms⟩ := hrest
  exact ⟨u :: read, by simp [hus], .cons h hforms⟩

/-- What is read is a row of forms. -/
theorem forms_of_scan {offset : Nat} (h : scan offset done bytes = .ok us) :
    ∃ read, us = done.reverse ++ read ∧ Forms read bytes := by
  fun_induction scan offset done bytes with
  | case1 =>
    cases h
    exact ⟨[], by simp, .nil⟩
  | case2 offset done b rest hb ih => exact forms_of_rest (.one (beq_iff_eq.mp hb)) (ih h)
  | case3 offset done b _ hb c rest hc ih => exact forms_of_rest (.two (beq_iff_eq.mp hb) hc) (ih h)
  | case6 offset done b _ _ hb c d rest htrailing ih =>
    rw [Bool.and_eq_true] at htrailing
    exact forms_of_rest (.three (beq_iff_eq.mp hb) htrailing.1 htrailing.2) (ih h)
  | _ => cases h

/-- A row of forms is written back if none of them is only read. -/
theorem Forms.flatMap_encodeUnit_eq_iff (h : Forms us bytes) : us.flatMap encodeUnit = bytes ↔ Canonical bytes := by
  induction h with
  | nil => simp [canonical_nil]
  | @cons u us form _ hform _ ih =>
    rw [hform.canonical_append_iff, ← hform.encodeUnit_eq_iff, ← ih, flatMap_cons]
    constructor
    · intro h
      have hsame : encodeUnit u = form := hform.eq_of_start (form_encodeUnit u) ⟨_, h⟩
      rw [hsame] at h
      exact ⟨hsame, append_cancel_left h⟩
    · rintro ⟨hsame, hrest⟩
      rw [hsame, hrest]

/-- Every text is read back from its bytes. The bytes that a text is read from are the ones that it is written
with exactly if there is no zero byte among them, no form of two bytes for a unit that fits in one, and no form of
three bytes for a unit that fits in two. -/
theorem encode_faithful :
    (∀ s : Utf16, decode (encode s) = .ok s) ∧
      ∀ (bytes : List UInt8) (s : Utf16), decode bytes = .ok s → (encode s = bytes ↔ Canonical bytes) := by
  refine ⟨decode_encode, fun bytes s h => ?_⟩
  obtain ⟨_, hscan, rfl⟩ := map_eq_ok.mp h
  obtain ⟨_, rfl, hforms⟩ := forms_of_scan hscan
  exact hforms.flatMap_encodeUnit_eq_iff

/-- A zero unit and a lone surrogate between letters are in their shortest forms; a letter in two bytes, a letter
in three and a zero byte are not. -/
theorem mixedText_faithful :
    (decode [0x61, 0xC0, 0x80, 0xC3, 0xA9, 0xED, 0xA0, 0xBD] = .ok ⟨[0x61, 0, 0xE9, 0xD83D]⟩ ∧
        Canonical [0x61, 0xC0, 0x80, 0xC3, 0xA9, 0xED, 0xA0, 0xBD]) ∧
      (decode [0xC1, 0xA1] = .ok ⟨[0x61]⟩ ∧ ¬ Canonical [0xC1, 0xA1]) ∧
      (decode [0xE0, 0x83, 0xA9] = .ok ⟨[0xE9]⟩ ∧ ¬ Canonical [0xE0, 0x83, 0xA9]) ∧
      decode [0x61, 0x00] = .ok ⟨[0x61, 0]⟩ ∧ ¬ Canonical [0x61, 0x00] := by
  refine ⟨⟨rfl, ?_⟩, ⟨rfl, ?_⟩, ⟨rfl, ?_⟩, rfl, ?_⟩
  · exact (encode_faithful.2 _ _ rfl).mp (by decide)
  · exact mt (encode_faithful.2 _ ⟨[0x61]⟩ rfl).mpr (by decide)
  · exact mt (encode_faithful.2 _ ⟨[0xE9]⟩ rfl).mpr (by decide)
  · exact mt (encode_faithful.2 _ ⟨[0x61, 0]⟩ rfl).mpr (by decide)

end Untangle.ModifiedUtf8
