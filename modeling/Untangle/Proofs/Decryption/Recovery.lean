import Untangle.Decryption.Recipe
import Untangle.Proofs.Text.ModifiedUtf8

/-!
# Recipes recover what was encrypted for them

A text that was encrypted in the way a recipe undoes comes back, and under the name of that recipe: the recipes
that are tried before it do not take arguments of these kinds at all.

The encryptions are said on their own: a unit is combined with all of the key and then cut off, and bytes are
combined with the digits of the key written out over and over.
-/

namespace Untangle

open List

variable {n : Nat} {us : List UInt16} {p : String}

/-! ### Encryptions -/

/-- The units of a text, each combined with a key and cut off to sixteen bits. -/
def maskUnits (key : Int32) (text : String) : Utf16 :=
  ⟨(Utf16.ofString text).units.map fun u => (u.toUInt32 ^^^ key.toUInt32).toUInt16⟩

/-- The units of a text, most significant byte first. -/
def bigEndian (text : String) : List UInt8 := (Utf16.ofString text).units.flatMap Bytes.be16

/-- A number in decimal digits, with a minus sign in front if it is negative. -/
def decimal (n : Int) : List UInt8 :=
  (if n < 0 then [0x2D] else []) ++ (Nat.toDigits 10 n.natAbs).map Char.toUInt8

/-- Bytes combined with a key that is written out as often as there are bytes. -/
def maskBytes (key bytes : List UInt8) : List UInt8 :=
  bytes.zipWith (· ^^^ ·) (List.replicate bytes.length key).flatten

namespace Recipe

variable {key : List UInt8}

/-! ### Keys -/

theorem xorUnits_maskUnits (key : Int32) (text : String) :
    xorUnits (maskUnits key text) key = (Utf16.ofString text).toString? := by
  have hcancel (u : UInt16) : (u.toUInt32 ^^^ key.toUInt32).toUInt16 ^^^ key.toUInt32.toUInt16 = u := by
    rw [UInt32.toUInt16_xor, UInt16.toUInt16_toUInt32, UInt16.xor_assoc, UInt16.xor_self, UInt16.xor_zero]
  rw [xorUnits, maskUnits, map_map]
  simp only [Function.comp_def, hcancel, map_id']

/-- A key that is written out often enough starts over when it ends. -/
theorem getElem?_repeated (hkey : key ≠ []) {i : Nat} (hi : i < n) :
    (List.replicate n key).flatten[i]? = key[i % key.length]? := by
  have hlength : 0 < key.length := length_pos_iff.mpr hkey
  induction n generalizing i with
  | zero => cases hi
  | succ n ih =>
    rw [replicate_succ, flatten_cons]
    by_cases hfirst : i < key.length
    · rw [getElem?_append_left hfirst, Nat.mod_eq_of_lt hfirst]
    · rw [getElem?_append_right (by omega), ih (by omega), ← Nat.mod_eq_sub_mod (by omega)]

theorem xorCyclic_eq_maskBytes (hkey : key ≠ []) (bytes : List UInt8) : xorCyclic key bytes = maskBytes key bytes := by
  have hlength : 0 < key.length := length_pos_iff.mpr hkey
  refine ext_getElem? fun i => ?_
  rw [xorCyclic, maskBytes, getElem?_zipWith]
  by_cases hi : i < bytes.length
  · rw [getElem?_repeated hkey hi]
    have := Nat.mod_lt i hlength
    simp [hi, this]
  · simp [hi]

/-- What is combined with the same bytes twice is as it was. -/
theorem zipWith_xor_twice (xs ys : List UInt8) (h : xs.length ≤ ys.length) :
    List.zipWith (· ^^^ ·) (List.zipWith (· ^^^ ·) xs ys) ys = xs := by
  induction xs generalizing ys with
  | nil => simp
  | cons x xs ih =>
    cases ys with
    | nil => cases h
    | cons y ys =>
      rw [zipWith_cons_cons, zipWith_cons_cons, ih ys (Nat.le_of_succ_le_succ h), UInt8.xor_assoc,
        UInt8.xor_self, UInt8.xor_zero]

theorem length_repeated (hkey : key ≠ []) (n : Nat) : n ≤ (List.replicate n key).flatten.length := by
  have hlength : 0 < key.length := length_pos_iff.mpr hkey
  induction n with
  | zero => exact Nat.zero_le _
  | succ n =>
    rw [replicate_succ, flatten_cons, length_append]
    omega

/-- A key that is used twice is undone. -/
theorem xorCyclic_maskBytes (hkey : key ≠ []) (bytes : List UInt8) : xorCyclic key (maskBytes key bytes) = bytes := by
  have hlong := length_repeated hkey bytes.length
  have hlength : (maskBytes key bytes).length = bytes.length := by
    rw [maskBytes, length_zipWith, min_eq_left hlong]
  rw [xorCyclic_eq_maskBytes hkey, maskBytes, hlength, maskBytes, zipWith_xor_twice _ _ hlong]

/-! ### Digits -/

theorem toList_loop (bytes : ByteArray) (i : Nat) (done : List UInt8) :
    ByteArray.toList.loop bytes i done = done.reverse ++ bytes.data.toList.drop i := by
  fun_induction ByteArray.toList.loop bytes i done with
  | case1 i done hi ih =>
    have hget : bytes.get! i = bytes.data.toList[i] := by simp [ByteArray.get!, hi]
    rw [ih, reverse_cons, append_assoc, singleton_append, hget, getElem_cons_drop]
  | case2 i done hi =>
    have hall : bytes.data.toList.length ≤ i := Nat.le_of_not_lt hi
    rw [drop_of_length_le hall, append_nil]

/-- The bytes of a text are those of its characters. -/
theorem toList_toUTF8 (s : String) : s.toUTF8.toList = s.toList.flatMap String.utf8EncodeChar := by
  have hbytes : s.toUTF8 = s.toList.utf8Encode := by
    rw [String.toUTF8_eq_toByteArray, ← String.toByteArray_ofList, String.ofList_toList]
  rw [hbytes, ByteArray.toList, toList_loop]
  exact toList_data_toByteArray

/-- Characters of ASCII are one byte each. -/
theorem toList_toUTF8_of_ascii {s : String} (h : ∀ c ∈ s.toList, c.val ≤ 127) :
    s.toUTF8.toList = s.toList.map Char.toUInt8 := by
  rw [toList_toUTF8, map_eq_flatMap]
  refine flatMap_congr fun c hc => ?_
  rw [String.utf8EncodeChar_eq_singleton (Char.utf8Size_eq_one_iff.mpr (h c hc)), Char.toUInt8_val]

theorem ascii_of_mem_toDigits {c : Char} (h : c ∈ Nat.toDigits 10 n) : c.val ≤ 127 := by
  have hdigit : c.isDigit = true := Nat.isDigit_of_mem_toDigits (by decide) (by decide) h
  rw [Char.isDigit, Bool.and_eq_true, decide_eq_true_eq, decide_eq_true_eq] at hdigit
  exact UInt32.le_trans hdigit.2 (by decide)

theorem toList_toString (n : Int) :
    (toString n).toList = (if n < 0 then ['-'] else []) ++ Nat.toDigits 10 n.natAbs := by
  have hrepr : toString n = n.repr := rfl
  rw [hrepr, Int.repr_eq_if]
  by_cases hn : 0 ≤ n
  · have habs : n.toNat = n.natAbs := by omega
    rw [if_pos hn, if_neg (Int.not_lt.mpr hn), Nat.toList_repr, habs, nil_append]
  · have habs : (-n).toNat = n.natAbs := by omega
    rw [if_neg hn, if_pos (Int.not_le.mp hn), String.toList_append, Nat.toList_repr, habs]
    rfl

/-- A number that is written out is its sign and its digits, one byte each. -/
theorem toUTF8_toString (n : Int) : (toString n).toUTF8.toList = decimal n := by
  have hascii : ∀ c ∈ (toString n).toList, c.val ≤ 127 := by
    intro c hc
    rw [toList_toString, mem_append] at hc
    rcases hc with hsign | hdigit
    · split at hsign
      · rw [mem_singleton.mp hsign]
        decide
      · cases hsign
    · exact ascii_of_mem_toDigits hdigit
  rw [toList_toUTF8_of_ascii hascii, toList_toString, decimal]
  split <;> rfl

theorem decimal_ne_nil (n : Int) : decimal n ≠ [] := by
  simp [decimal]

/-! ### Units -/

theorem bigEndianUnits_flatMap_be16 (us : List UInt16) : bigEndianUnits (us.flatMap Bytes.be16) = us := by
  induction us with
  | nil => rfl
  | cons u us ih =>
    have hu : UInt16.ofNat ((UInt8.ofNat (u.toNat / 256)).toNat * 256 + (UInt8.ofNat u.toNat).toNat) = u :=
      Bytes.join16_be16 u
    rw [flatMap_cons, Bytes.be16, cons_append, singleton_append, bigEndianUnits, ih, hu]

theorem length_flatMap_be16 (us : List UInt16) : (us.flatMap Bytes.be16).length = 2 * us.length := by
  induction us with
  | nil => rfl
  | cons u us =>
    rw [flatMap_cons, length_append, Bytes.length_be16, length_cons]
    omega

theorem head?_of_flatMap_be16 {a b : UInt8} {rest : List UInt8} (h : us.flatMap Bytes.be16 = a :: b :: rest) :
    us.head? = some (Bytes.join16 a b) := by
  cases us with
  | nil => cases h
  | cons u us =>
    obtain ⟨ha, h⟩ := cons.inj h
    obtain ⟨hb, -⟩ := cons.inj h
    rw [head?_cons, ← ha, ← hb, Bytes.join16_be16]

/-- Units that start with no byte order mark are read as they are. -/
theorem utf16_flatMap_be16 (hbig : us.head? ≠ some 0xFEFF) (hlittle : us.head? ≠ some 0xFFFE) :
    utf16 (us.flatMap Bytes.be16) = (Utf16.mk us).lossy := by
  have heven : (us.flatMap Bytes.be16).length % 2 ≠ 1 := by
    rw [length_flatMap_be16]
    omega
  unfold utf16
  split
  next units rest hmarked =>
  split at hmarked
  · next h => exact absurd (head?_of_flatMap_be16 h) hbig
  · next h => exact absurd (head?_of_flatMap_be16 h) hlittle
  · cases hmarked
    rw [if_neg heven, bigEndianUnits_flatMap_be16]

/-- The first unit of a text is the first character, unless it is the first half of a pair. -/
theorem head?_of_ofString {u : UInt16} (h : (Utf16.ofString p).units.head? = some u) (hu : Utf16.isHigh u = false) :
    p.toList.head? = some (Char.ofNat u.toNat) := by
  cases hp : p.toList with
  | nil =>
    rw [Utf16.ofString, hp] at h
    cases h
  | cons c =>
    have hc := Utf16.toNat_not_surrogate c
    rw [Utf16.ofString, hp, flatMap_cons, Utf16.ofChar] at h
    split at h
    · next hsmall =>
      rw [singleton_append, head?_cons, Option.some.injEq] at h
      have hback : u.toNat = c.toNat := by
        rw [← h, UInt16.toNat_ofNat', Nat.mod_eq_of_lt hsmall]
      rw [head?_cons, hback, Char.ofNat_toNat]
    · next hlarge =>
      rw [cons_append, head?_cons, Option.some.injEq] at h
      rw [← Bool.not_eq_true, Utf16.isHigh_iff, ← h, UInt16.toNat_ofNat'] at hu
      omega

/-- A text is read back from its units. -/
theorem toString?_ofString (s : String) : (Utf16.ofString s).toString? = some s := by
  have hchars : (Utf16.ofString s).chars = s.toList.map some := Utf16.scan_flatMap_ofChar _ _
  rw [Utf16.toString?, hchars]
  simp

/-- A text that does not start with a mark is read back from its bytes. -/
theorem utf16_bigEndian (hbig : p.toList.head? ≠ some '\ufeff') (hlittle : p.toList.head? ≠ some '\ufffe') :
    utf16 (bigEndian p) = p := by
  rw [bigEndian, utf16_flatMap_be16, Utf16.lossy_ofString]
  · exact fun h => hbig (head?_of_ofString h (by decide))
  · exact fun h => hlittle (head?_of_ofString h (by decide))

/-! ### The recipe that answers -/

section Answers

variable {c : Call}

/-- A recipe decides if those before it do not take the arguments and its result looks like text. -/
theorem decrypt_of_first (before after : List Recipe) {r : Recipe} {text : String} (hall : all = before ++ r :: after)
    (hbefore : ∀ other ∈ before, other.apply c = none) (hr : r.apply c = some text) (htext : isPlausible text = true) :
    decrypt c = some ⟨r.name, text⟩ := by
  rw [decrypt, hall, findSome?_append, findSome?_eq_none_iff.mpr]
  · simp [hr, htext]
  · intro other hother
    simp [hbefore other hother]

theorem decrypt_of_xorKey {key : Int32} (hc : c.arguments = [.text (maskUnits key p), .int key])
    (hp : isPlausible p = true) : decrypt c = some ⟨"xor-key", p⟩ := by
  have happly : xorKey.apply c = some p := by
    simp only [xorKey, hc]
    exact (xorUnits_maskUnits key p).trans (toString?_ofString p)
  exact decrypt_of_first [] _ rfl nofun happly hp

theorem decrypt_of_xorKeyString {key : Int32}
    (hc : c.arguments = [.bytes (maskBytes (decimal key.toInt) (bigEndian p)), .int key]) (hp : isPlausible p = true)
    (hbig : p.toList.head? ≠ some '\ufeff') (hlittle : p.toList.head? ≠ some '\ufffe') :
    decrypt c = some ⟨"xor-key-string", p⟩ := by
  have happly : xorKeyString.apply c = some p := by
    simp only [xorKeyString, hc, toUTF8_toString]
    rw [xorCyclic_maskBytes (decimal_ne_nil _), utf16_bigEndian hbig hlittle]
  have hbefore : ∀ other ∈ [xorKey], other.apply c = none := by
    simp [xorKey, hc]
  exact decrypt_of_first [xorKey] _ rfl hbefore happly hp

/-- A table has nothing for bytes. -/
theorem fromTable_bytes (data : List UInt8) (t : Table) : fromTable [.bytes data] t = none := by
  cases t <;> rfl

theorem decrypt_of_charBuffer (hc : c.arguments = [.bytes (bigEndian p)]) (hp : isPlausible p = true) :
    decrypt c = some ⟨"char-buffer", p⟩ := by
  have happly : charBuffer.apply c = some p := by
    simp only [charBuffer, hc]
    rw [bigEndian, bigEndianUnits_flatMap_be16]
    exact toString?_ofString p
  have hbefore : ∀ other ∈ [xorKey, xorKeyString, aesEcb, base64Xor, xorCommonKeys, charShift, staticTable],
      other.apply c = none := by
    simp [xorKey, xorKeyString, aesEcb, base64Xor, xorCommonKeys, charShift, staticTable, hc, fromTable_bytes]
  exact decrypt_of_first [xorKey, xorKeyString, aesEcb, base64Xor, xorCommonKeys, charShift, staticTable] _ rfl
    hbefore happly hp

end Answers

end Recipe

/-- A text that looks like text is recovered from its units combined with a key, from its bytes combined with the
digits of a key, unless it starts with what is read as a byte order mark, and from its bytes as they are; each time
by the recipe that is meant for it, whatever the class, the routine and its tables are. -/
theorem decrypt_recovers (p : String) (hp : isPlausible p = true) (key : Int32) (className routine : String)
    (tables : List Table) :
    decrypt ⟨[.text (maskUnits key p), .int key], className, routine, tables⟩ = some ⟨"xor-key", p⟩ ∧
      (p.toList.head? ≠ some '\ufeff' → p.toList.head? ≠ some '\ufffe' →
        decrypt ⟨[.bytes (maskBytes (decimal key.toInt) (bigEndian p)), .int key], className, routine, tables⟩ =
          some ⟨"xor-key-string", p⟩) ∧
      decrypt ⟨[.bytes (bigEndian p)], className, routine, tables⟩ = some ⟨"char-buffer", p⟩ :=
  ⟨Recipe.decrypt_of_xorKey rfl hp, Recipe.decrypt_of_xorKeyString rfl hp, Recipe.decrypt_of_charBuffer rfl hp⟩

/-- A text with a character outside of the first plane, and a negative key with bits that no unit has. -/
theorem decrypt_recovers_smile :
    isPlausible "Smile 😀!" = true ∧
      decrypt ⟨[.text (maskUnits (-70000) "Smile 😀!"), .int (-70000)], "A", "d", [.chars [1]]⟩ =
        some ⟨"xor-key", "Smile 😀!"⟩ ∧
      decrypt ⟨[.bytes (maskBytes (decimal (-70000)) (bigEndian "Smile 😀!")), .int (-70000)], "A", "d", []⟩ =
        some ⟨"xor-key-string", "Smile 😀!"⟩ := by
  have hp : isPlausible "Smile 😀!" = true := by decide +kernel
  refine ⟨hp, (decrypt_recovers _ hp (-70000) "A" "d" [.chars [1]]).1, ?_⟩
  exact (decrypt_recovers _ hp (-70000) "A" "d" []).2.1 (by decide +kernel) (by decide +kernel)

end Untangle
