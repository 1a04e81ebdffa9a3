import Untangle.Bytes
import Untangle.Proofs.Results

/-!
# Numbers come back from their bytes

What a number was written as, most significant byte first, reads as that number again.
-/

namespace Untangle

open List

variable {data rest : List UInt8}

/-- What holds of all 256 bytes holds of every byte. -/
theorem forall_byte {P : UInt8 → Prop} (h : ∀ n : Fin 256, P (UInt8.ofNat n.val)) (b : UInt8) : P b := by
  have hb := h ⟨b.toNat, b.toNat_lt⟩
  rwa [UInt8.ofNat_toNat] at hb

namespace Bytes

variable {α : Type} {as : List α} {read : Reader α} {bytes : α → List UInt8} {s : List UInt8} {n : Nat}

theorem join16_be16 (n : UInt16) : join16 (UInt8.ofNat (n.toNat / 256)) (UInt8.ofNat n.toNat) = n := by
  have hn := n.toNat_lt
  apply UInt16.toNat_inj.mp
  simp only [join16, UInt16.toNat_ofNat', UInt8.toNat_ofNat']
  omega

theorem join32_be32 (n : UInt32) :
    join32 (UInt8.ofNat (n.toNat / 16777216)) (UInt8.ofNat (n.toNat / 65536)) (UInt8.ofNat (n.toNat / 256))
      (UInt8.ofNat n.toNat) = n := by
  have hn := n.toNat_lt
  apply UInt32.toNat_inj.mp
  simp only [join32, UInt32.toNat_ofNat', UInt8.toNat_ofNat']
  omega

theorem be16_join16 (a b : UInt8) : be16 (join16 a b) = [a, b] := by
  have ha := a.toNat_lt
  have hb := b.toNat_lt
  simp only [be16, join16, cons.injEq, and_true, ← UInt8.toNat_inj, UInt8.toNat_ofNat', UInt16.toNat_ofNat']
  omega

theorem be32_join32 (a b c d : UInt8) : be32 (join32 a b c d) = [a, b, c, d] := by
  have ha := a.toNat_lt
  have hb := b.toNat_lt
  have hc := c.toNat_lt
  have hd := d.toNat_lt
  simp only [be32, join32, cons.injEq, and_true, ← UInt8.toNat_inj, UInt8.toNat_ofNat', UInt32.toNat_ofNat']
  omega

theorem be64_join64 (high low : UInt32) : be64 (join64 high low) = be32 high ++ be32 low := by
  have hh := high.toNat_lt
  have hl := low.toNat_lt
  have hhigh : UInt32.ofNat ((join64 high low).toNat / 4294967296) = high := by
    simp only [join64, ← UInt32.toNat_inj, UInt32.toNat_ofNat', UInt64.toNat_ofNat']
    omega
  have hlow : UInt32.ofNat (join64 high low).toNat = low := by
    simp only [join64, ← UInt32.toNat_inj, UInt32.toNat_ofNat', UInt64.toNat_ofNat']
    omega
  rw [be64, hhigh, hlow]

@[simp] theorem length_be16 (n : UInt16) : (be16 n).length = 2 := rfl

@[simp] theorem length_be32 (n : UInt32) : (be32 n).length = 4 := rfl

/-- A number of two bytes is read back. -/
@[simp] theorem u16_be16 (n : UInt16) (rest : List UInt8) : u16 (be16 n ++ rest) = .ok (n, rest) := by
  simp only [be16, cons_append, nil_append, u16, join16_be16]

/-- A number of four bytes is read back. -/
@[simp] theorem u32_be32 (n : UInt32) (rest : List UInt8) : u32 (be32 n ++ rest) = .ok (n, rest) := by
  simp only [be32, cons_append, nil_append, u32, join32_be32]

/-- A number of eight bytes is read back. -/
@[simp] theorem u64_be64 (n : UInt64) (rest : List UInt8) : u64 (be64 n ++ rest) = .ok (n, rest) := by
  have hn := n.toNat_lt
  have hjoin : join64 (UInt32.ofNat (n.toNat / 4294967296)) (UInt32.ofNat n.toNat) = n := by
    apply UInt64.toNat_inj.mp
    simp only [join64, UInt64.toNat_ofNat', UInt32.toNat_ofNat']
    omega
  simp only [u64, be64, append_assoc, bind, StateT.bind, Except.bind, u32_be32, hjoin]
  rfl

theorem be16_inj {m n : UInt16} : be16 m = be16 n ↔ m = n := by
  refine ⟨fun h => ?_, fun h => h ▸ rfl⟩
  have hm := u16_be16 m []
  rw [h, u16_be16] at hm
  cases hm
  rfl

theorem toNat_ofNat16 (h : n ≤ 65535) : (UInt16.ofNat n).toNat = n := by
  rw [UInt16.toNat_ofNat', Nat.mod_eq_of_lt (by simp only [Nat.reducePow]; omega)]

theorem toNat_ofNat32 (h : n ≤ 4294967295) : (UInt32.ofNat n).toNat = n := by
  rw [UInt32.toNat_ofNat', Nat.mod_eq_of_lt (by simp only [Nat.reducePow]; omega)]

/-! ### Stretches of bytes -/

/-- What is cut off and what is left make up the whole. -/
theorem cut_eq_some {done : List α} {xs front rest : List α} (h : cut done n xs = some (front, rest)) :
    ∃ taken, front = done.reverse ++ taken ∧ taken.length = n ∧ xs = taken ++ rest := by
  fun_induction cut done n xs with
  | case1 done rest =>
    cases h
    exact ⟨[], by simp⟩
  | case2 done n a xs ih =>
    obtain ⟨taken, rfl, hn, rfl⟩ := ih h
    exact ⟨a :: taken, by simp, by simp [hn], rfl⟩
  | case3 => cases h

theorem cut_append (done data rest : List α) :
    cut done data.length (data ++ rest) = some (done.reverse ++ data, rest) := by
  induction data generalizing done with
  | nil => simp [cut]
  | cons a data ih => simp [cut, ih]

theorem take_append (data rest : List UInt8) : take data.length (data ++ rest) = .ok (data, rest) := by
  rw [take, cut_append]
  rfl

theorem length_of_take (h : take n s = .ok (data, rest)) : data.length = n := by
  unfold take at h
  split at h
  · rename_i hcut
    cases h
    obtain ⟨_, hfront, hlength, -⟩ := cut_eq_some hcut
    simp [hfront, hlength]
  · cases h

theorem take_eq_error (h : s.length < n) : take n s = .error .endOfData := by
  unfold take
  split
  · rename_i hcut
    obtain ⟨_, -, hlength, rfl⟩ := cut_eq_some hcut
    rw [length_append] at h
    omega
  · rfl

/-! ### Tables -/

/-- Entries are read back one after the other. -/
theorem repeated_flatMap (h : ∀ a ∈ as, ∀ rest, read (bytes a ++ rest) = .ok (a, rest)) (done : List α)
    (rest : List UInt8) : repeated read as.length done (as.flatMap bytes ++ rest) = .ok (done.reverse ++ as, rest) := by
  induction as generalizing done with
  | nil => simp [repeated]
  | cons a as ih =>
    rw [flatMap_cons, append_assoc, length_cons, repeated]
    simp only [h a mem_cons_self]
    rw [ih fun b hb => h b (mem_cons_of_mem a hb)]
    simp

/-- A table of at most 65535 entries is read back, whatever follows it. -/
theorem counted_append (h : ∀ a ∈ as, ∀ rest, read (bytes a ++ rest) = .ok (a, rest)) (hlen : as.length ≤ 65535)
    (rest : List UInt8) : counted read (count16 as.length ++ (as.flatMap bytes ++ rest)) = .ok (as, rest) := by
  have hentries := repeated_flatMap h [] rest
  simp only [counted, count16, bind, StateT.bind, Except.bind, u16_be16, toNat_ofNat16 hlen]
  exact hentries

/-- A table of at most 65535 entries is read back. -/
theorem counted_count16 (h : ∀ a rest, read (bytes a ++ rest) = .ok (a, rest)) (hlen : as.length ≤ 65535) :
    parse (counted read) (count16 as.length ++ as.flatMap bytes) = .ok as := by
  have hcounted := counted_append (fun a _ => h a) hlen []
  rw [append_nil] at hcounted
  rw [parse, hcounted]
  rfl

/-! ### Failure -/

/-- No number grows too large for its width while this is read. -/
def OverflowFree {α : Type} (read : Reader α) : Prop := ∀ s e, read s = .error e → e.isOverflow = false

theorem OverflowFree.pure (a : α) : OverflowFree (pure a) := by
  intro s e h
  cases h

theorem OverflowFree.bind {β : Type} {x : Reader α} {f : α → Reader β} (hx : OverflowFree x)
    (hf : ∀ a, OverflowFree (f a)) : OverflowFree (x >>= f) := by
  intro s e h
  cases hs : x s with
  | error =>
    simp only [Bind.bind, StateT.bind, hs] at h
    cases h
    exact hx s e hs
  | ok r =>
    simp only [Bind.bind, StateT.bind, hs] at h
    exact hf r.1 r.2 e h

theorem overflowFree_u8 : OverflowFree u8 := by
  intro s e h
  unfold u8 at h
  split at h <;> cases h
  rfl

theorem overflowFree_u16 : OverflowFree u16 := by
  intro s e h
  unfold u16 at h
  split at h <;> cases h
  rfl

theorem overflowFree_u32 : OverflowFree u32 := by
  intro s e h
  unfold u32 at h
  split at h <;> cases h
  rfl

theorem overflowFree_take (n : Nat) : OverflowFree (take n) := by
  intro s e h
  unfold take at h
  split at h <;> cases h
  rfl

/-! ### Formats -/

/-- What the reader takes off the front is what its value is written with. -/
def Exact {α : Type} (read : Reader α) (bytes : α → List UInt8) : Prop :=
  ∀ s a rest, read s = .ok (a, rest) → s = bytes a ++ rest

theorem exact_u8 : Exact u8 fun a => [a] := by
  intro s a _ h
  cases s with
  | nil => cases h
  | cons b s =>
    cases h
    rfl

theorem exact_u16 : Exact u16 be16 := by
  intro s n _ h
  unfold u16 at h
  split at h
  · cases h
    rw [be16_join16]
    rfl
  · cases h

theorem exact_u32 : Exact u32 be32 := by
  intro s n _ h
  unfold u32 at h
  split at h
  · cases h
    rw [be32_join32]
    rfl
  · cases h

theorem exact_u64 : Exact u64 be64 := by
  intro s n _ h
  obtain ⟨⟨high, _⟩, hhigh, h⟩ := bind_eq_ok.mp h
  obtain ⟨⟨_, _⟩, hlow, h⟩ := bind_eq_ok.mp h
  cases h
  rw [be64_join64, exact_u32 _ _ _ hhigh, exact_u32 _ _ _ hlow, append_assoc]

theorem exact_take (n : Nat) : Exact (take n) id := by
  intro s _ _ h
  unfold take at h
  split at h
  · rename_i hcut
    cases h
    obtain ⟨_, rfl, -, rfl⟩ := cut_eq_some hcut
    rfl
  · cases h

/-- A value that fits is read back from its bytes, whatever follows them, and what is read fits. -/
structure Format {α : Type} (read : Reader α) (bytes : α → List UInt8) (Fits : α → Prop) : Prop where
  back : ∀ a, Fits a → ∀ rest, read (bytes a ++ rest) = .ok (a, rest)
  fits : ∀ s a rest, read s = .ok (a, rest) → Fits a

/-- A format in which a value has no other bytes than its own. -/
structure Form {α : Type} (read : Reader α) (bytes : α → List UInt8) (Fits : α → Prop) : Prop extends
    Format read bytes Fits where
  exact : Exact read bytes

variable {Fits : α → Prop}

/-- What was read comes back from its bytes. -/
theorem Format.fits_of_parse (h : Format read bytes Fits) {a : α} (hparse : parse read data = .ok a) : Fits a := by
  obtain ⟨⟨_, _⟩, hread, rfl⟩ := map_eq_ok.mp hparse
  exact h.fits _ _ _ hread

/-- A value is read back from its bytes exactly if it fits. -/
theorem Format.parse_eq_ok (h : Format read bytes Fits) (a : α) : parse read (bytes a) = .ok a ↔ Fits a := by
  refine ⟨h.fits_of_parse, fun ha => ?_⟩
  have hback := h.back a ha []
  rw [append_nil] at hback
  rw [parse, hback]
  rfl

theorem Form.of_read (hback : ∀ a, Fits a → ∀ rest, read (bytes a ++ rest) = .ok (a, rest))
    (hread : ∀ s a rest, read s = .ok (a, rest) → Fits a ∧ s = bytes a ++ rest) : Form read bytes Fits :=
  ⟨⟨hback, fun _ _ _ h => (hread _ _ _ h).1⟩, fun _ _ _ h => (hread _ _ _ h).2⟩

theorem form_u16 : Form u16 be16 fun _ => True :=
  ⟨⟨fun n _ rest => u16_be16 n rest, fun _ _ _ _ => trivial⟩, exact_u16⟩

/-- As many entries are read as were asked for, each as its reader gives it. -/
theorem Form.of_repeated (h : Form read bytes Fits) {done : List α} (hr : repeated read n done s = .ok (as, rest)) :
    ∃ more, as = done.reverse ++ more ∧ more.length = n ∧ s = more.flatMap bytes ++ rest ∧ ∀ a ∈ more, Fits a := by
  induction n generalizing done s with
  | zero =>
    cases hr
    exact ⟨[], by simp⟩
  | succ n ih =>
    unfold repeated at hr
    split at hr
    · rename_i a _ ha
      obtain ⟨more, rfl, hlength, hrest, hfits⟩ := ih hr
      refine ⟨a :: more, by simp, by simp [hlength], ?_, forall_mem_cons.mpr ⟨h.fits _ _ _ ha, hfits⟩⟩
      rw [h.exact _ _ _ ha, hrest, flatMap_cons, append_assoc]
    · cases hr

/-- A table of what has a form has one, up to 65535 entries. -/
theorem Form.counted (h : Form read bytes Fits) :
    Form (counted read) (fun as => count16 as.length ++ as.flatMap bytes)
      fun as => as.length ≤ 65535 ∧ ∀ a ∈ as, Fits a where
  back as hfits rest := by
    exact counted_append (fun a ha => h.back a (hfits.2 a ha)) hfits.1 rest
  fits s as rest hr := by
    obtain ⟨⟨n, s'⟩, -, hr⟩ := bind_eq_ok.mp hr
    obtain ⟨_, rfl, hlength, -, hfits⟩ := h.of_repeated hr
    have hn := n.toNat_lt
    exact ⟨by omega, hfits⟩
  exact s as rest hr := by
    obtain ⟨⟨n, s'⟩, hn, hr⟩ := bind_eq_ok.mp hr
    obtain ⟨_, rfl, hlength, rfl, -⟩ := h.of_repeated hr
    simp [exact_u16 _ _ _ hn, count16, hlength]

end Bytes

end Untangle
