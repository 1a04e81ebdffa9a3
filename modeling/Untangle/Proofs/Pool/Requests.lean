import Untangle.Proofs.Pool.Format

/-!
# Pools that are built by requests

A pool starts empty and grows by requests for the slot of a constant. However they go, it stays within the
slots that can be counted. The length of a text is not looked at, and it is written in sixteen bits: the pool
comes back from its bytes exactly if all its texts are short enough for that.
-/

namespace Untangle

open Bytes List

variable {p : Pool} {P : Pool → Prop}

/-! ### Requests -/

namespace Interning

variable {α β : Type}

/-- The pool that a computation leaves behind, whether it succeeds or not. -/
def poolAfter (m : Interning α) (p : Pool) : Pool :=
  match m p with
  | .ok _ q => q
  | .error _ q => q

/-- What holds of the pool before holds of the pool that is left behind. -/
def Keeps (P : Pool → Prop) (m : Interning α) : Prop := ∀ p, P p → P (m.poolAfter p)

theorem Keeps.bind {m : Interning α} {f : α → Interning β} (hm : m.Keeps P) (hf : ∀ a, (f a).Keeps P) :
    (m >>= f).Keeps P := by
  intro p hp
  have hq := hm p hp
  simp only [poolAfter, Bind.bind, EStateM.bind] at hq ⊢
  cases hmp : m p with
  | ok a q =>
    rw [hmp] at hq
    exact hf a q hq
  | error e q =>
    rw [hmp] at hq
    exact hq

end Interning

namespace Pool

/-- A request for the slot of a constant, by the constant itself or by what it is to name. -/
inductive Request
  | constant (c : Constant)
  | name (text : String)
  | class (name : String)
  | string (text : Utf16)
  | methodType (descriptor : String)
  | nameAndType (name descriptor : String)
  | field (member : Member)
  | method (member : Member) (isInterface : Bool)

/-- Looks for the slot, or fills one. -/
def Request.slot : Request → Interning UInt16
  | .constant c => intern c
  | .name text => internName text
  | .class owner => internClass owner
  | .string text => internString text
  | .methodType descriptor => internMethodType descriptor
  | .nameAndType text descriptor => internNameAndType text descriptor
  | .field member => internField member
  | .method member isInterface => internMethod member isInterface

/-- The pool after a series of requests, of which some may have failed. -/
def built (requests : List Request) : Pool := requests.foldl (fun p r => r.slot.poolAfter p) empty

/-- The pool was filled constant by constant, and its slots can be counted. -/
structure Countable (p : Pool) : Prop where
  made : ∃ cs : List Constant, p = cs.foldl append empty
  size_le : p.size ≤ 65535

theorem countable_empty : empty.Countable := ⟨⟨[], rfl⟩, by decide⟩

theorem keeps_intern (c : Constant) : (intern c).Keeps Countable := by
  intro p hp
  simp only [Interning.poolAfter, intern]
  cases p.index[c.key]? with
  | some i => exact hp
  | none =>
    split_ifs with hfull
    · exact hp
    · obtain ⟨cs, hcs⟩ := hp.made
      exact ⟨⟨cs ++ [c], by rw [hcs, foldl_append]; rfl⟩, by rw [size_append]; omega⟩

/-- What every interning of a constant keeps, every request keeps. -/
theorem Request.keeps_slot (h : ∀ c, (intern c).Keeps P) (r : Request) : r.slot.Keeps P := by
  have hname (text : String) : (internName text).Keeps P := h _
  have hclass (name : String) : (internClass name).Keeps P := (hname name).bind fun _ => h _
  have hsignature (name descriptor : String) : (internNameAndType name descriptor).Keeps P :=
    (hname name).bind fun _ => (hname descriptor).bind fun _ => h _
  cases r with
  | constant c => exact h c
  | name text => exact hname text
  | «class» name => exact hclass name
  | string text => exact (h _).bind fun _ => h _
  | methodType descriptor => exact (hname descriptor).bind fun _ => h _
  | nameAndType name descriptor => exact hsignature name descriptor
  | field member => exact (hclass _).bind fun _ => (hsignature _ _).bind fun _ => h _
  | method member => exact (hclass _).bind fun _ => (hsignature _ _).bind fun _ => h _

theorem countable_built (requests : List Request) : (built requests).Countable := by
  unfold built
  generalize hp : empty = p
  have hcountable : p.Countable := hp ▸ countable_empty
  clear hp
  induction requests generalizing p with
  | nil => exact hcountable
  | cons r requests ih => exact ih _ (r.keeps_slot keeps_intern p hcountable)

/-! ### Writing -/

theorem some_mem_slots {cs : List Constant} {c : Constant} :
    some c ∈ (cs.foldl append empty).slots.toList ↔ c ∈ cs := by
  have hfilled : ∀ d, some c ∈ filled d ↔ c = d := by
    intro d
    unfold filled
    split <;> simp
  rw [slots_foldl_append]
  simp [hfilled, empty]

/-- Every constant of a countable pool is in some slot. -/
theorem Countable.exists_get_iff (h : p.Countable) (c : Constant) :
    (∃ i, p.get i = .ok c) ↔ some c ∈ p.slots.toList := by
  have hsize := h.size_le
  simp only [get_eq_ok, mem_iff_getElem?, Array.getElem?_toList]
  constructor
  · rintro ⟨i, hi⟩
    exact ⟨i.toNat, hi⟩
  · rintro ⟨n, hn⟩
    have hlt : n < p.size := (getElem?_eq_some_iff.mp hn).1
    exact ⟨UInt16.ofNat n, by rwa [toNat_ofNat16 (by omega)]⟩

/-- A countable pool can be written as it is exactly if its texts are short. -/
theorem Countable.fits_iff (h : p.Countable) : p.Fits ↔ ∀ i data, p.get i = .ok (.utf8 data) → data.length ≤ 65535 := by
  constructor
  · intro hfits i data hi
    obtain ⟨cs, rfl, hcs⟩ := hfits.made
    exact hcs _ (some_mem_slots.mp ((h.exists_get_iff _).mp ⟨i, hi⟩))
  · intro hshort
    obtain ⟨cs, hp⟩ := h.made
    refine ⟨⟨cs, hp, fun c hc => ?_⟩, h.size_le⟩
    cases c with
    | utf8 data =>
      obtain ⟨i, hi⟩ := (h.exists_get_iff (.utf8 data)).mpr (by rw [hp]; exact some_mem_slots.mpr hc)
      exact hshort i data hi
    | _ => trivial

theorem format : Format read bytes Fits := ⟨fun _ h rest => read_bytes h rest, fun _ _ _ h => fits_of_read h⟩

theorem Fits.countable (h : p.Fits) : p.Countable :=
  ⟨h.made.imp fun _ hcs => hcs.1, h.size_le⟩

/-- A pool that was built by requests comes back from its bytes, with as many slots and the same constant in
each of them, exactly if none of its texts is longer than 65535 bytes. -/
theorem parse_bytes_built_iff (requests : List Request) :
    (∃ q, Bytes.parse read (built requests).bytes = .ok q ∧ q.size = (built requests).size ∧
      ∀ i, q.get i = (built requests).get i) ↔
      ∀ i data, (built requests).get i = .ok (.utf8 data) → data.length ≤ 65535 := by
  have hcountable := countable_built requests
  constructor
  · rintro ⟨q, hq, -, hget⟩
    -- whatever is read has short texts
    have hfits := format.fits_of_parse hq
    simp only [← hget]
    exact hfits.countable.fits_iff.mp hfits
  · intro hshort
    exact ⟨_, (format.parse_eq_ok _).mpr (hcountable.fits_iff.mpr hshort), rfl, fun _ => rfl⟩

/-- A name of so many letters. -/
def letters (n : Nat) : String := String.ofList (List.replicate n 'a')

theorem encode_letters (n : Nat) : ModifiedUtf8.encode (.ofString (letters n)) = List.replicate n 97 := by
  have hunit : Utf16.ofChar 'a' = [97] := rfl
  have hbyte : ModifiedUtf8.encodeUnit 97 = [97] := rfl
  rw [ModifiedUtf8.encode, Utf16.ofString, letters, String.toList_ofList, flatMap_replicate, hunit,
    flatten_replicate_singleton, flatMap_replicate, hbyte, flatten_replicate_singleton]

theorem built_name (text : String) :
    built [.name text] = empty.append (.utf8 (ModifiedUtf8.encode (.ofString text))) := by
  have hnew : empty.index[(Constant.utf8 (ModifiedUtf8.encode (.ofString text))).key]? = none := by simp [empty]
  have hroom : ¬ empty.size + (Constant.utf8 (ModifiedUtf8.encode (.ofString text))).width > 65535 := by
    simp [size_empty, Constant.width, Constant.isWide]
  simp [built, Request.slot, Interning.poolAfter, internName, internUtf8, intern, hnew, if_neg hroom]

/-- A length that wraps to zero leaves the text to whatever is read next. -/
theorem read_bytes_of_overflow {data : List UInt8} (h : data.length % 65536 = 0) :
    read (empty.append (.utf8 data)).bytes = .ok (empty.append (.utf8 []), data) := by
  have hbytes : (empty.append (.utf8 data)).bytes = be16 2 ++ (1 :: (count16 data.length ++ data)) := by
    have := bytes_foldl_append [.utf8 data]
    rw [flatMap_singleton] at this
    exact this
  have hlength : (UInt16.ofNat data.length).toNat = 0 := by rw [UInt16.toNat_ofNat']; exact h
  have hnothing : Bytes.take 0 data = .ok ([], data) := take_append [] data
  have htext : Constant.read (1 :: (count16 data.length ++ data)) = .ok (.utf8 [], data) := by
    simp only [Constant.read, bind, StateT.bind, Except.bind, u8, Constant.readParts, count16, u16_be16, hlength,
      hnothing]
    rfl
  have hnarrow : (Constant.utf8 []).isWide = false := rfl
  rw [hbytes]
  simp [read, bind, StateT.bind, Except.bind, readSlots, htext, hnarrow]

/-- A name of 65536 letters is written as one of none. -/
theorem parse_bytes_letters :
    Bytes.parse read (built [.name (letters 65536)]).bytes = .ok (built [.name (letters 0)]) ∧
      (built [.name (letters 65536)]).get 1 ≠ (built [.name (letters 0)]).get 1 := by
  rw [built_name, encode_letters]
  constructor
  · rw [parse, read_bytes_of_overflow (by rw [length_replicate])]
    rfl
  · intro heq
    have hlengths := congrArg length (Constant.utf8.inj (Except.ok.inj heq))
    rw [length_replicate] at hlengths
    cases hlengths

end Pool

end Untangle
