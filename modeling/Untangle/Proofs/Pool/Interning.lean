import Untangle.Proofs.Pool.Requests

/-!
# Interning finds a constant or adds it

The index of a pool and its slots say the same: the index leads to the first slot that holds an equal constant,
and knows no constant that is in no slot. Appending keeps this, so it holds of every pool that starts empty or is
read from bytes, whatever is interned then. What interning does can be said in terms of the slots alone: a constant
that is there is found in its first slot, one that is not there goes to the end if its slots have numbers, and
nothing else changes.
-/

namespace Untangle

variable {q : Pool} {e : Error}

namespace Pool

variable {p : Pool} {c : Constant} {i : UInt16}

/-! ### The index and the empty slots -/

/-- The index leads to the first slot of every constant, and only slot 0 and the second slots of wide constants
are empty. -/
structure Truthful (p : Pool) : Prop where
  index_eq : ∀ c : Constant, p.index[c.key]? = (p.first? c).map UInt16.ofNat
  empty_iff : ∀ i, p.slots[i]? = some none ↔
    i = 0 ∨ ∃ j c, i = j + 1 ∧ p.slots[j]? = some (some c) ∧ c.isWide = true

theorem truthful_empty : empty.Truthful := by
  constructor
  · intro c
    simp [empty, first?]
  · intro i
    cases i with
    | zero => simp [empty]
    | succ i => cases i <;> simp [empty]

theorem first?_eq_some {i : Nat} :
    p.first? c = some i ↔ p.slots[i]? = some (some c) ∧ ∀ j < i, p.slots[j]? ≠ some (some c) := by
  rw [first?, Array.findIdx?_eq_some_iff_getElem]
  constructor
  · rintro ⟨hi, hc, hbefore⟩
    refine ⟨getElem?_eq_some_iff.mpr ⟨hi, by simpa using hc⟩, fun j hj heq => ?_⟩
    have hc := (getElem?_eq_some_iff.mp heq).2
    exact hbefore j hj (by rw [hc, beq_self_eq_true])
  · rintro ⟨hslot, hbefore⟩
    obtain ⟨hi, hc⟩ := getElem?_eq_some_iff.mp hslot
    refine ⟨hi, by simpa using hc, fun j hj heq => hbefore j hj ?_⟩
    exact getElem?_eq_some_iff.mpr ⟨hj.trans hi, by simpa using heq⟩

theorem first?_eq_none : p.first? c = none ↔ ∀ i : Nat, p.slots[i]? ≠ some (some c) := by
  rw [first?, Array.findIdx?_eq_none_iff]
  constructor
  · intro h i hi
    simpa using h _ (Array.mem_of_getElem? hi)
  · intro h slot hslot
    obtain ⟨i, hi⟩ := Array.getElem?_of_mem hslot
    simpa using fun heq : slot = some c => h i (heq ▸ hi)

/-- A constant that is added is the first of its kind only if there was none before. -/
theorem first?_append (p : Pool) (c d : Constant) :
    (p.append c).first? d = (p.first? d).or (if c = d then some p.size else none) := by
  simp only [append, first?, size]
  split <;> simp [Array.findIdx?_push]

/-- What was in a slot stays there. -/
theorem getElem?_append_of_lt (c : Constant) {i : Nat} (hi : i < p.size) : (p.append c).slots[i]? = p.slots[i]? := by
  obtain ⟨_, hmore⟩ := slots_append p c
  have hi' : i < p.slots.size := hi
  rw [hmore, Array.getElem?_append_left (by simp; omega), Array.getElem?_push_lt hi', Array.getElem?_eq_getElem hi']

/-- Of the new slots the second, if there is one, is empty. -/
theorem slots_append_eq_none {i : Nat} (hi : p.size ≤ i) :
    (p.append c).slots[i]? = some none ↔ i = p.size + 1 ∧ c.isWide = true := by
  simp only [size] at hi ⊢
  simp only [append]
  split
  · rename_i hwide
    rw [Array.getElem?_push, Array.getElem?_push, Array.size_push]
    split_ifs with hlast hfirst
    · simp [hlast, hwide]
    · simp only [Option.some.injEq, reduceCtorEq, false_iff]
      omega
    · rw [Array.getElem?_eq_none hi]
      simp only [reduceCtorEq, false_iff]
      omega
  · rename_i hwide
    rw [Array.getElem?_push]
    split_ifs with hfirst
    · simp [hwide]
    · rw [Array.getElem?_eq_none hi]
      simp [hwide]

theorem Truthful.append (h : p.Truthful) (hpos : 0 < p.size) (c : Constant) : (p.append c).Truthful := by
  constructor
  · intro d
    rw [index_append, Std.TreeMap.getElem?_insertIfNew, first?_append]
    by_cases hcd : c = d
    · subst hcd
      have hindex := h.index_eq c
      cases hfirst : p.first? c with
      | none =>
        rw [hfirst] at hindex
        simp [Std.TreeMap.mem_iff_isSome_getElem?, hindex]
      | some i =>
        rw [hfirst] at hindex
        rw [if_neg fun hnew => hnew.2 (Std.TreeMap.mem_iff_isSome_getElem?.mpr (by rw [hindex]; rfl)), hindex]
        rfl
    · have hkey : c.key ≠ d.key := fun heq => hcd (Constant.key_injective heq)
      simp [hcd, hkey, h.index_eq]
  · intro i
    have hkept : ∀ j d, p.slots[j]? = some (some d) → (p.append c).slots[j]? = some (some d) := extends_append p c
    by_cases hi : i < p.size
    · -- an old slot, whose neighbour is an old one too
      rw [getElem?_append_of_lt c hi, h.empty_iff]
      refine or_congr_right ⟨?_, ?_⟩
      · rintro ⟨j, d, rfl, hj, hd⟩
        exact ⟨j, d, rfl, hkept j d hj, hd⟩
      · rintro ⟨j, d, rfl, hj, hd⟩
        rw [getElem?_append_of_lt c (by omega)] at hj
        exact ⟨j, d, rfl, hj, hd⟩
    · rw [slots_append_eq_none (not_lt.mp hi)]
      constructor
      · rintro ⟨rfl, hwide⟩
        exact .inr ⟨p.size, c, rfl, slots_append_size p c, hwide⟩
      · rintro (rfl | ⟨j, d, rfl, hj, hd⟩)
        · omega
        · by_cases hold : j < p.size
          · -- the last old slot cannot be the first half of something
            rw [getElem?_append_of_lt c hold] at hj
            have hnext := (h.empty_iff (j + 1)).mpr (.inr ⟨j, d, rfl, hj, hd⟩)
            exact absurd (getElem?_eq_some_iff.mp hnext).1 hi
          · obtain ⟨rfl, rfl⟩ := eq_of_slots_append (not_lt.mp hold) hj
            exact ⟨rfl, hd⟩

theorem Truthful.foldl_append (h : p.Truthful) (hpos : 0 < p.size) (cs : List Constant) :
    (cs.foldl Pool.append p).Truthful := by
  induction cs generalizing p with
  | nil => exact h
  | cons c cs ih => exact ih (h.append hpos c) (by rw [size_append]; omega)

theorem Countable.truthful (h : p.Countable) : p.Truthful := by
  obtain ⟨cs, rfl⟩ := h.made
  exact truthful_empty.foldl_append (by rw [size_empty]; omega) cs

/-! ### One request -/

/-- Interning in terms of the slots. -/
theorem Countable.intern_eq (h : p.Countable) (c : Constant) :
    intern c p = match p.first? c with
      | some i => .ok (UInt16.ofNat i) p
      | none =>
        if p.size + c.width > 65535 then .error .constantPoolOverflow p
        else .ok (UInt16.ofNat p.size) (p.append c) := by
  rw [intern, h.truthful.index_eq]
  cases p.first? c <;> rfl

/-- A constant with all its slots has numbers for them. -/
theorem Countable.slot_le (h : p.Countable) (hc : p.get i = .ok c) :
    i.toNat ≤ 65534 ∧ (c.isWide = true → i.toNat + 1 ≤ 65534) := by
  have hsize : p.slots.size ≤ 65535 := h.size_le
  have hslot := get_eq_ok.mp hc
  have hi := (getElem?_eq_some_iff.mp hslot).1
  refine ⟨by omega, fun hwide => ?_⟩
  have hnext := (h.truthful.empty_iff (i.toNat + 1)).mpr (.inr ⟨_, c, rfl, hslot, hwide⟩)
  have hi' := (getElem?_eq_some_iff.mp hnext).1
  omega

/-- A constant is looked for in slots that have numbers. -/
theorem Countable.first?_le (h : p.Countable) {i : Nat} (hi : p.first? c = some i) : i ≤ 65535 := by
  have hsize : p.slots.size ≤ 65535 := h.size_le
  have hlt := (getElem?_eq_some_iff.mp (first?_eq_some.mp hi).1).1
  omega

/-- The constant is in the pool, and this is its first slot. -/
theorem first?_iff : p.first? c = some i.toNat ↔ p.get i = .ok c ∧ ∀ j, p.get j = .ok c → i ≤ j := by
  rw [first?_eq_some, get_eq_ok]
  refine and_congr_right fun hi => ⟨fun hbefore j hj => ?_, fun hleast j hj heq => ?_⟩
  · by_contra hlt
    exact hbefore j.toNat (by simpa [UInt16.le_iff_toNat_le] using hlt) (get_eq_ok.mp hj)
  · have hnumber : (UInt16.ofNat j).toNat = j := Bytes.toNat_ofNat16 (by have := i.toNat_lt; omega)
    have hle := hleast (UInt16.ofNat j) (get_eq_ok.mpr (by rwa [hnumber]))
    rw [UInt16.le_iff_toNat_le] at hle
    omega

section

variable (h : p.Countable)

include h

/-- The slot given out is the first one of the constant in the pool that is left. -/
theorem Countable.first?_of_intern (hi : intern c p = .ok i q) : q.first? c = some i.toNat := by
  rw [h.intern_eq] at hi
  cases hfirst : p.first? c with
  | some n =>
    rw [hfirst] at hi
    cases hi
    rw [hfirst, Bytes.toNat_ofNat16 (h.first?_le hfirst)]
  | none =>
    simp only [hfirst] at hi
    split_ifs at hi
    cases hi
    rw [first?_append, hfirst, if_pos rfl, Bytes.toNat_ofNat16 h.size_le]
    rfl

/-- A constant that is in the pool is found, and nothing is added. -/
theorem Countable.intern_of_first? (hi : p.first? c = some i.toNat) : intern c p = .ok i p := by
  rw [h.intern_eq, hi]
  simp

theorem Countable.absent_iff : p.first? c = none ↔ ∀ i, p.get i ≠ .ok c := by
  rw [first?_eq_none]
  constructor
  · intro hno i hi
    exact hno _ (get_eq_ok.mp hi)
  · intro hno i hi
    have hsize : p.slots.size ≤ 65535 := h.size_le
    have hlt := (getElem?_eq_some_iff.mp hi).1
    exact hno (UInt16.ofNat i) (get_eq_ok.mpr (by rwa [Bytes.toNat_ofNat16 (by omega)]))

theorem Countable.intern_eq_error :
    intern c p = .error e q ↔
      e = .constantPoolOverflow ∧ q = p ∧ (∀ i, p.get i ≠ .ok c) ∧ 65535 < p.size + c.width := by
  rw [h.intern_eq, ← h.absent_iff]
  cases p.first? c with
  | some n => simp
  | none =>
    by_cases hfull : p.size + c.width > 65535
    · simp only [if_pos hfull, EStateM.Result.error.injEq, true_and]
      exact ⟨fun h => ⟨h.1.symm, h.2.symm, hfull⟩, fun h => ⟨h.1.symm, h.2.1.symm⟩⟩
    · simp [if_neg hfull, not_lt.mp hfull]

theorem Countable.empty_slot_iff :
    p.slots[i.toNat]? = some none ↔ i = 0 ∨ ∃ j d, p.get j = .ok d ∧ d.isWide = true ∧ i.toNat = j.toNat + 1 := by
  rw [h.truthful.empty_iff]
  refine or_congr (by rw [← UInt16.toNat_inj, UInt16.toNat_zero]) ⟨?_, ?_⟩
  · rintro ⟨j, d, hj, hd, hwide⟩
    have hlt := i.toNat_lt
    have hnumber : (UInt16.ofNat j).toNat = j := Bytes.toNat_ofNat16 (by omega)
    exact ⟨UInt16.ofNat j, d, get_eq_ok.mpr (by rwa [hnumber]), hwide, by omega⟩
  · rintro ⟨j, d, hd, hwide, hj⟩
    exact ⟨j.toNat, d, hj, get_eq_ok.mp hd, hwide⟩

theorem Countable.get_eq_error :
    p.get i = .error e ↔ e = .invalidConstantIndex i ∧
      (i = 0 ∨ p.size ≤ i.toNat ∨ ∃ j d, p.get j = .ok d ∧ d.isWide = true ∧ i.toNat = j.toNat + 1) := by
  have hpast : p.slots[i.toNat]? = none ↔ p.size ≤ i.toNat := Array.getElem?_eq_none_iff
  rw [or_left_comm, ← hpast, ← h.empty_slot_iff]
  unfold get
  split
  · rename_i hslot
    simp [hslot]
  · rename_i hno
    have hnone : p.slots[i.toNat]? = none ∨ p.slots[i.toNat]? = some none := by
      rcases hslot : p.slots[i.toNat]? with _ | _ | c
      · exact .inl rfl
      · exact .inr rfl
      · exact (hno c hslot).elim
    rw [Except.error.injEq, eq_comm, and_iff_left hnone]

end

/-! ### Any number of requests -/

/-- A pool as it is before anything is interned: empty, or read from bytes. -/
inductive Started : Pool → Prop
  | empty : Started empty
  | read {p : Pool} {data rest : List UInt8} (h : read data = .ok (p, rest)) : Started p

theorem Started.countable (h : p.Started) : p.Countable := by
  cases h with
  | empty => exact countable_empty
  | read h => exact (fits_of_read h).countable

/-- The pool after a request for each of these constants, of which some may have failed. -/
def interned (p : Pool) (cs : List Constant) : Pool := cs.foldl (fun p c => (intern c).poolAfter p) p

theorem Countable.interned (h : p.Countable) (cs : List Constant) : (p.interned cs).Countable := by
  induction cs generalizing p with
  | nil => exact h
  | cons c cs ih => exact ih (keeps_intern c p h)

theorem poolAfter_intern (p : Pool) (c : Constant) :
    (intern c).poolAfter p = p ∨ (intern c).poolAfter p = p.append c := by
  simp only [Interning.poolAfter, intern]
  cases p.index[c.key]? with
  | some i => exact .inl rfl
  | none =>
    split_ifs
    · exact .inl rfl
    · exact .inr rfl

/-- However much is interned, what was in a slot stays there. -/
theorem getElem?_interned (cs : List Constant) {i : Nat} (hi : i < p.size) :
    (p.interned cs).slots[i]? = p.slots[i]? := by
  induction cs generalizing p with
  | nil => rfl
  | cons c cs ih =>
    show (((intern c).poolAfter p).interned cs).slots[i]? = p.slots[i]?
    obtain hsame | hadded := poolAfter_intern p c
    · rw [hsame]
      exact ih hi
    · rw [hadded, ih (by rw [size_append]; omega), getElem?_append_of_lt c hi]

theorem first?_interned (cs : List Constant) {i : Nat} (h : p.first? c = some i) :
    (p.interned cs).first? c = some i := by
  rw [first?_eq_some] at h ⊢
  have hi : i < p.size := (getElem?_eq_some_iff.mp h.1).1
  refine ⟨by rw [getElem?_interned cs hi]; exact h.1, fun j hj => ?_⟩
  rw [getElem?_interned cs (hj.trans hi)]
  exact h.2 j hj

/-- After any requests on a pool that started empty or was read: no later request changes a slot; a slot that is
given out holds the constant, is the first that does, has a number below 65535 as has the second slot of a wide
constant, and is given out again ever after, without a change to the pool; a request fails exactly for a constant
that is not there and whose slots have no numbers, and changes nothing then; and only slot 0, slots past the end and
second slots of wide constants hold nothing. -/
theorem intern_finds_or_appends {start : Pool} (hstart : start.Started) (earlier later : List Constant) (c : Constant) :
    let p := start.interned earlier
    (∀ i < p.size, (p.interned later).slots[i]? = p.slots[i]?) ∧
    (∀ i q, intern c p = .ok i q →
      q.get i = .ok c ∧ (∀ j, q.get j = .ok c → i ≤ j) ∧
        i.toNat ≤ 65534 ∧ (c.isWide = true → i.toNat + 1 ≤ 65534) ∧
        intern c (q.interned later) = .ok i (q.interned later)) ∧
    (∀ e q, intern c p = .error e q ↔
      e = .constantPoolOverflow ∧ q = p ∧ (∀ i, p.get i ≠ .ok c) ∧ 65535 < p.size + c.width) ∧
    (∀ i e, p.get i = .error e ↔ e = .invalidConstantIndex i ∧
      (i = 0 ∨ p.size ≤ i.toNat ∨ ∃ j d, p.get j = .ok d ∧ d.isWide = true ∧ i.toNat = j.toNat + 1)) := by
  intro p
  have hp : p.Countable := hstart.countable.interned earlier
  refine ⟨fun i hi => getElem?_interned later hi, ?_, fun e q => hp.intern_eq_error, fun i e => hp.get_eq_error⟩
  intro i q hi
  have hq : q.Countable := by
    have hafter := keeps_intern c p hp
    rwa [Interning.poolAfter, hi] at hafter
  have hfirst := hp.first?_of_intern hi
  obtain ⟨hget, hleast⟩ := first?_iff.mp hfirst
  obtain ⟨hslot, hwide⟩ := hq.slot_le hget
  exact ⟨hget, hleast, hslot, hwide, (hq.interned later).intern_of_first? (first?_interned later hfirst)⟩

/-- A pool with a wide constant and the same number twice. -/
def doubled : Pool := [Constant.long 1, .integer 7, .integer 7].foldl append empty

/-- Read from its bytes, the pool gives out the first of the two slots again, whatever came in between. -/
theorem doubled_intern :
    doubled.Started ∧ intern (.integer 7) (doubled.interned [.float 0]) = .ok 3 (doubled.interned [.float 0]) ∧
      (∀ j, (doubled.interned [.float 0]).get j = .ok (.integer 7) → 3 ≤ j) ∧
      (doubled.interned [.float 0]).get 2 = .error (.invalidConstantIndex 2) := by
  have hfits : doubled.Fits := ⟨⟨_, rfl, by simp [Constant.Fits]⟩, by decide⟩
  have hstart : doubled.Started := .read (read_bytes hfits [])
  obtain ⟨-, hok, -, hget⟩ := intern_finds_or_appends hstart [.float 0] [] (.integer 7)
  have hthree : intern (.integer 7) (doubled.interned [.float 0]) = .ok 3 (doubled.interned [.float 0]) := by rfl
  exact ⟨hstart, hthree, (hok 3 _ hthree).2.1, (hget 2 _).mpr ⟨rfl, .inr (.inr ⟨1, .long 1, rfl, rfl, rfl⟩)⟩⟩

end Pool

end Untangle
