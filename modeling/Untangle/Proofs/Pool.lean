import Untangle.Code.Decoding
import Untangle.Proofs.Text.ModifiedUtf8

/-!
# Interned constants are found again

A pool is sound if its index is true to its slots. Interning keeps it so and never changes a filled
slot, so what was looked up before is found after, and what was interned is found under its slot.
-/

namespace Untangle

variable {q r : Pool} {i : UInt16} {m : Member} {d : Constant} {text : Utf16} {name descriptor : String}

/-- Two constants with the same numbers are the same. -/
theorem Constant.key_injective (h : c.key = d.key) : c = d := by
  cases c <;> cases d <;> simp only [key, List.cons.injEq, Nat.reduceEqDiff, false_and, and_true, true_and] at h
  case utf8.utf8 => rw [List.map_injective_iff.mpr (fun _ _ => UInt8.toNat_inj.mp) h]
  case integer.integer => exact congrArg (fun n => integer n.toInt32) (UInt32.toNat_inj.mp h)
  case long.long => exact congrArg (fun n => long n.toInt64) (UInt64.toNat_inj.mp h)
  all_goals
    simp only [UInt8.toNat_inj, UInt16.toNat_inj, UInt32.toNat_inj, UInt64.toNat_inj] at h
    simp [h]

theorem Constant.width_pos (c : Constant) : 0 < c.width := by
  unfold width
  split <;> omega

namespace Pool

variable {p : Pool} {c : Constant}

/-- Slot 0 is empty, and the index names a slot that holds the constant. -/
structure Sound (p : Pool) : Prop where
  reserved : p.slots[0]? = some none
  indexed : ∀ (c : Constant) (i : UInt16), p.index[c.key]? = some i → p.slots[i.toNat]? = some (some c)

/-- Every constant of the smaller pool is in the larger one, in the same slot. -/
def Extends (q p : Pool) : Prop :=
  ∀ (i : Nat) (c : Constant), p.slots[i]? = some (some c) → q.slots[i]? = some (some c)

theorem Extends.refl (p : Pool) : p.Extends p := fun _ _ h => h

theorem Extends.trans (hr : r.Extends q) (hq : q.Extends p) : r.Extends p :=
  fun i c h => hr i c (hq i c h)

theorem sound_empty : empty.Sound := ⟨rfl, fun c i h => (by simp [empty] at h)⟩

theorem get_eq_ok : p.get i = .ok c ↔ p.slots[i.toNat]? = some (some c) := by
  unfold get
  split
  · rename_i d hd
    rw [hd]
    simp
  · rename_i hno
    exact ⟨fun h => (by cases h), fun h => (hno c h).elim⟩

theorem Extends.get (h : q.Extends p) (hc : p.get i = .ok c) : q.get i = .ok c :=
  get_eq_ok.mpr (h _ _ (get_eq_ok.mp hc))

/-- A slot that holds a constant is not slot 0. -/
theorem Sound.ne_zero (h : p.Sound) (hc : p.get i = .ok c) : i ≠ 0 := by
  rintro rfl
  have hslot := get_eq_ok.mp hc
  rw [UInt16.toNat_zero, h.reserved] at hslot
  cases hslot

/-! ### Adding a constant -/

theorem slots_append (p : Pool) (c : Constant) : ∃ more, (p.append c).slots = p.slots.push (some c) ++ more := by
  simp only [append]
  split
  · exact ⟨#[none], by simp⟩
  · exact ⟨#[], by simp⟩

theorem extends_append (p : Pool) (c : Constant) : (p.append c).Extends p := by
  intro i d hd
  obtain ⟨_, hmore⟩ := slots_append p c
  have hi : i < p.slots.size := (getElem?_eq_some_iff.mp hd).1
  rw [hmore, Array.getElem?_append_left (by simp; omega), Array.getElem?_push_lt hi, ← hd, Array.getElem?_eq_getElem hi]

theorem slots_append_size (p : Pool) (c : Constant) : (p.append c).slots[p.size]? = some (some c) := by
  obtain ⟨_, hmore⟩ := slots_append p c
  rw [hmore, Array.getElem?_append_left (by simp [size]), size, Array.getElem?_push_size]

theorem size_append (p : Pool) (c : Constant) : (p.append c).size = p.size + c.width := by
  simp only [append, size, Constant.width]
  split <;> simp

/-- Of the new slots only the first holds something. -/
theorem eq_of_slots_append {i : Nat} (hi : p.size ≤ i) (h : (p.append c).slots[i]? = some (some d)) :
    i = p.size ∧ d = c := by
  simp only [size] at hi ⊢
  simp only [append] at h
  split at h
  · rw [Array.getElem?_push, Array.getElem?_push] at h
    split at h
    · cases h
    · split at h
      · cases h
        exact ⟨by omega, rfl⟩
      · rw [Array.getElem?_eq_none hi] at h
        cases h
  · rw [Array.getElem?_push] at h
    split at h
    · cases h
      exact ⟨by omega, rfl⟩
    · rw [Array.getElem?_eq_none hi] at h
      cases h

theorem index_append (p : Pool) (c : Constant) :
    (p.append c).index = p.index.insertIfNew c.key (UInt16.ofNat p.size) := by
  rfl

theorem index_append_self (h : p.index[c.key]? = none) : (p.append c).index[c.key]? = some (UInt16.ofNat p.size) := by
  rw [index_append, Std.TreeMap.getElem?_insertIfNew, if_pos]
  exact ⟨Std.compare_self, by rw [Std.TreeMap.mem_iff_isSome_getElem?, h]; simp⟩

/-- A constant that is added at the end is found there, unless an equal one came earlier. -/
theorem Sound.append (h : p.Sound) (hsize : p.size < 65536) : (p.append c).Sound := by
  obtain ⟨_, hmore⟩ := slots_append p c
  have hpos : 0 < p.slots.size := (getElem?_eq_some_iff.mp h.reserved).1
  constructor
  · rw [hmore, Array.getElem?_append_left (by simp), Array.getElem?_push_lt hpos, ← h.reserved,
      Array.getElem?_eq_getElem hpos]
  · intro d i hi
    rw [index_append, Std.TreeMap.getElem?_insertIfNew] at hi
    split at hi
    · rename_i hkey
      cases hi
      have hcd : c = d := Constant.key_injective (Std.compare_eq_iff_eq.mp hkey.1)
      rw [← hcd, UInt16.toNat_ofNat', Nat.mod_eq_of_lt (by simpa using hsize)]
      exact slots_append_size p c
    · exact extends_append p c _ _ (h.indexed d i hi)

/-- The larger pool is sound and extends the smaller one. -/
structure Grows (p q : Pool) : Prop where
  sound : q.Sound
  keeps : q.Extends p

theorem Sound.grows (h : p.Sound) : p.Grows p := ⟨h, .refl p⟩

theorem Grows.trans (hq : p.Grows q) (hr : q.Grows r) : p.Grows r :=
  ⟨hr.sound, hr.keeps.trans hq.keeps⟩

/-- An interned constant is in its slot. -/
theorem Sound.intern (hp : p.Sound) (h : Pool.intern c p = .ok i q) : p.Grows q ∧ q.get i = .ok c := by
  unfold Pool.intern at h
  split at h
  · rename_i j hj
    cases h
    exact ⟨hp.grows, get_eq_ok.mpr (hp.indexed c i hj)⟩
  · split at h
    · cases h
    · cases h
      refine ⟨⟨hp.append (by omega), extends_append p c⟩, get_eq_ok.mpr ?_⟩
      rw [UInt16.toNat_ofNat', Nat.mod_eq_of_lt (by simp; omega)]
      exact slots_append_size p c

/-! ### Looking up in a larger pool -/

section Stable

variable {α β : Type}

/-- What is found in a pool is found in every larger one. -/
def Stable (find : Pool → Except Error α) : Prop :=
  ∀ p q a, q.Extends p → find p = .ok a → find q = .ok a

theorem stable_const (r : Except Error α) : Stable fun _ => r := fun _ _ _ _ h => h

theorem stable_get (i : UInt16) : Stable fun p => p.get i := fun _ _ _ hq h => hq.get h

theorem Stable.bind {find : Pool → Except Error α} {next : α → Pool → Except Error β} (hf : Stable find)
    (hn : ∀ a, Stable (next a)) : Stable fun p => find p >>= fun a => next a p := by
  intro p q b hq h
  obtain ⟨a, ha, hb⟩ := bind_eq_ok.mp h
  exact bind_eq_ok.mpr ⟨a, hf p q a hq ha, hn a p q b hq hb⟩

theorem Stable.mapM {find : α → Pool → Except Error β} (h : ∀ a, Stable (find a)) (as : List α) :
    Stable fun p => as.mapM fun a => find a p := by
  intro p q _ hq hbs
  rw [mapM_eq_ok] at hbs ⊢
  exact hbs.imp fun a b hb => h a p q b hq hb

theorem stable_utf8 (i : UInt16) : Stable fun p => p.utf8 i := by
  refine (stable_get i).bind fun c => ?_
  split <;> exact stable_const _

theorem stable_name (i : UInt16) : Stable fun p => p.name i := (stable_utf8 i).bind fun _ => stable_const _

theorem stable_className (i : UInt16) : Stable fun p => p.className i := by
  refine (stable_get i).bind fun c => ?_
  split
  · exact stable_name _
  · exact stable_const _

theorem stable_string (i : UInt16) : Stable fun p => p.string i := by
  refine (stable_get i).bind fun c => ?_
  split
  · exact stable_utf8 _
  · exact stable_const _

theorem stable_nameAndType (i : UInt16) : Stable fun p => p.nameAndType i := by
  refine (stable_get i).bind fun c => ?_
  split
  · exact (stable_name _).bind fun _ => (stable_name _).bind fun _ => stable_const _
  · exact stable_const _

theorem stable_member (i : UInt16) : Stable fun p => p.member i := by
  refine (stable_get i).bind fun c => ?_
  split
  · exact (stable_nameAndType _).bind fun _ => (stable_className _).bind fun _ => stable_const _
  · exact (stable_nameAndType _).bind fun _ => (stable_className _).bind fun _ => stable_const _
  · exact (stable_nameAndType _).bind fun _ => (stable_className _).bind fun _ => stable_const _
  · exact stable_const _

theorem stable_literal? (i : UInt16) : Stable fun p => p.literal? i := by
  refine (stable_get i).bind fun c => ?_
  split
  · exact stable_const _
  · exact stable_const _
  · exact stable_const _
  · exact stable_const _
  · exact (stable_string _).bind fun _ => stable_const _
  · exact (stable_className _).bind fun _ => stable_const _
  · exact (stable_name _).bind fun _ => stable_const _
  · exact stable_const _

theorem stable_handle (i : UInt16) : Stable fun p => p.handle i := by
  refine (stable_get i).bind fun c => ?_
  split
  · exact (stable_member _).bind fun _ => stable_const _
  · exact stable_const _

theorem stable_bootstrapArg (i : UInt16) : Stable fun p => p.bootstrapArg i := by
  refine (stable_get i).bind fun c => ?_
  split
  · exact (stable_handle _).bind fun _ => stable_const _
  · exact (stable_literal? _).bind fun _ => stable_const _

theorem stable_callSite (bootstraps : List BootstrapEntry) (i : UInt16) : Stable fun p => p.callSite bootstraps i := by
  refine (stable_get i).bind fun c => ?_
  split
  · refine (stable_nameAndType _).bind fun s => ?_
    split
    · exact stable_const _
    · exact (stable_handle _).bind fun _ => (Stable.mapM stable_bootstrapArg _).bind fun _ => stable_const _
  · exact stable_const _

end Stable

/-! ### What was interned -/

section Interned

variable {p : Pool} (hp : p.Sound)

include hp

theorem Sound.internUtf8 (h : Pool.internUtf8 text p = .ok i q) : p.Grows q ∧ q.utf8 i = .ok text := by
  obtain ⟨hq, hget⟩ := hp.intern h
  refine ⟨hq, ?_⟩
  rw [utf8, hget]
  exact ModifiedUtf8.decode_encode text

theorem Sound.internName {text : String} (h : Pool.internName text p = .ok i q) : p.Grows q ∧ q.name i = .ok text := by
  obtain ⟨hq, hutf8⟩ := hp.internUtf8 h
  refine ⟨hq, ?_⟩
  rw [name, hutf8]
  exact congrArg Except.ok (Utf16.lossy_ofString text)

theorem Sound.internClass (h : Pool.internClass name p = .ok i q) : p.Grows q ∧ q.className i = .ok name ∧ i ≠ 0 := by
  obtain ⟨n, r, hn, h⟩ := Interning.bind_eq_ok.mp h
  obtain ⟨hr, hname⟩ := hp.internName hn
  obtain ⟨hq, hget⟩ := hr.sound.intern h
  refine ⟨hr.trans hq, ?_, hq.sound.ne_zero hget⟩
  rw [className, hget]
  exact stable_name n r q name hq.keeps hname

theorem Sound.internString (h : Pool.internString text p = .ok i q) : p.Grows q ∧ q.string i = .ok text := by
  obtain ⟨n, r, hn, h⟩ := Interning.bind_eq_ok.mp h
  obtain ⟨hr, hutf8⟩ := hp.internUtf8 hn
  obtain ⟨hq, hget⟩ := hr.sound.intern h
  refine ⟨hr.trans hq, ?_⟩
  rw [string, hget]
  exact stable_utf8 n r q text hq.keeps hutf8

theorem Sound.internMethodType (h : Pool.internMethodType descriptor p = .ok i q) :
    p.Grows q ∧ ∃ n, q.get i = .ok (.methodType n) ∧ q.name n = .ok descriptor := by
  obtain ⟨n, r, hn, h⟩ := Interning.bind_eq_ok.mp h
  obtain ⟨hr, hname⟩ := hp.internName hn
  obtain ⟨hq, hget⟩ := hr.sound.intern h
  exact ⟨hr.trans hq, n, hget, stable_name n r q descriptor hq.keeps hname⟩

theorem Sound.internNameAndType (h : Pool.internNameAndType name descriptor p = .ok i q) :
    p.Grows q ∧ q.nameAndType i = .ok ⟨name, descriptor⟩ := by
  obtain ⟨n, r, hn, h⟩ := Interning.bind_eq_ok.mp h
  obtain ⟨d, s, hd, h⟩ := Interning.bind_eq_ok.mp h
  obtain ⟨hr, hname⟩ := hp.internName hn
  obtain ⟨hs, hdescriptor⟩ := hr.sound.internName hd
  obtain ⟨hq, hget⟩ := hs.sound.intern h
  refine ⟨hr.trans (hs.trans hq), ?_⟩
  have hname := stable_name n r q name (hs.trans hq).keeps hname
  have hdescriptor := stable_name d s q descriptor hq.keeps hdescriptor
  simp only [nameAndType, hget, bind, Except.bind, hname, hdescriptor]
  rfl

/-- A constant that is made of the class and the signature of a member names both. -/
theorem Sound.internOfMember {make : UInt16 → UInt16 → Constant}
    (h : (do Pool.intern (make (← Pool.internClass m.owner) (← Pool.internNameAndType m.name m.descriptor)) :
      Interning UInt16) p = .ok i q) :
    p.Grows q ∧ ∃ o n, q.get i = .ok (make o n) ∧ q.className o = .ok m.owner ∧
      q.nameAndType n = .ok ⟨m.name, m.descriptor⟩ := by
  obtain ⟨o, r, ho, h⟩ := Interning.bind_eq_ok.mp h
  obtain ⟨n, s, hn, h⟩ := Interning.bind_eq_ok.mp h
  obtain ⟨hr, howner, -⟩ := hp.internClass ho
  obtain ⟨hs, hsignature⟩ := hr.sound.internNameAndType hn
  obtain ⟨hq, hget⟩ := hs.sound.intern h
  exact ⟨hr.trans (hs.trans hq), o, n, hget, stable_className o r q m.owner (hs.trans hq).keeps howner,
    stable_nameAndType n s q _ hq.keeps hsignature⟩

theorem Sound.internField (h : Pool.internField m p = .ok i q) : p.Grows q ∧ q.member i = .ok (m, false) := by
  obtain ⟨hq, o, n, hget, howner, hsignature⟩ := hp.internOfMember h
  refine ⟨hq, ?_⟩
  simp only [member, hget, bind, Except.bind, howner, hsignature]
  rfl

theorem Sound.internMethod {isInterface : Bool} (h : Pool.internMethod m isInterface p = .ok i q) :
    p.Grows q ∧ q.member i = .ok (m, isInterface) := by
  obtain ⟨hq, o, n, hget, howner, hsignature⟩ := hp.internOfMember h
  refine ⟨hq, ?_⟩
  cases isInterface with
  | false =>
    rw [if_neg Bool.false_ne_true] at hget
    simp only [member, hget, bind, Except.bind, howner, hsignature]
    rfl
  | true =>
    rw [if_pos rfl] at hget
    simp only [member, hget, bind, Except.bind, howner, hsignature]
    rfl

end Interned

/-- What is interned entry by entry is all there at the end. -/
theorem Sound.mapM {f : α → Interning β} {P : Pool → α → β → Prop} {as : List α}
    (hstep : ∀ a ∈ as, ∀ p b q, p.Sound → f a p = .ok b q → p.Grows q ∧ P q a b)
    (hmono : ∀ q r a b, r.Extends q → P q a b → P r a b) {bs : List β} (hp : p.Sound)
    (h : as.mapM f p = .ok bs r) : p.Grows r ∧ List.Forall₂ (P r) as bs := by
  induction as generalizing p bs with
  | nil =>
    cases h
    exact ⟨hp.grows, .nil⟩
  | cons a as ih =>
    rw [List.mapM_cons] at h
    obtain ⟨b, q, hb, h⟩ := Interning.bind_eq_ok.mp h
    obtain ⟨_, s, hrest, h⟩ := Interning.bind_eq_ok.mp h
    cases h
    obtain ⟨hq, hP⟩ := hstep a List.mem_cons_self p b q hp hb
    obtain ⟨hr, hall⟩ := ih (fun c hc => hstep c (List.mem_cons_of_mem a hc)) hq.sound hrest
    exact ⟨hq.trans hr, .cons (hmono _ _ _ _ hr.keeps hP) hall⟩

end Pool

end Untangle
