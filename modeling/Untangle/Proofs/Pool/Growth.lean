import Untangle.Code.Assembly
import Untangle.Proofs.Code.WellFormed
import Untangle.Proofs.Pool

/-!
# Pools grow at the end

Whatever interns constants leaves those that were there alone and adds new ones behind them, never more
than there are slot numbers. So does encoding a body. Failing is for want of a slot number or of a descriptor
that can be read, as long as the machine has an opcode for everything and every label has an offset.
-/

namespace Untangle

open List

variable {i : UInt16} {c : Constant}

/-- Text in the one encoding that it is written in; other constants have only one form. -/
def Constant.Canonical (c : Constant) : Prop := ∀ data, c = .utf8 data → ∃ text, data = ModifiedUtf8.encode text

theorem Constant.canonical_utf8 (text : Utf16) : (utf8 (ModifiedUtf8.encode text)).Canonical := by
  rintro _ ⟨⟩
  exact ⟨text, rfl⟩

namespace Pool

/-- The larger pool is the smaller one with new constants added behind, as long as there are slots. -/
inductive Lengthened (p : Pool) : Pool → Prop
  | refl : Lengthened p p
  | append {q : Pool} {c : Constant} (h : Lengthened p q) (hnew : q.index[c.key]? = none)
      (hroom : q.size + c.width ≤ 65535) (hc : c.Canonical) : Lengthened p (q.append c)

namespace Lengthened

variable {p q r : Pool}

theorem trans (hq : p.Lengthened q) (hr : q.Lengthened r) : p.Lengthened r := by
  induction hr with
  | refl => exact hq
  | append _ hnew hroom hc ih => exact ih.append hnew hroom hc

section

variable (h : p.Lengthened q)

include h

theorem exists_foldl : ∃ cs : List Constant, q = cs.foldl Pool.append p := by
  induction h with
  | refl => exact ⟨[], rfl⟩
  | @append q c _ _ _ _ ih =>
    obtain ⟨cs, rfl⟩ := ih
    exact ⟨cs ++ [c], by rw [foldl_append]; rfl⟩

theorem size_le (hp : p.size ≤ 65535) : q.size ≤ 65535 := by
  cases h with
  | refl => exact hp
  | append => rwa [size_append]

theorem sound (hp : p.Sound) : q.Sound := by
  induction h with
  | refl => exact hp
  | append _ _ _ _ ih =>
    exact ih.append (by omega)

/-- The slots of the smaller pool come first in the larger one. -/
theorem slots_prefix : p.slots.toList <+: q.slots.toList := by
  induction h with
  | refl => exact prefix_refl _
  | @append q c _ _ _ _ ih =>
    obtain ⟨more, hmore⟩ := slots_append q c
    refine ih.trans ⟨some c :: more.toList, ?_⟩
    rw [hmore]
    simp

/-- The slots of the smaller pool hold the same in the larger one, or nothing as before. -/
theorem getElem?_of_lt {i : Nat} (hi : i < p.size) : q.slots[i]? = p.slots[i]? := by
  obtain ⟨_, hmore⟩ := h.slots_prefix
  rw [← Array.getElem?_toList, ← Array.getElem?_toList, ← hmore, getElem?_append_left (by simpa [size] using hi)]

theorem index_eq {k : List Nat} (hi : p.index[k]? = some i) : q.index[k]? = some i := by
  induction h with
  | refl => exact hi
  | append _ hnew _ _ ih =>
    rw [index_append, Std.TreeMap.getElem?_insertIfNew, if_neg, ih]
    rintro ⟨hkey, -⟩
    rw [Std.compare_eq_iff_eq.mp hkey, ih] at hnew
    cases hnew

/-- A constant that was added is in its canonical form, and the index leads to it. -/
theorem added {i : Nat} (hi : p.size ≤ i) (hc : q.slots[i]? = some (some c)) :
    c.Canonical ∧ q.index[c.key]? = some (UInt16.ofNat i) := by
  induction h with
  | refl =>
    rw [Array.getElem?_eq_none hi] at hc
    cases hc
  | @append q d _ hnew hroom hd ih =>
    have hlast : Lengthened q (q.append d) := refl.append hnew hroom hd
    -- either the constant was there before, or it is the last one, in the first of the new slots
    by_cases hold : i < q.size
    · rw [hlast.getElem?_of_lt hold] at hc
      exact ⟨(ih hc).1, hlast.index_eq (ih hc).2⟩
    · obtain ⟨rfl, rfl⟩ : i = q.size ∧ c = d := eq_of_slots_append (by omega) hc
      exact ⟨hd, index_append_self hnew⟩

/-- A name that only the larger pool has, if it can be shown as it is, is the one that was interned. -/
theorem name_eq_ok_iff {text : String} (htext : '�' ∉ text.toList) {slot : UInt16}
    (hslot : q.index[(Constant.utf8 (ModifiedUtf8.encode (.ofString text))).key]? = some slot)
    (hi : i ≠ slot) : q.name i = .ok text ↔ p.name i = .ok text := by
  by_cases hlt : i.toNat < p.size
  · have hget : q.get i = p.get i := by rw [get, get, h.getElem?_of_lt hlt]
    rw [name, name, utf8, utf8, hget]
  · constructor
    · intro hname
      obtain ⟨t, hutf8, hlossy⟩ := bind_eq_ok.mp hname
      obtain rfl : t.lossy = text := Except.ok.inj hlossy
      obtain ⟨c, hget, hdecode⟩ := bind_eq_ok.mp hutf8
      -- interning filled the slot, so its text is canonical and the index leads back to the slot
      obtain ⟨hcanonical, hindex⟩ := h.added (not_lt.mp hlt) (get_eq_ok.mp hget)
      split at hdecode
      · rename_i data
        obtain ⟨_, rfl⟩ := hcanonical data rfl
        rw [ModifiedUtf8.decode_encode] at hdecode
        cases hdecode
        rw [← Utf16.eq_ofString_of_lossy htext, hindex, UInt16.ofNat_toNat] at hslot
        exact absurd (Option.some.inj hslot) hi
      · cases hdecode
    · intro hname
      obtain ⟨t, hutf8, -⟩ := bind_eq_ok.mp hname
      obtain ⟨c, hget, -⟩ := bind_eq_ok.mp hutf8
      exact absurd (getElem?_eq_some_iff.mp (get_eq_ok.mp hget)).1 hlt

end

end Lengthened

end Pool

/-! ### Computations -/

/-- The body is too large, or a descriptor cannot be read. -/
def Error.IsLimit : Error → Prop
  | constantPoolOverflow | codeTooLarge | invalidDescriptor _ => True
  | _ => False

namespace Interning

open Pool

variable {α β : Type} {P : Error → Prop}

/-- The computation only adds constants at the end, and fails in no other way than this. -/
structure Adds (m : Interning α) (P : Error → Prop) : Prop where
  lengthens : ∀ p a q, m p = .ok a q → p.Lengthened q
  fails : ∀ p e q, m p = .error e q → P e

theorem adds_pure (a : α) : Adds (pure a) P := by
  refine ⟨fun p b q h => ?_, fun p e q h => ?_⟩
  · cases h
    exact .refl
  · cases h

theorem adds_throw {e : Error} (h : P e) : Adds (throw e : Interning α) P := by
  refine ⟨fun p a q hr => ?_, fun p e q hr => ?_⟩
  · cases hr
  · cases hr
    exact h

theorem adds_lift {x : Except Error α} (h : ∀ e, x = .error e → P e) : Adds (lift x) P := by
  cases x with
  | ok a => exact adds_pure a
  | error e => exact adds_throw (h e rfl)

theorem Adds.bind {m : Interning α} {f : α → Interning β} (hm : m.Adds P) (hf : ∀ a p q, m p = .ok a q → (f a).Adds P) :
    (m >>= f).Adds P := by
  refine ⟨fun p b r h => ?_, fun p e r h => ?_⟩
  · obtain ⟨a, q, ha, hb⟩ := bind_eq_ok.mp h
    exact (hm.lengthens p a q ha).trans ((hf a p q ha).lengthens q b r hb)
  · simp only [Bind.bind, EStateM.bind] at h
    split at h
    · rename_i a q ha
      exact (hf a p q ha).fails q e r h
    · rename_i q he
      cases h
      exact hm.fails p _ _ he

theorem adds_mapM {f : α → Interning β} {as : List α} (h : ∀ a ∈ as, (f a).Adds P) : (as.mapM f).Adds P := by
  induction as with
  | nil =>
    exact adds_pure _
  | cons a as ih =>
    rw [forall_mem_cons] at h
    rw [mapM_cons]
    exact h.1.bind fun b _ _ _ => Adds.bind (ih h.2) fun bs _ _ _ => adds_pure _

/-- Each entry of a list was interned into a pool on the way from the first to the last. -/
theorem forall₂_of_mapM {f : α → Interning β} (hf : ∀ a, (f a).Adds P) {as : List α} {bs : List β}
    (h : as.mapM f p = .ok bs r) :
    List.Forall₂ (fun a b => ∃ q q', p.Lengthened q ∧ f a q = .ok b q' ∧ q'.Lengthened r) as bs := by
  induction as generalizing p bs with
  | nil =>
    cases h
    exact .nil
  | cons a as ih =>
    have hlast := adds_mapM fun a (_ : a ∈ as) => hf a
    rw [mapM_cons] at h
    obtain ⟨b, q, hb, h⟩ := bind_eq_ok.mp h
    obtain ⟨rest, s, hrest, h⟩ := bind_eq_ok.mp h
    cases h
    refine .cons ⟨p, q, .refl, hb, hlast.lengthens q rest r hrest⟩ ((ih hrest).imp ?_)
    rintro _ _ ⟨q₁, q₂, hq₁, hb', hq₂⟩
    exact ⟨q₁, q₂, ((hf a).lengthens p b q hb).trans hq₁, hb', hq₂⟩

end Interning

/-! ### Interning -/

namespace Pool

open Interning

variable {P : Error → Prop} (h : ∀ e : Error, e.IsLimit → P e)

include h

theorem adds_intern (hc : c.Canonical) : (intern c).Adds P := by
  refine ⟨fun p i q hi => ?_, fun p e q he => ?_⟩
  · unfold intern at hi
    split at hi
    · cases hi
      exact .refl
    · rename_i hnew
      split at hi
      · cases hi
      · cases hi
        exact Lengthened.refl.append hnew (by omega) hc
  · unfold intern at he
    split at he
    · cases he
    · split at he
      · cases he
        exact h _ trivial
      · cases he

theorem adds_internUtf8 (text : Utf16) : (internUtf8 text).Adds P := adds_intern h (Constant.canonical_utf8 text)

theorem adds_internName (text : String) : (internName text).Adds P := adds_internUtf8 h _

theorem adds_internClass (name : String) : (internClass name).Adds P :=
  (adds_internName h name).bind fun _ _ _ _ => adds_intern h (by nofun)

theorem adds_internString (text : Utf16) : (internString text).Adds P :=
  (adds_internUtf8 h text).bind fun _ _ _ _ => adds_intern h (by nofun)

theorem adds_internMethodType (descriptor : String) : (internMethodType descriptor).Adds P :=
  (adds_internName h descriptor).bind fun _ _ _ _ => adds_intern h (by nofun)

theorem adds_internNameAndType (name descriptor : String) : (internNameAndType name descriptor).Adds P :=
  (adds_internName h name).bind fun _ _ _ _ =>
    (adds_internName h descriptor).bind fun _ _ _ _ => adds_intern h (by nofun)

theorem adds_internField (m : Member) : (internField m).Adds P :=
  (adds_internClass h m.owner).bind fun _ _ _ _ =>
    (adds_internNameAndType h m.name m.descriptor).bind fun _ _ _ _ => adds_intern h (by nofun)

theorem adds_internMethod (m : Member) (isInterface : Bool) : (internMethod m isInterface).Adds P :=
  (adds_internClass h m.owner).bind fun _ _ _ _ =>
    (adds_internNameAndType h m.name m.descriptor).bind fun _ _ _ _ => adds_intern h (by split <;> nofun)

omit h

/-- The index leads to the slot that was given out. -/
theorem index_of_intern (h : intern c p = .ok i q) : q.index[c.key]? = some i := by
  unfold intern at h
  split at h
  · rename_i hi
    cases h
    exact hi
  · rename_i hnew
    split at h
    · cases h
    · cases h
      exact index_append_self hnew

end Pool

/-! ### Encoding -/

namespace Encoding

open Interning Pool

variable {P : Error → Prop} (h : ∀ e : Error, e.IsLimit → P e)

include h

theorem adds_literal (value : Literal) : (literal value).Adds P := by
  unfold literal
  split
  · split
    · exact adds_pure _
    · split
      · exact adds_pure _
      · split
        · exact adds_pure _
        · exact (adds_intern h (by nofun)).bind fun _ _ _ _ => adds_pure _
  · split
    · exact adds_pure _
    · exact (adds_intern h (by nofun)).bind fun _ _ _ _ => adds_pure _
  · split
    · exact adds_pure _
    · exact (adds_intern h (by nofun)).bind fun _ _ _ _ => adds_pure _
  · split
    · exact adds_pure _
    · exact (adds_intern h (by nofun)).bind fun _ _ _ _ => adds_pure _
  · exact (adds_internString h _).bind fun _ _ _ _ => adds_pure _
  · exact adds_pure _
  · exact (adds_internClass h _).bind fun _ _ _ _ => adds_pure _
  · exact (adds_internMethodType h _).bind fun _ _ _ _ => adds_pure _
  · exact adds_pure _
  · exact adds_pure _

theorem adds_parse (text : String) : (lift (MethodDescriptor.parse text)).Adds P := by
  refine adds_lift fun e he => h e ?_
  unfold MethodDescriptor.parse at he
  split at he
  · cases he
  · cases he
    trivial

/-- Only arithmetic that the machine does not have cannot be written. -/
theorem adds_chunk {i : Instr} (hi : i.HasOpcode ∨ ∀ e, P e) : (chunk i).Adds P := by
  cases i with
  | push value => exact (adds_literal h value).bind fun _ _ _ _ => adds_pure _
  | field op member => exact (adds_internField h member).bind fun _ _ _ _ => adds_pure _
  | typed op name => exact (adds_internClass h name).bind fun _ _ _ _ => adds_pure _
  | newMultiArray name => exact (adds_internClass h name).bind fun _ _ _ _ => adds_pure _
  | invoke kind member isInterface =>
    refine (adds_internMethod h member isInterface).bind fun _ _ _ _ => ?_
    split
    · exact (adds_parse h member.descriptor).bind fun _ _ _ _ => adds_pure _
    · exact adds_pure _
  | math kind op =>
    simp only [chunk]
    split
    · exact adds_pure _
    · rename_i hop
      refine adds_throw (hi.elim (fun hi => ?_) fun hall => hall _)
      rw [Instruction.HasOpcode, hop] at hi
      cases hi
  | increment =>
    simp only [chunk]
    split
    · exact adds_pure _
    · exact adds_pure _
  | leave kind => cases kind <;> exact adds_pure _
  | label | line | jump | callSub | branch | tableSwitch | lookupSwitch | load | store | leaveSub
  | invokeDynamic | newArray | stack | raise | plain => exact adds_pure _

theorem adds_chunks {is : List Instr} (his : ∀ i ∈ is, i.HasOpcode ∨ ∀ e, P e) (done : List Chunk) :
    (chunks done is).Adds P := by
  induction is generalizing done with
  | nil => exact adds_pure _
  | cons i is ih =>
    have hsteps : chunks done (i :: is) = chunk i >>= fun c => chunks (c :: done) is := by
      funext p
      simp only [chunks, bind, EStateM.bind]
      cases chunk i p <;> rfl
    rw [forall_mem_cons] at his
    rw [hsteps]
    exact (adds_chunk h his.1).bind fun c _ _ _ => ih his.2 (c :: done)

end Encoding

namespace Assembly

open Interning Pool

variable {P : Error → Prop} (h : ∀ e : Error, e.IsLimit → P e)

include h

theorem adds_range {resolve : Label → Except Error Nat} {r : Range}
    (hr : ∀ l ∈ [r.start, r.stop, r.handler], ∀ e, resolve l = .error e → P e) : (range resolve r).Adds P := by
  refine (adds_lift (hr r.start (by simp))).bind fun start _ _ _ => ?_
  refine (adds_lift (hr r.stop (by simp))).bind fun stop _ _ _ => ?_
  split
  · exact adds_pure _
  · refine (adds_lift (hr r.handler (by simp))).bind fun handler _ _ _ => ?_
    split
    · exact (adds_internClass h _).bind fun _ _ _ _ => adds_pure _
    · exact (adds_pure _).bind fun _ _ _ _ => adds_pure _

theorem adds_placedVariable (marks : Std.TreeMap Label Nat) (v : Variable) : (placedVariable marks v).Adds P := by
  unfold placedVariable
  split
  · split
    · exact (adds_internName h _).bind fun _ _ _ _ => (adds_internName h _).bind fun _ _ _ _ => adds_pure _
    · exact adds_pure _
  · exact adds_pure _

theorem adds_table (name : String) (data : List α → List UInt8) (es : List α) : (table name data es).Adds P := by
  unfold table
  split
  · exact adds_pure _
  · exact (adds_internName h _).bind fun _ _ _ _ => adds_pure _

omit h

/-- Encoding a body only adds constants at the end. -/
theorem adds_assemble (b : Body) : (assemble b).Adds fun _ => True := by
  have h : ∀ e : Error, e.IsLimit → True := fun _ _ => trivial
  refine (Encoding.adds_chunks h (fun _ _ => .inr fun _ => trivial) _).bind fun cs _ _ _ => ?_
  refine (adds_lift fun _ _ => trivial).bind fun l _ _ _ => ?_
  split
  on_goal 1 => refine (adds_throw trivial).bind fun _ _ _ _ => ?_
  all_goals
    refine (adds_lift fun _ _ => trivial).bind fun code _ _ _ => ?_
    refine (adds_mapM fun r _ => adds_range h fun _ _ _ _ => trivial).bind fun ranges _ _ _ => ?_
    refine (adds_mapM fun v _ => adds_placedVariable h _ v).bind fun locals _ _ _ => ?_
    exact (adds_table h _ _ _).bind fun _ _ _ _ => (adds_table h _ _ _).bind fun _ _ _ _ => adds_pure _

end Assembly

end Untangle
