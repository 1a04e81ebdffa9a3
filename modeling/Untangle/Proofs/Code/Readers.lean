import Untangle.Code.Decoding
import Untangle.Proofs.Bytes

/-!
# What a reader of code takes

A reader can be described from two sides. `Reads` says which bytes are enough for a result, whatever follows
them; `Takes` says which bytes were there whenever there is a result. Both are kept by the steps that readers
are made of, so that the two descriptions of a reader follow its text.
-/

namespace Untangle

open List

variable {d : List UInt8} {origin : Nat}

namespace CodeReader

variable {α β : Type}

/-! ### From bytes to results -/

/-- At offset `o`, the reader takes exactly these bytes and gives this result, whatever follows. -/
def Reads (read : CodeReader α) (o : Nat) (data : List UInt8) (a : α) : Prop :=
  ∀ rest, read ⟨o, data ++ rest⟩ = .ok (a, ⟨o + data.length, rest⟩)

theorem reads_pure (a : α) (o : Nat) : Reads (pure a) o [] a := fun _ => rfl

theorem Reads.bind {read : CodeReader α} {next : α → CodeReader β} {e : List UInt8} {a : α} {b : β}
    (h : Reads read o d a) (hn : Reads (next a) (o + d.length) e b) : Reads (read >>= next) o (d ++ e) b := by
  intro rest
  have hstep : (read >>= next) ⟨o, d ++ e ++ rest⟩ = next a ⟨o + d.length, e ++ rest⟩ := by
    simp [Bind.bind, StateT.bind, h (e ++ rest), Except.bind]
  rw [hstep, hn rest, length_append, Nat.add_assoc]

/-- What is read may be changed before it is returned. -/
theorem Reads.map {read : CodeReader α} {a : α} (h : Reads read o d a) (f : α → β) :
    Reads (do return f (← read)) o d (f a) := by
  have hb : Reads (read >>= fun x => pure (f x)) o (d ++ []) (f a) := h.bind (reads_pure (f a) _)
  rwa [append_nil] at hb

/-- A result that does not depend on the code takes no bytes. -/
theorem reads_lift {r : Except Error α} {a : α} (h : r = .ok a) (o : Nat) : Reads (liftM r) o [] a := by
  subst h
  exact fun _ => rfl

/-- What is read may be looked up before it is returned. -/
theorem Reads.find {γ : Type} {read : CodeReader α} {find : α → Except Error β} {a : α} {b : β} (h : Reads read o d a)
    (hb : find a = .ok b) (f : β → γ) : Reads (do return f (← find (← read))) o d (f b) := by
  have hf : Reads (read >>= fun x => liftM (find x) >>= fun y => pure (f y)) o (d ++ []) (f b) :=
    h.bind ((reads_lift hb _).map f)
  rwa [append_nil] at hf

theorem reads_u8 (x : UInt8) (o : Nat) : Reads u8 o [x] x := fun _ => rfl

theorem reads_u16 (n : UInt16) (o : Nat) : Reads u16 o (Bytes.be16 n) n := by
  intro _
  simp only [Bytes.be16, cons_append, u16, Bytes.join16_be16]
  rfl

theorem reads_i32 (n : Int32) (o : Nat) : Reads i32 o (Bytes.be32 n.toUInt32) n := by
  intro _
  simp only [Bytes.be32, cons_append, i32, Bytes.join32_be32]
  rfl

theorem reads_skip (data : List UInt8) (o : Nat) : Reads (skip data.length) o data () := by
  intro _
  simp [skip, Bytes.cut_append]

/-- Values are read back one after the other, each from the bytes of its entry. -/
theorem reads_repeated {read : CodeReader α} (bytes : β → List UInt8) (value : β → α) {entries : List β}
    (h : ∀ e ∈ entries, ∀ o, Reads read o (bytes e) (value e)) (done : List α) (o : Nat) :
    Reads (repeated read entries.length done) o (entries.flatMap bytes) (done.reverse ++ entries.map value) := by
  induction entries generalizing done o with
  | nil => simp [Reads, repeated]
  | cons e entries ih =>
    intro rest
    rw [flatMap_cons, append_assoc, length_cons, repeated]
    simp only [h e mem_cons_self o _]
    rw [ih (fun e' he' => h e' (mem_cons_of_mem e he')) (value e :: done) (o + (bytes e).length) rest]
    simp [Nat.add_assoc]

/-! ### From results to bytes -/

variable {o : Nat}

/-- Whenever the reader succeeds at offset `o`, the bytes that it took and its result are related. -/
def Takes (read : CodeReader α) (o : Nat) (P : List UInt8 → α → Prop) : Prop :=
  ∀ rest a next, read ⟨o, rest⟩ = .ok (a, next) →
    ∃ data, rest = data ++ next.rest ∧ next.offset = o + data.length ∧ P data a

theorem takes_pure {P : List UInt8 → α → Prop} {a : α} (h : P [] a) : Takes (pure a) o P := by
  intro _ b _ hr
  cases hr
  exact ⟨[], rfl, rfl, h⟩

theorem takes_throw {P : List UInt8 → α → Prop} (e : Error) : Takes (throw e : CodeReader α) o P := by
  intro _ b _ hr
  cases hr

/-- The bytes of two steps stand one after the other. -/
theorem Takes.bind {read : CodeReader α} {next : α → CodeReader β} {P : List UInt8 → α → Prop}
    {Q : List UInt8 → β → Prop} (h : Takes read o P)
    (hn : ∀ front a, P front a → Takes (next a) (o + front.length) fun back => Q (front ++ back)) :
    Takes (read >>= next) o Q := by
  intro rest b last hr
  simp only [Bind.bind, StateT.bind, Except.bind] at hr
  split at hr
  case h_1 => cases hr
  rename_i v hv
  obtain ⟨front, hrest, hoffset, hP⟩ := h rest v.1 v.2 hv
  have hcursor : v.2 = ⟨o + front.length, v.2.rest⟩ := by rw [← hoffset]
  rw [hcursor] at hr
  obtain ⟨back, hback, hlast, hQ⟩ := hn front v.1 hP v.2.rest b last hr
  refine ⟨front ++ back, ?_, ?_, hQ⟩
  · rw [hrest, hback, append_assoc]
  · rw [hlast, length_append, Nat.add_assoc]

theorem takes_lift (r : Except Error α) : Takes (liftM r : CodeReader α) o fun data a => data = [] ∧ r = .ok a := by
  intro _ b _ hr
  cases r with
  | error e => cases hr
  | ok a =>
    cases hr
    exact ⟨[], rfl, rfl, rfl, rfl⟩

theorem takes_u8 : Takes u8 o fun data n => data = [n] := by
  intro rest n _ hr
  unfold u8 at hr
  split at hr <;> cases hr
  rename_i rest heq
  cases heq
  exact ⟨[n], rfl, rfl, rfl⟩

theorem takes_u16 : Takes u16 o fun data n => data = Bytes.be16 n := by
  intro rest n _ hr
  unfold u16 at hr
  split at hr <;> cases hr
  rename_i a b rest heq
  cases heq
  exact ⟨[a, b], rfl, rfl, (Bytes.be16_join16 a b).symm⟩

theorem takes_i32 : Takes i32 o fun data n => data = Bytes.be32 n.toUInt32 := by
  intro rest n _ hr
  unfold i32 at hr
  split at hr <;> cases hr
  rename_i a b c d rest heq
  cases heq
  exact ⟨[a, b, c, d], rfl, rfl, (Bytes.be32_join32 a b c d).symm⟩

theorem takes_skip (n : Nat) : Takes (skip n) o fun data _ => data.length = n := by
  intro _ u _ hr
  unfold skip at hr
  split at hr
  case h_2 => cases hr
  rename_i hcut
  cases hr
  obtain ⟨taken, -, hn, hrest⟩ := Bytes.cut_eq_some hcut
  exact ⟨taken, hrest, by rw [hn], hn⟩

theorem takes_near (origin : Nat) :
    Takes (near origin) o fun data t => ∃ d : Int16, data = Bytes.be16 d.toUInt16 ∧ t = origin + d.toInt := by
  refine takes_u16.bind ?_
  rintro _ n rfl
  refine takes_pure ⟨n.toInt16, ?_, rfl⟩
  rw [append_nil, UInt16.toUInt16_toInt16]

theorem takes_far (origin : Nat) :
    Takes (far origin) o fun data t => ∃ d : Int32, data = Bytes.be32 d.toUInt32 ∧ t = origin + d.toInt := by
  refine takes_i32.bind ?_
  rintro _ d rfl
  exact takes_pure ⟨d, append_nil _, rfl⟩

section Operand

variable {P : List UInt8 → β → Prop}

/-- One byte, and nothing else. -/
theorem takes_byte {f : UInt8 → β} (h : ∀ n, P [n] (f n)) : Takes (do return f (← u8)) o P := by
  refine takes_u8.bind ?_
  rintro _ n rfl
  exact takes_pure (h n)

/-- Two bytes that are looked up. -/
theorem takes_find {find : UInt16 → Except Error α} {next : α → CodeReader β}
    (h : ∀ slot a, find slot = .ok a → Takes (next a) (o + 2) fun data => P (Bytes.be16 slot ++ data)) :
    Takes (u16 >>= fun slot => liftM (find slot) >>= next) o P := by
  refine takes_u16.bind ?_
  rintro _ slot rfl
  refine (takes_lift _).bind ?_
  rintro _ a ⟨rfl, ha⟩
  exact h slot a ha

/-- Two bytes that are looked up, and nothing else. -/
theorem takes_slot {find : UInt16 → Except Error α} {f : α → β}
    (h : ∀ slot a, find slot = .ok a → P (Bytes.be16 slot) (f a)) : Takes (do return f (← find (← u16))) o P :=
  takes_find fun slot a ha => takes_pure (h slot a ha)

/-- A displacement, and nothing else. -/
theorem takes_nearTarget {f : Int → β} (h : ∀ d : Int16, P (Bytes.be16 d.toUInt16) (f (origin + d.toInt))) :
    Takes (do return f (← near origin)) o P := by
  refine (takes_near origin).bind ?_
  rintro _ _ ⟨d, rfl, rfl⟩
  exact takes_pure (h d)

theorem takes_farTarget {f : Int → β} (h : ∀ d : Int32, P (Bytes.be32 d.toUInt32) (f (origin + d.toInt))) :
    Takes (do return f (← far origin)) o P := by
  refine (takes_far origin).bind ?_
  rintro _ _ ⟨d, rfl, rfl⟩
  exact takes_pure (h d)

end Operand

/-- Values are taken one after the other, each from the bytes of an entry. -/
theorem takes_repeated {read : CodeReader α} {bytes : β → List UInt8} {value : β → α}
    (h : ∀ o, Takes read o fun data a => ∃ e, data = bytes e ∧ a = value e) (n : Nat) (done : List α) (o : Nat) :
    Takes (repeated read n done) o fun data as =>
      ∃ entries : List β, entries.length = n ∧ data = entries.flatMap bytes ∧
        as = done.reverse ++ entries.map value := by
  induction n generalizing done o with
  | zero => exact takes_pure ⟨[], rfl, rfl, (append_nil _).symm⟩
  | succ n ih =>
    intro rest as next hr
    unfold repeated at hr
    split at hr
    case h_2 => cases hr
    rename_i a s hs
    obtain ⟨_, hrest, hoffset, e, rfl, rfl⟩ := h o rest a s hs
    obtain ⟨offset, rest'⟩ := s
    obtain ⟨_, hrest', hoffset', entries, hlength, rfl, rfl⟩ := ih (value e :: done) offset rest' as next hr
    dsimp only at hrest hoffset
    refine ⟨(e :: entries).flatMap bytes, ?_, ?_, e :: entries, by simp [hlength], rfl, by simp⟩
    · rw [hrest, hrest', flatMap_cons, append_assoc]
    · rw [hoffset', hoffset, flatMap_cons, length_append, Nat.add_assoc]

end CodeReader

end Untangle
