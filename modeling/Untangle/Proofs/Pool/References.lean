import Untangle.Proofs.Pool.Interning

/-!
# References into a pool

A member of a class is a tree of constants: the reference names slots for the class and for the signature, and
these name slots for texts. Parts that are there already are shared, also between references to different
members. Since a slot keeps what it holds and every text is read back as it was encoded, looking a slot up gives
what the slot was asked for, in the pool that the request leaves and in every pool after that, however many
requests come in between and whether or not they fail.
-/

namespace Untangle

variable {p q : Pool} {r : Request} {i : UInt16}

namespace Pool

/-- The pool after further requests, of which some may have failed. -/
def after (p : Pool) (requests : List Request) : Pool := requests.foldl (fun p r => r.slot.poolAfter p) p

/-- Looking the slot up gives what was asked for. -/
def Request.FoundAt (p : Pool) (i : UInt16) : Request → Prop
  | .constant c => p.get i = .ok c
  | .name text => p.name i = .ok text
  | .class owner => p.className i = .ok owner
  | .string text => p.string i = .ok text
  | .methodType descriptor => ∃ n, p.get i = .ok (.methodType n) ∧ p.name n = .ok descriptor
  | .nameAndType text descriptor => p.nameAndType i = .ok ⟨text, descriptor⟩
  | .field member => p.member i = .ok (member, false)
  | .method member isInterface => p.member i = .ok (member, isInterface)

/-! ### One request -/

theorem Countable.sound (h : p.Countable) : p.Sound := by
  obtain ⟨_, rfl⟩ := h.made
  exact sound_empty.foldl_append h.size_le

/-- The slot that a request is given holds what was asked for. -/
theorem Sound.foundAt_slot (hp : p.Sound) (h : r.slot p = .ok i q) : r.FoundAt q i := by
  cases r with
  | constant c => exact (hp.intern h).2
  | name text => exact (hp.internName h).2
  | «class» owner => exact (hp.internClass h).2.1
  | string text => exact (hp.internString h).2
  | methodType descriptor => exact (hp.internMethodType h).2
  | nameAndType text descriptor => exact (hp.internNameAndType h).2
  | field member => exact (hp.internField h).2
  | method member => exact (hp.internMethod h).2

/-- What is found in a slot is found there in every larger pool. -/
theorem Request.FoundAt.mono (h : r.FoundAt p i) (hq : q.Extends p) : r.FoundAt q i := by
  cases r with
  | constant c => exact stable_get i p q _ hq h
  | name text => exact stable_name i p q _ hq h
  | «class» owner => exact stable_className i p q _ hq h
  | string text => exact stable_string i p q _ hq h
  | methodType descriptor =>
    obtain ⟨n, hget, hname⟩ := h
    exact ⟨n, stable_get i p q _ hq hget, stable_name n p q _ hq hname⟩
  | nameAndType text descriptor => exact stable_nameAndType i p q _ hq h
  | field member => exact stable_member i p q _ hq h
  | method member => exact stable_member i p q _ hq h

/-! ### Any number of requests -/

/-- What every interning of a constant keeps holds after any requests. -/
theorem after_keeps {P : Pool → Prop} (h : ∀ c, (intern c).Keeps P) (hp : P p) (requests : List Request) :
    P (p.after requests) := by
  induction requests generalizing p with
  | nil => exact hp
  | cons r requests ih => exact ih (r.keeps_slot h p hp)

theorem keeps_extends (p : Pool) (c : Constant) : (intern c).Keeps (·.Extends p) := by
  intro q hq
  obtain hsame | hadded := poolAfter_intern q c
  · rwa [hsame]
  · rw [hadded]
    exact (extends_append q c).trans hq

theorem Countable.after (h : p.Countable) (requests : List Request) : (p.after requests).Countable :=
  after_keeps keeps_intern h requests

theorem extends_after (p : Pool) (requests : List Request) : (p.after requests).Extends p :=
  after_keeps (keeps_extends p) (.refl p) requests

/-- In a pool that started empty or was read, after any requests: if a request is given a slot, then looking that
slot up gives just what was asked for, after any further requests, whether they succeed or fail. -/
theorem slot_found_ever_after {start : Pool} (hstart : start.Started) (earlier later : List Request) {r : Request}
    {i : UInt16} {q : Pool} (h : r.slot (start.after earlier) = .ok i q) : r.FoundAt (q.after later) i := by
  have hsound := (hstart.countable.after earlier).sound
  exact (hsound.foundAt_slot h).mono (extends_after q later)

/-- A pool with a class, whose name is also that of a field. -/
def named : Pool := [Constant.utf8 [65], .class 1].foldl append empty

/-- A field and a method of the class, both called like the class itself. -/
def shared : List Request := [.field ⟨"A", "A", "I"⟩, .method ⟨"A", "A", "()V"⟩ false]

/-- Asked for the same method as that of an interface, the pool shares everything but the reference, and looking
its slot up gives the method of an interface, also after requests for a text that is no Unicode and for what the
slot holds. -/
theorem named_found_ever_after :
    named.Started ∧ (Request.method ⟨"A", "A", "()V"⟩ true).slot (named.after shared) =
        .ok 9 ((named.after shared).append (.interfaceMethodRef 2 7)) ∧
      (((named.after shared).append (.interfaceMethodRef 2 7)).after
        [.string ⟨[0xD800]⟩, .method ⟨"A", "A", "()V"⟩ true, .class "B"]).member 9 =
          .ok (⟨"A", "A", "()V"⟩, true) := by
  have hfits : named.Fits := ⟨⟨_, rfl, by simp [Constant.Fits]⟩, by decide⟩
  have hstart : named.Started := .read (read_bytes hfits [])
  have hslot : (Request.method ⟨"A", "A", "()V"⟩ true).slot (named.after shared) =
      .ok 9 ((named.after shared).append (.interfaceMethodRef 2 7)) := by rfl
  exact ⟨hstart, hslot, slot_found_ever_after hstart shared _ hslot⟩

end Pool

end Untangle
