import Mathlib.Data.List.Forall2
import Untangle.Pool

/-!
# Computations that can fail

When a computation in several steps succeeds: each of its steps does, and gives what the next one
starts from.
-/

namespace Untangle

open List

variable {ε α β : Type} {f : α → Except ε β} {xs : List α} {ys : List β}

/-! ### Without a state -/

/-- A computation in two steps succeeds if both do. -/
theorem bind_eq_ok {x : Except ε α} {b : β} : (x >>= f) = .ok b ↔ ∃ a, x = .ok a ∧ f a = .ok b := by
  cases x with
  | error e => simp [bind, Except.bind]
  | ok a => simp [bind, Except.bind]

theorem bind_eq_error {x : Except ε α} {e : ε} :
    (x >>= f) = .error e ↔ x = .error e ∨ ∃ a, x = .ok a ∧ f a = .error e := by
  cases x with
  | error => simp [bind, Except.bind]
  | ok a => simp [bind, Except.bind]

theorem map_eq_ok {x : Except ε α} {f : α → β} {b : β} : x.map f = .ok b ↔ ∃ a, x = .ok a ∧ f a = b := by
  cases x with
  | error e => simp [Except.map]
  | ok a => simp [Except.map]

/-- A computation for each entry of a list succeeds if each of them does. -/
theorem mapM_eq_ok : xs.mapM f = .ok ys ↔ List.Forall₂ (fun x y => f x = .ok y) xs ys := by
  induction xs generalizing ys with
  | nil =>
    rw [forall₂_nil_left_iff]
    exact ⟨fun h => (by cases h; rfl), fun h => (by rw [h]; rfl)⟩
  | cons x xs ih =>
    rw [mapM_cons, forall₂_cons_left_iff]
    simp only [bind_eq_ok, ih]
    constructor
    · rintro ⟨y, hy, ys, hys, h⟩
      cases h
      exact ⟨y, ys, hy, hys, rfl⟩
    · rintro ⟨y, ys, hy, hys, rfl⟩
      exact ⟨y, hy, ys, hys, rfl⟩

theorem exists_of_forall₂_left {R : α → β → Prop} (h : List.Forall₂ R xs ys) {x : α} (hx : x ∈ xs) :
    ∃ y ∈ ys, R x y := by
  induction h with
  | nil => cases hx
  | cons hxy _ ih =>
    rcases mem_cons.mp hx with rfl | hx
    · exact ⟨_, mem_cons_self, hxy⟩
    · obtain ⟨y, hy, hr⟩ := ih hx
      exact ⟨y, mem_cons_of_mem _ hy, hr⟩

theorem exists_of_forall₂_right {R : α → β → Prop} (h : List.Forall₂ R xs ys) {y : β} (hy : y ∈ ys) : ∃ x ∈ xs, R x y :=
  exists_of_forall₂_left h.flip hy

/-- What a list of results holds was computed from an entry of the list. -/
theorem exists_of_mem_mapM (h : xs.mapM f = .ok ys) {y : β} (hy : y ∈ ys) : ∃ x ∈ xs, f x = .ok y :=
  exists_of_forall₂_right (mapM_eq_ok.mp h) hy

theorem exists_mapM_eq_ok : (∃ ys, xs.mapM f = .ok ys) ↔ ∀ x ∈ xs, ∃ y, f x = .ok y := by
  constructor
  · rintro ⟨ys, h⟩ x hx
    obtain ⟨y, -, hy⟩ := exists_of_forall₂_left (mapM_eq_ok.mp h) hx
    exact ⟨y, hy⟩
  · intro h
    induction xs with
    | nil => exact ⟨[], rfl⟩
    | cons x xs ih =>
      obtain ⟨y, hy⟩ := h x mem_cons_self
      obtain ⟨ys, hys⟩ := ih fun x' hx' => h x' (mem_cons_of_mem x hx')
      exact ⟨y :: ys, mapM_eq_ok.mpr (.cons hy (mapM_eq_ok.mp hys))⟩

/-- A loop succeeds, wherever it starts, if every step does, wherever it starts. -/
theorem exists_foldlM_eq_ok {σ : Type} {step : σ → α → Except ε σ} {P : α → Prop}
    (h : ∀ s a, (∃ s', step s a = .ok s') ↔ P a) {as : List α} {s : σ} :
    (∃ s', as.foldlM step s = .ok s') ↔ ∀ a ∈ as, P a := by
  induction as generalizing s with
  | nil => exact ⟨fun _ => by simp, fun _ => ⟨s, rfl⟩⟩
  | cons a as ih =>
    rw [forall_mem_cons, ← h s a]
    constructor
    · rintro ⟨last, hlast⟩
      obtain ⟨next, hnext, hrest⟩ := bind_eq_ok.mp hlast
      exact ⟨⟨next, hnext⟩, ih.mp ⟨last, hrest⟩⟩
    · rintro ⟨⟨next, hnext⟩, hall⟩
      obtain ⟨last, hlast⟩ := (ih).mpr hall
      exact ⟨last, bind_eq_ok.mpr ⟨next, hnext, hlast⟩⟩

/-- A loop that only checks passes if every check does. -/
theorem forIn_eq_ok {f : α → Unit → Except Error (ForInStep Unit)} {P : α → Prop}
    (h : ∀ a, P a ∧ f a () = .ok (.yield ()) ∨ ¬ P a ∧ ∃ e, f a () = .error e) {u : Unit} :
    forIn xs () f = .ok u ↔ ∀ a ∈ xs, P a := by
  induction xs with
  | nil => exact ⟨fun _ => by simp, fun _ => rfl⟩
  | cons a xs ih =>
    rw [forIn_cons, forall_mem_cons]
    rcases h a with ⟨ha, hf⟩ | ⟨ha, e, hf⟩
    · rw [hf]
      exact ⟨fun h => ⟨ha, ih.mp h⟩, fun h => ih.mpr h.2⟩
    · rw [hf]
      exact ⟨fun h => (by cases h), fun h => absurd h.1 ha⟩

/-- What every step of a loop does to its state, if it can be done over and over, so does the loop. -/
theorem rel_of_foldlM {σ : Type} {step : σ → α → Except ε σ} {R : σ → σ → Prop} (hrefl : ∀ s, R s s)
    (htrans : ∀ s t u, R s t → R t u → R s u) {as : List α}
    (hstep : ∀ a ∈ as, ∀ s s', step s a = .ok s' → R s s') {s s' : σ} (h : as.foldlM step s = .ok s') : R s s' := by
  induction as generalizing s with
  | nil =>
    cases h
    exact hrefl _
  | cons a as ih =>
    obtain ⟨t, ht, h⟩ := bind_eq_ok.mp h
    exact htrans s t s' (hstep a mem_cons_self s t ht) (ih (fun b hb => hstep b (mem_cons_of_mem a hb)) h)

/-! ### With a pool -/

namespace Interning

/-- A computation in two steps succeeds if both do. -/
theorem bind_eq_ok {m : Interning α} {f : α → Interning β} {p r : Pool} {b : β} :
    (m >>= f) p = .ok b r ↔ ∃ a q, m p = .ok a q ∧ f a q = .ok b r := by
  simp only [bind, EStateM.bind]
  cases hm : m p with
  | ok a q => exact ⟨fun h => ⟨a, q, rfl, h⟩, fun h => (by obtain ⟨_, _, h, hb⟩ := h; cases h; exact hb)⟩
  | error e q => exact ⟨fun h => (by cases h), fun h => (by obtain ⟨_, _, h, -⟩ := h; cases h)⟩

@[simp] theorem liftM_eq_lift (x : Except Error α) : (liftM x : Interning α) = lift x := rfl

theorem lift_eq_ok {x : Except Error α} {p q : Pool} {a : α} : lift x p = .ok a q ↔ x = .ok a ∧ p = q := by
  cases x with
  | ok v => exact ⟨fun h => (by cases h; exact ⟨rfl, rfl⟩), fun h => (by obtain ⟨h, rfl⟩ := h; cases h; rfl)⟩
  | error e => exact ⟨fun h => (by cases h), fun h => (by cases h.1)⟩

/-- A result that does not depend on the pool is handed on with the pool as it is. -/
theorem lift_bind {x : Except Error α} {a : α} (hx : x = .ok a) (f : α → Interning β) :
    (liftM x : Interning α) >>= f = f a := by
  subst hx
  rfl

end Interning

end Untangle
