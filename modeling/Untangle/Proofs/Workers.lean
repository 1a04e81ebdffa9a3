import Mathlib.Data.List.Perm.Basic
import Mathlib.Logic.Relation

/-!
# Workers

Tasks that are worked on at the same time. Any task that waits may be the next to be started, and any that was started
may be the next to be finished. A task gets its number when it is started.

However tasks are started and finished, each of them is waiting, being worked on or finished, and none of them twice,
and the numbers given out are those below the next one (`Crew.Accounts`).
-/

namespace Untangle

open List

/-- Tasks that wait, and tasks that are being worked on, with their numbers. -/
structure Crew (α : Type) where
  waiting : List α
  working : List (Nat × α) := []

namespace Crew

variable {α : Type}

/-- Some task is started under a number. -/
inductive Starts (c : Crew α) (number : Nat) : Crew α → Prop where
  | mk {pre post : List α} {a : α} (h : c.waiting = pre ++ a :: post) :
    Starts c number { waiting := pre ++ post, working := (number, a) :: c.working }

/-- A task is finished. -/
inductive Finishes (c : Crew α) (task : Nat × α) : Crew α → Prop where
  | mk {pre post : List (Nat × α)} (h : c.working = pre ++ task :: post) :
    Finishes c task { c with working := pre ++ post }

/-- Nothing is left to do. -/
def Idle (c : Crew α) : Prop := c.waiting = [] ∧ c.working = []

/-- Some task can be started or finished, unless nothing is left to do. -/
theorem idle_or_acts (c : Crew α) (number : Nat) :
    c.Idle ∨ (∃ c', c.Starts number c') ∨ ∃ task c', c.Finishes task c' := by
  cases hwaiting : c.waiting with
  | cons a rest => exact .inr (.inl ⟨_, @Starts.mk _ c number [] rest a hwaiting⟩)
  | nil =>
    cases hworking : c.working with
    | cons task rest => exact .inr (.inr ⟨task, _, @Finishes.mk _ c task [] rest hworking⟩)
    | nil => exact .inl ⟨hwaiting, hworking⟩

theorem Idle.not_starts {c c' : Crew α} (h : c.Idle) {number : Nat} : ¬ c.Starts number c' := by
  rintro ⟨hwaiting⟩
  rw [h.1] at hwaiting
  simp at hwaiting

theorem Idle.not_finishes {c c' : Crew α} (h : c.Idle) {task : Nat × α} : ¬ c.Finishes task c' := by
  rintro ⟨hworking⟩
  rw [h.2] at hworking
  simp at hworking

/-- How often the crew can still act. -/
def load (c : Crew α) : Nat := 2 * c.waiting.length + c.working.length

theorem Starts.load {c c' : Crew α} {number : Nat} (h : c.Starts number c') : c.load = c'.load + 1 := by
  obtain ⟨h⟩ := h
  simp only [Crew.load, h, length_append, length_cons]
  omega

theorem Finishes.load {c c' : Crew α} {task : Nat × α} (h : c.Finishes task c') : c.load = c'.load + 1 := by
  obtain ⟨h⟩ := h
  simp only [Crew.load, h, length_append, length_cons]
  omega

/-! ### Every task once -/

/-- Of all tasks, these are finished; numbers below the next one were given out. -/
structure Accounts (c : Crew α) (all : List α) (done : List (Nat × α)) (next : Nat) : Prop where
  tasks : ((done ++ c.working).map Prod.snd ++ c.waiting).Perm all
  numbers : ((done ++ c.working).map Prod.fst).Perm (List.range next)

theorem accounts_start (all : List α) : ({ waiting := all } : Crew α).Accounts all [] 0 := ⟨.refl _, .refl _⟩

namespace Accounts

variable {c c' : Crew α} {all : List α} {done : List (Nat × α)} {next : Nat} (h : c.Accounts all done next)

include h

theorem starts (hs : c.Starts next c') : c'.Accounts all done (next + 1) := by
  cases hs with
  | @mk pre post a hwaiting =>
    have hworking : (done ++ (next, a) :: c.working).Perm ((next, a) :: (done ++ c.working)) := perm_middle
    constructor
    · calc ((done ++ (next, a) :: c.working).map Prod.snd ++ (pre ++ post)).Perm
            (a :: ((done ++ c.working).map Prod.snd ++ (pre ++ post))) := (hworking.map Prod.snd).append_right _
        _ |>.Perm ((done ++ c.working).map Prod.snd ++ a :: (pre ++ post)) := perm_middle.symm
        _ |>.Perm ((done ++ c.working).map Prod.snd ++ (pre ++ a :: post)) := .append_left _ perm_middle.symm
        _ |>.Perm all := hwaiting ▸ h.tasks
    · calc ((done ++ (next, a) :: c.working).map Prod.fst).Perm (next :: (done ++ c.working).map Prod.fst) :=
            hworking.map Prod.fst
        _ |>.Perm (next :: range next) := h.numbers.cons _
        _ |>.Perm (range (next + 1)) := by
          rw [range_succ]
          exact (perm_append_singleton _ _).symm

theorem finishes {task : Nat × α} (hf : c.Finishes task c') : c'.Accounts all (done ++ [task]) next := by
  cases hf with
  | @mk pre post hworking =>
    have hdone : (done ++ [task] ++ (pre ++ post)).Perm (done ++ c.working) := by
      have hmiddle : (task :: (pre ++ post)).Perm (pre ++ task :: post) := perm_middle.symm
      rw [hworking, append_assoc]
      exact hmiddle.append_left done
    exact ⟨((hdone.map Prod.snd).append_right _).trans h.tasks, (hdone.map Prod.fst).trans h.numbers⟩

/-- In the end every task is finished, under numbers from 0 on. -/
theorem of_idle (hidle : c.Idle) : (done.map Prod.snd).Perm all ∧ (done.map Prod.fst).Perm (List.range all.length) := by
  have htasks := h.tasks
  have hnumbers := h.numbers
  rw [hidle.1, hidle.2, append_nil, append_nil] at htasks
  rw [hidle.2, append_nil] at hnumbers
  have hlength : next = all.length := by
    rw [← htasks.length_eq, length_map, ← length_map, hnumbers.length_eq, length_range]
  exact ⟨htasks, hlength ▸ hnumbers⟩

end Accounts

end Crew

end Untangle
