import Untangle.Deobfuscator
import Untangle.Proofs.Workers

/-!
# Many classes at once

Classes are worked on at the same time: any class that waits may be started next, which gives it the next number, and
any that was started may be done next, which puts its result behind those that are there. `Batch.Step` is such a
step. Steps are taken until none is left, which is always reached (`Batch.wellFounded_step`).

Whatever the order was, the results come out in the order in which the classes were given, and each is what becomes
of the class alone. Only the numbers depend on the order, and they are those from 0 on. The exception is an overflow
in one of the classes: then nothing comes out.
-/

namespace Untangle

open List

variable {d : Deobfuscator} {data : List UInt8} {s : Batch} {done : List (Nat × (String × List UInt8) × Nat)}

/-! ### One class -/

namespace Deobfuscator

/-- The number of a class is only noted. -/
theorem runOn_number (d : Deobfuscator) (u : ClassUnit) (data : List UInt8) (number : Nat) :
    d.runOn u data number = (d.runOn u data 0).map fun r => { r with number } := by
  unfold runOn
  cases d.engine.run u {} with
  | error e => rfl
  | ok r =>
    simp only [bind, Except.bind]
    split
    · cases r.1.bytes <;> rfl
    · rfl

theorem run_number (d : Deobfuscator) (data : List UInt8) (number : Nat) :
    d.run data number = (d.run data 0).map fun r => { r with number } := by
  unfold run
  cases ClassUnit.parse data with
  | error e => rfl
  | ok u => exact d.runOn_number u data number

/-- Working on a class ends in an overflow. -/
def overflows (d : Deobfuscator) (data : List UInt8) : Bool :=
  match d.run data 0 with
  | .ok _ => false
  | .error e => e.isOverflow

end Deobfuscator

/-- What becomes of a class is put behind the results, unless there was an overflow. -/
theorem Gathering.put_run (g : Gathering) (place : Nat) (name : String) (h : d.overflows data = false) (number : Nat) :
    g.put place name (d.run data number) =
      { g with results := g.results ++ [(place, name, d.run data number)] } := by
  unfold Deobfuscator.overflows at h
  rw [d.run_number]
  cases hrun : d.run data 0 with
  | ok r => rfl
  | error e =>
    rw [hrun] at h
    show (if e.isOverflow then _ else _) = _
    rw [if_neg (Bool.eq_false_iff.mp h)]
    rfl

/-- An overflow stops everything. -/
theorem Gathering.put_overflow (g : Gathering) (place : Nat) (name : String) (h : d.overflows data = true)
    (number : Nat) :
    ∃ e, e.isOverflow = true ∧
      g.put place name (d.run data number) = { g with stopped := g.stopped.or (some e) } := by
  unfold Deobfuscator.overflows at h
  rw [d.run_number]
  cases hrun : d.run data 0 with
  | ok r =>
    rw [hrun] at h
    cases h
  | error e =>
    rw [hrun] at h
    refine ⟨e, h, ?_⟩
    show (if e.isOverflow then _ else _) = _
    rw [if_pos h]

theorem Gathering.numbered_put (g : Gathering) (place : Nat) (name : String) (r : Except Error Deobfuscated) :
    (g.put place name r).numbered = g.numbered := by
  cases r with
  | ok r => rfl
  | error e =>
    unfold put
    dsimp only
    split <;> rfl

/-! ### Steps in any order -/

/-- Classes that are worked on at the same time, each with its place among those given, and what is shared. -/
structure Batch where
  crew : Crew ((String × List UInt8) × Nat)
  shared : Gathering := {}

namespace Batch

variable {units : List (String × List UInt8)}

/-- All classes wait. -/
def start (units : List (String × List UInt8)) : Batch := { crew := { waiting := units.zipIdx } }

/-- Some class is started, or one that was started is done. -/
inductive Step (d : Deobfuscator) : Batch → Batch → Prop where
  | starts {s : Batch} {crew : Crew ((String × List UInt8) × Nat)} (h : s.crew.Starts s.shared.number.1 crew) :
    Step d s { crew, shared := s.shared.number.2 }
  | finishes {s : Batch} {crew : Crew ((String × List UInt8) × Nat)} {number : Nat} {u : (String × List UInt8) × Nat}
    (h : s.crew.Finishes (number, u) crew) :
    Step d s { crew, shared := s.shared.put u.2 u.1.1 (d.run u.1.2 number) }

/-- Some steps, in any order. -/
abbrev Run (d : Deobfuscator) : Batch → Batch → Prop := Relation.ReflTransGen (Step d)

/-- The run is over once there is nothing left to do. -/
theorem idle_iff : (∀ t, ¬ Step d s t) ↔ s.crew.Idle := by
  constructor
  · intro hend
    rcases s.crew.idle_or_acts s.shared.number.1 with hidle | ⟨c, hc⟩ | ⟨_, c, hc⟩
    · exact hidle
    · exact absurd (.starts hc) (hend _)
    · exact absurd (.finishes hc) (hend _)
  · rintro hidle t (⟨h⟩ | ⟨h⟩)
    · exact hidle.not_starts h
    · exact hidle.not_finishes h

/-- No run goes on for ever. -/
theorem wellFounded_step (d : Deobfuscator) : WellFounded fun t s => Step d s t := by
  refine Subrelation.wf (fun {t s} hstep => ?_) (measure fun s => s.crew.load).wf
  show t.crew.load < s.crew.load
  cases hstep with
  | starts h => exact h.load ▸ Nat.lt_succ_self _
  | finishes h => exact h.load ▸ Nat.lt_succ_self _

/-- The result of a class that is done: its place, its name, and what became of it. -/
def result (d : Deobfuscator) (x : Nat × (String × List UInt8) × Nat) : Nat × String × Except Error Deobfuscated :=
  (x.2.2, x.2.1.1, d.run x.2.1.2 x.1)

/-- Every class is accounted for. The results are those of the classes that are done, in this order, unless one of them
ended in an overflow. -/
structure Kept (d : Deobfuscator) (units : List (String × List UInt8)) (s : Batch)
    (done : List (Nat × (String × List UInt8) × Nat)) : Prop where
  accounts : s.crew.Accounts units.zipIdx done s.shared.numbered
  results : (∀ x ∈ done, d.overflows x.2.1.2 = false) →
    s.shared.stopped = none ∧ s.shared.results = done.map (result d)
  stopped : (∃ x ∈ done, d.overflows x.2.1.2 = true) → ∃ e, s.shared.stopped = some e ∧ e.isOverflow = true

theorem kept_start (d : Deobfuscator) (units : List (String × List UInt8)) : (start units).Kept d units [] where
  accounts := Crew.accounts_start _
  results := fun _ => ⟨rfl, rfl⟩
  stopped := by simp

/-- One step keeps the account. -/
theorem Kept.step {t : Batch} (h : s.Kept d units done) (hstep : Step d s t) : ∃ done, t.Kept d units done := by
  cases hstep with
  | starts hs => exact ⟨done, h.accounts.starts hs, h.results, h.stopped⟩
  | @finishes _ number u hf =>
    refine ⟨done ++ [(number, u)], ?_, fun hnone => ?_, fun hsome => ?_⟩
    · rw [Gathering.numbered_put]
      exact h.accounts.finishes hf
    · obtain ⟨hstopped, hresults⟩ := h.results fun x hx => hnone x (mem_append_left _ hx)
      rw [s.shared.put_run _ _ (hnone (number, u) (by simp)), map_append, ← hresults]
      exact ⟨hstopped, rfl⟩
    · by_cases hearlier : ∃ x ∈ done, d.overflows x.2.1.2 = true
      · -- the first overflow is the one that is kept
        obtain ⟨e, hstopped, he⟩ := h.stopped hearlier
        refine ⟨e, ?_, he⟩
        cases hnow : d.overflows u.1.2 with
        | false =>
          rw [s.shared.put_run _ _ hnow]
          exact hstopped
        | true =>
          obtain ⟨_, -, hput⟩ := s.shared.put_overflow u.2 u.1.1 hnow number
          rw [hput, hstopped]
          rfl
      · have hnone : ∀ x ∈ done, d.overflows x.2.1.2 = false := by simpa using hearlier
        obtain ⟨x, hx, hoverflow⟩ := hsome
        rcases mem_append.mp hx with hx | hx
        · exact absurd ⟨x, hx, hoverflow⟩ hearlier
        · obtain rfl := mem_singleton.mp hx
          obtain ⟨e, he, hput⟩ := s.shared.put_overflow u.2 u.1.1 hoverflow number
          refine ⟨e, ?_, he⟩
          rw [hput, (h.results hnone).1]
          rfl

theorem exists_kept (hrun : Run d (start units) s) : ∃ done, s.Kept d units done := by
  induction hrun with
  | refl => exact ⟨[], kept_start d units⟩
  | tail _ hstep ih =>
    obtain ⟨done, h⟩ := ih
    exact h.step hstep

/-! ### Back in order -/

/-- Sorting by place brings things back into the order in which they were given. -/
theorem mergeSort_zipIdx {α : Type} {xs : List (α × Nat)} {all : List α} (h : xs.Perm all.zipIdx) :
    xs.mergeSort (fun a b => a.2 ≤ b.2) = all.zipIdx := by
  have hperm := (mergeSort_perm xs fun a b => a.2 ≤ b.2).trans h
  refine @List.Perm.eq_of_pairwise _ (fun a b => a.2 ≤ b.2) _ _ ?_ ?_ ?_ hperm
  · intro a b ha hb hab hba
    have ha' := mem_zipIdx_iff_getElem?.mp (hperm.mem_iff.mp ha)
    have hb' := mem_zipIdx_iff_getElem?.mp hb
    have hplace : a.2 = b.2 := Nat.le_antisymm hab hba
    rw [hplace, hb'] at ha'
    exact Prod.ext (Option.some.inj ha').symm hplace
  · refine (pairwise_mergeSort ?_ ?_ xs).imp fun h => of_decide_eq_true h
    · intro a b c hab hbc
      exact decide_eq_true (Nat.le_trans (of_decide_eq_true hab) (of_decide_eq_true hbc))
    · intro a b
      simpa using Nat.le_total a.2 b.2
  · have hplaces : (all.zipIdx.map Prod.snd).Pairwise (· ≤ ·) := by
      rw [zipIdx_map_snd]
      exact (pairwise_lt_range' 1).imp Nat.le_of_lt
    exact pairwise_map.mp hplaces

/-- The results of classes that are all done, in the order in which the classes were given. -/
theorem mergeSort_results (d : Deobfuscator) (htasks : (done.map Prod.snd).Perm units.zipIdx) :
    ∃ numbers, numbers.Perm (done.map Prod.fst) ∧
      ((done.map (result d)).mergeSort fun a b => a.1 ≤ b.1).map Prod.snd =
        List.zipWith (fun u number => (u.1, (d.run u.2 0).map fun r => { r with number })) units numbers := by
  let sorted := done.mergeSort fun a b => a.2.2 ≤ b.2.2
  have hsorted : sorted.map Prod.snd = units.zipIdx := by
    rw [← mergeSort_zipIdx htasks]
    exact map_mergeSort fun _ _ _ _ => rfl
  have hunits : sorted.map (fun x => x.2.1) = units := by
    rw [← zipIdx_map_fst 0 units, ← hsorted, map_map]
    rfl
  have hresults : ((done.map (result d)).mergeSort fun a b => a.1 ≤ b.1) = sorted.map (result d) :=
    (map_mergeSort (f := result d) fun _ _ _ _ => rfl).symm
  refine ⟨sorted.map Prod.fst, (mergeSort_perm done _).map Prod.fst, ?_⟩
  rw [hresults, ← hunits, zipWith_map, zipWith_self, map_map]
  refine map_congr_left fun x _ => ?_
  show (x.2.1.1, d.run x.2.1.2 x.1) = _
  rw [d.run_number]

/-- Whatever the order of the steps, the results come out in the order in which the classes were given, each under its
name and just as it would be alone, but for the numbers, which are those from 0 on. If some class overflows, nothing
comes out. -/
theorem collect_in_order (d : Deobfuscator) (units : List (String × List UInt8)) {s : Batch}
    (hrun : Run d (start units) s) (hend : ∀ t, ¬ Step d s t) :
    ((∀ u ∈ units, d.overflows u.2 = false) →
      ∃ numbers, numbers.Perm (List.range units.length) ∧
        s.shared.collect =
          .ok (List.zipWith (fun u number => (u.1, (d.run u.2 0).map fun r => { r with number })) units numbers)) ∧
      ((∃ u ∈ units, d.overflows u.2 = true) → ∃ e, e.isOverflow = true ∧ s.shared.collect = .error e) := by
  obtain ⟨done, hkept⟩ := exists_kept hrun
  obtain ⟨htasks, hnumbers⟩ := hkept.accounts.of_idle (idle_iff.mp hend)
  have hunits : (done.map fun x => x.2.1).Perm units := by
    have := htasks.map Prod.fst
    rwa [map_map, zipIdx_map_fst] at this
  rw [length_zipIdx] at hnumbers
  constructor
  · intro hnone
    obtain ⟨hstopped, hresults⟩ := hkept.results fun x hx =>
      hnone _ (hunits.mem_iff.mp (mem_map_of_mem hx))
    obtain ⟨numbers, hperm, hsorted⟩ := mergeSort_results d htasks
    refine ⟨numbers, hperm.trans hnumbers, ?_⟩
    rw [Gathering.collect, hstopped, hresults]
    exact congrArg _ hsorted
  · rintro ⟨u, hu, hoverflow⟩
    obtain ⟨x, hx, rfl⟩ := mem_map.mp (hunits.mem_iff.mpr hu)
    obtain ⟨e, hstopped, he⟩ := hkept.stopped ⟨x, hx, hoverflow⟩
    refine ⟨e, he, ?_⟩
    rw [Gathering.collect, hstopped]

/-- A class with one method, whose code is given; its constants come after those that every such class has. -/
def tinyClass (name slots : UInt8) (constants code : List UInt8) : List UInt8 :=
  [0xca, 0xfe, 0xba, 0xbe, 0, 0, 0, 52, 0, slots, 1, 0, 1, name, 7, 0, 1, 1, 0, 1, 79, 7, 0, 3, 1, 0, 1, 109,
    1, 0, 3, 40, 41, 86, 1, 0, 4, 67, 111, 100, 101] ++ constants ++
  [0, 33, 0, 2, 0, 4, 0, 0, 0, 0, 0, 1, 0, 9, 0, 5, 0, 6, 0, 1, 0, 7, 0, 0, 0, .ofNat code.length] ++ code ++ [0, 0]

/-- Returns at once. -/
def plainClass : List UInt8 := tinyClass 65 8 [] [0, 1, 0, 0, 0, 0, 0, 1, 0xb1, 0, 0, 0, 0]

/-- Pushes a value and pops it again. -/
def poppingClass : List UInt8 := tinyClass 66 8 [] [0, 1, 0, 0, 0, 0, 0, 3, 0x03, 0x57, 0xb1, 0, 0, 0, 0]

/-- Throws an exception that is caught and stored away, and reads the last slot as the first of two. -/
def lastSlotClass : List UInt8 :=
  tinyClass 67 13
    [1, 0, 1, 69, 7, 0, 8, 1, 0, 6, 60, 105, 110, 105, 116, 62, 12, 0, 10, 0, 6, 10, 0, 9, 0, 11]
    [0, 2, 255, 255, 0, 0, 0, 15, 0xbb, 0, 9, 0x59, 0xb7, 0, 12, 0xbf, 0x4b, 0xc4, 0x16, 255, 255, 0x58, 0xb1,
      0, 1, 0, 0, 0, 8, 0, 8, 0, 9, 0, 0, 0, 0]

/-- Two classes and something that is none. -/
def mixedUnits : List (String × List UInt8) := [("A", plainClass), ("none", [1, 2, 3]), ("B", poppingClass)]

/-- The last class is started first and done last, and the first class is done first. -/
theorem collect_mixedUnits :
    ∃ s, Run {} (start mixedUnits) s ∧ (∀ t, ¬ Step {} s t) ∧
      (∀ u ∈ mixedUnits, ({} : Deobfuscator).overflows u.2 = false) ∧ ∃ numbers, numbers.Perm (List.range 3) ∧
        s.shared.collect =
          .ok (List.zipWith (fun u number => (u.1, (({} : Deobfuscator).run u.2 0).map fun r => { r with number }))
            mixedUnits numbers) := by
  let a := (("A", plainClass), 0)
  let n := (("none", ([1, 2, 3] : List UInt8)), 1)
  let b := (("B", poppingClass), 2)
  have hrun := ((((((Relation.ReflTransGen.refl (r := Step {}) (a := start mixedUnits)).tail
    (.starts (@Crew.Starts.mk _ _ _ [a, n] [] b rfl))).tail
    (.starts (@Crew.Starts.mk _ _ _ [] [n] a rfl))).tail
    (.starts (@Crew.Starts.mk _ _ _ [] [] n rfl))).tail
    (.finishes (@Crew.Finishes.mk _ _ (1, a) [(2, n)] [(0, b)] rfl))).tail
    (.finishes (@Crew.Finishes.mk _ _ (2, n) [] [(0, b)] rfl))).tail
    (.finishes (@Crew.Finishes.mk _ _ (0, b) [] [] rfl))
  have hnone : ∀ u ∈ mixedUnits, ({} : Deobfuscator).overflows u.2 = false := by decide +kernel
  refine ⟨_, hrun, idle_iff.mpr ⟨rfl, rfl⟩, hnone, ?_⟩
  exact (collect_in_order {} mixedUnits hrun (idle_iff.mpr ⟨rfl, rfl⟩)).1 hnone

/-- A class with an overflow leaves no result for one that has none. -/
theorem runAll_lastSlotClass :
    (({} : Deobfuscator).run plainClass 0).isOk = true ∧
      ∃ e, ({} : Deobfuscator).runAll [("A", plainClass), ("C", lastSlotClass)] = .error e := by
  refine ⟨by decide +kernel, ?_⟩
  have hnone : (({} : Deobfuscator).runAll [("A", plainClass), ("C", lastSlotClass)]).isOk = false := by
    decide +kernel
  cases hall : ({} : Deobfuscator).runAll [("A", plainClass), ("C", lastSlotClass)] with
  | error e => exact ⟨e, rfl⟩
  | ok =>
    rw [hall] at hnone
    cases hnone

/-! ### One class after the other -/

/-- Working on one class after the other is one of the ways to take steps. -/
theorem exists_run_runAll (d : Deobfuscator) (units : List (String × List UInt8)) :
    ∃ s, Run d (start units) s ∧ (∀ t, ¬ Step d s t) ∧ s.shared.collect = d.runAll units := by
  have hall : ∀ (us : List ((String × List UInt8) × Nat)) (g : Gathering), ∃ s : Batch,
      Run d { crew := { waiting := us }, shared := g } s ∧ s.crew.Idle ∧
        s.shared = us.foldl (fun g u => g.number.2.put u.2 u.1.1 (d.run u.1.2 g.number.1)) g := by
    intro us
    induction us with
    | nil => exact fun g => ⟨_, .refl, ⟨rfl, rfl⟩, rfl⟩
    | cons u us ih =>
      intro g
      obtain ⟨s, hrun, hidle, hshared⟩ := ih (g.number.2.put u.2 u.1.1 (d.run u.1.2 g.number.1))
      have hstarts : Step d { crew := { waiting := u :: us }, shared := g }
          { crew := { waiting := us, working := [(g.number.1, u)] }, shared := g.number.2 } :=
        .starts (@Crew.Starts.mk _ _ _ [] us u rfl)
      have hfinishes : Step d { crew := { waiting := us, working := [(g.number.1, u)] }, shared := g.number.2 }
          { crew := { waiting := us }, shared := g.number.2.put u.2 u.1.1 (d.run u.1.2 g.number.1) } :=
        .finishes (@Crew.Finishes.mk _ _ _ [] [] rfl)
      exact ⟨s, .head hstarts (.head hfinishes hrun), hidle, hshared⟩
  obtain ⟨s, hrun, hidle, hshared⟩ := hall units.zipIdx {}
  refine ⟨s, hrun, idle_iff.mpr hidle, ?_⟩
  rw [hshared]
  rfl

end Batch

end Untangle
