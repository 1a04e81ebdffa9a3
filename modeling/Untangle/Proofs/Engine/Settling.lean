import Untangle.Proofs.Engine.WellFormed
import Untangle.Proofs.Simplification.Overlooking
import Untangle.Proofs.Simplification.Weight

/-!
# Flow simplification settles

A round of flow simplification that changes something either takes something off the weight of a body, or
it collapses chains of jumps and does nothing else. The second kind does not come twice in a row: what is
collapsed stays so until the weight goes down. So twice the weight, and one more if there are chains to
collapse, goes down in every round that changes something.

A round that changes nothing may still take out labels that nothing refers to. Nothing that is left depends
on them, so each of the passes finds nothing to do afterwards.
-/

namespace Untangle

open List

variable {passes : List MethodPass} {b' : Body} {cap : Nat} {fs : List (Body → Nat × Body)}

/-! ### Passes in a row -/

namespace Body

/-- Does one thing to a body after the other; the changes of each, in order, and what is left. -/
def through : List (Body → Nat × Body) → Body → List Nat × Body
  | [], b => ([], b)
  | f :: fs, b =>
    let (counts, b') := through fs (f b).2
    ((f b).1 :: counts, b')

theorem through_append_pair (fs : List (Body → Nat × Body)) (f g : Body → Nat × Body) (b : Body) :
    through (fs ++ [f, g]) b =
      ((through fs b).1 ++ [(f (through fs b).2).1, (g (f (through fs b).2).2).1], (g (f (through fs b).2).2).2) := by
  induction fs generalizing b with
  | nil => rfl
  | cons _ fs ih => simp [through, ih]

end Body

/-- Passes that cannot fail, by their names. -/
def MethodPass.ofTotals (fs : List (String × (Body → Nat × Body))) : List MethodPass :=
  fs.map fun (name, f) => ofTotal name f

theorem MethodPass.runAll_ofTotals (fs : List (String × (Body → Nat × Body))) (b : Body) :
    runAll (ofTotals fs) b = .ok (b.through (fs.map Prod.snd)) := by
  have hfrom : ∀ counts b, (ofTotals fs).foldlM (fun s pass => do
      let result ← pass.run s.2
      return (s.1 ++ [result.1], result.2)) (counts, b) =
      (.ok (counts ++ (Body.through (fs.map Prod.snd) b).1, (Body.through (fs.map Prod.snd) b).2) :
        Except Error (List Nat × Body)) := by
    induction fs with
    | nil =>
      simp [ofTotals, Body.through, pure, Except.pure]
    | cons f fs ih =>
      intro counts b
      have hrest := ih (counts ++ [(f.2 b).1]) (f.2 b).2
      rw [append_assoc] at hrest
      exact hrest
  exact hfrom [] b

theorem Report.capped_record (r : Report) (name : String) (count : Nat) : (r.record name count).capped = r.capped := by
  unfold record
  split <;> rfl

/-- Counting the changes of each pass or all of them together is the same work. -/
theorem Round.ofGroup_of_runAll {counts : List Nat} (hrun : MethodPass.runAll passes b = .ok (counts, b'))
    (r : Report) :
    ∃ total r', ofGroup passes b r = .ok (total, b', r') ∧ (total = 0 ↔ ∀ changes ∈ counts, changes = 0) ∧
      r'.capped = r.capped := by
  have hfrom : ∀ (before : List Nat) (total : Nat) (b : Body) (r : Report),
      (total = 0 ↔ ∀ changes ∈ before, changes = 0) →
      passes.foldlM (fun s pass => do
        let result ← pass.run s.2
        return (s.1 ++ [result.1], result.2)) (before, b) = (.ok (counts, b') : Except Error (List Nat × Body)) →
      ∃ total' r', passes.foldlM (fun s pass => do
        let result ← pass.run s.2.1
        return (s.1 + result.1, result.2, s.2.2.record pass.name result.1)) (total, b, r) =
          (.ok (total', b', r') : Except Error (Nat × Body × Report)) ∧
        (total' = 0 ↔ ∀ changes ∈ counts, changes = 0) ∧ r'.capped = r.capped := by
    clear hrun
    induction passes with
    | nil =>
      rintro before total b r htotal ⟨⟩
      exact ⟨total, r, rfl, htotal, rfl⟩
    | cons pass passes ih =>
      intro before total b r htotal hrun
      simp only [foldlM_cons] at hrun ⊢
      cases hpass : pass.run b with
      | error e =>
        rw [hpass] at hrun
        cases hrun
      | ok result =>
        rw [hpass] at hrun
        have hmore : total + result.1 = 0 ↔ ∀ changes ∈ before ++ [result.1], changes = 0 := by
          rw [Nat.add_eq_zero_iff, htotal, forall_mem_append, forall_mem_singleton]
        obtain ⟨total', r', hrest, hnone, hcapped⟩ := ih _ _ result.2 (r.record pass.name result.1) hmore hrun
        exact ⟨total', r', hrest, hnone, hcapped.trans (r.capped_record pass.name result.1)⟩
  exact hfrom [] 0 b r (by simp) hrun

namespace Body

/-- Whatever it changes it takes off the weight of a body, and labels that nothing refers to make no difference
to whether it changes anything. -/
structure Lightens (f : Body → Nat × Body) : Prop where
  wellFormed : ∀ {b}, b.WellFormed → (f b).2.WellFormed
  weight : ∀ {b}, b.WellFormed → (f b).2.weight + (f b).1 ≤ b.weight
  idle : ∀ {b}, (f b).1 = 0 → f b = (0, b)
  tidied : ∀ {b}, b.WellFormed → (f b).1 = 0 → f b.tidied = (0, b.tidied)

theorem lightens_sweep {rule : (Label → Bool) → Rule} (hmild : ∀ referenced, (rule referenced).Mild)
    (hshort : ∀ referenced, (rule referenced).Shortens)
    (hoverlooks : ∀ {referenced test}, KeepsReferenced referenced test → (rule referenced).Overlooks test) :
    Lightens (·.sweep rule) where
  wellFormed h := h.sweep hmild
  weight h := h.weight_sweep hmild hshort
  idle := sweep_eq_self
  tidied h := h.sweep_tidied hoverlooks

/-- What looks at literals only. -/
def literalPasses : List (Body → Nat × Body) := [foldConstants, decideBranches, decideSwitches, removePops]

open Literals in
theorem lightens_literals : ∀ f ∈ literalPasses, Lightens f := by
  simp only [literalPasses, forall_mem_cons]
  exact ⟨lightens_sweep foldRule_mild foldRule_shortens foldRule_overlooks,
    lightens_sweep branchRule_mild branchRule_shortens branchRule_overlooks,
    lightens_sweep switchRule_mild switchRule_shortens switchRule_overlooks,
    lightens_sweep popRule_mild popRule_shortens popRule_overlooks, by simp⟩

theorem WellFormed.through {b : Body} (h : b.WellFormed) (hfs : ∀ f ∈ fs, Lightens f) :
    (b.through fs).2.WellFormed ∧ (b.through fs).2.weight ≤ b.weight ∧
      ((b.through fs).2.weight = b.weight → ∀ changes ∈ (b.through fs).1, changes = 0) := by
  induction fs generalizing b with
  | nil => exact ⟨h, le_rfl, by simp [Body.through]⟩
  | cons f fs ih =>
    obtain ⟨hf, hfs⟩ := forall_mem_cons.mp hfs
    have hweight := hf.weight h
    obtain ⟨hwell, hle, hrest⟩ := ih (hf.wellFormed h) hfs
    simp only [Body.through, forall_mem_cons]
    exact ⟨hwell, by omega, fun hsame => ⟨by omega, hrest (by omega)⟩⟩

theorem through_eq_self (hfs : ∀ f ∈ fs, Lightens f) (h : ∀ changes ∈ (b.through fs).1, changes = 0) :
    (b.through fs).2 = b ∧ ∀ f ∈ fs, (f b).1 = 0 := by
  induction fs generalizing b with
  | nil => exact ⟨rfl, by simp⟩
  | cons f fs ih =>
    obtain ⟨hf, hfs⟩ := forall_mem_cons.mp hfs
    simp only [through, forall_mem_cons] at h
    have hself : (f b).2 = b := by rw [hf.idle h.1]
    rw [hself] at h
    obtain ⟨hrest, hall⟩ := ih hfs h.2
    refine ⟨?_, forall_mem_cons.mpr ⟨h.1, hall⟩⟩
    simp only [through, hself]
    exact hrest

/-! ### One round -/

/-- One round of flow simplification: the changes of each pass, in order, and what is left. -/
def flowRound (b : Body) : List Nat × Body := b.through (literalPasses ++ [collapseJumpChains, removeDeadCode])

/-- No pass of flow simplification finds anything to do. -/
def Settled (b : Body) : Prop := ∀ pass ∈ MethodPass.flowSimplification, pass.run b = .ok (0, b)

/-- What every round that changes something takes away from. -/
def unrest (b : Body) : Nat := 2 * b.weight + if b.collapseJumpChains.1 = 0 then 0 else 1

theorem unrest_lt (b : Body) : b.unrest < 2 * b.weight + 2 := by
  unfold unrest
  split <;> omega

theorem flowRound_eq (b : Body) : b.flowRound =
    ((b.through literalPasses).1 ++ [(b.through literalPasses).2.collapseJumpChains.1,
      (b.through literalPasses).2.collapseJumpChains.2.removeDeadCode.1],
      (b.through literalPasses).2.collapseJumpChains.2.removeDeadCode.2) :=
  through_append_pair literalPasses collapseJumpChains removeDeadCode b

namespace WellFormed

variable {b : Body} (h : b.WellFormed)
include h

theorem flowRound : b.flowRound.2.WellFormed := by
  simp only [flowRound_eq]
  exact (h.through lightens_literals).1.collapseJumpChains.removeDeadCode

theorem unrest_flowRound (hchanged : ¬ ∀ changes ∈ b.flowRound.1, changes = 0) : b.flowRound.2.unrest < b.unrest := by
  obtain ⟨hlit, hle, hlight⟩ := h.through lightens_literals
  simp only [flowRound_eq, forall_mem_append, forall_mem_cons] at hchanged ⊢
  have hsent := hlit.weight_collapseJumpChains
  have hdead := hlit.collapseJumpChains.weight_removeDeadCode
  have hlt := unrest_lt (b.through literalPasses).2.collapseJumpChains.2.removeDeadCode.2
  by_cases hsame : (b.through literalPasses).2.collapseJumpChains.2.removeDeadCode.2.weight < b.weight
  · unfold unrest at hlt ⊢
    omega
  · -- Nothing got lighter, so the change is a jump that was sent on, and none is left to be.
    have hnone := hlight (by omega)
    have halive := removeDeadCode_eq_zero_iff.mp
      (show (b.through literalPasses).2.collapseJumpChains.2.removeDeadCode.1 = 0 by omega)
    rw [(through_eq_self lightens_literals hnone).1] at hchanged hsent hdead hsame halive ⊢
    have hc := h.collapseJumpChains.collapsed_tidied h.collapsed_collapseJumpChains
    simp only [halive.removeDeadCode] at hchanged hdead hsame ⊢
    have hidle := h.collapseJumpChains.tidied.collapseJumpChains_eq_zero_iff.mpr hc
    unfold unrest
    rw [if_pos hidle, if_neg fun hstill => hchanged ⟨hnone, hstill, by simp⟩]
    omega

theorem collapseJumpChains_of_collapsed (hc : b.Collapsed) : b.collapseJumpChains = (0, b) := by
  rw [h.collapseJumpChains_eq, h.redirect_eq_of_collapsed hc]

/-- After a round that changes nothing none of the passes finds anything to do. -/
theorem settled_flowRound (hnone : ∀ changes ∈ b.flowRound.1, changes = 0) :
    b.flowRound.2 = b.tidied ∧
      ∀ f ∈ literalPasses ++ [Body.collapseJumpChains, Body.removeDeadCode], f b.tidied = (0, b.tidied) := by
  simp only [flowRound_eq, forall_mem_append, forall_mem_cons] at hnone ⊢
  obtain ⟨hnone, hjumps, hdead, -⟩ := hnone
  obtain ⟨hself, hlit⟩ := through_eq_self lightens_literals hnone
  rw [hself] at hjumps hdead ⊢
  have hc := h.collapseJumpChains_eq_zero_iff.mp hjumps
  simp only [h.collapseJumpChains_of_collapsed hc] at hdead ⊢
  have halive := removeDeadCode_eq_zero_iff.mp hdead
  rw [halive.removeDeadCode]
  refine ⟨rfl, fun f hf => (lightens_literals f hf).tidied h (hlit f hf), ?_, ?_, by simp⟩
  · exact h.tidied.collapseJumpChains_of_collapsed (h.collapsed_tidied hc)
  · rw [(h.orderly.alive_tidied halive).removeDeadCode, h.orderly.tidied_tidied]

end WellFormed

end Body

/-! ### Many rounds -/

namespace MethodPass

/-- A body comes to rest under some passes: the last of so many rounds is the first in which each of them
reports no change. -/
inductive RestsAfter (passes : List MethodPass) : Nat → Body → Body → Prop
  | quiet {b b' : Body} {counts : List Nat} (hrun : runAll passes b = .ok (counts, b'))
      (hnone : ∀ changes ∈ counts, changes = 0) : RestsAfter passes 1 b b'
  | busy {rounds : Nat} {b b₁ b' : Body} {counts : List Nat} (hrun : runAll passes b = .ok (counts, b₁))
      (hsome : ¬ ∀ changes ∈ counts, changes = 0) (hrest : RestsAfter passes rounds b₁ b') :
      RestsAfter passes (rounds + 1) b b'

/-- A stage that allows for so many rounds is not stopped. -/
theorem RestsAfter.repeated {rounds : Nat} (h : RestsAfter passes rounds b b') (hcap : rounds ≤ cap) (r : Report) :
    ∃ r', (Round.ofGroup passes).repeated cap b r = .ok (b', r') ∧ r'.capped = r.capped := by
  induction h generalizing cap r with
  | quiet hrun hnone =>
    obtain ⟨cap, rfl⟩ := Nat.exists_eq_add_one.mpr hcap
    obtain ⟨total, r', hround, htotal, hcapped⟩ := Round.ofGroup_of_runAll hrun r
    rw [htotal.mpr hnone] at hround
    refine ⟨r', ?_, hcapped⟩
    simp [Round.repeated, hround, bind, Except.bind, pure, Except.pure]
  | busy hrun hsome _ ih =>
    obtain ⟨cap, rfl⟩ := Nat.exists_eq_add_one.mpr (lt_of_lt_of_le (Nat.succ_pos _) hcap)
    obtain ⟨total, r₁, hround, htotal, hfirst⟩ := Round.ofGroup_of_runAll hrun r
    obtain ⟨r', hrest, hcapped⟩ := ih (Nat.le_of_succ_le_succ hcap) r₁
    refine ⟨r', ?_, hcapped.trans hfirst⟩
    simp [Round.repeated, hround, bind, Except.bind, if_neg (mt htotal.mp hsome), hrest]

theorem runAll_flowSimplification (b : Body) : runAll flowSimplification b = .ok (b.flowRound.1, b.flowRound.2) := by
  rw [Prod.eta]
  exact runAll_ofTotals [("constant-folding", Body.foldConstants), ("dead-branch", Body.decideBranches),
    ("constant-switch", Body.decideSwitches), ("push-pop", Body.removePops),
    ("jump-chain", Body.collapseJumpChains), ("dead-code", Body.removeDeadCode)] b

end MethodPass

open MethodPass

theorem Body.settled_of_forall (h : ∀ f ∈ literalPasses ++ [collapseJumpChains, removeDeadCode], f b = (0, b)) :
    b.Settled := by
  simp only [literalPasses, cons_append, nil_append, forall_mem_cons] at h
  obtain ⟨hfold, hbranch, hswitch, hpop, hjump, hdead, -⟩ := h
  simp only [Settled, flowSimplification, constantFolding, deadBranch, constantSwitch, pushPop, jumpChain, deadCode,
    ofTotal, forall_mem_cons, hfold, hbranch, hswitch, hpop, hjump, hdead]
  simp

theorem Body.WellFormed.restsAfter (h : b.WellFormed) :
    ∃ rounds b', RestsAfter flowSimplification rounds b b' ∧ rounds ≤ b.unrest + 1 ∧ b'.Settled := by
  induction hn : b.unrest using Nat.strong_induction_on generalizing b with
  | _ unrest ih =>
    subst hn
    have hround := runAll_flowSimplification b
    by_cases hnone : ∀ changes ∈ b.flowRound.1, changes = 0
    · obtain ⟨htidied, hall⟩ := h.settled_flowRound hnone
      refine ⟨1, b.flowRound.2, .quiet hround hnone, by omega, ?_⟩
      rw [htidied]
      exact settled_of_forall hall
    · have hlt := h.unrest_flowRound hnone
      obtain ⟨rounds, b', hrest, hle, hsettled⟩ := ih _ hlt h.flowRound rfl
      exact ⟨rounds + 1, b', .busy hround hnone hrest, by omega, hsettled⟩

/-- The method is as it was except for its body, if it has one. That one has come to rest, within twice its
weight and two rounds. -/
def Method.RestsAs (m m' : Method) : Prop :=
  m' = { m with body := m'.body } ∧
    Option.Rel (fun b b' => b'.Settled ∧ ∃ rounds ≤ 2 * b.weight + 2, RestsAfter flowSimplification rounds b b')
      m.body m'.body

theorem Stage.overMethods_rests {ms : List Method} (h : WellFormedBodies ms)
    (hcap : ∀ m ∈ ms, ∀ b, m.body = some b → 2 * b.weight + 2 ≤ cap) (r : Report) (done : List Method) :
    ∃ ms' r', overMethods (Round.ofGroup flowSimplification) .fixedPoint cap r done ms =
      .ok (done.reverse ++ ms', r') ∧ r'.capped = r.capped ∧ List.Forall₂ Method.RestsAs ms ms' := by
  induction ms generalizing r done with
  | nil => exact ⟨[], r, by simp [overMethods], rfl, .nil⟩
  | cons m ms ih =>
    obtain ⟨hfirst, hrest⟩ := forall_mem_cons.mp hcap
    cases hb : m.body with
    | none =>
      obtain ⟨ms', r', hrun, hcapped, hms⟩ := ih h.tail hrest r (m :: done)
      refine ⟨m :: ms', r', ?_, hcapped, .cons ⟨rfl, ?_⟩ hms⟩
      · simp [overMethods, hb, hrun]
      · rw [hb]
        exact .none
    | some b =>
      obtain ⟨rounds, b', hrests, hle, hsettled⟩ := (h.head hb).restsAfter
      have hlt := b.unrest_lt
      have hbound := hfirst b hb
      obtain ⟨r₁, hbody, hsame⟩ := hrests.repeated (show rounds ≤ max cap 1 by omega) r
      obtain ⟨ms', r', hrun, hcapped, hms⟩ := ih h.tail hrest r₁ ({ m with body := some b' } :: done)
      refine ⟨{ m with body := some b' } :: ms', r', ?_, hcapped.trans hsame, .cons ⟨rfl, ?_⟩ hms⟩
      · simp [overMethods, hb, Round.run, hbody, bind, Except.bind, hrun]
      · rw [hb]
        exact .some ⟨hsettled, rounds, by omega, hrests⟩

/-- Flow simplification settles: every well-formed body comes to rest within twice its weight and two rounds.
A stage that allows for that many is not counted as stopped, it changes nothing but bodies, and on those it
leaves each of the passes alone reports no change and makes none. -/
theorem Pipeline.flow_settles {u : ClassUnit} (hu : u.WellFormed) :
    (∀ m ∈ u.methods, ∀ b, m.body = some b →
      ∃ rounds ≤ 2 * b.weight + 2, ∃ b', RestsAfter flowSimplification rounds b b') ∧
    ∀ cap, (∀ m ∈ u.methods, ∀ b, m.body = some b → 2 * b.weight + 2 ≤ cap) → ∀ c r,
      ∃ ms r', flow.run cap u c r = .ok ({ u with methods := ms }, c, r') ∧ r'.capped = r.capped ∧
        List.Forall₂ Method.RestsAs u.methods ms := by
  refine ⟨?_, ?_⟩
  · intro m hm b hb
    obtain ⟨rounds, b', hrests, hle, -⟩ := (hu m hm b hb).restsAfter
    have hlt := b.unrest_lt
    exact ⟨rounds, by omega, b', hrests⟩
  · intro cap hcap c r
    obtain ⟨ms, r', hrun, hcapped, hms⟩ := Stage.overMethods_rests hu hcap r []
    refine ⟨ms, r', ?_, hcapped, hms⟩
    simp [flow, Stage.run, hrun, bind, Except.bind, pure, Except.pure]

/-- Compares literals and jumps on through another jump, past a label that nothing refers to, in a range that
catches nothing. -/
def knottedBody : Body where
  maxStack := 2
  maxLocals := 1
  code := Listing.ofInstrs
    [.push (.int 10), .line 7, .push (.int 3), .math .int .xor, .push (.int 9), .branch .intEq 0,
     .increment 0 1, .label 0, .jump 1, .label 2, .label 1, .leave none]
  ranges := [⟨0, 1, 1, none⟩]

theorem knottedBody_wellFormed : knottedBody.WellFormed := Body.wellFormed_ofInstrs rfl (by decide) (by decide)

/-- A class with a method that has no body and one whose body can be untied. -/
def knottedClass : ClassUnit :=
  { (default : ClassUnit) with methods := [default, { (default : Method) with body := some knottedBody }] }

/-- A body of weight ten comes to rest before twenty-two rounds are over, and the stage is not stopped. -/
theorem knottedClass_flow_settles : knottedClass.WellFormed ∧ knottedBody.weight = 10 ∧
    ∃ ms r', Pipeline.flow.run 22 knottedClass default {} = .ok ({ knottedClass with methods := ms }, default, r') ∧
      r'.capped = 0 ∧ List.Forall₂ Method.RestsAs knottedClass.methods ms := by
  have hbody : ∀ m ∈ knottedClass.methods, ∀ b, m.body = some b → b = knottedBody := by
    intro m hm b hb
    rcases (by simpa [knottedClass] using hm : m = default ∨ m = _) with rfl | rfl
    · cases hb
    · cases hb
      rfl
  have hwf : knottedClass.WellFormed := fun m hm b hb => hbody m hm b hb ▸ knottedBody_wellFormed
  have hweight : knottedBody.weight = 10 := by decide
  refine ⟨hwf, hweight, (Pipeline.flow_settles hwf).2 22 ?_ default {}⟩
  intro m hm b hb
  rw [hbody m hm b hb, hweight]

end Untangle
