import Mathlib.Logic.Relation
import Untangle.Proofs.Code.Disassembly
import Untangle.Proofs.Code.Execution
import Untangle.Proofs.Simplification.ChainEnds

/-!
# Collapsing chains of jumps, seen from outside

Sending a reference along unconditional jumps cannot be seen: an execution passes these jumps silently, or stays
behind them for ever if they go in circles. So if every label leads along such jumps to the label that it is
renamed to, both executions show the same (`Orderly.performs_redirect`).

The proof follows both executions at once. The one of the renamed body is ahead by some silent jumps. It falls
back when the other one passes a jump, and gets ahead again at the next reference.
-/

namespace Untangle

open JumpChain Relation List Node

variable {x y : Option Node} {t u : Label}

theorem Instruction.goto?_mapTargets {τ σ : Type} (f : τ → σ) (i : Instruction τ) :
    (i.mapTargets f).goto? = i.goto?.map f := by
  cases i <;> rfl

namespace Node

variable (f : Label → Label) (n : Node)

theorem calls_retarget : (n.retarget f).calls = n.calls := by
  rw [calls, calls, instr_retarget]
  cases n.instr <;> rfl

theorem returns_retarget : (n.retarget f).returns = n.returns := by
  rw [returns, returns, instr_retarget]
  cases n.instr <;> rfl

theorem visible_retarget : (n.retarget f).visible = n.visible := by
  rw [visible, visible, instr_retarget, Instruction.mapTargets_mapTargets, id_retarget]

end Node

namespace Body

/-- Control passes an unconditional jump. -/
def Hop (b : Body) (x y : Option Node) : Prop := ∃ n t, x = some n ∧ n.instr.goto? = some t ∧ y = b.code.realAt? t

variable {b : Body}

/-- What is seen behind some unconditional jumps is seen before them. -/
theorem exists_trace_of_hops (h : ReflTransGen b.Hop x y) (steps : Nat) (choices : Nat → Choice) :
    ∃ more, b.trace more choices x = b.trace steps choices y := by
  induction h using ReflTransGen.head_induction_on with
  | refl => exact ⟨steps, rfl⟩
  | head hop _ ih =>
    obtain ⟨n, t, rfl, ht, rfl⟩ := hop
    obtain ⟨more, hmore⟩ := ih
    exact ⟨more + 1, by rw [trace_goto ht, hmore]⟩

namespace Orderly

variable (h : b.Orderly) (f : Label → Label)

include h

/-! ### A body with its labels renamed -/

theorem behind?_redirect (n : Node) :
    (b.redirect f true).2.behind? (n.retarget f) = (b.behind? n).map (Node.retarget f) := by
  have h' := h.redirect f
  have hns' := nodes_redirect h.intact f
  by_cases hid : ∃ m ∈ b.nodes, m.id = n.id
  · obtain ⟨m, hm, hid⟩ := hid
    obtain ⟨_, _, hns⟩ := append_of_mem hm
    rw [hns, map_append] at hns'
    have hbehind : ∀ (c : Body) (k k' : Node), k.id = k'.id → c.behind? k = c.behind? k' := by
      intro c k k' hk
      rw [behind?, behind?, hk]
    rw [hbehind _ (n.retarget f) (m.retarget f) (by simp [hid]), hbehind b n m hid.symm, h'.behind?_eq hns',
      h.behind?_eq hns, find?_map_isReal (isReal_retarget f)]
  · have hid : ∀ m ∈ b.nodes, m.id ≠ n.id := by simpa using hid
    rw [h.behind?_eq_none hid, h'.behind?_eq_none]
    · rfl
    · intro m hm
      rw [hns'] at hm
      obtain ⟨k, hk, rfl⟩ := mem_map.mp hm
      exact hid k hk

/-- Nothing moves, so every range is around what it was around. -/
theorem covers_redirect (r : Range) (handler : Label) (n : Node) :
    (b.redirect f true).2.covers { r with handler } (n.retarget f) = b.covers r n := by
  have hns' := nodes_redirect h.intact f
  have hlabel : ∀ l, (FlowIndex.of (b.redirect f true).2).labelPosition? l = (FlowIndex.of b).labelPosition? l := by
    intro l
    have hpositions : FlowIndex.labelPositions (b.nodes.map (retarget f)) = FlowIndex.labelPositions b.nodes := by
      simp [FlowIndex.labelPositions, zipIdx_map]
    change (FlowIndex.labelPositions (b.redirect f true).2.nodes).lookup l = _
    rw [hns', hpositions]
    rfl
  have hposition : ∀ id, (FlowIndex.of (b.redirect f true).2).position? id = (FlowIndex.of b).position? id := by
    intro id
    change (b.redirect f true).2.nodes.findIdx? _ = _
    rw [hns', findIdx?_map]
    rfl
  simp [covers, hlabel, hposition]

/-- Control goes the same ways, to where the renamed labels lead. -/
theorem exits_redirect (n : Node) : (b.redirect f true).2.exits (n.retarget f) =
    { next := (b.exits n).next.map (Node.retarget f)
      targets := n.instr.targets.map fun t => (b.code.realAt? (f t)).map (Node.retarget f)
      handlers := (b.ranges.filter fun r => b.covers r n).map fun r =>
        ({ r with handler := f r.handler }, (b.code.realAt? (f r.handler)).map (Node.retarget f)) } := by
  unfold exits
  rw [instr_retarget, Instruction.fallsThrough_mapTargets, Instruction.targets_mapTargets, h.behind?_redirect,
    ranges_redirect, filter_map, List.map_map, List.map_map]
  simp only [Function.comp_def, h.realAt?_redirect, h.covers_redirect, Exits.mk.injEq]
  refine ⟨?_, trivial, rfl⟩
  split <;> rfl

section Ahead

variable {f} (hf : ∀ t, ReflTransGen b.Hop (b.code.realAt? t) (b.code.realAt? (f t)))

include hf

/-- One step leads to places with only unconditional jumps between them. -/
theorem after_redirect (n : Node) (c : Choice) : ∃ y,
    (b.redirect f true).2.after (n.retarget f) c = y.map (Node.retarget f) ∧ ReflTransGen b.Hop (b.after n c) y := by
  cases c with
  | next =>
    refine ⟨b.after n .next, ?_, .refl⟩
    rw [after, after, h.exits_redirect]
  | target k =>
    rw [after, after, h.exits_redirect]
    simp only [exits, getElem?_map]
    cases n.instr.targets[k]? with
    | none => exact ⟨none, rfl, .refl⟩
    | some t => exact ⟨b.code.realAt? (f t), rfl, hf t⟩
  | resume caller =>
    refine ⟨b.after n (.resume caller), ?_, .refl⟩
    have hcaller : (fun m => m.calls && m.id == caller) ∘ retarget f =
        fun m => m.calls && m.id == caller :=
      funext fun m => by rw [Function.comp_apply, calls_retarget, id_retarget]
    rw [after, after, returns_retarget, nodes_redirect h.intact, find?_map, hcaller]
    split
    · cases b.nodes.find? fun m => m.calls && m.id == caller with
      | none => rfl
      | some m => exact h.behind?_redirect f m
    · rfl
  | thrown caught =>
    rw [after, after, h.exits_redirect]
    simp only [exits, find?_map, Function.comp_def]
    cases (b.ranges.filter fun r => b.covers r n).find? fun r => caught r.catchType with
    | none => exact ⟨none, rfl, .refl⟩
    | some r => exact ⟨b.code.realAt? (f r.handler), rfl, hf r.handler⟩

/-- What is seen of the renamed body is seen of the body. -/
theorem trace_redirect_prefix (steps : Nat) (choices : Nat → Choice) (hxy : ReflTransGen b.Hop x y) :
    ∃ more, (b.redirect f true).2.trace steps choices (y.map (Node.retarget f)) <+: b.trace more choices x := by
  induction steps generalizing choices x y with
  | zero => exact ⟨0, nil_prefix⟩
  | succ steps ih =>
    cases y with
    | none =>
      obtain ⟨more, hmore⟩ := exists_trace_of_hops hxy (steps + 1) choices
      exact ⟨more, by rw [hmore]; exact prefix_rfl⟩
    | some n =>
      have hgoto := Instruction.goto?_mapTargets f n.instr
      rw [← instr_retarget] at hgoto
      cases ht : n.instr.goto? with
      | some t =>
        -- the other execution has still to pass this jump and those that the label leads along
        rw [ht] at hgoto
        have hfar : ReflTransGen b.Hop x (b.code.realAt? (f t)) :=
          hxy.trans (.head ⟨n, t, rfl, ht, rfl⟩ (hf t))
        obtain ⟨more, hmore⟩ := ih choices hfar
        rw [Option.map_some, trace_goto hgoto, h.realAt?_redirect]
        exact ⟨more, hmore⟩
      | none =>
        rw [ht] at hgoto
        obtain ⟨_, hy', hhops⟩ := h.after_redirect hf n (choices 0)
        obtain ⟨more, hmore⟩ := ih (fun i => choices (i + 1)) hhops
        obtain ⟨more', hmore'⟩ := exists_trace_of_hops hxy (more + 1) choices
        refine ⟨more', ?_⟩
        rw [hmore', Option.map_some, trace_step hgoto, trace_step ht, visible_retarget, hy']
        exact (cons_prefix_cons).mpr ⟨rfl, hmore⟩

/-- What is seen of the body is seen of the renamed body. -/
theorem trace_prefix_redirect (steps : Nat) (choices : Nat → Choice) (hxy : ReflTransGen b.Hop x y) :
    ∃ more, b.trace steps choices x <+: (b.redirect f true).2.trace more choices (y.map (Node.retarget f)) := by
  induction steps generalizing choices x y with
  | zero => exact ⟨0, nil_prefix⟩
  | succ steps ih =>
    rcases hxy.cases_head with rfl | ⟨z, ⟨n, t, rfl, ht, rfl⟩, hzy⟩
    · cases x with
      | none => exact ⟨1, prefix_rfl⟩
      | some n =>
        have hgoto := Instruction.goto?_mapTargets f n.instr
        rw [← instr_retarget] at hgoto
        cases ht : n.instr.goto? with
        | some t =>
          rw [ht] at hgoto
          obtain ⟨more, hmore⟩ := ih choices (hf t)
          refine ⟨more + 1, ?_⟩
          rw [Option.map_some, trace_goto ht, trace_goto hgoto, h.realAt?_redirect]
          exact hmore
        | none =>
          rw [ht] at hgoto
          obtain ⟨_, hy', hhops⟩ := h.after_redirect hf n (choices 0)
          obtain ⟨more, hmore⟩ := ih (fun i => choices (i + 1)) hhops
          refine ⟨more + 1, ?_⟩
          rw [Option.map_some, trace_step hgoto, trace_step ht, visible_retarget, hy']
          exact (cons_prefix_cons).mpr ⟨rfl, hmore⟩
    · -- the renamed body passed this jump before
      rw [trace_goto ht]
      exact ih choices hzy

/-- Renaming labels along unconditional jumps is not seen. -/
theorem performs_redirect (choices : Nat → Choice) (k : Nat) (v : Visible) :
    (b.redirect f true).2.Performs choices k v ↔ b.Performs choices k v := by
  have hstart : (b.redirect f true).2.nodes.find? isReal = (b.nodes.find? isReal).map (retarget f) := by
    rw [nodes_redirect h.intact, find?_map_isReal (isReal_retarget f)]
  have hprefix : ∀ {seen more : List Visible}, seen <+: more → seen[k]? = some v → more[k]? = some v := by
    intro seen more hprefix hv
    obtain ⟨_, rfl⟩ := hprefix
    rw [getElem?_append_left (List.getElem?_eq_some_iff.mp hv).1, hv]
  unfold Performs
  rw [hstart]
  constructor
  · rintro ⟨steps, hv⟩
    obtain ⟨more, hmore⟩ := h.trace_redirect_prefix hf steps choices (ReflTransGen.refl)
    exact ⟨more, hprefix hmore hv⟩
  · rintro ⟨steps, hv⟩
    obtain ⟨more, hmore⟩ := h.trace_prefix_redirect hf steps choices (ReflTransGen.refl)
    exact ⟨more, hprefix hmore hv⟩

end Ahead

end Orderly

end Body

/-! ### Chains of jumps -/

namespace JumpChain

variable {next : Label → Option Label} {steps : Nat} {l e : Label}

theorem reaches_of_follow (h : follow next steps l = some e) : ReflTransGen (fun k k' => next k = some k') l e := by
  fun_induction follow next steps l with
  | case1 => cases h
  | case2 =>
    cases h
    exact .refl
  | case3 l steps _ htarget ih => exact .head htarget (ih h)

/-- The labels that a chain passes in so many steps, if it does not end before. -/
theorem exists_walk (h : follow next steps l = none) :
    ∃ path : List Label, path.length = steps ∧ path.Pairwise (TransGen fun k k' => next k = some k') ∧
      ∀ k ∈ path, next k ≠ none ∧ ReflTransGen (fun k k' => next k = some k') l k := by
  induction steps generalizing l with
  | zero => exact ⟨[], rfl, .nil, by simp⟩
  | succ steps ih =>
    rw [follow] at h
    cases hnext : next l with
    | none =>
      rw [hnext] at h
      cases h
    | some =>
      rw [hnext] at h
      obtain ⟨path, hlength, hpairwise, hpath⟩ := ih h
      refine ⟨l :: path, by rw [length_cons, hlength], .cons (fun k hk => ?_) hpairwise, fun k hk => ?_⟩
      · exact TransGen.head' hnext (hpath k hk).2
      · rcases mem_cons.mp hk with rfl | hk
        · exact ⟨by simp [hnext], .refl⟩
        · exact ⟨(hpath k hk).1, .head hnext (hpath k hk).2⟩

/-- A chain that takes more steps than there are labels to pass comes to a label again. -/
theorem exists_circle {labels : List Label} (hlabels : ∀ k, next k ≠ none → k ∈ labels)
    (h : follow next (labels.length + 1) l = none) :
    ∃ u, ReflTransGen (fun k k' => next k = some k') l u ∧ TransGen (fun k k' => next k = some k') u u := by
  obtain ⟨path, hlength, hpairwise, hpath⟩ := exists_walk h
  by_contra hno
  have hnodup : path.Nodup := hpairwise.imp_of_mem fun {k k'} hk _ hkk' heq =>
    hno ⟨k, (hpath k hk).2, by rwa [← heq] at hkk'⟩
  have hle := (subperm_of_subset hnodup fun k hk => hlabels k (hpath k hk).1).length_le
  omega

end JumpChain

namespace Body

/-- The first instruction behind the label jumps to another label. -/
def Forwards (b : Body) (t u : Label) : Prop := ∃ n, b.code.realAt? t = some n ∧ n.instr = .jump u ∧ u ≠ t

/-- From the label a chain of jumps leads into a circle. -/
def Circles (b : Body) (t : Label) : Prop := ∃ u, ReflTransGen b.Forwards t u ∧ TransGen b.Forwards u u

variable {b : Body}

theorem forwardsTo?_eq_some : forwardsTo? b.code t = some u ↔ b.Forwards t u := by
  constructor
  · intro hu
    obtain ⟨hc, hne⟩ := content_of_forwardsTo? hu
    obtain ⟨n, hn, hc⟩ := Option.bind_eq_some_iff.mp hc
    exact ⟨n, hn, instr_of_content hc, hne⟩
  · rintro ⟨⟨_, content⟩, hn, hjump, hne⟩
    cases content with
    | none => cases hjump
    | some i =>
      obtain rfl : i = .jump u := hjump
      simp [forwardsTo?, hn, hne]

theorem forwards_eq : (fun t u => forwardsTo? b.code t = some u) = b.Forwards :=
  funext fun _ => funext fun _ => propext forwardsTo?_eq_some

theorem Forwards.hop (h : b.Forwards t u) : b.Hop (b.code.realAt? t) (b.code.realAt? u) := by
  obtain ⟨n, hn, hjump, -⟩ := h
  exact ⟨n, u, hn, by rw [hjump]; rfl, rfl⟩

/-- Along its chain, a label leads to the end of the chain. -/
theorem hops_chainEnds (b : Body) (t : Label) :
    ReflTransGen b.Hop (b.code.realAt? t) (b.code.realAt? (b.chainEnds.getD t t)) := by
  by_cases ht : t ∈ b.referenced
  · rw [chainEnds_getD_eq ht]
    cases hfollow : follow (forwardsTo? b.code) (longest b.code) t with
    | none => exact .refl
    | some e =>
      have hchain := reaches_of_follow hfollow
      rw [forwards_eq] at hchain
      exact hchain.lift b.code.realAt? fun _ _ => Forwards.hop
  · rw [chainEnds_getD_eq_self ht]

namespace WellFormed

variable (h : b.WellFormed)

include h

/-- A reference that is at the end of its chain does not forward, unless the chain has no end. -/
theorem circles_of_collapsed (hc : b.Collapsed) (ht : b.IsEntry t) : (∀ u, ¬ b.Forwards t u) ∨ b.Circles t := by
  have hend := hc t ht
  rw [chainEnds_getD_eq ht.referenced] at hend
  cases hfollow : follow (forwardsTo? b.code) (longest b.code) t with
  | some e =>
    rw [hfollow, Option.getD_some] at hend
    subst hend
    refine .inl fun u hu => ?_
    rw [← forwardsTo?_eq_some, next_of_follow hfollow] at hu
    cases hu
  | none =>
    have hlabels : ∀ k, forwardsTo? b.code k ≠ none → k ∈ labelsOf b.nodes := fun _ => mem_labelsOf_of_forwardsTo? h
    have hshort : follow (forwardsTo? b.code) ((labelsOf b.nodes).length + 1) t = none := by
      by_contra hsome
      obtain ⟨e, he⟩ := Option.ne_none_iff_exists'.mp hsome
      rw [follow_longest h he] at hfollow
      cases hfollow
    have hcircle := exists_circle hlabels hshort
    rw [forwards_eq] at hcircle
    exact .inr hcircle

/-- Chains of jumps are collapsed in one round, completely and for good, and nothing of it is seen. -/
theorem collapseJumpChains_unseen :
    (∀ rounds, b.collapseRounds (rounds + 2) 0 = b.redirect (fun l => b.chainEnds.getD l l) true) ∧
      b.collapseJumpChains = b.redirect (fun l => b.chainEnds.getD l l) true ∧
      (∀ t, b.collapseJumpChains.2.IsEntry t →
        (∀ u, ¬ b.collapseJumpChains.2.Forwards t u) ∨ b.collapseJumpChains.2.Circles t) ∧
      b.collapseJumpChains.2.collapseJumpChains = (0, b.collapseJumpChains.2) ∧
      ∀ choices k v, b.collapseJumpChains.2.Performs choices k v ↔ b.Performs choices k v := by
  have h' := h.collapseJumpChains
  have hc := h.collapsed_collapseJumpChains
  refine ⟨h.collapseRounds_redirect, h.collapseJumpChains_eq, fun _ => h'.circles_of_collapsed hc, ?_, ?_⟩
  · rw [h'.collapseJumpChains_eq, h'.redirect_eq_of_collapsed hc]
  · rw [h.collapseJumpChains_eq]
    exact h.orderly.performs_redirect b.hops_chainEnds

end WellFormed

end Body

/-- A branch and a handler go through two jumps, and another jump into a circle of two. -/
def tangledBody : Body where
  maxStack := 1
  maxLocals := 0
  code := .ofInstrs [.label 0, .push (.int 0), .branch .eq 1, .label 6, .jump 4, .label 1, .jump 2, .label 2, .jump 3,
    .label 3, .leave none, .label 4, .jump 5, .label 5, .jump 4]
  ranges := [⟨0, 6, 1, none⟩]

theorem tangledBody_wellFormed : tangledBody.WellFormed := Body.wellFormed_ofInstrs rfl (by decide) (by decide)

/-- Three references are sent on, the circle stays, and the branch is still seen to lead out. -/
theorem tangledBody_collapse_unseen : tangledBody.WellFormed ∧ tangledBody.collapseJumpChains.1 = 3 ∧
    tangledBody.collapseJumpChains.2.Circles 4 ∧
    tangledBody.collapseJumpChains.2.Performs (fun i => if i = 1 then .target 0 else .next) 2
      (.executed 10 (.leave none)) := by
  obtain ⟨-, -, hcomplete, -, hseen⟩ := tangledBody_wellFormed.collapseJumpChains_unseen
  refine ⟨tangledBody_wellFormed, by decide +kernel, ?_, ?_⟩
  · have hentry : tangledBody.collapseJumpChains.2.IsEntry 4 := .inl (by decide +kernel)
    have hforwards : tangledBody.collapseJumpChains.2.Forwards 4 5 :=
      ⟨⟨12, some (.jump 5)⟩, by decide +kernel, rfl, by decide⟩
    exact (hcomplete 4 hentry).resolve_left fun hno => hno 5 hforwards
  · exact (hseen _ _ _).mpr ⟨6, by decide +kernel⟩

end Untangle
