import Untangle.Proofs.Code.Reachability

/-!
# Executions

Where control can go from an instruction, with all that tells one way from another: which target it is, and which
of the ranges around the instruction in their order. An execution takes one of these ways from every instruction,
as it is told what happens there (`Choice`): how a branch is decided, which case of a switch is taken, where a
subroutine was called, what is thrown. Unconditional jumps decide nothing.

What is seen of an execution are the instructions that it executes, in order, and whether it ends. Unconditional
jumps are not seen, and of the other instructions that jump it is not seen which labels they name.
-/

namespace Untangle

variable {b : Body} {n : Node}

/-- Where control can go from an instruction. -/
structure Exits where
  /-- To the next instruction, if it falls through. -/
  next : Option Node
  /-- To where its targets lead, in order. -/
  targets : List (Option Node)
  /-- To the handlers of the ranges around it, in order. -/
  handlers : List (Range × Option Node)
deriving DecidableEq, Repr

namespace Body

/-- The next instruction behind a node. -/
def behind? (b : Body) (n : Node) : Option Node := (b.code.livePlace? n.id).bind (·.after.find? Node.isReal)

/-- The node stands at the first label of the range or behind it, and before the second one. -/
def covers (b : Body) (r : Range) (n : Node) : Bool :=
  let index := FlowIndex.of b
  match index.labelPosition? r.start, index.labelPosition? r.stop, index.position? n.id with
  | some start, some stop, some place => start ≤ place && place < stop
  | _, _, _ => false

/-- The ways from an instruction. -/
def exits (b : Body) (n : Node) : Exits where
  next := if n.instr.fallsThrough then b.behind? n else none
  targets := n.instr.targets.map b.code.realAt?
  handlers := (b.ranges.filter fun r => b.covers r n).map fun r => (r, b.code.realAt? r.handler)

end Body

/-- What happens at an instruction. -/
inductive Choice where
  /-- Control goes on behind it. -/
  | next
  /-- Control goes to the target with this number. -/
  | target (k : Nat)
  /-- Control returns from a subroutine that this node called. -/
  | resume (caller : Nat)
  /-- An exception is thrown that ranges for these types catch. -/
  | thrown (caught : Option String → Bool)

/-- What is seen of an execution. -/
inductive Visible where
  /-- An instruction, but for the labels that it names. -/
  | executed (id : Nat) (instr : Instruction Unit)
  /-- The end. -/
  | left
deriving DecidableEq, Repr

/-- Where an unconditional jump goes. -/
def Instruction.goto? {τ : Type} : Instruction τ → Option τ
  | jump target => some target
  | _ => none

namespace Node

/-- Calls a subroutine. -/
def calls (n : Node) : Bool := n.instr matches .callSub _

/-- Returns from a subroutine. -/
def returns (n : Node) : Bool := n.instr matches .leaveSub _

/-- What is seen when the node is executed. -/
def visible (n : Node) : Visible := .executed n.id (n.instr.mapTargets fun _ => ())

end Node

namespace Body

/-- Where control comes from an instruction; `none` if it leaves the code. -/
def after (b : Body) (n : Node) : Choice → Option Node
  | .next => (b.exits n).next
  | .target k => (b.exits n).targets[k]?.join
  | .resume caller =>
    if n.returns then (b.nodes.find? fun m => m.calls && m.id == caller).bind b.behind? else none
  | .thrown caught => ((b.exits n).handlers.find? fun way => caught way.1.catchType).bind Prod.snd

/-- What is seen of so many steps of the execution from an instruction. -/
def trace (b : Body) : Nat → (Nat → Choice) → Option Node → List Visible
  | 0, _, _ => []
  | _ + 1, _, none => [.left]
  | steps + 1, choices, some n =>
    match n.instr.goto? with
    | some target => b.trace steps choices (b.code.realAt? target)
    | none => n.visible :: b.trace steps (fun i => choices (i + 1)) (b.after n (choices 0))

theorem trace_goto {t : Label} (ht : n.instr.goto? = some t) (steps : Nat) (choices : Nat → Choice) :
    b.trace (steps + 1) choices (some n) = b.trace steps choices (b.code.realAt? t) := by
  simp [trace, ht]

theorem trace_step (hn : n.instr.goto? = none) (steps : Nat) (choices : Nat → Choice) :
    b.trace (steps + 1) choices (some n) =
      n.visible :: b.trace steps (fun i => choices (i + 1)) (b.after n (choices 0)) := by
  simp [trace, hn]

/-- What is seen as number `k` of the execution with these choices. -/
def Performs (b : Body) (choices : Nat → Choice) (k : Nat) (v : Visible) : Prop :=
  ∃ steps, (b.trace steps choices (b.nodes.find? Node.isReal))[k]? = some v

end Body

/-! ### Reading off exits -/

namespace Body.Orderly

variable {b : Body} (h : b.Orderly)

include h

theorem behind?_eq {pre post : List Node} (hns : b.nodes = pre ++ n :: post) :
    b.behind? n = post.find? Node.isReal := by
  have hn : n ∈ b.nodes := by simp [hns]
  have hs : b.code.strands = Listing.single (pre ++ n :: post) := by
    rw [← hns]
    exact h.intact.strands
  rw [behind?, Listing.livePlace?_of_strands hs (h.live hn) (id_not_mem_of_nodup (hns ▸ h.distinct.ids))]
  rfl

theorem behind?_eq_none (hid : ∀ m ∈ b.nodes, m.id ≠ n.id) : b.behind? n = none := by
  rw [behind?, Listing.livePlace?_eq_none h.intact.strands hid]
  rfl

theorem behind?_eq_some {m : Node} (hn : n ∈ b.nodes) : b.behind? n = some m ↔ Ensues b.nodes n m := by
  obtain ⟨pre, post, hns⟩ := List.append_of_mem hn
  rw [h.behind?_eq hns, ← h.find?_acts (by rw [hns]; simp)]
  constructor
  · exact fun hm => ⟨pre, post, hns, hm⟩
  · rintro ⟨_, _, hns', hm⟩
    obtain ⟨-, rfl⟩ := h.distinct.split_node hns hns'
    exact hm

theorem position?_eq {p : Nat} (hp : b.nodes[p]? = some n) : (FlowIndex.of b).position? n.id = some p := by
  obtain ⟨hlen, rfl⟩ := getElem?_eq_some_iff.mp hp
  refine List.findIdx?_eq_some_iff_getElem.mpr ⟨hlen, by simp [FlowIndex.of], fun j hj => ?_⟩
  have hne := (List.pairwise_iff_getElem.mp h.distinct.ids) j p (by simp; omega) (by simpa using hlen) hj
  simpa [FlowIndex.of] using hne

/-- A range is around a node if its labels enclose it. -/
theorem covers_iff {r : Range} (hn : n ∈ b.nodes) : b.covers r n = true ↔ Encloses b.nodes r.start r.stop n := by
  obtain ⟨p, hp⟩ := List.getElem?_of_mem hn
  unfold covers
  simp only [h.position?_eq hp]
  split
  · rename_i s e p' hs he hp'
    cases hp'
    rw [FlowGraph.encloses_iff_positions h.distinct hs he hp]
    simp
  · rename_i hnone
    simp only [Bool.false_eq_true, false_iff]
    rintro ⟨s, e, p', a, c, ha, hla, hc, hlc, -⟩
    exact hnone s e p ((FlowGraph.labelPosition_eq_some h.distinct.labels).mpr ⟨a, ha, hla⟩)
      ((FlowGraph.labelPosition_eq_some h.distinct.labels).mpr ⟨c, hc, hlc⟩) rfl

end Body.Orderly

end Untangle
