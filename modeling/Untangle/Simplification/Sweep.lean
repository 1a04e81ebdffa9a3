import Untangle.Code.Body

/-!
# Going through code with a rule

Several simplifications look at an instruction and at the literals pushed right before it. They share
one walk: from left to right, with what was passed at hand, nearest first. A rule that applies says
what takes the place of everything passed and of the instruction itself, so later instructions see
the result of earlier changes.

Between an instruction and its operand there may be lines and labels that nothing refers to. A label
that something refers to is a place where control may come in from elsewhere, so the operand is not
known there.
-/

namespace Untangle

/-- Given the nodes passed, nearest first, and the next node, says what takes the place of both,
nearest first; `none` if the rule does not apply. -/
abbrev Rule := List Node → Node → Option (List Node)

/-- Walks through nodes with a rule and counts how often it applied; `passed` is nearest first. -/
def Rule.sweep (rule : Rule) (changes : Nat) (passed : List Node) : List Node → Nat × List Node
  | [] => (changes, passed.reverse)
  | n :: rest =>
    match rule passed n with
    | some passed => rule.sweep (changes + 1) passed rest
    | none => rule.sweep changes (n :: passed) rest

/-- The same with a rule that keeps something from node to node. -/
def sweepWith {σ : Type} (rule : σ → List Node → Node → σ × Option (List Node)) (s : σ)
    (changes : Nat) (passed : List Node) : List Node → σ × Nat × List Node
  | [] => (s, changes, passed.reverse)
  | n :: rest =>
    match rule s passed n with
    | (s, some passed) => sweepWith rule s (changes + 1) passed rest
    | (s, none) => sweepWith rule s changes (n :: passed) rest

/-- An operand found among the nodes passed. -/
structure Operand where
  /-- What stands between the operand and its use, nearest to the use first. -/
  between : List Node
  node : Node
  instr : Instr
  /-- What stands before the operand, nearest first. -/
  before : List Node
deriving Repr, Inhabited

namespace Operand

/-- A line, or a label that nothing refers to. -/
def isRemark (referenced : Label → Bool) (n : Node) : Bool :=
  match n.content with
  | some (.line _) => true
  | some (.label l) => !referenced l
  | _ => false

/-- The nearest instruction among the nodes passed, if control can only come from there. -/
def find (referenced : Label → Bool) (passed : List Node) : Option Operand :=
  match passed.dropWhile (isRemark referenced) with
  | [] => none
  | n :: before =>
    match n.content with
    | none | some (.label _) => none
    | some i => some ⟨passed.takeWhile (isRemark referenced), n, i, before⟩

/-- What was passed, without the operand. -/
def dropped (o : Operand) : List Node := o.between ++ o.before

/-- The nearest `n` operands in the order they were pushed, and what was passed without them. -/
def take (referenced : Label → Bool) : Nat → List Node → Option (List Instr × List Node)
  | 0, passed => some ([], passed)
  | n + 1, passed => do
    let o ← find referenced passed
    let (earlier, rest) ← take referenced n o.before
    return (earlier ++ [o.instr], o.between ++ rest)

/-- What was passed, with another instruction in the operand's place. -/
def replaced (o : Operand) (i : Instr) : List Node :=
  o.between ++ { o.node with content := some i } :: o.before

end Operand

namespace Body

/-- Goes through a body with a rule, which is told which labels are referred to. Counts how often the
rule applied. -/
def sweep (b : Body) (rule : (Label → Bool) → Rule) : Nat × Body :=
  let referenced := b.referencedSet
  match (rule referenced.contains).sweep 0 [] b.nodes with
  | (0, _) => (0, b)
  | (changes, nodes) =>
    (changes, { b with code := { b.code.withNodes nodes with modified := true } })

/-- Goes through a body with a rule that keeps something from node to node. -/
def sweepWith {σ : Type} (b : Body)
    (rule : (Label → Bool) → σ → List Node → Node → σ × Option (List Node)) (s : σ) :
    σ × Nat × Body :=
  let referenced := b.referencedSet
  match Untangle.sweepWith (rule referenced.contains) s 0 [] b.nodes with
  | (s, 0, _) => (s, 0, b)
  | (s, changes, nodes) =>
    (s, changes, { b with code := { b.code.withNodes nodes with modified := true } })

end Body

end Untangle
