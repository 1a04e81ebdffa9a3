import Untangle.Code.Body

/-!
# Straight runs of code

The instructions from one on that are executed one after the other, as far as nothing jumps in
between. Lines and labels that nothing refers to do not count.
-/

namespace Untangle

namespace StraightRun

/-- The longest sequence that is looked at. -/
def longest : Nat := 4096

/-- The first instructions of the run, at most `limit` of them. -/
def instrs (referenced : Label → Bool) : Nat → List Node → List Instr
  | 0, _ => []
  | _ + 1, [] => []
  | limit + 1, n :: rest =>
    match n.content with
    | none => []
    | some (.line _) => instrs referenced (limit + 1) rest
    | some (.label l) => if referenced l then [] else instrs referenced (limit + 1) rest
    | some i => i :: instrs referenced limit rest

/-- Something that finds instructions to remove. Given the nodes from an instruction on, says how many
instructions go, the first included, and what is to be noted about them. -/
abbrev Finder (α : Type) := List Node → Option (Nat × α)

/-- Goes through code and takes out what is found, `skip` being the number of instructions that are
still to be taken out. The notes come in order, one per find. -/
def strip {α : Type} (find? : Finder α) (skip : Nat) (notes : List α) (done : List Node) :
    List Node → List α × List Node
  | [] => (notes.reverse, done.reverse)
  | n :: rest =>
    if n.isReal then
      match skip with
      | skip + 1 => strip find? skip notes done rest
      | 0 =>
        match find? (n :: rest) with
        | some (count + 1, note) => strip find? count (note :: notes) done rest
        | _ => strip find? 0 notes (n :: done) rest
    else strip find? skip notes (n :: done) rest

end StraightRun

namespace Body

/-- Takes out of a body what is found in it. -/
def strip {α : Type} (b : Body) (find? : StraightRun.Finder α) : List α × Body :=
  match StraightRun.strip find? 0 [] [] b.nodes with
  | ([], _) => ([], b)
  | (notes, nodes) => (notes, { b with code := { b.code.withNodes nodes with modified := true } })

end Body

end Untangle
