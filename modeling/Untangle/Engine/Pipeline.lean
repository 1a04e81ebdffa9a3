import Untangle.Simplification.MethodPass
import Untangle.UnitPass

/-!
# Pipelines

Passes in stages, each run once or until nothing changes any more. Since nobody promises that passes
settle, a stage that is repeated stops after so many rounds in any case, and the report counts how
often that happened.
-/

namespace Untangle

/-- How often a stage runs. -/
inductive Repetition where
  | once
  /-- Until a round changes nothing, or the limit is reached. -/
  | fixedPoint
deriving DecidableEq, Repr, Inhabited

/-- A step of a pipeline. -/
inductive Stage where
  /-- Passes run one after the other on each body, the whole group over and over if so asked. -/
  | methods (passes : List MethodPass) (repetition : Repetition)
  | unit (pass : UnitPass) (repetition : Repetition)

/-- What was done to a class. -/
structure Report where
  /-- The changes by pass, only of passes that made some. -/
  changes : List (String × Nat) := []
  /-- The families that the class was taken for. -/
  families : List String := []
  /-- How often a repeated stage was stopped. -/
  capped : Nat := 0
deriving DecidableEq, Repr, Inhabited

namespace Report

/-- Adds to the entry of a name, which is made if there is none. -/
def bump (name : String) (count : Nat) : List (String × Nat) → List (String × Nat)
  | [] => [(name, count)]
  | (n, c) :: rest => if n = name then (n, c + count) :: rest else (n, c) :: bump name count rest

/-- Notes the changes of a pass. -/
def record (r : Report) (name : String) (count : Nat) : Report :=
  if count = 0 then r else { r with changes := bump name count r.changes }

/-- All changes together. -/
def total (r : Report) : Nat := r.changes.foldr (fun c n => c.2 + n) 0

end Report

/-- A round of work on something: its new state, and whether it changed. -/
abbrev Round (σ : Type) := σ → Report → Except Error (Nat × σ × Report)

namespace Round

/-- Repeats a round until nothing changes, at most `rounds` times. -/
def repeated {σ : Type} (round : Round σ) : Nat → σ → Report → Except Error (σ × Report)
  | 0, s, r => .ok (s, { r with capped := r.capped + 1 })
  | rounds + 1, s, r => do
    let (changes, s, r) ← round s r
    if changes = 0 then return (s, r) else round.repeated rounds s r

/-- Runs a round as often as asked. -/
def run {σ : Type} (round : Round σ) (repetition : Repetition) (cap : Nat) (s : σ) (r : Report) :
    Except Error (σ × Report) :=
  match repetition with
  | .fixedPoint => round.repeated (max cap 1) s r
  | .once => do
    let (_, s, r) ← round s r
    return (s, r)

/-- Runs a group of passes over a body. -/
def ofGroup (passes : List MethodPass) : Round Body := fun b r =>
  passes.foldlM (fun (sum, b, r) pass => do
    let (changes, b) ← pass.run b
    return (sum + changes, b, r.record pass.name changes)) (0, b, r)

/-- Runs a pass over a class. -/
def ofPass (pass : UnitPass) : Round (ClassUnit × Context) := fun (u, c) r => do
  let (changes, u, c) ← pass.run u c
  return (changes, (u, c), r.record pass.name changes)

end Round

namespace Stage

/-- Runs a group of passes over each of some methods. -/
def overMethods (round : Round Body) (repetition : Repetition) (cap : Nat) (r : Report)
    (done : List Method) : List Method → Except Error (List Method × Report)
  | [] => .ok (done.reverse, r)
  | m :: rest =>
    match m.body with
    | none => overMethods round repetition cap r (m :: done) rest
    | some b => do
      let (b, r) ← round.run repetition cap b r
      overMethods round repetition cap r ({ m with body := some b } :: done) rest

/-- Runs a stage. -/
def run (s : Stage) (cap : Nat) (u : ClassUnit) (c : Context) (r : Report) :
    Except Error (ClassUnit × Context × Report) := do
  match s with
  | methods passes repetition =>
    let (ms, r) ← overMethods (Round.ofGroup passes) repetition cap r [] u.methods
    return ({ u with methods := ms }, c, r)
  | unit pass repetition =>
    let ((u, c), r) ← (Round.ofPass pass).run repetition cap (u, c) r
    return (u, c, r)

end Stage

/-- Stages in order. -/
structure Pipeline where
  name : String
  stages : List Stage

/-- Runs the stages of a pipeline. -/
def Pipeline.run (p : Pipeline) (cap : Nat) (u : ClassUnit) (c : Context) (r : Report) :
    Except Error (ClassUnit × Context × Report) :=
  p.stages.foldlM (fun (u, c, r) stage => stage.run cap u c r) (u, c, r)

end Untangle
