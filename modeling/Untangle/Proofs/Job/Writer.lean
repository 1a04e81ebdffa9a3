import Untangle.Job

/-!
# What the writer of a job does

The writer does one thing after the other: it adds entries to the container, rows to the table of strings and files of
graphs, and counts. These are its chores. `Job.stream` is the chores for the resources and then those for every class
that comes.

If a chore fails, those before it were accepted and those after it are not tried. The container then holds exactly
the entries of the chores that were accepted.
-/

namespace Untangle.Job

open List

variable {α β : Type} {e : Error} {cs : List Chore} {resources : List Archive.Entry} {finished : List Finished}

/-- A single thing that the writer does. -/
inductive Chore where
  | entry (e : Archive.Entry)
  | strings (ds : List DecryptedString)
  | graphs (files : List (String × String))
  | count (f : Finished)

namespace Chore

/-- What the chore writes. -/
def perform {m : Type → Type} [Monad m] [FileSystem m] : Chore → Writing m Unit
  | entry e => addEntry e
  | strings ds => addStrings ds
  | graphs files => addGraphs files
  | count _ => pure ()

/-- What the chore counts. -/
def tally (s : JobSummary) : Chore → JobSummary
  | count f => Job.tally s f
  | _ => s

/-- The entry that the chore adds to the container. -/
def entry? : Chore → Option Archive.Entry
  | entry e => some e
  | _ => none

end Chore

/-- The chores for a finished class. -/
def Finished.chores (f : Finished) : List Chore := [.entry f.entry, .strings f.decrypted, .graphs f.graphs, .count f]

/-- The chores for resources and then for classes as they come. -/
def chores (resources : List Archive.Entry) (finished : List Finished) : List Chore :=
  resources.map .entry ++ finished.flatMap Finished.chores

theorem chores_append (resources : List Archive.Entry) (fs gs : List Finished) :
    chores resources (fs ++ gs) = chores resources fs ++ gs.flatMap Finished.chores := by
  rw [chores, chores, flatMap_append, append_assoc]

/-- The entries that are to be in the container: the resources in order, then the classes as they come. -/
theorem filterMap_entry?_chores (resources : List Archive.Entry) (finished : List Finished) :
    (chores resources finished).filterMap Chore.entry? = resources ++ finished.map Finished.entry := by
  have hresources : (resources.map Chore.entry).filterMap Chore.entry? = resources := by
    rw [filterMap_map]
    exact filterMap_some
  have hfinished : (finished.flatMap Finished.chores).filterMap Chore.entry? = finished.map Finished.entry := by
    induction finished with
    | nil => rfl
    | cons f finished ih =>
      rw [flatMap_cons, filterMap_append, ih]
      rfl
  rw [chores, filterMap_append, hresources, hfinished]

/-- The chores for a class count it once. -/
theorem foldl_tally_chores (resources : List Archive.Entry) (finished : List Finished) (s : JobSummary) :
    (chores resources finished).foldl Chore.tally s = finished.foldl tally s := by
  have hresources : ∀ s, (resources.map Chore.entry).foldl Chore.tally s = s := by
    induction resources with
    | nil => exact fun _ => rfl
    | cons e resources ih => exact ih
  rw [chores, foldl_append, hresources]
  induction finished generalizing s with
  | nil => rfl
  | cons f finished ih =>
    rw [flatMap_cons, foldl_append, ih]
    rfl

theorem stream_eq_forM {m : Type → Type} [Monad m] [LawfulMonad m] [FileSystem m] (resources : List Archive.Entry)
    (finished : List Finished) :
    (stream resources finished : Writing m Unit) = forM (chores resources finished) Chore.perform := by
  have hdeliver : ∀ f : Finished, (deliver f : Writing m Unit) = forM f.chores Chore.perform := by
    simp [deliver, Finished.chores, Chore.perform]
  have hfinished : (forM finished deliver : Writing m Unit) =
      forM (finished.flatMap Finished.chores) Chore.perform := by
    induction finished with
    | nil => rfl
    | cons f finished ih => rw [flatMap_cons, forM_append, forM_cons, ih, hdeliver]
  rw [chores, forM_append, forM_map, ← hfinished]
  rfl

/-! ### Files as a state -/

variable {W : Type} [FileSystem (StateM W)]

/-- What is being written, with files kept in a state. -/
abbrev Output (W : Type) [FileSystem (StateM W)] := Outputs (FileSystem.OpenFile (StateM W))

/-- What writing does to the files: the result, the outputs and the state that it leaves. -/
def exec {α : Type} (a : Writing (StateM W) α) (o : Output W) (w : W) : (Except Error α × Output W) × W :=
  (a.run.run o).run w

theorem exec_bind_of_ok {a : Writing (StateM W) α} {o o' : Output W} {w w' : W} {x : α}
    (h : exec a o w = ((.ok x, o'), w')) (f : α → Writing (StateM W) β) : exec (a >>= f) o w = exec (f x) o' w' := by
  show (ExceptT.bindCont f (exec a o w).1.1).run (exec a o w).1.2 (exec a o w).2 = _
  rw [h]
  rfl

theorem exec_bind_of_error {a : Writing (StateM W) α} {o o' : Output W} {w w' : W}
    (h : exec a o w = ((.error e, o'), w')) (f : α → Writing (StateM W) β) :
    exec (a >>= f) o w = ((.error e, o'), w') := by
  show (ExceptT.bindCont f (exec a o w).1.1).run (exec a o w).1.2 (exec a o w).2 = _
  rw [h]
  rfl

/-- What a series of chores does. -/
def execAll (cs : List Chore) (o : Output W) (w : W) : (Except Error Unit × Output W) × W :=
  exec (forM cs Chore.perform) o w

/-- Chores go on where those before them ended. -/
theorem execAll_append_of_ok {o o' : Output W} {w w' : W} (h : execAll cs o w = ((.ok (), o'), w')) (ds : List Chore) :
    execAll (cs ++ ds) o w = execAll ds o' w' := by
  rw [execAll, forM_append]
  exact exec_bind_of_ok h _

/-- After a chore that failed nothing more is done. -/
theorem execAll_append_of_error {o o' : Output W} {w w' : W} (h : execAll cs o w = ((.error e, o'), w'))
    (ds : List Chore) : execAll (cs ++ ds) o w = ((.error e, o'), w') := by
  rw [execAll, forM_append]
  exact exec_bind_of_error h _

theorem execAll_singleton (c : Chore) (o : Output W) (w : W) : execAll [c] o w = exec c.perform o w := by
  rw [execAll, forM_cons, forM_nil, bind_pure]

theorem exec_stream (resources : List Archive.Entry) (finished : List Finished) (o : Output W) (w : W) :
    exec (stream resources finished) o w = execAll (chores resources finished) o w := by
  rw [stream_eq_forM, execAll]

/-- What closing the outputs does. -/
def execClose (o : Output W) (w : W) : Except Error Unit × W := (close o : ExceptT Error (StateM W) Unit).run.run w

/-- What writing everything does, and then closing. -/
def execWriteAll (o : Output W) (resources : List Archive.Entry) (finished : List Finished) (w : W) :
    Except Error Unit × W :=
  (writeAll o resources finished : ExceptT Error (StateM W) Unit).run.run w

omit [FileSystem (StateM W)] in
theorem run_lift_bind (a : StateM W α) (f : α → ExceptT Error (StateM W) β) (w : W) :
    (ExceptT.lift a >>= f).run.run w = (f (a.run w).1).run.run (a.run w).2 := rfl

theorem execWriteAll_of_ok {o o' : Output W} {w w' : W}
    (h : execAll (chores resources finished) o w = ((.ok (), o'), w')) :
    execWriteAll o resources finished w = execClose o' w' := by
  rw [← exec_stream, exec] at h
  simp only [execWriteAll, writeAll, run_lift_bind, h]
  rfl

/-- If a chore fails, that is what comes of it, however closing goes. -/
theorem execWriteAll_of_error {o o' : Output W} {w w' : W}
    (h : execAll (chores resources finished) o w = ((.error e, o'), w')) :
    execWriteAll o resources finished w = (.error e, (execClose o' w').2) := by
  rw [← exec_stream, exec] at h
  simp only [execWriteAll, writeAll, run_lift_bind, h]
  rfl

/-! ### The container -/

/-- The entries of the container, if one is written. -/
def Outputs.entries? {F : Type} (o : Outputs F) : Option (List Archive.Entry) :=
  o.container.map fun c => c.2.entries.reverse

/-- The chores before the first that fails. -/
def accepted : List Chore → Output W → W → List Chore
  | [], _, _ => []
  | c :: cs, o, w =>
    match exec c.perform o w with
    | ((.ok _, o'), w') => c :: accepted cs o' w'
    | ((.error _, _), _) => []

theorem accepted_isPrefix (cs : List Chore) (o : Output W) (w : W) : accepted cs o w <+: cs := by
  induction cs generalizing o w with
  | nil => exact prefix_refl _
  | cons c cs ih =>
    rw [accepted]
    split
    · exact cons_prefix_cons.mpr ⟨rfl, ih _ _⟩
    · exact nil_prefix

/-- All chores are accepted exactly if there is no error. -/
theorem accepted_eq_self_iff {o : Output W} {w : W} : accepted cs o w = cs ↔ (execAll cs o w).1.1 = .ok () := by
  induction cs generalizing o w with
  | nil => exact iff_of_true rfl rfl
  | cons c cs ih =>
    rw [accepted, ← singleton_append]
    split
    · rename_i h
      rw [← execAll_singleton] at h
      rw [execAll_append_of_ok h, singleton_append, cons.injEq, ← ih]
      exact and_iff_right rfl
    · rename_i h
      rw [← execAll_singleton] at h
      rw [execAll_append_of_error h]
      simp

theorem exec_get (o : Output W) (w : W) : exec (get : Writing (StateM W) (Output W)) o w = ((.ok o, o), w) := rfl

theorem exec_set (o' o : Output W) (w : W) : exec (set o' : Writing (StateM W) Unit) o w = ((.ok (), o'), w) := rfl

theorem exec_onFiles (step : StateM W (Except Error α)) (o : Output W) (w : W) :
    exec (onFiles step) o w = (((step.run w).1, o), (step.run w).2) := rfl

/-- An entry is in the container once it was added, and not if that fails. -/
theorem entries?_addEntry (e : Archive.Entry) (o : Output W) (w : W) :
    (exec (addEntry e) o w).1.2.entries? =
      match (exec (addEntry e) o w).1.1 with
      | .ok _ => o.entries?.map (· ++ [e])
      | .error _ => o.entries? := by
  unfold addEntry
  rw [exec_bind_of_ok (exec_get o w)]
  cases hcontainer : o.container with
  | none =>
    show o.entries? = o.entries?.map _
    rw [Outputs.entries?, hcontainer]
    rfl
  | some c =>
    dsimp only
    cases hadd : c.2.add e with
    | error cause => rfl
    | ok added =>
      have hadded : added.entries = e :: c.2.entries := by
        unfold ContainerWriter.add at hadd
        split at hadd
        · cases hadd
        · cases hadd
          rfl
      have hfiles := exec_onFiles (FileSystem.append c.1 (c.2.part e)) o w
      rcases hstep : (FileSystem.append c.1 (c.2.part e) : StateM W _).run w with ⟨cause | _, _⟩
      · rw [hstep] at hfiles
        rw [exec_bind_of_error hfiles]
      · rw [hstep] at hfiles
        rw [exec_bind_of_ok hfiles, exec_set]
        simp [Outputs.entries?, hcontainer, hadded]

/-- Writing leaves the container alone. -/
def LeavesContainer {α : Type} (a : Writing (StateM W) α) : Prop :=
  ∀ o w, (exec a o w).1.2.container = o.container

theorem LeavesContainer.bind {a : Writing (StateM W) α} {f : α → Writing (StateM W) β} (ha : LeavesContainer a)
    (hf : ∀ x, LeavesContainer (f x)) : LeavesContainer (a >>= f) := by
  intro o w
  rcases hstep : exec a o w with ⟨⟨e | x, o'⟩, w'⟩
  · rw [exec_bind_of_error hstep, ← ha o w, hstep]
  · rw [exec_bind_of_ok hstep, hf x o' w', ← ha o w, hstep]

theorem leavesContainer_addStrings (ds : List DecryptedString) :
    LeavesContainer (addStrings ds : Writing (StateM W) Unit) := by
  intro o w
  unfold addStrings
  rw [exec_bind_of_ok (exec_get o w)]
  cases o.strings with
  | none => rfl
  | some t =>
    have hfiles := exec_onFiles (FileSystem.append t.1 (t.2.add ds).release.1) o w
    rcases hstep : (FileSystem.append t.1 (t.2.add ds).release.1 : StateM W _).run w with ⟨_ | _, _⟩
    · rw [hstep] at hfiles
      rw [exec_bind_of_error hfiles]
    · rw [hstep] at hfiles
      rw [exec_bind_of_ok hfiles, exec_set]

theorem leavesContainer_addGraphs (files : List (String × String)) :
    LeavesContainer (addGraphs files : Writing (StateM W) Unit) := by
  have hget : LeavesContainer (get : Writing (StateM W) (Output W)) := fun _ _ => rfl
  have hfiles : ∀ {α : Type} (step : StateM W (Except Error α)), LeavesContainer (onFiles step) := fun _ _ _ => rfl
  have hdiscard : ∀ {α : Type} (step : StateM W (Except Error α)), LeavesContainer (discard (onFiles step)) := by
    intro α step
    show LeavesContainer ((fun _ => PUnit.unit) <$> onFiles step)
    exact (hfiles step).bind fun _ _ _ => rfl
  refine hget.bind fun o => ?_
  cases o.graphsDir with
  | none => exact fun _ _ => rfl
  | some =>
    induction files with
    | nil => exact fun _ _ => rfl
    | cons _ files ih =>
      simp only [forIn_cons, bind_assoc]
      exact (hfiles _).bind fun _ => (hdiscard _).bind fun _ => ih

theorem entries?_perform (c : Chore) (o : Output W) (w : W) :
    (exec c.perform o w).1.2.entries? =
      match (exec c.perform o w).1.1 with
      | .ok _ => o.entries?.map (· ++ c.entry?.toList)
      | .error _ => o.entries? := by
  have hleaves : ∀ {a : Writing (StateM W) Unit}, LeavesContainer a →
      (exec a o w).1.2.entries? =
        match (exec a o w).1.1 with
        | .ok _ => o.entries?.map (· ++ [])
        | .error _ => o.entries? := by
    intro a ha
    simp only [append_nil, Option.map_id']
    rw [Outputs.entries?, ha o w]
    split <;> rfl
  cases c with
  | entry e => exact entries?_addEntry e o w
  | strings ds => exact hleaves (leavesContainer_addStrings ds)
  | graphs files => exact hleaves (leavesContainer_addGraphs files)
  | count f => exact hleaves fun _ _ => rfl

/-- The container holds what it held before and the entries of the chores that were accepted. -/
theorem entries?_execAll (cs : List Chore) (o : Output W) (w : W) :
    (execAll cs o w).1.2.entries? = o.entries?.map (· ++ (accepted cs o w).filterMap Chore.entry?) := by
  induction cs generalizing o w with
  | nil =>
    show o.entries? = o.entries?.map (· ++ [])
    simp
  | cons c cs ih =>
    have hc := entries?_perform c o w
    rw [accepted, ← singleton_append]
    split
    · rename_i o' w' h
      rw [h] at hc
      rw [← execAll_singleton] at h
      rw [execAll_append_of_ok h, ih, hc]
      cases hentry : c.entry? <;> simp [hentry, Function.comp_def]
    · rename_i e o' w' h
      rw [h] at hc
      rw [← execAll_singleton] at h
      rw [execAll_append_of_error h]
      simpa using hc

end Untangle.Job
