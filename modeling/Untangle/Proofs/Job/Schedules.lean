import Untangle.Proofs.Deobfuscator
import Untangle.Proofs.Job.Writer
import Untangle.Storage.Volume

/-!
# Jobs under every schedule

Once everything is read, a job is done by workers and a writer. A worker takes any class that waits, works on it and
sends what became of it through a channel. The writer writes the resources and then whatever comes out of the channel.
If a chore fails, it gives up: it closes the outputs, and what is sent from then on is lost.

`Job.Step` is a step of any of them, in which the writing is done by the functions that do it in `Job.run`. Steps are
taken in any order until none is left, which is always reached (`Job.wellFounded_step`). Whatever the order was, the
files are left as by writing the classes one after the other in some order, the container holds what was accepted on
the way, and the counts do not depend on the order. Every order of the classes arises (`Job.exists_run_of_perm`).
-/

namespace Untangle.Job

open List

variable {order units : List (Archive.Entry × ClassUnit)}

/-! ### What becomes of a class -/

/-- What becomes of a class, under whatever number. -/
def outcome (d : Deobfuscator) (u : Archive.Entry × ClassUnit) : Finished := process d 0 u.1 u.2

/-- The entry for a class: under its own name, with the bytes of what became of it, or as it was if that failed. -/
def written (d : Deobfuscator) (u : Archive.Entry × ClassUnit) : Archive.Entry :=
  match d.runOn u.2 u.1.data 0 with
  | .ok r => { name := u.1.name, data := r.data, isDir := false }
  | .error _ => u.1

theorem process_eq_outcome (d : Deobfuscator) (number : Nat) (u : Archive.Entry × ClassUnit) :
    process d number u.1 u.2 = outcome d u := by
  rw [outcome, process, process, d.runOn_number]
  cases d.runOn u.2 u.1.data 0 <;> rfl

theorem entry_outcome (d : Deobfuscator) (u : Archive.Entry × ClassUnit) : (outcome d u).entry = written d u := by
  rw [outcome, process, written]
  cases d.runOn u.2 u.1.data 0 <;> rfl

/-- What a job counts. -/
def summaryOf (d : Deobfuscator) (units : List (Archive.Entry × ClassUnit)) (resources : List Archive.Entry) :
    JobSummary where
  units := units.length
  deobfuscated := units.countP fun u => (outcome d u).modified
  isolated := units.countP fun u => (outcome d u).isolated
  strings := (units.flatMap fun u => (outcome d u).decrypted).length
  resources := resources.length

theorem foldl_tally (finished : List Finished) (s : JobSummary) :
    finished.foldl tally s =
      { s with deobfuscated := s.deobfuscated + finished.countP (·.modified)
               isolated := s.isolated + finished.countP (·.isolated)
               strings := s.strings + (finished.flatMap (·.decrypted)).length } := by
  induction finished generalizing s with
  | nil => rfl
  | cons f finished ih =>
    simp only [foldl_cons, ih, tally, countP_cons, flatMap_cons, length_append, JobSummary.mk.injEq, true_and, and_true]
    omega

/-- Counting classes in any order gives the same. -/
theorem foldl_tally_perm (d : Deobfuscator) (h : order.Perm units) (resources : List Archive.Entry) :
    (order.map (outcome d)).foldl tally { units := units.length, resources := resources.length } =
      summaryOf d units resources := by
  rw [foldl_tally, countP_map, countP_map, flatMap_map, summaryOf, h.countP_eq, h.countP_eq,
    (h.flatMap_right _).length_eq]
  simp [Function.comp_def]

/-- `Job.run` writes the classes in the order in which they were read. -/
theorem run_eq_inOrder {m : Type → Type} [Monad m] [FileSystem m] (d : Deobfuscator) (options : Options) :
    (run d options : ExceptT Error m JobSummary) = do
      let container ← readContainer options.input
      let units ← ExceptT.mk (pure (load container))
      let outputs ← openOutputs options container.kind
      writeAll outputs container.resources (units.map (outcome d))
      return summaryOf d units container.resources := by
  have hfinished : ∀ units : List (Archive.Entry × ClassUnit),
      (units.zipIdx.map fun x => process d x.2 x.1.1 x.1.2) = units.map (outcome d) := by
    intro units
    rw [map_congr_left fun x _ => process_eq_outcome d x.2 x.1]
    conv => rhs; rw [← zipIdx_map_fst 0 units, map_map]
    rfl
  have hsummary : ∀ (units : List (Archive.Entry × ClassUnit)) (resources : List Archive.Entry),
      (units.map (outcome d)).foldl tally { units := units.length, resources := resources.length } =
        summaryOf d units resources := fun units resources => foldl_tally_perm d (.refl units) resources
  simp [run, hfinished, hsummary]

/-! ### Workers, channel and writer -/

/-- How far the writer is. -/
inductive Writer where
  | writing
  /-- A chore failed, and the outputs are still open. -/
  | gaveUp (cause : Error)
  | closed (result : Except Error JobSummary)

/-- A job once everything was read. -/
structure System (W : Type) [FileSystem (StateM W)] where
  crew : Crew (Archive.Entry × ClassUnit)
  /-- The next number to be given out. -/
  next : Nat := 0
  /-- What was sent and not yet received. -/
  channel : List Finished := []
  /-- What the writer has to do before it receives again. -/
  todo : List Chore
  tally : JobSummary
  output : Output W
  world : W
  writer : Writer := .writing

variable {W : Type} [FileSystem (StateM W)]

namespace System

/-- All classes wait, and the resources are to be written. -/
def start (units : List (Archive.Entry × ClassUnit)) (resources : List Archive.Entry) (o : Output W) (w : W) :
    System W where
  crew := { waiting := units }
  todo := resources.map .entry
  tally := { units := units.length, resources := resources.length }
  output := o
  world := w

/-- The channel after something was sent. Once the writer gave up nobody listens. -/
def send (s : System W) (f : Finished) : List Finished :=
  match s.writer with
  | .writing => s.channel ++ [f]
  | _ => s.channel

end System

/-- A step of a worker or of the writer. -/
inductive Step (d : Deobfuscator) : System W → System W → Prop where
  /-- A worker takes a class. -/
  | starts {s : System W} {crew : Crew (Archive.Entry × ClassUnit)} (h : s.crew.Starts s.next crew) :
    Step d s { s with crew, next := s.next + 1 }
  /-- A worker is done with a class and sends what became of it. -/
  | finishes {s : System W} {crew : Crew (Archive.Entry × ClassUnit)} {number : Nat} {u : Archive.Entry × ClassUnit}
    (h : s.crew.Finishes (number, u) crew) :
    Step d s { s with crew, channel := s.send (process d number u.1 u.2) }
  /-- The writer takes out of the channel what was sent first. -/
  | receives {s : System W} {f : Finished} {rest : List Finished} (hwriter : s.writer = .writing)
    (htodo : s.todo = []) (hchannel : s.channel = f :: rest) :
    Step d s { s with channel := rest, todo := f.chores }
  /-- The writer does its next chore. -/
  | performs {s : System W} {c : Chore} {rest : List Chore} {o : Output W} {w : W} (hwriter : s.writer = .writing)
    (htodo : s.todo = c :: rest) (hexec : exec c.perform s.output s.world = ((.ok (), o), w)) :
    Step d s { s with todo := rest, tally := c.tally s.tally, output := o, world := w }
  /-- The next chore fails, and the writer stops listening. -/
  | givesUp {s : System W} {c : Chore} {rest : List Chore} {o : Output W} {w : W} {e : Error}
    (hwriter : s.writer = .writing) (htodo : s.todo = c :: rest)
    (hexec : exec c.perform s.output s.world = ((.error e, o), w)) :
    Step d s { s with todo := [], channel := [], output := o, world := w, writer := .gaveUp e }
  /-- The writer gave up and closes the outputs. -/
  | closesEarly {s : System W} {e : Error} (hwriter : s.writer = .gaveUp e) :
    Step d s { s with world := (execClose s.output s.world).2, writer := .closed (.error e) }
  /-- Nothing more will be sent: the outputs are closed. -/
  | closes {s : System W} (hwriter : s.writer = .writing) (htodo : s.todo = []) (hchannel : s.channel = [])
    (hidle : s.crew.Idle) :
    Step d s { s with world := (execClose s.output s.world).2
                      writer := .closed ((execClose s.output s.world).1.map fun _ => s.tally) }

/-- Some steps, in any order. -/
abbrev Run (d : Deobfuscator) : System W → System W → Prop := Relation.ReflTransGen (Step d)

/-- The run is over once the outputs are closed and nothing is left to work on. -/
theorem closed_of_end {s : System W} (hend : ∀ t, ¬ Step d s t) :
    s.crew.Idle ∧ ∃ result, s.writer = .closed result := by
  have hidle : s.crew.Idle := by
    rcases s.crew.idle_or_acts s.next with hidle | ⟨c, hc⟩ | ⟨_, c, hc⟩
    · exact hidle
    · exact absurd (.starts hc) (hend _)
    · exact absurd (.finishes hc) (hend _)
  refine ⟨hidle, ?_⟩
  cases hwriter : s.writer with
  | closed result => exact ⟨result, rfl⟩
  | gaveUp e => exact absurd (.closesEarly hwriter) (hend _)
  | writing =>
    exfalso
    cases htodo : s.todo with
    | cons c rest =>
      rcases hexec : exec c.perform s.output s.world with ⟨⟨e | ⟨⟩, o⟩, w⟩
      · exact hend _ (.givesUp hwriter htodo hexec)
      · exact hend _ (.performs hwriter htodo hexec)
    | nil =>
      cases hchannel : s.channel with
      | cons f rest => exact hend _ (.receives hwriter htodo hchannel)
      | nil => exact hend _ (.closes hwriter htodo hchannel hidle)

/-- How much is left to do, with a class that waits for the writer as five chores and one that is worked on as one
more. -/
def System.load (s : System W) : Nat :=
  6 * s.crew.load + 5 * s.channel.length + s.todo.length +
    match s.writer with
    | .writing => 2
    | .gaveUp _ => 1
    | .closed _ => 0

/-- No run goes on for ever. -/
theorem wellFounded_step (d : Deobfuscator) : WellFounded fun t s : System W => Step d s t := by
  refine Subrelation.wf (fun {t s} hstep => ?_) (measure fun s => s.load).wf
  show t.load < s.load
  cases hstep with
  | starts h =>
    have := h.load
    simp only [System.load]
    omega
  | @finishes _ number u h =>
    have hcrew := h.load
    have hsent : (s.send (process d number u.1 u.2)).length ≤ s.channel.length + 1 := by
      unfold System.send
      split <;> simp
    simp only [System.load]
    omega
  | receives hwriter htodo hchannel =>
    simp only [System.load, htodo, hchannel, Finished.chores, length_cons]
    omega
  | performs hwriter htodo =>
    simp only [System.load, htodo, length_cons]
    omega
  | givesUp hwriter htodo =>
    simp only [System.load, hwriter, length_nil]
    omega
  | closesEarly hwriter =>
    simp only [System.load, hwriter]
    omega
  | closes hwriter =>
    simp only [System.load, hwriter]
    omega

/-- Every run can be continued to its end. -/
theorem exists_end (d : Deobfuscator) (s : System W) : ∃ t, Run d s t ∧ ∀ u, ¬ Step d t u := by
  induction s using (wellFounded_step d).induction with
  | _ s ih =>
    by_cases hnext : ∃ t, Step d s t
    · obtain ⟨t, hstep⟩ := hnext
      obtain ⟨u, hrun, hend⟩ := ih t hstep
      exact ⟨u, .head hstep hrun, hend⟩
    · exact ⟨s, .refl, fun u hu => hnext ⟨u, hu⟩⟩

/-! ### What every run keeps -/

/-- How far the writer is, in terms of writing classes one after the other. -/
inductive Phase (resources : List Archive.Entry) (first : JobSummary) (o : Output W) (w : W) (s : System W)
    (finished : List Finished) : Prop where
  /-- Some of the chores are done, for the classes that were received. -/
  | writing (received : List Finished) (performed : List Chore) (hwriter : s.writer = .writing)
    (hfinished : finished = received ++ s.channel) (hchores : chores resources received = performed ++ s.todo)
    (hexec : execAll performed o w = ((.ok (), s.output), s.world))
    (htally : s.tally = performed.foldl Chore.tally first)
  /-- One of them failed. -/
  | gaveUp (e : Error) (hwriter : s.writer = .gaveUp e)
    (hexec : execAll (chores resources finished) o w = ((.error e, s.output), s.world))
  | failed (e : Error) (w' : W) (hwriter : s.writer = .closed (.error e))
    (hexec : execAll (chores resources finished) o w = ((.error e, s.output), w'))
    (hworld : s.world = (execClose s.output w').2)
  /-- All of them are done. -/
  | completed (w' : W) (hidle : s.crew.Idle)
    (hwriter : s.writer = .closed ((execClose s.output w').1.map fun _ => finished.foldl tally first))
    (hexec : execAll (chores resources finished) o w = ((.ok (), s.output), w'))
    (hworld : s.world = (execClose s.output w').2)

namespace Phase

variable {resources : List Archive.Entry} {first : JobSummary} {o : Output W} {w : W} {s : System W}
  {finished : List Finished} (h : Phase resources first o w s finished)

include h

theorem starts {next : Nat} {crew : Crew (Archive.Entry × ClassUnit)} (hs : s.crew.Starts next crew) :
    Phase resources first o w { s with crew, next := s.next + 1 } finished := by
  cases h with
  | writing received performed hwriter hfinished hchores hexec htally =>
    exact .writing received performed hwriter hfinished hchores hexec htally
  | gaveUp e hwriter hexec => exact .gaveUp e hwriter hexec
  | failed e w' hwriter hexec hworld => exact .failed e w' hwriter hexec hworld
  | completed w' hidle => exact absurd hs hidle.not_starts

/-- What is sent comes after all that was sent before. It makes no difference once a chore failed. -/
theorem finishes {task : Nat × Archive.Entry × ClassUnit} {crew : Crew (Archive.Entry × ClassUnit)}
    (hf : s.crew.Finishes task crew) (f : Finished) :
    Phase resources first o w { s with crew, channel := s.send f } (finished ++ [f]) := by
  cases h with
  | writing received performed hwriter hfinished hchores hexec htally =>
    refine .writing received performed hwriter ?_ hchores hexec htally
    show finished ++ [f] = received ++ s.send f
    rw [System.send, hwriter, hfinished, append_assoc]
  | gaveUp e hwriter hexec =>
    refine .gaveUp e hwriter ?_
    rw [chores_append]
    exact execAll_append_of_error hexec _
  | failed e w' hwriter hexec hworld =>
    refine .failed e w' hwriter ?_ hworld
    rw [chores_append]
    exact execAll_append_of_error hexec _
  | completed w' hidle => exact absurd hf hidle.not_finishes

/-- While the writer is writing. -/
theorem exists_of_writing (hwriter : s.writer = .writing) :
    ∃ received performed, finished = received ++ s.channel ∧ chores resources received = performed ++ s.todo ∧
      execAll performed o w = ((.ok (), s.output), s.world) ∧ s.tally = performed.foldl Chore.tally first := by
  cases h with
  | writing received performed _ hfinished hchores hexec htally =>
    exact ⟨received, performed, hfinished, hchores, hexec, htally⟩
  | gaveUp e hgaveUp => cases hgaveUp.symm.trans hwriter
  | failed e w' hclosed => cases hclosed.symm.trans hwriter
  | completed w' _ hclosed => cases hclosed.symm.trans hwriter

theorem exec_of_gaveUp {e : Error} (hgaveUp : s.writer = .gaveUp e) :
    execAll (chores resources finished) o w = ((.error e, s.output), s.world) := by
  cases h with
  | writing _ _ hwriter => cases hwriter.symm.trans hgaveUp
  | gaveUp e' hwriter hexec =>
    cases hwriter.symm.trans hgaveUp
    exact hexec
  | failed e' w' hclosed => cases hclosed.symm.trans hgaveUp
  | completed w' _ hclosed => cases hclosed.symm.trans hgaveUp

end Phase

/-- No chore fails, and neither does closing. -/
def NoFailure (cs : List Chore) (o : Output W) (w : W) : Prop :=
  (execAll cs o w).1.1 = .ok () ∧ (execClose (execAll cs o w).1.2 (execAll cs o w).2).1 = .ok ()

/-- Every class is accounted for, and the writer is somewhere in writing those that are done. -/
structure Kept (d : Deobfuscator) (units : List (Archive.Entry × ClassUnit)) (resources : List Archive.Entry)
    (o : Output W) (w : W) (s : System W) (done : List (Nat × Archive.Entry × ClassUnit)) : Prop where
  accounts : s.crew.Accounts units done s.next
  phase : Phase resources { units := units.length, resources := resources.length } o w s
    (done.map fun x => outcome d x.2)

namespace Kept

variable {d : Deobfuscator} {units : List (Archive.Entry × ClassUnit)} {resources : List Archive.Entry}
  {o : Output W} {w : W} {s t : System W} {done : List (Nat × Archive.Entry × ClassUnit)}

theorem of_start (d : Deobfuscator) (units : List (Archive.Entry × ClassUnit)) (resources : List Archive.Entry)
    (o : Output W) (w : W) : Kept d units resources o w (.start units resources o w) [] where
  accounts := Crew.accounts_start units
  phase := .writing [] [] rfl rfl (append_nil _) rfl rfl

variable (h : Kept d units resources o w s done)

include h

theorem starts {crew : Crew (Archive.Entry × ClassUnit)} (hs : s.crew.Starts s.next crew) :
    Kept d units resources o w { s with crew, next := s.next + 1 } done :=
  ⟨h.accounts.starts hs, h.phase.starts hs⟩

theorem finishes {crew : Crew (Archive.Entry × ClassUnit)} {number : Nat} {u : Archive.Entry × ClassUnit}
    (hf : s.crew.Finishes (number, u) crew) :
    Kept d units resources o w { s with crew, channel := s.send (process d number u.1 u.2) }
      (done ++ [(number, u)]) := by
  refine ⟨h.accounts.finishes hf, ?_⟩
  rw [map_append, process_eq_outcome]
  exact h.phase.finishes hf _

/-- One step. If nothing is left to work on, it is a step of the writer. -/
theorem step (hstep : Step d s t) :
    ∃ more, Kept d units resources o w t (done ++ more) ∧ (s.crew.Idle → more = [] ∧ t.crew.Idle) := by
  -- a step of the writer adds nothing to what is done
  have hwriter : t.crew = s.crew → t.next = s.next →
      Phase resources { units := units.length, resources := resources.length } o w t
        (done.map fun x => outcome d x.2) →
      ∃ more, Kept d units resources o w t (done ++ more) ∧ (s.crew.Idle → more = [] ∧ t.crew.Idle) := by
    intro hcrew hnext _
    refine ⟨[], ⟨?_, ?_⟩, fun hidle => ⟨rfl, hcrew ▸ hidle⟩⟩
    · rw [append_nil, hcrew, hnext]
      exact h.accounts
    · rwa [append_nil]
  cases hstep with
  | starts hs => exact ⟨[], (append_nil done).symm ▸ h.starts hs, fun hidle => absurd hs hidle.not_starts⟩
  | @finishes crew number u hf =>
    exact ⟨[(number, u)], h.finishes hf, fun hidle => absurd hf hidle.not_finishes⟩
  | @receives f rest hwriting htodo hchannel =>
    obtain ⟨received, performed, hfinished, hchores, hexec, htally⟩ := h.phase.exists_of_writing hwriting
    refine hwriter rfl rfl (.writing (received ++ [f]) performed hwriting ?_ ?_ hexec htally)
    · rw [hfinished, hchannel, append_assoc]
      rfl
    · rw [chores_append, hchores, htodo, append_nil, flatMap_singleton]
  | @performs c rest o' w' hwriting htodo hstep =>
    obtain ⟨received, performed, hfinished, hchores, hexec, htally⟩ := h.phase.exists_of_writing hwriting
    refine hwriter rfl rfl (.writing received (performed ++ [c]) hwriting hfinished ?_ ?_ ?_)
    · rw [hchores, htodo, append_assoc]
      rfl
    · rw [execAll_append_of_ok hexec, execAll_singleton, hstep]
    · rw [foldl_append, ← htally]
      rfl
  | @givesUp c rest o' w' e hwriting htodo hstep =>
    obtain ⟨received, performed, hfinished, hchores, hexec, -⟩ := h.phase.exists_of_writing hwriting
    refine hwriter rfl rfl (.gaveUp e rfl ?_)
    have hfailed : execAll (performed ++ [c]) o w = ((.error e, o'), w') := by
      rw [execAll_append_of_ok hexec, execAll_singleton, hstep]
    rw [hfinished, chores_append, hchores, htodo, ← singleton_append, ← append_assoc, append_assoc _ rest]
    exact execAll_append_of_error hfailed _
  | @closesEarly e hgaveUp => exact hwriter rfl rfl (.failed e s.world rfl (h.phase.exec_of_gaveUp hgaveUp) rfl)
  | closes hwriting htodo hchannel hidle =>
    obtain ⟨received, performed, hfinished, hchores, hexec, htally⟩ := h.phase.exists_of_writing hwriting
    rw [htodo, append_nil] at hchores
    rw [hchannel, append_nil] at hfinished
    rw [← hchores, foldl_tally_chores, ← hfinished] at htally
    rw [← hchores, ← hfinished] at hexec
    exact hwriter rfl rfl (.completed s.world hidle (by rw [htally]) hexec rfl)

theorem run (hrun : Run d s t) :
    ∃ more, Kept d units resources o w t (done ++ more) ∧ (s.crew.Idle → more = [] ∧ t.crew.Idle) := by
  induction hrun with
  | refl => exact ⟨[], (append_nil done).symm ▸ h, fun hidle => ⟨rfl, hidle⟩⟩
  | tail _ hstep ih =>
    obtain ⟨more, hkept, hidle⟩ := ih
    obtain ⟨more', hkept', hidle'⟩ := hkept.step hstep
    refine ⟨more ++ more', append_assoc done more more' ▸ hkept', fun hs => ?_⟩
    obtain ⟨hmore, ht⟩ := hidle hs
    obtain ⟨hmore', hu⟩ := hidle' ht
    exact ⟨by rw [hmore, hmore', append_nil], hu⟩

section

variable (hend : ∀ t, ¬ Step d s t)

include hend

/-- Once the run is over, all chores were done up to the first that failed, and the outputs are closed. -/
theorem exists_of_end :
    ∃ r w', execAll (chores resources ((done.map Prod.snd).map (outcome d))) o w = ((r, s.output), w') ∧
      s.world = (execClose s.output w').2 ∧
      s.writer = .closed (r.bind fun _ => (execClose s.output w').1.map fun _ => summaryOf d units resources) := by
  have hfinished : (done.map fun x => outcome d x.2) = (done.map Prod.snd).map (outcome d) := by
    rw [map_map]
    rfl
  obtain ⟨hidle, _, hclosed⟩ := closed_of_end hend
  have hphase := h.phase
  rw [hfinished] at hphase
  cases hphase with
  | writing _ _ hwriter => cases hwriter.symm.trans hclosed
  | gaveUp e hwriter => cases hwriter.symm.trans hclosed
  | failed e w' hwriter hexec hworld => exact ⟨.error e, w', hexec, hworld, hwriter⟩
  | completed w' _ hwriter hexec hworld =>
    rw [foldl_tally_perm d (h.accounts.of_idle hidle).1] at hwriter
    exact ⟨.ok (), w', hexec, hworld, hwriter⟩

/-- The files are left as by writing the classes in the order in which they were done. -/
theorem writeAll_of_end :
    ∃ result, s.writer = .closed result ∧
      execWriteAll o resources ((done.map Prod.snd).map (outcome d)) w = (result.map fun _ => (), s.world) := by
  obtain ⟨r, w', hexec, hworld, hwriter⟩ := h.exists_of_end hend
  refine ⟨_, hwriter, ?_⟩
  cases r with
  | error e =>
    rw [execWriteAll_of_error hexec, ← hworld]
    rfl
  | ok =>
    rw [execWriteAll_of_ok hexec, hworld]
    rcases execClose s.output w' with ⟨e | ⟨⟩, _⟩ <;> rfl

/-- The container holds the entries of the chores that were accepted. -/
theorem entries?_of_end :
    s.output.entries? = o.entries?.map
      (· ++ (accepted (chores resources ((done.map Prod.snd).map (outcome d))) o w).filterMap Chore.entry?) := by
  obtain ⟨r, _, hexec, -⟩ := h.exists_of_end hend
  have hentries := entries?_execAll (chores resources ((done.map Prod.snd).map (outcome d))) o w
  rw [hexec] at hentries
  exact hentries

theorem closed_of_noFailure (hnone : NoFailure (chores resources ((done.map Prod.snd).map (outcome d))) o w) :
    s.writer = .closed (.ok (summaryOf d units resources)) := by
  obtain ⟨r, _, hexec, -, hwriter⟩ := h.exists_of_end hend
  obtain ⟨hchores, hclose⟩ := hnone
  rw [hexec] at hchores hclose
  dsimp only at hchores hclose
  rw [hchores, hclose] at hwriter
  exact hwriter

theorem closed_of_failure (hsome : ¬ NoFailure (chores resources ((done.map Prod.snd).map (outcome d))) o w) :
    ∃ e, s.writer = .closed (.error e) := by
  obtain ⟨r, w', hexec, -, hwriter⟩ := h.exists_of_end hend
  rw [NoFailure, hexec] at hsome
  cases r with
  | error e => exact ⟨e, hwriter⟩
  | ok =>
    cases hclose : (execClose s.output w').1 with
    | error e =>
      rw [hclose] at hwriter
      exact ⟨e, hwriter⟩
    | ok => exact absurd ⟨rfl, hclose⟩ hsome

end

end Kept

/-! ### The end of every run -/

/-- The entries of all chores: the resources in order, then every class under its own name. -/
theorem filterMap_entry?_outcome (d : Deobfuscator) (resources : List Archive.Entry)
    (order : List (Archive.Entry × ClassUnit)) :
    (chores resources (order.map (outcome d))).filterMap Chore.entry? = resources ++ order.map (written d) := by
  rw [filterMap_entry?_chores, map_map]
  exact congrArg _ (map_congr_left fun u _ => entry_outcome d u)

/-- Every run ends with the outputs closed, and the files are left as by writing the classes one after the other in
some order. If nothing fails, the container holds the resources in order and then each class once, and the counts do
not depend on the order. If something fails, the container holds the entries that were accepted before, from the same
layout. -/
theorem every_run_delivers (d : Deobfuscator) (units : List (Archive.Entry × ClassUnit))
    (resources : List Archive.Entry) (o : Output W) (w : W) {s : System W}
    (hrun : Run d (.start units resources o w) s) (hend : ∀ t, ¬ Step d s t) :
    ∃ (order : List (Archive.Entry × ClassUnit)) (result : Except Error JobSummary),
      let layout := resources ++ order.map (written d)
      let cs := chores resources (order.map (outcome d))
      order.Perm units ∧ s.writer = .closed result ∧
        execWriteAll o resources (order.map (outcome d)) w = (result.map fun _ => (), s.world) ∧
        (NoFailure cs o w →
          result = .ok (summaryOf d units resources) ∧ s.output.entries? = o.entries?.map (· ++ layout)) ∧
        (¬ NoFailure cs o w →
          (∃ e, result = .error e) ∧ (accepted cs o w).filterMap Chore.entry? <+: layout ∧
            s.output.entries? = o.entries?.map (· ++ (accepted cs o w).filterMap Chore.entry?)) := by
  obtain ⟨done, hkept, -⟩ := (Kept.of_start d units resources o w).run hrun
  rw [nil_append] at hkept
  obtain ⟨hidle, -⟩ := closed_of_end hend
  obtain ⟨result, hresult, hfiles⟩ := hkept.writeAll_of_end hend
  have hentries := hkept.entries?_of_end hend
  have hlayout := filterMap_entry?_outcome d resources (done.map Prod.snd)
  refine ⟨done.map Prod.snd, result, (hkept.accounts.of_idle hidle).1, hresult, hfiles, fun hnone => ?_,
    fun hsome => ?_⟩
  · have hclosed := hkept.closed_of_noFailure hend hnone
    rw [accepted_eq_self_iff.mpr hnone.1, hlayout] at hentries
    exact ⟨Writer.closed.inj (hresult.symm.trans hclosed), hentries⟩
  · obtain ⟨e, hclosed⟩ := hkept.closed_of_failure hend hsome
    refine ⟨⟨e, Writer.closed.inj (hresult.symm.trans hclosed)⟩, ?_, hentries⟩
    rw [← hlayout]
    exact (accepted_isPrefix _ o w).filterMap Chore.entry?

/-! ### Every order arises -/

/-- Classes can be done in any order before the writer does anything. -/
theorem Kept.exists_run {o : Output W} (h : Kept d units resources o w s done) (hworking : s.crew.working = [])
    (horder : order.Perm s.crew.waiting) :
    ∃ t done', Run d s t ∧ Kept d units resources o w t done' ∧ t.crew.Idle ∧
      done'.map Prod.snd = done.map Prod.snd ++ order := by
  induction order generalizing s done with
  | nil => exact ⟨s, done, .refl, h, ⟨horder.nil_eq.symm, hworking⟩, (append_nil _).symm⟩
  | cons u order ih =>
    obtain ⟨pre, post, hwaiting⟩ := append_of_mem (horder.mem_iff.mp mem_cons_self)
    have hstarts : s.crew.Starts s.next { waiting := pre ++ post, working := (s.next, u) :: s.crew.working } :=
      .mk hwaiting
    have hfinishes : ({ waiting := pre ++ post, working := (s.next, u) :: s.crew.working } : Crew _).Finishes
        (s.next, u) { waiting := pre ++ post, working := s.crew.working } := @Crew.Finishes.mk _ _ _ [] _ rfl
    have hrest : order.Perm (pre ++ post) := by
      rw [hwaiting] at horder
      exact (horder.trans perm_middle).cons_inv
    have hkept := (h.starts hstarts).finishes hfinishes
    obtain ⟨t, done', hrun, hkept', hidle, hdone⟩ := ih hkept hworking hrest
    refine ⟨t, done', .head (.starts hstarts) (.head (.finishes hfinishes) hrun), hkept', hidle, ?_⟩
    rw [hdone, map_append, append_assoc]
    rfl

/-- Whatever the order of the classes, some run writes them in this order, as `Job.run` does in the order in which
they were read. -/
theorem exists_run_of_perm (d : Deobfuscator) (horder : order.Perm units) (resources : List Archive.Entry)
    (o : Output W) (w : W) :
    ∃ s, Run d (.start units resources o w) s ∧ (∀ t, ¬ Step d s t) ∧
      ∃ result, s.writer = .closed result ∧
        execWriteAll o resources (order.map (outcome d)) w = (result.map fun _ => (), s.world) := by
  obtain ⟨s, _, hrun, hkept, hidle, hdone⟩ := (Kept.of_start d units resources o w).exists_run rfl horder
  obtain ⟨t, hrun', hend⟩ := exists_end d s
  obtain ⟨_, hkept', hnothing⟩ := hkept.run hrun'
  rw [(hnothing hidle).1, append_nil] at hkept'
  obtain ⟨result, hresult, hfiles⟩ := hkept'.writeAll_of_end hend
  rw [hdone] at hfiles
  exact ⟨t, hrun.trans hrun', hend, result, hresult, hfiles⟩

/-! ### On a volume -/

/-- An archive may be written, and no graphs are. -/
structure Plain (o : Output Volume) : Prop where
  kind : ∀ c ∈ o.container, c.2.kind = .archive
  graphs : o.graphsDir = none

/-- Writing to a volume goes on for as long as no files have to be created. -/
theorem Plain.exec_perform {o : Output Volume} (h : Plain o) (c : Chore) (v : Volume) :
    ∃ o' v', exec c.perform o v = ((.ok (), o'), v') ∧ Plain o' := by
  cases c with
  | entry e =>
    show ∃ o' v', exec (addEntry e) o v = _ ∧ _
    unfold addEntry
    rw [exec_bind_of_ok (exec_get o v)]
    cases hcontainer : o.container with
    | none => exact ⟨o, v, rfl, h⟩
    | some c =>
      have hadd : c.2.add e = .ok { c.2 with entries := e :: c.2.entries } := by
        rw [ContainerWriter.add, if_neg]
        rw [h.kind c (by rw [hcontainer]; rfl)]
        simp
      dsimp only
      rw [hadd]
      refine ⟨_, _, rfl, ?_, h.graphs⟩
      rintro _ ⟨⟩
      exact h.kind c (by rw [hcontainer]; rfl)
  | strings ds =>
    show ∃ o' v', exec (addStrings ds) o v = _ ∧ _
    unfold addStrings
    rw [exec_bind_of_ok (exec_get o v)]
    cases o.strings with
    | none => exact ⟨o, v, rfl, h⟩
    | some t => exact ⟨_, _, rfl, h.kind, h.graphs⟩
  | graphs files =>
    refine ⟨o, v, ?_, h⟩
    show exec (addGraphs files) o v = _
    unfold addGraphs
    rw [exec_bind_of_ok (exec_get o v), h.graphs]
    rfl
  | count f => exact ⟨o, v, rfl, h⟩

theorem Plain.execAll {o : Output Volume} (h : Plain o) (cs : List Chore) (v : Volume) :
    ∃ o' v', execAll cs o v = ((.ok (), o'), v') := by
  induction cs generalizing o v with
  | nil => exact ⟨o, v, rfl⟩
  | cons c cs ih =>
    obtain ⟨o', v', hc, h'⟩ := h.exec_perform c v
    rw [← execAll_singleton] at hc
    obtain ⟨o'', v'', hcs⟩ := ih h' v'
    refine ⟨o'', v'', ?_⟩
    rw [← singleton_append, execAll_append_of_ok hc, hcs]

theorem Plain.noFailure {o : Output Volume} (h : Plain o) (cs : List Chore) (v : Volume) : NoFailure cs o v := by
  obtain ⟨o', v', hcs⟩ := h.execAll cs v
  rw [NoFailure, hcs]
  refine ⟨rfl, ?_⟩
  show (execClose o' v').1 = .ok ()
  unfold execClose close finish
  cases o'.container <;> cases o'.strings <;> rfl

/-- The two classes of an archive, of which one is changed. -/
def twoUnits : List (Archive.Entry × ClassUnit) :=
  match load ⟨.archive, [⟨"A.class", Batch.plainClass, false⟩, ⟨"B.class", Batch.poppingClass, false⟩], []⟩ with
  | .ok units => units
  | .error _ => []

/-- A file that is no class. -/
def notes : Archive.Entry := ⟨"notes.txt", [104, 105], false⟩

/-- An archive of which nothing is written yet. -/
def emptyArchive : Output Volume where
  container := some (({ place := ["out.jar"] } : Volume.Pen), { kind := .archive })

theorem twoUnits_delivered :
    ∃ s : System Volume, Run {} (.start twoUnits [notes] emptyArchive (.empty [])) s ∧ (∀ t, ¬ Step {} s t) ∧
      s.writer = .closed (.ok { units := 2, deobfuscated := 1, resources := 1 }) ∧
      ∃ order : List (Archive.Entry × ClassUnit), order.Perm twoUnits ∧
        s.output.entries? = some (notes :: order.map (written {})) := by
  have hsummary : summaryOf {} twoUnits [notes] = { units := 2, deobfuscated := 1, resources := 1 } := by
    decide +kernel
  have hplain : Plain emptyArchive := by
    refine ⟨?_, rfl⟩
    rintro _ ⟨⟩
    rfl
  obtain ⟨s, hrun, hend, -⟩ :=
    exists_run_of_perm {} (reverse_perm twoUnits) [notes] emptyArchive (Volume.empty [])
  obtain ⟨order, _, horder, hresult, -, hall, -⟩ := every_run_delivers {} twoUnits [notes] _ _ hrun hend
  obtain ⟨hsame, hentries⟩ := hall (hplain.noFailure _ _)
  rw [hsame, hsummary] at hresult
  exact ⟨s, hrun, hend, hresult, order, horder, hentries⟩

end Untangle.Job
