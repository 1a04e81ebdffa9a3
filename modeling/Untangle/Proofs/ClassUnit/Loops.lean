import Untangle.Engine.Standard

/-!
# Loops over the methods of a class

Some passes go through the methods of a class one by one. Each method is kept or gets a new body, the changes are
added up, and there may be something to remember on the way. What holds of a method and what became of it, for
every method, holds of the lists.
-/

namespace Untangle

variable {owner : String}

/-- A relation between lists, with a count, that is built up from one between methods. -/
structure Elementwise (R : Nat → Method → Method → Prop) (P : Nat → List Method → List Method → Prop) : Prop where
  nil : P 0 [] []
  cons : ∀ {n k m m' ms ms'}, R n m m' → P k ms ms' → P (n + k) (m :: ms) (m' :: ms')

namespace Elementwise

variable {R : Nat → Method → Method → Prop} {P : Nat → List Method → List Method → Prop} (h : Elementwise R P)

include h

/-- What a step of a loop does with a method, the loop does with all of them. -/
theorem of_loop {σ α : Type} (loop : σ → Nat → List Method → List Method → α) (out : α → Nat × List Method)
    (hend : ∀ s changes done, out (loop s changes done []) = (changes, done.reverse))
    (hstep : ∀ s changes done m rest, ∃ s' n m',
      loop s changes done (m :: rest) = loop s' (changes + n) (m' :: done) rest ∧ R n m m')
    (s : σ) (ms : List Method) : P (out (loop s 0 [] ms)).1 ms (out (loop s 0 [] ms)).2 := by
  have hloop : ∀ s changes done, ∃ k ms',
      out (loop s changes done ms) = (changes + k, done.reverse ++ ms') ∧ P k ms ms' := by
    induction ms with
    | nil => exact fun s changes done => ⟨0, [], by simp [hend], h.nil⟩
    | cons m rest ih =>
      intro s changes done
      obtain ⟨s', n, m', hm, hR⟩ := hstep s changes done m rest
      obtain ⟨k, ms', heq, hms⟩ := ih s' (changes + n) (m' :: done)
      exact ⟨n + k, m' :: ms', by simp [hm, heq, Nat.add_assoc], h.cons hR hms⟩
  obtain ⟨k, ms', heq, hms⟩ := hloop s 0 []
  rw [heq]
  simpa using hms

theorem foldCalls {helpers : List String} (hkeep : ∀ m, R 0 m m)
    (hedit : ∀ {m : Method} {b : Body}, m.body = some b → R (b.sweep (XorHelpers.rule owner helpers)).1 m
      { m with body := some (b.sweep (XorHelpers.rule owner helpers)).2 }) (ms : List Method) :
    P (XorHelpers.foldCalls owner helpers 0 [] ms).1 ms (XorHelpers.foldCalls owner helpers 0 [] ms).2 := by
  refine h.of_loop (fun _ => XorHelpers.foldCalls owner helpers) id (fun _ _ _ => rfl) ?_ () ms
  intro _ _ _ m _
  rw [XorHelpers.foldCalls]
  split
  · next b hb => exact ⟨(), _, _, rfl, hedit hb⟩
  · exact ⟨(), 0, m, rfl, hkeep m⟩

theorem redirectCalls {fs : List Forwarder}
    (hkeep : ∀ {m : Method}, (Forwarder.find? fs m.signature).isSome ∨ m.body = none → R 0 m m)
    (hedit : ∀ {m : Method} {b : Body}, m.body = some b → Forwarder.find? fs m.signature = none →
      R (b.sweep fun _ => Forwarder.rule owner fs).1 m
        { m with body := some (b.sweep fun _ => Forwarder.rule owner fs).2 }) (ms : List Method) :
    P (Forwarder.redirectCalls owner fs 0 [] ms).1 ms (Forwarder.redirectCalls owner fs 0 [] ms).2 := by
  refine h.of_loop (fun _ => Forwarder.redirectCalls owner fs) id (fun _ _ _ => rfl) ?_ () ms
  intro _ _ _ m _
  rw [Forwarder.redirectCalls]
  split
  · next b hb hfind => exact ⟨(), _, _, rfl, hedit hb hfind⟩
  · next hkept =>
    refine ⟨(), 0, m, rfl, hkeep ?_⟩
    cases hb : m.body with
    | none => exact .inr rfl
    | some b => exact .inl (Option.isSome_iff_ne_none.mpr fun hnone => hkept b hb hnone)

theorem cleanMethods {owners : List String} (hkeep : ∀ m, R 0 m m)
    (hedit : ∀ {m : Method} {b : Body}, m.body = some b → R (ConstructorJunk.clean owners b).1 m
      { m with body := some (ConstructorJunk.clean owners b).2 }) (ms : List Method) :
    P (ConstructorJunk.cleanMethods owners 0 [] ms).1 ms (ConstructorJunk.cleanMethods owners 0 [] ms).2 := by
  refine h.of_loop (fun _ => ConstructorJunk.cleanMethods owners) id (fun _ _ _ => rfl) ?_ () ms
  intro _ _ _ m _
  rw [ConstructorJunk.cleanMethods]
  split
  · next b hb =>
    split
    · exact ⟨(), _, _, rfl, hedit hb⟩
    · exact ⟨(), 0, m, rfl, hkeep m⟩
  · exact ⟨(), 0, m, rfl, hkeep m⟩

theorem resolveMethods {known : List (Signature × CallSites.Hints)} (hkeep : ∀ m, R 0 m m)
    (hedit : ∀ {m : Method} {b : Body}, m.body = some b → R (CallSites.resolveBody owner known b).2.1 m
      { m with body := some (CallSites.resolveBody owner known b).2.2 }) (ms : List Method) :
    P (CallSites.resolveMethods owner known [] 0 [] ms).2.1 ms
      (CallSites.resolveMethods owner known [] 0 [] ms).2.2 := by
  refine h.of_loop (CallSites.resolveMethods owner known) Prod.snd (fun _ _ _ => rfl) ?_ [] ms
  intro resolved _ _ m _
  rw [CallSites.resolveMethods]
  split
  · exact ⟨resolved, 0, m, rfl, hkeep m⟩
  · next b hb => exact ⟨_, _, _, rfl, hedit hb⟩

theorem decryptMethods {k : Strings.Known} (hkeep : ∀ m, R 0 m m)
    (hedit : ∀ {m : Method} {b : Body} (p : Strings.Progress), m.body = some b → k.routine? m.signature = none →
      R (b.sweepWith (Strings.rule k m.name) p).2.1 m
        { m with body := some (b.sweepWith (Strings.rule k m.name) p).2.2 }) (p : Strings.Progress)
    (ms : List Method) :
    P (Strings.decryptMethods k p 0 [] ms).2.1 ms (Strings.decryptMethods k p 0 [] ms).2.2 := by
  refine h.of_loop (Strings.decryptMethods k) Prod.snd (fun _ _ _ => rfl) ?_ p ms
  intro p _ _ m _
  rw [Strings.decryptMethods]
  split
  · next b hb hroutine => exact ⟨_, _, _, rfl, hedit p hb hroutine⟩
  · exact ⟨p, 0, m, rfl, hkeep m⟩

end Elementwise

end Untangle
