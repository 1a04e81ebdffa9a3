import Untangle.Proofs.Code.StackHeight
import Untangle.Proofs.Simplification.Bypass

/-!
# Undoing detours and the operand stack

A throw empties the operand stack but for the exception. The jump that stands for it once a detour is
undone does not: it carries along what was below. Where nothing is below, heights of the operand stack
that fit a body fit it after its detours were undone.
-/

namespace Untangle

open List Instruction

variable {n : Node} {height base : Nat → Nat} {r : Range} {live : Nat → Prop} {b' : Body} {t : Label} {α : Sort*}
  {k : Node}

namespace ExceptionFlow

variable {b : Body}

/-! ### What the heights rely on -/

/-- Nothing is on the stack where range `index` of `b` starts, if control comes there. In `b'`, where the range is
undone, what is new is covered only by ranges with handlers that control could come to before. -/
def EntersBare (height : Nat → Nat) (index : Nat) (b b' : Body) : Prop :=
  ∀ r n, b.ranges[index]? = some r → (b.realBetween r.start r.stop).head? = some n → b.Reaches n →
    height n.id = 0 ∧ ∀ q ∈ b'.ranges, ∀ k ∈ b'.realBetween q.start q.stop, k.id ∉ b.nodes.map Node.id →
      ∀ m, b.code.realAt? q.handler = some m → b.Reaches m

/-- Just the exception is on the stack where range `index` throws, if it always does and control comes there. -/
def ThrowsBare (height : Nat → Nat) (index : Nat) (b : Body) : Prop :=
  ∀ r n, b.ranges[index]? = some r → alwaysThrows (b.realBetween r.start r.stop) = true →
    (b.realBetween r.start r.stop).getLast? = some n → b.Reaches n → height n.id = 1

/-- What undoing the detours of a body relies on, where a range is undone: nothing is on the stack where a
redirection starts, and just the exception where a range without effect throws. -/
structure Bare (b : Body) (height : Nat → Nat) : Prop where
  enters : ∀ i c c', Tries restore? b.ranges.length 0 b i c → restore? c i = .ok (some c') → EntersBare height i c c'
  throws : ∀ restored d, each restore? b.ranges.length 0 0 b = .ok (restored, d) →
    ∀ i c c', Tries dropPure? d.ranges.length 0 d i c → dropPure? c i = .ok (some c') → ThrowsBare height i c

/-- Heights that fit a set of instructions, given by their numbers, which control stays in. -/
structure Flows (b : Body) (live : Nat → Prop) (height : Nat → Nat) : Prop where
  entry : ∀ n, b.nodes.find? Node.isReal = some n → live n.id ∧ height n.id = 0
  runs : ∀ n ∈ b.nodes, n.isReal = true → live n.id → ∃ e, n.instr.effect? = some e ∧ e.pops ≤ height n.id
  falls : ∀ n m, n.isReal = true → live n.id → n.instr.fallsThrough = true → FirstAfter b.nodes n m →
    live m.id ∧ height m.id = n.instr.heightBehind (height n.id)
  jumps : ∀ n ∈ b.nodes, live n.id → ∀ t ∈ n.instr.targets, ∀ m, b.code.realAt? t = some m →
    live m.id ∧ height m.id = n.instr.heightAfter (height n.id)
  thrown : ∀ r ∈ b.ranges, ∀ n ∈ b.realBetween r.start r.stop, live n.id →
    ∀ m, b.code.realAt? r.handler = some m → live m.id
  handlers : ∀ r ∈ b.ranges, ∀ m, b.code.realAt? r.handler = some m → live m.id → height m.id = 1

/-- What control can come to, by number. -/
def Live (b : Body) (id : Nat) : Prop := ∃ n, b.Reaches n ∧ n.id = id

theorem live_iff (h : b.WellFormed) (hn : n ∈ b.nodes) : Live b n.id ↔ b.Reaches n := by
  constructor
  · rintro ⟨m, hm, he⟩
    rwa [← eq_of_id_eq h.ids_nodup (h.mem_of_reaches hm) hn he]
  · exact fun hr => ⟨n, hr, rfl⟩

theorem flows_of_balances (h : b.WellFormed) (hb : b.Balances height) : Flows b (Live b) height where
  entry n hn := ⟨⟨n, .entry hn, rfl⟩, hb.entry n hn⟩
  runs n hn _ hl := hb.runs n ((live_iff h hn).mp hl)
  falls n m _ hl hf hm := by
    have hn := (live_iff h hm.mem).mp hl
    exact ⟨⟨m, .step hn (Body.next_iff.mpr (.inl ⟨hf, hm⟩)), rfl⟩, hb.falls n m hn hf hm⟩
  jumps n hmem hl t ht m hm := by
    have hn := (live_iff h hmem).mp hl
    exact ⟨⟨m, .step hn (.jump ht hm), rfl⟩, hb.jumps n m t ht hn hm⟩
  thrown r hr n hn hl m hm :=
    ⟨m, .step ((live_iff h (h.mem_of_mem_realBetween hn)).mp hl) (.thrown hr hn hm), rfl⟩
  handlers r hr m hm hl := hb.handlers r hr m hm ((live_iff h (h.mem_of_realAt? hm)).mp hl)

theorem Flows.balances (h : b.WellFormed) (hf : Flows b live height) : b.Balances height := by
  have hlive : ∀ {n}, b.Reaches n → live n.id := by
    intro n hn
    induction hn with
    | entry hn => exact (hf.entry _ hn).1
    | step hq hstep ih =>
      rcases Body.next_iff.mp hstep with ⟨hfall, hm⟩ | ⟨t, ht, hm⟩ | ⟨r, hr, hcover, hm⟩
      · exact (hf.falls _ _ hq.isReal ih hfall hm).1
      · exact (hf.jumps _ (h.mem_of_reaches hq) ih t ht _ hm).1
      · exact hf.thrown r hr _ hcover ih _ hm
  refine ⟨?_, ?_, ?_, ?_, ?_⟩
  · exact fun n hn => (hf.entry n hn).2
  · exact fun n hn => hf.runs n (h.mem_of_reaches hn) hn.isReal (hlive hn)
  · exact fun n m hn hfall hm => (hf.falls n m hn.isReal (hlive hn) hfall hm).2
  · exact fun n m t ht hn hm => (hf.jumps n (h.mem_of_reaches hn) (hlive hn) t ht m hm).2
  · exact fun r hr m hm hn => hf.handlers r hr m hm (hlive hn)

/-! ### A new label -/

theorem Flows.labelled (hl : b.Labelled b') (h : b.WellFormed) (h' : b'.WellFormed) (hf : Flows b live height) :
    Flows b' live height where
  entry n hn := hf.entry n (hl.find?_eq ▸ hn)
  runs n hn hr := hf.runs n (hl.mem_of_isReal hn hr) hr
  falls n m hr hlive hfall hm :=
    hf.falls n m hr hlive hfall ((hl.firstAfter_iff (hl.mem_of_isReal hm.mem hr)).mp hm)
  jumps n hn hlive t ht m hm := by
    have hr : n.isReal = true := by
      by_contra hr
      simp [targets_of_not_isReal (Bool.eq_false_iff.mpr hr)] at ht
    have hn := hl.mem_of_isReal hn hr
    have hbound := (h.lands t (mem_targetsOf.mpr ⟨n, hn, ht⟩)).mem_labelsOf
    exact hf.jumps n hn hlive t ht m ((hl.realAt?_eq_some h h' hbound).mp hm)
  thrown r hr n hn hlive m hm := by
    rw [hl.ranges_eq] at hr
    obtain ⟨hstart, hstop, hhandler⟩ := h.range_bound hr
    rw [hl.realBetween_eq h h' hstart hstop] at hn
    exact hf.thrown r hr n hn hlive m ((hl.realAt?_eq_some h h' hhandler).mp hm)
  handlers r hr m hm := by
    rw [hl.ranges_eq] at hr
    exact hf.handlers r hr m ((hl.realAt?_eq_some h h' (h.range_bound hr).2.2).mp hm)

/-! ### A bypassed range -/

theorem Site.realAt?_entry (h : b.WellFormed) (s : Site b r) (ht : t ∈ s.entries) :
    b.code.realAt? t = some s.first := by
  obtain ⟨u, x, v, huv, hlx⟩ := exists_of_mem_labelsOf ht
  have hnone : v.find? Node.isReal = none := by
    refine find?_eq_none.mpr fun n hn => ?_
    simp [s.entry_not_real n (by rw [huv]; simp [hn])]
  refine h.realAt?_eq_some.mpr ⟨x, hlx, s.pre ++ u,
    v ++ s.first :: (s.tail ++ s.stop :: s.post), ?_, ?_⟩
  · rw [s.nodes_eq, ← cons_append, huv]
    simp
  · simp [hnone, s.first_real]

namespace Bypassed

variable {b b' : Body} {r : Range} {s : Site b r} {target : Label} {index : Nat} (p : Bypassed s target index b')

/-- What is known of the nodes by number, with the jump in front of the range as its first instruction. -/
def carry {α : Sort*} (f : Nat → α) (id : Nat) : α := if id ∈ p.inserted.map Node.id then f s.first.id else f id

variable (h : b.WellFormed) (h' : b'.WellFormed)

include h'

theorem fresh (hn : n ∈ b.nodes) : n.id ∉ p.inserted.map Node.id := by
  intro hmem
  obtain ⟨k, hk, he⟩ := mem_map.mp hmem
  have hkeep : p.now n ∈ b.nodes.map p.now := mem_map_of_mem hn
  rw [← p.filter_not_inserted h', mem_filter] at hkeep
  have hknow : k = p.now n := eq_of_id_eq h'.ids_nodup (p.mem_nodes.mpr (.inl hk)) hkeep.1 he
  simp [← hknow, hk] at hkeep

theorem carry_of_mem (f : Nat → α) (hn : n ∈ b.nodes) : p.carry f n.id = f n.id :=
  if_neg (p.fresh h' hn)

omit h' in
theorem carry_of_inserted (f : Nat → α) (hn : n ∈ p.inserted) :
    p.carry f n.id = f s.first.id := if_pos (mem_map_of_mem hn)

theorem carry_of_meets (f : Nat → α) {m : Node} (hm : m ∈ b.nodes) (hmeets : p.Meets m k) :
    p.carry f k.id = f m.id := by
  rcases hmeets with rfl | ⟨hmem, rfl⟩
  · rw [p.id_now]
    exact p.carry_of_mem h' f hm
  · exact p.carry_of_inserted f hmem

include h

/-- Heights fit once a range is bypassed, if nothing is on the stack where it starts and where control is
sent, and the jump in front of it is thrown from to nothing new. -/
theorem flows (hf : Flows b live height) (hfirst : live s.first.id → height s.first.id = 0)
    (htarget : live s.first.id → ∀ m, b.code.realAt? target = some m → live m.id ∧ height m.id = 0)
    (hfront : live s.first.id → ∀ q ∈ b'.ranges, ∀ k ∈ b'.realBetween q.start q.stop, k ∈ p.inserted →
      ∀ m, b.code.realAt? q.handler = some m → live m.id) :
    Flows b' (p.carry live) (p.carry height) where
  entry k hk := by
    obtain ⟨m, hm, hmeets⟩ := p.entry_before hk
    have hmem := mem_of_find?_eq_some hm
    rw [p.carry_of_meets h' live hmem hmeets, p.carry_of_meets h' height hmem hmeets]
    exact hf.entry m hm
  runs n hn hr hl := by
    rcases p.mem_nodes.mp hn with hmem | ⟨x, hx, rfl⟩
    · exact ⟨⟨0, 0⟩, by simp [p.instr_inserted hmem, effect?], Nat.zero_le _⟩
    · rw [p.id_now, p.carry_of_mem h' live hx] at hl
      rw [p.id_now, p.carry_of_mem h' height hx, now, Node.instr_retarget, effect?_mapTargets]
      exact hf.runs x hx (by rwa [p.isReal_now] at hr) hl
  falls y k hr hl hfall hk := by
    rcases p.firstAfter_before hk with hmem | ⟨x, m, rfl, hm, hmeets⟩
    · simp [p.instr_inserted hmem, fallsThrough] at hfall
    · rw [p.id_now, p.carry_of_mem h' live hm.mem] at hl
      rw [p.carry_of_meets h' live hm.mem_right hmeets, p.carry_of_meets h' height hm.mem_right hmeets, p.id_now,
        p.carry_of_mem h' height hm.mem, now, Node.instr_retarget, heightBehind_mapTargets]
      exact hf.falls x m (by rwa [p.isReal_now] at hr) hl (by rwa [p.fallsThrough_now] at hfall) hm
  jumps y hy hl t ht k hk := by
    obtain ⟨m, hm, hmeets⟩ := p.realAt?_before h h' hk
    have hmem := h.mem_of_realAt? hm
    rw [p.carry_of_meets h' live hmem hmeets, p.carry_of_meets h' height hmem hmeets]
    rcases p.mem_nodes.mp hy with hins | ⟨x, hx, rfl⟩
    · rw [p.carry_of_inserted live hins] at hl
      rw [p.instr_inserted hins] at ht ⊢
      obtain rfl : t = target := by simpa [targets] using ht
      rw [p.carry_of_inserted height hins, hfirst hl]
      exact htarget hl m hm
    · rw [p.id_now, p.carry_of_mem h' live hx] at hl
      rw [p.id_now, p.carry_of_mem h' height hx, now, Node.instr_retarget, heightAfter_mapTargets]
      rw [p.targets_now] at ht
      obtain ⟨t₀, ht₀, rfl⟩ := mem_map.mp ht
      unfold sendTo at hm
      split at hm
      · rename_i hentry
        -- the jump went to the range's first instruction, where nothing is on the stack
        obtain ⟨hlive, hheight⟩ := hf.jumps x hx hl t₀ ht₀ s.first (s.realAt?_entry h (by simpa using hentry))
        obtain ⟨hlive', hzero⟩ := htarget hlive m hm
        exact ⟨hlive', by rw [hzero, ← hheight, hfirst hlive]⟩
      · exact hf.jumps x hx hl t₀ ht₀ m hm
  thrown q hq k hk hl j hj := by
    obtain ⟨m, hm, hmeets⟩ := p.realAt?_before h h' hj
    rw [p.carry_of_meets h' live (h.mem_of_realAt? hm) hmeets]
    by_cases hins : k ∈ p.inserted
    · rw [p.carry_of_inserted live hins] at hl
      exact hfront hl q hq k hk hins m hm
    · rw [p.ranges_eq] at hq
      obtain ⟨hstart, hstop, -⟩ := h.range_bound (mem_of_mem_eraseIdx hq)
      have hmem : k ∈ (b'.realBetween q.start q.stop).filter fun n => !p.inserted.contains n :=
        mem_filter.mpr ⟨hk, by simpa using hins⟩
      rw [h.realBetween_filter h' p.label_now p.isReal_now (p.filter_not_inserted h') hstart hstop] at hmem
      obtain ⟨x, hx, rfl⟩ := mem_map.mp hmem
      rw [p.id_now, p.carry_of_mem h' live (h.mem_of_mem_realBetween hx)] at hl
      exact hf.thrown q (mem_of_mem_eraseIdx hq) x hx hl m hm
  handlers q hq k hk hl := by
    obtain ⟨m, hm, hmeets⟩ := p.realAt?_before h h' hk
    have hmem := h.mem_of_realAt? hm
    rw [p.carry_of_meets h' live hmem hmeets] at hl
    rw [p.carry_of_meets h' height hmem hmeets]
    exact hf.handlers q (mem_of_mem_eraseIdx (p.ranges_eq ▸ hq)) m hm hl

end Bypassed

/-- Two ways to give heights agree on the instructions without targets. -/
def Agrees (b : Body) (height height' : Nat → Nat) : Prop :=
  ∀ n ∈ b.nodes, n.isReal = true → n.instr.targets = [] → height n.id = height' n.id

/-- Undoing a redirection keeps heights fitting, if nothing is on the stack where it starts. -/
theorem balances_restore (h : b.WellFormed) (hb : b.Balances height) (hagree : Agrees b height base)
    (hbare : EntersBare base index b b') (hrestore : restore? b index = .ok (some b')) :
    ∃ height', b'.Balances height' ∧ Agrees b' height' base := by
  obtain ⟨r, _, _, _, hfound, -⟩ := restore?_eq_some hrestore
  obtain ⟨_, _, _, _, _, hr, -⟩ := redirection?_eq_some hfound
  obtain ⟨w⟩ := exists_restored h hr hrestore
  have h' := h.restore hrestore
  have hrange := mem_of_getElem? hr
  have hbetween := w.realBetween_eq h hr
  have hfirst : (b.realBetween r.start r.stop).head? = some w.site.first := by
    rw [← hbetween, w.site.realBetween_eq w.wellFormed]
    rfl
  have hmem := mem_of_mem_head? hfirst
  have hf := flows_of_balances h hb
  have hreach : Live b w.site.first.id → b.Reaches w.site.first :=
    (live_iff h (h.mem_of_mem_realBetween hmem)).mp
  refine ⟨_, (w.bypassed.flows w.wellFormed h' (hf.labelled w.labelled h w.wellFormed) ?_ ?_ ?_).balances h', ?_⟩
  · intro hl
    rw [hagree _ (h.mem_of_mem_realBetween hmem) w.site.first_real (w.quiet h hr _ (hbetween ▸ hmem))]
    exact (hbare r _ hr hfirst (hreach hl)).1
  · -- the exception is dropped, and nothing is left on the stack
    intro hl m hm
    obtain ⟨hat, hdrops⟩ := discard?_eq_some w.discard_eq
    have hdiscard := hf.thrown r hrange _ hmem hl _ hat
    obtain ⟨hfall, hzero⟩ : w.discard.instr.fallsThrough = true ∧ w.discard.instr.heightBehind 1 = 0 := by
      rcases hdrops with hpop | ⟨_, hstore⟩
      · rw [hpop]
        exact ⟨rfl, rfl⟩
      · rw [hstore]
        exact ⟨rfl, rfl⟩
    obtain ⟨hnext, hheight⟩ := hf.falls _ _ (find?_some hat) hdiscard hfall w.next_eq
    rw [hf.handlers r hrange _ hat hdiscard, hzero] at hheight
    rcases w.target_eq with hjump | ⟨-, hat', -⟩
    · have ht : w.target ∈ w.next.instr.targets := by simp [hjump, targets]
      have hbound := (h.lands _ (mem_targetsOf.mpr ⟨_, w.next_eq.mem_right, ht⟩)).mem_labelsOf
      have hm := (w.labelled.realAt?_eq_some h w.wellFormed hbound).mp hm
      obtain ⟨hlive, heq⟩ := hf.jumps _ w.next_eq.mem_right hnext _ ht m hm
      refine ⟨hlive, ?_⟩
      rw [heq, hjump, hheight]
      rfl
    · obtain rfl := Option.some.inj (hm.symm.trans hat')
      exact ⟨hnext, hheight⟩
  · intro hl q hq k hk hins m hm
    have hq' : q ∈ b.ranges := w.labelled.ranges_eq ▸ mem_of_mem_eraseIdx (w.bypassed.ranges_eq ▸ hq)
    have hm' := (w.labelled.realAt?_eq_some h w.wellFormed (h.range_bound hq').2.2).mp hm
    refine ⟨m, (hbare r _ hr hfirst (hreach hl)).2 q hq k hk ?_ m hm', rfl⟩
    intro hold
    obtain ⟨n, hn, he⟩ := mem_map.mp hold
    exact w.bypassed.fresh h' (w.labelled.subset hn) (he ▸ mem_map_of_mem hins)
  · intro n hn hreal hquiet
    rcases w.bypassed.mem_nodes.mp hn with hins | ⟨x, hx, rfl⟩
    · simp [w.bypassed.instr_inserted hins, targets] at hquiet
    · rw [w.bypassed.isReal_now] at hreal
      rw [w.bypassed.targets_now, map_eq_nil_iff] at hquiet
      rw [w.bypassed.id_now, w.bypassed.carry_of_mem h' height hx]
      exact hagree x (w.labelled.mem_of_isReal hx hreal) hreal hquiet

/-! ### Ranges without effect -/

/-- A throw that becomes a jump to its handler. -/
def divert (last : Node) (handler : Label) (n : Node) : Node :=
  if n = last then ⟨last.id, some (.jump handler)⟩ else n

theorem id_divert (last : Node) (handler : Label) (n : Node) : (divert last handler n).id = n.id := by
  unfold divert
  split
  · rename_i he
    rw [he]
  · rfl

section Divert

variable {last : Node} (hlast : last.instr = .raise) (handler : Label)

include hlast

theorem isReal_divert (n : Node) : (divert last handler n).isReal = n.isReal := by
  unfold divert
  split
  · rename_i he
    simp [he, Node.isReal, hlast, isReal]
  · rfl

theorem label_divert (n : Node) (l : Label) : (divert last handler n).instr = .label l ↔ n.instr = .label l := by
  unfold divert
  split
  · rename_i he
    simp [he, hlast]
  · rfl

theorem realAt?_divert (h : b.WellFormed) (h' : b'.WellFormed) (hns : b'.nodes = b.nodes.map (divert last handler))
    (hk : b'.code.realAt? t = some k) : ∃ m, b.code.realAt? t = some m ∧ k.id = m.id := by
  obtain ⟨y, hly, hy⟩ := h'.realAt?_eq_some.mp hk
  rw [hns] at hy
  obtain ⟨x, m, hx, rfl, rfl⟩ := (firstAfter_map (isReal_divert hlast handler)).mp hy
  exact ⟨m, h.realAt?_eq_some.mpr ⟨x, (label_divert hlast handler x t).mp hly, hx⟩, id_divert last handler m⟩

end Divert

/-- A throw with just the exception on the stack can become a jump to the handler. -/
theorem Flows.divert (h : b.WellFormed) (h' : b'.WellFormed) (hr : r ∈ b.ranges)
    (hlast : last ∈ b.realBetween r.start r.stop) (hraise : last.instr = .raise)
    (hns : b'.nodes = b.nodes.map (ExceptionFlow.divert last r.handler)) (hranges : b'.ranges ⊆ b.ranges)
    (hone : live last.id → height last.id = 1) (hf : Flows b live height) : Flows b' live height := by
  have hat : ∀ {t k}, b'.code.realAt? t = some k → ∃ m, b.code.realAt? t = some m ∧ k.id = m.id :=
    realAt?_divert hraise r.handler h h' hns
  have hmem : ∀ n ∈ b'.nodes, n = ⟨last.id, some (.jump r.handler)⟩ ∨ n ∈ b.nodes := by
    intro n hn
    rw [hns] at hn
    obtain ⟨x, hx, rfl⟩ := mem_map.mp hn
    unfold ExceptionFlow.divert
    split
    · exact .inl rfl
    · exact .inr hx
  refine ⟨?_, ?_, ?_, ?_, ?_, ?_⟩
  · intro k hk
    rw [hns, find?_map_isReal (isReal_divert hraise r.handler), Option.map_eq_some_iff] at hk
    obtain ⟨m, hm, rfl⟩ := hk
    rw [id_divert]
    exact hf.entry m hm
  · intro n hn hreal hl
    rcases hmem n hn with rfl | hn
    · exact ⟨⟨0, 0⟩, rfl, Nat.zero_le _⟩
    · exact hf.runs n hn hreal hl
  · intro y k hreal hl hfall hk
    rw [hns] at hk
    obtain ⟨x, m, hm, rfl, rfl⟩ := (firstAfter_map (isReal_divert hraise r.handler)).mp hk
    rw [id_divert]
    by_cases hx : x = last
    · simp [ExceptionFlow.divert, hx, fallsThrough] at hfall
    · rw [show ExceptionFlow.divert last r.handler x = x from if_neg hx] at hreal hl hfall ⊢
      exact hf.falls x m hreal hl hfall hm
  · intro n hn hl t ht k hk
    obtain ⟨m, hm, hid⟩ := hat hk
    rw [hid]
    rcases hmem n hn with rfl | hn
    · obtain rfl : t = r.handler := by simpa [targets] using ht
      have hlive := hf.thrown r hr last hlast hl m hm
      refine ⟨hlive, ?_⟩
      rw [hf.handlers r hr m hm hlive, hone hl]
      rfl
    · exact hf.jumps n hn hl t ht m hm
  · intro q hq n hn hl k hk
    obtain ⟨m, hm, hid⟩ := hat hk
    obtain ⟨hstart, hstop, -⟩ := h.range_bound (hranges hq)
    have hbetween := h.realBetween_filter h' (label_divert hraise r.handler)
      (isReal_divert hraise r.handler) (by rw [hns, filter_eq_self.mpr fun _ _ => rfl]) hstart hstop
    rw [filter_eq_self.mpr fun _ _ => rfl] at hbetween
    rw [hbetween] at hn
    obtain ⟨x, hx, rfl⟩ := mem_map.mp hn
    rw [id_divert] at hl
    rw [hid]
    exact hf.thrown q (hranges hq) x hx hl m hm
  · intro q hq k hk hl
    obtain ⟨m, hm, hid⟩ := hat hk
    rw [hid] at hl ⊢
    exact hf.handlers q (hranges hq) m hm hl

/-- Undoing a range without effect keeps heights fitting, if just the exception is on the stack where it throws. -/
theorem balances_dropPure (h : b.WellFormed) (hb : b.Balances height) (hagree : Agrees b height base)
    (hbare : ThrowsBare base index b) (hdrop : dropPure? b index = .ok (some b')) :
    b'.Balances height ∧ Agrees b' height base := by
  have h' := h.dropPure hdrop
  have hf := flows_of_balances h hb
  rcases dropPure?_eq_some hdrop with rfl | ⟨r, last, hr, -, hthrows, -, hlast, -, rfl⟩
  · have hsub : ∀ r ∈ (b.removeRange index).ranges, r ∈ b.ranges := fun _ => mem_of_mem_eraseIdx
    refine ⟨Flows.balances h' ⟨hf.entry, hf.runs, hf.falls, hf.jumps, fun r hr => hf.thrown r (hsub r hr),
      fun r hr => hf.handlers r (hsub r hr)⟩, hagree⟩
  · have hbetween := mem_of_getLast? hlast
    have hmem := h.mem_of_mem_realBetween hbetween
    have hraise : last.instr = .raise := by
      obtain ⟨_, last', he, hraise, -⟩ := alwaysThrows_iff.mp hthrows
      obtain rfl : last = last' := by simpa [he, eq_comm] using hlast
      exact hraise
    obtain ⟨pre, post, hns⟩ := append_of_mem hmem
    have hnd := h.nodup
    rw [hns, nodup_append, nodup_cons] at hnd
    have hsame : ∀ ns : List Node, last ∉ ns → ns.map (divert last r.handler) = ns := by
      intro ns hno
      conv_rhs => rw [← map_id ns]
      refine map_congr_left fun n hn => if_neg ?_
      rintro rfl
      exact hno hn
    have hnodes : (b.code.replace last.id (.jump r.handler)).2.nodes =
        b.nodes.map (divert last r.handler) := by
      rw [hns, map_append, map_cons, hsame pre (fun hm => hnd.2.2 last hm last (by simp) rfl), hsame post hnd.2.1.1,
        show divert last r.handler last = ⟨last.id, some (.jump r.handler)⟩ from if_pos rfl]
      exact Listing.nodes_of_strands (Listing.replace_strands (hns ▸ h.strands) (h.live (by rw [hns]; simp))
        (h.ids_ne_of_append hns) (by simp [Node.isLabel, hraise, label?]) rfl)
    have hone : Live b last.id → height last.id = 1 := by
      intro hl
      rw [hagree last hmem (by simp [Node.isReal, hraise, isReal]) (by simp [hraise, targets])]
      exact hbare r last hr hthrows hlast ((live_iff h hmem).mp hl)
    refine ⟨(hf.divert h h' (mem_of_getElem? hr) hbetween hraise hnodes eraseIdx_subset hone).balances h',
      fun n hn hreal hquiet => ?_⟩
    change n ∈ (b.code.replace last.id (.jump r.handler)).2.nodes at hn
    rw [hnodes] at hn
    obtain ⟨x, hx, rfl⟩ := mem_map.mp hn
    by_cases heq : x = last
    · simp [divert, heq, targets] at hquiet
    · rw [show divert last r.handler x = x from if_neg heq] at hreal hquiet ⊢
      exact hagree x hx hreal hquiet

end ExceptionFlow

/-! ### All ranges -/

open ExceptionFlow in
/-- Undoing all detours of a body keeps the operand stack balanced, if nothing is on the stack where a redirection
starts that is undone, just the exception where a range throws that is undone as one without effect, and the jump in
front of a redirection is not thrown from to a handler that control could not come to. -/
theorem stackConsistent_restoreExceptionFlow {b b' : Body} {changes : Nat} {height : Nat → Nat} (h : b.WellFormed)
    (hb : b.Balances height) (hbare : Bare b height) (hrun : b.restoreExceptionFlow = .ok (changes, b')) :
    b'.StackConsistent := by
  -- nodes that throw keep their heights, whatever was put in front of them
  let P (c : Body) : Prop := c.WellFormed ∧ ∃ height', c.Balances height' ∧ Agrees c height' height
  obtain ⟨⟨restored, d⟩, hrestored, hrun⟩ := bind_eq_ok.mp hrun
  obtain ⟨⟨_, e⟩, hdropped, hrun⟩ := bind_eq_ok.mp hrun
  have hd : P d := by
    refine each_keeps (fun i c c' ht hc hr => ?_) ⟨h, height, hb, fun _ _ _ _ => rfl⟩ hrestored
    obtain ⟨hwf, height', hbalanced, hagree⟩ := hc
    exact ⟨hwf.restore hr, balances_restore hwf hbalanced hagree (hbare.enters i c c' ht hr) hr⟩
  have he : P e := by
    refine each_keeps (fun i c c' ht hc hr => ?_) hd hdropped
    obtain ⟨hwf, height', hbalanced, hagree⟩ := hc
    exact ⟨hwf.dropPure hr, height',
      balances_dropPure hwf hbalanced hagree (hbare.throws restored d hrestored i c c' ht hr) hr⟩
  obtain ⟨hwf, height', hbalanced, -⟩ := he
  dsimp only at hrun
  split at hrun
  · cases hrun
    exact ⟨height', hbalanced⟩
  · cases hrun
    exact ⟨height', hwf.pruned_removeDeadCode.balances hwf.removeDeadCode hwf hbalanced⟩

/-- Throws the exception that it was given, into a handler that returns it. -/
def rethrowingBody : Body where
  maxStack := 1
  maxLocals := 1
  code := Listing.ofInstrs [.load .ref 0, .label 0, .raise, .label 1, .label 2, .leave (some .ref)]
  ranges := [⟨0, 1, 2, none⟩]

open ExceptionFlow in
/-- A body that throws an exception with nothing else on the stack is balanced once it does not, whether the throw is
bypassed or becomes a jump. -/
theorem detourBody_stackConsistent : detourBody.Balances (fun id => [0, 0, 1, 2, 1, 0, 0, 1, 0, 0, 0].getD id 0) ∧
    (∃ changes b', detourBody.restoreExceptionFlow = .ok (changes, b') ∧ b'.StackConsistent) ∧
    rethrowingBody.Balances (fun id => [0, 0, 1, 0, 0, 1].getD id 0) ∧
    ∃ changes b', rethrowingBody.restoreExceptionFlow = .ok (changes, b') ∧ b'.StackConsistent := by
  have hwf : rethrowingBody.WellFormed := Body.wellFormed_ofInstrs rfl (by decide) (by decide)
  have hb : detourBody.Balances (fun id => [0, 0, 1, 2, 1, 0, 0, 1, 0, 0, 0].getD id 0) :=
    detourBody_wellFormed.balances_of_fits (by decide +kernel)
  have hb' : rethrowingBody.Balances (fun id => [0, 0, 1, 0, 0, 1].getD id 0) :=
    hwf.balances_of_fits (by decide +kernel)
  have hbare : Bare detourBody (fun id => [0, 0, 1, 2, 1, 0, 0, 1, 0, 0, 0].getD id 0) := by
    constructor
    · intro i c c' ht hr
      cases ht with
      | here =>
        obtain ⟨_, _, _, _, -, -, rfl⟩ := restore?_eq_some hr
        intro r n hrange hn _
        cases hrange
        cases hn
        exact ⟨rfl, fun q hq => absurd hq not_mem_nil⟩
      | undone _ rest => cases rest
      | kept _ rest => cases rest
    · intro restored d hrestored i c c' ht
      cases hrestored
      cases ht
  have hbare' : Bare rethrowingBody (fun id => [0, 0, 1, 0, 0, 1].getD id 0) := by
    constructor
    · intro i c c' ht hr
      cases ht with
      | here => cases hr
      | undone _ rest => cases rest
      | kept _ rest => cases rest
    · intro restored d hrestored i c c' ht _
      cases hrestored
      cases ht with
      | here =>
        intro r n hrange _ hn _
        cases hrange
        cases hn
        rfl
      | undone _ rest => cases rest
      | kept _ rest => cases rest
  have hrun : detourBody.restoreExceptionFlow = .ok (_, _) := rfl
  have hrun' : rethrowingBody.restoreExceptionFlow = .ok (_, _) := rfl
  exact ⟨hb, ⟨_, _, hrun, stackConsistent_restoreExceptionFlow detourBody_wellFormed hb hbare hrun⟩, hb',
    _, _, hrun', stackConsistent_restoreExceptionFlow hwf hb' hbare' hrun'⟩

/-- Throws an exception with a number below it on the stack, only to get to its last instruction, where it
also gets without the number. -/
def ladenBody : Body where
  maxStack := 3
  maxLocals := 1
  code := Listing.ofInstrs
    [.load .int 0, .branch .eq 3, .push (.int 1),
     .label 0, .typed .new "E", .stack .dup, .invoke .special ⟨"E", "<init>", "()V"⟩ false, .raise, .label 1,
     .label 2, .stack .pop, .jump 3, .label 3, .leave none]
  ranges := [⟨0, 1, 2, some "E"⟩]

/-- The same without the detour. -/
def ladenBodyRestored : Body where
  maxStack := 3
  maxLocals := 1
  code :=
    { strands := [⟨[⟨0, some (.load .int 0)⟩, ⟨1, some (.branch .eq 3)⟩, ⟨2, some (.push (.int 1))⟩,
        ⟨14, some (.jump 3)⟩, ⟨12, some (.label 3)⟩, ⟨13, some (.leave none)⟩], true, true⟩]
      nextId := 15
      nextLabel := 4
      modified := true }
  dirty := true

/-- The number that an exception left behind is carried along by the jump that stands for it, so that the
operand stack has two heights at the last instruction. -/
theorem ladenBody_restoreExceptionFlow : ladenBody.WellFormed ∧ ladenBody.StackConsistent ∧
    ladenBody.restoreExceptionFlow = .ok (7, ladenBodyRestored) ∧ ¬ladenBodyRestored.StackConsistent := by
  have hwf : ladenBody.WellFormed := Body.wellFormed_ofInstrs rfl (by decide) (by decide)
  have hb : ladenBody.Balances (fun id => [0, 1, 0, 0, 1, 2, 3, 2, 0, 0, 1, 0, 0, 0].getD id 0) :=
    hwf.balances_of_fits (by decide +kernel)
  refine ⟨hwf, ⟨_, hb⟩, rfl, ?_⟩
  rintro ⟨height, hb⟩
  have hload : ladenBodyRestored.Reaches ⟨0, some (.load .int 0)⟩ := .entry rfl
  have hbranch : FirstAfter ladenBodyRestored.nodes ⟨0, some (.load .int 0)⟩ ⟨1, some (.branch .eq 3)⟩ :=
    ⟨[], _, rfl, rfl⟩
  have hpush : FirstAfter ladenBodyRestored.nodes ⟨1, some (.branch .eq 3)⟩ ⟨2, some (.push (.int 1))⟩ :=
    ⟨[⟨0, some (.load .int 0)⟩], _, rfl, rfl⟩
  have hjump : FirstAfter ladenBodyRestored.nodes ⟨2, some (.push (.int 1))⟩ ⟨14, some (.jump 3)⟩ :=
    ⟨[⟨0, some (.load .int 0)⟩, ⟨1, some (.branch .eq 3)⟩], _, rfl, rfl⟩
  have hlast : ladenBodyRestored.code.realAt? 3 = some ⟨13, some (.leave none)⟩ := rfl
  have hbranch' := hload.step (Body.next_iff.mpr (.inl ⟨rfl, hbranch⟩))
  have hpush' := hbranch'.step (Body.next_iff.mpr (.inl ⟨rfl, hpush⟩))
  have hjump' := hpush'.step (Body.next_iff.mpr (.inl ⟨rfl, hjump⟩))
  -- one height from the branch and another from the jump
  have h₀ : height 0 = 0 := hb.entry _ rfl
  have h₁ : height 1 = height 0 - 0 + 1 := hb.falls _ _ hload rfl hbranch
  have h₁₄ : height 14 = height 2 - 0 + 1 := hb.falls _ _ hpush' rfl hjump
  have h₁₃ : height 13 = height 1 - 1 + 0 := hb.jumps _ _ 3 (mem_singleton_self _) hbranch' hlast
  have h₁₃' : height 13 = height 14 - 0 + 0 := hb.jumps _ _ 3 (mem_singleton_self _) hjump' hlast
  omega

end Untangle
