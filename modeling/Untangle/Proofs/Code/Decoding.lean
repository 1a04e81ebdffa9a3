import Untangle.Proofs.Code.Spelling
import Untangle.Proofs.Code.WellFormed

/-!
# What the decoder returns

Tiles take at least one byte each, so the instructions that were read start at ascending offsets before the
end of the code. Each of them executes something, has an opcode, if it is a switch by range, has as many
targets as its range has keys, and if it is a call site, has the linker and the arguments that the pool and
the bootstrap table have for it.
-/

namespace Untangle

open List

/-- A call site is put together from its slot, its entry of the bootstrap table and the slots of that. -/
theorem Pool.callSite_eq_ok {p : Pool} {slot : UInt16} {site : CallSite} (h : p.callSite bootstraps slot = .ok site) :
    site.index = slot ∧ ∃ number signature entry, p.get slot = .ok (.invokeDynamic number signature) ∧
      bootstraps[number.toNat]? = some entry ∧ p.handle entry.method = .ok site.bootstrap ∧
      entry.arguments.mapM p.bootstrapArg = .ok site.arguments := by
  obtain ⟨c, hget, h⟩ := bind_eq_ok.mp h
  split at h
  · obtain ⟨s, -, h⟩ := bind_eq_ok.mp h
    split at h
    · cases h
    · rename_i entry hentry
      obtain ⟨_, hbootstrap, h⟩ := bind_eq_ok.mp h
      obtain ⟨_, harguments, h⟩ := bind_eq_ok.mp h
      cases h
      exact ⟨rfl, _, _, entry, hget, hentry, hbootstrap, harguments⟩
  · cases h

namespace Decoding

/-- Executes something, has an opcode, and its table has as many targets as its range has keys. -/
structure Sane (i : Decoded) : Prop where
  isReal : i.isReal = true
  hasOpcode : i.HasOpcode
  tableFits : i.TableFits

/-- A call site is the one that the pool has in its slot. -/
def SiteFrom (pool : Pool) (bootstraps : List BootstrapEntry) : Decoded → Prop
  | .invokeDynamic site => pool.callSite bootstraps site.index = .ok site
  | _ => True

/-- Sane, and if it is a call site, it is taken from the pool. -/
structure Genuine (pool : Pool) (bootstraps : List BootstrapEntry) (i : Decoded) : Prop extends Sane i where
  site : SiteFrom pool bootstraps i

variable {pool : Pool} {bootstraps : List BootstrapEntry} {o : Nat}

theorem Spelled.genuine {data : List UInt8} {i : Decoded} (h : Spelled pool bootstraps o data i) :
    Genuine pool bootstraps i := by
  cases h with
  | math h => exact ⟨⟨rfl, Option.isSome_of_mem h, trivial⟩, trivial⟩
  | tableSwitch =>
    refine ⟨⟨rfl, trivial, ?_⟩, trivial⟩
    rwa [Instruction.TableFits, length_map]
  | invokeDynamic _ _ h =>
    refine ⟨⟨rfl, trivial, trivial⟩, ?_⟩
    rwa [SiteFrom, (Pool.callSite_eq_ok h).1]
  | _ => exact ⟨⟨rfl, trivial, trivial⟩, trivial⟩

/-- Tiles start at ascending offsets, the first of them where the code starts, and all before its end. -/
theorem Tiled.ascending {code : List UInt8} {ds : List (Nat × Decoded)} (h : Tiled pool bootstraps o code ds) :
    (ds.map Prod.fst).Pairwise (· < ·) ∧
      ∀ d ∈ ds, Genuine pool bootstraps d.2 ∧ o ≤ d.1 ∧ d.1 < o + code.length := by
  induction h with
  | done o => simp
  | @tile o _ _ i ds h _ ih =>
    obtain ⟨hasc, hrest⟩ := ih
    have hpos := length_pos_iff.mpr h.ne_nil
    rw [length_append, map_cons, pairwise_cons, forall_mem_cons]
    refine ⟨⟨fun o' ho => ?_, hasc⟩, ⟨h.genuine, le_refl _, by simp only; omega⟩, fun d hd => ?_⟩
    · obtain ⟨d, hd, rfl⟩ := mem_map.mp ho
      have := (hrest d hd).2.1
      omega
    · obtain ⟨hd, hle, hlt⟩ := hrest d hd
      exact ⟨hd, by omega, by omega⟩

end Decoding

end Untangle
