import LogicSchematic.Proofs.Mapping.Finish
import LogicSchematic.Proofs.Synthesis.Meaning

/-!
# Synthesized circuits

A circuit that `synthesize` returns is what `finish` makes of a sound arena whose root stands for
the expression (`exists_arena`). So it is well formed (`wellFormed_of_synthesize`), it unfolds to an
expression of the same meaning (`unfold_equiv`), it has the word of the expression under every
valuation (`eval_of_synthesize`), and its gates are of allowed kinds with fitting operand counts
(`fit_of_synthesize`). Since a word is missing in the one exactly when it is missing in the other,
both have the same variables (`mem_variableNames_of_synthesize`).
-/

namespace LogicSchematic

/-- The valuation that has words for some names only. -/
def Valuation.only (names : List String) : Valuation :=
  fun name => if name ∈ names then some 0 else none

theorem Valuation.mem_of_only {names : List String} {name : String} {w : UInt64}
    (h : only names name = some w) : name ∈ names := by
  unfold only at h
  split at h
  next hmem => exact hmem
  next => cases h

namespace Synthesizer

variable {s : Synthesizer} {F : Gate → Nat → Prop} {e : Expr} {m : Mapping}

/-- A synthesized circuit is a finished arena. -/
theorem exists_run (h : s.synthesize e = .ok m) :
    ∃ (root : Operand) (a : Arena), s.mapExpr e 0 Arena.empty = .ok (root, a) ∧
      m = a.finish root := by
  rw [synthesize, Except.bind_eq_ok_iff] at h
  obtain ⟨⟨root, a⟩, hrun, hm⟩ := h
  cases hm
  exact ⟨root, a, hrun, rfl⟩

/-- A synthesized circuit is a finished arena in which the root stands for the expression. -/
theorem exists_arena (hF : ∀ g n, g.Fits n → F g n)
    (he : e.Everywhere fun o n => 0 < n ∧ (o = .gate .not → F .not n))
    (h : s.synthesize e = .ok m) :
    ∃ (a : Arena) (root : Operand), a.Sound (s.Fit F) ∧ a.Stands root e ∧ m = a.finish root := by
  obtain ⟨root, a, hrun, rfl⟩ := exists_run h
  obtain ⟨hsound, -, hstands⟩ :=
    mapExpr_denotes hF he 0 Arena.empty (Arena.sound_empty _) root a hrun
  exact ⟨a, root, hsound, hstands, rfl⟩

/-- The gates of a proper expression's circuit have operands; an inverter may have several, if one
of the expression has. -/
theorem exists_arena_of_proper (he : e.Proper) (h : s.synthesize e = .ok m) :
    ∃ (a : Arena) (root : Operand), a.Sound (s.Fit fun _ n => 0 < n) ∧ a.Stands root e ∧
      m = a.finish root := by
  have hpos : ∀ (g : Gate) (n : Nat), g.Fits n → 0 < n := fun _ _ hn => hn.bounds.1
  exact exists_arena hpos (he.mono fun o n hn => ⟨hn, fun _ => hn⟩) h

theorem wellFormed_of_synthesize (he : e.Proper) (h : s.synthesize e = .ok m) : m.WellFormed := by
  obtain ⟨a, root, hsound, hstands, rfl⟩ := exists_arena_of_proper he h
  refine Arena.finish_wellFormed hsound ?_ hstands.1
  exact fun g hg => List.length_pos_iff.mp hg.2

/-- Synthesis keeps the meaning of an expression. -/
theorem unfold_equiv (he : e.Proper) (h : s.synthesize e = .ok m) : m.unfold ≈ e := by
  obtain ⟨a, root, hsound, hstands, rfl⟩ := exists_arena_of_proper he h
  rw [Arena.unfold_finish hsound hstands.1]
  exact hstands.2

theorem eval_of_synthesize (he : e.Proper) (h : s.synthesize e = .ok m) (values : Valuation) :
    m.eval values = e.eval values := by
  rw [(wellFormed_of_synthesize he h).eval_eq values]
  exact unfold_equiv he h values

/-- A circuit reads exactly the variables of its expression. -/
theorem mem_variableNames_of_synthesize (he : e.Proper) (h : s.synthesize e = .ok m)
    {name : String} : name ∈ m.variableNames ↔ name ∈ e.occurrences := by
  have hm := wellFormed_of_synthesize he h
  have heval := eval_of_synthesize he h
  constructor
  · -- with words for the variables of the expression only, the circuit has its word all the same
    intro hname
    obtain ⟨w, hw⟩ : ∃ w, m.eval (fun _ => some 0) = .ok w := hm.eval_isOk fun _ _ => ⟨0, rfl⟩
    have hsame : e.eval (.only e.occurrences) = e.eval fun _ => some 0 :=
      Expr.eval_congr fun x hx => if_pos hx
    have hok : m.eval (.only e.occurrences) = .ok w := by
      rw [heval, hsame, ← heval, hw]
    obtain ⟨v, hv⟩ := Mapping.exists_word_of_eval hok name hname
    exact Valuation.mem_of_only hv
  · intro hname
    obtain ⟨w, hw⟩ : ∃ w, m.eval (.only m.variableNames) = .ok w :=
      hm.eval_isOk fun x hx => ⟨0, if_pos hx⟩
    rw [heval] at hw
    obtain ⟨v, hv⟩ := Expr.exists_word_of_eval hw name hname
    exact Valuation.mem_of_only hv

/-- Only allowed gates are used, and with as many operands as they have pins for. -/
theorem fit_of_synthesize (he : e.Proper) (hnot : e.UnaryNot) (h : s.synthesize e = .ok m)
    {g : MappedGate} (hg : g ∈ m.gates) :
    s.allows g.gate = true ∧ g.gate.Fits g.operands.length := by
  have hfit : e.Everywhere fun o n => 0 < n ∧ (o = .gate .not → Gate.Fits .not n) :=
    he.and hnot
  obtain ⟨a, root, hsound, -, rfl⟩ := exists_arena (fun _ _ hn => hn) hfit h
  obtain ⟨k, hk, hkind, hlen⟩ := Arena.exists_of_mem_finish hg
  rw [hkind, hlen]
  exact hsound.gates k hk

end Synthesizer

end LogicSchematic
