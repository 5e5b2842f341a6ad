import LogicSchematic.Proofs.Synthesis.Circuit
import Mathlib.Data.List.Nodup

/-!
# Sharing in circuits

In a list of gates that is in order and holds no gate twice, an operand is known by the expression
it unfolds to (`operandExpr_injective`): gates with the same expression read operands with the same
expressions, which are the same operands, so they are the same gate. An arena has this property, and
dropping gates keeps it (`injective_finish`). A synthesized circuit therefore builds nothing twice;
`synthesize_shape` says this together with the order of its gates, that each is needed, and which
variables it reads.
-/

namespace LogicSchematic

/-- Lists with the same images are the same when the function tells their elements apart. -/
theorem eq_of_map_eq_map {α β : Type} {f : α → β} {xs ys : List α} (h : xs.map f = ys.map f)
    (hinj : ∀ x ∈ xs, ∀ y ∈ ys, f x = f y → x = y) : xs = ys := by
  induction xs generalizing ys with
  | nil => exact (List.map_eq_nil_iff.mp h.symm).symm
  | cons x xs ih =>
    obtain ⟨y, ys, rfl, hxy, hrest⟩ := List.map_eq_cons_iff.mp h.symm
    have hhead : x = y := hinj x List.mem_cons_self y List.mem_cons_self hxy.symm
    have htail : xs = ys := by
      refine ih hrest.symm fun x hx y hy => ?_
      exact hinj x (List.mem_cons_of_mem _ hx) y (List.mem_cons_of_mem _ hy)
    rw [hhead, htail]

namespace Mapping

variable {gs : List MappedGate}

/-- Operands that unfold to the same expression are the same operand. -/
theorem operandExpr_injective (hord : OrderedFrom 0 gs) (hnodup : gs.Nodup) {x y : Operand}
    (hx : x.Below gs.length) (hy : y.Below gs.length)
    (h : operandExpr (gateExprs #[] gs) x = operandExpr (gateExprs #[] gs) y) : x = y := by
  have hread : ∀ {i : Nat}, (hi : i < gs.length) →
      operandExpr (gateExprs #[] gs) (.gate i) =
        .gate gs[i].gate (gs[i].operands.map (operandExpr (gateExprs #[] gs))) := by
    intro i hi
    exact operandExpr_gate hord (List.getElem?_eq_getElem hi)
  have hbelow : ∀ {i : Nat}, (hi : i < gs.length) → ∀ z ∈ gs[i].operands, z.Below i := by
    intro i hi
    exact below_of_mem hord (List.getElem?_eq_getElem hi)
  cases x with
  | var name =>
    cases y with
    | var name' => exact congrArg _ (Expr.var.inj h)
    | gate j =>
      rw [hread hy] at h
      cases h
  | gate i =>
    -- the operands of a gate come before it, so the claim holds of them by induction
    induction i using Nat.strongRecOn generalizing y with
    | ind i ih =>
      have hi : i < gs.length := hx
      rw [hread hi] at h
      cases y with
      | var name => cases h
      | gate j =>
        have hj : j < gs.length := hy
        rw [hread hj] at h
        obtain ⟨hkind, hoperands⟩ := Expr.op.inj h
        have hsame : gs[i].operands = gs[j].operands := by
          refine eq_of_map_eq_map hoperands fun z hz w hw hzw => ?_
          have hw' : w.Below gs.length := (hbelow hj w hw).mono (Nat.le_of_lt hj)
          cases z with
          | var name =>
            cases w with
            | var name' => exact congrArg _ (Expr.var.inj hzw)
            | gate l =>
              rw [hread hw'] at hzw
              cases hzw
          | gate k =>
            have hk : k < i := hbelow hi _ hz
            exact ih k hk hw' (Nat.lt_trans hk hi) hzw
        have hgate : gs[i] = gs[j] :=
          calc gs[i] = ⟨gs[i].gate, gs[i].operands⟩ := rfl
            _ = ⟨gs[j].gate, gs[j].operands⟩ := by rw [Op.gate.inj hkind, hsame]
            _ = gs[j] := rfl
        rw [(List.Nodup.getElem_inj_iff hnodup).mp hgate]

/-- The last gate is reached by nothing but itself, so it is the root. -/
theorem WellFormed.root_eq_last {m : Mapping} (h : m.WellFormed) (hne : m.gates ≠ []) :
    m.root = .gate (m.gates.length - 1) := by
  have hpos := List.length_pos_iff.mpr hne
  have hlast := h.reached (m.gates.length - 1) (by omega)
  cases hroot : m.root with
  | var name =>
    rw [hroot] at hlast
    exact absurd hlast not_reaches_var
  | gate r =>
    have hbelow := h.root_below
    rw [hroot] at hlast hbelow
    have hr : r < m.gates.length := hbelow
    have hlt : m.gates.length - 1 < r + 1 := lt_of_reaches h.ordered hlast (Nat.lt_succ_self r)
    rw [show r = m.gates.length - 1 by omega]

end Mapping

namespace Arena

variable {P : MappedGate → Prop} {a : Arena}

/-- An operand of an arena is known by its expression. -/
theorem Sound.expr_injective (h : a.Sound P) {x y : Operand} (hx : a.Has x) (hy : a.Has y)
    (heq : a.expr x = a.expr y) : x = y :=
  Mapping.operandExpr_injective h.ordered h.nodup hx hy heq

/-- Gates of a finished circuit with the same expression are the same gate, as their originals
are. -/
theorem injective_finish (h : a.Sound P) {root : Operand} (hroot : a.Has root) {i j : Nat}
    (hi : i < (a.finish root).gates.length) (hj : j < (a.finish root).gates.length)
    (heq : Mapping.operandExpr (Mapping.gateExprs #[] (a.finish root).gates) (.gate i) =
      Mapping.operandExpr (Mapping.gateExprs #[] (a.finish root).gates) (.gate j)) : i = j := by
  have hsel := selection_reachable h hroot
  rw [finish_eq] at hi hj heq
  dsimp only at hi hj heq
  rw [length_compact hsel] at hi hj
  -- a kept gate is the copy of the gate whose index is listed at its place
  have hcopy : ∀ {k : Nat}, (hk : k < (a.reachable root).length) →
      Mapping.operandExpr (Mapping.gateExprs #[] (a.compact (a.reachable root))) (.gate k) =
        a.expr (.gate (a.reachable root)[k]) := by
    intro k hk
    have := hsel.expr_renumber h (x := .gate (a.reachable root)[k]) (by
      rintro i hi
      cases hi
      exact List.getElem_mem hk)
    rwa [renumber, hsel.idxOf_getElem hk] at this
  rw [hcopy hi, hcopy hj] at heq
  have hsame : Operand.gate (a.reachable root)[i] = .gate (a.reachable root)[j] :=
    h.expr_injective (hsel.lt_length _ (List.getElem_mem hi))
      (hsel.lt_length _ (List.getElem_mem hj)) heq
  have hnodup : (a.reachable root).Nodup := hsel.ascending.imp Nat.ne_of_lt
  exact (List.Nodup.getElem_inj_iff hnodup).mp (Operand.gate.inj hsame)

end Arena

namespace Synthesizer

variable {s : Synthesizer} {e : Expr} {m : Mapping}

/-- Gates of a synthesized circuit that unfold to the same expression are the same gate. -/
theorem injective_unfold_of_synthesize (he : e.Proper) (h : s.synthesize e = .ok m) {i j : Nat}
    (hi : i < m.gates.length) (hj : j < m.gates.length)
    (heq : ({ m with root := .gate i } : Mapping).unfold =
      ({ m with root := .gate j } : Mapping).unfold) : i = j := by
  obtain ⟨a, root, hsound, hstands, rfl⟩ := exists_arena_of_proper he h
  exact Arena.injective_finish hsound hstands.1 hi hj heq

/-- No gate of a synthesized circuit stands in it twice: it would unfold to the same expression. -/
theorem nodup_of_synthesize (he : e.Proper) (h : s.synthesize e = .ok m) : m.gates.Nodup := by
  have hord := (wellFormed_of_synthesize he h).ordered
  rw [List.nodup_iff_injective_getElem]
  intro i j hij
  refine Fin.ext (injective_unfold_of_synthesize he h i.2 j.2 ?_)
  have hgate : m.gates[j.1]? = some m.gates[i.1] :=
    (List.getElem?_eq_getElem j.2).trans (congrArg some hij.symm)
  simp only [Mapping.unfold, Mapping.operandExpr]
  rw [Mapping.getElem?_gateExprs_empty hord (List.getElem?_eq_getElem i.2),
    Mapping.getElem?_gateExprs_empty hord hgate]

/-- The shape of a synthesized circuit: a gate reads only gates before it; no gate stands in it
twice, and no two gates unfold to the same expression; the root reaches every gate, and is the last
one if there is any; and the variables are those of the expression. -/
theorem synthesize_shape (he : e.Proper) (h : s.synthesize e = .ok m) :
    (∀ (i : Nat) (g : MappedGate), m.gates[i]? = some g → ∀ j, .gate j ∈ g.operands → j < i) ∧
    (m.gates.Nodup ∧ ∀ i j : Nat, i < m.gates.length → j < m.gates.length → i ≠ j →
      ({ m with root := .gate i } : Mapping).unfold ≠
        ({ m with root := .gate j } : Mapping).unfold) ∧
    ((∀ i < m.gates.length, Mapping.Reaches m.gates m.root i) ∧
      (m.gates ≠ [] → m.root = .gate (m.gates.length - 1))) ∧
    ∀ name, name ∈ m.variableNames ↔ name ∈ e.variableNames := by
  have hm := wellFormed_of_synthesize he h
  refine ⟨?_, ⟨nodup_of_synthesize he h, ?_⟩, ⟨hm.reached, hm.root_eq_last⟩, ?_⟩
  · intro i g hg j hj
    have hbelow := Mapping.orderedFrom_iff.mp hm.ordered i g hg (.gate j) hj
    rwa [Nat.zero_add] at hbelow
  · intro i j hi hj hne heq
    exact hne (injective_unfold_of_synthesize he h hi hj heq)
  · intro name
    rw [mem_variableNames_of_synthesize he h, Expr.variableNames, List.mem_eraseDups]

/-- The parity of two variables over inverted conjunctions, where inverters are shared. -/
theorem synthesize_shape_xor : ∃ m,
    (Expr.gate .xor [.var "A", .var "B"]).Proper ∧
    (Synthesizer.mk (.ofList [.nand]) 30).synthesize (.gate .xor [.var "A", .var "B"]) = .ok m ∧
    m.gates.length = 9 ∧ m.gates.Nodup ∧ m.root = .gate (m.gates.length - 1) := by
  have hproper : (Expr.gate .xor [.var "A", .var "B"]).Proper := by
    simp [Expr.Proper, Expr.gate]
  refine ⟨_, hproper, rfl, by decide, ?_⟩
  obtain ⟨-, hunique, hreached, -⟩ :=
    synthesize_shape (s := ⟨.ofList [.nand], 30⟩) hproper rfl
  exact ⟨hunique.1, hreached.2 (by decide)⟩

end Synthesizer

end LogicSchematic
