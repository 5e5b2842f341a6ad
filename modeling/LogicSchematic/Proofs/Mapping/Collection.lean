import LogicSchematic.Proofs.Mapping.Tables

/-!
# What an arena keeps, and what a circuit keeps of it

An arena is made by calls of `add`, each for a gate over variables and results of earlier calls
(`Run`). Such an arena is in order and holds no gate twice (`Run.sound`), so the index that a call
gives is the only one of its gate, and a later call changes neither the gate nor the index
(`Run.result`).

The circuit of a root keeps the gates that the root reaches and no others, in their order, and each
operand becomes the operand that reads the copy (`Collects`). Copies of different gates differ,
since a copy tells which operands its original has (`leftUnique_copy`), and so no gate stands in
the circuit twice.

The word of an operand in the arena is defined gate by gate (`Mapping.Word`), without the gates that
the operand does not reach. It is the word of the expression of the operand
(`Sound.eval_expr_iff`), and so the word of the circuit. `Run.collects` says all this, also of the
circuit that comes out of the tables.
-/

namespace LogicSchematic

/-- The word of an operand of gates: that of the variable, or what the gate computes from the words
of its operands. -/
inductive Mapping.Word (gs : List MappedGate) (values : Valuation) : Operand → UInt64 → Prop
  | var {name : String} {w : UInt64} (h : values name = some w) : Word gs values (.var name) w
  | gate {i : Nat} {g : MappedGate} {ws : List UInt64} {w : UInt64} (hg : gs[i]? = some g)
      (hws : List.Forall₂ (Word gs values) g.operands ws) (hw : g.gate.eval ws = .ok w) :
      Word gs values (.gate i) w

namespace Mapping

variable {gs : List MappedGate} {values : Valuation} {w : UInt64}

theorem word_var_iff {name : String} : Word gs values (.var name) w ↔ values name = some w := by
  constructor
  · intro h
    cases h with
    | var h => exact h
  · exact .var

theorem word_gate_iff {i : Nat} {g : MappedGate} (hg : gs[i]? = some g) :
    Word gs values (.gate i) w ↔
      ∃ ws, List.Forall₂ (Word gs values) g.operands ws ∧ g.gate.eval ws = .ok w := by
  constructor
  · intro h
    cases h with
    | gate hg' hws hw =>
      cases hg.symm.trans hg'
      exact ⟨_, hws, hw⟩
  · rintro ⟨ws, hws, hw⟩
    exact .gate hg hws hw

end Mapping

namespace Arena

open Mapping (Reaches Word)

variable {P : MappedGate → Prop} {a : Arena} {g : MappedGate} {x : Operand} {kept : List Nat}
  {calls : List (MappedGate × Operand)}

/-! ## Calls -/

/-- Whether a gate may be asked for after some calls, which are listed with their results: it has
operands, and each is a variable or the result of a call. -/
def Callable (calls : List (MappedGate × Operand)) (g : MappedGate) : Prop :=
  g.operands ≠ [] ∧ ∀ i ∈ reads g.operands, .gate i ∈ calls.map Prod.snd

instance (calls : List (MappedGate × Operand)) (g : MappedGate) : Decidable (Callable calls g) :=
  inferInstanceAs (Decidable (_ ∧ _))

/-- The arena after some calls of `add`, beginning with the empty one. -/
inductive Run : List (MappedGate × Operand) → Arena → Prop
  | start : Run [] empty
  | call {calls : List (MappedGate × Operand)} {a : Arena} {g : MappedGate} (h : Run calls a)
      (hg : Callable calls g) : Run (calls ++ [(g, (a.add g).1)]) (a.add g).2

/-- Every result of a call is the index of the gate that was asked for, also after later calls. -/
theorem Run.result (h : Run calls a) :
    ∀ c ∈ calls, ∃ i, c.2 = .gate i ∧ a.gates[i]? = some c.1 := by
  induction h with
  | start => simp
  | @call calls a g _ _ ih =>
    intro c hc
    rcases List.mem_append.mp hc with hc | hc
    · obtain ⟨i, hi, hgate⟩ := ih c hc
      exact ⟨i, hi, (grows_add a g).getElem? hgate⟩
    · rw [List.mem_singleton.mp hc]
      exact exists_index_add a g

theorem Run.has_of_callable (h : Run calls a) (hg : Callable calls g) :
    ∀ x ∈ g.operands, a.Has x := by
  intro x hx
  cases x with
  | var name => trivial
  | gate i =>
    obtain ⟨c, hc, hi⟩ := List.mem_map.mp (hg.2 i (mem_reads.mpr hx))
    obtain ⟨j, hj, hgate⟩ := h.result c hc
    cases hi.symm.trans hj
    exact (List.getElem?_eq_some_iff.mp hgate).1

/-- The arena is in order, and no gate stands in it twice. -/
theorem Run.sound (h : Run calls a) : a.Sound fun g => g.operands ≠ [] := by
  induction h with
  | start => exact sound_empty _
  | call h hg ih => exact ih.add (h.has_of_callable hg) hg.1

/-- The same calls of the tables have the same results and leave the same gates. -/
theorem Run.tables (h : Run calls a) :
    ∃ t, Tables.addAll (calls.map Prod.fst) = (calls.map Prod.snd, t) ∧ t.arena = a ∧
      t.InStep := by
  induction h with
  | start => exact ⟨_, rfl, rfl, Tables.inStep_empty⟩
  | @call calls a g _ _ ih =>
    obtain ⟨t, ht, rfl, hstep⟩ := ih
    obtain ⟨hresult, harena, hstep⟩ := Tables.add_eq hstep g
    refine ⟨(t.add g).2, ?_, harena, hstep⟩
    rw [List.map_append, List.map_append, List.map_singleton, List.map_singleton,
      Tables.addAll_concat, ht, hresult]

theorem Sound.getElem?_iff (h : a.Sound P) {i : Nat} (hi : a.gates[i]? = some g) (j : Nat) :
    a.gates[j]? = some g ↔ j = i := by
  constructor
  · intro hj
    have hlt := (List.getElem?_eq_some_iff.mp hj).1
    exact (List.getElem?_inj hlt h.nodup).mp (hj.trans hi.symm)
  · rintro rfl
    exact hi

/-! ## Copies -/

/-- The second operand reads in copy what the first one reads, where `kept` lists the index of the
original of each copy. -/
inductive Copy (kept : List Nat) : Operand → Operand → Prop
  | var (name : String) : Copy kept (.var name) (.var name)
  | gate {i k : Nat} (h : kept[k]? = some i) : Copy kept (.gate i) (.gate k)

/-- The gate is of the kind of the gate with this index and reads in copy what that one reads. -/
def CopyOf (a : Arena) (kept : List Nat) (i : Nat) (g' : MappedGate) : Prop :=
  ∃ g, a.gates[i]? = some g ∧ g'.gate = g.gate ∧ List.Forall₂ (Copy kept) g.operands g'.operands

/-- A circuit that keeps the gates with the listed indices, which are those that the root reaches.
-/
structure Collects (a : Arena) (root : Operand) (kept : List Nat) (m : Mapping) : Prop where
  ascending : kept.Pairwise (· < ·)
  mem_iff : ∀ i, i ∈ kept ↔ Reaches a.gates root i
  gates : List.Forall₂ (a.CopyOf kept) kept m.gates
  root : Copy kept root m.root

/-- A copy tells what it is a copy of. -/
theorem leftUnique_copy : Relator.LeftUnique (Copy kept) := by
  intro x y z hx hy
  cases hx with
  | var name =>
    cases hy
    rfl
  | gate h =>
    cases hy with
    | gate h' => rw [Option.some.inj (h.symm.trans h')]

theorem copy_renumber (hx : ∀ i, x = .gate i → i ∈ kept) : Copy kept x (renumber kept x) := by
  cases x with
  | var name => exact .var name
  | gate i => exact .gate (List.getElem?_idxOf (hx i rfl))

/-- A finished circuit keeps what its root reaches. -/
theorem collects_finish (h : a.Sound P) {root : Operand} (hroot : a.Has root) :
    Collects a root (a.reachable root) (a.finish root) := by
  have hsel := selection_reachable h hroot
  refine ⟨hsel.ascending, fun _ => mem_reachable h hroot, ?_, ?_⟩
  · have hkept : List.Forall₂ (fun i g => a.gates[i]? = some g) (a.reachable root)
        ((a.reachable root).filterMap (a.gates[·]?)) := by
      rw [← List.forall₂_map_left_iff (f := (a.gates[·]?)) (R := fun o g => o = some g),
        ← map_some_filterMap hsel.lt_length, List.forall₂_map_left_iff, List.forall₂_same]
      exact fun _ _ => rfl
    rw [finish_eq, compact, List.forall₂_map_right_iff]
    refine hkept.imp_of_mem fun i hi g hg => ⟨g, hg, rfl, ?_⟩
    rw [List.forall₂_map_right_iff, List.forall₂_same]
    refine fun x hx => copy_renumber ?_
    rintro j rfl
    exact hsel.closed i hi g hg j hx
  · exact copy_renumber (mem_reachable_root h hroot)

/-- The original of a copied gate stands in the arena once. -/
theorem Sound.leftUnique_copyOf (h : a.Sound P) : Relator.LeftUnique (a.CopyOf kept) := by
  intro i j g' hi hj
  obtain ⟨⟨kind, xs⟩, hg, hkind, hxs⟩ := hi
  obtain ⟨⟨kind', xs'⟩, hg', hkind', hxs'⟩ := hj
  cases hkind.symm.trans hkind'
  cases List.left_unique_forall₂' leftUnique_copy hxs hxs'
  exact (h.getElem?_iff hg' i).mp hg

/-- No gate stands in the circuit twice. -/
theorem Collects.nodup (hsound : a.Sound P) {root : Operand} {m : Mapping}
    (h : Collects a root kept m) : m.gates.Nodup :=
  h.gates.nodup hsound.leftUnique_copyOf (h.ascending.imp Nat.ne_of_lt)

/-! ## Words -/

variable {values : Valuation} {w : UInt64}

/-- The word of the expression of an operand is the word of the operand. -/
theorem Sound.eval_expr_iff (h : a.Sound P) (hx : a.Has x) :
    (a.expr x).eval values = .ok w ↔ Word a.gates values x w := by
  cases x with
  | var name => exact Expr.get_eq_ok_iff.trans Mapping.word_var_iff.symm
  | gate i =>
    -- a gate reads only gates before it, whose words are covered by the induction
    induction i using Nat.strongRecOn generalizing w with
    | ind i ih =>
      have hg : a.gates[i]? = some _ := List.getElem?_eq_getElem hx
      have hoperand : ∀ y ∈ a.gates[i].operands, ∀ v,
          (a.expr y).eval values = .ok v ↔ Word a.gates values y v := by
        intro y hy v
        cases y with
        | var name => exact Expr.get_eq_ok_iff.trans Mapping.word_var_iff.symm
        | gate j =>
          have hj : j < i := h.ordered_iff hg _ hy
          exact ih j hj (Nat.lt_trans hj hx)
      rw [h.expr_gate hg, Expr.gate, Expr.eval_gate, List.mapM_map, Except.bind_eq_ok_iff,
        Mapping.word_gate_iff hg]
      refine exists_congr fun ws => and_congr_left fun _ => ?_
      rw [Except.mapM_eq_ok_iff]
      constructor
      · exact fun hws => hws.imp_of_mem fun y hy v => (hoperand y hy v).mp
      · exact fun hws => hws.imp_of_mem fun y hy v => (hoperand y hy v).mpr

/-- Whether the root is a variable or reaches a gate that reads it. -/
def ReachesVar (a : Arena) (root : Operand) (name : String) : Prop :=
  root = .var name ∨ ∃ i g, Reaches a.gates root i ∧ a.gates[i]? = some g ∧ .var name ∈ g.operands

theorem Collects.reachesVar {root : Operand} {m : Mapping} (h : Collects a root kept m)
    {name : String} (hname : name ∈ m.variableNames) : a.ReachesVar root name := by
  have hvar : ∀ x, Copy kept x (.var name) → x = .var name := fun x hx => by
    cases hx
    rfl
  rcases Mapping.mem_variableNames.mp hname with ⟨g', hg', hmem⟩ | hroot
  · obtain ⟨i, hi, g, hg, -, hoperands⟩ := h.gates.exists_of_mem_right hg'
    obtain ⟨x, hx, hcopy⟩ := hoperands.exists_of_mem_right hmem
    exact .inr ⟨i, g, (h.mem_iff i).mp hi, hg, hvar x hcopy ▸ hx⟩
  · exact .inl (hvar root (hroot ▸ h.root))

/-! ## The arena and its circuits -/

/-- The arena that calls leave, and the circuits that come of it. Each call gave the index of the
one gate that it asked for, the next call will, and changes no gate that is there. The circuit of an
operand keeps the gates that the operand reaches, each of them once; it has a word exactly when the
operand has one, which is the same, and it has one when the variables that the operand reaches have.
The same operands and circuits come out of the tables. -/
theorem Run.collects (h : Run calls a) :
    (∀ c ∈ calls, ∃ i, c.2 = .gate i ∧ ∀ j, a.gates[j]? = some c.1 ↔ j = i) ∧
    (∀ g, Callable calls g →
      (∃ i, (a.add g).1 = .gate i ∧ ∀ j, (a.add g).2.gates[j]? = some g ↔ j = i) ∧
        ∀ (j : Nat) (k : MappedGate), a.gates[j]? = some k → (a.add g).2.gates[j]? = some k) ∧
    (∀ root, a.Has root →
      (∃ kept, Collects a root kept (a.finish root)) ∧ (a.finish root).gates.Nodup ∧
      ∀ values, (∀ w, (a.finish root).eval values = .ok w ↔ Word a.gates values root w) ∧
        ((∀ name, a.ReachesVar root name → ∃ w, values name = some w) →
          ∃ w, (a.finish root).eval values = .ok w)) ∧
    ∃ t, Tables.addAll (calls.map Prod.fst) = (calls.map Prod.snd, t) ∧ t.arena = a ∧
      ∀ root, a.Has root → t.finish root = a.finish root := by
  have hsound := h.sound
  refine ⟨?_, ?_, ?_, ?_⟩
  · intro c hc
    obtain ⟨i, hi, hgate⟩ := h.result c hc
    exact ⟨i, hi, hsound.getElem?_iff hgate⟩
  · intro g hg
    obtain ⟨i, hi, hgate⟩ := exists_index_add a g
    have hsound' := hsound.add (h.has_of_callable hg) hg.1
    exact ⟨⟨i, hi, hsound'.getElem?_iff hgate⟩, fun j k => (grows_add a g).getElem?⟩
  · intro root hroot
    have hcollects := collects_finish hsound hroot
    have hfinish := finish_wellFormed hsound (fun _ hne => hne) hroot
    refine ⟨⟨_, hcollects⟩, hcollects.nodup hsound, fun values => ⟨fun w => ?_, fun hvar => ?_⟩⟩
    · rw [hfinish.eval_eq, unfold_finish hsound hroot]
      exact hsound.eval_expr_iff hroot
    · exact hfinish.eval_isOk fun name hname => hvar name (hcollects.reachesVar hname)
  · obtain ⟨t, ht, rfl, -⟩ := h.tables
    exact ⟨t, ht, rfl, fun root hroot => Tables.finish_eq hsound hroot⟩

/-- An exclusive or is asked for twice and inverted; two other gates are not needed. -/
theorem Run.collects_unused :
    let a : Arena := ⟨[⟨.nor, [.var "A", .var "A"]⟩, ⟨.xor, [.var "A", .var "B"]⟩,
      ⟨.not, [.gate 0]⟩, ⟨.not, [.gate 1]⟩]⟩
    let calls : List (MappedGate × Operand) :=
      [(⟨.nor, [.var "A", .var "A"]⟩, .gate 0), (⟨.xor, [.var "A", .var "B"]⟩, .gate 1),
        (⟨.xor, [.var "A", .var "B"]⟩, .gate 1), (⟨.not, [.gate 0]⟩, .gate 2),
        (⟨.not, [.gate 1]⟩, .gate 3)]
    let values := Valuation.ofList [("A", 0b1100), ("B", 0b1010)]
    Run calls a ∧ a.Has (.gate 3) ∧
      a.finish (.gate 3) = ⟨[⟨.xor, [.var "A", .var "B"]⟩, ⟨.not, [.gate 0]⟩], .gate 1⟩ ∧
      (∃ kept, Collects a (.gate 3) kept (a.finish (.gate 3))) ∧
      (∀ name, a.ReachesVar (.gate 3) name → ∃ w, values name = some w) ∧
      (∃ w, (a.finish (.gate 3)).eval values = .ok w) ∧
      Word a.gates values (.gate 3) (~~~0b0110) := by
  intro a calls values
  have h : Run calls a :=
    .call (.call (.call (.call (.call .start (by decide)) (by decide)) (by decide)) (by decide))
      (by decide)
  have hhas : a.Has (.gate 3) := has_gate.mpr (by decide)
  obtain ⟨hcollects, -, hword⟩ := h.collects.2.2.1 (.gate 3) hhas
  have hvar : ∀ name, a.ReachesVar (.gate 3) name → ∃ w, values name = some w := by
    rintro name (hname | ⟨i, g, hr, hg, hname⟩)
    · cases hname
    · have hi : i ∈ a.reachable (.gate 3) := (mem_reachable h.sound hhas).mpr hr
      rw [show a.reachable (.gate 3) = [1, 3] by decide] at hi
      simp only [List.mem_cons, List.not_mem_nil, or_false] at hi
      rcases hi with rfl | rfl
      · cases hg
        simp only [List.mem_cons, Operand.var.injEq, List.not_mem_nil, or_false] at hname
        rcases hname with rfl | rfl
        · exact ⟨_, rfl⟩
        · exact ⟨_, rfl⟩
      · cases hg
        simp at hname
  exact ⟨h, hhas, by decide, hcollects, hvar, (hword values).2 hvar,
    ((hword values).1 _).mp (by decide)⟩

end Arena

end LogicSchematic
