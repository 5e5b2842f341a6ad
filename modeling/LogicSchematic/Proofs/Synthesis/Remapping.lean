import LogicSchematic.Proofs.Expr.RoundTrip
import LogicSchematic.Proofs.Mapping.Parts
import LogicSchematic.Proofs.Synthesis.Rewriting
import LogicSchematic.Proofs.Synthesis.Sharing
import Mathlib

/-!
# Mapping what was mapped

The text of a circuit is that of the expression it unfolds to. Its words are read as what they stand
for, so the expression is read back from the text (`writable_unfold`). All its operators are allowed
gates with fitting operand counts, and mapping keeps such a gate: its operands are mapped, and the
gate is put over them (`mapGate_of_fits`). So the arena gives the very same expression back
(`mapExpr_keeps`), and finishing it gives a circuit that unfolds to it again. Both circuits hold no
gate twice, so they have equally many (`parse_text_fixed`).
-/

namespace LogicSchematic

/-- Whether an operator is an allowed gate with a fitting number of operands. -/
def GateSet.Keeps (allowed : GateSet) (o : Op) (n : Nat) : Prop :=
  ∃ g, o = .gate g ∧ allowed.contains g = true ∧ g.Fits n

namespace Synthesizer

variable {s : Synthesizer} {a b : Arena} {g : Gate} {e : Expr} {m : Mapping} {depth : Nat}

/-! ## Keeping gates -/

theorem checkDepth_of_le {α : Type} (hd : depth ≤ s.maxDepth) (q : Build α) :
    (do s.checkDepth depth; q) = q := by
  unfold checkDepth
  rw [if_neg (Nat.not_lt.mpr hd)]
  rfl

theorem padTo_of_length {n : Nat} {xs : List Operand} (hpos : 0 < n) (h : xs.length = n) :
    padTo n xs = xs := by
  have hne : xs ≠ [] := List.length_pos_iff.mp (by omega)
  rw [padTo, List.getLast?_eq_some_getLast hne]
  dsimp only
  rw [h, Nat.sub_self, List.replicate_zero, List.append_nil]

/-- An allowed gate with fitting operands is put over them. -/
theorem mapGate_of_fits (hg : s.allows g = true) {ps : List Pending} (hn : g.Fits ps.length)
    (hd : depth ≤ s.maxDepth) {xs : List Operand} (hlen : xs.length = ps.length)
    (hxs : ps.mapM (· (depth + 1)) a = .ok (xs, b)) :
    s.mapGate g ps depth a = .ok (b.add ⟨g, xs⟩) := by
  by_cases hnand4 : g = .nand4
  · subst hnand4
    have hfour : ps.length = 4 := hn
    show s.wideNand ps depth a = _
    rw [wideNand, if_pos ⟨hg, by omega⟩, checkDepth_of_le hd]
    refine bind_run_eq_ok.mpr ⟨xs, b, hxs, ?_⟩
    rw [padTo_of_length (by omega) (hlen.trans hfour)]
    rfl
  · have htwo : ps.length ≤ 2 := by
      cases g <;> simp only [Gate.Fits] at hn <;> first | omega | exact absurd rfl hnand4
    rw [mapGate_eq_direct hnand4 htwo (.inl hg), direct, checkDepth_of_le hd]
    refine bind_run_eq_ok.mpr ⟨xs, b, hxs, ?_⟩
    rw [build_of_allows hg]
    rfl

/-- Whether an expression, mapped at some depth in some arena, is the expression of the operand that
is given. -/
def Kept (s : Synthesizer) (depth : Nat) (a : Arena) (e : Expr) : Prop :=
  ∃ x b, s.mapExpr e depth a = .ok (x, b) ∧ b.Sound (fun _ => True) ∧ a.Grows b ∧ b.Has x ∧
    b.expr x = e

/-- Several expressions that are kept one by one are kept together. -/
theorem mapM_keeps (depth : Nat) {es : List Expr} (ha : a.Sound fun _ => True)
    (h : ∀ e ∈ es, ∀ a : Arena, a.Sound (fun _ => True) → s.Kept depth a e) :
    ∃ xs b, (es.map s.mapExpr).mapM (· depth) a = .ok (xs, b) ∧ b.Sound (fun _ => True) ∧
      a.Grows b ∧ (∀ x ∈ xs, b.Has x) ∧ xs.map b.expr = es := by
  induction es generalizing a with
  | nil => exact ⟨[], a, rfl, ha, Arena.Grows.refl a, by simp, rfl⟩
  | cons e es ih =>
    rw [List.forall_mem_cons] at h
    obtain ⟨x, b, hx, hb, hab, hhas, hexpr⟩ := h.1 a ha
    obtain ⟨xs, c, hxs, hc, hbc, hall, hexprs⟩ := ih hb h.2
    refine ⟨x :: xs, c, ?_, hc, hab.trans hbc, ?_, ?_⟩
    · rw [List.map_cons, List.mapM_cons]
      exact bind_run_eq_ok.mpr ⟨x, b, hx, bind_run_eq_ok.mpr ⟨xs, c, hxs, rfl⟩⟩
    · exact List.forall_mem_cons.mpr ⟨hbc.has hhas, hall⟩
    · -- the arena may have grown since, but not under the first operand
      rw [List.map_cons, hbc.expr_eq hhas, hexpr, hexprs]

/-- An expression of allowed gates with fitting operand counts is kept, when the limit is not below
the depths it takes. -/
theorem mapExpr_keeps (depth : Nat) (he : e.Everywhere s.allowed.Keeps)
    (hd : depth + e.height ≤ s.maxDepth) (ha : a.Sound fun _ => True) : s.Kept depth a e := by
  induction e generalizing depth a with
  | var name =>
    refine ⟨.var name, a, ?_, ha, Arena.Grows.refl a, trivial, rfl⟩
    show (do s.checkDepth depth; pure (Operand.var name)) a = _
    rw [checkDepth_of_le (by omega)]
    rfl
  | op o es ih =>
    obtain ⟨⟨g, rfl, hg, hn⟩, hes⟩ := Expr.everywhere_op.mp he
    have hheight : ∀ f ∈ es, depth + 1 + f.height ≤ s.maxDepth := by
      intro f hf
      have := Expr.heightAll_le_iff.mp (Nat.le_refl (Expr.heightAll es)) f hf
      rw [Expr.height] at hd
      omega
    obtain ⟨xs, b, hxs, hb, hab, hall, hexprs⟩ := mapM_keeps (depth + 1) ha
      fun f hf a ha => ih f hf _ (hes f hf) (hheight f hf) ha
    have hlen : xs.length = es.length := by rw [← hexprs, List.length_map]
    have hrun : s.mapExpr (.op (.gate g) es) depth a = .ok (b.add ⟨g, xs⟩) := by
      rw [show Expr.op (.gate g) es = Expr.gate g es from rfl, mapExpr_gate]
      refine mapGate_of_fits hg ?_ (by omega) ?_ hxs
      · rwa [List.length_map]
      · rw [hlen, List.length_map]
    obtain ⟨hc, hbc, hhas, hexpr⟩ := Arena.add_sound (g := ⟨g, xs⟩) hb hall trivial
    refine ⟨(b.add ⟨g, xs⟩).1, (b.add ⟨g, xs⟩).2, hrun, hc, hab.trans hbc, hhas, ?_⟩
    rw [hexpr, hexprs]
    rfl

/-- Such an expression has a circuit that unfolds to it. -/
theorem exists_synthesize_of_keeps (he : e.Everywhere s.allowed.Keeps)
    (hd : e.height ≤ s.maxDepth) : ∃ m, s.synthesize e = .ok m ∧ m.unfold = e := by
  obtain ⟨x, b, hrun, hb, -, hhas, hexpr⟩ :=
    mapExpr_keeps 0 he (by omega) (Arena.sound_empty _)
  refine ⟨b.finish x, ?_, ?_⟩
  · rw [synthesize]
    exact Except.bind_eq_ok_iff.mpr ⟨(x, b), hrun, rfl⟩
  · rw [Arena.unfold_finish hb hhas, hexpr]

/-! ## The expression of a circuit -/

theorem keeps_unfold (he : e.Proper) (hnot : e.UnaryNot) (h : s.synthesize e = .ok m) :
    m.unfold.Everywhere s.allowed.Keeps := by
  refine (wellFormed_of_synthesize he h).everywhere_unfold fun g hg => ?_
  obtain ⟨hallows, hfits⟩ := fit_of_synthesize he hnot h hg
  exact ⟨g.gate, rfl, hallows, hfits⟩

/-- The gates of a circuit have pairwise different expressions. -/
theorem nodup_gateExprs_of_synthesize (he : e.Proper) (h : s.synthesize e = .ok m) :
    (Mapping.gateExprs #[] m.gates).toList.Nodup := by
  rw [List.nodup_iff_injective_getElem]
  intro i j hij
  have hlen : (Mapping.gateExprs #[] m.gates).toList.length = m.gates.length := by
    rw [Array.length_toList, Mapping.size_gateExprs_empty]
  have hi : i.1 < m.gates.length := hlen ▸ i.2
  have hj : j.1 < m.gates.length := hlen ▸ j.2
  refine Fin.ext (injective_unfold_of_synthesize he h hi hj ?_)
  simp only [Mapping.unfold, Mapping.operandExpr]
  rw [← Array.getElem?_toList, ← Array.getElem?_toList, List.getElem?_eq_getElem i.2,
    List.getElem?_eq_getElem j.2]
  exact congrArg (fun e => (some e).getD (.var "")) hij

end Synthesizer

open Synthesizer

/-- The expression of a circuit is written with the words it was read from. -/
theorem Expr.writable_unfold {strict : Bool} {e : Expr} {s : Synthesizer} {m : Mapping}
    (he : e.Writable strict) (hproper : e.Proper) (hnot : e.UnaryNot)
    (h : s.synthesize e = .ok m) : m.unfold.Writable strict := by
  have hm := wellFormed_of_synthesize hproper h
  constructor
  · intro name hname
    have hmem := hm.mem_variableNames_of_mem_occurrences name hname
    exact he.names name ((mem_variableNames_of_synthesize hproper h).mp hmem)
  · refine (keeps_unfold hproper hnot h).mono ?_
    rintro o n ⟨g, rfl, -, hfits⟩
    refine ⟨hfits.bounds.1, Token.isWord_name g, ?_⟩
    by_cases hg : g = .not
    · subst hg
      exact .inl ⟨by decide, rfl, hfits⟩
    · exact .inr (called_ofWord_name hg)

/-- The text of a circuit is read as an expression with the words of the circuit. With the same
gates allowed and a limit that is not below the number of gates, the expression has a circuit with
the same text and with equally many gates. -/
theorem parse_text_fixed {strict : Bool} {text : String} {e : Expr} {s : Synthesizer} {m : Mapping}
    (he : (Expr.parse strict text).result = .ok e) (hm : s.synthesize e.flatten = .ok m) :
    ∃ u, (Expr.parse strict m.text).result = .ok u ∧ (∀ values, u.eval values = m.eval values) ∧
      ∀ d, m.gates.length ≤ d → ∃ m', (Synthesizer.mk s.allowed d).synthesize u = .ok m' ∧
        m'.text = m.text ∧ m'.gates.length = m.gates.length := by
  have hshaped := Expr.wellShaped_of_parse he
  have hproper := Expr.flatten_proper hshaped.proper
  have hnot := Expr.flatten_unaryNot hshaped.proper hshaped.unaryNot
  have hformed := wellFormed_of_synthesize hproper hm
  refine ⟨m.unfold, ?_, fun values => (hformed.eval_eq values).symm, fun d hd => ?_⟩
  · exact (Expr.writable_unfold (Expr.writable_of_parse he).flatten hproper hnot hm).parse_text
  · have hkeeps := keeps_unfold hproper hnot hm
    obtain ⟨m', hm', hunfold⟩ := exists_synthesize_of_keeps (s := ⟨s.allowed, d⟩) hkeeps
      (Nat.le_trans hformed.height_unfold_le hd)
    have hproper' := hformed.proper.2
    refine ⟨m', hm', ?_, ?_⟩
    · rw [Mapping.text, Mapping.text, hunfold]
    · exact (wellFormed_of_synthesize hproper' hm').length_gates_eq hformed
        (nodup_gateExprs_of_synthesize hproper' hm') (nodup_gateExprs_of_synthesize hproper hm)
        hunfold

/-- The parity of two variables over inverted conjunctions: the text repeats what is shared, and
mapping the expression that is read from it shares it again. -/
theorem parse_text_fixed_xor :
    let s : Synthesizer := ⟨.ofList [.nand], 30⟩
    let e : Expr := .gate .xor [.var "A", .var "B"]
    (Expr.parse true "a xor b").result = .ok e ∧ ∃ m u, s.synthesize e.flatten = .ok m ∧
      m.gates.length = 9 ∧ m.unfold.opCount = 23 ∧ (Expr.parse true m.text).result = .ok u ∧
      (∀ values, u.eval values = m.eval values) ∧
      ∃ m', (Synthesizer.mk s.allowed 9).synthesize u = .ok m' ∧ m'.text = m.text ∧
        m'.gates.length = 9 := by
  intro s e
  have he : (Expr.parse true "a xor b").result = .ok e := by cbv
  have hm : s.synthesize e.flatten = .ok _ := rfl
  obtain ⟨u, hu, heval, hfixed⟩ := parse_text_fixed he hm
  obtain ⟨m', hm', htext, hlen⟩ := hfixed 9 (by decide)
  exact ⟨he, _, u, hm, by decide, by decide, hu, heval, m', hm', htext, hlen⟩

end LogicSchematic
