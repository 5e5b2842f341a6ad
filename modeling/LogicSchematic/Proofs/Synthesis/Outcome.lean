import LogicSchematic.Proofs.Expr.Shape
import LogicSchematic.Proofs.Synthesis.Settling

/-!
# The outcome of synthesis

An operand that waits for its depth settles `k` levels below it (`Pends`). Every way of mapping a
gate over such operands pends a few levels more, and succeeds when its operands do and the gate can
be mapped (`GateSet.Maps`): `direct_pends`, `chain_pends`, … and, for all gates, `mapGate_pends`.

So the depth of an expression is bounded by its nodes (`mapExpr_pends`): a wide gate needs a level
for each operand, and these are nodes too. `synthesize_outcome` says what follows for all depth
limits; in particular, the limit decides nothing but whether it is exceeded
(`synthesize_cutOff`).
-/

namespace LogicSchematic

namespace GateSet

variable (s : GateSet)

/-- Whether an associative gate can be mapped over `n` operands, at least one. -/
def Associates (g : Gate) (n : Nat) : Prop := n = 1 ∨ s.Builds g 2

/-- Whether an inverted gate can be mapped over `n` operands, at least one. -/
def Complements (g base : Gate) (n : Nat) : Prop :=
  if n = 1 then s.contains g ∨ s.Inverts
  else if n = 2 then s.Builds g 2
  else s.Associates base n ∧ s.Inverts

/-- Whether a gate can be mapped over `n` operands, at least one. -/
def Maps : Gate → Nat → Prop
  | .not, n => n ≤ 2 ∧ s.Builds .not n
  | .nand4, n => s.contains .nand4 ∧ n ≤ 4 ∨ s.Associates .and n ∧ s.Inverts
  | .nand, n => s.Complements .nand .and n
  | .nor, n => s.Complements .nor .or n
  | .xnor, n => s.Complements .xnor .xor n
  | g, n => s.Associates g n

end GateSet

/-- Whether every operator of an expression is a gate that can be mapped. -/
def Expr.Mappable (s : GateSet) (e : Expr) : Prop :=
  e.Everywhere fun o n => ∃ g, o = .gate g ∧ s.Maps g n

namespace Synthesizer

variable {s : GateSet} {α : Type} {k k' : Nat} {c c' : Prop}

/-- Whether an action settles `k` levels below the depth it is given. -/
def Pends (k : Nat) (c : Prop) (p : Nat → Pending) : Prop :=
  ∀ d, Settles (d + k) c fun M => p M d

/-! ## Gates over pending operands -/

theorem Pends.mono {p : Nat → Pending} (h : Pends k c p) (hk : k ≤ k') : Pends k' c p :=
  fun d => (h d).mono (by omega)

theorem Pends.iff {p : Nat → Pending} (h : Pends k c p) (hc : c ↔ c') : Pends k c' p :=
  fun d => (h d).iff hc

theorem pends_ite {b : Bool} {p q : Nat → Pending} (hp : b = true → Pends k c p)
    (hq : b = false → Pends k c q) : Pends k c fun M => if b = true then p M else q M := by
  cases b with
  | true => exact hp rfl
  | false => exact hq rfl

theorem Pends.checkDepth {p : Nat → Pending} (h : Pends k c p) :
    Pends (k + 1) c fun M depth => (do (Synthesizer.mk s M).checkDepth depth; p M (depth + 1)) :=
  fun d => Settles.checkDepth ((h (d + 1)).mono (by omega)) (by omega)

variable {ι : Type} {f : Nat → ι → Pending} {C : ι → Prop} {es : List ι} {g : Gate}

/-- Operands are mapped one after another, and then used. -/
theorem mapM_bind_settles {q : Nat → List Operand → Build α}
    (h : ∀ e ∈ es, Pends k (C e) fun M => f M e) (hd : d + k ≤ k')
    (hq : ∀ xs, xs.length = es.length → Settles k' c fun M => q M xs) :
    Settles k' ((∀ e ∈ es, C e) ∧ c) fun M => (es.map (f M)).mapM (· d) >>= q M := by
  induction es generalizing q with
  | nil =>
    simp only [List.map_nil, List.mapM_nil, pure_bind]
    exact (hq [] rfl).iff (by simp)
  | cons e es ih =>
    rw [List.forall_mem_cons] at h
    simp only [List.map_cons, List.mapM_cons, bind_assoc, pure_bind]
    refine Settles.iff (((h.1 d).mono hd).bind fun x => ih h.2 fun xs hxs => ?_) ?_
    · exact hq (x :: xs) (congrArg (· + 1) hxs)
    · rw [List.forall_mem_cons, and_assoc]

theorem direct_pends (hk : 3 ≤ k) (h : ∀ e ∈ es, Pends k (C e) fun M => f M e) :
    Pends (k + 1) ((∀ e ∈ es, C e) ∧ s.Builds g es.length) fun M =>
      (Synthesizer.mk s M).direct g (es.map (f M)) := by
  intro d
  refine Settles.checkDepth ?_ (by omega)
  refine mapM_bind_settles h (by omega) fun xs hxs => ?_
  rw [← hxs]
  exact build_settles (by omega)

theorem inverse_pends {p : Nat → Pending} (hp : Pends k c p) :
    Pends (k + 1) (c ∧ s.Inverts) fun M => (Synthesizer.mk s M).inverse (p M) := by
  intro d
  simp only [inverse, direct, List.mapM_cons, List.mapM_nil, bind_assoc, pure_bind]
  refine Settles.checkDepth ?_ (by omega)
  exact ((hp (d + 1)).mono (by omega)).bind fun x => invert_settles (by omega)

theorem complement_pends {p : Nat → Pending} (hp : Pends k c p) :
    Pends (k + 2) (c ∧ s.Inverts) fun M => (Synthesizer.mk s M).complement (p M) :=
  (inverse_pends hp).checkDepth

/-- Every link of a chain needs one level more. -/
theorem chain_pends (hk : 3 ≤ k) (hne : es ≠ []) (h : ∀ e ∈ es, Pends k (C e) fun M => f M e) :
    Pends (k + es.length) ((∀ e ∈ es, C e) ∧ s.Associates g es.length) fun M =>
      (Synthesizer.mk s M).chain g (es.map (f M)) := by
  induction es with
  | nil => exact absurd rfl hne
  | cons e es ih =>
    rw [List.forall_mem_cons] at h
    cases es with
    | nil => exact (h.1.mono (by omega)).iff (by simp [GateSet.Associates])
    | cons e' es =>
      intro d
      have hrest := ih (List.cons_ne_nil e' es) h.2
      simp only [List.length_cons] at hrest ⊢
      refine Settles.iff (c := ((∀ e ∈ e' :: es, C e) ∧ s.Associates g (es.length + 1)) ∧
        C e ∧ s.Builds g 2) (Settles.checkDepth ?_ (by omega)) ?_
      · refine ((hrest (d + 1)).mono (by omega)).bind fun left => ?_
        refine ((h.1 (d + 1)).mono (by omega)).bind fun right => ?_
        exact build_settles (by omega)
      · simp only [GateSet.Associates, List.forall_mem_cons]
        have : es.length + 1 + 1 ≠ 1 := by omega
        tauto

theorem invertedNand4_pends (h : ∀ e ∈ es, Pends k (C e) fun M => f M e) :
    Pends (k + 1) (∀ e ∈ es, C e) fun M =>
      (Synthesizer.mk s M).invertedNand4 (es.map (f M)) := by
  intro d
  refine (Settles.checkDepth (mapM_bind_settles h (by omega) fun xs _ => ?_) (by omega)).iff
    (and_iff_left trivial)
  exact ((settles_add _ _ _).bind fun z => settles_add _ _ _).iff (and_iff_left trivial)

theorem builds_one (hg : g ≠ .not) : s.Builds g 1 ↔ s.contains g := by
  cases g <;> first | exact Iff.rfl | exact absurd rfl hg

theorem associative_pends (hg : g ≠ .not) (hk : 3 ≤ k) (hne : es ≠ [])
    (h : ∀ e ∈ es, Pends k (C e) fun M => f M e) :
    Pends (k + es.length) ((∀ e ∈ es, C e) ∧ s.Associates g es.length) fun M =>
      (Synthesizer.mk s M).associative g (es.map (f M)) := by
  cases es with
  | nil => exact absurd rfl hne
  | cons e es =>
    cases es with
    | nil =>
      simp only [List.map_cons, List.map_nil, associative, allows, List.length_singleton]
      refine pends_ite (fun hallowed => ?_) fun _ => ?_
      · exact (direct_pends hk h).iff
          (and_congr_right' (by simp [GateSet.Associates, builds_one hg, hallowed]))
      · exact (h e List.mem_cons_self).checkDepth.iff (by simp [GateSet.Associates])
    | cons e' es =>
      have hlen : ∀ M, ((e :: e' :: es).map (f M)).length = es.length + 2 := by simp
      simp only [List.map_cons] at hlen
      simp only [List.map_cons, associative, hlen, allows]
      by_cases htwo : es.length + 2 ≤ 2
      · simp only [if_pos htwo]
        have hnil : es = [] := List.length_eq_zero_iff.mp (by omega)
        subst hnil
        exact ((direct_pends hk h).mono (by simp)).iff
          (and_congr_right' (by simp [GateSet.Associates]))
      · simp only [if_neg htwo]
        -- three operands or more: the wide gate inverted, if it may be used, and else a chain
        by_cases hwide : g = .and ∧ es.length + 2 ≤ 4 ∧ s.contains .nand4 = true ∧
            s.contains .not = true
        · simp only [if_pos hwide]
          obtain ⟨rfl, -, hnand4, -⟩ := hwide
          exact ((invertedNand4_pends h).mono (by simp)).iff
            (by simp [GateSet.Associates, GateSet.Builds, GateSet.Conjoins, hnand4])
        · simp only [if_neg hwide]
          have hchain : Pends _ _ fun M =>
              (Synthesizer.mk s M).chain g ((e :: e' :: es).reverse.map (f M)) :=
            chain_pends hk (by simp) fun e he => h e (List.mem_reverse.mp he)
          simp only [List.mem_reverse, List.length_reverse, List.map_reverse] at hchain
          exact hchain

theorem complemented_pends {base : Gate} (hg : g ≠ .not) (hbase : base ≠ .not) (hk : 3 ≤ k)
    (hne : es ≠ []) (h : ∀ e ∈ es, Pends k (C e) fun M => f M e) :
    Pends (k + es.length + 2) ((∀ e ∈ es, C e) ∧ s.Complements g base es.length) fun M =>
      (Synthesizer.mk s M).complemented g base (es.map (f M)) := by
  cases es with
  | nil => exact absurd rfl hne
  | cons e es =>
    cases es with
    | nil =>
      simp only [List.map_cons, List.map_nil, complemented, allows, List.length_singleton]
      refine pends_ite (fun hallowed => ?_) fun hallowed => ?_
      · exact ((direct_pends hk h).mono (by omega)).iff
          (and_congr_right' (by simp [GateSet.Complements, builds_one hg, hallowed]))
      · refine ((complement_pends (h e List.mem_cons_self)).mono (by omega)).iff ?_
        simp [GateSet.Complements, hallowed]
    | cons e' es =>
      have hlen : ∀ M, ((e :: e' :: es).map (f M)).length = es.length + 2 := by simp
      simp only [List.map_cons] at hlen
      simp only [List.map_cons, complemented, hlen]
      by_cases htwo : es.length + 2 ≤ 2
      · simp only [if_pos htwo]
        have hnil : es = [] := List.length_eq_zero_iff.mp (by omega)
        subst hnil
        exact ((direct_pends hk h).mono (by simp)).iff
          (and_congr_right' (by simp [GateSet.Complements]))
      · simp only [if_neg htwo]
        refine (complement_pends (associative_pends hbase hk hne h)).iff ?_
        have hone : (e :: e' :: es).length ≠ 1 := by simp
        have htwo : (e :: e' :: es).length ≠ 2 := by simp only [List.length_cons]; omega
        rw [GateSet.Complements, if_neg hone, if_neg htwo, and_assoc]

theorem wideNand_pends (hk : 3 ≤ k) (hne : es ≠ [])
    (h : ∀ e ∈ es, Pends k (C e) fun M => f M e) :
    Pends (k + es.length + 2) ((∀ e ∈ es, C e) ∧ s.Maps .nand4 es.length) fun M =>
      (Synthesizer.mk s M).wideNand (es.map (f M)) := by
  simp only [wideNand, allows, List.length_map]
  by_cases hwide : s.contains .nand4 = true ∧ es.length ≤ 4
  · simp only [if_pos hwide]
    intro d
    refine (Settles.checkDepth (mapM_bind_settles h (by omega) fun xs _ => ?_) (by omega)).iff
      (and_congr_right' (iff_of_true trivial (.inl hwide)))
    exact settles_add _ _ _
  · simp only [if_neg hwide]
    refine (complement_pends (associative_pends (by simp) hk hne h)).iff ?_
    rw [GateSet.Maps, and_assoc, or_iff_right hwide]

theorem inverter_pends (hk : 3 ≤ k) (h : ∀ e ∈ es, Pends k (C e) fun M => f M e) :
    Pends (k + 1) ((∀ e ∈ es, C e) ∧ s.Maps .not es.length) fun M =>
      (Synthesizer.mk s M).inverter (es.map (f M)) := by
  simp only [inverter, List.length_map]
  by_cases htwo : es.length ≤ 2
  · simp only [if_pos htwo]
    exact (direct_pends hk h).iff (and_congr_right' (iff_and_self.mpr fun _ => htwo))
  · simp only [if_neg htwo]
    intro d
    refine (Settles.checkDepth (settles_refuse _ .not) (by omega)).iff ?_
    exact iff_of_false id fun hmaps => htwo hmaps.2.1

theorem mapGate_pends (hk : 3 ≤ k) (hne : es ≠ [])
    (h : ∀ e ∈ es, Pends k (C e) fun M => f M e) :
    Pends (k + es.length + 2) ((∀ e ∈ es, C e) ∧ s.Maps g es.length) fun M =>
      (Synthesizer.mk s M).mapGate g (es.map (f M)) := by
  cases g with
  | not => exact (inverter_pends hk h).mono (by omega)
  | nand4 => exact wideNand_pends hk hne h
  | nand => exact complemented_pends (by simp) (by simp) hk hne h
  | nor => exact complemented_pends (by simp) (by simp) hk hne h
  | xnor => exact complemented_pends (by simp) (by simp) hk hne h
  | and => exact (associative_pends (by simp) hk hne h).mono (by omega)
  | or => exact (associative_pends (by simp) hk hne h).mono (by omega)
  | xor => exact (associative_pends (by simp) hk hne h).mono (by omega)

/-! ## Expressions -/

/-- An expression needs at most three levels for each of its nodes and four more. -/
theorem mapExpr_pends {e : Expr} (he : e.Proper) :
    Pends (3 * e.nodeCount + 4) (e.Mappable s) fun M => (Synthesizer.mk s M).mapExpr e := by
  induction e with
  | var name =>
    intro d
    simp only [mapExpr]
    exact (Settles.checkDepth (settles_pure _ _) (by omega)).iff
      (iff_of_true trivial (Expr.everywhere_var _ name))
  | op o es ih =>
    obtain ⟨hpos, hes⟩ := Expr.everywhere_op.mp he
    cases o with
    | call name =>
      intro d
      simp only [mapExpr]
      refine (Settles.checkDepth (settles_throw _ name) (by omega)).iff ?_
      refine iff_of_false id fun hmap => ?_
      obtain ⟨g, hg, -⟩ := (Expr.everywhere_op.mp hmap).1
      cases hg
    | gate g =>
      simp only [mapExpr, mapAll_eq_map]
      -- the operands have the depth that their nodes pay for, and the gate's own node pays for the
      -- rest
      have hcount := Expr.nodeCount_op (.gate g) es
      have hlen := Expr.length_le_nodeCountAll es
      have hoperands : ∀ e ∈ es, Pends (3 * (Expr.nodeCountAll es + 1 - es.length) + 4)
          (e.Mappable s) fun M => (Synthesizer.mk s M).mapExpr e := by
        intro e hmem
        have hle := Expr.nodeCount_le_of_mem hmem
        exact (ih e hmem (hes e hmem)).mono (by omega)
      refine Pends.iff (Pends.mono (mapGate_pends (by omega) ?_ hoperands) ?_) ?_
      · exact List.length_pos_iff.mp hpos
      · omega
      · rw [Expr.Mappable, Expr.everywhere_op, and_comm]
        refine and_congr_left fun _ => ?_
        simp

/-- Synthesis is cut off at a limit that the number of nodes bounds; beyond it, it succeeds exactly
when every operator can be mapped. -/
theorem synthesize_outcome (s : GateSet) {e : Expr} (he : e.Proper) :
    ∃ D r, D ≤ 3 * e.nodeCount + 4 ∧ (∀ M, (Synthesizer.mk s M).synthesize e = cutOff D r M) ∧
      ((∃ m, r = .ok m) ↔ e.Mappable s) := by
  obtain ⟨D, r, hD, hp, hr⟩ := mapExpr_pends (s := s) he 0 Arena.empty
  refine ⟨D, r.map fun v => v.2.finish v.1, by omega, fun M => ?_, ?_⟩
  · have hrun : (Synthesizer.mk s M).synthesize e =
        (cutOff D r M).map fun v => v.2.finish v.1 := by
      rw [← hp M]
      rfl
    rw [hrun, cutOff, cutOff]
    split
    · rfl
    · cases r <;> rfl
  · rw [← hr]
    cases r with
    | error name => simp [Except.map]
    | ok v => simp [Except.map]

/-- The depth limit is a cut-off and nothing else: from some limit on, which the number of nodes
bounds, synthesis always ends in the same circuit, or in the same operator that cannot be built;
below it, the limit is exceeded. -/
theorem synthesize_cutOff (s : GateSet) {e : Expr} (he : e.Proper) :
    ∃ D, D ≤ 3 * e.nodeCount + 4 ∧
      ((∃ m, ∀ M, D ≤ M → (Synthesizer.mk s M).synthesize e = .ok m) ∨
        ∃ name, ∀ M, D ≤ M → (Synthesizer.mk s M).synthesize e = .error (.ungeneratable name)) ∧
      ∀ M, M < D → (Synthesizer.mk s M).synthesize e = .error (.depthExceeded M) := by
  obtain ⟨D, r, hD, hrun, -⟩ := synthesize_outcome s he
  have hbeyond : ∀ M, D ≤ M →
      (Synthesizer.mk s M).synthesize e = r.mapError .ungeneratable := by
    intro M hM
    rw [hrun M, cutOff, if_neg (Nat.not_lt.mpr hM)]
  refine ⟨D, hD, ?_, fun M hM => ?_⟩
  · cases r with
    | ok m => exact .inl ⟨m, hbeyond⟩
    | error name => exact .inr ⟨name, hbeyond⟩
  · rw [hrun M, cutOff, if_pos hM]

/-- An exclusive disjunction from inverted disjunctions is found from some limit on. -/
theorem synthesize_cutOff_xor_of_nor :
    let e : Expr := .gate .xor [.var "A", .var "B"]
    e.Proper ∧ ∃ D m, D ≤ 13 ∧ (∀ M, D ≤ M → Synthesizer.synthesize ⟨.ofList [.nor], M⟩ e = .ok m) ∧
      ∀ M, M < D → Synthesizer.synthesize ⟨.ofList [.nor], M⟩ e = .error (.depthExceeded M) := by
  intro e
  have he : e.Proper := by decide
  obtain ⟨D, hD, hbeyond, hbelow⟩ := synthesize_cutOff (.ofList [.nor]) he
  refine ⟨he, D, ?_⟩
  rcases hbeyond with ⟨m, hm⟩ | ⟨name, hname⟩
  · exact ⟨m, hD, hm, hbelow⟩
  · cases hname _ hD

end Synthesizer

end LogicSchematic
