import LogicSchematic.Proofs.Expr.Meaning
import LogicSchematic.Synthesis
import Mathlib.Data.List.Induction

/-!
# Mapping as rewriting

`mapExpr` handles a gate that cannot be built from its operands by combining their actions. Read as
rewriting, it puts another expression in the place of the first one: a wide gate becomes a chain of
gates with two operands, an inverted gate the inverse of its base, a gate over one operand that
operand. `plan?` takes one such step and is strict about its input: it gives nothing where a gate
without operands would be made, or the first of no operands taken.

`mapExpr_eq_run` says that mapping an expression is to check the depth and to follow its plan, and
`runs_of_proper` that an expression whose operators have operands runs: it has a plan, and so has
everything that is mapped on the way, which ends whatever the limit on the depth is.
-/

namespace LogicSchematic

namespace Expr

/-- A gate over its operands, if there are any. -/
def gateOver? (g : Gate) (es : List Expr) : Option Expr :=
  if es.isEmpty then none else some (gate g es)

/-- A wide gate as a chain of gates with two operands, the last operand outermost, if there is a
first operand. -/
def chain? (g : Gate) (es : List Expr) : Option Expr := do
  es.tail.foldlM (fun chain e => gateOver? g [chain, e]) (← es.head?)

end Expr

namespace Synthesizer

open LogicSchematic.Expr (gate gateOver? chain?)

/-- What mapping an expression comes down to. -/
inductive Plan where
  /-- Mapping its operands, and making a gate of these. -/
  | ofOperands (make : List Operand → Pending)
  /-- Refusing the operator of this name. -/
  | refused (name : String)
  /-- Mapping another expression in its place, this much deeper. -/
  | instead (e : Expr) (deeper : Nat)

variable {s : Synthesizer} {g base : Gate} {e f : Expr} {es : List Expr} {ps : List Pending}
  {p : Plan} {depth : Nat}

/-- What is done at a depth to map `e` by its plan. -/
def Plan.run (s : Synthesizer) (e : Expr) (depth : Nat) : Plan → Build Operand
  | .ofOperands make => do make (← e.operands.mapM (s.mapExpr · (depth + 1))) (depth + 1)
  | .refused name => throw (.ungeneratable name)
  | .instead f deeper => s.mapExpr f (depth + deeper)

/-- What is mapped next to map `e` by its plan. -/
def Plan.next (e : Expr) : Plan → List Expr
  | .ofOperands _ => e.operands
  | .refused _ => []
  | .instead f _ => [f]

/-- Mapping the inverse of an expression, one level deeper. -/
def inversePlan? (e : Option Expr) : Option Plan := do
  return .instead (← gateOver? .not [← e]) 1

/-- The plan for a gate over more than two operands. -/
def planWide? (g : Gate) (es : List Expr) : Option Plan :=
  if g.isAssociative then do
    return .instead (← chain? g es) 0
  else
    match g.inverted? with
    | some base => inversePlan? (gateOver? base es)
    | none => some (.refused g.name)

/-- The plan for a gate over one operand. -/
def planSingle? (g : Gate) (es : List Expr) : Option Plan :=
  if g.isAssociative then do
    return .instead (← es.head?) 1
  else inversePlan? es.head?

/-- The plan for a gate. -/
def planGate? (s : Synthesizer) (g : Gate) (es : List Expr) : Option Plan :=
  if g = .nand4 then
    if s.allows .nand4 ∧ es.length ≤ 4 then
      some (.ofOperands fun xs _ => add .nand4 (padTo 4 xs))
    else inversePlan? (gateOver? .and es)
  else if s.allows g ∧ es.length ≤ 2 then
    some (.ofOperands fun xs _ => add g xs)
  else if g = .and ∧ 2 < es.length ∧ es.length ≤ 4 ∧ s.allows .nand4 ∧ s.allows .not then
    some (.ofOperands fun xs _ => do add .not [← add .nand4 (padTo 4 xs)])
  else if 2 < es.length then planWide? g es
  else if es.length = 1 ∧ g ≠ .not then planSingle? g es
  else some (.ofOperands (s.build g))

/-- The plan for an expression. -/
def plan? (s : Synthesizer) : Expr → Option Plan
  | .var name => some (.ofOperands fun _ _ => pure (.var name))
  | .op (.gate g) es => s.planGate? g es
  | .op (.call name) _ => some (.refused name)

/-! ## The plan is what mapping does -/

/-- A depth that is checked twice is checked. -/
theorem checkDepth_twice (q : Build Operand) :
    (do s.checkDepth depth; s.checkDepth depth; q) = (do s.checkDepth depth; q) := by
  unfold checkDepth
  split <;> rfl

theorem build_of_allows (hg : s.allows g = true) (xs : List Operand) :
    s.build g xs depth = add g xs := by
  unfold build
  split <;> exact if_pos hg

theorem associative_eq_direct (hn : ps.length ≤ 2) (hone : s.allows g = true ∨ ps.length ≠ 1) :
    s.associative g ps = s.direct g ps := by
  unfold associative
  split
  · exact if_pos (hone.resolve_right fun h => h rfl)
  · exact if_pos hn

theorem complemented_eq_direct (hn : ps.length ≤ 2) (hone : s.allows g = true ∨ ps.length ≠ 1) :
    s.complemented g base ps = s.direct g ps := by
  unfold complemented
  split
  · exact if_pos (hone.resolve_right fun h => h rfl)
  · exact if_pos hn

/-- Up to two operands are mapped one by one, if not even one alone becomes something else. -/
theorem mapGate_eq_direct (hg : g ≠ .nand4) (hn : ps.length ≤ 2)
    (hone : s.allows g = true ∨ ¬(ps.length = 1 ∧ g ≠ .not)) :
    s.mapGate g ps = s.direct g ps := by
  cases g with
  | nand4 => exact absurd rfl hg
  | not => exact if_pos hn
  | and | or | xor => exact associative_eq_direct hn (by simpa using hone)
  | nand | nor | xnor => exact complemented_eq_direct hn (by simpa using hone)

theorem associative_of_wide (hn : 2 < ps.length) : s.associative g ps =
      if g = .and ∧ ps.length ≤ 4 ∧ s.allows .nand4 ∧ s.allows .not then s.invertedNand4 ps
      else s.chain g ps.reverse := by
  unfold associative
  split
  · simp at hn
  · exact if_neg (Nat.not_le.mpr hn)

theorem mapGate_eq_associative (hg : g.isAssociative = true) (ps : List Pending) :
    s.mapGate g ps = s.associative g ps := by
  cases g <;> first | rfl | cases hg

/-- A wide inverted gate is the inverse of its base. -/
theorem mapGate_eq_complement (hg : g ≠ .nand4) (hbase : g.inverted? = some base)
    (hn : 2 < ps.length) : s.mapGate g ps = s.complement (s.mapGate base ps) := by
  have hcomplemented : s.complemented g base ps = s.complement (s.associative base ps) := by
    unfold complemented
    split
    · simp at hn
    · exact if_neg (Nat.not_le.mpr hn)
  cases g with
  | nand4 => exact absurd rfl hg
  | nand | nor | xnor => cases hbase; exact hcomplemented
  | and | or | xor | not => cases hbase

/-- One operand of a gate that is not allowed. -/
theorem mapGate_single {x : Pending} (hg : g ≠ .nand4) (hnot : g ≠ .not)
    (hallows : ¬s.allows g = true) : s.mapGate g [x] =
      if g.isAssociative then fun depth => do s.checkDepth depth; x (depth + 1)
      else s.complement x := by
  cases g with
  | nand4 => exact absurd rfl hg
  | not => exact absurd rfl hnot
  | and | or | xor | nand | nor | xnor => exact if_neg hallows

theorem mapExpr_gate (g : Gate) (es : List Expr) :
    s.mapExpr (gate g es) = s.mapGate g (es.map s.mapExpr) := by
  rw [gate, mapExpr, mapAll_eq_map]

theorem complement_mapExpr (e : Expr) (depth : Nat) : s.complement (s.mapExpr e) depth =
    (do s.checkDepth depth; s.mapExpr (gate .not [e]) (depth + 1)) := by
  rw [mapExpr_gate]
  rfl

theorem direct_map (g : Gate) (es : List Expr) (depth : Nat) :
    s.direct g (es.map s.mapExpr) depth = (do
      s.checkDepth depth
      s.build g (← es.mapM (s.mapExpr · (depth + 1))) (depth + 1)) := by
  rw [direct, List.mapM_map]
  rfl

theorem chain_cons (hne : ps ≠ []) (x : Pending) (depth : Nat) : s.chain g (x :: ps) depth = (do
      s.checkDepth depth
      let left ← s.chain g ps (depth + 1)
      let right ← x (depth + 1)
      s.build g [left, right] (depth + 1)) := by
  cases ps with
  | nil => exact absurd rfl hne
  | cons y ps => rfl

/-- A chain of gates checks its depth. -/
theorem checkDepth_chain (hn : 2 ≤ ps.length) :
    (do s.checkDepth depth; s.chain g ps depth) = s.chain g ps depth := by
  match ps with
  | x :: y :: ps =>
    rw [chain_cons (List.cons_ne_nil y ps)]
    exact checkDepth_twice _

/-- A chain is mapped as the wide gate it is made of. -/
theorem mapExpr_foldl (hg : g.isAssociative = true) (e : Expr) (es : List Expr) :
    s.mapExpr (es.foldl (fun chain f => gate g [chain, f]) e) =
      s.chain g ((e :: es).map s.mapExpr).reverse := by
  -- from the last operand, which is the second one of the outermost gate on both sides
  induction es using List.reverseRecOn with
  | nil => rfl
  | append_singleton es f ih =>
    have htwo : ∀ e, s.mapExpr (gate g [e, f]) = s.direct g [s.mapExpr e, s.mapExpr f] := by
      intro e
      rw [mapExpr_gate]
      refine mapGate_eq_direct ?_ (Nat.le_refl 2) (.inr (by simp))
      rintro rfl
      cases hg
    rw [List.foldl_append, List.foldl_cons, List.foldl_nil, htwo, ih, ← List.cons_append,
      List.map_append, List.reverse_append, List.map_singleton, List.reverse_singleton,
      List.singleton_append]
    funext depth
    rw [chain_cons (by simp), direct]
    simp

/-- A wide gate with an operand is a chain. -/
theorem chain?_cons (g : Gate) (e : Expr) (es : List Expr) :
    chain? g (e :: es) = some (es.foldl (fun chain f => gate g [chain, f]) e) :=
  (Option.foldlM_eq_some_foldl (fun _ => True) (fun _ _ _ _ => ⟨rfl, trivial⟩) trivial).1

theorem eq_gate_of_gateOver? (h : gateOver? g es = some f) : f = gate g es := by
  unfold gateOver? at h
  split at h
  · cases h
  · exact (Option.some.inj h).symm

theorem exists_of_inversePlan? {o : Option Expr} (h : inversePlan? o = some p) :
    ∃ f, o = some f ∧ p = .instead (gate .not [f]) 1 := by
  cases o with
  | none => cases h
  | some f => exact ⟨f, rfl, (Option.some.inj h).symm⟩

theorem wide_eq_run (hg : g ≠ .nand4) (hn : 2 < es.length)
    (hnand4 : ¬(g = .and ∧ es.length ≤ 4 ∧ s.allows .nand4 ∧ s.allows .not))
    (h : planWide? g es = some p) : s.mapGate g (es.map s.mapExpr) depth =
      (do s.checkDepth depth; p.run s (gate g es) depth) := by
  have hlen : (es.map s.mapExpr).length = es.length := List.length_map s.mapExpr
  rw [planWide?] at h
  split at h
  next hassociative =>
    cases es with
    | nil => cases h
    | cons e es =>
      rw [chain?_cons] at h
      cases h
      -- the chain stands at the depth of the wide gate, where the depth is checked once more
      rw [← hlen] at hn hnand4
      rw [mapGate_eq_associative hassociative, associative_of_wide hn, if_neg hnand4, Plan.run,
        mapExpr_foldl hassociative]
      refine (checkDepth_chain ?_).symm
      rw [List.length_reverse]
      exact Nat.le_of_lt hn
  next hassociative =>
    split at h
    next base hbase =>
      obtain ⟨f, hf, rfl⟩ := exists_of_inversePlan? h
      cases eq_gate_of_gateOver? hf
      rw [mapGate_eq_complement hg hbase (hlen.symm ▸ hn), ← mapExpr_gate, complement_mapExpr]
      rfl
    next hbase =>
      cases h
      -- what is neither associative nor inverted is an inverter
      cases g with
      | not =>
        show s.inverter (es.map s.mapExpr) depth = _
        rw [inverter, if_neg (Nat.not_le.mpr (hlen.symm ▸ hn))]
        rfl
      | and | or | xor => exact absurd rfl hassociative
      | nand | nor | xnor | nand4 => cases hbase

theorem single_eq_run (hg : g ≠ .nand4) (hnot : g ≠ .not) (hn : es.length = 1)
    (hallows : ¬s.allows g = true) (h : planSingle? g es = some p) :
    s.mapGate g (es.map s.mapExpr) depth =
      (do s.checkDepth depth; p.run s (gate g es) depth) := by
  obtain ⟨e, rfl⟩ := List.length_eq_one_iff.mp hn
  rw [List.map_singleton, mapGate_single hg hnot hallows]
  rw [planSingle?] at h
  split at h
  next hassociative =>
    cases h
    rw [if_pos hassociative]
    rfl
  next hassociative =>
    obtain ⟨f, hf, rfl⟩ := exists_of_inversePlan? h
    cases hf
    rw [if_neg hassociative, complement_mapExpr]
    rfl

theorem wideNand_eq_run (h : s.planGate? .nand4 es = some p) :
    s.wideNand (es.map s.mapExpr) depth =
      (do s.checkDepth depth; p.run s (gate .nand4 es) depth) := by
  have hlen : (es.map s.mapExpr).length = es.length := List.length_map s.mapExpr
  rw [planGate?, if_pos rfl] at h
  rw [wideNand, hlen]
  split at h
  next hwide =>
    cases h
    rw [if_pos hwide, List.mapM_map]
    rfl
  next hwide =>
    obtain ⟨f, hf, rfl⟩ := exists_of_inversePlan? h
    cases eq_gate_of_gateOver? hf
    rw [if_neg hwide, ← mapGate_eq_associative rfl, ← mapExpr_gate, complement_mapExpr]
    rfl

/-- Mapping a gate is checking the depth and following the plan. -/
theorem mapGate_eq_run (h : s.planGate? g es = some p) : s.mapGate g (es.map s.mapExpr) depth =
    (do s.checkDepth depth; p.run s (gate g es) depth) := by
  by_cases hnand4 : g = .nand4
  · subst hnand4
    exact wideNand_eq_run h
  have hlen : (es.map s.mapExpr).length = es.length := List.length_map s.mapExpr
  rw [planGate?, if_neg hnand4] at h
  split at h
  next hdirect =>
    cases h
    rw [mapGate_eq_direct hnand4 (hlen.symm ▸ hdirect.2) (.inl hdirect.1), direct_map]
    simp only [build_of_allows hdirect.1]
    rfl
  next hdirect =>
  split at h
  next hwide =>
    cases h
    obtain ⟨rfl, htwo, hfour⟩ := hwide
    rw [mapGate_eq_associative rfl, associative_of_wide (hlen.symm ▸ htwo), hlen,
      if_pos ⟨rfl, hfour⟩, invertedNand4, List.mapM_map]
    rfl
  next hwide =>
  split at h
  next htwo => exact wide_eq_run hnand4 htwo (fun ⟨hg, hfour⟩ => hwide ⟨hg, htwo, hfour⟩) h
  next htwo =>
  split at h
  next hone =>
    refine single_eq_run hnand4 hone.2 hone.1 (fun hg => hdirect ⟨hg, ?_⟩) h
    exact Nat.not_lt.mp htwo
  next hone =>
    cases h
    rw [mapGate_eq_direct hnand4 (hlen.symm ▸ Nat.not_lt.mp htwo) (.inr (hlen.symm ▸ hone)),
      direct_map]
    rfl

/-- Mapping an expression is checking the depth and following the plan. -/
theorem mapExpr_eq_run (h : s.plan? e = some p) (depth : Nat) :
    s.mapExpr e depth = (do s.checkDepth depth; p.run s e depth) := by
  cases e with
  | var name =>
    cases h
    rfl
  | op o es =>
    cases o with
    | call name =>
      cases h
      rfl
    | gate g =>
      rw [← gate, ← mapGate_eq_run h, mapExpr_gate]

/-! ## Plans exist -/

/-- Whether mapping an expression follows a plan, and so does everything mapped next, to an end. -/
inductive Runs (s : Synthesizer) : Expr → Prop
  | step {e : Expr} {p : Plan} (plan : s.plan? e = some p)
      (run : ∀ depth, s.mapExpr e depth = (do s.checkDepth depth; p.run s e depth))
      (next : ∀ f ∈ p.next e, s.Runs f) : s.Runs e

theorem runs_of_plan (plan : s.plan? e = some p) (next : ∀ f ∈ p.next e, s.Runs f) : s.Runs e :=
  .step plan (mapExpr_eq_run plan) next

/-- A gate that is built from up to two operands runs when they do. -/
theorem runs_direct (hg : g ≠ .nand4) (hn : es.length ≤ 2)
    (hone : s.allows g = true ∨ ¬(es.length = 1 ∧ g ≠ .not)) (hes : ∀ e ∈ es, s.Runs e) :
    s.Runs (gate g es) := by
  have hplan : ∃ make, s.planGate? g es = some (.ofOperands make) := by
    rw [planGate?, if_neg hg]
    split
    next => exact ⟨_, rfl⟩
    next hallows =>
    have hone' := hone.resolve_left fun h => hallows ⟨h, hn⟩
    rw [if_neg fun h => Nat.not_le.mpr h.2.1 hn, if_neg (Nat.not_lt.mpr hn), if_neg hone']
    exact ⟨_, rfl⟩
  obtain ⟨make, hplan⟩ := hplan
  exact runs_of_plan (p := .ofOperands make) hplan hes

theorem runs_not (he : s.Runs e) : s.Runs (gate .not [e]) :=
  runs_direct nofun (Nat.le_succ 1) (.inr fun h => h.2 rfl) (by simpa using he)

theorem runs_two (hg : g ≠ .nand4) (he : s.Runs e) (hf : s.Runs f) : s.Runs (gate g [e, f]) :=
  runs_direct hg (Nat.le_refl 2) (.inr fun h => nomatch h.1) (by simp [he, hf])

theorem runs_foldl (hg : g ≠ .nand4) (he : s.Runs e) (hes : ∀ f ∈ es, s.Runs f) :
    s.Runs (es.foldl (fun chain f => gate g [chain, f]) e) := by
  -- the chain built so far is the first operand of the next gate
  induction es generalizing e with
  | nil => exact he
  | cons f es ih =>
    rw [List.forall_mem_cons] at hes
    exact ih (runs_two hg he hes.1) hes.2

/-- The inverse of an expression that runs can be planned, and runs. -/
theorem exists_inversePlan (he : s.Runs e) :
    ∃ p, inversePlan? (some e) = some p ∧ ∀ f' ∈ p.next f, s.Runs f' :=
  ⟨_, rfl, List.forall_mem_singleton.mpr (runs_not he)⟩

theorem exists_planWide (hg : g ≠ .nand4) (he : s.Runs e) (hes : ∀ f ∈ es, s.Runs f)
    (hbase : ∀ base, g.inverted? = some base → s.Runs (gate base (e :: es))) :
    ∃ p, planWide? g (e :: es) = some p ∧ ∀ f' ∈ p.next f, s.Runs f' := by
  rw [planWide?]
  split
  next =>
    rw [chain?_cons]
    exact ⟨_, rfl, List.forall_mem_singleton.mpr (runs_foldl hg he hes)⟩
  next =>
    split
    next base h => exact exists_inversePlan (hbase base h)
    next => exact ⟨_, rfl, fun _ h => nomatch h⟩

theorem exists_planSingle (he : s.Runs e) :
    ∃ p, planSingle? g [e] = some p ∧ ∀ f' ∈ p.next f, s.Runs f' := by
  rw [planSingle?]
  split
  next => exact ⟨_, rfl, List.forall_mem_singleton.mpr he⟩
  next => exact exists_inversePlan he

/-- A gate runs when its operands do, and when its base over these does. -/
theorem runs_of_base (hne : es ≠ []) (hes : ∀ e ∈ es, s.Runs e)
    (hbase : ∀ base, g.inverted? = some base → s.Runs (gate base es)) : s.Runs (gate g es) := by
  -- the plan goes on to the operands, to what is made of them, or to the inverse of the base
  suffices h : ∃ p, s.planGate? g es = some p ∧ ∀ f ∈ p.next (gate g es), s.Runs f by
    obtain ⟨p, hplan, hnext⟩ := h
    exact runs_of_plan hplan hnext
  obtain ⟨e, es, rfl⟩ := List.exists_cons_of_ne_nil hne
  have hcons := List.forall_mem_cons.mp hes
  rw [planGate?]
  split
  next hnand4 =>
    subst hnand4
    split
    next => exact ⟨_, rfl, hes⟩
    next => exact exists_inversePlan (hbase .and rfl)
  next hnand4 =>
  split
  next => exact ⟨_, rfl, hes⟩
  next =>
  split
  next => exact ⟨_, rfl, hes⟩
  next =>
  split
  next => exact exists_planWide hnand4 hcons.1 hcons.2 hbase
  next =>
  split
  next hone =>
    obtain ⟨f, hf⟩ := List.length_eq_one_iff.mp hone.1
    cases hf
    exact exists_planSingle hcons.1
  next => exact ⟨_, rfl, hes⟩

theorem runs_associative (hg : g.isAssociative = true) (hne : es ≠ [])
    (hes : ∀ e ∈ es, s.Runs e) : s.Runs (gate g es) := by
  refine runs_of_base hne hes fun base hbase => ?_
  cases g with
  | and | or | xor => cases hbase
  | not | nand | nor | xnor | nand4 => cases hg

theorem runs_gate (hne : es ≠ []) (hes : ∀ e ∈ es, s.Runs e) : s.Runs (gate g es) := by
  refine runs_of_base hne hes fun base hbase => ?_
  exact runs_associative (Gate.isAssociative_of_inverted hbase) hne hes

/-- An expression whose operators have operands is mapped without a missing operand. -/
theorem runs_of_proper (he : e.Proper) : s.Runs e := by
  induction e with
  | var name => exact runs_of_plan rfl fun _ h => nomatch h
  | op o es ih =>
    obtain ⟨hpos, hes⟩ := Expr.everywhere_op.mp he
    cases o with
    | call name => exact runs_of_plan rfl fun _ h => nomatch h
    | gate g => exact runs_gate (List.length_pos_iff.mp hpos) fun e hmem => ih e hmem (hes e hmem)

end Synthesizer

end LogicSchematic
