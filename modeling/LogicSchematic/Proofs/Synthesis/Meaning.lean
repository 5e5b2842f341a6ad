import LogicSchematic.Proofs.Mapping.Arena
import LogicSchematic.Synthesis

/-!
# What synthesis builds

Every step of synthesis leaves a sound arena that has only grown, and gives an operand that stands
for the expression the step is for (`Yields`, `Makes`). There is one rule for each way steps are put
together (`Yields.bind`, `Makes.addOr`, …) and then one lemma for each function, which says by which
identity of `Expr` its gates mean what they should: `invert_makes`, `conjoin_makes`, … for the
functions over mapped operands, `direct_denotes`, `chain_denotes`, … for those over pending ones,
and `mapExpr_denotes` for an expression.

The gates themselves satisfy `s.Fit F`: their kinds are allowed and their operand counts are among
those of `F`. Any `F` that has the counts of `Gate.Fits` will do, as long as it has the counts of
the inverters in the expression, which are the only gates copied with a count that nothing checks.
-/

namespace LogicSchematic

/-- The numbers of operands that fit the pins of a gate: an inverter has one operand, the wide gate
has four, and the other gates have one or two. -/
def Gate.Fits : Gate → Nat → Prop
  | .not, n => n = 1
  | .nand4, n => n = 4
  | _, n => n = 1 ∨ n = 2

theorem Gate.fits_of_inputPins {g : Gate} (h : g.inputPins = 2) {n : Nat} (hn : n = 1 ∨ n = 2) :
    g.Fits n := by
  cases g <;> first | exact hn | cases h

/-- A gate with fitting operands has some, and no more than pins. -/
theorem Gate.Fits.bounds {g : Gate} {n : Nat} (h : g.Fits n) : 0 < n ∧ n ≤ g.inputPins := by
  cases g <;> simp only [Gate.Fits, Gate.inputPins] at h ⊢ <;> omega

namespace Synthesizer

open LogicSchematic.Expr (gate)

variable {s : Synthesizer} {F : Gate → Nat → Prop} {P : MappedGate → Prop} {α β : Type}
  {a : Arena} {x y : Operand} {e f : Expr} {d : Nat}

/-- A gate of an allowed kind whose number of operands is among those of `F`. -/
def Fit (s : Synthesizer) (F : Gate → Nat → Prop) (g : MappedGate) : Prop :=
  s.allows g.gate = true ∧ F g.gate g.operands.length

/-- Whether every success of a step leaves a sound arena that has only grown, and gives a result
with the property `Q`. -/
def Yields (P : MappedGate → Prop) (a : Arena) (p : Build α) (Q : Arena → α → Prop) : Prop :=
  ∀ x b, p a = .ok (x, b) → b.Sound P ∧ a.Grows b ∧ Q b x

/-- Whether every success of a step gives an operand that stands for `e`. -/
abbrev Makes (P : MappedGate → Prop) (a : Arena) (p : Build Operand) (e : Expr) : Prop :=
  Yields P a p fun b x => b.Stands x e

/-- Whether an action makes an operand for `e` in every sound arena and at every depth. -/
def Denotes (P : MappedGate → Prop) (p : Pending) (e : Expr) : Prop :=
  ∀ depth a, a.Sound P → Makes P a (p depth) e

/-! ## Rules -/

theorem bind_run_eq_ok {p : Build α} {q : α → Build β} {r : β × Arena} :
    (p >>= q) a = .ok r ↔ ∃ x b, p a = .ok (x, b) ∧ q x b = .ok r := by
  rw [show (p >>= q) a = (p a >>= fun r => q r.1 r.2) from rfl, Except.bind_eq_ok_iff]
  exact ⟨fun ⟨⟨x, b⟩, h⟩ => ⟨x, b, h⟩, fun ⟨x, b, h⟩ => ⟨(x, b), h⟩⟩

theorem Yields.bind {p : Build α} {q : α → Build β} {Q : Arena → α → Prop} {R : Arena → β → Prop}
    (hp : Yields P a p Q) (hq : ∀ x b, b.Sound P → a.Grows b → Q b x → Yields P b (q x) R) :
    Yields P a (p >>= q) R := by
  intro y c h
  obtain ⟨x, b, hx, hy⟩ := bind_run_eq_ok.mp h
  obtain ⟨hb, hab, hQ⟩ := hp x b hx
  obtain ⟨hc, hbc, hR⟩ := hq x b hb hab hQ y c hy
  exact ⟨hc, hab.trans hbc, hR⟩

theorem yields_pure (ha : a.Sound P) {x : α} {Q : Arena → α → Prop} (hQ : Q a x) :
    Yields P a (pure x) Q := by
  intro y b h
  cases h
  exact ⟨ha, Arena.Grows.refl a, hQ⟩

/-- A depth that is checked changes nothing. -/
theorem Yields.checkDepth (ha : a.Sound P) {p : Build α} {Q : Arena → α → Prop}
    (hp : Yields P a p Q) : Yields P a (do s.checkDepth d; p) Q := by
  refine Yields.bind (Q := fun b _ => b = a) ?_ ?_
  · intro u b h
    rw [Synthesizer.checkDepth] at h
    split at h
    next => cases h
    next =>
      cases h
      exact ⟨ha, Arena.Grows.refl a, rfl⟩
  · rintro u b - - rfl
    exact hp

theorem makes_refuse (g : Gate) (e : Expr) : Makes P a (refuse g) e := by
  intro x b h
  cases h

theorem Makes.congr {p : Build Operand} (h : Makes P a p e) (hef : e ≈ f) : Makes P a p f := by
  intro x b hx
  obtain ⟨hb, hab, hstands⟩ := h x b hx
  exact ⟨hb, hab, hstands.congr hef⟩

theorem add_makes (ha : a.Sound P) {g : Gate} {xs : List Operand} {es : List Expr}
    (hxs : List.Forall₂ a.Stands xs es) (hP : P ⟨g, xs⟩) :
    Makes P a (add g xs) (gate g es) := by
  intro y b h
  have hadd : a.add ⟨g, xs⟩ = (y, b) := Except.ok.inj h
  have hstands := Arena.add_stands ha hxs hP
  rwa [hadd] at hstands

/-- A gate over two operands, whatever these stand for. -/
theorem makes_of_two {g : Gate} {es : List Expr} {p : Build Operand}
    (hxs : List.Forall₂ a.Stands [x, y] es)
    (h : ∀ {e f}, a.Stands x e → a.Stands y f → Makes P a p (gate g [e, f])) :
    Makes P a p (gate g es) := by
  obtain _ | ⟨hx, _ | ⟨hy, _ | _⟩⟩ := hxs
  exact h hx hy

/-- An allowed gate is added, another one is replaced. -/
theorem addOr_makes (ha : a.Sound P) {g : Gate} {xs : List Operand} {es : List Expr}
    (hxs : List.Forall₂ a.Stands xs es) (hP : s.allows g = true → P ⟨g, xs⟩)
    {replacement : Build Operand} (hr : Makes P a replacement (gate g es)) :
    Makes P a (s.addOr g xs d replacement) (gate g es) := by
  rw [addOr]
  split
  next hg => exact add_makes ha hxs (hP hg)
  next =>
    refine Yields.checkDepth ha fun y b h => ?_
    exact hr y b (Except.mapError_eq_ok_iff.mp h)

theorem Denotes.congr {p : Pending} (h : Denotes P p e) (hef : e ≈ f) : Denotes P p f :=
  fun depth a ha => (h depth a ha).congr hef

theorem Denotes.checkDepth {p : Pending} (h : Denotes P p e) :
    Denotes P (fun depth => do s.checkDepth depth; p (depth + 1)) e :=
  fun depth a ha => Yields.checkDepth ha (h (depth + 1) a ha)

/-- Several actions give operands for several expressions, in order. -/
theorem mapM_yields (ha : a.Sound P) {ps : List Pending} {es : List Expr}
    (h : List.Forall₂ (Denotes P) ps es) :
    Yields P a (ps.mapM (· d)) fun b xs => List.Forall₂ b.Stands xs es := by
  induction h generalizing a with
  | nil =>
    rw [List.mapM_nil]
    exact yields_pure ha .nil
  | cons hp _ ih =>
    rw [List.mapM_cons]
    refine (hp d a ha).bind fun x b hb _ hx => ?_
    refine (ih hb).bind fun xs c hc hbc hxs => ?_
    exact yields_pure hc (.cons (hx.mono hbc) hxs)

/-- Padding repeats the last operand, and with it what that operand stands for. -/
theorem padTo_stands {xs : List Operand} {es : List Expr} (hxs : List.Forall₂ a.Stands xs es)
    (hne : xs ≠ []) (n : Nat) :
    ∃ fs f, es = fs ++ [f] ∧
      List.Forall₂ a.Stands (padTo n xs) (fs ++ [f] ++ List.replicate (n - xs.length) f) := by
  have hlast : ∃ fs f, es = fs ++ [f] ∧ a.Stands (xs.getLast hne) f := by
    induction hxs with
    | nil => exact absurd rfl hne
    | @cons x e xs es hx hxs ih =>
      cases xs with
      | nil =>
        cases hxs
        exact ⟨[], e, rfl, hx⟩
      | cons y ys =>
        obtain ⟨fs, f, rfl, hf⟩ := ih (List.cons_ne_nil y ys)
        exact ⟨e :: fs, f, rfl, hf⟩
  have hrep : ∀ {x f}, a.Stands x f → ∀ m,
      List.Forall₂ a.Stands (List.replicate m x) (List.replicate m f) := by
    intro x f hx m
    induction m with
    | zero => exact .nil
    | succ m ih => exact .cons hx ih
  obtain ⟨fs, f, rfl, hf⟩ := hlast
  refine ⟨fs, f, rfl, ?_⟩
  rw [padTo, List.getLast?_eq_some_getLast hne]
  exact List.rel_append hxs (hrep hf _)

theorem length_padTo {xs : List Operand} (hne : xs ≠ []) {n : Nat} (hn : xs.length ≤ n) :
    (padTo n xs).length = n := by
  rw [padTo, List.getLast?_eq_some_getLast hne]
  simp only [List.length_append, List.length_replicate]
  omega

/-! ## Gates over mapped operands -/

variable (hF : ∀ g n, g.Fits n → F g n)

include hF

theorem fit_of_allows {g : Gate} {xs : List Operand} (hg : s.allows g = true)
    (hn : g.Fits xs.length) : s.Fit F ⟨g, xs⟩ :=
  ⟨hg, hF _ _ hn⟩

theorem fit_two {g : Gate} (hg : s.allows g = true) (hn : g.inputPins = 2) :
    s.Fit F ⟨g, [x, y]⟩ :=
  fit_of_allows hF hg (Gate.fits_of_inputPins hn (.inr rfl))

theorem invert_makes (ha : a.Sound (s.Fit F)) (hx : a.Stands x e) :
    Makes (s.Fit F) a (s.invert x d) (gate .not [e]) := by
  refine addOr_makes ha (.cons hx .nil) (fun hg => fit_of_allows hF hg (by rfl)) ?_
  split
  next hg =>
    refine (add_makes ha (.cons hx (.cons hx .nil)) ?_).congr (Expr.nand_self e)
    exact fit_two hF hg rfl
  split
  next hg =>
    refine (add_makes ha (.cons hx (.cons hx (.cons hx (.cons hx .nil)))) ?_).congr
      (Expr.nand4_self e)
    exact fit_of_allows hF hg rfl
  split
  next hg =>
    refine (add_makes ha (.cons hx (.cons hx .nil)) ?_).congr (Expr.nor_self e)
    exact fit_two hF hg rfl
  next => exact makes_refuse _ _

/-- A gate over two operands, then inverted. -/
theorem add_invert_makes (ha : a.Sound (s.Fit F)) {g : Gate} {xs : List Operand} {es : List Expr}
    (hxs : List.Forall₂ a.Stands xs es) (hg : s.allows g = true) (hn : g.Fits xs.length) :
    Makes (s.Fit F) a (do s.invert (← add g xs) d) (gate .not [gate g es]) :=
  (add_makes ha hxs (fit_of_allows hF hg hn)).bind fun _ _ hb _ hz => invert_makes hF hb hz

/-- Two operands are inverted before they are used. -/
theorem invert_two_makes (ha : a.Sound (s.Fit F)) (hx : a.Stands x e) (hy : a.Stands y f)
    {q : Operand → Operand → Build Operand} {h : Expr}
    (hq : ∀ nx ny b, b.Sound (s.Fit F) → b.Stands nx (gate .not [e]) →
      b.Stands ny (gate .not [f]) → Makes (s.Fit F) b (q nx ny) h) :
    Makes (s.Fit F) a (do q (← s.invert x d) (← s.invert y d)) h := by
  refine (invert_makes hF ha hx).bind fun nx b hb hab hnx => ?_
  refine (invert_makes hF hb (hy.mono hab)).bind fun ny c hc hbc hny => ?_
  exact hq nx ny c hc (hnx.mono hbc) hny

theorem conjoin_makes (ha : a.Sound (s.Fit F)) (hx : a.Stands x e) (hy : a.Stands y f) :
    Makes (s.Fit F) a (s.conjoin x y d) (gate .and [e, f]) := by
  have hxy := List.Forall₂.cons hx (List.Forall₂.cons hy .nil)
  refine addOr_makes ha hxy (fun hg => fit_two hF hg (by rfl)) ?_
  split
  next hg =>
    -- the inverse of its own inverse
    exact (add_invert_makes hF ha hxy hg (by exact .inr rfl)).congr
      (Expr.not_gate_of_inverted rfl [e, f])
  split
  next hg =>
    -- De Morgan, with the inverter in the gate
    refine invert_two_makes hF ha hx hy fun nx ny b hb hnx hny => ?_
    refine (add_makes hb (.cons hnx (.cons hny .nil)) ?_).congr (Expr.nor_not_not e f)
    exact fit_two hF hg rfl
  split
  next hg =>
    -- the wide gate, with each operand on two pins
    refine (add_invert_makes hF ha (.cons hx (.cons hy hxy)) hg (by rfl)).congr ?_
    exact Setoid.trans (Expr.gate_congr_one .not (Expr.nand4_pair e f))
      (Expr.not_gate_of_inverted rfl [e, f])
  split
  next hg =>
    refine invert_two_makes hF ha hx hy fun nx ny b hb hnx hny => ?_
    -- De Morgan, with an inverter after the gate
    exact (add_invert_makes hF hb (.cons hnx (.cons hny .nil)) hg (by exact .inr rfl)).congr
      (Expr.not_or_not_not e f)
  next => exact makes_refuse _ _

theorem disjoin_makes (ha : a.Sound (s.Fit F)) (hx : a.Stands x e) (hy : a.Stands y f) :
    Makes (s.Fit F) a (s.disjoin x y d) (gate .or [e, f]) := by
  have hxy := List.Forall₂.cons hx (List.Forall₂.cons hy .nil)
  refine addOr_makes ha hxy (fun hg => fit_two hF hg (by rfl)) ?_
  split
  next hg =>
    exact (add_invert_makes hF ha hxy hg (by exact .inr rfl)).congr
      (Expr.not_gate_of_inverted rfl [e, f])
  split
  next hg =>
    refine invert_two_makes hF ha hx hy fun nx ny b hb hnx hny => ?_
    refine (add_makes hb (.cons hnx (.cons hny .nil)) ?_).congr (Expr.nand_not_not e f)
    exact fit_two hF hg rfl
  split
  next hg =>
    refine invert_two_makes hF ha hx hy fun nx ny b hb hnx hny => ?_
    refine (add_makes hb (.cons hnx (.cons hny (.cons hnx (.cons hny .nil)))) ?_).congr ?_
    · exact fit_of_allows hF hg rfl
    · exact Setoid.trans (Expr.nand4_pair _ _) (Expr.nand_not_not e f)
  split
  next hg =>
    refine invert_two_makes hF ha hx hy fun nx ny b hb hnx hny => ?_
    exact (add_invert_makes hF hb (.cons hnx (.cons hny .nil)) hg (by exact .inr rfl)).congr
      (Expr.not_and_not_not e f)
  next => exact makes_refuse _ _

/-- What is made is then inverted. -/
theorem invert_after_makes {p : Build Operand} (hp : Makes (s.Fit F) a p e) :
    Makes (s.Fit F) a (do s.invert (← p) d) (gate .not [e]) :=
  hp.bind fun _ _ hb _ hz => invert_makes hF hb hz

theorem nandOf_makes (ha : a.Sound (s.Fit F)) (hx : a.Stands x e) (hy : a.Stands y f) :
    Makes (s.Fit F) a (s.nandOf x y d) (gate .nand [e, f]) := by
  have hxy := List.Forall₂.cons hx (List.Forall₂.cons hy .nil)
  refine addOr_makes ha hxy (fun hg => fit_two hF hg (by rfl)) ?_
  split
  next hg =>
    rw [Bool.and_eq_true] at hg
    exact (add_invert_makes hF ha hxy hg.1 (by exact .inr rfl)).congr
      (Expr.not_gate_inverted rfl [e, f])
  split
  next hg =>
    refine (add_makes ha (.cons hx (.cons hy hxy)) ?_).congr (Expr.nand4_pair e f)
    exact fit_of_allows hF hg rfl
  next =>
    exact (invert_after_makes hF (conjoin_makes hF ha hx hy)).congr
      (Expr.not_gate_inverted rfl [e, f])

theorem norOf_makes (ha : a.Sound (s.Fit F)) (hx : a.Stands x e) (hy : a.Stands y f) :
    Makes (s.Fit F) a (s.norOf x y d) (gate .nor [e, f]) := by
  have hxy := List.Forall₂.cons hx (List.Forall₂.cons hy .nil)
  refine addOr_makes ha hxy (fun hg => fit_two hF hg (by rfl)) ?_
  exact (invert_after_makes hF (disjoin_makes hF ha hx hy)).congr
    (Expr.not_gate_inverted rfl [e, f])

theorem xorOf_makes (ha : a.Sound (s.Fit F)) (hx : a.Stands x e) (hy : a.Stands y f) :
    Makes (s.Fit F) a (s.xorOf x y d) (gate .xor [e, f]) := by
  have hxy := List.Forall₂.cons hx (List.Forall₂.cons hy .nil)
  refine addOr_makes ha hxy (fun hg => fit_two hF hg (by rfl)) ?_
  refine (invert_makes hF ha hy).bind fun ny b hb hab hny => ?_
  refine (conjoin_makes hF hb (hx.mono hab) hny).bind fun left c hc hbc hleft => ?_
  have hac := hab.trans hbc
  refine (invert_makes hF hc (hx.mono hac)).bind fun nx c₁ hc₁ hcc hnx => ?_
  have hy' := hy.mono (hac.trans hcc)
  refine (conjoin_makes hF hc₁ hnx hy').bind fun right c₂ hc₂ hc₁₂ hright => ?_
  exact (disjoin_makes hF hc₂ (hleft.mono (hcc.trans hc₁₂)) hright).congr (Expr.or_and_not_and e f)

theorem xnorOf_makes (ha : a.Sound (s.Fit F)) (hx : a.Stands x e) (hy : a.Stands y f) :
    Makes (s.Fit F) a (s.xnorOf x y d) (gate .xnor [e, f]) := by
  have hxy := List.Forall₂.cons hx (List.Forall₂.cons hy .nil)
  refine addOr_makes ha hxy (fun hg => fit_two hF hg (by rfl)) ?_
  exact (invert_after_makes hF (xorOf_makes hF ha hx hy)).congr
    (Expr.not_gate_inverted rfl [e, f])

/-- A gate over operands that are mapped already. -/
theorem build_makes (ha : a.Sound (s.Fit F)) {g : Gate} {xs : List Operand} {es : List Expr}
    (hxs : List.Forall₂ a.Stands xs es) (hn : s.allows g = true → F g xs.length) :
    Makes (s.Fit F) a (s.build g xs d) (gate g es) := by
  unfold build
  split
  · obtain _ | ⟨hx, _ | _⟩ := hxs
    exact invert_makes hF ha hx
  · exact makes_of_two hxs (conjoin_makes hF ha)
  · exact makes_of_two hxs (disjoin_makes hF ha)
  · exact makes_of_two hxs (nandOf_makes hF ha)
  · exact makes_of_two hxs (norOf_makes hF ha)
  · exact makes_of_two hxs (xorOf_makes hF ha)
  · exact makes_of_two hxs (xnorOf_makes hF ha)
  · exact addOr_makes ha hxs (fun hg => ⟨hg, hn hg⟩) (makes_refuse g _)

/-! ## Gates over pending operands -/

theorem direct_denotes {g : Gate} {ps : List Pending} {es : List Expr}
    (hps : List.Forall₂ (Denotes (s.Fit F)) ps es) (hn : s.allows g = true → F g ps.length) :
    Denotes (s.Fit F) (s.direct g ps) (gate g es) := by
  intro depth a ha
  refine Yields.checkDepth ha ?_
  refine (mapM_yields ha hps).bind fun xs b hb _ hxs => ?_
  refine build_makes hF hb hxs ?_
  rwa [hxs.length_eq, ← hps.length_eq]

theorem inverse_denotes {p : Pending} (hp : Denotes (s.Fit F) p e) :
    Denotes (s.Fit F) (s.inverse p) (gate .not [e]) :=
  direct_denotes hF (.cons hp .nil) fun _ => hF _ _ (by rfl)

theorem complement_denotes {p : Pending} (hp : Denotes (s.Fit F) p e) :
    Denotes (s.Fit F) (s.complement p) (gate .not [e]) :=
  (inverse_denotes hF hp).checkDepth

/-- A chain of gates with two operands, the last operand of the wide gate outermost. -/
theorem chain_denotes {g : Gate} (hg : g.isAssociative = true) {ps : List Pending} {es : List Expr}
    (hps : List.Forall₂ (Denotes (s.Fit F)) ps es) :
    Denotes (s.Fit F) (s.chain g ps) (gate g es.reverse) := by
  induction hps with
  | nil => exact fun depth a ha => makes_refuse g _
  | @cons p e ps es hp hps ih =>
    cases ps with
    | nil =>
      cases hps
      exact hp.congr (Setoid.symm (Expr.gate_single hg e))
    | cons q ps =>
      intro depth a ha
      refine Yields.checkDepth ha ?_
      -- the operands are listed last first: the rest of the list is the left operand
      refine (ih (depth + 1) a ha).bind fun left b hb _ hleft => ?_
      refine (hp (depth + 1) b hb).bind fun right c hc hbc hright => ?_
      rw [List.reverse_cons]
      refine (build_makes hF hc (.cons (hleft.mono hbc) (.cons hright .nil)) fun _ => ?_).congr
        (Expr.gate_concat hg es.reverse e)
      exact hF _ _ (Gate.fits_of_inputPins (Gate.inputPins_of_isAssociative hg) (.inr rfl))

/-- The wide gate over at most four operands. -/
theorem add_padTo_makes (ha : a.Sound (s.Fit F)) {xs : List Operand} {es : List Expr}
    (hxs : List.Forall₂ a.Stands xs es) (hpos : 0 < es.length) (hn : es.length ≤ 4)
    (hg : s.allows .nand4 = true) :
    Makes (s.Fit F) a (add .nand4 (padTo 4 xs)) (gate .nand4 es) := by
  rw [← hxs.length_eq] at hpos hn
  have hne : xs ≠ [] := List.length_pos_iff.mp hpos
  obtain ⟨fs, f, rfl, hpad⟩ := padTo_stands hxs hne 4
  refine (add_makes ha hpad ?_).congr (Expr.nand4_padded fs f _)
  exact fit_of_allows hF hg (length_padTo hne hn)

theorem invertedNand4_denotes {ps : List Pending} {es : List Expr}
    (hps : List.Forall₂ (Denotes (s.Fit F)) ps es) (hne : ps ≠ []) (hn : ps.length ≤ 4)
    (hg : s.allows .nand4 = true) (hnot : s.allows .not = true) :
    Denotes (s.Fit F) (s.invertedNand4 ps) (gate .and es) := by
  intro depth a ha
  refine Yields.checkDepth ha ?_
  have hpos := List.length_pos_iff.mpr hne
  rw [hps.length_eq] at hpos hn
  refine (mapM_yields ha hps).bind fun xs b hb _ hxs => ?_
  refine (add_padTo_makes hF hb hxs hpos hn hg).bind fun z c hc _ hz => ?_
  exact (add_makes hc (.cons hz .nil) (fit_of_allows hF hnot rfl)).congr
    (Expr.not_gate_of_inverted rfl es)

/-- A gate over one operand, or two, with the operands mapped one by one. -/
theorem direct_denotes_of_two {g : Gate} (hg : g.inputPins = 2) {ps : List Pending}
    {es : List Expr} (hps : List.Forall₂ (Denotes (s.Fit F)) ps es) (hne : ps ≠ [])
    (hn : ps.length ≤ 2) : Denotes (s.Fit F) (s.direct g ps) (gate g es) := by
  refine direct_denotes hF hps fun _ => hF _ _ ?_
  have hpos := List.length_pos_iff.mpr hne
  exact Gate.fits_of_inputPins hg (by omega)

theorem associative_denotes {g : Gate} (hg : g.isAssociative = true) {ps : List Pending}
    {es : List Expr} (hps : List.Forall₂ (Denotes (s.Fit F)) ps es) (hne : ps ≠ []) :
    Denotes (s.Fit F) (s.associative g ps) (gate g es) := by
  have htwo := Gate.inputPins_of_isAssociative hg
  unfold associative
  split
  next p =>
    obtain _ | ⟨hp, _ | _⟩ := id hps
    split
    next => exact direct_denotes_of_two hF htwo hps hne (by simp)
    next => exact (hp.congr (Setoid.symm (Expr.gate_single hg _))).checkDepth
  next =>
    split
    next hn => exact direct_denotes_of_two hF htwo hps hne hn
    split
    next hwide =>
      obtain ⟨rfl, hn, hnand4, hnot⟩ := hwide
      exact invertedNand4_denotes hF hps hne hn hnand4 hnot
    next =>
      have hchain := chain_denotes hF hg (List.forall₂_reverse_iff.mpr hps)
      rwa [List.reverse_reverse] at hchain

/-- The inverse of the base of an inverted gate. -/
theorem complement_associative_denotes {g base : Gate} (h : g.inverted? = some base)
    {ps : List Pending} {es : List Expr} (hps : List.Forall₂ (Denotes (s.Fit F)) ps es)
    (hne : ps ≠ []) :
    Denotes (s.Fit F) (s.complement (s.associative base ps)) (gate g es) := by
  have hbase := associative_denotes hF (Gate.isAssociative_of_inverted h) hps hne
  exact (complement_denotes hF hbase).congr (Expr.not_gate_inverted h es)

theorem complemented_denotes {g base : Gate} (h : g.inverted? = some base) (hg : g.inputPins = 2)
    {ps : List Pending} {es : List Expr} (hps : List.Forall₂ (Denotes (s.Fit F)) ps es)
    (hne : ps ≠ []) : Denotes (s.Fit F) (s.complemented g base ps) (gate g es) := by
  unfold complemented
  split
  next p =>
    obtain _ | ⟨hp, _ | _⟩ := id hps
    split
    next => exact direct_denotes_of_two hF hg hps hne (by simp)
    next => exact (complement_denotes hF hp).congr (Expr.not_single h _)
  next =>
    split
    next hn => exact direct_denotes_of_two hF hg hps hne hn
    next => exact complement_associative_denotes hF h hps hne

theorem wideNand_denotes {ps : List Pending} {es : List Expr}
    (hps : List.Forall₂ (Denotes (s.Fit F)) ps es) (hne : ps ≠ []) :
    Denotes (s.Fit F) (s.wideNand ps) (gate .nand4 es) := by
  unfold wideNand
  split
  next hwide =>
    intro depth a ha
    refine Yields.checkDepth ha ?_
    obtain ⟨hg, hn⟩ := hwide
    have hpos := List.length_pos_iff.mpr hne
    rw [hps.length_eq] at hpos hn
    refine (mapM_yields ha hps).bind fun xs b hb _ hxs => ?_
    exact add_padTo_makes hF hb hxs hpos hn hg
  next => exact complement_associative_denotes hF rfl hps hne

theorem inverter_denotes {ps : List Pending} {es : List Expr}
    (hps : List.Forall₂ (Denotes (s.Fit F)) ps es) (hn : F .not ps.length) :
    Denotes (s.Fit F) (s.inverter ps) (gate .not es) := by
  unfold inverter
  split
  next => exact direct_denotes hF hps fun _ => hn
  next => exact fun depth a ha => Yields.checkDepth ha (makes_refuse .not _)

theorem mapGate_denotes {g : Gate} {ps : List Pending} {es : List Expr}
    (hps : List.Forall₂ (Denotes (s.Fit F)) ps es) (hne : ps ≠ [])
    (hn : g = .not → F .not ps.length) :
    Denotes (s.Fit F) (s.mapGate g ps) (gate g es) := by
  cases g with
  | not => exact inverter_denotes hF hps (hn rfl)
  | nand4 => exact wideNand_denotes hF hps hne
  | nand => exact complemented_denotes hF rfl rfl hps hne
  | nor => exact complemented_denotes hF rfl rfl hps hne
  | xnor => exact complemented_denotes hF rfl rfl hps hne
  | and => exact associative_denotes hF rfl hps hne
  | or => exact associative_denotes hF rfl hps hne
  | xor => exact associative_denotes hF rfl hps hne

/-! ## Expressions -/

/-- Mapping an expression whose operators have operands, the inverters as many as `F` says, makes an
operand that stands for it. -/
theorem mapExpr_denotes (he : e.Everywhere fun o n => 0 < n ∧ (o = .gate .not → F .not n)) :
    Denotes (s.Fit F) (s.mapExpr e) e := by
  induction e with
  | var name =>
    intro depth a ha
    rw [mapExpr]
    exact Yields.checkDepth ha (yields_pure ha (Arena.stands_var a name))
  | op o es ih =>
    obtain ⟨⟨hpos, hnot⟩, hes⟩ := Expr.everywhere_op.mp he
    cases o with
    | call name =>
      intro depth a ha
      rw [mapExpr]
      refine Yields.checkDepth ha fun x b h => ?_
      cases h
    | gate g =>
      rw [mapExpr, mapAll_eq_map]
      have hps : List.Forall₂ (Denotes (s.Fit F)) (es.map s.mapExpr) es :=
        List.forall₂_map_left_iff.mpr (List.forall₂_same.mpr fun e hmem => ih e hmem (hes e hmem))
      refine mapGate_denotes hF hps ?_ ?_
      · rw [ne_eq, List.map_eq_nil_iff]
        exact List.length_pos_iff.mp hpos
      · rintro rfl
        rw [List.length_map]
        exact hnot rfl

end Synthesizer

end LogicSchematic
