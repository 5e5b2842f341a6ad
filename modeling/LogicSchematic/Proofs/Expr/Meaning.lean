import LogicSchematic.Proofs.Except
import LogicSchematic.Proofs.Expr.Shape

/-!
# The meaning of expressions

`e ≈ f` says that two expressions have the same outcome under every valuation, failures included.
The relation is kept by gates over equivalent operands (`gate_congr`), so the identities between
gates that follow can be used anywhere in an expression: the universal gates and De Morgan's laws
(`nand_self`, `nor_not_not`, …), and the laws that regroup the operands of wide gates
(`gate_concat`, `not_gate_inverted`, `nand4_padded`). In each of them both sides evaluate the
operands in the same order first, which is why they hold for expressions without a word as well.

`eval_of_proper` says how a proper expression can fail, and `flatten_equiv` that flattening keeps
the meaning.
-/

namespace LogicSchematic

/-! ## Words of gates -/

namespace Gate

/-- The complement of a disjunction of complements. -/
theorem not_or_not (a b : UInt64) : ~~~(~~~a ||| ~~~b) = a &&& b := by
  simp [← UInt64.toBitVec_inj, BitVec.not_or]

/-- The complement of a conjunction of complements. -/
theorem not_and_not (a b : UInt64) : ~~~(~~~a &&& ~~~b) = a ||| b := by
  simp [← UInt64.toBitVec_inj, BitVec.not_and]

/-- Parity as the disjunction of the two ways to differ. -/
theorem or_and_not (a b : UInt64) : (a &&& ~~~b) ||| (~~~a &&& b) = a ^^^ b := by
  rw [← UInt64.toBitVec_inj]
  apply BitVec.eq_of_getLsbD_eq
  intro i hi
  have hbit : ∀ x y : Bool, (x && !y || !x && y) = (x ^^ y) := by decide
  simp [hi, hbit]

theorem conjunction_append (ws vs : List UInt64) :
    conjunction (ws ++ vs) = conjunction ws &&& conjunction vs := by
  have h : vs.foldl (· &&& ·) (conjunction ws &&& ~~~0) = conjunction ws &&& conjunction vs :=
    List.foldl_assoc
  simpa [conjunction] using h

theorem disjunction_append (ws vs : List UInt64) :
    disjunction (ws ++ vs) = disjunction ws ||| disjunction vs := by
  have h : vs.foldl (· ||| ·) (disjunction ws ||| 0) = disjunction ws ||| disjunction vs :=
    List.foldl_assoc
  simpa [disjunction] using h

theorem parity_append (ws vs : List UInt64) : parity (ws ++ vs) = parity ws ^^^ parity vs := by
  have h : vs.foldl (· ^^^ ·) (parity ws ^^^ 0) = parity ws ^^^ parity vs := List.foldl_assoc
  simpa [parity] using h

/-- A conjunction that ends in a word keeps its value when the word is repeated. -/
theorem conjunction_repeat (ws : List UInt64) (w : UInt64) (n : Nat) :
    conjunction (ws ++ [w] ++ List.replicate n w) = conjunction (ws ++ [w]) := by
  have hone : conjunction [w] = w := by simp [conjunction]
  induction n with
  | zero => simp
  | succ n ih =>
    rw [List.replicate_succ', ← List.append_assoc, conjunction_append, ih, conjunction_append, hone,
      UInt64.and_assoc, UInt64.and_self]

@[simp] theorem conjunction_two (a b : UInt64) : conjunction [a, b] = a &&& b := by
  simp [conjunction]

@[simp] theorem disjunction_two (a b : UInt64) : disjunction [a, b] = a ||| b := by
  simp [disjunction]

@[simp] theorem parity_two (a b : UInt64) : parity [a, b] = a ^^^ b := by
  simp [parity]

@[simp] theorem conjunction_pair (a b : UInt64) : conjunction [a, b, a, b] = a &&& b := by
  have h : a &&& b &&& a &&& b = a &&& b := by
    rw [UInt64.and_assoc (a &&& b), UInt64.and_self]
  simp [conjunction, h]

/-- A gate has a word over any operands, an inverter over at least one. -/
theorem eval_isOk_of_fed {g : Gate} {ws : List UInt64} (h : g = .not → ws ≠ []) :
    ∃ w, g.eval ws = .ok w := by
  have hsome : (g.eval? ws).isSome := by
    rw [eval_isSome_iff]
    by_cases hg : g = .not
    · exact .inr (h hg)
    · exact .inl hg
  obtain ⟨w, hw⟩ := Option.isSome_iff_exists.mp hsome
  exact ⟨w, by rw [Gate.eval, hw]⟩

/-- A gate over operands, at least one, has a word. -/
theorem eval_isOk {g : Gate} {ws : List UInt64} (h : ws ≠ []) : ∃ w, g.eval ws = .ok w :=
  eval_isOk_of_fed fun _ => h

theorem isAssociative_cases {g : Gate} (h : g.isAssociative = true) :
    g = .and ∨ g = .or ∨ g = .xor := by
  cases g <;> simp [isAssociative] at h ⊢

theorem inputPins_of_isAssociative {g : Gate} (h : g.isAssociative = true) : g.inputPins = 2 := by
  rcases isAssociative_cases h with rfl | rfl | rfl <;> rfl

/-- An associative gate over one word gives that word. -/
theorem eval_single {g : Gate} (h : g.isAssociative = true) (w : UInt64) : g.eval [w] = .ok w := by
  rcases isAssociative_cases h with rfl | rfl | rfl <;>
    simp [Gate.eval, eval?, conjunction, disjunction, parity]

/-- An associative gate over the words of two lists is the gate with two operands over what it gives
for each list. -/
theorem eval_append {g : Gate} (h : g.isAssociative = true) (ws vs : List UInt64) :
    ∃ w v, g.eval ws = .ok w ∧ g.eval vs = .ok v ∧ g.eval [w, v] = g.eval (ws ++ vs) := by
  rcases isAssociative_cases h with rfl | rfl | rfl
  · exact ⟨_, _, rfl, rfl, by simp [Gate.eval, eval?, conjunction_append]⟩
  · exact ⟨_, _, rfl, rfl, by simp [Gate.eval, eval?, disjunction_append]⟩
  · exact ⟨_, _, rfl, rfl, by simp [Gate.eval, eval?, parity_append]⟩

/-- An inverted gate inverts what its base gives. -/
theorem eval_inverted {g base : Gate} (h : g.inverted? = some base) (ws : List UInt64) :
    g.eval ws = (do Gate.eval .not [← base.eval ws]) := by
  cases g <;> cases h <;> rfl

theorem isAssociative_of_inverted {g base : Gate} (h : g.inverted? = some base) :
    base.isAssociative = true := by
  cases g <;> cases h <;> rfl

end Gate

namespace Expr

/-! ## Expressions of the same meaning -/

/-- Expressions are equivalent when they have the same outcome under every valuation. -/
instance : Setoid Expr where
  r e f := ∀ values, e.eval values = f.eval values
  iseqv := ⟨fun _ _ => rfl, fun h values => (h values).symm,
    fun h h' values => (h values).trans (h' values)⟩

/-- A gate over equivalent operands. -/
theorem gate_congr (g : Gate) {es fs : List Expr} (h : List.Forall₂ (· ≈ ·) es fs) :
    gate g es ≈ gate g fs := by
  intro values
  have hm : es.mapM (eval values) = fs.mapM (eval values) :=
    Except.mapM_congr (h.imp fun _ _ hef => hef values)
  simp only [gate, eval_gate, hm]

theorem gate_congr_one (g : Gate) {e f : Expr} (h : e ≈ f) : gate g [e] ≈ gate g [f] :=
  gate_congr g (.cons h .nil)

theorem eval_gate_one (values : Valuation) (g : Gate) (a : Expr) :
    (gate g [a]).eval values = (do g.eval [← a.eval values]) := by
  simp only [gate, eval_gate, List.mapM_cons, List.mapM_nil, Except.pure_eq_ok]
  cases a.eval values <;> rfl

theorem eval_gate_two (values : Valuation) (g : Gate) (a b : Expr) :
    (gate g [a, b]).eval values = (do g.eval [← a.eval values, ← b.eval values]) := by
  simp only [gate, eval_gate, List.mapM_cons, List.mapM_nil, Except.pure_eq_ok]
  cases a.eval values <;> cases b.eval values <;> rfl

theorem eval_gate_four (values : Valuation) (g : Gate) (a b c d : Expr) :
    (gate g [a, b, c, d]).eval values =
      (do g.eval [← a.eval values, ← b.eval values, ← c.eval values, ← d.eval values]) := by
  simp only [gate, eval_gate, List.mapM_cons, List.mapM_nil, Except.pure_eq_ok]
  cases a.eval values <;> cases b.eval values <;> cases c.eval values <;>
    cases d.eval values <;> rfl

/-- A gate fails when an operand does. -/
theorem error_of_mem {values : Valuation} {g : Gate} {es : List Expr} {e : Expr} (he : e ∈ es)
    {err : EvalError} (h : e.eval values = .error err) :
    ∃ err, (gate g es).eval values = .error err := by
  rw [gate, eval_gate]
  cases hm : es.mapM (eval values) with
  | error err => exact ⟨err, rfl⟩
  | ok ws =>
    obtain ⟨w, -, hw⟩ := Except.exists_of_mapM_eq_ok hm he
    rw [h] at hw
    cases hw

/-- A gate over operands that have words has a word, if there is an operand. -/
theorem eval_gate_isOk {values : Valuation} {g : Gate} {es : List Expr} (hne : es ≠ [])
    (h : ∀ e ∈ es, ∃ w, e.eval values = .ok w) : ∃ w, (gate g es).eval values = .ok w := by
  rw [gate, eval_gate]
  cases hm : es.mapM (eval values) with
  | error err =>
    obtain ⟨e, he, herr⟩ := Except.exists_of_mapM_eq_error hm
    obtain ⟨w, hw⟩ := h e he
    rw [hw] at herr
    cases herr
  | ok ws => exact Gate.eval_isOk (Except.ne_nil_of_mapM_eq_ok hm hne)

/-! ## Inverters and inverted operands -/

theorem nand_self (a : Expr) : gate .nand [a, a] ≈ gate .not [a] := by
  intro values
  simp only [eval_gate_one, eval_gate_two]
  cases a.eval values <;> simp [Gate.eval, Gate.eval?]

theorem nand4_self (a : Expr) : gate .nand4 [a, a, a, a] ≈ gate .not [a] := by
  intro values
  simp only [eval_gate_one, eval_gate_four]
  cases a.eval values <;> simp [Gate.eval, Gate.eval?]

theorem nor_self (a : Expr) : gate .nor [a, a] ≈ gate .not [a] := by
  intro values
  simp only [eval_gate_one, eval_gate_two]
  cases a.eval values <;> simp [Gate.eval, Gate.eval?]

theorem not_not (a : Expr) : gate .not [gate .not [a]] ≈ a := by
  intro values
  simp only [eval_gate_one]
  cases a.eval values <;> simp [Gate.eval, Gate.eval?]

theorem nor_not_not (a b : Expr) :
    gate .nor [gate .not [a], gate .not [b]] ≈ gate .and [a, b] := by
  intro values
  simp only [eval_gate_one, eval_gate_two]
  cases a.eval values <;> cases b.eval values <;>
    simp [Gate.eval, Gate.eval?, Gate.not_or_not]

theorem not_or_not_not (a b : Expr) :
    gate .not [gate .or [gate .not [a], gate .not [b]]] ≈ gate .and [a, b] := by
  intro values
  simp only [eval_gate_one, eval_gate_two]
  cases a.eval values <;> cases b.eval values <;>
    simp [Gate.eval, Gate.eval?, Gate.not_or_not]

theorem nand_not_not (a b : Expr) :
    gate .nand [gate .not [a], gate .not [b]] ≈ gate .or [a, b] := by
  intro values
  simp only [eval_gate_one, eval_gate_two]
  cases a.eval values <;> cases b.eval values <;>
    simp [Gate.eval, Gate.eval?, Gate.not_and_not]

theorem not_and_not_not (a b : Expr) :
    gate .not [gate .and [gate .not [a], gate .not [b]]] ≈ gate .or [a, b] := by
  intro values
  simp only [eval_gate_one, eval_gate_two]
  cases a.eval values <;> cases b.eval values <;>
    simp [Gate.eval, Gate.eval?, Gate.not_and_not]

/-- The wide gate with each of two operands on two pins. -/
theorem nand4_pair (a b : Expr) : gate .nand4 [a, b, a, b] ≈ gate .nand [a, b] := by
  intro values
  simp only [eval_gate_two, eval_gate_four]
  cases a.eval values <;> cases b.eval values <;> simp [Gate.eval, Gate.eval?]

theorem or_and_not_and (a b : Expr) :
    gate .or [gate .and [a, gate .not [b]], gate .and [gate .not [a], b]] ≈ gate .xor [a, b] := by
  intro values
  simp only [eval_gate_one, eval_gate_two]
  cases a.eval values <;> cases b.eval values <;>
    simp [Gate.eval, Gate.eval?, Gate.or_and_not]

/-! ## Wide gates -/

/-- An inverted gate is the inverse of its base. -/
theorem not_gate_inverted {g base : Gate} (h : g.inverted? = some base) (es : List Expr) :
    gate .not [gate base es] ≈ gate g es := by
  intro values
  rw [eval_gate_one]
  simp only [gate, eval_gate, Gate.eval_inverted h]
  cases es.mapM (eval values) <;> rfl

/-- The inverse of an inverted gate is its base. -/
theorem not_gate_of_inverted {g base : Gate} (h : g.inverted? = some base) (es : List Expr) :
    gate .not [gate g es] ≈ gate base es :=
  Setoid.trans (gate_congr_one .not (Setoid.symm (not_gate_inverted h es))) (not_not _)

/-- An associative gate over one operand is that operand. -/
theorem gate_single {g : Gate} (h : g.isAssociative = true) (a : Expr) : gate g [a] ≈ a := by
  intro values
  rw [eval_gate_one]
  cases a.eval values with
  | error e => rfl
  | ok w => exact Gate.eval_single h w

/-- An inverted gate over one operand inverts it. -/
theorem not_single {g base : Gate} (h : g.inverted? = some base) (a : Expr) :
    gate .not [a] ≈ gate g [a] := by
  have hbase := gate_single (Gate.isAssociative_of_inverted h) a
  exact Setoid.trans (gate_congr_one .not (Setoid.symm hbase)) (not_gate_inverted h [a])

/-- An associative gate over two lists of operands, grouped by list. -/
theorem gate_append {g : Gate} (h : g.isAssociative = true) (es fs : List Expr) :
    gate g [gate g es, gate g fs] ≈ gate g (es ++ fs) := by
  intro values
  rw [eval_gate_two]
  simp only [gate, eval_gate, List.mapM_append]
  cases es.mapM (eval values) with
  | error e => rfl
  | ok ws =>
    cases fs.mapM (eval values) with
    | error e =>
      obtain ⟨w, _, hw, -, -⟩ := Gate.eval_append h ws []
      simp [hw]
    | ok vs =>
      obtain ⟨w, v, hw, hv, happend⟩ := Gate.eval_append h ws vs
      simp [hw, hv, happend]

/-- An associative gate over more operands than two is a chain of gates with two. -/
theorem gate_concat {g : Gate} (h : g.isAssociative = true) (es : List Expr) (a : Expr) :
    gate g [gate g es, a] ≈ gate g (es ++ [a]) := by
  have hsingle : gate g [gate g es, a] ≈ gate g [gate g es, gate g [a]] :=
    gate_congr g (.cons (Setoid.refl _) (.cons (Setoid.symm (gate_single h a)) .nil))
  exact Setoid.trans hsingle (gate_append h es [a])

/-- The last operand of the wide gate may stand on several pins. -/
theorem nand4_padded (es : List Expr) (a : Expr) (n : Nat) :
    gate .nand4 (es ++ [a] ++ List.replicate n a) ≈ gate .nand4 (es ++ [a]) := by
  intro values
  have hrep : ∀ {w}, a.eval values = .ok w →
      (List.replicate n a).mapM (eval values) = .ok (List.replicate n w) := by
    intro w hw
    rw [Except.mapM_eq_ok_iff]
    induction n with
    | zero => exact .nil
    | succ n ih => exact .cons hw ih
  simp only [gate, eval_gate, List.mapM_append, List.mapM_cons, List.mapM_nil, Except.pure_eq_ok]
  cases es.mapM (eval values) with
  | error e => rfl
  | ok ws =>
    cases hw : a.eval values with
    | error e => rfl
    | ok w =>
      have := Gate.conjunction_repeat ws w n
      simp_all [Gate.eval, Gate.eval?]

/-! ## Proper expressions -/

/-- An expression whose inverters have operands has a word, or something in it is undetermined. -/
theorem eval_of_invertersFed (values : Valuation) {e : Expr} (he : e.InvertersFed) :
    (∃ w, e.eval values = .ok w) ∨ e.eval values = .error .undetermined := by
  induction e with
  | var name =>
    rw [eval_var, Valuation.get]
    cases values name <;> simp
  | op o es ih =>
    obtain ⟨hfed, hes⟩ := everywhere_op.mp he
    cases o with
    | call name => exact .inr (eval_call values name es)
    | gate g =>
      rw [eval_gate]
      cases hm : es.mapM (eval values) with
      | error err =>
        obtain ⟨e, hmem, herr⟩ := Except.exists_of_mapM_eq_error hm
        rcases ih e hmem (hes e hmem) with ⟨w, hw⟩ | hund
        · rw [hw] at herr
          cases herr
        · rw [hund] at herr
          cases herr
          exact .inr rfl
      | ok ws =>
        refine .inl (Gate.eval_isOk_of_fed fun hnot => ?_)
        have hpos := hfed (congrArg Op.gate hnot)
        exact Except.ne_nil_of_mapM_eq_ok hm (List.length_pos_iff.mp hpos)

/-- A proper expression has a word, or something in it is undetermined. -/
theorem eval_of_proper (values : Valuation) {e : Expr} (he : e.Proper) :
    (∃ w, e.eval values = .ok w) ∨ e.eval values = .error .undetermined :=
  eval_of_invertersFed values he.invertersFed

theorem error_of_proper {values : Valuation} {e : Expr} (he : e.Proper) {err : EvalError}
    (h : e.eval values = .error err) : err = .undetermined := by
  rcases eval_of_proper values he with ⟨w, hw⟩ | hund
  · rw [hw] at h
    cases h
  · rw [hund] at h
    cases h
    rfl

/-! ## Flattening -/

theorem isAssociative_of_isMerged {g : Gate} (h : isMerged g = true) : g.isAssociative = true := by
  cases g <;> simp [isMerged, Gate.isAssociative] at h ⊢

/-- What an expression contributes to a gate above it stands for the expression there. -/
theorem gate_spliced {g : Gate} (h : g.isAssociative = true) (e : Expr) :
    gate g (spliced g e) ≈ e := by
  cases e with
  | var name => exact gate_single h (.var name)
  | op o es =>
    cases o with
    | call name => exact gate_single h _
    | gate k =>
      simp only [spliced]
      split
      next hk =>
        subst hk
        exact Setoid.refl _
      next => exact gate_single h _

theorem gate_flatMap_spliced {g : Gate} (h : g.isAssociative = true) (es : List Expr) :
    gate g (es.flatMap (spliced g)) ≈ gate g es := by
  induction es with
  | nil => exact Setoid.refl _
  | cons e es ih =>
    have hgroup := Setoid.symm (gate_append h (spliced g e) (es.flatMap (spliced g)))
    have hoperands : gate g [gate g (spliced g e), gate g (es.flatMap (spliced g))] ≈
        gate g [gate g [e], gate g es] :=
      gate_congr g (.cons (Setoid.trans (gate_spliced h e) (Setoid.symm (gate_single h e)))
        (.cons ih .nil))
    rw [List.flatMap_cons]
    exact Setoid.trans hgroup (Setoid.trans hoperands (gate_append h [e] es))

/-- Flattening keeps the meaning of an expression. -/
theorem flatten_equiv (e : Expr) : e.flatten ≈ e := by
  induction e with
  | var name => exact Setoid.refl _
  | op o es ih =>
    cases o with
    | call name =>
      intro values
      rw [flatten_call, eval_call, eval_call]
    | gate g =>
      have hoperands : gate g (es.map flatten) ≈ gate g es := by
        refine gate_congr g (List.forall₂_map_left_iff.mpr (List.forall₂_same.mpr ?_))
        exact fun e he => ih e he
      rw [flatten_gate]
      split
      next hg =>
        exact Setoid.trans (gate_flatMap_spliced (isAssociative_of_isMerged hg) _) hoperands
      next => exact hoperands

/-! ## Variables -/

/-- Only the words of the variables matter. -/
theorem eval_congr {values values' : Valuation} {e : Expr}
    (h : ∀ name ∈ e.occurrences, values name = values' name) :
    e.eval values = e.eval values' := by
  induction e with
  | var name =>
    rw [eval_var, eval_var, Valuation.get, Valuation.get, h name (by simp [occurrences])]
  | op o es ih =>
    cases o with
    | call name => rw [eval_call, eval_call]
    | gate g =>
      rw [occurrences, occurrencesAll_eq_flatMap] at h
      have hes : ∀ e ∈ es, e.eval values = e.eval values' := fun e he =>
        ih e he fun name hname => h name (List.mem_flatMap.mpr ⟨e, he, hname⟩)
      rw [eval_gate, eval_gate, Except.mapM_congr (List.forall₂_same.mpr hes)]

theorem get_eq_ok_iff {values : Valuation} {name : String} {w : UInt64} :
    values.get name = .ok w ↔ values name = some w := by
  rw [Valuation.get]
  cases values name <;> simp

/-- What has a word has a word for every variable. -/
theorem exists_word_of_eval {values : Valuation} {e : Expr} {w : UInt64}
    (h : e.eval values = .ok w) : ∀ name ∈ e.occurrences, ∃ v, values name = some v := by
  induction e generalizing w with
  | var name =>
    rw [eval_var, get_eq_ok_iff] at h
    simp [occurrences, h]
  | op o es ih =>
    cases o with
    | call name => cases h
    | gate g =>
      rw [eval_gate] at h
      obtain ⟨ws, hws, -⟩ := Except.bind_eq_ok_iff.mp h
      intro name hname
      rw [occurrences, occurrencesAll_eq_flatMap] at hname
      obtain ⟨e, he, hname⟩ := List.mem_flatMap.mp hname
      obtain ⟨v, -, hv⟩ := Except.exists_of_mapM_eq_ok hws he
      exact ih e he hv name hname

/-- What has a word calls no name that is no gate. -/
theorem callFree_of_eval {values : Valuation} {e : Expr} {w : UInt64} (h : e.eval values = .ok w) :
    e.CallFree := by
  induction e generalizing w with
  | var name => exact everywhere_var _ name
  | op o es ih =>
    cases o with
    | call name => cases h
    | gate g =>
      rw [eval_gate] at h
      obtain ⟨ws, hws, -⟩ := Except.bind_eq_ok_iff.mp h
      refine everywhere_op.mpr ⟨rfl, fun e he => ?_⟩
      obtain ⟨v, -, hv⟩ := Except.exists_of_mapM_eq_ok hws he
      exact ih e he hv

/-- An expression of gates over operands has a word as soon as its variables have words. -/
theorem eval_isOk_of_words {values : Valuation} {e : Expr} (he : e.Proper) (hcalls : e.CallFree)
    (h : ∀ name ∈ e.occurrences, ∃ w, values name = some w) : ∃ w, e.eval values = .ok w := by
  induction e with
  | var name =>
    obtain ⟨w, hw⟩ := h name (by simp [occurrences])
    exact ⟨w, get_eq_ok_iff.mpr hw⟩
  | op o es ih =>
    obtain ⟨hpos, hproper⟩ := everywhere_op.mp he
    obtain ⟨hgate, hgates⟩ := everywhere_op.mp hcalls
    cases o with
    | call name => cases hgate
    | gate g =>
      rw [occurrences, occurrencesAll_eq_flatMap] at h
      refine eval_gate_isOk (List.length_pos_iff.mp hpos) fun e hmem => ?_
      refine ih e hmem (hproper e hmem) (hgates e hmem) fun name hname => h name ?_
      exact List.mem_flatMap.mpr ⟨e, hmem, hname⟩

/-- An expression of gates over operands has a word exactly when its variables have words. -/
theorem eval_isOk_iff {e : Expr} (he : e.Proper) (hcalls : e.CallFree) (values : Valuation) :
    (∃ w, e.eval values = .ok w) ↔ ∀ name ∈ e.occurrences, ∃ w, values name = some w :=
  ⟨fun ⟨_, hw⟩ => exists_word_of_eval hw, eval_isOk_of_words he hcalls⟩

end Expr

end LogicSchematic
