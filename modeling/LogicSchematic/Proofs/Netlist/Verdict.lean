import LogicSchematic.Proofs.Netlist.Built
import LogicSchematic.Proofs.Netlist.Equivalence
import LogicSchematic.Proofs.Simulation.Bits
import LogicSchematic.Proofs.Simulation.Patterns

/-!
# The verdict of the equivalence check

What the outcome of `checkEquivalence` says of the truth values of equations and outputs, for any
netlist that was built and is consistent. A round agrees exactly when the outputs have the values of
their equations under each of its 64 assignments (`agrees_iff_computes`), so there is no difference
when they have them under all assignments, and, where all assignments are tried, only then. A
difference that is found is one: under the assignment it comes with, its output has another value
than its equation (`Refutes`). `checkEquivalence_correct` puts this together.
-/

namespace LogicSchematic

/-- The lowest bit of a word is set. -/
theorem bitAt_of_lowestBit? {w : UInt64} {j : Nat} (h : lowestBit? w = some j) :
    j < 64 ∧ bitAt w j = true :=
  ⟨List.mem_range.mp (List.mem_of_find?_eq_some h), List.find?_some h⟩

/-- The bits in which the word of an equation differs from another. -/
def differenceWord (values : Valuation) (e : Equation) (actual : UInt64) :
    Except SimulationError UInt64 :=
  match e.expr.eval values with
  | .ok expected => .ok (expected ^^^ actual)
  | .error .undetermined => .ok (~~~0)
  | .error .missingOperand => .error .missingOperand

theorem firstDifference_cons (values : Valuation) (e : Equation) (actual : UInt64)
    (pairs : List (Equation × UInt64)) :
    firstDifference values ((e, actual) :: pairs) =
      differenceWord values e actual >>= fun difference =>
        match lowestBit? difference with
        | some j => .ok (some (e, j))
        | none => firstDifference values pairs := by
  rw [firstDifference, differenceWord]
  cases e.expr.eval values with
  | ok expected => rfl
  | error cause => cases cause <;> rfl

theorem differenceWord_isOk {e : Equation} (he : e.expr.Proper) (values : Valuation)
    (actual : UInt64) : ∃ difference, differenceWord values e actual = .ok difference := by
  rcases Expr.eval_of_proper values he with ⟨w, hw⟩ | hund
  · exact ⟨w ^^^ actual, by rw [differenceWord, hw]⟩
  · exact ⟨~~~0, by rw [differenceWord, hund]⟩

/-- Where the words differ, so do the truth values. -/
theorem value_ne_of_differenceWord {values : Valuation} {e : Equation} {actual difference : UInt64}
    (h : differenceWord values e actual = .ok difference) {j : Nat} (hj : j < 64)
    (hset : bitAt difference j = true) : e.expr.value (values.bits j) ≠ some (bitAt actual j) := by
  rw [e.expr.value_bitAt values hj]
  rw [differenceWord] at h
  cases heval : e.expr.eval values with
  | error cause => exact fun hsome => by cases hsome
  | ok expected =>
    rw [heval] at h
    cases h
    rw [bitAt_xor] at hset
    intro hsome
    rw [show bitAt expected j = bitAt actual j from Option.some.inj hsome, Bool.xor_self] at hset
    cases hset

/-- A difference that is found in a round is a truth value that an equation does not have. -/
theorem firstDifference_eq_some {values : Valuation} {pairs : List (Equation × UInt64)}
    {e : Equation} {j : Nat} (h : firstDifference values pairs = .ok (some (e, j))) :
    j < 64 ∧ ∃ (i : Nat) (actual : UInt64), pairs[i]? = some (e, actual) ∧
      e.expr.value (values.bits j) ≠ some (bitAt actual j) := by
  induction pairs with
  | nil => cases h
  | cons p pairs ih =>
    obtain ⟨e', actual⟩ := p
    rw [firstDifference_cons] at h
    obtain ⟨difference, hdifference, h⟩ := Except.bind_eq_ok_iff.mp h
    cases hbit : lowestBit? difference with
    | none =>
      rw [hbit] at h
      obtain ⟨hj, i, actual, hi, hne⟩ := ih h
      exact ⟨hj, i + 1, actual, hi, hne⟩
    | some k =>
      rw [hbit] at h
      cases h
      obtain ⟨hj, hset⟩ := bitAt_of_lowestBit? hbit
      exact ⟨hj, 0, actual, rfl, value_ne_of_differenceWord hdifference hj hset⟩

/-- Proper equations are compared without an error. -/
theorem firstDifference_isOk {values : Valuation} {pairs : List (Equation × UInt64)}
    (hproper : ∀ p ∈ pairs, p.1.expr.Proper) : ∃ r, firstDifference values pairs = .ok r := by
  induction pairs with
  | nil => exact ⟨none, rfl⟩
  | cons p pairs ih =>
    obtain ⟨e, actual⟩ := p
    rw [List.forall_mem_cons] at hproper
    obtain ⟨difference, hdifference⟩ := differenceWord_isOk hproper.1 values actual
    rw [firstDifference_cons, hdifference, Except.ok_bind]
    cases lowestBit? difference with
    | none => exact ih hproper.2
    | some j => exact ⟨some (e, j), rfl⟩

namespace Netlist

variable {net : Netlist} {equations : List Equation} {seed : UInt64}

/-- Whether every output has the truth value of its equation under an assignment of the inputs. -/
def Computes (net : Netlist) (equations : List Equation) (bits : List Bool) : Prop :=
  ∃ outs, net.simulateSingle bits = .ok outs ∧
    List.Forall₂ (fun e b => e.expr.value (.ofList (net.inputLabels.zip bits)) = some b)
      equations outs

/-- Whether a counterexample is one: under its assignment, which gives every input a value, the
output of some equation with its label has a truth value that the equation does not have. The
equation has another one or, when something in it is undetermined, none. -/
structure Refutes (net : Netlist) (equations : List Equation) (c : Counterexample) : Prop where
  names : c.assignment.map Prod.fst = net.inputLabels
  differs : ∃ (i : Nat) (e : Equation) (outs : List Bool) (b : Bool), equations[i]? = some e ∧
    e.label = c.output ∧ net.simulateSingle (c.assignment.map Prod.snd) = .ok outs ∧
    outs[i]? = some b ∧ e.expr.value (.ofList c.assignment) ≠ some b

theorem length_inputLabels (net : Netlist) : net.inputLabels.length = net.inputs.size := by
  rw [inputLabels, List.length_map, Array.length_toList]

/-- In a round the outputs have the words of their equations exactly when they have the truth values
under each of its assignments. -/
theorem agrees_iff_computes (hlabels : net.inputLabels.Nodup) {words outs : List UInt64}
    (hsim : net.simulate words = .ok outs) (hwords : words.length = net.inputs.size)
    (houts : equations.length = outs.length) :
    (∀ p ∈ equations.zip outs, p.1.expr.eval (bindWords net.inputLabels words) = .ok p.2) ↔
      ∀ j < 64, net.Computes equations (words.map (bitAt · j)) := by
  have hlen : words.length = net.inputLabels.length := hwords.trans net.length_inputLabels.symm
  have hcomputes : ∀ j < 64, net.Computes equations (words.map (bitAt · j)) ↔
      ∀ p ∈ equations.zip outs,
        p.1.expr.value ((bindWords net.inputLabels words).bits j) = some (bitAt p.2 j) := by
    intro j hj
    have hsingle := net.simulateSingle_bits hj words
    rw [hsim] at hsingle
    rw [Computes, bits_bindWords hlabels hlen, hsingle]
    constructor
    · rintro ⟨_, ⟨⟩, hvalues⟩ p hp
      exact (List.forall₂_iff_zip.mp (List.forall₂_map_right_iff.mp hvalues)).2 hp
    · intro h
      refine ⟨_, rfl, List.forall₂_map_right_iff.mpr (List.forall₂_iff_zip.mpr ⟨houts, ?_⟩)⟩
      exact fun {e w} hp => h (e, w) hp
  constructor
  · intro h j hj
    exact (hcomputes j hj).mpr fun p hp => Expr.eval_eq_ok_iff_value.mp (h p hp) j hj
  · intro h p hp
    exact Expr.eval_eq_ok_iff_value.mpr fun j hj => (hcomputes j hj).mp (h j hj) p hp

theorem differenceOn_eq_some {rounds : List (List UInt64)} {c : Counterexample}
    (h : net.differenceOn equations rounds = .ok (some c)) :
    ∃ words ∈ rounds, ∃ outs e j, net.simulate words = .ok outs ∧
      firstDifference (bindWords net.inputLabels words) (equations.zip outs) = .ok (some (e, j)) ∧
      c = ⟨e.label, net.inputLabels.zip (words.map (bitAt · j))⟩ := by
  induction rounds with
  | nil => cases h
  | cons words rounds ih =>
    rw [differenceOn] at h
    obtain ⟨outs, houts, h⟩ := Except.bind_eq_ok_iff.mp h
    obtain ⟨difference, hdifference, h⟩ := Except.bind_eq_ok_iff.mp h
    cases difference with
    | none =>
      obtain ⟨words', hmem, hrest⟩ := ih h
      exact ⟨words', List.mem_cons_of_mem _ hmem, hrest⟩
    | some p =>
      cases h
      exact ⟨words, List.mem_cons_self, outs, p.1, p.2, houts, hdifference, rfl⟩

theorem differenceOn_isOk (hproper : ∀ e ∈ equations, e.expr.Proper)
    {rounds : List (List UInt64)}
    (hsim : ∀ words ∈ rounds, ∃ outs, net.simulate words = .ok outs) :
    ∃ r, net.differenceOn equations rounds = .ok r := by
  induction rounds with
  | nil => exact ⟨none, rfl⟩
  | cons words rounds ih =>
    rw [List.forall_mem_cons] at hsim
    obtain ⟨⟨outs, houts⟩, hrest⟩ := hsim
    obtain ⟨r, hr⟩ := ih hrest
    obtain ⟨difference, hdifference⟩ : ∃ r, firstDifference (bindWords net.inputLabels words)
        (equations.zip outs) = .ok r :=
      firstDifference_isOk fun p hp => hproper p.1 (List.of_mem_zip hp).1
    rw [differenceOn, houts, Except.ok_bind, hdifference, Except.ok_bind]
    cases difference with
    | none => exact ⟨r, hr⟩
    | some p => exact ⟨_, rfl⟩

/-- Whether simulation yields a word for every output, whatever the words of the inputs are. -/
def Simulable (net : Netlist) : Prop :=
  ∀ words : List UInt64, words.length = net.inputs.size →
    ∃ outs, net.simulate words = .ok outs ∧ outs.length = net.outputs.size

theorem Built.simulable (hbuilt : net.Built) (hcheck : net.check = .ok ()) : net.Simulable := by
  intro words hwords
  obtain ⟨_, outs, -, houts, hall⟩ :=
    exists_simulate hcheck (fun id => hbuilt.listed.lt_size_of_mem_outputs) hwords
  exact ⟨outs, houts, hall.length_eq.symm.trans Array.length_toList⟩

/-- Proper equations are checked without an error. -/
theorem Simulable.checkEquivalence_isOk (hsim : net.Simulable)
    (hproper : ∀ e ∈ equations, e.expr.Proper) (hnumber : equations.length = net.outputs.size)
    (seed : UInt64) : ∃ verdict, net.checkEquivalence equations seed = .ok verdict := by
  rw [checkEquivalence, if_pos hnumber]
  refine differenceOn_isOk hproper fun words hmem => ?_
  obtain ⟨outs, houts, -⟩ := hsim words (length_of_mem_patterns hmem)
  exact ⟨outs, houts⟩

/-- A counterexample that is found is one. -/
theorem refutes_of_checkEquivalence (hlabels : net.inputLabels.Nodup)
    (hnumber : equations.length = net.outputs.size) {c : Counterexample}
    (h : net.checkEquivalence equations seed = .ok (some c)) : net.Refutes equations c := by
  rw [checkEquivalence, if_pos hnumber] at h
  obtain ⟨words, hmem, outs, e, j, houts, hdifference, rfl⟩ := differenceOn_eq_some h
  obtain ⟨hj, i, actual, hi, hne⟩ := firstDifference_eq_some hdifference
  obtain ⟨hequation, hactual⟩ := List.getElem?_zip_eq_some.mp hi
  have hlen : words.length = net.inputLabels.length :=
    (length_of_mem_patterns hmem).trans net.length_inputLabels.symm
  have hbits : (words.map (bitAt · j)).length = net.inputLabels.length := by
    rw [List.length_map, hlen]
  -- the assignment is one bit of the words of the round
  refine ⟨List.map_fst_zip (Nat.le_of_eq hbits.symm), i, e, outs.map (bitAt · j), bitAt actual j,
    hequation, rfl, ?_, ?_, ?_⟩
  · rw [List.map_snd_zip (Nat.le_of_eq hbits), net.simulateSingle_bits hj, houts]
    rfl
  · rw [List.getElem?_map, hactual]
    rfl
  · rwa [← bits_bindWords hlabels hlen]

/-- Without a counterexample all outputs compute their equations, if all assignments were tried. -/
theorem Simulable.computes_of_checkEquivalence (hsim : net.Simulable)
    (hlabels : net.inputLabels.Nodup) (h : net.checkEquivalence equations seed = .ok none)
    (hsize : net.inputs.size ≤ maxExhaustive) {bits : List Bool}
    (hbits : bits.length = net.inputs.size) : net.Computes equations bits := by
  obtain ⟨hnumber, hrounds⟩ := checkEquivalence_eq_none_iff.mp h
  obtain ⟨words, hmem, j, hj, rfl⟩ := exists_mem_patterns (hbits ▸ hsize) seed
  rw [hbits] at hmem
  obtain ⟨outs, houts, hagree⟩ := hrounds words hmem
  have hwords := length_of_mem_patterns hmem
  obtain ⟨outs', houts', hlen⟩ := hsim words hwords
  cases houts.symm.trans houts'
  exact (agrees_iff_computes hlabels houts hwords (hnumber.trans hlen.symm)).mp hagree j hj

/-- Outputs that compute their equations have no counterexample. -/
theorem Simulable.checkEquivalence_of_computes (hsim : net.Simulable)
    (hlabels : net.inputLabels.Nodup) (hnumber : equations.length = net.outputs.size)
    (hcomputes : ∀ bits, bits.length = net.inputs.size → net.Computes equations bits)
    (seed : UInt64) : net.checkEquivalence equations seed = .ok none := by
  refine checkEquivalence_eq_none_iff.mpr ⟨hnumber, fun words hmem => ?_⟩
  have hwords := length_of_mem_patterns hmem
  obtain ⟨outs, houts, hlen⟩ := hsim words hwords
  refine ⟨outs, houts,
    (agrees_iff_computes hlabels houts hwords (hnumber.trans hlen.symm)).mpr fun j _ => ?_⟩
  exact hcomputes _ (by rw [List.length_map, hwords])

/-- Other numbers of equations are refused. -/
theorem checkEquivalence_of_length_ne (hnumber : equations.length ≠ net.outputs.size) :
    ∃ c, net.checkEquivalence equations seed = .ok (some c) := by
  rw [checkEquivalence, if_neg hnumber]
  split
  · exact ⟨_, rfl⟩
  · exact ⟨_, rfl⟩

/-- The equivalence check is sound and complete. Over as many equations as outputs it returns, and
what it returns as a counterexample is one; without a counterexample and with at most sixteen
inputs, all outputs compute their equations; and when they do, there is no counterexample, whatever
the seed and however many inputs there are. Other numbers of equations are always refused. -/
theorem checkEquivalence_correct (hbuilt : net.Built) (hcheck : net.check = .ok ())
    (hlabels : net.inputLabels.Nodup) (hproper : ∀ e ∈ equations, e.expr.Proper) (seed : UInt64) :
    (equations.length = net.outputs.size →
      (∃ verdict, net.checkEquivalence equations seed = .ok verdict) ∧
      (∀ c, net.checkEquivalence equations seed = .ok (some c) → net.Refutes equations c) ∧
      (net.checkEquivalence equations seed = .ok none → net.inputs.size ≤ 16 →
        ∀ bits, bits.length = net.inputs.size → net.Computes equations bits) ∧
      ((∀ bits, bits.length = net.inputs.size → net.Computes equations bits) →
        net.checkEquivalence equations seed = .ok none)) ∧
    (equations.length ≠ net.outputs.size →
      ∃ c, net.checkEquivalence equations seed = .ok (some c)) := by
  have hsim := hbuilt.simulable hcheck
  refine ⟨fun hnumber => ⟨?_, ?_, ?_, ?_⟩, checkEquivalence_of_length_ne⟩
  · exact hsim.checkEquivalence_isOk hproper hnumber seed
  · exact fun c => refutes_of_checkEquivalence hlabels hnumber
  · exact fun h hsize bits => hsim.computes_of_checkEquivalence hlabels h hsize
  · exact fun h => hsim.checkEquivalence_of_computes hlabels hnumber h seed

/-- A gate of two inputs computes one equation and is found not to compute another. -/
theorem checkEquivalence_correct_and :
    let net : Netlist := {
      nodes := #[⟨.input, [], 0, 0, some "A"⟩, ⟨.input, [], 0, 0, some "B"⟩,
        ⟨.gate .and, [0, 1], 1, 0, none⟩, ⟨.output, [2], 2, 0, some "Y"⟩]
      wires := #[⟨0, 0, 2, 0⟩, ⟨1, 0, 2, 1⟩, ⟨2, 0, 3, 0⟩]
      inputs := #[0, 1]
      outputs := #[3] }
    let conjunction : Equation := ⟨"Y", .gate .and [.var "A", .var "B"]⟩
    let disjunction : Equation := ⟨"Y", .gate .or [.var "A", .var "B"]⟩
    net.Built ∧ net.check = .ok () ∧ net.inputLabels.Nodup ∧
      (∀ bits, bits.length = 2 → net.Computes [conjunction] bits) ∧
      net.Refutes [disjunction] ⟨"Y", [("A", true), ("B", false)]⟩ := by
  intro net conjunction disjunction
  have hbuilt : net.Built := by
    have hinputs := (Built.empty.addInput "A").addInput "B"
    obtain ⟨gates, hgate, houtput⟩ : ∃ gates,
        ((empty.addInput "A").2.addInput "B").2.addGate (.gate .and) [0, 1] 0 = .ok (2, gates) ∧
          gates.addOutput 2 "Y" 0 = .ok (3, net) := ⟨_, rfl, rfl⟩
    exact (hinputs.addGate hgate).addOutput houtput
  have hcheck : net.check = .ok () := rfl
  have hlabels : net.inputLabels.Nodup := by decide
  have hconj : ∀ e ∈ [conjunction], e.expr.Proper := by decide
  have hdisj : ∀ e ∈ [disjunction], e.expr.Proper := by decide
  obtain ⟨hconjunction, -⟩ := checkEquivalence_correct hbuilt hcheck hlabels hconj 0
  obtain ⟨hdisjunction, -⟩ := checkEquivalence_correct hbuilt hcheck hlabels hdisj 0
  exact ⟨hbuilt, hcheck, hlabels, (hconjunction rfl).2.2.1 (by decide) (by decide),
    (hdisjunction rfl).2.1 _ (by decide)⟩

end Netlist

end LogicSchematic
