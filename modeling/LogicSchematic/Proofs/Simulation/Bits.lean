import LogicSchematic.Proofs.Except
import LogicSchematic.Proofs.Expr.Boolean

/-!
# Simulation bit by bit

A simulation on words is 64 simulations on one assignment each: every bit of the words of the
outputs is what the bits of the words of the inputs at the same place yield
(`simulateSingle_bits`). The step and the pass are compared on words that have the same bits, at one
place on the one side and at another on the other, so that failures are the same failures.
-/

namespace LogicSchematic

/-- Options with the same image are both empty, or both full with the same image. -/
theorem cases_of_map_eq_map {α β γ : Type} {f : α → γ} {g : β → γ} {x : Option α} {y : Option β}
    (h : x.map f = y.map g) :
    (x = none ∧ y = none) ∨ ∃ a b, x = some a ∧ y = some b ∧ f a = g b := by
  cases x with
  | none => exact .inl ⟨rfl, Option.map_eq_none_iff.mp h.symm⟩
  | some a =>
    obtain ⟨b, hy, hab⟩ := Option.map_eq_some_iff.mp h.symm
    exact .inr ⟨a, b, rfl, hy, hab.symm⟩

namespace Netlist

variable {j k : Nat}

/-- The word of one bit has this bit everywhere. -/
theorem bitAt_repeatBit (b : Bool) (hj : j < 64) : bitAt (repeatBit b) j = b := by
  cases b with
  | false => exact bitAt_zero j
  | true => rw [repeatBit, if_pos rfl, bitAt_not 0 hj, bitAt_zero, Bool.not_false]

/-- The lowest bit is read by a mask. -/
theorem and_one_bne_zero (w : UInt64) : (w &&& 1 != 0) = bitAt w 0 := by
  have hand : (w &&& 1).toNat = w.toNat % 2 := by
    rw [UInt64.toNat_and]
    exact Nat.and_one_is_mod w.toNat
  rw [bitAt, Nat.testBit_zero, ← hand, Bool.eq_iff_iff, bne_iff_ne, decide_eq_true_iff, ne_eq,
    ← UInt64.toNat_inj, UInt64.toNat_zero]
  omega

/-- The words of the given inputs have the same bits when the words have. -/
theorem lookup_zip_bits {ids : List NodeId} {ws vs : List UInt64}
    (h : ws.map (bitAt · j) = vs.map (bitAt · k)) (id : NodeId) :
    ((ids.zip ws).lookup id).map (bitAt · j) = ((ids.zip vs).lookup id).map (bitAt · k) := by
  induction ids generalizing ws vs with
  | nil => rfl
  | cons i ids ih =>
    cases ws with
    | nil =>
      obtain rfl := List.map_eq_nil_iff.mp h.symm
      rfl
    | cons w ws =>
      obtain ⟨v, vs, rfl, hwv, hrest⟩ := List.map_eq_cons_iff.mp h.symm
      rw [List.zip_cons_cons, List.zip_cons_cons, List.lookup_cons, List.lookup_cons]
      cases id == i with
      | true => exact congrArg some hwv.symm
      | false => exact ih hrest.symm

variable {given given' : List (NodeId × UInt64)} {words words' : Array UInt64}

theorem driverWords_bits (hwords : words.map (bitAt · j) = words'.map (bitAt · k))
    (ids : List NodeId) :
    (driverWords words ids).map (List.map (bitAt · j)) =
      (driverWords words' ids).map (List.map (bitAt · k)) := by
  induction ids with
  | nil => rfl
  | cons id ids ih =>
    have hid : words[id]?.map (bitAt · j) = words'[id]?.map (bitAt · k) := by
      rw [← Array.getElem?_map, ← Array.getElem?_map, hwords]
    rw [driverWords, driverWords]
    obtain ⟨hw, hv⟩ | ⟨w, v, hw, hv, hwv⟩ := cases_of_map_eq_map hid
    · rw [hw, hv]
      rfl
    · rw [hw, hv]
      dsimp only
      rw [Except.ok_bind, Except.ok_bind]
      refine Except.map_bind_congr ih fun ws vs hws => ?_
      exact congrArg Except.ok (List.cons_eq_cons.mpr ⟨hwv, hws⟩)

theorem nodeWord_bits (hj : j < 64) (hk : k < 64)
    (hgiven : ∀ id, (given.lookup id).map (bitAt · j) = (given'.lookup id).map (bitAt · k))
    (hwords : words.map (bitAt · j) = words'.map (bitAt · k)) (n : Node) :
    (nodeWord given words n).map (bitAt · j) = (nodeWord given' words' n).map (bitAt · k) := by
  refine Except.map_bind_congr (driverWords_bits hwords n.children) fun ws vs hws => ?_
  cases n.kind with
  | input =>
    have hsize : words.size = words'.size := by
      have := congrArg Array.size hwords
      rwa [Array.size_map, Array.size_map] at this
    have hlookup := hgiven words.size
    rw [hsize] at hlookup
    dsimp only
    rw [hsize]
    refine congrArg Except.ok ?_
    -- an input that was given no word has the word 0, on both sides
    obtain ⟨hw, hv⟩ | ⟨w, v, hw, hv, hwv⟩ := cases_of_map_eq_map hlookup
    · rw [hw, hv]
      exact (bitAt_zero j).trans (bitAt_zero k).symm
    · rw [hw, hv]
      exact hwv
  | output =>
    cases ws with
    | nil =>
      rw [List.map_eq_nil_iff.mp hws.symm]
      rfl
    | cons w ws =>
      obtain ⟨v, vs, rfl, hwv, -⟩ := List.map_eq_cons_iff.mp hws.symm
      exact congrArg Except.ok hwv.symm
  | gate g =>
    have heval : (g.eval? ws).map (bitAt · j) = (g.eval? vs).map (bitAt · k) := by
      rw [← Gate.value?_bitAt g ws hj, ← Gate.value?_bitAt g vs hk, hws]
    dsimp only
    obtain ⟨hw, hv⟩ | ⟨w, v, hw, hv, hwv⟩ := cases_of_map_eq_map heval
    · rw [hw, hv]
      rfl
    · rw [hw, hv]
      exact congrArg Except.ok hwv

theorem nodeWords_bits (hj : j < 64) (hk : k < 64)
    (hgiven : ∀ id, (given.lookup id).map (bitAt · j) = (given'.lookup id).map (bitAt · k))
    (hwords : words.map (bitAt · j) = words'.map (bitAt · k)) (ns : List Node) :
    (nodeWords given words ns).map (Array.map (bitAt · j)) =
      (nodeWords given' words' ns).map (Array.map (bitAt · k)) := by
  induction ns generalizing words words' with
  | nil => exact congrArg Except.ok hwords
  | cons n ns ih =>
    refine Except.map_bind_congr (nodeWord_bits hj hk hgiven hwords n) fun w v hwv => ih ?_
    rw [Array.map_push, Array.map_push, hwords, hwv]

variable {ws vs : List UInt64}

/-- Words with the same bits yield words with the same bits. -/
theorem simulate_bits (net : Netlist) (hj : j < 64) (hk : k < 64)
    (h : ws.map (bitAt · j) = vs.map (bitAt · k)) :
    (net.simulate ws).map (List.map (bitAt · j)) = (net.simulate vs).map (List.map (bitAt · k)) := by
  have hlen : ws.length = vs.length := by
    have := congrArg List.length h
    rwa [List.length_map, List.length_map] at this
  rw [simulate, simulate, hlen]
  split
  next => rfl
  next =>
    refine Except.map_bind_congr (nodeWords_bits hj hk (lookup_zip_bits h) ?_ _) ?_
    · rw [Array.map_empty, Array.map_empty]
    · exact fun words words' hwords => driverWords_bits hwords _

/-- Every bit of the words of the outputs is what the bits of the inputs at this place yield. -/
theorem simulateSingle_bits (net : Netlist) (hj : j < 64) (ws : List UInt64) :
    net.simulateSingle (ws.map (bitAt · j)) = (net.simulate ws).map (List.map (bitAt · j)) := by
  have hsame : ((ws.map (bitAt · j)).map repeatBit).map (bitAt · 0) = ws.map (bitAt · j) := by
    rw [List.map_map]
    refine (List.map_congr_left fun b _ => ?_).trans (List.map_id _)
    exact bitAt_repeatBit b (by decide)
  have hbits : (fun w : UInt64 => w &&& 1 != 0) = (bitAt · 0) := funext and_one_bne_zero
  rw [simulateSingle, hbits, ← simulate_bits net (by decide) hj hsame]
  cases net.simulate ((ws.map (bitAt · j)).map repeatBit) <;> rfl

end Netlist

end LogicSchematic
