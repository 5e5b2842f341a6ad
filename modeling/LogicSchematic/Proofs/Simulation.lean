import LogicSchematic.Proofs.Netlist.Check
import LogicSchematic.Proofs.Netlist.Growth
import LogicSchematic.Simulation
import Mathlib.Data.List.Forall2

/-!
# The words of a simulation

`Carries` says of words for the nodes of a netlist that each is what its node makes of the words of
its drivers, wherever these stand: the order in which the words were found no longer matters. The
one pass of `nodeWords` finds such words (`nodeWords_carries`), and on a consistent netlist it does
not fail (`nodeWords_isOk`), so a consistent netlist can be simulated on any words for its inputs
(`exists_simulate`).
-/

namespace LogicSchematic

namespace Netlist

variable {given : List (NodeId × UInt64)} {words words' : Array UInt64} {net : Netlist}
  {id : NodeId} {n : Node} {ns : List Node}

/-- Whether the word of a node is what the node makes of the words of its drivers. -/
def NodeCarries (given : List (NodeId × UInt64)) (words : Array UInt64) (id : NodeId) (n : Node) :
    Prop :=
  ∃ w, words[id]? = some w ∧
    match n.kind with
    | .input => w = (given.lookup id).getD 0
    | .output => ∃ child, n.children.head? = some child ∧ words[child]? = some w
    | .gate g => ∃ ws, List.Forall₂ (fun child v => words[child]? = some v) n.children ws ∧
        g.eval? ws = some w

/-- Whether all nodes of a netlist have such words. -/
def Carries (net : Netlist) (given : List (NodeId × UInt64)) (words : Array UInt64) : Prop :=
  ∀ (id : NodeId) (n : Node), net.nodes[id]? = some n → NodeCarries given words id n

theorem driverWords_eq_ok_iff {ids : List NodeId} {ws : List UInt64} :
    driverWords words ids = .ok ws ↔ List.Forall₂ (fun id w => words[id]? = some w) ids ws := by
  induction ids generalizing ws with
  | nil => simp [driverWords, eq_comm]
  | cons id ids ih =>
    rw [driverWords, List.forall₂_cons_left_iff]
    cases hw : words[id]? with
    | none => simp
    | some w =>
      dsimp only
      rw [Except.ok_bind, Except.bind_eq_ok_iff]
      constructor
      · rintro ⟨vs, hvs, h⟩
        cases h
        exact ⟨w, vs, rfl, ih.mp hvs, rfl⟩
      · rintro ⟨v, vs, hv, hvs, rfl⟩
        cases hv
        exact ⟨vs, ih.mpr hvs, rfl⟩

theorem driverWords_isOk {ids : List NodeId} (h : ∀ id ∈ ids, id < words.size) :
    ∃ ws, driverWords words ids = .ok ws := by
  induction ids with
  | nil => exact ⟨[], rfl⟩
  | cons id ids ih =>
    rw [List.forall_mem_cons] at h
    obtain ⟨hlt, hrest⟩ := h
    obtain ⟨ws, hws⟩ := ih hrest
    refine ⟨words[id] :: ws, ?_⟩
    rw [driverWords_eq_ok_iff] at hws ⊢
    exact .cons (Array.getElem?_eq_getElem hlt) hws

/-! ## One node -/

/-- The word found for the next node is what it makes of the words before it, also among more
words. -/
theorem nodeCarries_of_nodeWord {w : UInt64} (h : nodeWord given words n = .ok w)
    (hgrow : ∀ (id : NodeId) (v : UInt64), words[id]? = some v → words'[id]? = some v)
    (hw : words'[words.size]? = some w) : NodeCarries given words' words.size n := by
  obtain ⟨ws, hws, h⟩ := Except.bind_eq_ok_iff.mp h
  have hdrivers := (driverWords_eq_ok_iff.mp hws).imp fun id v => hgrow id v
  refine ⟨w, hw, ?_⟩
  cases hkind : n.kind with
  | input =>
    rw [hkind] at h
    cases h
    rfl
  | output =>
    rw [hkind] at h
    cases hc : n.children with
    | nil =>
      rw [hc] at hdrivers
      cases hdrivers
      cases h
    | cons child children =>
      rw [hc] at hdrivers
      obtain _ | ⟨hchild, _⟩ := hdrivers
      cases h
      exact ⟨child, rfl, hchild⟩
  | gate g =>
    rw [hkind] at h
    refine ⟨ws, hdrivers, ?_⟩
    dsimp only at h
    split at h
    next v hv =>
      cases h
      exact hv
    next => cases h

/-- A node whose drivers have words has a word, if it has a driver or needs none. -/
theorem nodeWord_isOk (hchildren : ∀ child ∈ n.children, child < words.size)
    (hdriven : n.kind ≠ .input → n.children ≠ []) : ∃ w, nodeWord given words n = .ok w := by
  obtain ⟨ws, hws⟩ := driverWords_isOk hchildren
  have hlen := (driverWords_eq_ok_iff.mp hws).length_eq
  have hne : n.kind ≠ .input → ws ≠ [] := by
    rintro hkind rfl
    exact hdriven hkind (List.length_eq_zero_iff.mp hlen)
  rw [nodeWord, hws, Except.ok_bind]
  cases hkind : n.kind with
  | input => exact ⟨_, rfl⟩
  | output =>
    cases ws with
    | nil => exact absurd rfl (hne (by simp [hkind]))
    | cons w ws => exact ⟨w, rfl⟩
  | gate g =>
    obtain ⟨w, hw⟩ := Option.isSome_iff_exists.mp
      ((Gate.eval_isSome_iff g ws).mpr (.inr (hne (by simp [hkind]))))
    exact ⟨w, by simp only [hw]; rfl⟩

/-! ## All nodes -/

theorem nodeWords_carries (h : nodeWords given words ns = .ok words') :
    (∀ (id : NodeId) (w : UInt64), words[id]? = some w → words'[id]? = some w) ∧
      ∀ (i : Nat) (n : Node), ns[i]? = some n → NodeCarries given words' (words.size + i) n := by
  induction ns generalizing words with
  | nil =>
    cases h
    exact ⟨fun _ _ hw => hw, by simp⟩
  | cons n ns ih =>
    obtain ⟨w, hw, h⟩ := Except.bind_eq_ok_iff.mp h
    obtain ⟨hgrow, hrest⟩ := ih h
    -- the words that were found before stay through the push and the rest of the pass
    have hpush : ∀ (id : NodeId) (v : UInt64), words[id]? = some v → words'[id]? = some v := by
      intro id v hv
      exact hgrow id v (getElem?_push_of_eq_some hv w)
    refine ⟨hpush, fun i m hm => ?_⟩
    cases i with
    | zero =>
      cases hm
      exact nodeCarries_of_nodeWord hw hpush (hgrow _ _ Array.getElem?_push_size)
    | succ i =>
      have := hrest i m hm
      rwa [Array.size_push, Nat.add_right_comm, Nat.add_assoc] at this

theorem nodeWords_isOk (h : ∀ (i : Nat) (n : Node), ns[i]? = some n →
      (∀ child ∈ n.children, child < words.size + i) ∧ (n.kind ≠ .input → n.children ≠ [])) :
    ∃ words', nodeWords given words ns = .ok words' := by
  induction ns generalizing words with
  | nil => exact ⟨words, rfl⟩
  | cons n ns ih =>
    obtain ⟨hchildren, hdriven⟩ := h 0 n rfl
    obtain ⟨w, hw⟩ : ∃ w, nodeWord given words n = .ok w := nodeWord_isOk hchildren hdriven
    rw [nodeWords, hw, Except.ok_bind]
    refine ih fun i m hm => ?_
    have := h (i + 1) m hm
    rwa [Array.size_push, Nat.add_assoc, Nat.add_comm 1 i]

/-- Whether one pass over the nodes finds all it needs: every node comes after its drivers and has
one if it is no input, and the outputs are nodes. -/
structure Sequential (net : Netlist) : Prop where
  first : net.DriversFirst
  driven : ∀ n ∈ net.nodes, n.kind ≠ .input → n.children ≠ []
  output_lt : ∀ id ∈ net.outputs.toList, id < net.nodes.size

/-- A sequential netlist can be simulated: its nodes have words, and its outputs yield theirs. -/
theorem Sequential.exists_simulate (h : net.Sequential) {ws : List UInt64}
    (hlen : ws.length = net.inputs.size) :
    ∃ words outs, net.Carries (net.inputs.toList.zip ws) words ∧ net.simulate ws = .ok outs ∧
      List.Forall₂ (fun id w => words[id]? = some w) net.outputs.toList outs := by
  have hstart : ∃ words, nodeWords (net.inputs.toList.zip ws) #[] net.nodes.toList = .ok words := by
    refine nodeWords_isOk fun i n hn => ?_
    rw [Array.getElem?_toList] at hn
    rw [Array.size_empty, Nat.zero_add]
    exact ⟨h.first i n hn, h.driven n (Array.mem_of_getElem? hn)⟩
  -- the pass gives every node a word, so every output finds one
  obtain ⟨words, hwords⟩ := hstart
  have hsize := nodeWords_size hwords
  rw [Array.size_empty, Nat.zero_add, Array.length_toList] at hsize
  obtain ⟨outs, houts⟩ : ∃ outs, driverWords words net.outputs.toList = .ok outs :=
    driverWords_isOk fun id hid => hsize ▸ h.output_lt id hid
  refine ⟨words, outs, fun id n hn => ?_, ?_, driverWords_eq_ok_iff.mp houts⟩
  · have := (nodeWords_carries hwords).2 id n (by rwa [Array.getElem?_toList])
    rwa [Array.size_empty, Nat.zero_add] at this
  · rw [simulate, if_neg (not_not.mpr hlen), hwords]
    exact houts

/-- A consistent netlist can be simulated. -/
theorem exists_simulate (hcheck : net.check = .ok ())
    (hout : ∀ id ∈ net.outputs.toList, id < net.nodes.size) {ws : List UInt64}
    (hlen : ws.length = net.inputs.size) :
    ∃ words outs, net.Carries (net.inputs.toList.zip ws) words ∧ net.simulate ws = .ok outs ∧
      List.Forall₂ (fun id w => words[id]? = some w) net.outputs.toList outs := by
  have hnodes := (check_eq_ok_iff.mp hcheck).1
  have hsequential : net.Sequential := by
    refine ⟨fun id n hn child hchild => ((hnodes id n hn).drivers child hchild).1, fun n hn => ?_,
      hout⟩
    obtain ⟨id, hid⟩ := Array.getElem?_of_mem hn
    exact (hnodes id n hid).driven
  exact hsequential.exists_simulate hlen

end Netlist

end LogicSchematic
