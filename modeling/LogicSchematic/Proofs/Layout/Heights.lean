import LogicSchematic.Proofs.Layout.Sorting
import LogicSchematic.Proofs.Netlist.Builder
import Mathlib.Algebra.BigOperators.Group.List.Basic

/-!
# Heights within a level

A level is placed when its nodes have their heights: none above the mean height of its drivers, and
each far enough below the one before it (`Legal`). Stacking gives the least heights of this kind
(`legal_of_stack`, `le_of_stack`), because a node is pushed down no further than these two
conditions ask (`pushDown_le_iff`).

Nodes are driven from lower levels, and placing a level leaves the others where they are, so a level
is placed by the final heights of the drivers (`candidates_placeUpTo`), and its nodes keep the
heights they are given (`stack_column`). That makes the conditions on one stack conditions on the
whole placement (`place_stacked`). Nodes of one equation that want one height keep their order of
creation if the threshold for close heights is positive, and are in the opposite order if it is not
(`place_tie_iff`).
-/

namespace LogicSchematic

namespace Placement

/-! ## Stacking -/

section Stacking

variable {minGap ideal y : ℚ} {previous : Option ℚ} {cs : List (Candidate ℚ)}
  {height other : NodeId → ℚ}

/-- Whether heights are allowed for candidates in their order: none stands above the height it
wants, and each far enough below the one before it. -/
structure Legal (minGap : ℚ) (cs : List (Candidate ℚ)) (height : NodeId → ℚ) : Prop where
  ideal_le : ∀ c ∈ cs, c.ideal ≤ height c.id
  gap : cs.IsChain fun a b => height a.id + minGap ≤ height b.id

/-- A node is pushed down as far as it must be. -/
theorem pushDown_le_iff : pushDown minGap previous ideal ≤ y ↔
    ideal ≤ y ∧ ∀ p ∈ previous, p + minGap ≤ y := by
  cases previous with
  | none => simp [pushDown]
  | some p =>
    show (if Scalar.lt ideal (p + minGap) = true then p + minGap else ideal) ≤ y ↔ _
    simp only [Scalar.lt_rat_iff, Option.mem_some_iff, forall_eq']
    split
    next hlt => exact ⟨fun hle => ⟨hlt.le.trans hle, hle⟩, fun h => h.2⟩
    next hle => exact ⟨fun h => ⟨h, (not_lt.mp hle).trans h⟩, fun h => h.1⟩

/-- Stacked candidates stand at legal heights. -/
theorem legal_of_stack
    (h : stack minGap previous cs = cs.map fun c => (c.id, height c.id)) :
    Legal minGap cs height ∧ ∀ p ∈ previous, ∀ c ∈ cs.head?, p + minGap ≤ height c.id := by
  induction cs generalizing previous with
  | nil => exact ⟨⟨by simp, .nil⟩, by simp⟩
  | cons c cs ih =>
    rw [stack, List.map_cons, List.cons_eq_cons, Prod.mk_right_inj] at h
    obtain ⟨hheight, hrest⟩ := h
    obtain ⟨hlegal, hhead⟩ := ih hrest
    obtain ⟨hideal, hprevious⟩ := pushDown_le_iff.mp hheight.le
    refine ⟨⟨List.forall_mem_cons.mpr ⟨hideal, hlegal.ideal_le⟩, ?_⟩, ?_⟩
    · refine List.isChain_cons.mpr ⟨fun d hd => ?_, hlegal.gap⟩
      rw [← hheight]
      exact hhead _ rfl d hd
    · intro p hp d hd
      cases hd
      exact hprevious p hp

/-- No legal heights are smaller than those of a stack. -/
theorem le_of_stack (h : stack minGap previous cs = cs.map fun c => (c.id, height c.id))
    (hother : Legal minGap cs other)
    (hprevious : ∀ p ∈ previous, ∀ c ∈ cs.head?, p + minGap ≤ other c.id) :
    ∀ c ∈ cs, height c.id ≤ other c.id := by
  induction cs generalizing previous with
  | nil => exact fun _ hc => nomatch hc
  | cons c cs ih =>
    rw [stack, List.map_cons, List.cons_eq_cons, Prod.mk_right_inj] at h
    obtain ⟨hheight, hrest⟩ := h
    obtain ⟨hideal, hideals⟩ := List.forall_mem_cons.mp hother.ideal_le
    obtain ⟨hgap, hgaps⟩ := List.isChain_cons.mp hother.gap
    have hle : pushDown minGap previous c.ideal ≤ other c.id :=
      pushDown_le_iff.mpr ⟨hideal, fun p hp => hprevious p hp c rfl⟩
    refine List.forall_mem_cons.mpr ⟨hheight ▸ hle, ih hrest ⟨hideals, hgaps⟩ ?_⟩
    -- this candidate is no lower in the stack, so the next one is pushed no further
    intro p hp d hd
    cases hp
    exact (add_le_add_left hle minGap).trans (hgap d hd)

/-- Candidates at legal heights are far enough apart, whether or not they are neighbours. -/
theorem Legal.pairwise (h : Legal minGap cs height) (hgap : 0 ≤ minGap) :
    cs.Pairwise fun a b => height a.id + minGap ≤ height b.id := by
  have htrans : IsTrans (Candidate ℚ) fun a b => height a.id + minGap ≤ height b.id :=
    ⟨fun _ _ _ hab hbc => hab.trans ((le_add_of_nonneg_right hgap).trans hbc)⟩
  exact List.isChain_iff_pairwise.mp h.gap

theorem Legal.apart (h : Legal minGap cs height) (hgap : 0 ≤ minGap) {a b : Candidate ℚ}
    (ha : a ∈ cs) (hb : b ∈ cs) (hne : a ≠ b) : minGap ≤ |height a.id - height b.id| := by
  have hsymm : Std.Symm fun a b : Candidate ℚ => minGap ≤ |height a.id - height b.id| :=
    ⟨fun _ _ hle => hle.trans_eq (abs_sub_comm _ _)⟩
  have hapart : cs.Pairwise fun a b => minGap ≤ |height a.id - height b.id| := by
    refine (h.pairwise hgap).imp fun hle => ?_
    rw [abs_sub_comm]
    exact (le_sub_iff_add_le'.mpr hle).trans (le_abs_self _)
  exact hapart.forall ha hb hne

theorem Legal.lt (h : Legal minGap cs height) (hgap : 0 < minGap) {a b : Candidate ℚ} {i j : Nat}
    (ha : cs[i]? = some a) (hb : cs[j]? = some b) (hlt : i < j) : height a.id < height b.id := by
  obtain ⟨hi, rfl⟩ := List.getElem?_eq_some_iff.mp ha
  obtain ⟨hj, rfl⟩ := List.getElem?_eq_some_iff.mp hb
  have hle := List.pairwise_iff_getElem.mp (h.pairwise hgap.le) i j hi hj hlt
  exact (lt_add_of_pos_right _ hgap).trans_le hle

end Stacking

/-! ## Level by level -/

section Levels

variable {α : Type} [Scalar α] {net : Netlist} {constants : PlacementConstants α}
  {positions positions' : Positions α} {level later : Nat} {id : NodeId} {n : Node}

/-- The positions when the levels up to a given one are placed. -/
def placeUpTo (net : Netlist) (constants : PlacementConstants α) (level : Nat) : Positions α :=
  (List.range level).foldl (fun positions i => placeLevel net constants positions (i + 1))
    (placeInputs net constants)

theorem placeUpTo_succ (net : Netlist) (constants : PlacementConstants α) (level : Nat) :
    placeUpTo net constants (level + 1) =
      placeLevel net constants (placeUpTo net constants level) (level + 1) := by
  rw [placeUpTo, List.range_succ, List.foldl_append]
  rfl

theorem size_placeUpTo (net : Netlist) (constants : PlacementConstants α) (level : Nat) :
    (placeUpTo net constants level).size = net.nodes.size := by
  induction level with
  | zero => exact size_foldl_setIfInBounds.trans Array.size_replicate
  | succ level ih =>
    rw [placeUpTo_succ]
    exact size_foldl_setIfInBounds.trans ih

/-- Placing more levels leaves the nodes of those that are placed. -/
theorem at_placeUpTo_of_le (hn : net.nodes[id]? = some n) (hlevel : n.level ≤ level)
    (hle : level ≤ later) :
    (placeUpTo net constants later).at id = (placeUpTo net constants level).at id := by
  induction hle with
  | refl => rfl
  | @step later hle ih =>
    have hne : n.level ≠ later + 1 := Nat.ne_of_lt (Nat.lt_succ_of_le (hlevel.trans hle))
    rw [placeUpTo_succ, at_placeLevel_of_ne hn hne, ih]

/-- What a level wants depends on the positions of its drivers only. -/
theorem candidates_congr (h : ∀ (id : NodeId) (n : Node), net.nodes[id]? = some n →
      n.level = level → ∀ child ∈ n.children, positions.at child = positions'.at child) :
    candidates net constants positions level = candidates net constants positions' level := by
  rw [candidates_eq_map, candidates_eq_map]
  refine List.map_congr_left fun p hp => ?_
  obtain ⟨hmem, hlevel⟩ := mem_levelNodes.mp hp
  rw [List.map_congr_left (h p.2 p.1 hmem hlevel)]

/-- A level is placed by the final positions of its drivers. -/
theorem candidates_placeUpTo (hcheck : net.check = .ok ()) (hlevel : level ≤ net.maxLevel) :
    candidates net constants (placeUpTo net constants level) (level + 1) =
      candidates net constants (place net constants) (level + 1) := by
  refine candidates_congr fun id n hn heq child hchild => ?_
  obtain ⟨m, hm, -, -, hlt⟩ := ((Netlist.check_eq_ok_iff.mp hcheck).1 id n hn).exists_driver hchild
  exact (at_placeUpTo_of_le hm (by omega) hlevel).symm

/-- The nodes of a level keep the heights that they are given when they are stacked. -/
theorem stack_candidates (hcheck : net.check = .ok ()) (hpos : 0 < level) :
    let cs := sortCandidates constants.tieThreshold
      (candidates net constants (place net constants) level)
    stack constants.minGap none cs = cs.map fun c => (c.id, ((place net constants).at c.id).y) := by
  intro cs
  obtain ⟨level, rfl⟩ := Nat.exists_eq_succ_of_ne_zero hpos.ne'
  have hheight : ∀ p ∈ stack constants.minGap none cs,
      (p.1, ((place net constants).at p.1).y) = p := by
    intro p hp
    obtain ⟨n, hn, hlevel⟩ := mem_map_fst_stack.mp (List.mem_map_of_mem hp)
    have hle : level + 1 ≤ net.maxLevel := hlevel.ge.trans (level_le_maxLevel hn)
    have hplaced : (place net constants).at p.1 = (placeUpTo net constants (level + 1)).at p.1 :=
      at_placeUpTo_of_le hn hlevel.le hle
    have hlevels := size_placeUpTo net constants level
    rw [hplaced, placeUpTo_succ, at_placeLevel_of_mem hlevels]
    rwa [candidates_placeUpTo hcheck (Nat.le_of_succ_le hle)]
  calc stack constants.minGap none cs
      = (stack constants.minGap none cs).map fun p => (p.1, ((place net constants).at p.1).y) :=
        ((List.map_congr_left hheight).trans (List.map_id _)).symm
    _ = ((stack constants.minGap none cs).map Prod.fst).map fun id =>
        (id, ((place net constants).at id).y) := by rw [List.map_map]; rfl
    _ = cs.map fun c => (c.id, ((place net constants).at c.id).y) := by
        rw [map_fst_stack, List.map_map]; rfl

end Levels

/-! ## Mean heights -/

section Means

variable {net : Netlist} {constants : PlacementConstants ℚ} {positions : Positions ℚ} {level : Nat}
  {id other : NodeId} {n m : Node}

/-- The height of a node. -/
def Positions.y (positions : Positions ℚ) (id : NodeId) : ℚ := (positions.at id).y

/-- The mean of the heights of the drivers of a node. -/
def meanHeight (positions : Positions ℚ) (n : Node) : ℚ :=
  (n.children.map positions.y).sum / n.children.length

/-- The nodes of a level in order of creation, each with the mean height of its drivers. -/
def waiting (net : Netlist) (positions : Positions ℚ) (level : Nat) : List (Candidate ℚ) :=
  (levelNodes net level).map fun p => ⟨p.2, meanHeight positions p.1, p.1.group⟩

/-- A node that is driven wants the mean height of its drivers. -/
theorem idealHeight_eq (hne : n.children ≠ []) :
    idealHeight constants (n.children.map positions.at) = meanHeight positions n := by
  obtain ⟨first, rest, hchildren⟩ := List.exists_cons_of_ne_nil hne
  rw [meanHeight, hchildren, List.sum_eq_foldl, List.map_cons, List.map_cons, List.foldl_cons,
    zero_add, idealHeight, mean, List.map_map, List.length_map]
  rfl

/-- The candidates of a level want the mean heights of their drivers. -/
theorem candidates_eq_waiting (hcheck : net.check = .ok ()) (hpos : 0 < level) :
    candidates net constants positions level = waiting net positions level := by
  rw [candidates_eq_map]
  refine List.map_congr_left fun p hp => ?_
  obtain ⟨hmem, hlevel⟩ := mem_levelNodes.mp hp
  have hcons := (Netlist.check_eq_ok_iff.mp hcheck).1 p.2 p.1 hmem
  have hne : p.1.children ≠ [] := by
    refine hcons.driven fun hkind => ?_
    rw [← hlevel, hcons.input_level hkind] at hpos
    exact absurd hpos (Nat.lt_irrefl 0)
  rw [idealHeight_eq hne]

theorem mem_waiting (positions : Positions ℚ) (hn : net.nodes[id]? = some n)
    (hlevel : n.level = level) :
    ⟨id, meanHeight positions n, n.group⟩ ∈ waiting net positions level :=
  List.mem_map.mpr ⟨(n, id), mem_levelNodes.mpr ⟨hn, hlevel⟩, rfl⟩

theorem pairwise_waiting : (waiting net positions level).Pairwise fun a b => a.id < b.id :=
  List.pairwise_map.mpr (pairwise_levelNodes net level)

/-- Two nodes of a level wait in the order of their creation. -/
theorem exists_waiting (positions : Positions ℚ) (hn : net.nodes[id]? = some n)
    (hm : net.nodes[other]? = some m) (hlevel : n.level = level) (hlevel' : m.level = level)
    (hlt : id < other) :
    ∃ i j : Fin (waiting net positions level).length, i < j ∧
      (waiting net positions level)[i] = ⟨id, meanHeight positions n, n.group⟩ ∧
      (waiting net positions level)[j] = ⟨other, meanHeight positions m, m.group⟩ := by
  obtain ⟨i, hi, hin⟩ := List.getElem_of_mem (mem_waiting positions hn hlevel)
  obtain ⟨j, hj, hjm⟩ := List.getElem_of_mem (mem_waiting positions hm hlevel')
  refine ⟨⟨i, hi⟩, ⟨j, hj⟩, ?_, hin, hjm⟩
  refine (Nat.lt_trichotomy i j).resolve_right ?_
  rintro (rfl | hji)
  · exact absurd (congrArg Candidate.id (hin.symm.trans hjm)) (Nat.ne_of_lt hlt)
  · have hids := List.pairwise_iff_getElem.mp pairwise_waiting j i hj hi hji
    rw [hin, hjm] at hids
    exact absurd hids (Nat.lt_asymm hlt)

end Means

/-! ## The heights of a level -/

section Stacked

variable {net : Netlist} {constants : PlacementConstants ℚ} {positions : Positions ℚ} {level : Nat}
  {a b : NodeId} {n m : Node}

/-- The column of a level: its nodes from the top, each with the mean height of its drivers. -/
def column (net : Netlist) (constants : PlacementConstants ℚ) (positions : Positions ℚ)
    (level : Nat) : List (Candidate ℚ) :=
  sortCandidates constants.tieThreshold (waiting net positions level)

/-- Whether the nodes of a level stand at the least heights that are legal for its column. -/
structure Stacked (net : Netlist) (constants : PlacementConstants ℚ) (positions : Positions ℚ)
    (level : Nat) : Prop where
  legal : Legal constants.minGap (column net constants positions level) positions.y
  least : ∀ height, Legal constants.minGap (column net constants positions level) height →
    ∀ id n, net.nodes[id]? = some n → n.level = level → positions.y id ≤ height id
  mean_le : ∀ id n, net.nodes[id]? = some n → n.level = level →
    meanHeight positions n ≤ positions.y id
  apart : ∀ a b n m, net.nodes[a]? = some n → net.nodes[b]? = some m → n.level = level →
    m.level = level → a ≠ b → constants.minGap ≤ |positions.y a - positions.y b|

theorem exists_mem_column (hn : net.nodes[a]? = some n) (hlevel : n.level = level) :
    ∃ c ∈ column net constants positions level, c.id = a ∧ c.ideal = meanHeight positions n :=
  ⟨_, (sortCandidates_perm _ _).mem_iff.mpr (mem_waiting positions hn hlevel), rfl, rfl⟩

/-- A level that is placed is stacked. -/
theorem stack_column (hcheck : net.check = .ok ()) (hpos : 0 < level) :
    stack constants.minGap none (column net constants (place net constants) level) =
      (column net constants (place net constants) level).map fun c =>
        (c.id, (place net constants).y c.id) := by
  rw [column, ← candidates_eq_waiting hcheck hpos]
  exact stack_candidates hcheck hpos

theorem legal_place (constants : PlacementConstants ℚ) (hcheck : net.check = .ok ())
    (hpos : 0 < level) :
    Legal constants.minGap (column net constants (place net constants) level)
      (place net constants).y :=
  (legal_of_stack (stack_column hcheck hpos)).1

theorem stacked_place (hcheck : net.check = .ok ()) (hgap : 0 ≤ constants.minGap)
    (hpos : 0 < level) : Stacked net constants (place net constants) level := by
  have hlegal := legal_place constants hcheck hpos
  refine ⟨hlegal, fun height hheight id n hn hlevel => ?_, fun id n hn hlevel => ?_,
    fun a b n m hn hm hlevel hlevel' hne => ?_⟩
  · obtain ⟨c, hc, rfl, -⟩ := exists_mem_column hn hlevel
    exact le_of_stack (stack_column hcheck hpos) hheight (by simp) c hc
  · obtain ⟨c, hc, rfl, hideal⟩ := exists_mem_column hn hlevel
    exact hideal ▸ hlegal.ideal_le c hc
  · obtain ⟨c, hc, rfl, -⟩ := exists_mem_column hn hlevel
    obtain ⟨d, hd, rfl, -⟩ := exists_mem_column hm hlevel'
    exact hlegal.apart hgap hc hd fun heq => hne (congrArg Candidate.id heq)

theorem check_of_buildNetlist {s : Synthesizer} {equations : List Equation}
    (h : buildNetlist s equations = .ok net) : net.check = .ok () ∧ net.Listed := by
  obtain ⟨b, -, himplements⟩ :=
    buildNetlist_implements (K := fun _ => True) (fun _ _ _ _ _ _ => trivial) h
  exact ⟨himplements.consistent, himplements.listed⟩

/-- A netlist that is built for equations is placed column by column: every node stands in the
column of its level, and the nodes of a level stand at the least heights that are legal for its
order. -/
theorem place_stacked {s : Synthesizer} {equations : List Equation}
    (h : buildNetlist s equations = .ok net) (hgap : 0 ≤ constants.minGap) :
    (∀ id n, net.nodes[id]? = some n →
      ((place net constants).at id).x = constants.columnX n.level) ∧
    ∀ level, 0 < level → Stacked net constants (place net constants) level := by
  obtain ⟨hcheck, hlisted⟩ := check_of_buildNetlist h
  refine ⟨fun id n hn => ?_, fun level hpos => stacked_place hcheck hgap hpos⟩
  exact (place_inColumns hcheck hlisted constants).x id n hn (level_le_maxLevel hn)

/-- Both gates want the height between the inputs, and the second is pushed down. -/
theorem place_stacked_pushed :
    let s : Synthesizer := ⟨.ofList [.and, .or], 10⟩
    let equations : List Equation := [⟨"Y", .gate .and [.var "A", .var "B"]⟩,
      ⟨"Z", .gate .or [.var "A", .var "B"]⟩]
    let constants : PlacementConstants ℚ := .standard
    ∃ net, buildNetlist s equations = .ok net ∧ 0 ≤ constants.minGap ∧
      (place net constants).y 2 = 145 ∧ (place net constants).y 3 = 265 ∧
      (∀ id n, net.nodes[id]? = some n →
        ((place net constants).at id).x = constants.columnX n.level) ∧
      ∀ level, 0 < level → Stacked net constants (place net constants) level := by
  intro s equations constants
  have hnet : buildNetlist s equations = .ok {
      nodes := #[⟨.input, [], 0, 0, some "A"⟩, ⟨.input, [], 0, 0, some "B"⟩,
        ⟨.gate .and, [0, 1], 1, 0, none⟩, ⟨.gate .or, [0, 1], 1, 1, none⟩,
        ⟨.output, [2], 2, 0, some "Y"⟩, ⟨.output, [3], 2, 1, some "Z"⟩]
      wires := #[⟨0, 0, 2, 0⟩, ⟨1, 0, 2, 1⟩, ⟨0, 0, 3, 0⟩, ⟨1, 0, 3, 1⟩, ⟨2, 0, 4, 0⟩, ⟨3, 0, 5, 0⟩]
      inputs := #[0, 1]
      outputs := #[4, 5] } := by
    decide +kernel
  have hgap : 0 ≤ constants.minGap := by decide +kernel
  exact ⟨_, hnet, hgap, by decide +kernel, by decide +kernel, place_stacked hnet hgap⟩

/-! ## Equal mean heights -/

/-- Candidates of one height and one equation are close, and neither is the greater one. -/
theorem order_ne_gt_of_eq {tieThreshold : ℚ} {c d : Candidate ℚ} (hpos : 0 < tieThreshold)
    (hideal : c.ideal = d.ideal) (hgroup : c.group = d.group) : order tieThreshold c d ≠ .gt := by
  rw [Ne, order_eq_gt_iff, hideal, sub_self, abs_zero, if_pos hpos, hgroup]
  exact Nat.lt_irrefl _

/-- Of two nodes of one level and one equation that want one height, the one that was created first
stands above the other if and only if the threshold for close heights is positive. -/
theorem place_tie_iff {s : Synthesizer} {equations : List Equation}
    (h : buildNetlist s equations = .ok net) (hgap : 0 < constants.minGap)
    (hn : net.nodes[a]? = some n) (hm : net.nodes[b]? = some m) (hpos : 0 < n.level)
    (hlevel : m.level = n.level) (hgroup : m.group = n.group)
    (hideal : meanHeight (place net constants) m = meanHeight (place net constants) n)
    (hlt : a < b) :
    (place net constants).y a < (place net constants).y b ↔ 0 < constants.tieThreshold := by
  have hlegal := legal_place constants (check_of_buildNetlist h).1 hpos
  obtain ⟨i, j, hij, hi, hj⟩ :=
    exists_waiting (place net constants) hn hm rfl hlevel hlt
  constructor
  · -- otherwise the two would come out in the opposite order
    intro habove
    by_contra hnot
    obtain ⟨places, hplaces, hreversed⟩ := exists_reversing_places (not_lt.mp hnot)
      (waiting net (place net constants) n.level)
    have hbelow := hlegal.lt hgap (hplaces j) (hplaces i)
      (hreversed i j hij (by rw [hi, hj]; exact hideal.symm))
    rw [hi, hj] at hbelow
    exact lt_asymm habove hbelow
  · intro hthreshold
    obtain ⟨places, hplaces, hstable⟩ := exists_stable_places constants.tieThreshold
      (waiting net (place net constants) n.level)
    have hne : order constants.tieThreshold (waiting net (place net constants) n.level)[i]
        (waiting net (place net constants) n.level)[j] ≠ .gt := by
      rw [hi, hj]
      exact order_ne_gt_of_eq hthreshold hideal.symm hgroup.symm
    have habove := hlegal.lt hgap (hplaces i) (hplaces j) (hstable i j hij hne)
    rwa [hi, hj] at habove

/-- An equation with two gates on the same inputs. -/
def twins : Equation :=
  ⟨"Y", .gate .or [.gate .and [.var "A", .var "B"], .gate .nand [.var "A", .var "B"]]⟩

/-- The netlist of `twins` in its own gates. -/
def twinsNet : Netlist where
  nodes := #[⟨.input, [], 0, 0, some "A"⟩, ⟨.input, [], 0, 0, some "B"⟩,
    ⟨.gate .and, [0, 1], 1, 0, none⟩, ⟨.gate .nand, [0, 1], 1, 0, none⟩,
    ⟨.gate .or, [2, 3], 2, 0, none⟩, ⟨.output, [4], 3, 0, some "Y"⟩]
  wires := #[⟨0, 0, 2, 0⟩, ⟨1, 0, 2, 1⟩, ⟨0, 0, 3, 0⟩, ⟨1, 0, 3, 1⟩, ⟨2, 0, 4, 0⟩, ⟨3, 0, 4, 1⟩,
    ⟨4, 0, 5, 0⟩]
  inputs := #[0, 1]
  outputs := #[5]

theorem buildNetlist_twins :
    buildNetlist ⟨.ofList [.and, .or, .nand], 10⟩ [twins] = .ok twinsNet := by
  decide +kernel

/-- With the usual constants, of the two gates the one that was created first stands above the
other. -/
theorem place_tie_iff_standard :
    let constants : PlacementConstants ℚ := .standard
    ∃ n m, buildNetlist ⟨.ofList [.and, .or, .nand], 10⟩ [twins] = .ok twinsNet ∧
      0 < constants.minGap ∧ twinsNet.nodes[2]? = some n ∧ twinsNet.nodes[3]? = some m ∧
      0 < n.level ∧ m.level = n.level ∧ m.group = n.group ∧
      meanHeight (place twinsNet constants) m = meanHeight (place twinsNet constants) n ∧
      0 < constants.tieThreshold ∧
      ((place twinsNet constants).y 2 < (place twinsNet constants).y 3 ↔
        0 < constants.tieThreshold) := by
  intro constants
  have hgap : 0 < constants.minGap := by decide +kernel
  exact ⟨_, _, buildNetlist_twins, hgap, rfl, rfl, by decide, rfl, rfl, rfl, by decide +kernel,
    place_tie_iff buildNetlist_twins hgap rfl rfl (by decide) rfl rfl rfl (by decide)⟩

/-- With the threshold 0, the one that was created last stands above the other. -/
theorem place_tie_zero :
    let constants : PlacementConstants ℚ := { PlacementConstants.standard with tieThreshold := 0 }
    ∃ n m, buildNetlist ⟨.ofList [.and, .or, .nand], 10⟩ [twins] = .ok twinsNet ∧
      0 < constants.minGap ∧ twinsNet.nodes[2]? = some n ∧ twinsNet.nodes[3]? = some m ∧
      0 < n.level ∧ m.level = n.level ∧ m.group = n.group ∧
      meanHeight (place twinsNet constants) m = meanHeight (place twinsNet constants) n ∧
      (place twinsNet constants).y 3 = 145 ∧ (place twinsNet constants).y 2 = 265 := by
  intro constants
  exact ⟨_, _, buildNetlist_twins, by decide +kernel, rfl, rfl, by decide, rfl, rfl, rfl,
    by decide +kernel, by decide +kernel⟩

end Stacked

end Placement

end LogicSchematic
