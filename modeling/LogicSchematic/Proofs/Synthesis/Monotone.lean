import LogicSchematic.Proofs.Synthesis.Outcome

/-!
# More gates

Allowing another gate changes which identities are used, since an allowed gate goes before its
replacements. Yet whatever could be built can still be built: the conditions under which gates are
built and mapped only ask for gates that are allowed, never for gates that are not, so a larger set
meets them too (`GateSet.Builds.mono`, `GateSet.Maps.mono`, `Expr.Mappable.mono`). What may happen
with the larger set is that its identities nest deeper than the limit (`synthesize_of_subset`).
-/

namespace LogicSchematic

namespace GateSet

instance : HasSubset GateSet := ⟨fun s t => ∀ g, s.contains g = true → t.contains g = true⟩

variable {s t : GateSet} {g base : Gate} {n : Nat}

theorem Inverts.mono (h : s ⊆ t) : s.Inverts → t.Inverts :=
  Or.imp (h _) <| Or.imp (h _) <| Or.imp (h _) (h _)

theorem Conjoins.mono (h : s ⊆ t) : s.Conjoins → t.Conjoins :=
  Or.imp (h _) <| Or.imp (h _) <| Or.imp (h _) <| Or.imp (h _) <| And.imp (h _) (Inverts.mono h)

theorem Disjoins.mono (h : s ⊆ t) : s.Disjoins → t.Disjoins :=
  Or.imp (h _) <| Or.imp (h _) <| Or.imp (h _) <| Or.imp (h _) <| And.imp (h _) (Inverts.mono h)

theorem Builds.mono (h : s ⊆ t) : s.Builds g n → t.Builds g n := by
  have hinv := Inverts.mono h
  have hand := Conjoins.mono h
  have hor := Disjoins.mono h
  fun_cases GateSet.Builds s g n
  case case1 => exact hinv
  case case2 => exact hand
  case case3 => exact hor
  case case4 => exact Or.imp (h _) <| Or.imp (h _) <| And.imp hand hinv
  case case5 => exact Or.imp (h _) <| And.imp hor hinv
  case case6 => exact Or.imp (h _) <| And.imp hinv <| And.imp hand hor
  case case7 =>
    exact Or.imp (h _) <| And.imp (Or.imp (h _) <| And.imp hinv <| And.imp hand hor) hinv
  case case8 =>
    -- any other gate, or another number of operands: the gate itself must be allowed
    intro hg
    rw [Builds]
    · exact h _ hg
    all_goals assumption

theorem Associates.mono (h : s ⊆ t) : s.Associates g n → t.Associates g n :=
  Or.imp id (Builds.mono h)

theorem Complements.mono (h : s ⊆ t) : s.Complements g base n → t.Complements g base n := by
  unfold Complements
  split
  next => exact Or.imp (h _) (Inverts.mono h)
  next =>
    split
    next => exact Builds.mono h
    next => exact And.imp (Associates.mono h) (Inverts.mono h)

theorem Maps.mono (h : s ⊆ t) : s.Maps g n → t.Maps g n := by
  cases g with
  | not => exact And.imp id (Builds.mono h)
  | nand4 => exact Or.imp (And.imp (h _) id) (And.imp (Associates.mono h) (Inverts.mono h))
  | nand => exact Complements.mono h
  | nor => exact Complements.mono h
  | xnor => exact Complements.mono h
  | and => exact Associates.mono h
  | or => exact Associates.mono h
  | xor => exact Associates.mono h

end GateSet

theorem Expr.Mappable.mono {s t : GateSet} (h : s ⊆ t) {e : Expr} (he : e.Mappable s) :
    e.Mappable t :=
  Everywhere.mono (fun _ _ ⟨g, hg, hmaps⟩ => ⟨g, hg, hmaps.mono h⟩) he

namespace Synthesizer

/-- What has a circuit has one with more gates too, whatever the limits on the depth, unless the
limit is exceeded. -/
theorem synthesize_of_subset {s t : GateSet} (h : s ⊆ t) {e : Expr} (he : e.Proper) {M M' : Nat}
    {m : Mapping} (hm : (Synthesizer.mk s M).synthesize e = .ok m) :
    (∃ m', (Synthesizer.mk t M').synthesize e = .ok m') ∨
      (Synthesizer.mk t M').synthesize e = .error (.depthExceeded M') := by
  obtain ⟨D, r, -, hrun, hr⟩ := synthesize_outcome s he
  obtain ⟨D', r', -, hrun', hr'⟩ := synthesize_outcome t he
  have hmappable : e.Mappable s := by
    refine hr.mp ⟨m, ?_⟩
    rw [hrun M, cutOff] at hm
    split at hm
    next => cases hm
    next => exact Except.mapError_eq_ok_iff.mp hm
  obtain ⟨m', rfl⟩ := hr'.mpr (hmappable.mono h)
  rw [hrun' M', cutOff]
  split
  next => exact .inr rfl
  next => exact .inl ⟨m', rfl⟩

/-- With a conjunction beside the disjunction, an inverted conjunction is built another way. -/
theorem synthesize_of_subset_nand :
    let s := GateSet.ofList [.not, .or]
    let t := GateSet.ofList [.not, .or, .and]
    let e : Expr := .gate .nand [.var "A", .var "B"]
    s ⊆ t ∧ e.Proper ∧ (∃ m, (Synthesizer.mk s 5).synthesize e = .ok m) ∧
      ((∃ m', (Synthesizer.mk t 4).synthesize e = .ok m') ∨
        (Synthesizer.mk t 4).synthesize e = .error (.depthExceeded 4)) := by
  intro s t e
  have hsub : s ⊆ t := by
    intro g hg
    cases g <;> first | rfl | cases hg
  have he : e.Proper := by decide
  have hm : (Synthesizer.mk s 5).synthesize e = .ok _ := rfl
  exact ⟨hsub, he, ⟨_, hm⟩, synthesize_of_subset hsub he hm⟩

end Synthesizer

end LogicSchematic
