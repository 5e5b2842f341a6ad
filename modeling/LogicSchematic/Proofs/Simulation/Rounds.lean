import LogicSchematic.Proofs.Expr.Boolean
import Mathlib.Data.List.Nodup

/-!
# Rounds

A round of a simulation gives every name a word: each round of `patterns` has one word for every
variable (`length_of_mem_patterns`), so that it binds every name (`exists_bindWords`). Where no name
stands twice, a name is bound to the word at its place (`bindWords_eq_some`), and the words of a
round are 64 assignments side by side (`bits_bindWords`).
-/

namespace LogicSchematic

/-! ## Names and places -/

theorem nodup_eraseDups {α : Type} [BEq α] [LawfulBEq α] (xs : List α) : xs.eraseDups.Nodup := by
  match xs with
  | [] => exact .nil
  | x :: xs =>
    rw [List.eraseDups_cons, List.nodup_cons]
    exact ⟨by simp [List.mem_eraseDups], nodup_eraseDups _⟩
termination_by xs.length
decreasing_by
  exact Nat.lt_succ_of_le (List.length_filter_le _ _)

/-- A key that stands in one pair only is found with the value of this pair. -/
theorem lookup_of_mem {α β : Type} [BEq α] [LawfulBEq α] {l : List (α × β)}
    (hnodup : (l.map Prod.fst).Nodup) {k : α} {v : β} (h : (k, v) ∈ l) : l.lookup k = some v := by
  obtain ⟨l₁, l₂, rfl⟩ := List.append_of_mem h
  refine List.lookup_eq_some_iff.mpr ⟨l₁, l₂, rfl, fun p hp => ?_⟩
  rw [List.map_append, List.map_cons, List.nodup_append] at hnodup
  have hne := hnodup.2.2 p.1 (List.mem_map_of_mem hp) k List.mem_cons_self
  exact bne_iff_ne.mpr (Ne.symm hne)

/-- A key has the value at its first place. -/
theorem lookup_zip {α β : Type} [BEq α] [LawfulBEq α] {ks : List α} {k : α} (h : k ∈ ks)
    (vs : List β) : (ks.zip vs).lookup k = vs[ks.idxOf k]? := by
  induction ks generalizing vs with
  | nil => cases h
  | cons x ks ih =>
    cases vs with
    | nil => simp
    | cons v vs =>
      rw [List.zip_cons_cons, List.lookup_cons]
      by_cases hx : k = x
      · subst hx
        simp
      · have hmem : k ∈ ks := (List.mem_cons.mp h).resolve_left hx
        rw [beq_eq_false_iff_ne.mpr hx, List.idxOf_cons_ne ks (Ne.symm hx)]
        exact ih hmem vs

theorem mem_zip_of_getElem? {α β : Type} {as : List α} {bs : List β} {i : Nat} {a : α} {b : β}
    (ha : as[i]? = some a) (hb : bs[i]? = some b) : (a, b) ∈ as.zip bs := by
  refine List.mem_of_getElem? (i := i) ?_
  rw [List.getElem?_zip_eq_some]
  exact ⟨ha, hb⟩

/-! ## Words for names -/

theorem length_of_mem_takeRows {columns rows : Nat} {r : RandomState} {row : List UInt64}
    (h : row ∈ RandomState.takeRows columns rows r) : row.length = columns := by
  induction rows generalizing r with
  | zero => cases h
  | succ rows ih =>
    rw [RandomState.takeRows] at h
    rcases List.mem_cons.mp h with rfl | h
    · exact RandomState.length_take columns r
    · exact ih h

/-- A round has one word for every variable. -/
theorem length_of_mem_patterns {n : Nat} {seed : UInt64} {row : List UInt64}
    (h : row ∈ patterns n seed) : row.length = n := by
  rw [patterns] at h
  split at h
  · exact length_of_mem_exhaustivePatterns h
  · exact length_of_mem_takeRows h

/-- Words for all names bind every name. -/
theorem exists_bindWords {names : List String} {words : List UInt64}
    (hlen : words.length = names.length) {name : String} (h : name ∈ names) :
    ∃ w, bindWords names words name = some w := by
  obtain ⟨i, hi, rfl⟩ := List.getElem_of_mem h
  refine Option.isSome_iff_exists.mp (List.lookup_isSome_iff.mpr ⟨(names[i], words[i]), ?_, ?_⟩)
  · rw [List.mem_reverse]
    refine List.mem_of_getElem (i := i) (h := ?_) ?_
    · rw [List.length_zip]
      omega
    · exact List.getElem_zip
  · exact beq_self_eq_true _

/-- The word that is bound to a name at one place only. -/
theorem bindWords_eq_some {names : List String} (hnodup : names.Nodup) {words : List UInt64}
    (hlen : words.length = names.length) {i : Nat} {name : String} {w : UInt64}
    (hname : names[i]? = some name) (hw : words[i]? = some w) :
    bindWords names words name = some w := by
  refine lookup_of_mem ?_ (List.mem_reverse.mpr (mem_zip_of_getElem? hname hw))
  rw [List.map_reverse, List.nodup_reverse, List.map_fst_zip (Nat.le_of_eq hlen.symm)]
  exact hnodup

/-- Names that are all different have the bits of their words. -/
theorem bits_bindWords {names : List String} (hnodup : names.Nodup) {words : List UInt64}
    (hlen : words.length = names.length) (j : Nat) :
    (bindWords names words).bits j = .ofList (names.zip (words.map (bitAt · j))) := by
  funext name
  rw [Valuation.bits, Assignment.ofList]
  by_cases hname : name ∈ names
  · obtain ⟨i, hi, rfl⟩ := List.getElem_of_mem hname
    have hw : words[i]? = some words[i] := List.getElem?_eq_getElem (by omega)
    have hn : names[i]? = some names[i] := List.getElem?_eq_getElem hi
    rw [bindWords_eq_some hnodup hlen hn hw]
    refine (lookup_of_mem ?_ (mem_zip_of_getElem? hn ?_)).symm
    · rwa [List.map_fst_zip (by rw [List.length_map]; omega)]
    · rw [List.getElem?_map, hw]
      rfl
  · have hnone : ∀ {α : Type} (xs : List α), (names.zip xs).lookup name = none := by
      intro α xs
      refine List.lookup_eq_none_iff.mpr fun p hp => ?_
      have hmem : p.1 ∈ names := (List.of_mem_zip hp).1
      exact bne_iff_ne.mpr fun heq : name = p.1 => hname (heq ▸ hmem)
    have hword : bindWords names words name = none := by
      refine List.lookup_eq_none_iff.mpr fun p hp => ?_
      exact List.lookup_eq_none_iff.mp (hnone words) p (List.mem_reverse.mp hp)
    rw [hword, hnone]
    rfl

end LogicSchematic
