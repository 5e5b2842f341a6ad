import Mathlib.Data.List.Forall2

/-!
# Computations that may fail

When a sequence of fallible steps succeeds and when it fails: `bind_eq_ok_iff` and
`bind_eq_error_iff` take a sequence apart, `mapM_eq_ok_iff` says that a traversal succeeds when
every element does, and `mapM_congr` that a traversal depends on nothing but the outcomes of its
elements. Traversals in `Option` are opened in the same way. Checks that pass leave what is done
without them: `mapM_eq_some_map` for a traversal, and `foldlM_eq_some_foldl` for steps that keep
what the checks need.
-/

namespace List.Forall₂

variable {α β : Type} {R : α → β → Prop} {xs : List α} {ys : List β}

theorem exists_of_mem_left (h : List.Forall₂ R xs ys) {x : α} (hx : x ∈ xs) : ∃ y ∈ ys, R x y := by
  induction h with
  | nil => cases hx
  | cons hxy _ ih =>
    rcases List.mem_cons.mp hx with rfl | hmem
    · exact ⟨_, List.mem_cons_self, hxy⟩
    · obtain ⟨y, hy, hR⟩ := ih hmem
      exact ⟨y, List.mem_cons_of_mem _ hy, hR⟩

theorem exists_of_mem_right (h : List.Forall₂ R xs ys) {y : β} (hy : y ∈ ys) : ∃ x ∈ xs, R x y :=
  h.flip.exists_of_mem_left hy

theorem imp_of_mem {S : α → β → Prop} (h : List.Forall₂ R xs ys)
    (himp : ∀ x ∈ xs, ∀ y, R x y → S x y) : List.Forall₂ S xs ys :=
  ((List.forall₂_and_left _ _).mpr ⟨fun _ hx => hx, h⟩).imp fun x y hxy => himp x hxy.1 y hxy.2

theorem map_eq {f : α → β} (h : List.Forall₂ R xs ys) (hf : ∀ x ∈ xs, ∀ y, R x y → f x = y) :
    xs.map f = ys := by
  rw [← List.forall₂_eq_eq_eq, List.forall₂_map_left_iff]
  exact h.imp_of_mem hf

/-- A relation that knows the left element from the right one carries distinctness over. -/
theorem nodup (h : List.Forall₂ R xs ys) (hR : Relator.LeftUnique R) (hxs : xs.Nodup) :
    ys.Nodup := by
  induction h with
  | nil => exact List.nodup_nil
  | cons hxy hrest ih =>
    obtain ⟨hx, hxs⟩ := List.nodup_cons.mp hxs
    refine List.nodup_cons.mpr ⟨fun hy => ?_, ih hxs⟩
    obtain ⟨x', hx', hR'⟩ := hrest.exists_of_mem_right hy
    exact hx (hR hxy hR' ▸ hx')

end List.Forall₂

namespace Except

variable {α β ε ε' : Type}

@[simp] theorem ok_bind (a : α) (f : α → Except ε β) : (Except.ok a >>= f) = f a := rfl

@[simp] theorem error_bind (e : ε) (f : α → Except ε β) :
    (Except.error e >>= f) = Except.error e := rfl

@[simp] theorem pure_eq_ok (a : α) : (pure a : Except ε α) = .ok a := rfl

theorem bind_eq_ok_iff {x : Except ε α} {f : α → Except ε β} {b : β} :
    x >>= f = .ok b ↔ ∃ a, x = .ok a ∧ f a = .ok b := by
  cases x with
  | error e => simp
  | ok a => simp

/-- A check in front of a computation must pass. -/
theorem unit_bind_eq_ok_iff {x : Except ε Unit} {f : Unit → Except ε β} {b : β} :
    x >>= f = .ok b ↔ x = .ok () ∧ f () = .ok b := by
  cases x with
  | error e => simp
  | ok a => simp

theorem bind_eq_error_iff {x : Except ε α} {f : α → Except ε β} {e : ε} :
    x >>= f = .error e ↔ x = .error e ∨ ∃ a, x = .ok a ∧ f a = .error e := by
  cases x with
  | error e => simp
  | ok a => simp

/-- Computations with the same images go on to computations with the same images. -/
theorem map_bind_congr {α' β' γ δ : Type} {x : Except ε α} {x' : Except ε α'} {f : α → γ}
    {f' : α' → γ} {p : α → Except ε β} {p' : α' → Except ε β'} {g : β → δ} {g' : β' → δ}
    (hx : x.map f = x'.map f') (hp : ∀ a a', f a = f' a' → (p a).map g = (p' a').map g') :
    (x >>= p).map g = (x' >>= p').map g' := by
  cases x with
  | error e =>
    cases x' with
    | error e' =>
      cases hx
      rfl
    | ok a' => cases hx
  | ok a =>
    cases x' with
    | error e' => cases hx
    | ok a' => exact hp a a' (Except.ok.inj hx)

theorem map_eq_ok_iff {x : Except ε α} {f : α → β} {b : β} :
    x.map f = .ok b ↔ ∃ a, x = .ok a ∧ f a = b := by
  cases x with
  | error e => simp [Except.map]
  | ok a => simp [Except.map]

theorem mapError_eq_ok_iff {x : Except ε α} {f : ε → ε'} {a : α} :
    x.mapError f = .ok a ↔ x = .ok a := by
  cases x with
  | error e => simp [Except.mapError]
  | ok b => simp [Except.mapError]

/-- A traversal succeeds exactly when every element does. -/
theorem mapM_eq_ok_iff {f : α → Except ε β} {xs : List α} {ys : List β} :
    xs.mapM f = .ok ys ↔ List.Forall₂ (fun x y => f x = .ok y) xs ys := by
  induction xs generalizing ys with
  | nil => simp [eq_comm]
  | cons x xs ih =>
    rw [List.mapM_cons, bind_eq_ok_iff, List.forall₂_cons_left_iff]
    constructor
    · rintro ⟨y, hy, h⟩
      obtain ⟨zs, hzs, h⟩ := bind_eq_ok_iff.mp h
      cases h
      exact ⟨y, zs, hy, ih.mp hzs, rfl⟩
    · rintro ⟨y, zs, hy, hzs, rfl⟩
      exact ⟨y, hy, bind_eq_ok_iff.mpr ⟨zs, ih.mpr hzs, rfl⟩⟩

/-- The error of a traversal is the error of an element. -/
theorem exists_of_mapM_eq_error {f : α → Except ε β} {xs : List α} {e : ε}
    (h : xs.mapM f = .error e) : ∃ x ∈ xs, f x = .error e := by
  induction xs with
  | nil => simp at h
  | cons x xs ih =>
    rw [List.mapM_cons, bind_eq_error_iff] at h
    rcases h with h | ⟨y, -, h⟩
    · exact ⟨x, by simp, h⟩
    · rcases bind_eq_error_iff.mp h with h | ⟨ys, -, h⟩
      · obtain ⟨z, hz, hez⟩ := ih h
        exact ⟨z, by simp [hz], hez⟩
      · simp at h

/-- When a traversal succeeds, every element does. -/
theorem exists_of_mapM_eq_ok {f : α → Except ε β} {xs : List α} {ys : List β}
    (h : xs.mapM f = .ok ys) {x : α} (hx : x ∈ xs) : ∃ y ∈ ys, f x = .ok y :=
  (mapM_eq_ok_iff.mp h).exists_of_mem_left hx

/-- A traversal keeps the number of elements, so that it gives something when there is something. -/
theorem ne_nil_of_mapM_eq_ok {f : α → Except ε β} {xs : List α} {ys : List β}
    (h : xs.mapM f = .ok ys) (hne : xs ≠ []) : ys ≠ [] := by
  have hlen := (mapM_eq_ok_iff.mp h).length_eq
  rintro rfl
  exact hne (List.length_eq_zero_iff.mp hlen)

theorem mapM_congr {γ : Type} {f : α → Except ε γ} {g : β → Except ε γ} {xs : List α} {ys : List β}
    (h : List.Forall₂ (fun x y => f x = g y) xs ys) : xs.mapM f = ys.mapM g := by
  induction h with
  | nil => rfl
  | cons hxy _ ih => rw [List.mapM_cons, List.mapM_cons, hxy, ih]

theorem forM_eq_ok_iff {f : α → Except ε Unit} {xs : List α} :
    xs.forM f = .ok () ↔ ∀ x ∈ xs, f x = .ok () := by
  induction xs with
  | nil => simp
  | cons x xs ih =>
    rw [show (x :: xs).forM f = (f x >>= fun _ => xs.forM f) from rfl, bind_eq_ok_iff,
      List.forall_mem_cons, ← ih]
    constructor
    · rintro ⟨⟨⟩, hx, hxs⟩
      exact ⟨hx, hxs⟩
    · rintro ⟨hx, hxs⟩
      exact ⟨(), hx, hxs⟩

end Except

namespace Option

variable {α β : Type}

theorem mapM_eq_some_map {f : α → Option β} {g : α → β} {xs : List α}
    (h : ∀ x ∈ xs, f x = some (g x)) : xs.mapM f = some (xs.map g) := by
  induction xs with
  | nil => rfl
  | cons x xs ih =>
    rw [List.forall_mem_cons] at h
    rw [List.mapM_cons, h.1, ih h.2]
    rfl

/-- A traversal succeeds exactly when every element does. -/
theorem mapM_eq_some_iff {f : α → Option β} {xs : List α} {ys : List β} :
    xs.mapM f = some ys ↔ List.Forall₂ (fun x y => f x = some y) xs ys := by
  induction xs generalizing ys with
  | nil => simp [eq_comm]
  | cons x xs ih =>
    rw [List.mapM_cons, List.forall₂_cons_left_iff, Option.bind_eq_bind, Option.bind_eq_some_iff]
    constructor
    · rintro ⟨y, hy, h⟩
      obtain ⟨zs, hzs, h⟩ := Option.bind_eq_some_iff.mp h
      cases h
      exact ⟨y, zs, hy, ih.mp hzs, rfl⟩
    · rintro ⟨y, zs, hy, hzs, rfl⟩
      exact ⟨y, hy, Option.bind_eq_some_iff.mpr ⟨zs, ih.mpr hzs, rfl⟩⟩

theorem mapM_congr {f g : α → Option β} {xs : List α} (h : ∀ x ∈ xs, f x = g x) :
    xs.mapM f = xs.mapM g := by
  induction xs with
  | nil => rfl
  | cons x xs ih =>
    rw [List.forall_mem_cons] at h
    rw [List.mapM_cons, List.mapM_cons, h.1, ih h.2]

/-- Checked steps that keep an invariant, under which their checks pass, go as unchecked ones. -/
theorem foldlM_eq_some_foldl {f : β → α → Option β} {g : β → α → β} (Inv : β → Prop)
    {xs : List α} (h : ∀ b, Inv b → ∀ x ∈ xs, f b x = some (g b x) ∧ Inv (g b x)) {b : β}
    (hb : Inv b) : xs.foldlM f b = some (xs.foldl g b) ∧ Inv (xs.foldl g b) := by
  induction xs generalizing b with
  | nil => exact ⟨rfl, hb⟩
  | cons x xs ih =>
    obtain ⟨hstep, hkept⟩ := h b hb x List.mem_cons_self
    rw [List.foldlM_cons, hstep]
    exact ih (fun c hc y hy => h c hc y (List.mem_cons_of_mem _ hy)) hkept

end Option
