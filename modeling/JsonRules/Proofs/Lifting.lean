import JsonRules.Error
import Mathlib.Data.List.Forall2

/-!
# Relations lifted to lists, options and outcomes

Two lists are related if their elements are, one by one, and two options if both are empty or both hold
related values.  Two outcomes may also be related failures.
-/

namespace JsonRules

variable {α β γ δ : Type} {R : α → β → Prop}

theorem forall₂_trans {S : β → γ → Prop} {T : α → γ → Prop}
    (h : ∀ x y z, R x y → S y z → T x z) {xs : List α} {ys : List β} {zs : List γ}
    (hxy : List.Forall₂ R xs ys) (hyz : List.Forall₂ S ys zs) : List.Forall₂ T xs zs := by
  induction hxy generalizing zs with
  | nil =>
      cases hyz
      exact .nil
  | cons hxy _ ih =>
      cases hyz with
      | cons hyz hrest => exact .cons (h _ _ _ hxy hyz) (ih hrest)

theorem forall_mem_of_forall₂ {P : α → Prop} {xs : List α} {ys : List β}
    (hP : ∀ x y, R x y → P x) (h : List.Forall₂ R xs ys) : ∀ x ∈ xs, P x :=
  ((List.forall₂_and_left xs ys).mp (h.imp fun x y hxy => ⟨hP x y hxy, hxy⟩)).1

/-- What follows of related elements may use that they are in the lists. -/
theorem forall₂_imp_of_mem {S : α → β → Prop} {xs : List α} {ys : List β}
    (h : List.Forall₂ R xs ys) (hRS : ∀ x ∈ xs, ∀ y ∈ ys, R x y → S x y) :
    List.Forall₂ S xs ys := by
  induction h with
  | nil => exact .nil
  | @cons x y xs ys hxy _ ih =>
      refine .cons (hRS x List.mem_cons_self y List.mem_cons_self hxy) (ih fun x hx y hy => ?_)
      exact hRS x (List.mem_cons_of_mem _ hx) y (List.mem_cons_of_mem _ hy)

/-- What goes through a list element by element is a map. -/
theorem eq_map_of_cons {f : List α → List β} {g : α → β} (hnil : f [] = [])
    (hcons : ∀ x xs, f (x :: xs) = g x :: f xs) (xs : List α) : f xs = xs.map g := by
  induction xs with
  | nil => exact hnil
  | cons x xs ih => rw [hcons, ih, List.map_cons]

theorem map_eq_of_forall₂ {f : α → γ} {g : β → γ} {xs : List α} {ys : List β}
    (h : List.Forall₂ R xs ys) (hfg : ∀ x ∈ xs, ∀ y, R x y → f x = g y) :
    xs.map f = ys.map g := by
  induction h with
  | nil => rfl
  | @cons x y xs ys hxy _ ih =>
      rw [List.map_cons, List.map_cons, hfg x List.mem_cons_self y hxy,
        ih fun x hx => hfg x (List.mem_cons_of_mem _ hx)]

theorem forall₂_getElem? {xs : List α} {ys : List β} (h : List.Forall₂ R xs ys) (i : Nat) :
    (xs[i]? = none ∧ ys[i]? = none) ∨ ∃ x y, xs[i]? = some x ∧ ys[i]? = some y ∧ R x y := by
  induction h generalizing i with
  | nil => exact .inl ⟨rfl, rfl⟩
  | @cons x y xs ys hxy _ ih =>
      cases i with
      | zero => exact .inr ⟨x, y, rfl, rfl, hxy⟩
      | succ i => exact ih i

theorem forall₂_modify {xs : List α} {ys : List β} {f : α → α} {g : β → β}
    (h : List.Forall₂ R xs ys) (hfg : ∀ x y, R x y → R (f x) (g y)) (i : Nat) :
    List.Forall₂ R (xs.modify i f) (ys.modify i g) := by
  induction h generalizing i with
  | nil => simp
  | @cons x y xs ys hxy hrest ih =>
      cases i with
      | zero => simpa using ⟨hfg x y hxy, hrest⟩
      | succ i => simpa using ⟨hxy, ih i⟩

theorem rel_getElem? {xs : List α} {ys : List β} (h : List.Forall₂ R xs ys) (i : Nat) :
    Option.Rel R xs[i]? ys[i]? := by
  rcases forall₂_getElem? h i with ⟨hx, hy⟩ | ⟨x, y, hx, hy, hxy⟩
  · rw [hx, hy]
    exact .none
  · rw [hx, hy]
    exact .some hxy

theorem rel_bind {S : γ → δ → Prop} {a : Option α} {b : Option β} {f : α → Option γ}
    {g : β → Option δ} (h : Option.Rel R a b) (hfg : ∀ x y, R x y → Option.Rel S (f x) (g y)) :
    Option.Rel S (a.bind f) (b.bind g) := by
  cases h with
  | some hxy => exact hfg _ _ hxy
  | none => exact .none

theorem rel_getD {a : Option α} {b : Option β} {x : α} {y : β} (h : Option.Rel R a b)
    (hxy : R x y) : R (a.getD x) (b.getD y) := by
  cases h with
  | some h => exact h
  | none => exact hxy

/-- Results related by `R` or failures related by `E`. -/
inductive RelatedOutcomes (E : Error → Error → Prop) (R : α → β → Prop) :
    Except Error α → Except Error β → Prop
  | ok {a : α} {b : β} (h : R a b) : RelatedOutcomes E R (.ok a) (.ok b)
  | error {d e : Error} (h : E d e) : RelatedOutcomes E R (.error d) (.error e)

theorem RelatedOutcomes.bind {E : Error → Error → Prop} {S : γ → δ → Prop} {x : Except Error α}
    {y : Except Error β} {f : α → Except Error γ} {g : β → Except Error δ}
    (h : RelatedOutcomes E R x y) (hfg : ∀ a b, R a b → RelatedOutcomes E S (f a) (g b)) :
    RelatedOutcomes E S (x >>= f) (y >>= g) := by
  cases h with
  | ok h => exact hfg _ _ h
  | error h => exact .error h

end JsonRules
