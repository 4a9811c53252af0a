import JsonRules.Proofs.Value.Reordered

/-!
# What stands inside a value

A value stands within itself and within every array and object that has it inside an element or a
member.  What holds of all numbers within a value is put together from its parts.
-/

namespace JsonRules.Value

/-- The first value is the second one or stands inside it, at any depth. -/
inductive Within (w : Value) : Value → Prop
  | self : Within w w
  | element {items : List Value} {v : Value} (hv : v ∈ items) (h : Within w v) :
      Within w (array items)
  | member {members : Entries Value} {key : String} {v : Value} (hv : (key, v) ∈ members)
      (h : Within w v) : Within w (object members)

/-- The numbers within the value are all in `P`. -/
def AllNumbers (P : Number → Prop) (v : Value) : Prop := ∀ x, (number x).Within v → P x

namespace AllNumbers

variable {P Q : Number → Prop} {v : Value}

theorem mono (hPQ : ∀ x, P x → Q x) (h : v.AllNumbers P) : v.AllNumbers Q :=
  fun x hx => hPQ x (h x hx)

theorem null : Value.null.AllNumbers P := fun _ hx => by cases hx

theorem bool (b : Bool) : (Value.bool b).AllNumbers P := fun _ hx => by cases hx

theorem string (s : String) : (Value.string s).AllNumbers P := fun _ hx => by cases hx

end AllNumbers

variable {P : Number → Prop}

theorem allNumbers_number_iff {x : Number} : (number x).AllNumbers P ↔ P x := by
  refine ⟨fun h => h x .self, fun h y hy => ?_⟩
  cases hy
  exact h

theorem allNumbers_array_iff {items : List Value} :
    (array items).AllNumbers P ↔ ∀ v ∈ items, v.AllNumbers P := by
  refine ⟨fun h v hv x hx => h x (.element hv hx), fun h x hx => ?_⟩
  cases hx with
  | element hv hx => exact h _ hv x hx

theorem allNumbers_object_iff {members : Entries Value} :
    (object members).AllNumbers P ↔ ∀ key v, (key, v) ∈ members → v.AllNumbers P := by
  refine ⟨fun h key v hv x hx => h x (.member hv hx), fun h x hx => ?_⟩
  cases hx with
  | member hv hx => exact h _ _ hv x hx

theorem allNumbers_ne_iff {x : Number} {v : Value} :
    v.AllNumbers (· ≠ x) ↔ ¬(number x).Within v :=
  ⟨fun h hx => h x hx rfl, fun h _ hy hyx => h (hyx ▸ hy)⟩

end JsonRules.Value
