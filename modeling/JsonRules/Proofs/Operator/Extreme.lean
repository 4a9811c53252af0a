import Mathlib.Data.Option.NAry
import Mathlib.Data.List.Perm.Basic
import JsonRules.Builtin.Arithmetic
import JsonRules.Proofs.Number.Whole
import JsonRules.Proofs.Value.Order

/-!
# The least and the greatest of numbers

`min` and `max` go through their operands and keep one of two numbers at each step.  On the places of the
numbers both steps are associative and commutative and give one of two places, and nothing is what comes
of not-a-number.  So neither the order nor the grouping of the operands matters, and not-a-number is
never lost.
-/

namespace JsonRules

/-! ### Operations that give one of two elements -/

section Selective

variable {α : Type} {op : α → α → α} {l l' : List α} {a : α}

/-- The operation gives one of two elements, whatever their order and grouping. -/
structure Selective (op : α → α → α) : Prop where
  assoc : ∀ a b c, op (op a b) c = op a (op b c)
  comm : ∀ a b, op a b = op b a
  select : ∀ a b, op a b = a ∨ op a b = b

namespace Selective

variable (h : Selective op)

include h

theorem self (a : α) : op a a = a := (h.select a a).elim id id

theorem foldl_op (a b : α) (l : List α) : l.foldl op (op a b) = op a (l.foldl op b) :=
  haveI : Std.Associative op := ⟨h.assoc⟩
  List.foldl_assoc

theorem foldl_perm (hperm : l.Perm l') (a : α) : l.foldl op a = l'.foldl op a := by
  apply hperm.foldl_eq'
  intro x _ y _ z
  rw [h.assoc, h.comm x y, ← h.assoc]

theorem foldl_mem (l : List α) (a : α) : l.foldl op a = a ∨ l.foldl op a ∈ l := by
  induction l generalizing a with
  | nil => exact .inl rfl
  | cons b rest ih =>
      rw [List.foldl_cons]
      rcases ih (op a b) with hfold | hmem
      · rw [hfold]
        exact (h.select a b).imp_right fun hb => List.mem_cons.mpr (.inl hb)
      · exact .inr (List.mem_cons_of_mem b hmem)

/-- Each element has a part in the result. -/
theorem exists_foldl_eq {b : α} (hb : b ∈ l) (a : α) : ∃ c, l.foldl op a = op b c := by
  obtain ⟨before, after, rfl⟩ := List.append_of_mem hb
  refine ⟨after.foldl op (before.foldl op a), ?_⟩
  rw [List.foldl_append, List.foldl_cons, h.comm, h.foldl_op]

theorem foldl_append (l l' : List α) (a : α) :
    (l ++ l').foldl op a = op (op a (l.foldl op a)) (l'.foldl op a) := by
  have hfirst : op a (l.foldl op a) = l.foldl op a := by rw [← h.foldl_op, h.self]
  calc (l ++ l').foldl op a = l'.foldl op (op a (l.foldl op a)) := by rw [List.foldl_append, hfirst]
    _ = l'.foldl op (op (op a (l.foldl op a)) a) := by
        rw [h.comm _ a, ← h.assoc, h.self]
    _ = op (op a (l.foldl op a)) (l'.foldl op a) := h.foldl_op _ _ _

/-- Nothing comes of nothing. -/
theorem map₂ : Selective (Option.map₂ op) where
  assoc _ _ _ := Option.map₂_assoc h.assoc
  comm _ _ := Option.map₂_comm h.comm
  select a b := by
    cases a with
    | none => exact .inl rfl
    | some a =>
        cases b with
        | none => exact .inr rfl
        | some b => exact (h.select a b).imp (congrArg some) (congrArg some)

end Selective

end Selective

namespace Builtin

/-- What is left of the operands in the end. -/
def chosen (choose : Number → Number → Number) (start : Number) (args : List Value) : Number :=
  (args.map Value.toNumber).foldl (chooseNumber choose) start

/-- A choice between numbers is a choice between their places.  What is chosen comes before the other, and
every number comes before the start. -/
structure Choice (choose : Number → Number → Number) (op : Int → Int → Int) (start : Number)
    (before : Number → Number → Bool) : Prop where
  selective : Selective op
  place?_choose : ∀ {x y a b}, x.place? = some a → y.place? = some b →
    (choose x y).place? = some (op a b)
  start : ∃ s, start.place? = some s ∧ ∀ x a, Number.place? x = some a → op s a = a
  before : ∀ {x y a b}, x.place? = some (op a b) → y.place? = some a → before x y = true

/-- The operator gives the first of all operands: not-a-number if there is one, else a number that comes
before all others and is one of them, or the start if there are none. -/
structure GivesFirst (f : List Value → Number) (start : Number) (before : Number → Number → Bool) :
    Prop where
  nil : f [] = start
  nan_iff : ∀ args, f args = .nan ↔ ∃ v ∈ args, v.toNumber = .nan
  before : ∀ args, f args ≠ .nan → ∀ v ∈ args, before (f args) v.toNumber = true
  exists_same : ∀ args, f args ≠ .nan → args ≠ [] → ∃ v ∈ args, (f args).same v.toNumber = true
  perm : ∀ args others, args.Perm others → (f args).same (f others) = true
  append : ∀ args others,
    (f (args ++ others)).same (f [.number (f args), .number (f others)]) = true

namespace Choice

variable {choose : Number → Number → Number} {op : Int → Int → Int} {start : Number}
  {before : Number → Number → Bool} (h : Choice choose op start before)

include h

theorem place?_chooseNumber (x y : Number) :
    (chooseNumber choose x y).place? = Option.map₂ op x.place? y.place? := by
  rw [chooseNumber]
  cases hx : x.place? with
  | none =>
      obtain rfl := Number.place?_eq_none_iff.mp hx
      rfl
  | some a =>
      cases hy : y.place? with
      | none =>
          obtain rfl := Number.place?_eq_none_iff.mp hy
          rw [Bool.or_comm]
          rfl
      | some b =>
          have hnan : ¬(x.isNaN || y.isNaN) = true := by
            rw [Bool.or_eq_true, Number.isNaN_iff, Number.isNaN_iff, ← Number.place?_eq_none_iff,
              ← Number.place?_eq_none_iff, hx, hy]
            simp
          rw [if_neg hnan]
          exact h.place?_choose hx hy

theorem place?_chosen (args : List Value) :
    (chosen choose start args).place? =
      (args.map Value.place?).foldl (Option.map₂ op) start.place? := by
  rw [chosen]
  generalize start = x
  induction args generalizing x with
  | nil => rfl
  | cons v rest ih =>
      rw [List.map_cons, List.foldl_cons, ih, h.place?_chooseNumber, List.map_cons, List.foldl_cons]
      rfl

/-- Each operand has a part in what is left. -/
theorem exists_place?_chosen {args : List Value} {v : Value} (hv : v ∈ args) :
    ∃ c, (chosen choose start args).place? = Option.map₂ op v.place? c := by
  rw [h.place?_chosen]
  exact h.selective.map₂.exists_foldl_eq (List.mem_map_of_mem hv) _

/-- What is left is the start or one of the operands. -/
theorem place?_chosen_mem (args : List Value) :
    (chosen choose start args).place? = start.place? ∨
      ∃ v ∈ args, v.place? = (chosen choose start args).place? := by
  rw [h.place?_chosen]
  exact (h.selective.map₂.foldl_mem _ _).imp_right List.mem_map.mp

theorem chosen_eq_nan_iff (args : List Value) :
    chosen choose start args = .nan ↔ ∃ v ∈ args, v.toNumber = .nan := by
  rw [← Number.place?_eq_none_iff]
  constructor
  · intro hnone
    rcases h.place?_chosen_mem args with hstart | ⟨v, hv, hplace⟩
    · obtain ⟨s, hs, _⟩ := h.start
      cases hnone.symm.trans (hstart.trans hs)
    · exact ⟨v, hv, Value.place?_eq_none_iff.mp (hplace.trans hnone)⟩
  · rintro ⟨v, hv, hnan⟩
    obtain ⟨c, hc⟩ := h.exists_place?_chosen hv
    rw [hc, Value.place?_eq_none_iff.mpr hnan, Option.map₂_none_left]

theorem exists_place?_of_ne_nan {args : List Value} (hnan : chosen choose start args ≠ .nan)
    {v : Value} (hv : v ∈ args) :
    ∃ a b, v.place? = some a ∧ (chosen choose start args).place? = some (op a b) := by
  obtain ⟨c, hc⟩ := h.exists_place?_chosen hv
  obtain ⟨m, hm⟩ := Option.ne_none_iff_exists'.mp (Number.place?_eq_none_iff.not.mpr hnan)
  obtain ⟨a, b, ha, _, rfl⟩ := Option.map₂_eq_some_iff.mp (hc.symm.trans hm)
  exact ⟨a, b, ha, hm⟩

theorem exists_same {args : List Value} (hnan : chosen choose start args ≠ .nan) (hne : args ≠ []) :
    ∃ v ∈ args, (chosen choose start args).same v.toNumber = true := by
  rcases h.place?_chosen_mem args with hstart | ⟨v, hv, hplace⟩
  · -- The start is left only if the operands have its place.
    obtain ⟨v, hv⟩ := List.exists_mem_of_ne_nil args hne
    obtain ⟨a, b, ha, hab⟩ := h.exists_place?_of_ne_nan hnan hv
    obtain ⟨s, hs, hunit⟩ := h.start
    obtain rfl := Option.some.inj (hab.symm.trans (hstart.trans hs))
    refine ⟨v, hv, Number.same_iff_place?.mpr (hab.trans ?_)⟩
    have hsame : op a b = a :=
      calc op a b = op (op a a) b := by rw [h.selective.self]
        _ = op (op a b) a := by rw [h.selective.assoc, h.selective.comm]
        _ = a := hunit v.toNumber a ha
    rw [hsame]
    exact ha.symm
  · exact ⟨v, hv, Number.same_iff_place?.mpr hplace.symm⟩

theorem givesFirst : GivesFirst (chosen choose start) start before where
  nil := rfl
  nan_iff := h.chosen_eq_nan_iff
  before args hnan v hv := by
    obtain ⟨a, b, ha, hab⟩ := h.exists_place?_of_ne_nan hnan hv
    exact h.before hab ha
  exists_same args := h.exists_same
  perm args others hperm := by
    rw [Number.same_iff_place?, h.place?_chosen, h.place?_chosen]
    exact h.selective.map₂.foldl_perm (hperm.map _) _
  append args others := by
    rw [Number.same_iff_place?, h.place?_chosen, h.place?_chosen, List.map_append,
      h.selective.map₂.foldl_append, ← h.place?_chosen, ← h.place?_chosen]
    rfl

end Choice

theorem choice_min : Choice Number.min min (.infinite false) Number.le where
  selective := {
    assoc := Int.min_assoc
    comm := Int.min_comm
    select := fun a b => by omega }
  place?_choose := Number.place?_min
  start := by
    refine ⟨overflowUnits, rfl, fun x a ha => Int.min_eq_right (Number.place?_range ha).2⟩
  before hx hy := Number.le_iff.mpr ⟨_, _, hx, hy, Int.min_le_left _ _⟩

theorem choice_max :
    Choice Number.max max (.infinite true) fun x y => y.le x where
  selective := {
    assoc := Int.max_assoc
    comm := Int.max_comm
    select := fun a b => by omega }
  place?_choose := Number.place?_max
  start := by
    refine ⟨-overflowUnits, rfl, fun x a ha => Int.max_eq_right (Number.place?_range ha).1⟩
  before hx hy := Number.le_iff.mpr ⟨_, _, hy, hx, Int.le_max_left _ _⟩

/-- `min` gives the least and `max` the greatest of the operands, in any order and grouping. -/
theorem extreme_laws :
    GivesFirst minimum (.infinite false) Number.le ∧
      GivesFirst maximum (.infinite true) fun x y => y.le x :=
  ⟨choice_min.givesFirst, choice_max.givesFirst⟩

/-- The least number is at most what a text and an array stand for, and not-a-number stays. -/
theorem extreme_laws_coerced : ∃ args : List Value, minimum args ≠ .nan ∧
    (∀ v ∈ args, (minimum args).le v.toNumber = true) ∧
    (∃ v ∈ args, (minimum args).same v.toNumber = true) ∧
    (minimum args).same (minimum args.reverse) = true ∧
    maximum (.object [] :: args) = .nan := by
  let args : List Value := [.string " 0x10 ", .array [.bool true], .number (.infinite false)]
  obtain ⟨hmin, hmax⟩ := extreme_laws
  have hnan : minimum args ≠ .nan := by
    rw [ne_eq, hmin.nan_iff]
    decide +kernel
  exact ⟨args, hnan, hmin.before args hnan, hmin.exists_same args hnan (List.cons_ne_nil _ _),
    hmin.perm args args.reverse args.reverse_perm.symm,
    (hmax.nan_iff _).mpr ⟨.object [], List.mem_cons_self, rfl⟩⟩

end Builtin

end JsonRules
