import JsonRules.Builtin.Catalogue
import JsonRules.Proofs.Value.Similar

/-!
# Built-in operators on similar operands

The functions behind the eager built-in operators give similar values for similar operands, or they
fail in the same way.  Only `substr` shows the text of an operand it refuses.
-/

namespace JsonRules

/-- The same failure, apart from the text of an operand that had to be numeric. -/
inductive Error.Similar : Error → Error → Prop
  | refl (e : Error) : Similar e e
  | notNumeric (what : String) {v w : Value} (h : v.Similar w) :
      Similar (Builtin.notNumeric what v) (Builtin.notNumeric what w)

abbrev SimilarOutcomes {α β : Type} (R : α → β → Prop) : Except Error α → Except Error β → Prop :=
  RelatedOutcomes Error.Similar R

theorem SimilarOutcomes.refl {α : Type} (outcome : Except Error α) :
    SimilarOutcomes Eq outcome outcome := by
  cases outcome with
  | ok a => exact .ok rfl
  | error e => exact .error (.refl e)

namespace Value

variable {v w : Value}

theorem Similar.lookup {path key default other : Value} (h : v.Similar w) (hpath : path.Similar key)
    (hdefault : default.Similar other) :
    SimilarOutcomes Similar (v.lookup path default) (w.lookup key other) := by
  rw [Value.lookup, Value.lookup, hpath.pathOf_eq]
  refine (SimilarOutcomes.refl (key.pathOf "var")).bind fun path _ hsame => ?_
  subst hsame
  exact .ok (rel_getD (h.resolve? path) hdefault)

theorem Similar.missing {paths keys : List Value} (h : v.Similar w)
    (hpaths : List.Forall₂ Similar paths keys) :
    SimilarOutcomes (List.Forall₂ Similar) (v.missing paths) (w.missing keys) := by
  induction hpaths with
  | nil => exact .ok .nil
  | @cons path key paths keys hpath _ ih =>
      rw [Value.missing, Value.missing, hpath.pathOf_eq]
      refine (SimilarOutcomes.refl (key.pathOf "missing")).bind fun path _ hsame => ?_
      subst hsame
      refine ih.bind fun absent others habsent => .ok ?_
      rw [h.isMissing_eq path]
      split
      · exact .cons hpath habsent
      · exact habsent

end Value

namespace Builtin

section Operands

variable {vs ws : List Value} (h : List.Forall₂ Value.Similar vs ws)

include h

theorem argument_similar (i : Nat) : (argument vs i).Similar (argument ws i) :=
  rel_getD (rel_getElem? h i) (.refl .null)

/-! ### Access -/

theorem pathOperands_similar : List.Forall₂ Value.Similar (pathOperands vs) (pathOperands ws) := by
  cases h with
  | nil => exact .nil
  | cons hfirst hrest =>
      cases hfirst.parts with
      | array hpaths => exact hpaths
      | _ => exact .cons hfirst hrest

theorem var_similar {d₁ d₂ : Value} (hdata : d₁.Similar d₂) :
    SimilarOutcomes Value.Similar (var vs d₁) (var ws d₂) :=
  hdata.lookup (argument_similar h 0) (argument_similar h 1)

theorem missing_similar {d₁ d₂ : Value} (hdata : d₁.Similar d₂) :
    SimilarOutcomes Value.Similar (missing vs d₁) (missing ws d₂) :=
  (hdata.missing (pathOperands_similar h)).bind fun _ _ habsent => .ok (.array habsent)

theorem missingSome_similar {d₁ d₂ : Value} (hdata : d₁.Similar d₂) :
    SimilarOutcomes Value.Similar (missingSome vs d₁) (missingSome ws d₂) := by
  have hpaths := argument_similar h 1
  rw [missingSome, missingSome, (argument_similar h 0).toNumber_eq]
  generalize argument vs 1 = paths, argument ws 1 = others at hpaths
  cases hpaths.parts with
  | array hitems =>
      refine (hdata.missing hitems).bind fun absent others habsent => .ok (.array ?_)
      rw [hitems.length_eq, habsent.length_eq]
      split
      · exact .nil
      · exact habsent
  | _ => exact .error (.refl _)

/-! ### Tests -/

theorem isTrue_eq : isTrue vs = isTrue ws := (argument_similar h 0).truthy_eq

theorem related_eq {relation : Value → Value → Bool}
    (hrelation : ∀ {v w x y : Value}, v.Similar w → x.Similar y → relation v x = relation w y) :
    related relation vs = related relation ws :=
  hrelation (argument_similar h 0) (argument_similar h 1)

theorem chained_eq {relation : Value → Value → Bool}
    (hrelation : ∀ {v w x y : Value}, v.Similar w → x.Similar y → relation v x = relation w y) :
    chained relation vs = chained relation ws := by
  rw [chained, chained, related_eq h hrelation, h.length_eq,
    hrelation (argument_similar h 1) (argument_similar h 2)]

/-! ### Arithmetic -/

theorem numberArgument_eq (i : Nat) : numberArgument vs i = numberArgument ws i :=
  (argument_similar h i).toNumber_eq

theorem map_toNumber_eq : vs.map Value.toNumber = ws.map Value.toNumber :=
  map_eq_of_forall₂ h fun _ _ _ hvw => hvw.toNumber_eq

theorem multiply_eq : multiply vs = multiply ws := by
  rw [multiply, multiply, numberArgument_eq h, map_toNumber_eq (List.forall₂_drop 1 h)]

theorem subtract_eq : subtract vs = subtract ws := by
  rw [subtract, subtract, h.length_eq, numberArgument_eq h, numberArgument_eq h]

/-! ### Texts and arrays -/

theorem cat_eq : cat vs = cat ws := by
  rw [cat, cat, map_eq_of_forall₂ h fun _ _ _ hvw => hvw.toText_eq]

theorem merge_similar : List.Forall₂ Value.Similar (merge vs) (merge ws) := by
  refine List.rel_flatMap h fun v w hvw => ?_
  cases hvw.parts with
  | array hitems => exact hitems
  | _ => exact .cons hvw .nil

theorem isIn_eq : isIn vs = isIn ws := by
  have hneedle := argument_similar h 0
  have hhay := argument_similar h 1
  rw [isIn, isIn, hneedle.toText_eq]
  generalize argument vs 1 = hay, argument ws 1 = other at hhay
  cases hhay.parts with
  | array hitems =>
      have hequal := map_eq_of_forall₂ hitems fun v _ w hvw => hvw.looseEq_eq hneedle
      simpa [List.any_map] using congrArg (fun found => found.any id) hequal
  | _ => rfl

end Operands

theorem position_similar (what : String) {v w : Value} (h : v.Similar w) :
    SimilarOutcomes Eq (position what v) (position what w) := by
  rw [position, position, h.toNumber_eq]
  split
  · exact .error (.notNumeric what h)
  · exact .ok rfl

theorem bounds_similar (size : Nat) {start length other partner : Value} (hstart : start.Similar other)
    (hlength : length.Similar partner) :
    SimilarOutcomes Eq (bounds size start length) (bounds size other partner) := by
  rw [bounds, bounds]
  refine (position_similar "start" hstart).bind fun start _ hstart => ?_
  subst hstart
  cases hlength.parts with
  | null => exact .ok rfl
  | _ =>
      refine (position_similar "length" hlength).bind fun length _ hlength => ?_
      subst hlength
      exact .ok rfl

theorem substr?_similar {vs ws : List Value} (h : List.Forall₂ Value.Similar vs ws) :
    SimilarOutcomes Eq (substr? vs) (substr? ws) := by
  rw [substr?, substr?, (argument_similar h 0).toText_eq]
  refine (bounds_similar _ (argument_similar h 1) (argument_similar h 2)).bind fun b _ hb => ?_
  subst hb
  exact .ok rfl

/-- What the body of `reduce` sees of similar values is similar. -/
theorem reduction_similar {v w accumulator other : Value} (h : v.Similar w)
    (haccumulator : accumulator.Similar other) :
    (reduction v accumulator).Similar (reduction w other) := by
  have hkeyed : ∀ {v accumulator : Value}, v.Keyed → accumulator.Keyed →
      (reduction v accumulator).Keyed := by
    intro v accumulator hv haccumulator
    refine .object (by simp [Entries.Distinct, Entries.keys]) fun key u hu => ?_
    simp only [List.mem_cons, Prod.mk.injEq, List.not_mem_nil, or_false] at hu
    rcases hu with ⟨_, rfl⟩ | ⟨_, rfl⟩
    · exact hv
    · exact haccumulator
  have hcurrent := Value.Similar.member [] _ (hkeyed h.keyed_left haccumulator.keyed_left) h
  have hrest := Value.Similar.member [("current", w)] []
    (hkeyed h.keyed_right haccumulator.keyed_left) haccumulator
  exact hcurrent.trans hrest

end Builtin

end JsonRules
