import JsonRules.Proofs.Lifting
import JsonRules.Value.Basic

/-!
# Values up to the order of members

A value is reordered by putting the members of objects anywhere inside it in another order.  If no
object has a key twice, what comes out has the same parts: leaves are kept, arrays correspond element by
element, and objects have corresponding values under the same keys.
-/

namespace JsonRules

/-- The same keys, none of them twice, with related values under them. -/
structure Entries.Related {α β : Type} (R : α → β → Prop) (members : Entries α)
    (others : Entries β) : Prop where
  distinct_left : members.Distinct
  distinct_right : others.Distinct
  length_eq : members.length = others.length
  exists_right : ∀ key v, (key, v) ∈ members → ∃ w, (key, w) ∈ others ∧ R v w
  exists_left : ∀ key w, (key, w) ∈ others → ∃ v, (key, v) ∈ members ∧ R v w

namespace Entries.Related

variable {α β γ : Type} {R : α → β → Prop} {S : β → γ → Prop} {members : Entries α}
  {others : Entries β}

theorem of_perm {R : α → α → Prop} {others : Entries α} (hdistinct : members.Distinct)
    (hperm : members.Perm others) (h : ∀ key v, (key, v) ∈ members → R v v) :
    members.Related R others where
  distinct_left := hdistinct
  distinct_right := hdistinct.perm hperm
  length_eq := hperm.length_eq
  exists_right key v hv := ⟨v, hperm.mem_iff.mp hv, h key v hv⟩
  exists_left key v hv := ⟨v, hperm.mem_iff.mpr hv, h key v (hperm.mem_iff.mpr hv)⟩

theorem replace {R : α → α → Prop} {before after : Entries α} {key : String} {v w : α}
    (hdistinct : Entries.Distinct (before ++ (key, v) :: after)) (hvw : R v w)
    (h : ∀ other u, (other, u) ∈ before ++ (key, v) :: after → R u u) :
    Entries.Related R (before ++ (key, v) :: after) (before ++ (key, w) :: after) where
  distinct_left := hdistinct
  distinct_right := by
    simpa [Entries.Distinct, Entries.keys] using hdistinct
  length_eq := by simp
  exists_right other u hu := by
    have hsame := h other u hu
    simp only [List.mem_append, List.mem_cons, Prod.mk.injEq] at hu ⊢
    rcases hu with hu | ⟨rfl, rfl⟩ | hu
    · exact ⟨u, .inl hu, hsame⟩
    · exact ⟨w, .inr (.inl ⟨rfl, rfl⟩), hvw⟩
    · exact ⟨u, .inr (.inr hu), hsame⟩
  exists_left other u hu := by
    simp only [List.mem_append, List.mem_cons, Prod.mk.injEq] at hu h ⊢
    rcases hu with hu | ⟨rfl, rfl⟩ | hu
    · exact ⟨u, .inl hu, h other u (.inl hu)⟩
    · exact ⟨v, .inr (.inl ⟨rfl, rfl⟩), hvw⟩
    · exact ⟨u, .inr (.inr hu), h other u (.inr (.inr hu))⟩

theorem trans {T : α → γ → Prop} (hT : ∀ u v w, R u v → S v w → T u w) {last : Entries γ}
    (h : members.Related R others) (h' : others.Related S last) : members.Related T last where
  distinct_left := h.distinct_left
  distinct_right := h'.distinct_right
  length_eq := h.length_eq.trans h'.length_eq
  exists_right key u hu := by
    obtain ⟨v, hv, huv⟩ := h.exists_right key u hu
    obtain ⟨w, hw, hvw⟩ := h'.exists_right key v hv
    exact ⟨w, hw, hT u v w huv hvw⟩
  exists_left key w hw := by
    obtain ⟨v, hv, hvw⟩ := h'.exists_left key w hw
    obtain ⟨u, hu, huv⟩ := h.exists_left key v hv
    exact ⟨u, hu, hT u v w huv hvw⟩

theorem lookup_right (h : members.Related R others) {key : String} {v : α}
    (hv : members.lookup key = some v) : ∃ w, others.lookup key = some w ∧ R v w := by
  obtain ⟨w, hw, hvw⟩ := h.exists_right key v ((lookup_eq_some_iff h.distinct_left).mp hv)
  exact ⟨w, (lookup_eq_some_iff h.distinct_right).mpr hw, hvw⟩

theorem lookup_left (h : members.Related R others) {key : String} {w : β}
    (hw : others.lookup key = some w) : ∃ v, members.lookup key = some v ∧ R v w := by
  obtain ⟨v, hv, hvw⟩ := h.exists_left key w ((lookup_eq_some_iff h.distinct_right).mp hw)
  exact ⟨v, (lookup_eq_some_iff h.distinct_left).mpr hv, hvw⟩

theorem lookup (h : members.Related R others) (key : String) :
    Option.Rel R (members.lookup key) (others.lookup key) := by
  cases hv : members.lookup key with
  | some v =>
      obtain ⟨w, hw, hvw⟩ := h.lookup_right hv
      exact hw ▸ .some hvw
  | none =>
      cases hw : others.lookup key with
      | none => exact .none
      | some w =>
          obtain ⟨v, hv', _⟩ := h.lookup_left hw
          cases hv.symm.trans hv'

theorem of_singleton {key : String} {v : α} (h : Entries.Related R [(key, v)] others) :
    ∃ w, others = [(key, w)] ∧ R v w := by
  obtain ⟨entry, rfl⟩ := List.length_eq_one_iff.mp h.length_eq.symm
  obtain ⟨w, hw, hvw⟩ := h.exists_right key v (List.mem_singleton_self _)
  exact ⟨w, congrArg (fun entry => [entry]) (List.mem_singleton.mp hw).symm, hvw⟩

end Entries.Related

namespace Value

/-- Induction over a value with the statement for each element or member inside. -/
@[elab_as_elim, induction_eliminator]
theorem inductionOn {motive : Value → Prop} (null : motive null)
    (bool : ∀ b, motive (bool b)) (number : ∀ x, motive (number x))
    (string : ∀ s, motive (string s))
    (array : ∀ items, (∀ v ∈ items, motive v) → motive (array items))
    (object : ∀ members, (∀ key v, (key, v) ∈ members → motive v) → motive (object members))
    (v : Value) : motive v := by
  -- The recursor has further motives, for elements, for members and for a single member.
  refine @Value.rec motive (fun items => ∀ v ∈ items, motive v)
    (fun members => ∀ key v, (key, v) ∈ members → motive v) (fun entry => motive entry.2)
    null bool number string array object ?_ ?_ ?_ ?_ (fun _ _ h => h) v
  · intro v hv
    cases hv
  · intro v items ihv ihitems w hw
    rcases List.mem_cons.mp hw with rfl | hw
    · exact ihv
    · exact ihitems w hw
  · intro key v hv
    cases hv
  · intro entry members ihentry ihmembers key v hv
    rcases List.mem_cons.mp hv with rfl | hv
    · exact ihentry
    · exact ihmembers key v hv

/-- No object inside the value has a key twice. -/
inductive Keyed : Value → Prop
  | null : Keyed null
  | bool (b : Bool) : Keyed (bool b)
  | number (x : Number) : Keyed (number x)
  | string (s : String) : Keyed (string s)
  | array {items : List Value} (hitems : ∀ v ∈ items, v.Keyed) : Keyed (array items)
  | object {members : Entries Value} (hdistinct : members.Distinct)
      (hmembers : ∀ key v, (key, v) ∈ members → v.Keyed) : Keyed (object members)

theorem keyed_array_iff {items : List Value} : (array items).Keyed ↔ ∀ v ∈ items, v.Keyed :=
  ⟨fun | .array hitems => hitems, .array⟩

theorem keyed_object_iff {members : Entries Value} : (object members).Keyed ↔
    members.Distinct ∧ ∀ key v, (key, v) ∈ members → v.Keyed :=
  ⟨fun | .object hdistinct hmembers => ⟨hdistinct, hmembers⟩, fun h => .object h.1 h.2⟩

/-- The members of objects anywhere in the value are put in another order. -/
inductive Reordered : Value → Value → Prop
  | refl (v : Value) : Reordered v v
  | trans {u v w : Value} (h : Reordered u v) (h' : Reordered v w) : Reordered u w
  | members {members others : Entries Value} (h : members.Perm others) :
      Reordered (object members) (object others)
  | element (before after : List Value) {v w : Value} (h : Reordered v w) :
      Reordered (array (before ++ v :: after)) (array (before ++ w :: after))
  | member (before after : Entries Value) (key : String) {v w : Value} (h : Reordered v w) :
      Reordered (object (before ++ (key, v) :: after)) (object (before ++ (key, w) :: after))

/-- Two values without a key twice in an object that are the same up to the order of members. -/
structure Similar (v w : Value) : Prop where
  keyed_left : v.Keyed
  keyed_right : w.Keyed
  reordered : v.Reordered w

theorem Similar.refl {v : Value} (h : v.Keyed) : v.Similar v := ⟨h, h, .refl v⟩

theorem Similar.trans {u v w : Value} (h : u.Similar v) (h' : v.Similar w) : u.Similar w :=
  ⟨h.keyed_left, h'.keyed_right, h.reordered.trans h'.reordered⟩

/-- Two values of the same shape: the same leaf, or containers of related parts. -/
inductive Parts (R : Value → Value → Prop) : Value → Value → Prop
  | null : Parts R null null
  | bool (b : Bool) : Parts R (bool b) (bool b)
  | number (x : Number) : Parts R (number x) (number x)
  | string (s : String) : Parts R (string s) (string s)
  | array {items others : List Value} (h : List.Forall₂ R items others) :
      Parts R (array items) (array others)
  | object {members others : Entries Value} (h : members.Related R others) :
      Parts R (object members) (object others)

namespace Parts

theorem refl {v : Value} (h : v.Keyed) : Parts Similar v v := by
  cases h with
  | null => exact .null
  | bool b => exact .bool b
  | number x => exact .number x
  | string s => exact .string s
  | array hitems => exact .array (List.forall₂_same.mpr fun v hv => .refl (hitems v hv))
  | object hdistinct hmembers =>
      exact .object (.of_perm hdistinct (.refl _) fun key v hv => .refl (hmembers key v hv))

theorem trans {u v w : Value} (h : Parts Similar u v) (h' : Parts Similar v w) :
    Parts Similar u w := by
  cases h with
  | array hitems =>
      cases h' with
      | array hothers => exact .array (forall₂_trans (fun _ _ _ h h' => h.trans h') hitems hothers)
  | object hmembers =>
      cases h' with
      | object hothers =>
          exact .object (hmembers.trans (fun _ _ _ h h' => h.trans h') hothers)
  | _ => exact h'

theorem keyed_right {v w : Value} (h : Parts Similar v w) : w.Keyed := by
  cases h with
  | null => exact .null
  | bool b => exact .bool b
  | number x => exact .number x
  | string s => exact .string s
  | array h =>
      exact .array (forall_mem_of_forall₂ (fun w v h => Similar.keyed_right h) h.flip)
  | object h =>
      refine .object h.distinct_right fun key w hw => ?_
      obtain ⟨v, _, hvw⟩ := h.exists_left key w hw
      exact hvw.keyed_right

end Parts

/-- Reordering leaves the shape of a value and reorders its parts. -/
theorem Reordered.parts {v w : Value} (h : v.Reordered w) (hv : v.Keyed) : Parts Similar v w := by
  induction h with
  | refl v => exact .refl hv
  | trans _ _ ih ih' => exact (ih hv).trans (ih' (ih hv).keyed_right)
  | members hperm =>
      obtain ⟨hdistinct, hmembers⟩ := keyed_object_iff.mp hv
      exact .object (.of_perm hdistinct hperm fun key v h => .refl (hmembers key v h))
  | element before after h ih =>
      simp only [keyed_array_iff, List.forall_mem_append, List.forall_mem_cons] at hv
      obtain ⟨hbefore, hinner, hafter⟩ := hv
      refine .array (List.rel_append ?_ (.cons ⟨hinner, (ih hinner).keyed_right, h⟩ ?_))
      · exact List.forall₂_same.mpr fun v hv => .refl (hbefore v hv)
      · exact List.forall₂_same.mpr fun v hv => .refl (hafter v hv)
  | member before after key h ih =>
      obtain ⟨hdistinct, hmembers⟩ := keyed_object_iff.mp hv
      have hinner := hmembers key _ (List.mem_append_right before List.mem_cons_self)
      refine .object (.replace hdistinct ⟨hinner, (ih hinner).keyed_right, h⟩ fun key v hv => ?_)
      exact .refl (hmembers key v hv)

/-- Elements are reordered from the first one on. -/
theorem Reordered.elements {items others : List Value} (h : List.Forall₂ Reordered items others)
    (before : List Value) :
    (Value.array (before ++ items)).Reordered (Value.array (before ++ others)) := by
  induction h generalizing before with
  | nil => exact .refl _
  | @cons v w items others hvw _ ih =>
      have hrest := ih (before ++ [w])
      rw [List.append_assoc, List.append_assoc] at hrest
      exact (Reordered.element before items hvw).trans hrest

namespace Similar

variable {v w : Value}

theorem of_reordered (hv : v.Keyed) (h : v.Reordered w) : v.Similar w :=
  ⟨hv, (h.parts hv).keyed_right, h⟩

theorem parts (h : v.Similar w) : Parts Similar v w := h.reordered.parts h.keyed_left

theorem array {items others : List Value} (h : List.Forall₂ Similar items others) :
    (array items).Similar (array others) := by
  have hkeyed := forall_mem_of_forall₂ (fun v w h => Similar.keyed_left h) h
  exact of_reordered (.array hkeyed) (Reordered.elements (h.imp fun v w h => h.reordered) [])

theorem member (before after : Entries Value) {key : String}
    (hkeyed : (Value.object (before ++ (key, v) :: after)).Keyed) (h : v.Similar w) :
    (Value.object (before ++ (key, v) :: after)).Similar
      (Value.object (before ++ (key, w) :: after)) :=
  of_reordered hkeyed (.member before after key h.reordered)

end Similar

end Value

end JsonRules
