import JsonRules.Value.Path

/-!
# Descending along dotted paths

A path joined by a dot leads where its second part leads from where the first one does.  Joined from
steps without dots it leads where the steps do, one after the other: into an object by key and into an
array by decimal position.  The exception is the empty path, which stays where it is, although it is the
text of a single empty step.
-/

namespace JsonRules

namespace Path

theorem splitAtDots_eq_splitOn (cs : List Char) : splitAtDots cs = cs.splitOn '.' := by
  induction cs with
  | nil => rfl
  | cons c rest ih =>
      rw [splitAtDots, List.splitOn_cons_eq_if_modifyHead, ih]
      by_cases hc : c = '.'
      · rw [if_pos hc, if_pos (beq_iff_eq.mpr hc)]
      · rw [if_neg hc, if_neg (by simpa using hc)]
        cases hparts : rest.splitOn '.' with
        | nil => exact absurd hparts (List.splitOn_ne_nil _ _)
        | cons part parts => rfl

theorem steps_append (p q : String) : steps (p ++ "." ++ q) = steps p ++ steps q := by
  have htext : (p ++ "." ++ q).toList = p.toList ++ '.' :: q.toList := by simp
  rw [steps, htext, splitAtDots_eq_splitOn, List.splitOn_append_cons_self, List.map_append]
  simp only [steps, splitAtDots_eq_splitOn]

theorem steps_intercalate {ss : List String} (hne : ss ≠ []) (hdots : ∀ s ∈ ss, '.' ∉ s.toList) :
    steps (".".intercalate ss) = ss := by
  have hparts : (['.'].intercalate (ss.map String.toList)).splitOn '.' = ss.map String.toList := by
    apply List.splitOn_intercalate
    · intro part hpart
      obtain ⟨s, hs, rfl⟩ := List.mem_map.mp hpart
      exact hdots s hs
    · simpa using hne
  have htext : (".".intercalate ss).toList = ['.'].intercalate (ss.map String.toList) :=
    String.toList_intercalate
  rw [steps, htext, splitAtDots_eq_splitOn, hparts, List.map_map]
  simp

/-- A joined path is empty only if there are no steps or a single empty one. -/
theorem intercalate_ne_empty {ss : List String} (hne : ss ≠ []) (hempty : ss ≠ [""]) :
    ".".intercalate ss ≠ "" := by
  cases ss with
  | nil => exact absurd rfl hne
  | cons s rest =>
      cases rest with
      | nil => simpa using hempty
      | cons next rest =>
          intro h
          have hlength := congrArg String.length h
          simp [String.intercalate_cons_cons] at hlength

/-- The step is a decimal number below the bound, with or without a plus in front. -/
inductive Denotes : (step : String) → (position : Nat) → Prop
  | digits {step : String} {digits : List Char} (htext : step.toList = digits ∨ step.toList = '+' :: digits)
      (hne : digits ≠ []) (hdigits : ∀ c ∈ digits, c.isDigit)
      (hbound : Nat.ofDigitChars 10 digits 0 < positionBound) :
      Denotes step (Nat.ofDigitChars 10 digits 0)

theorem positionDigits_eq {cs digits : List Char} (htext : cs = digits ∨ cs = '+' :: digits)
    (hdigits : ∀ c ∈ digits, c.isDigit) : positionDigits cs = digits := by
  rcases htext with rfl | rfl
  · rw [positionDigits]
    rintro rest rfl
    exact absurd (hdigits '+' List.mem_cons_self) (by decide)
  · rfl

theorem eq_or_eq_of_positionDigits (cs : List Char) :
    cs = positionDigits cs ∨ cs = '+' :: positionDigits cs := by
  fun_cases positionDigits cs with
  | case1 digits => exact .inr rfl
  | case2 => exact .inl rfl

theorem position?_eq_some_iff {step : String} {i : Nat} : position? step = some i ↔ Denotes step i := by
  rw [position?]
  constructor
  · intro h
    obtain ⟨⟨hne, hdigits, hbound⟩, hvalue⟩ := Option.ite_none_right_eq_some.mp h
    cases hvalue
    exact .digits (eq_or_eq_of_positionDigits step.toList) hne (List.all_eq_true.mp hdigits) hbound
  · rintro ⟨htext, hne, hdigits, hbound⟩
    rw [positionDigits_eq htext hdigits]
    exact if_pos ⟨hne, List.all_eq_true.mpr hdigits, hbound⟩

theorem denotes_repr {i : Nat} (h : i < positionBound) : Denotes i.repr i := by
  have hvalue : Nat.ofDigitChars 10 (Nat.toDigits 10 i) 0 = i := Nat.ofDigitChars_ten_toDigits
  have hdenotes : Denotes i.repr (Nat.ofDigitChars 10 (Nat.toDigits 10 i) 0) := by
    apply Denotes.digits (.inl (by simp))
    · simp
    · exact fun c hc => Nat.isDigit_of_mem_toDigits (by decide) (by decide) hc
    · rwa [hvalue]
  rwa [hvalue] at hdenotes

theorem dot_notMem_repr (i : Nat) : '.' ∉ i.repr.toList := by
  intro h
  have hdigit : '.' ∈ Nat.toDigits 10 i := by simpa using h
  exact absurd (Nat.isDigit_of_mem_toDigits (by decide) (by decide) hdigit) (by decide)

end Path

namespace Value

/-- From the first value the steps lead to the second. -/
inductive Leads : Value → (steps : List String) → Value → Prop
  | here (v : Value) : Leads v [] v
  | member {members : Entries Value} {key : String} {v w : Value} {steps : List String}
      (h : members.lookup key = some v) (hrest : Leads v steps w) :
      Leads (object members) (key :: steps) w
  | element {items : List Value} {step : String} {i : Nat} {v w : Value} {steps : List String}
      (hstep : Path.Denotes step i) (h : items[i]? = some v) (hrest : Leads v steps w) :
      Leads (array items) (step :: steps) w

/-- The second value lies in the first under keys without dots and positions in arrays. -/
inductive Nested : Value → (steps : List String) → Value → Prop
  | here (v : Value) : Nested v [] v
  | member {members : Entries Value} {key : String} {v w : Value} {steps : List String}
      (hkeys : members.Distinct) (hkey : '.' ∉ key.toList) (h : (key, v) ∈ members)
      (hrest : Nested v steps w) : Nested (object members) (key :: steps) w
  | element {items : List Value} {i : Nat} {v w : Value} {steps : List String}
      (hbound : i < Path.positionBound) (h : items[i]? = some v) (hrest : Nested v steps w) :
      Nested (array items) (i.repr :: steps) w

theorem descend?_append (v : Value) (steps others : List String) :
    v.descend? (steps ++ others) = (v.descend? steps).bind (descend? others) := by
  induction steps generalizing v with
  | nil => rfl
  | cons step rest ih =>
      rw [List.cons_append, descend?, descend?, Option.bind_assoc]
      exact congrArg _ (funext ih)

theorem descend?_eq_some_iff {v w : Value} {steps : List String} :
    v.descend? steps = some w ↔ v.Leads steps w := by
  constructor
  · intro h
    induction steps generalizing v with
    | nil =>
        obtain rfl := Option.some.inj h
        exact .here v
    | cons step rest ih =>
        obtain ⟨u, hu, hrest⟩ := Option.bind_eq_some_iff.mp h
        cases v with
        | object members => exact .member hu (ih hrest)
        | array items =>
            obtain ⟨i, hi, hitem⟩ := Option.bind_eq_some_iff.mp hu
            exact .element (Path.position?_eq_some_iff.mp hi) hitem (ih hrest)
        | _ => cases hu
  · intro h
    induction h with
    | here v => rfl
    | member h _ ih => exact Option.bind_eq_some_iff.mpr ⟨_, h, ih⟩
    | element hstep h _ ih =>
        have hposition := Path.position?_eq_some_iff.mpr hstep
        exact Option.bind_eq_some_iff.mpr ⟨_, Option.bind_eq_some_iff.mpr ⟨_, hposition, h⟩, ih⟩

theorem Nested.leads {v w : Value} {steps : List String} (h : v.Nested steps w) :
    v.Leads steps w ∧ ∀ step ∈ steps, '.' ∉ step.toList := by
  induction h with
  | here v => exact ⟨.here v, fun _ hstep => nomatch hstep⟩
  | member hkeys hkey h _ ih =>
      refine ⟨.member ((Entries.lookup_eq_some_iff hkeys).mpr h) ih.1, ?_⟩
      exact List.forall_mem_cons.mpr ⟨hkey, ih.2⟩
  | element hbound h _ ih =>
      refine ⟨.element (Path.denotes_repr hbound) h ih.1, ?_⟩
      exact List.forall_mem_cons.mpr ⟨Path.dot_notMem_repr _, ih.2⟩

theorem resolve?_of_ne_empty (data : Value) {path : String} (h : path ≠ "") :
    data.resolve? path = data.descend? (Path.steps path) := by
  rw [resolve?, if_neg (by simpa using h)]

theorem resolve?_intercalate (data : Value) {steps : List String} (hempty : steps ≠ [""])
    (hdots : ∀ step ∈ steps, '.' ∉ step.toList) :
    data.resolve? (".".intercalate steps) = data.descend? steps := by
  by_cases hne : steps = []
  · subst hne
    rfl
  · rw [resolve?_of_ne_empty data (Path.intercalate_ne_empty hne hempty),
      Path.steps_intercalate hne hdots]

/-- Paths that are not empty compose, a joined path leads where its steps do, and so each value that lies
under keys without dots and positions is found. -/
theorem path_laws (data : Value) :
    (∀ p q : String, p ≠ "" → q ≠ "" →
      data.resolve? (p ++ "." ++ q) = (data.resolve? p).bind (·.resolve? q)) ∧
    (∀ steps, steps ≠ [] → steps ≠ [""] → (∀ step ∈ steps, '.' ∉ step.toList) →
      ∀ v, data.resolve? (".".intercalate steps) = some v ↔ data.Leads steps v) ∧
    ∀ steps v, steps ≠ [""] → data.Nested steps v →
      data.resolve? (".".intercalate steps) = some v := by
  refine ⟨fun p q hp hq => ?_, fun steps hne hempty hdots v => ?_, fun steps v hempty h => ?_⟩
  · have hpq : p ++ "." ++ q ≠ "" := by
      intro h
      have hlength := congrArg String.length h
      simp at hlength
    rw [resolve?_of_ne_empty data hpq, resolve?_of_ne_empty data hp, Path.steps_append,
      descend?_append]
    exact congrArg _ (funext fun v => (resolve?_of_ne_empty v hq).symm)
  · rw [resolve?_intercalate data hempty hdots]
    exact descend?_eq_some_iff
  · obtain ⟨hleads, hdots⟩ := h.leads
    rw [resolve?_intercalate data hempty hdots]
    exact descend?_eq_some_iff.mpr hleads

/-- A position may have a plus, and a step may be empty. -/
theorem path_laws_plus : ∃ (data v : Value) (steps : List String),
    steps ≠ [] ∧ steps ≠ [""] ∧ (∀ step ∈ steps, '.' ∉ step.toList) ∧ data.Leads steps v ∧
      ".".intercalate steps = "a.+1." ∧ data.resolve? "a.+1." = some v ∧
      data.resolve? "a" = some (array [null, object [("", v)]]) ∧
      (array [null, object [("", v)]]).resolve? "+1." = some v := by
  let data := object [("a", array [null, object [("", bool true)]])]
  have hleads : data.Leads ["a", "+1", ""] (bool true) := by
    apply Leads.member rfl
    apply Leads.element (i := 1) (Path.position?_eq_some_iff.mp (by decide)) rfl
    exact .member rfl (.here _)
  have hdots : ∀ step ∈ ["a", "+1", ""], '.' ∉ step.toList := by decide
  have hpath := ((path_laws data).2.1 _ (by decide) (by decide) hdots _).mpr hleads
  have hcomposed := (path_laws data).1 "a" "+1." (by decide) (by decide)
  exact ⟨data, _, _, by decide, by decide, hdots, hleads, rfl, hpath, rfl, hcomposed.symm.trans hpath⟩

end Value

end JsonRules
