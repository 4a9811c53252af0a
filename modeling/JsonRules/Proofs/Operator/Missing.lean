import JsonRules.Proofs.Number.Whole
import JsonRules.Builtin.Access

/-!
# Missing paths

`missing` gives the paths under which `var` finds null when null is the default, and `missing_some` the
same unless as many of the others as it asks for are there.  Both refuse containers among the paths.
-/

namespace JsonRules

namespace Value

variable {data : Value} {paths : List Value}

/-- Containers are no paths. -/
def isContainer : Value → Bool
  | array _ => true
  | object _ => true
  | _ => false

/-- There is nothing under the path or null. -/
def lacks (data path : Value) : Bool :=
  match data.lookup path .null with
  | .ok v => v.isNull
  | .error _ => false

/-- The number of the paths under which there is something else. -/
def present (data : Value) (paths : List Value) : Nat := paths.countP fun path => !data.lacks path

theorem isNull_iff {v : Value} : v.isNull = true ↔ v = .null := by
  cases v <;> simp [isNull]

theorem lacks_iff {path : Value} : data.lacks path = true ↔ data.lookup path .null = .ok .null := by
  rw [lacks]
  cases data.lookup path .null with
  | error e => simp
  | ok v => simp [isNull_iff]

theorem pathOf_container {path : Value} (h : path.isContainer = true) (operator : String) :
    path.pathOf operator = .error (.invalidPath operator path.typeName) := by
  cases path with
  | array | object => rfl
  | _ => cases h

theorem exists_pathOf {path : Value} (h : path.isContainer = false) :
    ∃ key, ∀ operator, path.pathOf operator = .ok key := by
  cases path with
  | array | object => cases h
  | _ => exact ⟨_, fun _ => rfl⟩

theorem isMissing_eq (data : Value) (key : String) :
    data.isMissing key = ((data.resolve? key).getD .null).isNull := by
  rw [isMissing]
  cases data.resolve? key with
  | none => rfl
  | some v => rfl

theorem missing_cons_container {path : Value} (h : path.isContainer = true) (rest : List Value) :
    data.missing (path :: rest) = .error (.invalidPath "missing" path.typeName) := by
  rw [missing, pathOf_container h]
  rfl

theorem missing_cons_path {path : Value} (h : path.isContainer = false) (rest : List Value) :
    data.missing (path :: rest) =
      (data.missing rest).map fun absent => if data.lacks path then path :: absent else absent := by
  obtain ⟨key, hkey⟩ := exists_pathOf h
  have hlacks : data.lacks path = data.isMissing key := by
    rw [lacks, lookup, hkey, isMissing_eq]
    rfl
  rw [missing, hkey, hlacks]
  rfl

/-- The first container is refused; without one, the paths that lead nowhere or to null are kept. -/
theorem missing_eq (data : Value) (paths : List Value) :
    data.missing paths =
      match paths.find? isContainer with
      | some path => .error (.invalidPath "missing" path.typeName)
      | none => .ok (paths.filter data.lacks) := by
  induction paths with
  | nil => rfl
  | cons path rest ih =>
      cases hpath : path.isContainer with
      | true => rw [missing_cons_container hpath, List.find?_cons_of_pos hpath]
      | false =>
          rw [missing_cons_path hpath, ih, List.find?_cons_of_neg (by simp [hpath]), List.filter_cons]
          cases rest.find? isContainer with
          | some other => rfl
          | none => rfl

theorem missing_eq_error_iff {e : Error} :
    data.missing paths = .error e ↔
      ∃ path, paths.find? isContainer = some path ∧ e = .invalidPath "missing" path.typeName := by
  rw [missing_eq]
  cases paths.find? isContainer with
  | none => simp
  | some path => simp [eq_comm]

theorem missing_fails_iff :
    (∃ e, data.missing paths = .error e) ↔ ∃ path ∈ paths, path.isContainer = true := by
  rw [← List.find?_isSome, Option.isSome_iff_exists]
  constructor
  · rintro ⟨e, he⟩
    obtain ⟨path, hpath, _⟩ := missing_eq_error_iff.mp he
    exact ⟨path, hpath⟩
  · rintro ⟨path, hpath⟩
    exact ⟨_, missing_eq_error_iff.mpr ⟨path, hpath, rfl⟩⟩

theorem missing_eq_ok_iff {absent : List Value} :
    data.missing paths = .ok absent ↔
      (∀ path ∈ paths, path.isContainer = false) ∧ absent = paths.filter data.lacks := by
  rw [missing_eq]
  cases hfind : paths.find? isContainer with
  | some path =>
      constructor
      · intro h
        cases h
      · rintro ⟨hpaths, _⟩
        have hpath := List.find?_some hfind
        rw [hpaths path (List.mem_of_find?_eq_some hfind)] at hpath
        cases hpath
  | none =>
      have hpaths : ∀ path ∈ paths, path.isContainer = false := by simpa using hfind
      constructor
      · intro h
        exact ⟨hpaths, (Except.ok.inj h).symm⟩
      · rintro ⟨_, rfl⟩
        rfl

theorem missing_append {ps qs as bs : List Value} (hp : data.missing ps = .ok as)
    (hq : data.missing qs = .ok bs) : data.missing (ps ++ qs) = .ok (as ++ bs) := by
  obtain ⟨hps, rfl⟩ := missing_eq_ok_iff.mp hp
  obtain ⟨hqs, rfl⟩ := missing_eq_ok_iff.mp hq
  rw [missing_eq_ok_iff, List.filter_append, List.forall_mem_append]
  exact ⟨⟨hps, hqs⟩, rfl⟩

theorem length_eq_present_add (data : Value) (paths : List Value) :
    paths.length = data.present paths + (paths.filter data.lacks).length := by
  rw [List.length_eq_countP_add_countP data.lacks, List.countP_eq_length_filter, Nat.add_comm, present]
  simp

end Value

namespace Builtin

variable {data : Value} {args : List Value} {paths : List Value}

theorem missing_array (paths rest : List Value) (data : Value)
    (hhead : ∀ items, paths.head? ≠ some (.array items)) :
    missing (.array paths :: rest) data = missing paths data := by
  have hoperands : pathOperands paths = paths := by
    cases paths with
    | nil => rfl
    | cons path others =>
        cases path with
        | array items => exact absurd rfl (hhead items)
        | _ => rfl
  rw [missing, missing, hoperands]
  rfl

theorem missingSome_eq (hpaths : argument args 1 = .array paths) :
    missingSome args data = (data.missing paths).map fun absent =>
      .array (if (argument args 0).toNumber.le (.ofNat (paths.length - absent.length)) then []
        else absent) := by
  rw [missingSome, hpaths]
  rfl

theorem missingSome_of_paths (hpaths : argument args 1 = .array paths)
    (h : ∀ path ∈ paths, path.isContainer = false) :
    missingSome args data =
      .ok (.array (if (argument args 0).toNumber.le (.ofNat (data.present paths)) then []
        else paths.filter data.lacks)) := by
  have hpresent : paths.length - (paths.filter data.lacks).length = data.present paths := by
    have hlength := data.length_eq_present_add paths
    omega
  rw [missingSome_eq hpaths, Value.missing_eq_ok_iff.mpr ⟨h, rfl⟩, Except.map, hpresent]

/-- The count is compared as a number, which is exact unless it and what is asked for are out of range. -/
theorem exists_missingSome (args : List Value) (data : Value) (hpaths : argument args 1 = .array paths)
    (h : ∀ path ∈ paths, path.isContainer = false) :
    let need := (argument args 0).toNumber
    let present := data.present paths
    ∃ absent, data.missing paths = .ok absent ∧ absent.length ≤ paths.length ∧
      paths.length - absent.length = present ∧
      missingSome args data = .ok (.array (if need.le (.ofNat present) then [] else absent)) ∧
      (need = .nan → missingSome args data = .ok (.array absent)) ∧
      ∀ a, need.place? = some a → present ≤ wholeBound ∨ a ≤ wholeBound * unitsPerOne →
        missingSome args data = .ok (.array (if a ≤ present * unitsPerOne then [] else absent)) := by
  intro need present
  have hlength := data.length_eq_present_add paths
  have hresult : missingSome args data =
      .ok (.array (if need.le (.ofNat present) then [] else paths.filter data.lacks)) :=
    missingSome_of_paths hpaths h
  refine ⟨_, Value.missing_eq_ok_iff.mpr ⟨h, rfl⟩, by omega, by omega, hresult, fun hnan => ?_,
    fun a ha hrange => ?_⟩
  · have hle : ¬need.le (.ofNat present) = true := fun hle => Number.ne_nan_of_le hle hnan
    rw [hresult, if_neg hle]
  · rw [hresult]
    simp only [Number.le_ofNat_iff ha hrange]

/-- What asks for fewer paths is content with what was enough. -/
theorem missingSome_mono {less : List Value} (h : missingSome args data = .ok (.array []))
    (hpaths : argument args 1 = .array paths) (hpaths' : argument less 1 = .array paths)
    (hle : (argument less 0).toNumber.le (argument args 0).toNumber = true) :
    missingSome less data = .ok (.array []) := by
  rw [missingSome_eq hpaths] at h
  rw [missingSome_eq hpaths']
  cases hmissing : data.missing paths with
  | error e =>
      rw [hmissing] at h
      cases h
  | ok absent =>
      rw [hmissing] at h
      simp only [Except.map, Except.ok.injEq, Value.array.injEq, ite_eq_left_iff] at h ⊢
      intro hless
      apply h
      intro hneed
      exact hless (Number.le_trans hle hneed)

/-- The paths that `missing` gives are those under which `var` finds null, and it fails only for a
container among them.  It may be given the paths in two parts, and one by one.  `missing_some` gives the
same paths unless its first operand is a number that is at most the number of the others; then it gives
none, and none for a smaller number. -/
theorem missing_laws (data : Value) :
    (∀ paths, (∃ e, data.missing paths = .error e) ↔ ∃ path ∈ paths, path.isContainer = true) ∧
    (∀ path, data.lacks path = true ↔ data.lookup path .null = .ok .null) ∧
    (∀ paths absent, data.missing paths = .ok absent → absent = paths.filter data.lacks) ∧
    (∀ ps qs as bs, data.missing ps = .ok as → data.missing qs = .ok bs →
      data.missing (ps ++ qs) = .ok (as ++ bs)) ∧
    (∀ paths rest, (∀ items, paths.head? ≠ some (.array items)) →
      missing (.array paths :: rest) data = missing paths data) ∧
    (∀ args paths, argument args 1 = .array paths → (∀ path ∈ paths, path.isContainer = false) →
      let need := (argument args 0).toNumber
      let present := data.present paths
      ∃ absent, data.missing paths = .ok absent ∧ absent.length ≤ paths.length ∧
        paths.length - absent.length = present ∧
        missingSome args data = .ok (.array (if need.le (.ofNat present) then [] else absent)) ∧
        (need = .nan → missingSome args data = .ok (.array absent)) ∧
        ∀ a, need.place? = some a → present ≤ wholeBound ∨ a ≤ wholeBound * unitsPerOne →
          missingSome args data = .ok (.array (if a ≤ present * unitsPerOne then [] else absent))) ∧
    ∀ args less paths, argument args 1 = .array paths → argument less 1 = .array paths →
      (argument less 0).toNumber.le (argument args 0).toNumber = true →
      missingSome args data = .ok (.array []) → missingSome less data = .ok (.array []) := by
  refine ⟨fun _ => Value.missing_fails_iff, fun _ => Value.lacks_iff, fun paths absent h => ?_,
    fun _ _ _ _ => Value.missing_append, fun paths rest => missing_array paths rest data,
    fun args _ => exists_missingSome args data, fun args less paths hargs hless hle h => ?_⟩
  · exact (Value.missing_eq_ok_iff.mp h).2
  · exact missingSome_mono h hargs hless hle

/-- One path is there twice, which is enough for zero and for less than that, but not for not-a-number. -/
theorem missing_laws_repeated :
    let data : Value := .object [("a", .bool true), ("n", .null)]
    let paths : List Value := [.string "a", .string "n", .string "a", .string "x"]
    data.missing paths = .ok [.string "n", .string "x"] ∧
      missingSome [.number .nan, .array paths] data = .ok (.array [.string "n", .string "x"]) ∧
      missingSome [.number .zero, .array paths] data = .ok (.array []) ∧
      missingSome [.number (.infinite true), .array paths] data = .ok (.array []) := by
  intro data paths
  have hpaths : ∀ path ∈ paths, path.isContainer = false := by
    intro path hpath
    simp only [paths, List.mem_cons, List.not_mem_nil, or_false] at hpath
    rcases hpath with rfl | rfl | rfl | rfl <;> rfl
  obtain ⟨_, _, hfilter, _, _, hsome, hmono⟩ := missing_laws data
  obtain ⟨absent, hmissing, _, _, _, hnan, _⟩ := hsome [.number .nan, .array paths] paths rfl hpaths
  obtain rfl : absent = [.string "n", .string "x"] := hfilter paths absent hmissing
  obtain ⟨_, _, _, _, _, _, hexact⟩ := hsome [.number .zero, .array paths] paths rfl hpaths
  have hpos : (0 : Int) ≤ data.present paths * unitsPerOne :=
    Int.mul_nonneg (Int.natCast_nonneg _) (Int.natCast_nonneg _)
  have hzero := hexact 0 rfl (.inl (by decide))
  rw [if_pos hpos] at hzero
  exact ⟨hmissing, hnan rfl, hzero, hmono _ _ paths rfl rfl rfl hzero⟩

end Builtin

end JsonRules
