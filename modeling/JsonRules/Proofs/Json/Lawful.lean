import JsonRules.Proofs.Json.Library
import JsonRules.Proofs.Json.Reader

/-!
# The laws of the library in use

The library in use has all laws that a library is relied on for.
-/

namespace JsonRules.Json

@[simp]
theorem itemTexts_eq_map (items : List Json) : itemTexts items = items.map text :=
  eq_map_of_cons rfl (fun _ _ => rfl) items

@[simp]
theorem memberTexts_eq_map (members : Entries Json) :
    memberTexts members = members.map fun member => (member.1, text member.2) :=
  eq_map_of_cons rfl (fun _ _ => rfl) members

theorem writer_writesNumbers : writer.WritesNumbers where
  unit := rfl
  int _ := rfl
  real x hx := by
    obtain ⟨n, hstrict, hwhole, hnumber, hwrite⟩ := Number.exists_numeral_writeReal hx
    refine ⟨n, hstrict, hwhole, hnumber, ?_⟩
    rw [← hwrite]
    exact String.toList_ofList

theorem writer_writesJson : writer.WritesJson where
  toWritesNumbers := writer_writesNumbers
  bool _ := rfl
  text t := by
    have htext : (writer.text t).toList = Quoted.write t.toList := String.toList_ofList
    rw [htext]
    exact Quoted.literal_write t
  sequence _ := String.toList_ofList
  map members := by
    have hkey : ∀ key, (writer.text key).toList = writeText key := fun _ => String.toList_ofList
    simp only [hkey]
    exact String.toList_ofList

theorem library_keepsNumbers : library.KeepsNumbers where
  toReal?_ofInt _ := rfl
  exists_ofReal? x hx := ⟨.real x, if_pos hx, rfl⟩
  ofReal?_eq_none _ hx := if_neg (Bool.eq_false_iff.mp hx)

theorem library_writesAlike : library.WritesAlike where
  null := rfl
  bool _ := rfl
  int _ := rfl
  real x n hn := by
    have hkept : (if x.isFinite then some (.real x) else none) = some n := hn
    split at hkept
    · cases hkept
      rfl
    · cases hkept
  string _ := rfl
  array items := congrArg writer.sequence (itemTexts_eq_map items)
  object members := congrArg writer.map (memberTexts_eq_map members)

theorem library_readsJson : library.ReadsJson := by
  intro d text h
  have hread : library.read? text = some (ofNumerals d) := parse?_of_spelled h
  rw [hread, Option.map_some, ofNumerals, Document.map_map]
  refine congrArg (fun f => some (d.map f)) (funext fun n => ?_)
  exact congrArg some (toReal_ofNumeral n)

end JsonRules.Json
