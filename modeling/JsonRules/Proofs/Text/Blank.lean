import JsonRules.Proofs.Number.Numeral
import JsonRules.Text.Blank

/-!
# Trimmed texts

Trimming takes away the blanks at both ends of a text and nothing else.
-/

namespace JsonRules.Text

variable {cs core : List Char}

/-- The core of a text is what stands between the blanks at its ends. -/
structure Trimmed (cs core : List Char) : Prop where
  parts : ∃ front back, cs = front ++ (core ++ back) ∧ (∀ c ∈ front, isBlank c = true) ∧
    ∀ c ∈ back, isBlank c = true
  first : StopsAt isBlank core
  last : StopsAt isBlank core.reverse

theorem stopsAt_dropWhile (p : Char → Bool) (cs : List Char) : StopsAt p (cs.dropWhile p) := by
  intro c hc
  have hhead := List.head?_dropWhile_not p cs
  rw [Option.mem_def.mp hc] at hhead
  exact hhead

theorem trimmed_trim (cs : List Char) : Trimmed cs (trim cs) := by
  let rest := cs.dropWhile isBlank
  let back := (rest.reverse.takeWhile isBlank).reverse
  have hback : trim cs ++ back = rest := by
    rw [trim, ← List.reverse_append, List.takeWhile_append_dropWhile, List.reverse_reverse]
  have hfirst : StopsAt isBlank (trim cs ++ back) := hback ▸ stopsAt_dropWhile isBlank cs
  refine ⟨⟨cs.takeWhile isBlank, back, ?_, List.all_eq_true.mp List.all_takeWhile, ?_⟩,
    hfirst.of_append, ?_⟩
  · rw [hback, List.takeWhile_append_dropWhile]
  · intro c hc
    exact List.all_eq_true.mp List.all_takeWhile c (List.mem_reverse.mp hc)
  · rw [trim, List.reverse_reverse]
    exact stopsAt_dropWhile isBlank _

theorem dropWhile_eq_self (h : StopsAt isBlank cs) : cs.dropWhile isBlank = cs := by
  have hnone : ∀ c ∈ ([] : List Char), isBlank c = true := fun _ hc => (List.not_mem_nil hc).elim
  exact h.dropWhile_append hnone

theorem trim_eq_self (hfirst : StopsAt isBlank cs) (hlast : StopsAt isBlank cs.reverse) :
    trim cs = cs := by
  rw [trim, dropWhile_eq_self hfirst, dropWhile_eq_self hlast, List.reverse_reverse]

end JsonRules.Text
