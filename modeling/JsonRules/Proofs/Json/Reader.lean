import JsonRules.Proofs.Json.Token

/-!
# Reading the tokens of a document

From any place where a document is wanted the reader goes through its tokens and is after it then, if the
limit leaves room for its containers.  As no key comes twice, members are appended.
-/

namespace JsonRules

theorem Entries.insert_eq_append {α : Type} {entries rest : Entries α} {key : String} {value : α}
    (h : Entries.Distinct (entries ++ (key, value) :: rest)) :
    entries.insert key value = entries ++ [(key, value)] := by
  induction entries with
  | nil => rfl
  | cons entry entries ih =>
      obtain ⟨hfresh, hrest⟩ := List.nodup_cons.mp h
      have hne : entry.1 ≠ key := by
        rintro rfl
        exact hfresh (List.mem_map.mpr ⟨(entry.1, value), by simp, rfl⟩)
      rw [insert, if_neg hne, ih hrest, List.cons_append]

namespace Json

namespace Reader

variable {limit : Nat}

theorem run_append {reader next : Reader} {tokens : List Token}
    (h : reader.run limit tokens = some next) (rest : List Token) :
    reader.run limit (tokens ++ rest) = next.run limit rest := by
  induction tokens generalizing reader with
  | nil =>
      cases h
      rfl
  | cons token tokens ih =>
      rw [run] at h
      rw [List.cons_append, run]
      cases hstep : reader.step limit token with
      | none =>
          rw [hstep] at h
          cases h
      | some following =>
          rw [hstep] at h
          exact ih h

/-- Where the reader wants a document it goes through the tokens of this one. -/
def Takes (limit : Nat) (stack : List Frame) (j : Json) : Prop :=
  (value stack).run limit j.tokens = some (after j stack)

/-- At the beginning of an array a document is read as at any other place of it. -/
theorem run_first (j : Json) (stack : List Frame) (rest : List Token) :
    (first stack).run limit (j.tokens ++ rest) =
      (value (.array [] :: stack)).run limit (j.tokens ++ rest) := by
  cases j <;> rfl

theorem run_items {stack : List Frame} {j : Json} {items : List Json}
    (h : ∀ k ∈ j :: items, ∀ frame, Takes limit (frame :: stack) k) (done : List Json) :
    (value (.array done :: stack)).run limit
        ([.comma].intercalate ((j :: items).map tokens) ++ [.closeArray]) =
      some (after (.array (done.reverse ++ j :: items)) stack) := by
  have hj := h j List.mem_cons_self (.array done)
  induction items generalizing j done with
  | nil =>
      rw [List.map_singleton, List.intercalate_singleton, run_append hj]
      simp [run, step]
  | cons k items ih =>
      have hitems : ∀ l ∈ k :: items, ∀ frame, Takes limit (frame :: stack) l :=
        fun l hl => h l (List.mem_cons_of_mem j hl)
      have hrest := ih hitems (j :: done) (hitems k List.mem_cons_self _)
      simp only [List.map_cons, List.intercalate_cons_cons, List.append_assoc] at hrest ⊢
      rw [run_append hj, List.singleton_append, run, step, Option.bind_some, hrest]
      simp

/-- The tokens of a member. -/
abbrev memberTokens (member : String × Json) : List Token :=
  .text member.1 :: .colon :: member.2.tokens

theorem run_member {stack : List Frame} {member : String × Json} {done : Entries Json}
    (h : Takes limit (.object done member.1 :: stack) member.2) (rest : List Token) :
    (key done stack).run limit (memberTokens member ++ rest) =
      (after member.2 (.object done member.1 :: stack)).run limit rest := by
  rw [List.cons_append, List.cons_append, run, step, Option.bind_some, run, step, Option.bind_some,
    run_append h]

theorem run_members {stack : List Frame} {member : String × Json} {members : Entries Json}
    (h : ∀ other ∈ member :: members, ∀ frame, Takes limit (frame :: stack) other.2)
    (done : Entries Json) (hdistinct : Entries.Distinct (done ++ member :: members)) :
    (key done stack).run limit
        ([.comma].intercalate ((member :: members).map memberTokens) ++ [.closeObject]) =
      some (after (.object (done ++ member :: members)) stack) := by
  have hmember := run_member (h member List.mem_cons_self (.object done member.1))
  have hinsert := Entries.insert_eq_append hdistinct
  induction members generalizing member done with
  | nil =>
      rw [List.map_singleton, List.intercalate_singleton, hmember, run, step, Option.bind_some, run,
        hinsert]
  | cons other members ih =>
      have hmembers : ∀ u ∈ other :: members, ∀ frame, Takes limit (frame :: stack) u.2 :=
        fun u hu => h u (List.mem_cons_of_mem member hu)
      have hshift : done ++ member :: other :: members = done ++ [member] ++ other :: members := by
        rw [List.append_assoc, List.singleton_append]
      rw [hshift] at hdistinct ⊢
      have hrest := ih hmembers _ hdistinct (run_member (hmembers other List.mem_cons_self _))
        (Entries.insert_eq_append hdistinct)
      rw [List.map_cons, List.map_cons, List.intercalate_cons_cons, List.append_assoc,
        List.append_assoc, hmember, List.singleton_append, run, step, Option.bind_some, hinsert]
      exact hrest

theorem exists_intercalate_cons {α : Type} (sep x : List α) (xs : List (List α)) :
    ∃ rest, sep.intercalate (x :: xs) = x ++ rest := by
  cases xs with
  | nil => exact ⟨[], by rw [List.intercalate_singleton, List.append_nil]⟩
  | cons y ys => exact ⟨_, by rw [List.intercalate_cons_cons, List.append_assoc]⟩

theorem takes_array {stack : List Frame} {items : List Json} (hroom : stack.length < limit)
    (h : ∀ j ∈ items, ∀ frame, Takes limit (frame :: stack) j) :
    Takes limit stack (.array items) := by
  rw [Takes, tokens, itemTokens_eq_map, run, step, start, if_pos hroom, Option.bind_some]
  cases items with
  | nil => rfl
  | cons j items =>
      have hrun := run_items h []
      obtain ⟨rest, hrest⟩ := exists_intercalate_cons [Token.comma] j.tokens (items.map tokens)
      rw [List.map_cons, hrest, List.append_assoc] at hrun ⊢
      rw [run_first, hrun]
      rfl

theorem takes_object {stack : List Frame} {members : Entries Json} (hroom : stack.length < limit)
    (hdistinct : members.Distinct)
    (h : ∀ member ∈ members, ∀ frame, Takes limit (frame :: stack) member.2) :
    Takes limit stack (.object members) := by
  rw [Takes, tokens, memberTokens_eq_map, run, step, start, if_pos hroom, Option.bind_some]
  cases members with
  | nil => rfl
  | cons member members =>
      have hrun := run_members h [] hdistinct
      -- A key is read alike at the beginning of an object and after a comma.
      obtain ⟨rest, hrest⟩ := exists_intercalate_cons [Token.comma] (memberTokens member)
        (members.map memberTokens)
      rw [List.map_cons, hrest] at hrun ⊢
      exact hrun

theorem takes_of_spelled {nesting : Nat} {d : Document Numeral} {text : List Char}
    (h : d.Spelled nesting text) {stack : List Frame} (hroom : stack.length + nesting ≤ limit) :
    Takes limit stack (ofNumerals d) := by
  induction h generalizing stack with
  | null | bool | number | string => rfl
  | @array nesting parts _ ih =>
      rw [ofNumerals, Document.map, Document.mapItems_eq_map, List.map_map]
      refine takes_array (by omega) fun j hj frame => ?_
      obtain ⟨part, hpart, rfl⟩ := List.mem_map.mp hj
      exact ih part hpart (by rw [List.length_cons]; omega)
  | @object nesting parts hdistinct _ _ ih =>
      rw [ofNumerals, Document.map, Document.mapMembers_eq_map, List.map_map]
      refine takes_object (by omega) ?_ fun member hmember frame => ?_
      · rw [Entries.Distinct, Entries.keys, List.map_map]
        exact hdistinct
      · obtain ⟨part, hpart, rfl⟩ := List.mem_map.mp hmember
        exact ih part hpart (by rw [List.length_cons]; omega)

end Reader

theorem parse?_of_spelled {limit : Nat} {d : Document Numeral} {text : String}
    (h : d.Spelled limit text.toList) : parse? limit text = some (ofNumerals d) := by
  have hrun : (Reader.value []).run limit (tokens (ofNumerals d)) = some (.after (ofNumerals d) []) :=
    Reader.takes_of_spelled h (Nat.le_of_eq (Nat.zero_add limit))
  rw [parse?, tokens?_of_spelled h]
  simp only [Option.bind_eq_bind, Option.bind_some, hrun, Reader.result?]

end Json

end JsonRules
