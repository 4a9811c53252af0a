import JsonRules.Proofs.Json.Number
import JsonRules.Proofs.Json.Quoted

/-!
# The tokens of JSON text

The text of a document falls into its tokens.  As a number ends only where the text goes on with
something else, this is said for a document in front of any text that does so.
-/

namespace JsonRules.Json

/-- The text is that of the tokens one after the other. -/
inductive Lexed : List Char → List Token → Prop
  | nil : Lexed [] []
  | cons {c : Char} {text rest : List Char} {token : Token} {tokens : List Token}
      (hblank : isBlank c = false)
      (hread : readToken? (c :: (text ++ rest)) = some (token, rest))
      (hrest : Lexed rest tokens) : Lexed (c :: (text ++ rest)) (token :: tokens)

namespace Lexed

variable {text rest : List Char} {token : Token} {tokens others : List Token}

theorem tokensWithin? (h : Lexed text tokens) {bound : Nat} (hbound : text.length ≤ bound) :
    tokensWithin? bound text = some tokens := by
  induction h generalizing bound with
  | nil => cases bound <;> rfl
  | @cons c text rest token tokens hblank hread _ ih =>
      cases bound with
      | zero => cases hbound
      | succ bound =>
          have hrest : rest.length ≤ bound := by
            rw [List.length_cons, List.length_append] at hbound
            omega
          simp [Json.tokensWithin?, hblank, hread, ih hrest]

theorem tokens? (h : Lexed text tokens) : tokens? text = some tokens :=
  h.tokensWithin? (Nat.le_refl _)

/-- A mark is a token of one character. -/
theorem mark {c : Char} (hblank : isBlank c = false)
    (hread : ∀ rest, readToken? (c :: rest) = some (token, rest)) (h : Lexed rest tokens) :
    Lexed (c :: rest) (token :: tokens) := by
  have hcons : Lexed (c :: ([] ++ rest)) (token :: tokens) := .cons hblank (hread rest) h
  exact hcons

theorem literal {s : String} (hs : Quoted.Literal s text) (h : Lexed rest tokens) :
    Lexed (text ++ rest) (.text s :: tokens) := by
  obtain ⟨body, hbody, rfl⟩ := hs
  refine .cons (c := '"') rfl ?_ h
  simp only [readToken?, List.append_assoc, List.singleton_append, Quoted.read?_spells hbody,
    Option.map_some, String.ofList_toList]

end Lexed

/-- No other token starts as a numeral does. -/
theorem readToken?_of_isCharacter {c : Char} (h : Numeral.isCharacter c = true) (rest : List Char) :
    readToken? (c :: rest) = (do
      let numeral ← Numeral.read? ((c :: rest).takeWhile Numeral.isCharacter)
      let number ← ofNumeral? numeral
      some (.scalar (.number number), (c :: rest).dropWhile Numeral.isCharacter)) := by
  rw [readToken?.eq_def]
  split
  all_goals first
    | rfl
    | rename_i heq
      rw [(List.cons.inj heq).1] at h
      exact absurd h (by decide)

theorem Lexed.numeral {n : Numeral} {rest : List Char} {tokens : List Token} (hstrict : n.Strict)
    (hfinite : n.toNumber.isFinite = true) (hstops : StopsAt Numeral.isCharacter rest)
    (h : Lexed rest tokens) :
    Lexed (n.write ++ rest) (.scalar (.number (ofNumeral n)) :: tokens) := by
  have hspelling := hstrict.spelling
  have hchars := hspelling.isCharacter
  have htake := hstops.takeWhile_append hchars
  have hdrop := hstops.dropWhile_append hchars
  have hread := Numeral.read?_eq_some_iff.mpr hspelling
  have hdigits := Numeral.hasDigits_iff.mpr (List.append_ne_nil_of_left_ne_nil hstrict.whole_ne_nil _)
  cases hwrite : n.write with
  | nil => exact absurd hwrite (hspelling.ne_nil hdigits)
  | cons c text =>
      rw [hwrite] at hchars htake hdrop hread
      have hc : Numeral.isCharacter c = true := hchars c List.mem_cons_self
      have hblank : isBlank c = false := by
        cases hblank : isBlank c with
        | false => rfl
        | true =>
            simp only [isBlank, Bool.or_eq_true, beq_iff_eq] at hblank
            rcases hblank with ((rfl | rfl) | rfl) | rfl <;> cases hc
      refine .cons hblank ?_ h
      rw [List.cons_append] at htake hdrop
      rw [readToken?_of_isCharacter hc, htake, hdrop, hread]
      simp [ofNumeral?_of_strict hstrict hfinite]

/-- Before a text that does not go on with a numeral the text adds its tokens. -/
def Adds (text : List Char) (tokens : List Token) : Prop :=
  ∀ rest others, StopsAt Numeral.isCharacter rest → Lexed rest others →
    Lexed (text ++ rest) (tokens ++ others)

namespace Adds

theorem word (c : Char) (text : List Char) {token : Token} (hblank : isBlank c = false)
    (hread : ∀ rest, readToken? (c :: (text ++ rest)) = some (token, rest)) :
    Adds (c :: text) [token] := fun _ _ _ h => .cons hblank (hread _) h

/-- Texts with commas between them add their tokens with commas between them. -/
theorem intercalate {α : Type} {text : α → List Char} {tokens : α → List Token} {items : List α}
    (h : ∀ a ∈ items, Adds (text a) (tokens a)) :
    Adds ([','].intercalate (items.map text)) ([.comma].intercalate (items.map tokens)) := by
  induction items with
  | nil => exact fun _ _ _ hrest => hrest
  | cons a items ih =>
      have ha := h a List.mem_cons_self
      have hitems := ih fun b hb => h b (List.mem_cons_of_mem a hb)
      cases items with
      | nil =>
          simpa only [List.map_cons, List.map_nil, List.intercalate_singleton] using ha
      | cons b items =>
          intro rest others hstops hrest
          have hcomma := Lexed.mark (c := ',') rfl (fun _ => rfl) (hitems rest others hstops hrest)
          simp only [List.map_cons, List.intercalate_cons_cons, List.append_assoc] at hcomma ⊢
          exact ha _ _ (.cons rfl) hcomma

theorem enclose {opening closing : Char} {first last : Token} {parts : List (List Char)}
    {inner : List Token} (hopening : isBlank opening = false)
    (hfirst : ∀ rest, readToken? (opening :: rest) = some (first, rest))
    (hclosing : isBlank closing = false ∧ Numeral.isCharacter closing = false)
    (hlast : ∀ rest, readToken? (closing :: rest) = some (last, rest))
    (h : Adds ([','].intercalate parts) inner) :
    Adds (enclose opening closing parts) (first :: (inner ++ [last])) := by
  intro rest others _ hrest
  have hinner := h _ _ (.cons hclosing.2) (Lexed.mark hclosing.1 hlast hrest)
  have hwhole := Lexed.mark hopening hfirst hinner
  simpa only [Json.enclose, List.cons_append, List.append_assoc, List.nil_append] using hwhole

end Adds

mutual

/-- The tokens of a document. -/
def tokens : Json → List Token
  | .null => [.scalar .null]
  | .bool b => [.scalar (.bool b)]
  | .number n => [.scalar (.number n)]
  | .string s => [.text s]
  | .array items => .openArray :: ([.comma].intercalate (itemTokens items) ++ [.closeArray])
  | .object members => .openObject :: ([.comma].intercalate (memberTokens members) ++ [.closeObject])
termination_by structural j => j

def itemTokens : List Json → List (List Token)
  | [] => []
  | j :: rest => tokens j :: itemTokens rest
termination_by structural items => items

def memberTokens : Entries Json → List (List Token)
  | [] => []
  | (key, j) :: rest => (.text key :: .colon :: tokens j) :: memberTokens rest
termination_by structural members => members

end

@[simp]
theorem itemTokens_eq_map (items : List Json) : itemTokens items = items.map tokens :=
  eq_map_of_cons rfl (fun _ _ => rfl) items

@[simp]
theorem memberTokens_eq_map (members : Entries Json) :
    memberTokens members = members.map fun member => .text member.1 :: .colon :: tokens member.2 :=
  eq_map_of_cons rfl (fun _ _ => rfl) members

/-- The document with its numerals as they are read. -/
abbrev ofNumerals (d : Document Numeral) : Json := d.map ofNumeral

theorem adds_of_spelled {nesting : Nat} {d : Document Numeral} {text : List Char}
    (h : d.Spelled nesting text) : Adds text (tokens (ofNumerals d)) := by
  induction h with
  | null => exact .word 'n' "ull".toList rfl fun _ => rfl
  | bool b =>
      cases b with
      | true => exact .word 't' "rue".toList rfl fun _ => rfl
      | false => exact .word 'f' "alse".toList rfl fun _ => rfl
  | number hstrict hfinite => exact fun _ _ hstops hrest => hrest.numeral hstrict hfinite hstops
  | string h => exact fun _ _ _ hrest => hrest.literal h
  | @array nesting parts _ ih =>
      rw [ofNumerals, Document.map, Document.mapItems_eq_map, tokens, itemTokens_eq_map, List.map_map,
        List.map_map]
      exact .enclose rfl (fun _ => rfl) ⟨rfl, rfl⟩ (fun _ => rfl) (.intercalate ih)
  | @object nesting parts _ hkeys _ ih =>
      rw [ofNumerals, Document.map, Document.mapMembers_eq_map, tokens, memberTokens_eq_map,
        List.map_map, List.map_map]
      refine .enclose rfl (fun _ => rfl) ⟨rfl, rfl⟩ (fun _ => rfl) (.intercalate fun part hpart => ?_)
      intro rest others hstops hrest
      have hvalue := ih part hpart rest others hstops hrest
      have hcolon := Lexed.mark (c := ':') rfl (fun _ => rfl) hvalue
      have htext : part.write ++ rest = part.keyText ++ (':' :: (part.text ++ rest)) := by
        rw [Document.Part.write, List.append_assoc, List.cons_append]
      rw [htext]
      exact hcolon.literal (hkeys part hpart)

theorem tokens?_of_spelled {nesting : Nat} {d : Document Numeral} {text : List Char}
    (h : d.Spelled nesting text) : tokens? text = some (tokens (ofNumerals d)) := by
  have hlexed := adds_of_spelled h [] [] .nil .nil
  rw [List.append_nil, List.append_nil] at hlexed
  exact hlexed.tokens?

end JsonRules.Json
