import JsonRules.Proofs.Evaluation.Normalized
import JsonRules.Proofs.Evaluation.Plain

/-!
# Replacing equals by equals

A template is a tree with holes, all of which are filled with one tree.  Built-in operators see only
what their operands evaluate to, against whatever data, so a template gives the same result with any two
trees that have the same result on all data, wherever its holes are.
-/

namespace JsonRules

inductive Template where
  | hole
  | literal (value : Value)
  | array (items : List Template)
  | call (site : CallSite) (args : List Template)

namespace Template

/-- Induction over a template with the statement for each child. -/
@[elab_as_elim, induction_eliminator]
theorem inductionOn {motive : Template → Prop}
    (hole : motive hole)
    (literal : ∀ v, motive (literal v))
    (array : ∀ items, (∀ t ∈ items, motive t) → motive (array items))
    (call : ∀ site args, (∀ t ∈ args, motive t) → motive (call site args))
    (t : Template) : motive t := by
  refine @Template.rec motive (fun ts => ∀ t ∈ ts, motive t) hole literal array call ?_ ?_ t
  · intro t ht
    cases ht
  · intro t ts iht ihts u hu
    rcases List.mem_cons.mp hu with rfl | hu
    · exact iht
    · exact ihts u hu

mutual

/-- The tree that has `e` in every hole. -/
def fill (e : Expr) : Template → Expr
  | hole => e
  | literal v => .literal v
  | array items => .array (fillAll e items)
  | call site args => .call site (fillAll e args)
termination_by structural t => t

def fillAll (e : Expr) : List Template → List Expr
  | [] => []
  | t :: rest => t.fill e :: fillAll e rest
termination_by structural ts => ts

end

theorem fillAll_eq_map (e : Expr) (ts : List Template) : fillAll e ts = ts.map (fill e) :=
  eq_map_of_cons rfl (fun _ _ => rfl) ts

end Template

open JsonRules.Action

variable {σ : Type} {env : Environment σ} {host : σ}

namespace Environment

/-- No calls have other operators than plain ones. -/
def OnlyPlain (env : Environment σ) : Prop :=
  ∀ site operator, env.operator site = .ok operator → ∃ P, operator.Plain P

theorem OnlyPlain.meaning_agree (hplain : env.OnlyPlain) (hfree : env.maxDepth = none) (e : Expr)
    (depth : Nat) (data : Value) :
    Agree (fun _ => True) host (e.meaning env depth data) (e.meaning env depth data) := by
  refine Expr.meaning_agree hfree (fun site args _ operator hoperator => ?_)
    (fun _ _ _ _ _ => trivial) depth data
  obtain ⟨P, hP⟩ := hplain site operator hoperator
  exact ⟨P, hP, fun _ _ => trivial⟩

theorem OnlyPlain.fill_agree (hplain : env.OnlyPlain) (hfree : env.maxDepth = none) {a b : Expr}
    (h : ∀ depth data,
      Agree (fun _ => True) host (a.meaning env depth data) (b.meaning env depth data))
    (t : Template) : ∀ (depth : Nat) (data : Value),
    Agree (fun _ => True) host ((t.fill a).meaning env depth data)
      ((t.fill b).meaning env depth data) := by
  have hall : ∀ {ts : List Template} {depth : Nat}, (∀ t ∈ ts, ∀ data,
      Agree (fun _ => True) host ((t.fill a).meaning env depth data)
        ((t.fill b).meaning env depth data)) →
      List.Forall₂ (fun e f => ∀ data,
        Agree (fun _ => True) host (e.meaning env depth data) (f.meaning env depth data))
        (Template.fillAll a ts) (Template.fillAll b ts) := by
    intro ts depth hts
    simp only [Template.fillAll_eq_map, List.forall₂_map_left_iff, List.forall₂_map_right_iff,
      List.forall₂_same]
    exact hts
  induction t with
  | hole => exact h
  | literal v => exact fun _ _ => Agree.pure v
  | array items ih =>
      exact fun depth => Expr.array_agree hfree (hall fun t ht => ih t ht (depth + 1))
  | call site args ih =>
      intro depth
      refine Expr.call_agree hfree (hall fun t ht => ih t ht (depth + 1))
        (fun operator hoperator => ?_) fun _ _ => trivial
      obtain ⟨P, hP⟩ := hplain site operator hoperator
      exact ⟨P, hP, fun _ _ => trivial⟩

end Environment

namespace Context

variable {c : Context σ}

theorem onlyPlain_environment (hc : c.registry.OnlyBuiltin) : c.environment.OnlyPlain := by
  intro site operator hoperator
  obtain ⟨name, hplain⟩ :=
    (hc.of_operator? rfl (CallSite.found_eq_ok.mp hoperator)).exists_plain
  exact ⟨_, hplain⟩

/-- With the built-in operators and no limit, two trees with the same result on all data may replace each
other in any number of places: the results stay the same on all data. -/
theorem evaluate_fill_congr (hc : c.registry.OnlyBuiltin) (hfree : c.maxDepth = none) {a b : Expr}
    (h : ∀ data, ((a.evaluate data).run ⟨c, host⟩).result =
      ((b.evaluate data).run ⟨c, host⟩).result) (t : Template) (data : Value) :
    (((t.fill a).evaluate data).run ⟨c, host⟩).result =
      (((t.fill b).evaluate data).run ⟨c, host⟩).result := by
  have hplain := onlyPlain_environment hc
  have hresult : ∀ (e : Expr) (data : Value), ((e.evaluate data).run ⟨c, host⟩).result =
      ((e.meaning c.environment c.depth data).run host).result := by
    intro e data
    rw [e.actsAs_evaluate c data host]
    rfl
  have hagree : ∀ depth data, Agree (fun _ => True) host (a.meaning c.environment depth data)
      (b.meaning c.environment depth data) := by
    intro depth data
    rw [a.meaning_depth hfree depth c.depth, b.meaning_depth hfree depth c.depth]
    have hab := h data
    rw [hresult, hresult] at hab
    exact (hplain.meaning_agree hfree a c.depth data).of_result_eq
      (hplain.meaning_agree hfree b c.depth data) hab
  rw [hresult, hresult]
  exact (hplain.fill_agree hfree hagree t c.depth data).result_eq

end Context

/-! ### A condition that always holds -/

def reading : Expr := .call ⟨"var", none, .root⟩ [.literal (.string "x")]

def readingIf : Expr := .call ⟨"if", none, .root⟩ [.literal (.bool true), reading]

/-- Maps the elements of what is in the hole to what is in the hole. -/
def mapping : Template := .call ⟨"map", none, .root⟩ [.hole, .array [.hole, .literal .null]]

set_option maxRecDepth 2000 in
theorem evaluate_mapping : ∃ c : Context Unit, c.registry.OnlyBuiltin ∧ c.maxDepth = none ∧
    ∀ data, (((mapping.fill reading).evaluate data).run ⟨c, ()⟩).result =
      (((mapping.fill readingIf).evaluate data).run ⟨c, ()⟩).result := by
  have hbuiltin := Registry.onlyBuiltin_standard (σ := Unit) .initial
  refine ⟨⟨(Builtin.registry.run .initial).1, false, 0, none⟩, hbuiltin, rfl, ?_⟩
  refine Context.evaluate_fill_congr hbuiltin rfl (fun data => ?_) mapping
  rfl

end JsonRules
