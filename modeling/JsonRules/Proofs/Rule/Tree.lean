import JsonRules.Rule.Expr

/-!
# Trees and their call sites

Induction over expression trees with a hypothesis for every child, the call sites of a tree in the
order in which they stand in the rule, and the change of every call site by a function.  A change that
keeps the names leaves the rule of the tree as it is.
-/

namespace JsonRules.Expr

/-- Induction over a tree: an array or call may use the statement for each of its children. -/
@[elab_as_elim, induction_eliminator]
theorem inductionOn {motive : Expr → Prop}
    (literal : ∀ v, motive (literal v))
    (array : ∀ items, (∀ e ∈ items, motive e) → motive (array items))
    (call : ∀ site args, (∀ e ∈ args, motive e) → motive (call site args))
    (e : Expr) : motive e := by
  -- The recursor has a second motive, for the list of the children.
  refine @Expr.rec motive (fun es => ∀ e ∈ es, motive e) literal array call ?_ ?_ e
  · intro e he
    cases he
  · intro e es ihe ihes d hd
    rcases List.mem_cons.mp hd with rfl | hd
    · exact ihe
    · exact ihes d hd

theorem toRules_eq_map (es : List Expr) : toRules es = es.map toRule := by
  induction es with
  | nil => rfl
  | cons e es ih => rw [toRules, ih, List.map_cons]

mutual

/-- The sites of the calls of a tree, each before those of its arguments. -/
def sites : Expr → List CallSite
  | literal _ => []
  | array items => sitesOfAll items
  | call site args => site :: sitesOfAll args
termination_by structural e => e

def sitesOfAll : List Expr → List CallSite
  | [] => []
  | e :: rest => e.sites ++ sitesOfAll rest
termination_by structural es => es

end

theorem sitesOfAll_eq_flatten (es : List Expr) : sitesOfAll es = (es.map sites).flatten := by
  induction es with
  | nil => rfl
  | cons e es ih => rw [sitesOfAll, ih, List.map_cons, List.flatten_cons]

theorem mem_sitesOfAll {s : CallSite} {es : List Expr} :
    s ∈ sitesOfAll es ↔ ∃ e ∈ es, s ∈ e.sites := by
  rw [sitesOfAll_eq_flatten, ← List.flatMap_def, List.mem_flatMap]

theorem mem_sites_array {s : CallSite} {items : List Expr} :
    s ∈ (array items).sites ↔ ∃ e ∈ items, s ∈ e.sites := by
  rw [sites, mem_sitesOfAll]

theorem mem_sites_call {s site : CallSite} {args : List Expr} :
    s ∈ (call site args).sites ↔ s = site ∨ ∃ e ∈ args, s ∈ e.sites := by
  rw [sites, List.mem_cons, mem_sitesOfAll]

mutual

/-- The tree with every call site changed. -/
def mapSites (f : CallSite → CallSite) : Expr → Expr
  | literal v => literal v
  | array items => array (mapSitesOfAll f items)
  | call site args => call (f site) (mapSitesOfAll f args)
termination_by structural e => e

def mapSitesOfAll (f : CallSite → CallSite) : List Expr → List Expr
  | [] => []
  | e :: rest => e.mapSites f :: mapSitesOfAll f rest
termination_by structural es => es

end

theorem mapSitesOfAll_eq_map (f : CallSite → CallSite) (es : List Expr) :
    mapSitesOfAll f es = es.map (mapSites f) := by
  induction es with
  | nil => rfl
  | cons e es ih => rw [mapSitesOfAll, ih, List.map_cons]

theorem mapSites_array (f : CallSite → CallSite) (items : List Expr) :
    (array items).mapSites f = array (items.map (mapSites f)) := by
  rw [mapSites, mapSitesOfAll_eq_map]

theorem mapSites_call (f : CallSite → CallSite) (site : CallSite) (args : List Expr) :
    (call site args).mapSites f = call (f site) (args.map (mapSites f)) := by
  rw [mapSites, mapSitesOfAll_eq_map]

theorem sites_mapSites (f : CallSite → CallSite) (e : Expr) :
    (e.mapSites f).sites = e.sites.map f := by
  induction e with
  | literal v => rfl
  | array items ih =>
      have hitems : items.map (sites ∘ mapSites f) = items.map (List.map f ∘ sites) :=
        List.map_congr_left ih
      rw [mapSites_array, sites, sites, sitesOfAll_eq_flatten, sitesOfAll_eq_flatten,
        List.map_flatten, List.map_map, List.map_map, hitems]
  | call site args ih =>
      have hargs : args.map (sites ∘ mapSites f) = args.map (List.map f ∘ sites) :=
        List.map_congr_left ih
      rw [mapSites_call, sites, sites, sitesOfAll_eq_flatten, sitesOfAll_eq_flatten,
        List.map_cons, List.map_flatten, List.map_map, List.map_map, hargs]

theorem toRule_mapSites {f : CallSite → CallSite} (hf : ∀ site, (f site).name = site.name)
    (e : Expr) : (e.mapSites f).toRule = e.toRule := by
  induction e with
  | literal v => rfl
  | array items ih =>
      have hitems : items.map (toRule ∘ mapSites f) = items.map toRule := List.map_congr_left ih
      rw [mapSites_array, toRule, toRule, toRules_eq_map, toRules_eq_map, List.map_map, hitems]
  | call site args ih =>
      have hargs : args.map (toRule ∘ mapSites f) = args.map toRule := List.map_congr_left ih
      rw [mapSites_call, toRule, toRule, toRules_eq_map, toRules_eq_map, List.map_map, hf, hargs]

theorem nodeCount_mapSites (f : CallSite → CallSite) (e : Expr) :
    (e.mapSites f).nodeCount = e.nodeCount := by
  have hall : ∀ {es : List Expr}, (∀ e ∈ es, (e.mapSites f).nodeCount = e.nodeCount) →
      nodeCounts (es.map (mapSites f)) = nodeCounts es := by
    intro es h
    induction es with
    | nil => rfl
    | cons e es ih =>
        rw [List.map_cons, nodeCounts, nodeCounts, h e List.mem_cons_self,
          ih fun d hd => h d (List.mem_cons_of_mem e hd)]
  induction e with
  | literal v => rfl
  | array items ih => rw [mapSites_array, nodeCount, nodeCount, hall ih]
  | call site args ih => rw [mapSites_call, nodeCount, nodeCount, hall ih]

mutual

/-- How deep arrays and calls are nested in a tree. -/
def depth : Expr → Nat
  | literal _ => 0
  | array items => 1 + depthOfAll items
  | call _ args => 1 + depthOfAll args
termination_by structural e => e

def depthOfAll : List Expr → Nat
  | [] => 0
  | e :: rest => max e.depth (depthOfAll rest)
termination_by structural es => es

end

theorem depth_le_depthOfAll {e : Expr} {es : List Expr} (he : e ∈ es) :
    e.depth ≤ depthOfAll es := by
  induction es with
  | nil => cases he
  | cons d es ih =>
      rw [depthOfAll]
      rcases List.mem_cons.mp he with rfl | he
      · exact Nat.le_max_left _ _
      · exact Nat.le_trans (ih he) (Nat.le_max_right _ _)

end JsonRules.Expr
