import Gonzalo.Graph.Resolve

/-!
# Resolved impact

`resolved_impact` of `gonzalo-graph/src/resolve.rs`: the level-by-level walk over the
references that resolve to a definition. Counters and depths are `Nat`: the walk explores
each node at most once after its seeds, so neither leaves the range of `usize`.
-/

set_option autoImplicit false

namespace Gonzalo.Graph
open Gonzalo.Lib

/-- One symbol reached by an impact closure. -/
structure ImpactNode where
  name : String
  path : String
  deriving Repr

/-- The derived order: by name, then by path. -/
instance : LinearOrder ImpactNode :=
  LinearOrder.lift' (fun node => toLex (node.name, node.path)) fun a b same => by
    cases a; cases b; simpa using same

/-- The result of a resolution-gated impact walk. -/
structure ImpactReport where
  reached : List ImpactNode := []
  ambiguousEdges : Nat := 0
  receiverUnknownEdges : Nat := 0
  valueEdges : Nat := 0
  truncated : Bool := false
  deriving DecidableEq, Repr

/-- What the loops of `resolved_impact` carry. -/
structure Walk where
  visited : Finset ImpactNode
  next : List ImpactNode
  report : ImpactReport

/-- What the walk does with one reference to the name of a node. -/
def follow (node : ImpactNode) (walk : Walk) (resolved : ResolvedReference) : Walk :=
  if resolved.reference.item.kind = .value then
    { walk with report.valueEdges := walk.report.valueEdges + 1 }
  else
    match resolved.resolution with
    | .ambiguous => { walk with report.ambiguousEdges := walk.report.ambiguousEdges + 1 }
    | .receiverUnknown =>
      { walk with report.receiverUnknownEdges := walk.report.receiverUnknownEdges + 1 }
    | _ =>
      if resolved.target ≠ some node.path then walk
      else
        match resolved.reference.item.fromName with
        -- a top-level reference has no caller
        | none => walk
        | some caller =>
          let (visited, next) :=
            visit (walk.visited, walk.next) ⟨caller, resolved.reference.path⟩
          { walk with visited := visited, next := next }

/-- Every reference to the name of a node. -/
def explore (store : GraphStore) (walk : Walk) (node : ImpactNode) : Walk :=
  (resolveReferencesTo store node.name).foldl (follow node) walk

/-- The `while` loop of `resolved_impact`: `none` when it has not ended after `fuel` turns. -/
def walkLoop (store : GraphStore) (maxDepth : Option Nat) :
    Nat → Nat → List ImpactNode → Walk → Option Walk
  | _, _, [], walk => some walk
  | 0, _, _ :: _, _ => none
  | fuel + 1, depth, node :: nodes, walk =>
    if maxDepth.any fun limit => limit ≤ depth then
      some { walk with report.truncated := true }
    else
      let walk := (node :: nodes).foldl (explore store) { walk with next := [] }
      walkLoop store maxDepth fuel (depth + 1) walk.next walk

/-- The definitions of the name, as nodes. -/
def impactSeeds (store : GraphStore) (name : String) : List ImpactNode :=
  (store.definitions name).map fun d => ⟨name, d.path⟩

def resolvedImpact (store : GraphStore) (name : String) (maxDepth : Option Nat) (fuel : Nat) :
    Option ImpactReport :=
  let seeds := impactSeeds store name
  let start : Walk := { visited := seeds.toFinset, next := [], report := {} }
  (walkLoop store maxDepth fuel 0 seeds start).map fun walk =>
    { walk.report with reached := (walk.visited \ seeds.toFinset).sort }

/-- The report that a walk ends with. -/
def Walk.finish (walk : Walk) (seeds : Finset ImpactNode) : ImpactReport :=
  { walk.report with reached := (walk.visited \ seeds).sort }

/-! ## One reference -/

/-- Why a reference is counted and not followed. -/
inductive Declined where
  | value | ambiguous | receiverUnknown
  deriving DecidableEq, Repr

/-- The reason for which a reference is declined, if it is. -/
def ResolvedReference.declined (resolved : ResolvedReference) : Option Declined :=
  if resolved.reference.item.kind = .value then some .value
  else
    match resolved.resolution with
    | .ambiguous => some .ambiguous
    | .receiverUnknown => some .receiverUnknown
    | _ => none

/-- The counter of the report for a reason. -/
def ImpactReport.count (report : ImpactReport) : Declined → Nat
  | .value => report.valueEdges
  | .ambiguous => report.ambiguousEdges
  | .receiverUnknown => report.receiverUnknownEdges

theorem ImpactReport.count_reached (report : ImpactReport) (reached : List ImpactNode)
    (reason : Declined) : { report with reached := reached }.count reason = report.count reason := by
  cases reason <;> rfl

/-- The caller that a reference adds to the walk from a node. -/
def callerInto (node : ImpactNode) (resolved : ResolvedReference) : Option ImpactNode :=
  if resolved.declined = none ∧ resolved.target = some node.path then
    resolved.reference.item.fromName.map fun caller => ⟨caller, resolved.reference.path⟩
  else none

/-- A reference that is declined is counted, and adds nothing to the walk. -/
theorem follow_declined {resolved : ResolvedReference} {why : Declined}
    (declined : resolved.declined = some why) (node : ImpactNode) (walk : Walk) :
    (follow node walk resolved).visited = walk.visited ∧
      (follow node walk resolved).next = walk.next ∧
      (∀ reason, (follow node walk resolved).report.count reason =
        walk.report.count reason + if why = reason then 1 else 0) ∧
      (follow node walk resolved).report.truncated = walk.report.truncated := by
  rw [follow]
  rw [ResolvedReference.declined] at declined
  by_cases value : resolved.reference.item.kind = .value
  · rw [if_pos value] at declined ⊢
    cases declined
    refine ⟨rfl, rfl, fun reason => ?_, rfl⟩
    cases reason <;> simp [ImpactReport.count]
  · rw [if_neg value] at declined ⊢
    cases outcome : resolved.resolution with
    | ambiguous =>
      rw [outcome] at declined
      cases declined
      refine ⟨rfl, rfl, fun reason => ?_, rfl⟩
      cases reason <;> simp [ImpactReport.count]
    | receiverUnknown =>
      rw [outcome] at declined
      cases declined
      refine ⟨rfl, rfl, fun reason => ?_, rfl⟩
      cases reason <;> simp [ImpactReport.count]
    | _ =>
      rw [outcome] at declined
      cases declined

/-- A reference that is not declined adds its caller, if it leads to the node. -/
theorem follow_resolved {resolved : ResolvedReference} (resolves : resolved.declined = none)
    (node : ImpactNode) (walk : Walk) :
    follow node walk resolved =
      { walk with
        visited := ((callerInto node resolved).toList.foldl visit (walk.visited, walk.next)).1
        next := ((callerInto node resolved).toList.foldl visit (walk.visited, walk.next)).2 } := by
  rw [follow, callerInto]
  rw [ResolvedReference.declined] at resolves ⊢
  by_cases value : resolved.reference.item.kind = .value
  · rw [if_pos value] at resolves
    cases resolves
  · rw [if_neg value] at resolves ⊢
    rw [if_neg value]
    by_cases leads : resolved.target = some node.path
    · cases caller : resolved.reference.item.fromName <;>
        cases outcome : resolved.resolution <;> simp_all
    · cases outcome : resolved.resolution <;> simp_all

/-- What a part of the walk adds: the callers it visits and the references it declines. -/
structure Adds (walk walk' : Walk) (callers : List ImpactNode) (declined : Declined → Nat) :
    Prop where
  visits : (walk'.visited, walk'.next) = callers.foldl visit (walk.visited, walk.next)
  counts : ∀ reason, walk'.report.count reason = walk.report.count reason + declined reason
  truncated : walk'.report.truncated = walk.report.truncated

/-- A reference adds its caller to the walk, or one to the counter of its reason. -/
theorem follow_adds (node : ImpactNode) (walk : Walk) (resolved : ResolvedReference) :
    Adds walk (follow node walk resolved) (callerInto node resolved).toList
      fun reason => if resolved.declined = some reason then 1 else 0 := by
  cases declined : resolved.declined with
  | none =>
    rw [follow_resolved declined]
    exact ⟨rfl, fun reason => by simp, rfl⟩
  | some why =>
    have skipped : callerInto node resolved = none := by simp [callerInto, declined]
    obtain ⟨visited, next, counted, truncated⟩ := follow_declined declined node walk
    refine ⟨?_, fun reason => ?_, truncated⟩
    · rw [visited, next, skipped]
      rfl
    · simp only [counted, Option.some.injEq]

/-- What each step adds, a loop of them adds in turn. -/
theorem Adds.foldl {α : Type} {step : Walk → α → Walk} {callers : α → List ImpactNode}
    {declined : α → Declined → Nat}
    (adds : ∀ walk x, Adds walk (step walk x) (callers x) (declined x)) (xs : List α)
    (walk : Walk) :
    Adds walk (xs.foldl step walk) (xs.flatMap callers)
      fun reason => (xs.map fun x => declined x reason).sum := by
  induction xs generalizing walk with
  | nil => exact ⟨rfl, fun reason => rfl, rfl⟩
  | cons x xs ih =>
    have first := adds walk x
    have rest := ih (step walk x)
    rw [List.foldl_cons]
    refine ⟨?_, fun reason => ?_, rest.truncated.trans first.truncated⟩
    · rw [rest.visits, first.visits, List.flatMap_cons, List.foldl_append]
    · rw [rest.counts, first.counts, List.map_cons, List.sum_cons, Nat.add_assoc]

/-- How many references to the name are declined for the reason. -/
def declinedCount (store : GraphStore) (reason : Declined) (name : String) : Nat :=
  (resolveReferencesTo store name).countP fun resolved => resolved.declined = some reason

/-- The callers that references to the name of a node lead from. -/
def callersInto (store : GraphStore) (node : ImpactNode) : List ImpactNode :=
  (resolveReferencesTo store node.name).filterMap (callerInto node)

theorem explore_adds (store : GraphStore) (walk : Walk) (node : ImpactNode) :
    Adds walk (explore store walk node) (callersInto store node)
      fun reason => declinedCount store reason node.name := by
  have adds := Adds.foldl (follow_adds node) (resolveReferencesTo store node.name) walk
  refine ⟨?_, fun reason => ?_, adds.truncated⟩
  · rw [callersInto, List.filterMap_eq_flatMap_toList]
    exact adds.visits
  · rw [explore, adds.counts, declinedCount]
    congr 1
    induction resolveReferencesTo store node.name with
    | nil => rfl
    | cons first rest ih =>
      rw [List.map_cons, List.sum_cons, List.countP_cons, ih, Nat.add_comm]
      simp

/-! ## One level -/

/-- A resolved reference that calls the node, made in the caller's file. -/
def CallEdge (store : GraphStore) (caller node : ImpactNode) : Prop :=
  ∃ resolved ∈ resolveReferencesTo store node.name, resolved.reference.item.kind ≠ .value ∧
    resolved.target = some node.path ∧ resolved.reference.item.fromName = some caller.name ∧
      resolved.reference.path = caller.path

theorem declined_of_target {store : GraphStore} {name path : String} {resolved : ResolvedReference}
    (listed : resolved ∈ resolveReferencesTo store name) (reached : resolved.target = some path) :
    resolved.declined = none ↔ resolved.reference.item.kind ≠ .value := by
  obtain ⟨located, -, rfl⟩ := List.mem_map.mp listed
  obtain ⟨not_ambiguous, receiver_known⟩ := resolveTarget_attributed reached
  rw [ResolvedReference.declined]
  by_cases value : (store.resolve name located).reference.item.kind = .value
  · simp [value]
  · rw [if_neg value]
    refine iff_of_true ?_ value
    split
    next ambiguous => exact absurd ambiguous not_ambiguous
    next unknown => exact absurd unknown receiver_known
    next => rfl

theorem mem_callersInto {store : GraphStore} {caller node : ImpactNode} :
    caller ∈ callersInto store node ↔ CallEdge store caller node := by
  rw [callersInto, List.mem_filterMap, CallEdge]
  constructor
  · rintro ⟨resolved, listed, made⟩
    rw [callerInto] at made
    split at made
    next leads =>
      obtain ⟨name, from_, rfl⟩ := Option.map_eq_some_iff.mp made
      exact ⟨resolved, listed, (declined_of_target listed leads.2).mp leads.1, leads.2, from_, rfl⟩
    next => cases made
  · rintro ⟨resolved, listed, called, leads, from_, path⟩
    refine ⟨resolved, listed, ?_⟩
    rw [callerInto, if_pos ⟨(declined_of_target listed leads).mpr called, leads⟩, from_, path]
    rfl

/-- Exploring a frontier visits the callers of its nodes and counts what it declines. -/
theorem level_adds (store : GraphStore) (frontier : List ImpactNode) (walk : Walk) :
    Adds walk (frontier.foldl (explore store) walk) (frontier.flatMap (callersInto store))
      fun reason => (frontier.map fun node => declinedCount store reason node.name).sum :=
  Adds.foldl (explore_adds store) frontier walk

theorem mem_level_callers {store : GraphStore} {frontier : List ImpactNode} {caller : ImpactNode} :
    caller ∈ frontier.flatMap (callersInto store) ↔
      ∃ node ∈ frontier, CallEdge store caller node := by
  simp only [List.mem_flatMap, mem_callersInto]

/-! ## The walk -/

section Loop
variable (store : GraphStore) (seeds : List ImpactNode)

/-- What the walk knows before it explores level `depth`. -/
structure AtLevel (depth : Nat) (explored frontier : List ImpactNode) (walk : Walk) : Prop where
  levels : Levels (CallEdge store) (· ∈ seeds) depth walk.visited frontier
  mem_iff : ∀ node, node ∈ explored ↔ ∃ n < depth, Chain (CallEdge store) (· ∈ seeds) n node
  listed : explored = [] ∧ frontier = seeds ∨ ∃ rest, explored = seeds ++ rest ∧
    (rest ++ frontier).Nodup ∧ ∀ node ∈ rest ++ frontier, node ∉ seeds
  counts : ∀ reason, walk.report.count reason =
    (explored.map fun node => declinedCount store reason node.name).sum
  untruncated : walk.report.truncated = false

variable {store seeds}

theorem AtLevel.start {walk : Walk} (visited : walk.visited = seeds.toFinset)
    (report : walk.report = {}) : AtLevel store seeds 0 [] seeds walk where
  levels := visited ▸ Levels.start fun node => Iff.rfl
  mem_iff node := by simp
  listed := .inl ⟨rfl, rfl⟩
  counts reason := by
    rw [report]
    cases reason <;> rfl
  untruncated := by rw [report]

/-- One turn of the `while` loop explores one level. -/
theorem AtLevel.advance {depth : Nat} {explored frontier : List ImpactNode} {walk walk' : Walk}
    (level : AtLevel store seeds depth explored frontier walk)
    (stepped : walk' = frontier.foldl (explore store) { walk with next := [] }) :
    AtLevel store seeds (depth + 1) (explored ++ frontier) walk'.next walk' := by
  have adds := level_adds store frontier { walk with next := [] }
  rw [← stepped] at adds
  have visited : ∀ node, node ∈ walk'.visited ↔
      node ∈ walk.visited ∨ ∃ y ∈ frontier, CallEdge store node y := by
    intro node
    rw [← mem_level_callers]
    exact (congrArg (node ∈ ·.1) adds.visits).to_iff.trans mem_visited
  have next : ∀ node, node ∈ walk'.next ↔
      (∃ y ∈ frontier, CallEdge store node y) ∧ node ∉ walk.visited := by
    intro node
    rw [← mem_level_callers]
    have listed := (congrArg (node ∈ ·.2) adds.visits).to_iff.trans mem_listed
    simpa using listed
  have distinct : walk'.next.Nodup := by
    have nodup := @nodup_listed _ _ (frontier.flatMap (callersInto store)) (walk.visited, [])
      (by simp) List.nodup_nil
    rw [← adds.visits] at nodup
    exact nodup
  have levels := level.levels.advance visited next
  have seeded : ∀ node ∈ seeds, node ∈ walk.visited := fun node seed =>
    (level.levels.visited_iff node).mpr ⟨0, Nat.zero_le depth, .seed seed⟩
  have fresh : ∀ node ∈ walk'.next, node ∉ walk.visited := fun node listed =>
    ((next node).mp listed).2
  have held : ∀ node ∈ explored, node ∈ walk.visited := by
    intro node member
    obtain ⟨n, less, chain⟩ := (level.mem_iff node).mp member
    exact (level.levels.visited_iff node).mpr ⟨n, less.le, chain⟩
  refine ⟨levels, fun node => ?_, .inr ?_, fun reason => ?_, ?_⟩
  · rw [List.mem_append, level.mem_iff, level.levels.frontier_iff, level.levels.visited_iff]
    constructor
    · rintro (⟨n, less, chain⟩ | ⟨⟨n, least, chain⟩, -⟩)
      · exact ⟨n, by omega, chain⟩
      · exact ⟨n, by omega, chain⟩
    · rintro ⟨n, less, chain⟩
      by_cases earlier : ∃ m < depth, Chain (CallEdge store) (· ∈ seeds) m node
      · exact .inl earlier
      · push Not at earlier
        exact .inr ⟨⟨n, by omega, chain⟩, earlier⟩
  · rcases level.listed with ⟨rfl, rfl⟩ | ⟨rest, rfl, nodup, unseeded⟩
    · refine ⟨[], by simp, distinct, fun node listed seed => ?_⟩
      exact fresh node listed (seeded node seed)
    · refine ⟨rest ++ frontier, List.append_assoc seeds rest frontier, ?_, ?_⟩
      · rw [List.nodup_append]
        refine ⟨nodup, distinct, fun node member other listed same => ?_⟩
        apply fresh other listed
        rw [← same]
        rcases List.mem_append.mp member with before | now
        · exact held node (List.mem_append_right seeds before)
        · exact ((level.levels.frontier_iff node).mp now).1
      · intro node member seed
        rcases List.mem_append.mp member with before | listed
        · exact unseeded node before seed
        · exact fresh node listed (seeded node seed)
  · rw [adds.counts, level.counts, List.map_append, List.sum_append]
  · rw [adds.truncated, level.untruncated]

variable (store seeds) in
/-- What the walk knows when it has ended. -/
structure Walked (maxDepth : Option Nat) (explored : List ImpactNode) (walk : Walk) : Prop where
  visited_iff : ∀ node, node ∈ walk.visited ↔
    ∃ n, (∀ limit, maxDepth = some limit → n ≤ limit) ∧ Chain (CallEdge store) (· ∈ seeds) n node
  mem_iff : ∀ node, node ∈ explored ↔
    ∃ n, (∀ limit, maxDepth = some limit → n < limit) ∧ Chain (CallEdge store) (· ∈ seeds) n node
  listed : explored = [] ∨ ∃ rest, explored = seeds ++ rest ∧ rest.Nodup ∧ ∀ node ∈ rest, node ∉ seeds
  counts : ∀ reason, walk.report.count reason =
    (explored.map fun node => declinedCount store reason node.name).sum
  complete : walk.report.truncated = false → ∀ node, node ∈ walk.visited ↔
    Reaches (CallEdge store) (· ∈ seeds) node

theorem AtLevel.listed' {depth : Nat} {explored frontier : List ImpactNode} {walk : Walk}
    (level : AtLevel store seeds depth explored frontier walk) :
    explored = [] ∨ ∃ rest, explored = seeds ++ rest ∧ rest.Nodup ∧ ∀ node ∈ rest, node ∉ seeds := by
  rcases level.listed with ⟨none_explored, -⟩ | ⟨rest, listed, nodup, unseeded⟩
  · exact .inl none_explored
  · exact .inr ⟨rest, listed, (List.nodup_append.mp nodup).1,
      fun node member => unseeded node (List.mem_append_left frontier member)⟩

/-- A walk whose frontier is empty has followed every chain. -/
theorem AtLevel.complete {depth : Nat} {explored : List ImpactNode} {walk : Walk}
    {maxDepth : Option Nat} (level : AtLevel store seeds depth explored [] walk)
    (inside : ∀ limit, maxDepth = some limit → depth ≤ limit) :
    Walked store seeds maxDepth explored walk := by
  have complete := level.levels.complete
  have early : ∀ node, Reaches (CallEdge store) (· ∈ seeds) node →
      ∃ n < depth, Chain (CallEdge store) (· ∈ seeds) n node := by
    intro node reaches
    by_contra none_early
    push Not at none_early
    exact List.not_mem_nil
      ((level.levels.frontier_iff node).mpr ⟨(complete node).mpr reaches, none_early⟩)
  refine ⟨fun node => ?_, fun node => ?_, level.listed', level.counts, fun _ => complete⟩
  · rw [complete]
    constructor
    · intro reaches
      obtain ⟨n, less, chain⟩ := early node reaches
      exact ⟨n, fun limit bounded => by have := inside limit bounded; omega, chain⟩
    · rintro ⟨n, -, chain⟩
      exact ⟨n, chain⟩
  · rw [level.mem_iff]
    constructor
    · rintro ⟨n, less, chain⟩
      exact ⟨n, fun limit bounded => by have := inside limit bounded; omega, chain⟩
    · rintro ⟨n, -, chain⟩
      exact early node ⟨n, chain⟩

/-- A walk that is cut has followed the chains up to its depth. -/
theorem AtLevel.cut {depth : Nat} {explored frontier : List ImpactNode} {walk : Walk}
    (level : AtLevel store seeds depth explored frontier walk) :
    Walked store seeds (some depth) explored { walk with report.truncated := true } where
  visited_iff node := by
    rw [level.levels.visited_iff]
    constructor
    · rintro ⟨n, least, chain⟩
      exact ⟨n, fun limit same => Option.some.inj same ▸ least, chain⟩
    · rintro ⟨n, inside, chain⟩
      exact ⟨n, inside depth rfl, chain⟩
  mem_iff node := by
    rw [level.mem_iff]
    constructor
    · rintro ⟨n, less, chain⟩
      exact ⟨n, fun limit same => Option.some.inj same ▸ less, chain⟩
    · rintro ⟨n, inside, chain⟩
      exact ⟨n, inside depth rfl, chain⟩
  listed := level.listed'
  counts reason := by
    rw [← level.counts]
    cases reason <;> rfl
  complete untruncated := by cases untruncated

/-- Whatever level a walk ends on, it has walked to its limit or to the end. -/
theorem walkLoop_walked {maxDepth : Option Nat} {fuel depth : Nat}
    {explored frontier : List ImpactNode} {walk final : Walk}
    (level : AtLevel store seeds depth explored frontier walk)
    (inside : ∀ limit, maxDepth = some limit → depth ≤ limit)
    (ended : walkLoop store maxDepth fuel depth frontier walk = some final) :
    ∃ explored, Walked store seeds maxDepth explored final := by
  induction fuel generalizing depth explored frontier walk with
  | zero =>
    cases frontier with
    | nil =>
      rw [walkLoop, Option.some.injEq] at ended
      exact ⟨explored, ended ▸ level.complete inside⟩
    | cons node nodes => cases ended
  | succ fuel ih =>
    cases frontier with
    | nil =>
      rw [walkLoop, Option.some.injEq] at ended
      exact ⟨explored, ended ▸ level.complete inside⟩
    | cons node nodes =>
      rw [walkLoop] at ended
      split at ended
      next reached =>
        cases bounded : maxDepth with
        | none =>
          rw [bounded] at reached
          cases reached
        | some limit =>
          rw [bounded, Option.any_some, decide_eq_true_iff] at reached
          obtain rfl : limit = depth := le_antisymm reached (inside limit bounded)
          exact ⟨explored, Option.some.inj ended ▸ level.cut⟩
      next below =>
        refine ih (level.advance rfl) (fun limit bounded => ?_) ended
        rw [bounded] at below
        simp at below
        omega

/-- A walk that has ended stays as it ended with more turns. -/
theorem walkLoop_succ {maxDepth : Option Nat} {fuel depth : Nat} {frontier : List ImpactNode}
    {walk final : Walk} (ended : walkLoop store maxDepth fuel depth frontier walk = some final) :
    walkLoop store maxDepth (fuel + 1) depth frontier walk = some final := by
  induction fuel generalizing depth frontier walk with
  | zero =>
    cases frontier with
    | nil => exact ended
    | cons node nodes => cases ended
  | succ fuel ih =>
    cases frontier with
    | nil => exact ended
    | cons node nodes =>
      rw [walkLoop] at ended ⊢
      split at ended
      next reached => rw [if_pos reached, ended]
      next below =>
        rw [if_neg below]
        exact ih ended

/-- Every level but the last visits a node that was not visited before. -/
theorem exists_walkLoop {all : Finset ImpactNode}
    (within : ∀ node, ∀ caller ∈ callersInto store node, caller ∈ all) {maxDepth : Option Nat}
    {fuel depth : Nat} {frontier : List ImpactNode} {walk : Walk}
    (enough : (all \ walk.visited).card + (if frontier = [] then 0 else 1) ≤ fuel) :
    ∃ final, walkLoop store maxDepth fuel depth frontier walk = some final := by
  induction fuel generalizing depth frontier walk with
  | zero =>
    cases frontier with
    | nil => exact ⟨walk, rfl⟩
    | cons node nodes => simp at enough
  | succ fuel ih =>
    cases frontier with
    | nil => exact ⟨walk, rfl⟩
    | cons node nodes =>
      rw [walkLoop]
      split
      · exact ⟨_, rfl⟩
      · apply ih
        have adds := level_adds store (node :: nodes) { walk with next := [] }
        have callers : ∀ caller ∈ (node :: nodes).flatMap (callersInto store), caller ∈ all := by
          intro caller member
          obtain ⟨node, -, leads⟩ := List.mem_flatMap.mp member
          exact within node caller leads
        have kept := card_visited callers (walk.visited, [])
        rw [← adds.visits] at kept
        simp only [List.length_nil, Nat.zero_add] at kept
        simp only [reduceCtorEq, if_false] at enough
        split
        · omega
        next some_next =>
          have grown := List.length_pos_iff.mpr some_next
          omega

theorem walkLoop_ends {all : Finset ImpactNode}
    (within : ∀ node, ∀ caller ∈ callersInto store node, caller ∈ all) (maxDepth : Option Nat)
    (depth : Nat) (frontier : List ImpactNode) (walk : Walk) :
    ∃ final, Ends (walkLoop store maxDepth · depth frontier walk) final := by
  obtain ⟨final, ended⟩ := @exists_walkLoop store _ within maxDepth _ depth frontier walk le_rfl
  exact ⟨final, .of_succ (fun _ => walkLoop_succ) ended⟩

end Loop

/-! ## The whole walk -/

/-- The callers of all references of a view. -/
def allCallers (store : GraphStore) : Finset ImpactNode :=
  (store.allReferences.filterMap fun located =>
    located.item.fromName.map fun caller => ⟨caller, located.path⟩).toFinset

theorem GraphStore.Coherent.mem_allCallers {store : GraphStore} (coherent : store.Coherent)
    {caller node : ImpactNode} (leads : CallEdge store caller node) : caller ∈ allCallers store := by
  obtain ⟨resolved, listed, -, -, made, path⟩ := leads
  obtain ⟨located, found, rfl⟩ := List.mem_map.mp listed
  rw [allCallers, List.mem_toFinset, List.mem_filterMap]
  refine ⟨located, ((coherent.referencesTo _ _).mp found).1, ?_⟩
  rw [Option.map_eq_some_iff]
  have at_path : located.path = caller.path := path
  exact ⟨caller.name, made, by rw [at_path]⟩

/-- A reference that resolves to a node is a call edge by name as well. -/
theorem GraphStore.Coherent.mem_callersOf {store : GraphStore} (coherent : store.Coherent)
    {caller node : ImpactNode} (leads : CallEdge store caller node) :
    caller.name ∈ store.callersOf node.name := by
  obtain ⟨resolved, listed, called, -, made, -⟩ := leads
  obtain ⟨located, found, rfl⟩ := List.mem_map.mp listed
  exact (coherent.callersOf _ _).mpr ⟨located, found, called, made⟩

theorem resolvedImpact_succ {store : GraphStore} {name : String} {maxDepth : Option Nat} {fuel : Nat}
    {report : ImpactReport} (ended : resolvedImpact store name maxDepth fuel = some report) :
    resolvedImpact store name maxDepth (fuel + 1) = some report := by
  obtain ⟨walk, walked, rfl⟩ := Option.map_eq_some_iff.mp ended
  rw [resolvedImpact, walkLoop_succ walked, Option.map_some]

/-- The walk ends with a report that is read off what it knows. -/
theorem GraphStore.Coherent.resolvedImpact_ends {store : GraphStore} (coherent : store.Coherent)
    (name : String) (maxDepth : Option Nat) :
    ∃ walk explored, Walked store (impactSeeds store name) maxDepth explored walk ∧
      Ends (resolvedImpact store name maxDepth)
        { walk.report with reached := (walk.visited \ (impactSeeds store name).toFinset).sort } := by
  have within : ∀ node, ∀ caller ∈ callersInto store node, caller ∈ allCallers store :=
    fun node caller leads => coherent.mem_allCallers (mem_callersInto.mp leads)
  obtain ⟨walk, ends⟩ := walkLoop_ends within maxDepth 0 (impactSeeds store name)
    { visited := (impactSeeds store name).toFinset, next := [], report := {} }
  obtain ⟨fuel, ended⟩ := ends.exists_eq
  obtain ⟨explored, walked⟩ :=
    walkLoop_walked (AtLevel.start rfl rfl) (fun limit _ => Nat.zero_le limit) ended
  exact ⟨walk, explored, walked, ends.map _⟩

theorem mem_impactSeeds {store : GraphStore} {name : String} {node : ImpactNode} :
    node ∈ impactSeeds store name ↔
      node.name = name ∧ ∃ d ∈ store.definitions name, d.path = node.path := by
  rw [impactSeeds, List.mem_map]
  constructor
  · rintro ⟨d, listed, rfl⟩
    exact ⟨rfl, d, listed, rfl⟩
  · rintro ⟨rfl, d, listed, at_path⟩
    exact ⟨d, listed, by rw [at_path]⟩

/-- What the name-based walk reaches holds the names of whatever the resolved walk does. -/
theorem GraphStore.Coherent.name_mem_impact {store : GraphStore} (coherent : store.Coherent)
    {name : String} {fuel : Nat} {names : List String} (ended : store.impact name fuel = some names)
    {node : ImpactNode} (reaches : Reaches (CallEdge store) (· ∈ impactSeeds store name) node) :
    node.name = name ∨ node.name ∈ names := by
  have named : Reaches (fun x y => x ∈ store.callersOf y) (· = name) node.name := by
    refine @Reaches.mem_closed _ _ _ _
      (fun x => Reaches (fun x y => x ∈ store.callersOf y) (· = name) x.name) reaches ?_ ?_
    · exact fun seed member => ⟨0, .seed (mem_impactSeeds.mp member).1⟩
    · exact fun caller called leads held => held.step (coherent.mem_callersOf leads)
  by_cases same : node.name = name
  · exact .inl same
  · exact .inr ((GraphStore.mem_impact ended node.name).mpr ⟨same, named⟩)

/-- The names of all callers hold whatever calls a name. -/
theorem GraphStore.Coherent.impact_ends {store : GraphStore} (coherent : store.Coherent)
    (name : String) : ∃ names, Ends (store.impact name) names := by
  have finite : ∀ called, ∀ caller ∈ store.callersOf called, caller ∈
      (store.allReferences.filterMap fun located => located.item.fromName).toFinset := by
    intro called caller member
    obtain ⟨located, listed, -, made⟩ := (coherent.callersOf called caller).mp member
    rw [List.mem_toFinset, List.mem_filterMap]
    exact ⟨located, ((coherent.referencesTo _ _).mp listed).1, made⟩
  exact GraphStore.impact_ends finite name

/-- Over any coherent store the walk ends, and it reaches exactly the nodes from which a chain
of resolved calls within the limit leads to a definition of the name. A report that is not
truncated is closed under such calls, and every name it reaches is the name itself or reached
by the name-based walk. -/
theorem GraphStore.Coherent.impact_reaches {store : GraphStore} (coherent : store.Coherent)
    (name : String) (maxDepth : Option Nat) :
    ∃ report, Ends (resolvedImpact store name maxDepth) report ∧
      report.reached.Pairwise (· < ·) ∧
      (∀ node, node ∈ report.reached ↔ node ∉ impactSeeds store name ∧
        ∃ n, (∀ limit, maxDepth = some limit → n ≤ limit) ∧
          Chain (CallEdge store) (· ∈ impactSeeds store name) n node) ∧
      (report.truncated = false → ∀ caller node, CallEdge store caller node →
        node ∈ impactSeeds store name ∨ node ∈ report.reached →
          caller ∈ impactSeeds store name ∨ caller ∈ report.reached) ∧
      ∃ names, Ends (store.impact name) names ∧
        ∀ node ∈ report.reached, node.name = name ∨ node.name ∈ names := by
  obtain ⟨walk, explored, walked, ends⟩ := coherent.resolvedImpact_ends name maxDepth
  obtain ⟨names, impacts⟩ := coherent.impact_ends name
  refine ⟨_, ends, Finset.sortedLT_sort _ |>.pairwise, fun node => ?_, ?_, names, impacts, ?_⟩
  · rw [Finset.mem_sort, Finset.mem_sdiff, List.mem_toFinset, walked.visited_iff, and_comm]
  · intro untruncated caller node leads held
    have complete := walked.complete untruncated
    simp only [Finset.mem_sort, Finset.mem_sdiff, List.mem_toFinset] at held ⊢
    have visited : node ∈ walk.visited := by
      rcases held with seed | ⟨member, -⟩
      · exact (complete node).mpr ⟨0, .seed seed⟩
      · exact member
    have reached := (complete caller).mpr (((complete node).mp visited).step leads)
    by_cases seed : caller ∈ impactSeeds store name
    · exact .inl seed
    · exact .inr ⟨reached, seed⟩
  · intro node member
    simp only [Finset.mem_sort, Finset.mem_sdiff] at member
    obtain ⟨fuel, ended⟩ := impacts.exists_eq
    obtain ⟨n, -, chain⟩ := (walked.visited_iff node).mp member.1
    exact coherent.name_mem_impact ended ⟨n, chain⟩

/-- So it does over the slices of any view. -/
theorem resolvedImpact_exact (self : InMemoryGraphStore) (name : String) (maxDepth : Option Nat) :
    ∃ report, Ends (resolvedImpact self.queries name maxDepth) report ∧
      report.reached.Pairwise (· < ·) ∧
      (∀ node, node ∈ report.reached ↔ node ∉ impactSeeds self.queries name ∧
        ∃ n, (∀ limit, maxDepth = some limit → n ≤ limit) ∧
          Chain (CallEdge self.queries) (· ∈ impactSeeds self.queries name) n node) ∧
      (report.truncated = false → ∀ caller node, CallEdge self.queries caller node →
        node ∈ impactSeeds self.queries name ∨ node ∈ report.reached →
          caller ∈ impactSeeds self.queries name ∨ caller ∈ report.reached) ∧
      ∃ names, Ends (self.queries.impact name) names ∧
        ∀ node ∈ report.reached, node.name = name ∨ node.name ∈ names :=
  self.coherent.impact_reaches name maxDepth

/-! ## What the counters count -/

/-- The walk goes through the references to the name of the node: a chain shorter than the
limit leads from it to a definition. -/
def Explores (store : GraphStore) (name : String) (maxDepth : Option Nat) (node : ImpactNode) :
    Prop :=
  ∃ n, (∀ limit, maxDepth = some limit → n < limit) ∧
    Chain (CallEdge store) (· ∈ impactSeeds store name) n node

/-- No two explored definitions share a name with a reference declined for the reason: such
a name has one node, and the name asked for has one definition. -/
def CountedOnce (store : GraphStore) (name : String) (maxDepth : Option Nat) (reason : Declined) :
    Prop :=
  ∀ shared, 0 < declinedCount store reason shared →
    (∀ x y, Explores store name maxDepth x → Explores store name maxDepth y →
      x.name = shared → y.name = shared → x = y) ∧
    (shared = name → maxDepth ≠ some 0 → (store.definitions name).length ≤ 1)

section Counting
variable {seeds explored : List ImpactNode}

theorem eq_of_length_le_one {nodes : List ImpactNode} (single : nodes.length ≤ 1)
    {x y : ImpactNode} (mem_x : x ∈ nodes) (mem_y : y ∈ nodes) : x = y := by
  match nodes, single with
  | [node], _ => rw [List.mem_singleton.mp mem_x, List.mem_singleton.mp mem_y]

theorem length_le_one_of_eq {nodes : List ImpactNode} (nodup : nodes.Nodup)
    (same : ∀ x ∈ nodes, ∀ y ∈ nodes, x = y) : nodes.length ≤ 1 := by
  match nodes with
  | [] => exact Nat.zero_le 1
  | [node] => exact le_rfl
  | x :: y :: rest =>
    have equal := same x List.mem_cons_self y (List.mem_cons_of_mem x List.mem_cons_self)
    rw [equal] at nodup
    exact absurd List.mem_cons_self (List.nodup_cons.mp nodup).1

/-- A name occurs once among the explored nodes if all its nodes are one node and that
node is not listed twice among the seeds. -/
theorem length_named_le_one
    (listed : explored = [] ∨
      ∃ rest, explored = seeds ++ rest ∧ rest.Nodup ∧ ∀ node ∈ rest, node ∉ seeds)
    (named : ImpactNode → Bool) :
    (explored.filter named).length ≤ 1 ↔
      (∀ x ∈ explored, ∀ y ∈ explored, named x → named y → x = y) ∧
      (explored ≠ [] → (seeds.filter named).length ≤ 1) := by
  constructor
  · intro single
    constructor
    · intro x member y member' same same'
      exact eq_of_length_le_one single (List.mem_filter.mpr ⟨member, same⟩)
        (List.mem_filter.mpr ⟨member', same'⟩)
    · intro some_explored
      obtain ⟨rest, rfl, -⟩ := listed.resolve_left some_explored
      rw [List.filter_append, List.length_append] at single
      omega
  · rintro ⟨same, seeded⟩
    rcases listed with rfl | ⟨rest, rfl, nodup, unseeded⟩
    · exact Nat.zero_le 1
    · have all_same : ∀ x ∈ (seeds ++ rest).filter named, ∀ y ∈ (seeds ++ rest).filter named,
          x = y := by
        intro x member y member'
        obtain ⟨member, name⟩ := List.mem_filter.mp member
        obtain ⟨member', name'⟩ := List.mem_filter.mp member'
        exact same x member y member' name name'
      rw [List.filter_append] at all_same ⊢
      have few : (rest.filter named).length ≤ 1 :=
        length_le_one_of_eq (nodup.filter _) fun x member y member' =>
          all_same x (List.mem_append_right _ member) y (List.mem_append_right _ member')
      rw [List.length_append]
      rcases List.eq_nil_or_concat (rest.filter named) with none_left | ⟨front, last, some_left⟩
      · rw [none_left, List.length_nil]
        by_cases none_explored : seeds ++ rest = []
        · rw [(List.append_eq_nil_iff.mp none_explored).1]
          exact Nat.zero_le 1
        · exact seeded none_explored
      · -- a node of the rest that shares the name leaves no seed with it
        have left : last ∈ rest.filter named := by simp [some_left]
        have no_seed : seeds.filter named = [] := by
          rw [List.eq_nil_iff_forall_not_mem]
          intro seed member
          have equal := all_same seed (List.mem_append_left _ member) last
            (List.mem_append_right _ left)
          exact unseeded last (List.mem_filter.mp left).1 (equal ▸ (List.mem_filter.mp member).1)
        rw [no_seed, List.length_nil]
        omega

theorem count_names (shared : String) : (explored.map ImpactNode.name).count shared =
    (explored.filter (·.name = shared)).length := by
  rw [List.count, List.countP_map, List.countP_eq_length_filter]
  rfl

end Counting

/-- All seeds have the name asked for. -/
theorem length_seeds_named (store : GraphStore) (name shared : String) :
    ((impactSeeds store name).filter (·.name = shared)).length =
      if shared = name then (store.definitions name).length else 0 := by
  rw [impactSeeds, List.filter_map, List.length_map]
  split
  next same =>
    rw [List.filter_eq_self.mpr fun d _ => by simp [same]]
  next other =>
    have none_named : ¬ name = shared := fun same => other same.symm
    rw [List.filter_eq_nil_iff.mpr fun d _ => by simp [none_named], List.length_nil]

/-- The explored names are those of finitely many nodes, and each counter is the number of
distinct references to them that are declined for its reason exactly when no two explored
definitions share a name with such a reference. -/
theorem GraphStore.Coherent.impact_counts {store : GraphStore} (coherent : store.Coherent)
    (name : String) (maxDepth : Option Nat) :
    ∃ report, Ends (resolvedImpact store name maxDepth) report ∧
      ∃ names : Finset String,
        (∀ n, n ∈ names ↔ ∃ node, Explores store name maxDepth node ∧ node.name = n) ∧
        ∀ reason, (report.count reason = ∑ n ∈ names, declinedCount store reason n ↔
          CountedOnce store name maxDepth reason) := by
  obtain ⟨walk, explored, walked, ends⟩ := coherent.resolvedImpact_ends name maxDepth
  refine ⟨_, ends, (explored.map ImpactNode.name).toFinset, fun n => ?_, fun reason => ?_⟩
  · rw [List.mem_toFinset, List.mem_map]
    exact exists_congr fun node => and_congr_left' (walked.mem_iff node)
  · have counted : ImpactReport.count { walk.report with
        reached := (walk.visited \ (impactSeeds store name).toFinset).sort } reason =
          ((explored.map ImpactNode.name).map (declinedCount store reason)).sum := by
      rw [List.map_map, ImpactReport.count_reached]
      exact walked.counts reason
    rw [counted, sum_map_eq_iff]
    apply forall_congr'
    intro shared
    apply imp_congr_right
    intro costs
    rw [count_names, length_named_le_one walked.listed, length_seeds_named]
    simp only [decide_eq_true_iff]
    apply and_congr
    · constructor
      · exact fun same x y explores explores' =>
          same x ((walked.mem_iff x).mpr explores) y ((walked.mem_iff y).mpr explores')
      · exact fun same x member y member' =>
          same x y ((walked.mem_iff x).mp member) ((walked.mem_iff y).mp member')
    · constructor
      · intro few same unlimited
        rw [if_pos same] at few
        by_contra several
        -- some definition is explored, unless the limit is zero
        obtain ⟨d, defined⟩ := List.exists_mem_of_length_pos (by omega :
          0 < (store.definitions name).length)
        have seed : (⟨name, d.path⟩ : ImpactNode) ∈ impactSeeds store name :=
          mem_impactSeeds.mpr ⟨rfl, d, defined, rfl⟩
        have seeded : (⟨name, d.path⟩ : ImpactNode) ∈ explored := by
          refine (walked.mem_iff _).mpr ⟨0, fun limit bounded => ?_, .seed seed⟩
          apply Nat.pos_of_ne_zero
          rintro rfl
          exact unlimited bounded
        exact several (few (List.ne_nil_of_mem seeded))
      · intro few some_explored
        split
        next same =>
          apply few same
          rintro rfl
          obtain ⟨node, member⟩ := List.exists_mem_of_ne_nil explored some_explored
          obtain ⟨n, inside, -⟩ := (walked.mem_iff node).mp member
          exact absurd (inside 0 rfl) (Nat.not_lt_zero n)
        next => exact Nat.zero_le 1

/-- So it is over the slices of any view. -/
theorem counters_iff (self : InMemoryGraphStore) (name : String) (maxDepth : Option Nat) :
    ∃ report, Ends (resolvedImpact self.queries name maxDepth) report ∧
      ∃ names : Finset String,
        (∀ n, n ∈ names ↔ ∃ node, Explores self.queries name maxDepth node ∧ node.name = n) ∧
        ∀ reason, (report.count reason = ∑ n ∈ names, declinedCount self.queries reason n ↔
          CountedOnce self.queries name maxDepth reason) :=
  self.coherent.impact_counts name maxDepth

section Twice

/-- Two files define `get`, and a third calls it without saying which. -/
def ambiguousView : InMemoryGraphStore :=
  ((InMemoryGraphStore.new.insert "a.rs" { symbols := [betaGet], references := [], imports := [] }).insert
    "b.rs" { symbols := [betaGet], references := [], imports := [] }).insert "c.rs"
      { symbols := [], references := [{ callBetaGet with qualifier := none }], imports := [] }

/-- The one call is declined, and counted once for each definition. -/
theorem ambiguous_counted_twice : ¬ ∀ (self : InMemoryGraphStore) (name : String)
    (maxDepth : Option Nat), ∃ report, Ends (resolvedImpact self.queries name maxDepth) report ∧
      ∃ names : Finset String,
        (∀ n, n ∈ names ↔ ∃ node, Explores self.queries name maxDepth node ∧ node.name = n) ∧
        ∀ reason, report.count reason = ∑ n ∈ names, declinedCount self.queries reason n := by
  intro claimed
  obtain ⟨report, ends, names, explored, counted⟩ := claimed ambiguousView "get" none
  have walked : resolvedImpact ambiguousView.queries "get" none 2 =
      some { ambiguousEdges := 2 } := by decide +kernel
  have declined : declinedCount ambiguousView.queries .ambiguous "get" = 1 := by decide +kernel
  have unresolved : ∀ resolved ∈ resolveReferencesTo ambiguousView.queries "get",
      resolved.target = none := by decide +kernel
  have ended := ends.unique (.of_succ (fun _ => resolvedImpact_succ) walked)
  have seeds : ∀ m node, Chain (CallEdge ambiguousView.queries)
      (· ∈ impactSeeds ambiguousView.queries "get") m node → node.name = "get" := by
    intro m node chain
    induction chain with
    | seed seed => exact (mem_impactSeeds.mp seed).1
    | step leads _ ih =>
      obtain ⟨resolved, listed, -, reached, -⟩ := leads
      rw [ih] at listed
      rw [unresolved resolved listed] at reached
      cases reached
  have within : names ⊆ {"get"} := by
    intro n member
    obtain ⟨node, ⟨m, -, chain⟩, rfl⟩ := (explored n).mp member
    exact Finset.mem_singleton.mpr (seeds m node chain)
  have least : ∑ n ∈ names, declinedCount ambiguousView.queries .ambiguous n ≤ 1 := by
    have bound := Finset.sum_le_sum_of_subset (f := declinedCount ambiguousView.queries .ambiguous)
      within
    rw [Finset.sum_singleton, declined] at bound
    exact bound
  have two := counted .ambiguous
  rw [ended] at two
  have counter : ImpactReport.count { ambiguousEdges := 2 } .ambiguous = 2 := rfl
  omega

end Twice

end Gonzalo.Graph
