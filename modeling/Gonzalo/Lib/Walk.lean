import Mathlib

/-!
# Breadth-first walks

A walk keeps the set it has visited and the list it has still to explore. `visit` is
its one step: a new member enters both. `Chain` counts the edges to a seed, and two
invariants say what a walk has visited: after the whole of level `depth` it is the
members within `depth` edges, and once nothing is left to explore it is closed.
-/

set_option autoImplicit false

namespace Gonzalo.Lib

variable {α : Type}

/-- From some number of turns on the walk has ended with the result. -/
def Ends (walk : Nat → Option α) (result : α) : Prop :=
  ∃ turns, ∀ fuel, turns ≤ fuel → walk fuel = some result

/-- A walk that has ended, and stays as it ended with one more turn, ends. -/
theorem Ends.of_succ {walk : Nat → Option α} {turns : Nat} {result : α}
    (more : ∀ fuel, walk fuel = some result → walk (fuel + 1) = some result)
    (ended : walk turns = some result) : Ends walk result := by
  refine ⟨turns, fun fuel enough => ?_⟩
  induction fuel, enough using Nat.le_induction with
  | base => exact ended
  | succ fuel _ ih => exact more fuel ih

/-- A walk ends with one result. -/
theorem Ends.unique {walk : Nat → Option α} {result other : α} (ends : Ends walk result)
    (ends' : Ends walk other) : result = other := by
  obtain ⟨turns, ended⟩ := ends
  obtain ⟨turns', ended'⟩ := ends'
  have same := ended (max turns turns') (le_max_left _ _)
  rw [ended' (max turns turns') (le_max_right _ _)] at same
  exact (Option.some.inj same).symm

/-- What is read off the result of a walk is known when the walk has ended. -/
theorem Ends.map {β : Type} {walk : Nat → Option α} {result : α} (f : α → β)
    (ends : Ends walk result) : Ends (fun fuel => (walk fuel).map f) (f result) := by
  obtain ⟨turns, ended⟩ := ends
  exact ⟨turns, fun fuel enough => congrArg (Option.map f) (ended fuel enough)⟩

/-- A walk ends with what it has returned for some number of turns. -/
theorem Ends.exists_eq {walk : Nat → Option α} {result : α} (ends : Ends walk result) :
    ∃ fuel, walk fuel = some result := by
  obtain ⟨turns, ended⟩ := ends
  exact ⟨turns, ended turns le_rfl⟩

section Visit
variable [DecidableEq α]

/-- Visit one member: it is listed for exploration unless it was visited before. -/
def visit (state : Finset α × List α) (x : α) : Finset α × List α :=
  if x ∈ state.1 then state else (insert x state.1, state.2 ++ [x])

theorem visit_old {state : Finset α × List α} {x : α} (old : x ∈ state.1) :
    visit state x = state := if_pos old

theorem visit_new {state : Finset α × List α} {x : α} (new : x ∉ state.1) :
    visit state x = (insert x state.1, state.2 ++ [x]) := if_neg new

/-- Whatever is visited was visited before or is among the members of the list. -/
theorem mem_visited {xs : List α} {state : Finset α × List α} {x : α} :
    x ∈ (xs.foldl visit state).1 ↔ x ∈ state.1 ∨ x ∈ xs := by
  induction xs generalizing state with
  | nil => simp
  | cons first rest ih =>
    rw [List.foldl_cons, ih]
    by_cases old : first ∈ state.1
    · rw [visit_old old, List.mem_cons]
      constructor
      · exact Or.imp_right Or.inr
      · rintro (held | rfl | later)
        · exact .inl held
        · exact .inl old
        · exact .inr later
    · rw [visit_new old, Finset.mem_insert, List.mem_cons]
      tauto

/-- Only the members not visited before are listed. -/
theorem mem_listed {xs : List α} {state : Finset α × List α} {x : α} :
    x ∈ (xs.foldl visit state).2 ↔ x ∈ state.2 ∨ x ∈ xs ∧ x ∉ state.1 := by
  induction xs generalizing state with
  | nil => simp
  | cons first rest ih =>
    rw [List.foldl_cons, ih]
    by_cases old : first ∈ state.1
    · rw [visit_old old, List.mem_cons]
      constructor
      · exact Or.imp_right (And.imp_left Or.inr)
      · rintro (listed | ⟨rfl | later, fresh⟩)
        · exact .inl listed
        · exact absurd old fresh
        · exact .inr ⟨later, fresh⟩
    · rw [visit_new old]
      by_cases same : x = first
      · subst same
        simp [old]
      · simp [same]

theorem nodup_listed {xs : List α} {state : Finset α × List α}
    (within : ∀ x ∈ state.2, x ∈ state.1) (distinct : state.2.Nodup) :
    (xs.foldl visit state).2.Nodup := by
  induction xs generalizing state with
  | nil => exact distinct
  | cons first rest ih =>
    rw [List.foldl_cons]
    by_cases old : first ∈ state.1
    · rw [visit_old old]
      exact ih within distinct
    · rw [visit_new old]
      apply ih
      · intro x listed
        rcases List.mem_append.mp listed with before | last
        · exact Finset.mem_insert_of_mem (within x before)
        · rw [List.mem_singleton.mp last]
          exact Finset.mem_insert_self _ _
      · have unlisted : first ∉ state.2 := fun listed => old (within first listed)
        exact List.nodup_append.mpr ⟨distinct, List.nodup_singleton first,
          fun x before y last => by
            rw [List.mem_singleton.mp last]
            exact fun same => unlisted (same ▸ before)⟩

/-- Every member that is listed leaves the members not visited. -/
theorem card_visited {all : Finset α} {xs : List α} (within : ∀ x ∈ xs, x ∈ all)
    (state : Finset α × List α) :
    (xs.foldl visit state).2.length + (all \ (xs.foldl visit state).1).card =
      state.2.length + (all \ state.1).card := by
  induction xs generalizing state with
  | nil => rfl
  | cons first rest ih =>
    rw [List.foldl_cons, ih fun x member => within x (List.mem_cons_of_mem _ member)]
    by_cases old : first ∈ state.1
    · rw [visit_old old]
    · rw [visit_new old]
      have left : first ∈ all \ state.1 :=
        Finset.mem_sdiff.mpr ⟨within first List.mem_cons_self, old⟩
      have counted : 0 < (all \ state.1).card := Finset.card_pos.mpr ⟨first, left⟩
      rw [Finset.sdiff_insert, Finset.card_erase_of_mem left, List.length_append,
        List.length_singleton]
      omega

end Visit

/-! ## Chains of edges -/

section Chains
variable (edge : α → α → Prop) (seed : α → Prop)

/-- A chain of exactly so many edges leads from the member to a seed. -/
inductive Chain : Nat → α → Prop where
  | seed {x : α} : seed x → Chain 0 x
  | step {n : Nat} {x y : α} : edge x y → Chain n y → Chain (n + 1) x

/-- A chain of at most so many edges leads from the member to a seed. -/
def Within (n : Nat) (x : α) : Prop := ∃ m ≤ n, Chain edge seed m x

/-- Some chain of edges leads from the member to a seed. -/
def Reaches (x : α) : Prop := ∃ n, Chain edge seed n x

variable {edge : α → α → Prop} {seed : α → Prop}

theorem Within.reaches {n : Nat} {x : α} (within : Within edge seed n x) :
    Reaches edge seed x := by
  obtain ⟨m, -, chain⟩ := within
  exact ⟨m, chain⟩

theorem within_zero {x : α} : Within edge seed 0 x ↔ seed x := by
  constructor
  · rintro ⟨m, least, chain⟩
    obtain rfl : m = 0 := by omega
    cases chain with
    | seed held => exact held
  · exact fun held => ⟨0, le_rfl, .seed held⟩

theorem within_succ {n : Nat} {x : α} :
    Within edge seed (n + 1) x ↔ Within edge seed n x ∨ ∃ y, edge x y ∧ Within edge seed n y := by
  constructor
  · rintro ⟨m, least, chain⟩
    cases chain with
    | seed held => exact .inl ⟨0, Nat.zero_le n, .seed held⟩
    | step leads rest => exact .inr ⟨_, leads, _, by omega, rest⟩
  · rintro (⟨m, least, chain⟩ | ⟨y, leads, m, least, chain⟩)
    · exact ⟨m, by omega, chain⟩
    · exact ⟨m + 1, by omega, .step leads chain⟩

theorem Reaches.step {x y : α} (leads : edge x y) (reaches : Reaches edge seed y) :
    Reaches edge seed x := by
  obtain ⟨n, chain⟩ := reaches
  exact ⟨n + 1, .step leads chain⟩

/-- A closed set that holds the seeds holds every member with a chain to one. -/
theorem Reaches.mem_closed {x : α} {closed : α → Prop} (reaches : Reaches edge seed x)
    (seeds : ∀ y, seed y → closed y) (step : ∀ y z, edge y z → closed z → closed y) :
    closed x := by
  obtain ⟨n, chain⟩ := reaches
  induction chain with
  | seed held => exact seeds _ held
  | step leads _ ih => exact step _ _ leads ih

/-! ## Levels -/

variable (edge seed) in
/-- What a level-by-level walk knows once level `depth` is visited: its members are those
within `depth` edges, and it has still to explore those that no shorter chain reaches. -/
structure Levels (depth : Nat) (visited : Finset α) (frontier : List α) : Prop where
  visited_iff : ∀ x, x ∈ visited ↔ Within edge seed depth x
  frontier_iff : ∀ x, x ∈ frontier ↔ x ∈ visited ∧ ∀ m < depth, ¬ Chain edge seed m x

/-- The seeds are level zero. -/
theorem Levels.start [DecidableEq α] {seeds : List α} (seeded : ∀ x, x ∈ seeds ↔ seed x) :
    Levels edge seed 0 seeds.toFinset seeds where
  visited_iff x := by rw [List.mem_toFinset, seeded, within_zero]
  frontier_iff x := by simp

/-- Exploring the whole frontier visits the next level. -/
theorem Levels.advance {depth : Nat} {visited visited' : Finset α} {frontier frontier' : List α}
    (levels : Levels edge seed depth visited frontier)
    (grown : ∀ x, x ∈ visited' ↔ x ∈ visited ∨ ∃ y ∈ frontier, edge x y)
    (fresh : ∀ x, x ∈ frontier' ↔ (∃ y ∈ frontier, edge x y) ∧ x ∉ visited) :
    Levels edge seed (depth + 1) visited' frontier' := by
  have reached : ∀ x, x ∈ visited' ↔ Within edge seed (depth + 1) x := by
    intro x
    rw [grown, within_succ, levels.visited_iff]
    constructor
    · rintro (held | ⟨y, listed, leads⟩)
      · exact .inl held
      · have held := ((levels.frontier_iff y).mp listed).1
        exact .inr ⟨y, leads, (levels.visited_iff y).mp held⟩
    · rintro (held | ⟨y, leads, within⟩)
      · exact .inl held
      · by_cases listed : y ∈ frontier
        · exact .inr ⟨y, listed, leads⟩
        · -- a member with a shorter chain was explored on an earlier level
          have held := (levels.visited_iff y).mpr within
          have shorter : ∃ m < depth, Chain edge seed m y := by
            by_contra none
            push Not at none
            exact listed ((levels.frontier_iff y).mpr ⟨held, none⟩)
          obtain ⟨m, less, chain⟩ := shorter
          exact .inl ⟨m + 1, less, .step leads chain⟩
  refine ⟨reached, fun x => ?_⟩
  rw [fresh]
  constructor
  · rintro ⟨found, unseen⟩
    refine ⟨(grown x).mpr (.inr found), fun m less chain => ?_⟩
    exact unseen ((levels.visited_iff x).mpr ⟨m, by omega, chain⟩)
  · rintro ⟨held, first⟩
    have unseen : x ∉ visited := fun old => by
      obtain ⟨m, least, chain⟩ := (levels.visited_iff x).mp old
      exact first m (by omega) chain
    exact ⟨((grown x).mp held).resolve_left unseen, unseen⟩

/-- When a level adds nothing, every chain has been followed. -/
theorem Levels.complete {depth : Nat} {visited : Finset α}
    (levels : Levels edge seed depth visited []) (x : α) :
    x ∈ visited ↔ Reaches edge seed x := by
  have followed : ∀ y, y ∈ visited → ∃ m < depth, Chain edge seed m y := by
    intro y held
    by_contra none
    push Not at none
    exact List.not_mem_nil ((levels.frontier_iff y).mpr ⟨held, none⟩)
  constructor
  · exact fun held => ((levels.visited_iff x).mp held).reaches
  · intro reaches
    refine reaches.mem_closed ?_ ?_
    · intro y held
      exact (levels.visited_iff y).mpr ⟨0, Nat.zero_le depth, .seed held⟩
    · intro y z leads held
      obtain ⟨m, less, chain⟩ := followed z held
      exact (levels.visited_iff y).mpr ⟨m + 1, less, .step leads chain⟩

end Chains

/-! ## Queues -/

section Queues
variable [DecidableEq α] (next : α → List α)

/-- Explore a queue to its end: `none` when it has not ended after `fuel` turns. -/
def drain : Nat → Finset α → List α → Option (Finset α)
  | _, visited, [] => some visited
  | 0, _, _ :: _ => none
  | fuel + 1, visited, current :: queue =>
    let state := (next current).foldl visit (visited, queue)
    drain fuel state.1 state.2

/-- What a queue walk knows: the queue is visited, what has left it is explored, and
every member visited has a chain to a seed. -/
structure Queued (seed : α → Prop) (visited : Finset α) (queue : List α) : Prop where
  seeds : ∀ x, seed x → x ∈ visited
  queued : ∀ x ∈ queue, x ∈ visited
  explored : ∀ y ∈ visited, y ∉ queue → ∀ x ∈ next y, x ∈ visited
  reached : ∀ x ∈ visited, Reaches (fun x y => x ∈ next y) seed x

variable {next : α → List α} {seed : α → Prop}

theorem Queued.advance {visited : Finset α} {current : α} {queue : List α}
    (walk : Queued next seed visited (current :: queue)) :
    Queued next seed ((next current).foldl visit (visited, queue)).1
      ((next current).foldl visit (visited, queue)).2 where
  seeds x held := mem_visited.mpr (.inl (walk.seeds x held))
  queued x listed := by
    rcases mem_listed.mp listed with before | ⟨found, -⟩
    · exact mem_visited.mpr (.inl (walk.queued x (List.mem_cons_of_mem _ before)))
    · exact mem_visited.mpr (.inr found)
  explored y held unlisted x found := by
    rw [mem_listed, not_or, not_and_not_right] at unlisted
    have old : y ∈ visited := (mem_visited.mp held).elim id unlisted.2
    by_cases same : y = current
    · exact mem_visited.mpr (.inr (same ▸ found))
    · refine mem_visited.mpr (.inl (walk.explored y old ?_ x found))
      exact fun listed => (List.mem_cons.mp listed).elim same unlisted.1
  reached x held := by
    rcases mem_visited.mp held with old | found
    · exact walk.reached x old
    · exact (walk.reached current (walk.queued current List.mem_cons_self)).step found

/-- A queue that is drained has visited exactly the members with a chain to a seed. -/
theorem drain_reached {fuel : Nat} {visited : Finset α} {queue : List α} {reached : Finset α}
    (walk : Queued next seed visited queue)
    (ended : drain next fuel visited queue = some reached) (x : α) :
    x ∈ reached ↔ Reaches (fun x y => x ∈ next y) seed x := by
  induction fuel generalizing visited queue with
  | zero =>
    cases queue with
    | nil =>
      rw [drain, Option.some.injEq] at ended
      subst ended
      exact ⟨walk.reached x, fun reaches => reaches.mem_closed walk.seeds
        fun y z leads held => walk.explored z held List.not_mem_nil y leads⟩
    | cons current queue => cases ended
  | succ fuel ih =>
    cases queue with
    | nil =>
      rw [drain, Option.some.injEq] at ended
      subst ended
      exact ⟨walk.reached x, fun reaches => reaches.mem_closed walk.seeds
        fun y z leads held => walk.explored z held List.not_mem_nil y leads⟩
    | cons current queue => exact ih walk.advance ended

/-- Over finitely many members a queue is drained. -/
theorem exists_drain {all : Finset α} (within : ∀ y, ∀ x ∈ next y, x ∈ all) {fuel : Nat}
    {visited : Finset α} {queue : List α}
    (enough : queue.length + (all \ visited).card ≤ fuel) :
    ∃ reached, drain next fuel visited queue = some reached := by
  induction fuel generalizing visited queue with
  | zero =>
    have ended : queue = [] := List.length_eq_zero_iff.mp (by omega)
    exact ⟨visited, by rw [ended, drain]⟩
  | succ fuel ih =>
    cases queue with
    | nil => exact ⟨visited, rfl⟩
    | cons current queue =>
      apply ih
      have kept := card_visited (within current) (visited, queue)
      rw [List.length_cons] at enough
      simp only at kept
      omega

/-- A drained queue stays drained with more turns. -/
theorem drain_succ {fuel : Nat} {visited : Finset α} {queue : List α} {reached : Finset α}
    (ended : drain next fuel visited queue = some reached) :
    drain next (fuel + 1) visited queue = some reached := by
  induction fuel generalizing visited queue with
  | zero =>
    cases queue with
    | nil => exact ended
    | cons current queue => cases ended
  | succ fuel ih =>
    cases queue with
    | nil => exact ended
    | cons current queue => exact ih ended

/-- Over finitely many members the walk ends. -/
theorem drain_ends {all : Finset α} (within : ∀ y, ∀ x ∈ next y, x ∈ all) (visited : Finset α)
    (queue : List α) : ∃ reached, Ends (drain next · visited queue) reached := by
  obtain ⟨reached, ended⟩ := @exists_drain _ _ _ _ within _ visited queue le_rfl
  exact ⟨reached, .of_succ (fun _ => drain_succ) ended⟩

end Queues

/-! ## Counting visits -/

/-- A sum over a list counts each of its members once exactly when those that cost
something occur once. -/
theorem sum_map_eq_iff [DecidableEq α] (xs : List α) (cost : α → Nat) :
    (xs.map cost).sum = ∑ x ∈ xs.toFinset, cost x ↔ ∀ x, 0 < cost x → xs.count x ≤ 1 := by
  have occurs : ∀ x ∈ xs.toFinset, 0 < xs.count x := fun x member =>
    List.count_pos_iff.mpr (List.mem_toFinset.mp member)
  rw [Finset.sum_list_map_count, eq_comm, Finset.sum_eq_sum_iff_of_le]
  · constructor
    · intro once x costs
      by_cases member : x ∈ xs
      · have same := once x (List.mem_toFinset.mpr member)
        rw [smul_eq_mul] at same
        exact (Nat.eq_of_mul_eq_mul_right costs (by omega : xs.count x * cost x = 1 * cost x)).le
      · simp [List.count_eq_zero_of_not_mem member]
    · intro once x member
      rcases Nat.eq_zero_or_pos (cost x) with free | costs
      · simp [free]
      · have single : xs.count x = 1 := le_antisymm (once x costs) (occurs x member)
        rw [single, one_smul]
  · exact fun x member => Nat.le_mul_of_pos_left _ (occurs x member)

end Gonzalo.Lib
