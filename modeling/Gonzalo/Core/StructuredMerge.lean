import Gonzalo.Core.Merge
import Gonzalo.Lib.Newest

/-!
# What a structured merge keeps

`structured_merge`, `merge_value` and `merge_field` of `gonzalo-core/src/merge.rs`. A field
is absent or has a value, in each of the three documents; `Reached` walks a path as long
as all three hold objects. At the end of every such path the merged document has what
`merge_field` decides there, so a change of one side is taken and nothing else is. All of
this is up to the equality of `serde_json`, which is what the merge itself looks at.
-/

set_option autoImplicit false

namespace Gonzalo.Core

/-! ## Paths -/

/-- What a document has at a path, if anything. -/
def lookup : Option Json → List String → Option Json
  | state, [] => state
  | some (.object fields), name :: path => lookup (fields.get? name) path
  | _, _ :: _ => none

@[simp] theorem lookup_nil (state : Option Json) : lookup state [] = state := by
  cases state <;> rfl

@[simp] theorem lookup_object (fields : JsonFields) (name : String) (path : List String) :
    lookup (some (.object fields)) (name :: path) = lookup (fields.get? name) path := rfl

/-- The three states at the end of a path that passes through objects in all three
documents. -/
inductive Reached : Option Json → Option Json → Option Json → List String →
    Option Json → Option Json → Option Json → Prop
  | here (base ours theirs : Option Json) : Reached base ours theirs [] base ours theirs
  | into (base ours theirs : JsonFields) (name : String) {path : List String}
      {atBase atOurs atTheirs : Option Json}
      (rest : Reached (base.get? name) (ours.get? name) (theirs.get? name) path
        atBase atOurs atTheirs) :
      Reached (some (.object base)) (some (.object ours)) (some (.object theirs)) (name :: path)
        atBase atOurs atTheirs

theorem Reached.lookup_eq {base ours theirs atBase atOurs atTheirs : Option Json}
    {path : List String} (reached : Reached base ours theirs path atBase atOurs atTheirs) :
    lookup base path = atBase ∧ lookup ours path = atOurs ∧ lookup theirs path = atTheirs := by
  induction reached with
  | here base ours theirs => simp
  | into base ours theirs name rest ih => exact ih

/-- All three states are objects. -/
def AllObjects (base ours theirs : Option Json) : Prop :=
  ∃ b o t, base = some (.object b) ∧ ours = some (.object o) ∧ theirs = some (.object t)

/-- Equal documents have equal values at a path. -/
theorem lookup_value (state : Option Json) (path : List String) :
    lookup (state.map Json.value) path = (lookup state path).map Json.value := by
  induction path generalizing state with
  | nil => rw [lookup_nil, lookup_nil]
  | cons name path ih =>
    match state with
    | some (.object fields) =>
      change lookup (fields.value.get? name) path = _
      rw [JsonFields.get?_value, ih, lookup_object]
    | none | some .null | some (.bool _) | some (.number _) | some (.string _)
    | some (.array _) => rfl

theorem Same.lookup {state state' : Option Json} (same : Same state state')
    (path : List String) : Same (lookup state path) (Core.lookup state' path) := by
  have values := congrArg (Core.lookup · path) same
  simpa only [lookup_value] using values

/-! ## One field -/

/-- Both sides changed the field, and not alike. -/
structure Contested (base ours theirs : Option Json) : Prop where
  oursChanged : ¬ Same ours base
  theirsChanged : ¬ Same theirs base
  differ : ¬ Same ours theirs

/-- Both sides added the field, one of them as `null`. -/
structure NullAdded (base ours theirs : Option Json) : Prop where
  absent : base = none
  contested : Contested base ours theirs
  added : ours ≠ none ∧ theirs ≠ none
  isNull : ours = some .null ∨ theirs = some .null

theorem value_eq_null {document : Json} : document.value = .null ↔ document = .null := by
  cases document <;> simp [Json.value]

/-- The sorted keys of three objects, as `merge_value` goes through them. -/
def mergedKeys (base ours theirs : JsonFields) : List String :=
  ((base.keys ++ ours.keys ++ theirs.keys).insertionSort (· ≤ ·)).destutter (· ≠ ·)

theorem mergeField_of_same {base ours theirs : Option Json} (same : Same ours theirs) :
    mergeField base ours theirs = some ours := by
  rw [mergeField.eq_def, if_pos same]

theorem mergeField_of_ours_unchanged {base ours theirs : Option Json} (kept : Same ours base) :
    ∃ result, mergeField base ours theirs = some result ∧ Same result theirs := by
  rw [mergeField.eq_def]
  by_cases same : Same ours theirs
  · rw [if_pos same]
    exact ⟨ours, rfl, same⟩
  · rw [if_neg same, if_pos kept]
    exact ⟨theirs, rfl, rfl⟩

theorem mergeField_of_theirs_unchanged {base ours theirs : Option Json} (kept : Same theirs base) :
    ∃ result, mergeField base ours theirs = some result ∧ Same result ours := by
  rw [mergeField.eq_def]
  by_cases same : Same ours theirs
  · rw [if_pos same]
    exact ⟨ours, rfl, rfl⟩
  · by_cases kept' : Same ours base
    · exact absurd (kept'.trans kept.symm) same
    · rw [if_neg same, if_neg kept', if_pos kept]
      exact ⟨ours, rfl, rfl⟩

theorem mergeValue_of_contested {base ours theirs : Json} :
    ours.value ≠ theirs.value → ours.value ≠ base.value → theirs.value ≠ base.value →
      mergeValue base ours theirs = match base, ours, theirs with
        | .object b, .object o, .object t => (mergeFields b o t (mergedKeys b o t)).map .object
        | _, _, _ => none := by
  intro differ oursChanged theirsChanged
  rw [mergeValue.eq_def, if_neg differ, if_neg oursChanged, if_neg theirsChanged]
  rfl

theorem mergeField_of_contested {base ours theirs : Option Json} :
    Contested base ours theirs →
      mergeField base ours theirs = match ours, theirs with
        | some o, some t => (mergeValue (base.getD .null) o t).map some
        | _, _ => none := by
  intro contested
  have unfolded := mergeField.eq_def base ours theirs
  rw [if_neg contested.differ, if_neg contested.oursChanged, if_neg contested.theirsChanged]
    at unfolded
  exact unfolded.trans (by cases ours <;> cases theirs <;> rfl)

theorem same_some {a b : Json} : Same (some a) (some b) ↔ a.value = b.value := by simp [Same]

theorem Contested.values {base ours theirs : Json}
    (contested : Contested (some base) (some ours) (some theirs)) :
    ours.value ≠ theirs.value ∧ ours.value ≠ base.value ∧ theirs.value ≠ base.value :=
  ⟨mt same_some.mpr contested.differ, mt same_some.mpr contested.oursChanged,
    mt same_some.mpr contested.theirsChanged⟩

/-- The merge of two documents is that of two fields which are present. -/
theorem mergeField_some (base ours theirs : Json) :
    mergeField (some base) (some ours) (some theirs) = (mergeValue base ours theirs).map some := by
  rw [mergeValue.eq_def, mergeField.eq_def]
  simp only [same_some, Option.getD_some]
  split_ifs with differ kept kept'
  · rfl
  · rfl
  · rfl
  · rw [mergeValue.eq_def, if_neg differ, if_neg kept, if_neg kept']

/-- Where both sides changed the field and all three hold objects, the merge goes on
field by field. -/
theorem mergeField_objects {base ours theirs : JsonFields}
    (contested : Contested (some (.object base)) (some (.object ours)) (some (.object theirs))) :
    mergeField (some (.object base)) (some (.object ours)) (some (.object theirs)) =
      (mergeFields base ours theirs (mergedKeys base ours theirs)).map (some ∘ .object) := by
  obtain ⟨differ, oursChanged, theirsChanged⟩ := contested.values
  rw [mergeField_of_contested contested]
  simp only [Option.getD_some]
  rw [mergeValue_of_contested differ oursChanged theirsChanged, Option.map_map]

/-- A field that one side added as `null` is taken from the other side. -/
theorem mergeField_nullAdded {base ours theirs : Option Json} (null : NullAdded base ours theirs) :
    mergeField base ours theirs = some (if ours = some .null then theirs else ours) := by
  obtain ⟨rfl, contested, ⟨hasOurs, hasTheirs⟩, isNull⟩ := null
  obtain ⟨o, rfl⟩ := Option.ne_none_iff_exists'.mp hasOurs
  obtain ⟨t, rfl⟩ := Option.ne_none_iff_exists'.mp hasTheirs
  have differ : o.value ≠ t.value := mt same_some.mpr contested.differ
  rw [mergeField_of_contested contested]
  simp only [Option.getD_none]
  rcases isNull with ours | theirs
  · cases ours
    rw [mergeValue.eq_def, if_neg differ, if_pos rfl, if_pos rfl]
    rfl
  · cases theirs
    have notNull : some o ≠ some .null := by
      rintro ⟨⟩
      exact differ rfl
    rw [mergeValue.eq_def, if_neg differ, if_neg differ, if_pos rfl, if_neg notNull]
    rfl

/-- Any other pair of different changes is a conflict. -/
theorem mergeField_conflict {base ours theirs : Option Json}
    (contested : Contested base ours theirs) (apart : ¬ AllObjects base ours theirs)
    (present : ¬ NullAdded base ours theirs) : mergeField base ours theirs = none := by
  rw [mergeField_of_contested contested]
  cases ours with
  | none => rfl
  | some o =>
    cases theirs with
    | none => rfl
    | some t =>
      have differ : o.value ≠ t.value := mt same_some.mpr contested.differ
      cases base with
      | none =>
        have notNull : o.value ≠ .null ∧ t.value ≠ .null := by
          rw [Ne, Ne, value_eq_null, value_eq_null]
          constructor <;> rintro rfl <;> refine present ⟨rfl, contested, by simp, by simp⟩
        exact congrArg (Option.map some)
          (@mergeValue_of_contested .null o t differ notNull.1 notNull.2)
      | some b =>
        simp only [Option.getD_some]
        rw [mergeValue_of_contested differ contested.values.2.1 contested.values.2.2]
        cases b <;> cases o <;> cases t <;> first | rfl | exact absurd ⟨_, _, _, rfl, rfl, rfl⟩ apart

/-! ## All fields of an object -/

/-- The loop over the keys leaves each key what `merge_field` decides. -/
theorem get?_mergeFields {base ours theirs merged : JsonFields} {names : List String}
    (ran : mergeFields base ours theirs names = some merged) (name : String) :
    if name ∈ names then
      mergeField (base.get? name) (ours.get? name) (theirs.get? name) = some (merged.get? name)
    else merged.get? name = none := by
  induction names generalizing merged with
  | nil =>
    rw [mergeFields.eq_def] at ran
    cases ran
    rfl
  | cons key rest ih =>
    rw [mergeFields.eq_def] at ran
    simp only at ran
    cases field : mergeField (base.get? key) (ours.get? key) (theirs.get? key) with
    | none => simp [field] at ran
    | some state =>
      simp only [field, Option.map_eq_some_iff] at ran
      obtain ⟨more, later, rfl⟩ := ran
      have earlier := ih later
      by_cases here : name = key
      · subst here
        rw [if_pos List.mem_cons_self, field]
        cases state with
        | some value => simp [JsonFields.get?]
        | none =>
          by_cases again : name ∈ rest
          · rwa [if_pos again, field] at earlier
          · rw [if_neg again] at earlier
            simp [earlier]
      · cases state with
        | some value => simpa [JsonFields.get?, here, Ne.symm here] using earlier
        | none => simpa [here] using earlier

/-- The loop stops only at a key that is a conflict. -/
theorem mergeFields_eq_none {base ours theirs : JsonFields} {names : List String}
    (stopped : mergeFields base ours theirs names = none) :
    ∃ name, mergeField (base.get? name) (ours.get? name) (theirs.get? name) = none := by
  induction names with
  | nil =>
    rw [mergeFields.eq_def] at stopped
    cases stopped
  | cons key rest ih =>
    rw [mergeFields.eq_def] at stopped
    simp only at stopped
    cases field : mergeField (base.get? key) (ours.get? key) (theirs.get? key) with
    | none => exact ⟨key, field⟩
    | some state =>
      simp only [field, Option.map_eq_none_iff] at stopped
      exact ih stopped

theorem JsonFields.get?_eq_none {fields : JsonFields} {name : String}
    (unlisted : name ∉ fields.keys) : fields.get? name = none := by
  match fields with
  | .nil => rfl
  | .cons key value rest =>
    rw [keys, List.mem_cons, not_or] at unlisted
    rw [get?, if_neg (Ne.symm unlisted.1)]
    exact get?_eq_none unlisted.2

theorem mem_mergedKeys {base ours theirs : JsonFields} {name : String} :
    name ∈ mergedKeys base ours theirs ↔
      name ∈ base.keys ∨ name ∈ ours.keys ∨ name ∈ theirs.keys := by
  rw [mergedKeys, Lib.mem_destutter_ne, List.mem_insertionSort, List.mem_append, List.mem_append,
    or_assoc]

/-- In a merged object every field, listed or not, is what `merge_field` decides. -/
theorem get?_merged {base ours theirs merged : JsonFields}
    (ran : mergeFields base ours theirs (mergedKeys base ours theirs) = some merged)
    (name : String) :
    mergeField (base.get? name) (ours.get? name) (theirs.get? name) = some (merged.get? name) := by
  have field := get?_mergeFields ran name
  split at field
  · exact field
  next unlisted =>
    rw [mem_mergedKeys, not_or, not_or] at unlisted
    rw [field, JsonFields.get?_eq_none unlisted.1, JsonFields.get?_eq_none unlisted.2.1,
      JsonFields.get?_eq_none unlisted.2.2, mergeField_of_same rfl]

/-! ## Paths of a merge -/

/-- At the end of a path the merged document has what `merge_field` decides there. -/
theorem Reached.mergeField_lookup {base ours theirs merged atBase atOurs atTheirs : Option Json}
    {path : List String} (reached : Reached base ours theirs path atBase atOurs atTheirs)
    (ran : mergeField base ours theirs = some merged) :
    ∃ result, mergeField atBase atOurs atTheirs = some result ∧
      Same result (lookup merged path) := by
  induction reached generalizing merged with
  | here base ours theirs => exact ⟨merged, ran, by rw [lookup_nil]⟩
  | @into base ours theirs name path _ _ _ rest ih =>
    have ends := (Reached.into base ours theirs name rest).lookup_eq
    by_cases same : Same (some (.object ours)) (some (.object theirs))
    · rw [mergeField_of_same same] at ran
      cases ran
      have alike := same.lookup (name :: path)
      rw [ends.2.1, ends.2.2] at alike
      exact ⟨_, mergeField_of_same alike, by rw [ends.2.1]⟩
    by_cases kept : Same (some (.object ours)) (some (.object base))
    · obtain ⟨result, taken, like⟩ :=
        @mergeField_of_ours_unchanged _ _ (some (.object theirs)) kept
      cases taken.symm.trans ran
      have alike := kept.lookup (name :: path)
      rw [ends.1, ends.2.1] at alike
      obtain ⟨result', decided, like'⟩ := mergeField_of_ours_unchanged alike
      exact ⟨result', decided, like'.trans (ends.2.2 ▸ (like.lookup (name :: path)).symm)⟩
    by_cases kept' : Same (some (.object theirs)) (some (.object base))
    · obtain ⟨result, taken, like⟩ :=
        @mergeField_of_theirs_unchanged _ (some (.object ours)) _ kept'
      cases taken.symm.trans ran
      have alike := kept'.lookup (name :: path)
      rw [ends.1, ends.2.2] at alike
      obtain ⟨result', decided, like'⟩ := mergeField_of_theirs_unchanged alike
      exact ⟨result', decided, like'.trans (ends.2.1 ▸ (like.lookup (name :: path)).symm)⟩
    rw [mergeField_objects ⟨kept, kept', same⟩] at ran
    obtain ⟨fields, loop, rfl⟩ := Option.map_eq_some_iff.mp ran
    exact ih (get?_merged loop name)

/-- A path at which the merge finds a conflict. -/
def ConflictAt (base ours theirs : Option Json) : Prop :=
  ∃ path atBase atOurs atTheirs, Reached base ours theirs path atBase atOurs atTheirs ∧
    Contested atBase atOurs atTheirs ∧ ¬ AllObjects atBase atOurs atTheirs ∧
    ¬ NullAdded atBase atOurs atTheirs

/-- A merge that stops has met a conflict. -/
theorem conflictAt_of_none {base ours theirs : Option Json}
    (stopped : mergeField base ours theirs = none) : ConflictAt base ours theirs := by
  generalize size : sizeOf ours = n
  induction n using Nat.strong_induction_on generalizing base ours theirs with
  | _ n ih =>
    have contested : Contested base ours theirs := by
      constructor
      · intro kept
        obtain ⟨result, taken, -⟩ := @mergeField_of_ours_unchanged _ _ theirs kept
        simp [taken] at stopped
      · intro kept
        obtain ⟨result, taken, -⟩ := @mergeField_of_theirs_unchanged _ ours _ kept
        simp [taken] at stopped
      · intro same
        simp [mergeField_of_same same] at stopped
    by_cases objects : AllObjects base ours theirs
    · obtain ⟨b, o, t, rfl, rfl, rfl⟩ := objects
      rw [mergeField_objects contested, Option.map_eq_none_iff] at stopped
      obtain ⟨name, field⟩ := mergeFields_eq_none stopped
      have smaller : sizeOf (o.get? name) < n := by
        have below := JsonFields.sizeOf_get?_le o name
        rw [← size, Option.some.sizeOf_spec, Json.object.sizeOf_spec]
        omega
      obtain ⟨path, atBase, atOurs, atTheirs, reached, conflict⟩ := ih _ smaller field rfl
      exact ⟨name :: path, atBase, atOurs, atTheirs, .into b o t name reached, conflict⟩
    · refine ⟨[], base, ours, theirs, .here base ours theirs, contested, objects, fun null => ?_⟩
      rw [mergeField_nullAdded null] at stopped
      cases stopped

/-- A merge stops exactly at the conflicts. -/
theorem mergeField_eq_none_iff {base ours theirs : Option Json} :
    mergeField base ours theirs = none ↔ ConflictAt base ours theirs := by
  refine ⟨conflictAt_of_none, ?_⟩
  rintro ⟨path, atBase, atOurs, atTheirs, reached, contested, apart, present⟩
  cases ran : mergeField base ours theirs with
  | none => rfl
  | some merged =>
    obtain ⟨result, decided, -⟩ := reached.mergeField_lookup ran
    rw [mergeField_conflict contested apart present] at decided
    cases decided

/-! ## Swapping the sides -/

theorem Contested.symm {base ours theirs : Option Json} (contested : Contested base ours theirs) :
    Contested base theirs ours :=
  ⟨contested.theirsChanged, contested.oursChanged, fun same => contested.differ same.symm⟩

theorem NullAdded.symm {base ours theirs : Option Json} (null : NullAdded base ours theirs) :
    NullAdded base theirs ours :=
  ⟨null.absent, null.contested.symm, null.added.symm, null.isNull.symm⟩

theorem AllObjects.symm {base ours theirs : Option Json} (objects : AllObjects base ours theirs) :
    AllObjects base theirs ours :=
  let ⟨b, o, t, atBase, atOurs, atTheirs⟩ := objects
  ⟨b, t, o, atBase, atTheirs, atOurs⟩

theorem mergedKeys_symm (base ours theirs : JsonFields) :
    mergedKeys base ours theirs = mergedKeys base theirs ours := by
  have swapped : (base.keys ++ ours.keys ++ theirs.keys).Perm
      (base.keys ++ theirs.keys ++ ours.keys) := by
    rw [List.append_assoc, List.append_assoc]
    exact List.perm_append_comm.append_left _
  unfold mergedKeys
  congr 1
  refine List.Perm.eq_of_pairwise (fun _ _ _ _ => le_antisymm)
    (List.pairwise_insertionSort (· ≤ ·) _) (List.pairwise_insertionSort (· ≤ ·) _) ?_
  exact ((List.perm_insertionSort _ _).trans swapped).trans (List.perm_insertionSort _ _).symm

/-- Two decisions that are equal up to the documents. -/
abbrev SameField (a b : Option (Option Json)) : Prop :=
  a.map (Option.map Json.value) = b.map (Option.map Json.value)

theorem mergeFields_congr {base ours theirs ours' theirs' : JsonFields}
    (alike : ∀ name, SameField (mergeField (base.get? name) (ours.get? name) (theirs.get? name))
      (mergeField (base.get? name) (ours'.get? name) (theirs'.get? name))) (names : List String) :
    (mergeFields base ours theirs names).map JsonFields.value =
      (mergeFields base ours' theirs' names).map JsonFields.value := by
  induction names with
  | nil => rw [mergeFields.eq_def, mergeFields.eq_def]
  | cons key rest ih =>
    rw [mergeFields.eq_def, mergeFields.eq_def base ours' theirs']
    simp only
    have here := alike key
    generalize mergeField (base.get? key) (ours.get? key) (theirs.get? key) = field at here ⊢
    generalize mergeField (base.get? key) (ours'.get? key) (theirs'.get? key) = field' at here ⊢
    generalize mergeFields base ours theirs rest = more at ih ⊢
    generalize mergeFields base ours' theirs' rest = more' at ih ⊢
    rcases field with _ | field <;> rcases field' with _ | field'
    · rfl
    · cases here
    · cases here
    · rcases more with _ | more <;> rcases more' with _ | more'
      · rfl
      · cases ih
      · cases ih
      · have values : Same field field' := Option.some.inj here
        have later : more.value = more'.value := Option.some.inj ih
        cases field <;> cases field' <;> simp_all [Same, JsonFields.value]

/-- Which side is named first does not matter. -/
theorem mergeField_symm (base ours theirs : Option Json) :
    SameField (mergeField base ours theirs) (mergeField base theirs ours) := by
  generalize size : sizeOf base = n
  induction n using Nat.strong_induction_on generalizing base ours theirs with
  | _ n ih =>
    by_cases same : Same ours theirs
    · rw [mergeField_of_same same, mergeField_of_same same.symm]
      exact congrArg some same
    by_cases kept : Same ours base
    · obtain ⟨result, taken, like⟩ := @mergeField_of_ours_unchanged _ _ theirs kept
      obtain ⟨result', taken', like'⟩ := @mergeField_of_theirs_unchanged _ theirs _ kept
      rw [taken, taken']
      exact congrArg some (like.trans like'.symm)
    by_cases kept' : Same theirs base
    · obtain ⟨result, taken, like⟩ := @mergeField_of_theirs_unchanged _ ours _ kept'
      obtain ⟨result', taken', like'⟩ := @mergeField_of_ours_unchanged _ _ ours kept'
      rw [taken, taken']
      exact congrArg some (like.trans like'.symm)
    have contested : Contested base ours theirs := ⟨kept, kept', same⟩
    by_cases objects : AllObjects base ours theirs
    · obtain ⟨b, o, t, rfl, rfl, rfl⟩ := objects
      rw [mergeField_objects contested, mergeField_objects contested.symm, mergedKeys_symm]
      have alike : ∀ name, SameField (mergeField (b.get? name) (o.get? name) (t.get? name))
          (mergeField (b.get? name) (t.get? name) (o.get? name)) := fun name => by
        have smaller : sizeOf (b.get? name) < n := by
          have below := JsonFields.sizeOf_get?_le b name
          rw [← size, Option.some.sizeOf_spec, Json.object.sizeOf_spec]
          omega
        exact ih _ smaller _ _ _ rfl
      have fields := mergeFields_congr alike (mergedKeys b t o)
      have object : ∀ f : Option JsonFields,
          (f.map (some ∘ Json.object)).map (Option.map Json.value) =
            (f.map JsonFields.value).map (some ∘ Json.object) := fun f => by cases f <;> rfl
      unfold SameField
      rw [object, object, fields]
    · by_cases null : NullAdded base ours theirs
      · rw [mergeField_nullAdded null, mergeField_nullAdded null.symm]
        rcases null.isNull with isNull | isNull
        · rw [if_pos isNull, if_neg fun isNull' => same (by rw [isNull, isNull'])]
        · rw [if_neg fun isNull' => same (by rw [isNull, isNull']), if_pos isNull]
      · rw [mergeField_conflict contested objects null, mergeField_conflict contested.symm
          (fun objects' => objects objects'.symm) fun null' => null null'.symm]

theorem ConflictAt.symm {base ours theirs : Option Json} (conflict : ConflictAt base ours theirs) :
    ConflictAt base theirs ours := by
  have alike := mergeField_symm base ours theirs
  rw [mergeField_eq_none_iff.mpr conflict] at alike
  exact mergeField_eq_none_iff.mp (Option.map_eq_none_iff.mp alike.symm)

theorem mergeValue_symm (base ours theirs : Json) :
    Same (mergeValue base ours theirs) (mergeValue base theirs ours) := by
  have field := mergeField_symm (some base) (some ours) (some theirs)
  have present : ∀ m : Option Json, (m.map some).map (Option.map Json.value) =
      (m.map Json.value).map some := fun m => by cases m <;> rfl
  rw [mergeField_some, mergeField_some, SameField, present, present] at field
  exact Option.map_injective (Option.some_injective _) field

/-! ## The merge of two bodies -/

/-- The merged document has every change: what one side changed and the other did not,
and what both changed alike. -/
structure KeepsChanges (base ours theirs merged : Json) : Prop where
  takesOurs : ∀ path atBase atOurs atTheirs,
    Reached (some base) (some ours) (some theirs) path atBase atOurs atTheirs →
    Same atTheirs atBase → Same (lookup (some merged) path) atOurs
  takesTheirs : ∀ path atBase atOurs atTheirs,
    Reached (some base) (some ours) (some theirs) path atBase atOurs atTheirs →
    Same atOurs atBase → Same (lookup (some merged) path) atTheirs
  takesBoth : ∀ path atBase atOurs atTheirs,
    Reached (some base) (some ours) (some theirs) path atBase atOurs atTheirs →
    Same atOurs atTheirs → Same (lookup (some merged) path) atOurs

theorem keepsChanges_of_merged {base ours theirs merged : Json}
    (ran : mergeValue base ours theirs = some merged) : KeepsChanges base ours theirs merged := by
  have field : mergeField (some base) (some ours) (some theirs) = some (some merged) := by
    rw [mergeField_some, ran]
    rfl
  constructor
  · intro path atBase atOurs atTheirs reached kept
    obtain ⟨result, decided, like⟩ := reached.mergeField_lookup field
    obtain ⟨taken, decided', like'⟩ := @mergeField_of_theirs_unchanged _ atOurs _ kept
    cases decided'.symm.trans decided
    exact like.symm.trans like'
  · intro path atBase atOurs atTheirs reached kept
    obtain ⟨result, decided, like⟩ := reached.mergeField_lookup field
    obtain ⟨taken, decided', like'⟩ := @mergeField_of_ours_unchanged _ _ atTheirs kept
    cases decided'.symm.trans decided
    exact like.symm.trans like'
  · intro path atBase atOurs atTheirs reached same
    obtain ⟨result, decided, like⟩ := reached.mergeField_lookup field
    cases (mergeField_of_same same).symm.trans decided
    exact like.symm

section Bodies

variable [Serde]

/-- A structured merge asks exactly where a body is no JSON or the documents are in conflict. -/
theorem structuredMerge_asks_iff (writes : ∀ value, (Serde.toVec value).isSome) {x y z : Body} :
    structuredMerge x y z = .needsResolution ↔
      ∀ base ours theirs, Serde.fromSlice x.bytes = some base → Serde.fromSlice y.bytes = some ours →
        Serde.fromSlice z.bytes = some theirs →
          ConflictAt (some base) (some ours) (some theirs) := by
  have stops : ∀ {base ours theirs : Json}, mergeValue base ours theirs = none ↔
      ConflictAt (some base) (some ours) (some theirs) := fun {base ours theirs} => by
    rw [← mergeField_eq_none_iff, mergeField_some, Option.map_eq_none_iff]
  constructor
  · intro asks base ours theirs parsedBase parsedOurs parsedTheirs
    rw [← stops]
    simp only [structuredMerge, parsedBase, parsedOurs, parsedTheirs] at asks
    cases merging : mergeValue base ours theirs with
    | none => rfl
    | some merged =>
      obtain ⟨bytes, written⟩ := Option.isSome_iff_exists.mp (writes merged)
      simp [merging, written] at asks
  · intro conflict
    unfold structuredMerge
    split
    next base ours theirs parsedBase parsedOurs parsedTheirs =>
      rw [stops.mpr (conflict _ _ _ parsedBase parsedOurs parsedTheirs)]
    · rfl

/-- Both ask for a resolution, or both are merged, into texts of equal documents. -/
def SameOutcome (a b : MergeOutcome) : Prop :=
  a = .needsResolution ∧ b = .needsResolution ∨ ∃ merged merged' bytes bytes',
    a = .merged (.inline bytes) ∧ b = .merged (.inline bytes') ∧
      Serde.toVec merged = some bytes ∧ Serde.toVec merged' = some bytes' ∧
      merged.value = merged'.value

/-- A structured merge of bodies that parse as `base`, `ours` and `theirs`: a merged body
spells a document that has every change, two different changes that do not meet in
objects need a resolution, and the sides may be swapped. -/
structure SoundMerge (base ours theirs : Json) (x y z : Body) : Prop where
  keeps : ∀ body, structuredMerge x y z = .merged body → ∃ merged bytes,
    body = .inline bytes ∧ Serde.toVec merged = some bytes ∧ KeepsChanges base ours theirs merged
  contested : ∀ path atBase atOurs atTheirs,
    Reached (some base) (some ours) (some theirs) path atBase atOurs atTheirs →
    Contested atBase atOurs atTheirs → ¬ AllObjects atBase atOurs atTheirs →
    structuredMerge x y z = .needsResolution
  symmetric : SameOutcome (structuredMerge x y z) (structuredMerge x z y)

/-- A structured merge is sound exactly where no field is added by both sides, once as
`null` and once as something else, unless some other field is in conflict. -/
theorem structured_merge_sound_iff (writes : ∀ value, (Serde.toVec value).isSome)
    {x y z : Bytes} {base ours theirs : Json} (parsedBase : Serde.fromSlice x = some base)
    (parsedOurs : Serde.fromSlice y = some ours) (parsedTheirs : Serde.fromSlice z = some theirs) :
    SoundMerge base ours theirs (.inline x) (.inline y) (.inline z) ↔
      (∀ path atBase atOurs atTheirs,
        Reached (some base) (some ours) (some theirs) path atBase atOurs atTheirs →
        ¬ NullAdded atBase atOurs atTheirs) ∨
      ConflictAt (some base) (some ours) (some theirs) := by
  have asks : structuredMerge (.inline x) (.inline y) (.inline z) = .needsResolution ↔
      ConflictAt (some base) (some ours) (some theirs) := by
    rw [structuredMerge_asks_iff writes]
    simp [parsedBase, parsedOurs, parsedTheirs]
  constructor
  · rintro ⟨-, contested, -⟩
    by_cases conflict : ConflictAt (some base) (some ours) (some theirs)
    · exact Or.inr conflict
    · refine Or.inl fun path atBase atOurs atTheirs reached null => conflict (asks.mp ?_)
      refine contested path _ _ _ reached null.contested ?_
      rintro ⟨b, o, t, has, -, -⟩
      rw [null.absent] at has
      cases has
  · intro condition
    refine ⟨fun body ran => ?_, fun path atBase atOurs atTheirs reached changed apart => ?_, ?_⟩
    · simp only [structuredMerge, Body.bytes_inline, parsedBase, parsedOurs, parsedTheirs] at ran
      cases merging : mergeValue base ours theirs with
      | none => simp [merging] at ran
      | some merged =>
        obtain ⟨bytes, written⟩ := Option.isSome_iff_exists.mp (writes merged)
        simp only [merging, written, MergeOutcome.merged.injEq] at ran
        exact ⟨merged, bytes, ran.symm, written, keepsChanges_of_merged merging⟩
    · refine asks.mpr ?_
      rcases condition with free | conflict
      · exact ⟨path, _, _, _, reached, changed, apart, free path _ _ _ reached⟩
      · exact conflict
    · have alike := mergeValue_symm base ours theirs
      simp only [structuredMerge, Body.bytes_inline, parsedBase, parsedOurs, parsedTheirs]
      generalize mergeValue base ours theirs = first at alike ⊢
      generalize mergeValue base theirs ours = second at alike ⊢
      rcases first with _ | merged <;> rcases second with _ | merged'
      · exact Or.inl ⟨rfl, rfl⟩
      · cases alike
      · cases alike
      · obtain ⟨bytes, written⟩ := Option.isSome_iff_exists.mp (writes merged)
        obtain ⟨bytes', written'⟩ := Option.isSome_iff_exists.mp (writes merged')
        refine Or.inr ⟨merged, merged', bytes, bytes', ?_, ?_, written, written', ?_⟩
        · simp only [written]
        · simp only [written']
        · exact same_some.mp alike

end Bodies

/-! ## A field added as null -/

section Added

def emptyDocument : Json := .object .nil

/-- A document with the jsonOne field `a`. -/
def fieldA (value : Json) : Json := .object (.cons "a" value .nil)

def jsonOne : Json := .number (.posInt 1)

theorem negZero_finite : (0x8000000000000000 : UInt64) <<< 1 < 0xffe0000000000000 := by decide

def jsonZero : Json := .number (.float ⟨0, zero_finite⟩)

/-- `-0.0`. -/
def jsonNegZero : Json := .number (.float ⟨0x8000000000000000, negZero_finite⟩)

/-- Some documents and their texts. -/
def sampleDocuments : List (Json × Bytes) :=
  [(emptyDocument, asBytes "\x7b\x7d"),
   (fieldA jsonOne, asBytes "\x7b\"a\":1\x7d"),
   (fieldA .null, asBytes "\x7b\"a\":null\x7d"),
   (fieldA jsonZero, asBytes "\x7b\"a\":0.0\x7d"),
   (fieldA jsonNegZero, asBytes "\x7b\"a\":-0.0\x7d")]

/-- A reader and writer of the documents in `sampleDocuments`. -/
abbrev sampleSerde : Serde where
  fromSlice bytes := (sampleDocuments.find? fun sample => sample.2 = bytes).map Prod.fst
  toVec value := some (((sampleDocuments.find? fun sample => sample.1 = value).map
    Prod.snd).getD (asBytes "null"))
  manifestFromSlice _ := .error "missing field"
  vectorManifestFromSlice _ := .error "missing field"

attribute [local instance] sampleSerde

/-- One side adds the field as `null`, the other as 1: the merge takes 1 and does not ask. -/
theorem added_null_is_discarded :
    Serde.fromSlice (asBytes "\x7b\x7d") = some emptyDocument ∧
    Serde.fromSlice (asBytes "\x7b\"a\":1\x7d") = some (fieldA jsonOne) ∧
    Serde.fromSlice (asBytes "\x7b\"a\":null\x7d") = some (fieldA .null) ∧
    structuredMerge (.inline (asBytes "\x7b\x7d")) (.inline (asBytes "\x7b\"a\":1\x7d"))
        (.inline (asBytes "\x7b\"a\":null\x7d")) =
      .merged (.inline (asBytes "\x7b\"a\":1\x7d")) ∧
    ¬ SoundMerge emptyDocument (fieldA jsonOne) (fieldA .null)
      (.inline (asBytes "\x7b\x7d")) (.inline (asBytes "\x7b\"a\":1\x7d"))
      (.inline (asBytes "\x7b\"a\":null\x7d")) := by
  have parsedBase : Serde.fromSlice (asBytes "\x7b\x7d") = some emptyDocument := by decide
  have parsedOurs : Serde.fromSlice (asBytes "\x7b\"a\":1\x7d") =
    some (fieldA jsonOne) := by decide
  have parsedTheirs : Serde.fromSlice (asBytes "\x7b\"a\":null\x7d") =
    some (fieldA .null) := by decide
  have null : NullAdded none (some jsonOne) (some .null) :=
    ⟨rfl, ⟨by simp, by simp, by decide⟩, by simp, by simp⟩
  have merged : mergeValue emptyDocument (fieldA jsonOne) (fieldA .null) = some (fieldA jsonOne) := by
    rw [@mergeValue_of_contested emptyDocument (fieldA jsonOne) (fieldA .null) (by decide)
      (by decide) (by decide)]
    have keys : mergedKeys .nil (.cons "a" jsonOne .nil) (.cons "a" .null .nil) = ["a"] := by
      decide
    simp only [emptyDocument, fieldA, keys]
    rw [mergeFields.eq_def]
    simp only [JsonFields.get?, if_pos, mergeField_nullAdded null]
    rw [mergeFields.eq_def]
    rfl
  have written : structuredMerge (.inline (asBytes "\x7b\x7d"))
      (.inline (asBytes "\x7b\"a\":1\x7d")) (.inline (asBytes "\x7b\"a\":null\x7d")) =
      .merged (.inline (asBytes "\x7b\"a\":1\x7d")) := by
    simp only [structuredMerge, Body.bytes_inline, parsedBase, parsedOurs, parsedTheirs, merged]
    decide
  refine ⟨parsedBase, parsedOurs, parsedTheirs, written, fun sound => ?_⟩
  have asked := sound.contested ["a"] none (some jsonOne) (some .null)
    (.into .nil _ _ "a" (.here _ _ _)) null.contested (by rintro ⟨_, _, _, has, -⟩; cases has)
  rw [written] at asked
  cases asked

/-- No field of these three documents is missing from the first alone. -/
theorem fieldA_not_nullAdded {a b c : Json} (scalar : ∀ fields, a ≠ .object fields)
    {path : List String} {atBase atOurs atTheirs : Option Json}
    (reached : Reached (some (fieldA a)) (some (fieldA b)) (some (fieldA c)) path
      atBase atOurs atTheirs) : ¬ NullAdded atBase atOurs atTheirs := by
  rintro ⟨rfl, contested, -⟩
  cases reached with
  | into base ours theirs name rest =>
    by_cases here : "a" = name
    · simp only [JsonFields.get?, if_pos here] at rest
      cases rest with
      | into base ours theirs name rest => exact scalar base rfl
    · simp only [JsonFields.get?, if_neg here] at rest
      cases rest with
      | here => exact contested.differ rfl

/-- Two sides that change the field to zeros which are equal and print apart: the merge takes
the side that is named first. -/
theorem zeros_sound :
    structuredMerge (.inline (asBytes "\x7b\"a\":1\x7d")) (.inline (asBytes "\x7b\"a\":0.0\x7d"))
        (.inline (asBytes "\x7b\"a\":-0.0\x7d")) =
      .merged (.inline (asBytes "\x7b\"a\":0.0\x7d")) ∧
    SoundMerge (fieldA jsonOne) (fieldA jsonZero) (fieldA jsonNegZero)
      (.inline (asBytes "\x7b\"a\":1\x7d")) (.inline (asBytes "\x7b\"a\":0.0\x7d"))
      (.inline (asBytes "\x7b\"a\":-0.0\x7d")) := by
  have parsedBase : Serde.fromSlice (asBytes "\x7b\"a\":1\x7d") = some (fieldA jsonOne) := by decide
  have parsedOurs : Serde.fromSlice (asBytes "\x7b\"a\":0.0\x7d") = some (fieldA jsonZero) := by
    decide
  have parsedTheirs : Serde.fromSlice (asBytes "\x7b\"a\":-0.0\x7d") =
      some (fieldA jsonNegZero) := by
    decide
  refine ⟨?_, (structured_merge_sound_iff (fun _ => rfl) parsedBase parsedOurs parsedTheirs).mpr
    (Or.inl fun path atBase atOurs atTheirs reached =>
      fieldA_not_nullAdded (by rintro fields ⟨⟩) reached)⟩
  have merged : mergeValue (fieldA jsonOne) (fieldA jsonZero) (fieldA jsonNegZero) =
      some (fieldA jsonZero) := by
    rw [mergeValue.eq_def, if_pos (by decide)]
  simp only [structuredMerge, Body.bytes_inline, parsedBase, parsedOurs, parsedTheirs, merged]
  decide

end Added

end Gonzalo.Core
