import Gonzalo.S3.Linearizability

/-!
# What a call knows about tombstones

A call of `gonzalo-store-s3/src/lib.rs` alone, whatever other clients do between its
requests. `MarkerView` is what it has learnt: which keys may still hold a tombstone that
no marker marks, which collections are flagged, the key whose marker it has just written,
and which keys held no tombstone when it looked at them last. `markerContract` says what it
must know to write a tombstone or a flag, or to delete a marker. A list may also be followed
with one key in mind that holds a tombstone all the while (`Hidden`).
-/

set_option autoImplicit false

namespace Gonzalo.S3
open Gonzalo.Core Gonzalo.Lib

/-- What a call knows. -/
structure MarkerView where
  marked : Option RecordKey
  suspects : RecordKey → Prop
  flagged : Collection → Prop
  free : RecordKey → Prop

/-- A key that holds a tombstone throughout, and whether it did so with a marker at first;
if not, its collection stays without a flag. -/
structure Hidden where
  key : RecordKey
  marked : Prop

section Contract

variable {β : Type} [RecordJson β] [Etags β]

/-- A read that finds a tombstone. -/
def FindsTombstone (found : Option (β × Etags.Tag β)) : Prop :=
  ∃ contents tag record, found = some (contents, tag) ∧ decode contents = .ok record ∧
    record.isTombstone = true

/-- A request that succeeds shows that `key` holds no tombstone without a marker. -/
def Clears (key : RecordKey) : (req : S3Req β) → Except CoreError req.Found → Prop
  | .putMarker k _, answer => answer = .ok () ∧ k = key
  | .getObject k, answer => k = key ∧ ∃ found, answer = .ok found ∧ ¬ FindsTombstone found
  | .listObjects under token, answer => ∃ page, answer = .ok page ∧
      ((under.matches key ∧ Bucket.Covered token page.next (objectKey key) ∧ key ∉ page.records) ∨
        ∃ tag, (key, tag) ∈ page.markers)
  | _, _ => False

omit [RecordJson β] in
/-- A request that succeeds looks at `key`: a read of it, or a page of the listing that it is
not on. -/
def Looks (key : RecordKey) : (req : S3Req β) → Except CoreError req.Found → Prop
  | .getObject k, answer => k = key ∧ ∃ found, answer = .ok found
  | .listObjects under token, answer => ∃ page, answer = .ok page ∧ under.matches key ∧
      Bucket.Covered token page.next (objectKey key) ∧ key ∉ page.records
  | _, _ => False

/-- A request looks at `key` and finds no tombstone. -/
def ShowsFree (key : RecordKey) : (req : S3Req β) → Except CoreError req.Found → Prop
  | .getObject k, answer => k = key ∧ ∃ found, answer = .ok found ∧ ¬ FindsTombstone found
  | .listObjects under token, answer => ∃ page, answer = .ok page ∧ under.matches key ∧
      Bucket.Covered token page.next (objectKey key) ∧ key ∉ page.records
  | _, _ => False

theorem ShowsFree.looks {key : RecordKey} {req : S3Req β} {answer : Except CoreError req.Found}
    (shows : ShowsFree key req answer) : Looks key req answer := by
  cases req with
  | getObject k =>
    obtain ⟨same, found, answered, -⟩ := shows
    exact ⟨same, found, answered⟩
  | listObjects under token => exact shows
  | _ => exact shows

omit [RecordJson β] in
/-- A request that succeeds shows that the collection is flagged. -/
def Flags (coll : Collection) : (req : S3Req β) → Except CoreError req.Found → Prop
  | .headFlag c, answer | .cached c, answer => answer = .ok true ∧ c = coll
  | .putFlag c, answer => answer = .ok () ∧ c = coll
  | _, _ => False

omit [RecordJson β] in
/-- The key whose marker a request has written. -/
def Marks (key : RecordKey) : (req : S3Req β) → Except CoreError req.Found → Prop
  | .putMarker k _, answer => answer = .ok () ∧ k = key
  | _, _ => False

/-- What a request shows about a hidden key. -/
def Hidden.Shows (hidden : Hidden) : (req : S3Req β) → Except CoreError req.Found → Prop
  | .getObject k, answer => ∀ found, answer = .ok found → k = hidden.key → FindsTombstone found
  | .listObjects under token, answer => ∀ page, answer = .ok page → hidden.marked →
      under.matches hidden.key → Bucket.Covered token page.next (markerKey hidden.key) →
      ∃ tag, (hidden.key, tag) ∈ page.markers
  | .headFlag c, answer | .cached c, answer => ¬ hidden.marked → c = collectionOf hidden.key →
      answer ≠ .ok true
  | _, _ => True

/-- A read finds a record of its own key. -/
def ReadsOwn : (req : S3Req β) → Except CoreError req.Found → Prop
  | .getObject key, answer => ∀ contents tag record, answer = .ok (some (contents, tag)) →
      decode contents = .ok record → record.key = key
  | _, _ => True

/-- A call writes a tombstone right after its marker and a flag once no key of the
collection is suspect, remembers a flag it knows of, and deletes a marker of a key that
held no tombstone at its last look. -/
def markerContract (hidden : Option Hidden) : Contract (s3Interface β) MarkerView where
  guard v
    | .putObject record contents _ => encode record = .ok contents ∧
        (record.isTombstone = true → v.marked = some record.key)
    | .putFlag coll => ∀ key, collectionOf key = coll → ¬ v.suspects key
    | .remember coll => v.flagged coll
    | .deleteMarker key _ => v.free key
    | _ => True
  turn v req answer v' :=
    (∀ key, v'.marked = some key ↔ Marks key req answer) ∧
    (∀ key, v'.suspects key ↔ v.suspects key ∧ ¬ Clears key req answer) ∧
    (∀ coll, v'.flagged coll ↔ v.flagged coll ∨ Flags coll req answer) ∧
    (∀ key, v'.free key ↔ ShowsFree key req answer ∨ ¬ Looks key req answer ∧ v.free key) ∧
    ReadsOwn req answer ∧ (∀ h, hidden = some h → h.Shows req answer) ∧
    ∀ e, answer = .error e → ∃ message, e = .backend message

variable {hidden : Option Hidden} {α γ : Type}

/-- No key has become suspect since `v`, and none is free no more but those of `read`. -/
structure After (read : RecordKey → Prop) (v u : MarkerView) : Prop where
  fewer : ∀ key, u.suspects key → v.suspects key
  free : ∀ key, ¬ read key → v.free key → u.free key

/-- No key is read. -/
def Unread (_ : RecordKey) : Prop := False

section Relations

variable {read read' : RecordKey → Prop} {v u u' : MarkerView}

theorem After.refl : After read v v := ⟨fun _ => id, fun _ _ => id⟩

theorem After.trans (first : After read v u) (narrow : ∀ key, read' key → read key)
    (second : After read' u u') : After read v u' where
  fewer key suspect := first.fewer key (second.fewer key suspect)
  free key other free := second.free key (fun member => other (narrow key member))
    (first.free key other free)

/-- What a request leaves as it was. -/
theorem After.turned {req : S3Req β} {answer : Except CoreError req.Found}
    (after : After read v u) (turned : (markerContract hidden).turn u req answer u')
    (quiet : ∀ key, req = .getObject key → read key) : After read v u' where
  fewer key suspect := after.fewer key ((turned.2.1 key).mp suspect).1
  free key other free := by
    refine (turned.2.2.2.1 key).mpr ?_
    by_cases looks : Looks key req answer
    · cases req with
      | getObject k => exact absurd (quiet key (by rw [looks.1])) other
      | listObjects under token => exact .inl looks
      | _ => exact looks.elim
    · exact .inr ⟨looks, after.free key other free⟩

end Relations

/-- A result has the property, and the view has become no worse than `After` says. -/
def Learns (read : RecordKey → Prop) (v : MarkerView) (P : MarkerView → α → Prop) (v' : MarkerView)
    (result : Except CoreError α) : Prop :=
  After read v v' ∧ ∀ value, result = .ok value → P v' value

namespace Learns

variable {read read' : RecordKey → Prop} {v u : MarkerView} {P : MarkerView → α → Prop}
  {Q : MarkerView → γ → Prop}

theorem done {value : α} (after : After read v u) (holds : P u value) :
    Wp (markerContract hidden) (Learns read v P) u (pure value : S3Program β α) :=
  ⟨after, fun _ same => by cases same; exact holds⟩

theorem fail {e : CoreError} (after : After read v u) :
    Wp (markerContract hidden) (Learns read v P) u (.fail e : S3Program β α) :=
  ⟨after, fun _ same => by cases same⟩

/-- A part, and what comes after it. -/
theorem bind {p : S3Program β α} {f : α → S3Program β γ} (after : After read v u)
    (narrow : ∀ key, read' key → read key)
    (first : Wp (markerContract hidden) (Learns read' u P) u p)
    (second : ∀ u' value, After read' u u' → P u' value →
      Wp (markerContract hidden) (Learns read v Q) u' (f value)) :
    Wp (markerContract hidden) (Learns read v Q) u (p >>= f) := by
  refine first.bind ?_ ?_
  · rintro u' value ⟨after', holds⟩
    exact second u' value after' (holds value rfl)
  · rintro u' e ⟨after', -⟩
    exact ⟨after.trans narrow after', fun _ same => by cases same⟩

/-- One request, with its answer in hand. -/
theorem attempt {req : S3Req β} {f : Except CoreError req.Found → S3Program β γ}
    (after : After read v u) (quiet : ∀ key, req = .getObject key → read key)
    (guarded : (markerContract hidden).guard u req)
    (next : ∀ answer u', (markerContract hidden).turn u req answer u' → After read v u' →
      Wp (markerContract hidden) (Learns read v Q) u' (f answer)) :
    Wp (markerContract hidden) (Learns read v Q) u (S3.attempt req >>= f) :=
  ⟨guarded, fun answer u' turned => next answer u' turned (after.turned turned quiet)⟩

/-- One request, whose error ends the program. -/
theorem send {req : S3Req β} {f : req.Found → S3Program β γ} (after : After read v u)
    (quiet : ∀ key, req = .getObject key → read key)
    (guarded : (markerContract hidden).guard u req)
    (next : ∀ found u', (markerContract hidden).turn u req (.ok found) u' → After read v u' →
      Wp (markerContract hidden) (Learns read v Q) u' (f found)) :
    Wp (markerContract hidden) (Learns read v Q) u (S3.send req >>= f) := by
  refine Wp.assoc (attempt after quiet guarded fun answer u' turned after' => ?_)
  cases answer with
  | error e => exact fail after'
  | ok found => exact next found u' turned after'

/-- A request at the end of a program. -/
theorem sent {req : S3Req β} {P : MarkerView → req.Found → Prop} (after : After read v u)
    (quiet : ∀ key, req = .getObject key → read key)
    (guarded : (markerContract hidden).guard u req)
    (holds : ∀ found u', (markerContract hidden).turn u req (.ok found) u' → P u' found) :
    Wp (markerContract hidden) (Learns read v P) u (S3.send req) := by
  refine ⟨guarded, fun answer u' turned => ?_⟩
  have after' := after.turned turned quiet
  cases answer with
  | error e => exact fail after'
  | ok found => exact done after' (holds found u' turned)

end Learns

/-! ## Reads and writes -/

theorem readResult_some {answer : Except CoreError (Option (β × Etags.Tag β))}
    {found : Option (Record × Etags.Tag β)} (read : readResult answer = .ok found) {c : Record}
    {tag : Etags.Tag β} (some_found : found = some (c, tag)) :
    ∃ contents, answer = .ok (some (contents, tag)) ∧ decode contents = .ok c := by
  subst some_found
  rcases answer with e | _ | ⟨contents, tag'⟩
  · cases read
  · cases read
  · simp only [readResult, Except.bind] at read
    cases decoded : decode contents with
    | error e => simp [decoded, Except.map] at read
    | ok record =>
      simp only [decoded, Except.map, Except.ok.injEq, Option.some.injEq, Prod.mk.injEq] at read
      obtain ⟨rfl, rfl⟩ := read
      exact ⟨contents, rfl, decoded⟩

section Writes

variable [Blake3]

/-- A write has written a tombstone's marker when it sends the tombstone. -/
theorem wp_writePlanned {cap : Nat} {req : StoreReq} {key : RecordKey}
    {plan : Int → Option Record → Except CoreError (Planned Answer)}
    (write : planOf cap req = some (key, plan)) (clock : Nat → Int) (n : Nat)
    (pending : Option (Record × Answer)) (u : MarkerView) :
    Wp (markerContract hidden) (fun _ _ => True) u
      (writePlanned key plan clock n pending : S3Program β Answer) := by
  induction n generalizing pending u with
  | zero => exact trivial
  | succ n ih =>
    refine ⟨trivial, fun answer u' turned => ?_⟩
    obtain ⟨-, -, -, -, own, -⟩ := turned
    change Wp _ _ u' (Program.ofExcept (readResult answer) >>= _)
    cases read : readResult answer with
    | error e => exact trivial
    | ok found =>
      have keyed : ∀ c, found.map Prod.fst = some c → c.key = key := by
        intro c first
        obtain ⟨⟨c', tag⟩, at_found, rfl⟩ := Option.map_eq_some_iff.mp first
        obtain ⟨contents, answered, decoded⟩ := readResult_some read at_found
        exact own contents tag c' answered decoded
      have afresh : Wp (markerContract hidden) (fun _ _ => True) u'
          (Program.ofExcept (plan (clock n) (found.map Prod.fst)) >>=
            carryOut key (found.map Prod.snd) fun sent => writePlanned key plan clock n sent) := by
        cases planned : plan (clock n) (found.map Prod.fst) with
        | error e => exact trivial
        | ok action =>
          cases action with
          | finish answer => exact trivial
          | remove answer =>
            cases tag : found.map Prod.snd with
            | none =>
              simp only [Program.ofExcept_ok, Program.done_bind, carryOut, deleteRecordIfMatch]
              exact ih none u'
            | some tag =>
              refine ⟨trivial, fun outcome u'' _ => ?_⟩
              rcases outcome with e | _ | kind
              · exact trivial
              · exact trivial
              · exact ih none u''
          | put record answer =>
            have same := planned_key write keyed planned
            have send : ∀ v : MarkerView, (record.isTombstone = true → v.marked = some key) →
                Wp (markerContract hidden) (fun _ _ => True) v
                  (putStage record answer (found.map Prod.snd) fun sent =>
                    writePlanned key plan clock n sent) := by
              intro v marked
              unfold putStage putRecordIf
              cases written : (encode record : Except CoreError β) with
              | error e => exact trivial
              | ok contents =>
                refine ⟨⟨written, fun dead => same ▸ marked dead⟩, fun outcome v' _ => ?_⟩
                rcases outcome with e | _ | kind
                · exact trivial
                · exact trivial
                · exact ih _ v'
            by_cases dead : record.isTombstone = true
            · have mark : (markTombstone key record : S3Program β Unit) =
                S3.send (.putMarker key record.revision) := if_pos dead
              simp only [Program.ofExcept_ok, Program.done_bind, carryOut]
              rw [mark]
              refine ⟨trivial, fun outcome v turned => ?_⟩
              cases outcome with
              | error e => exact trivial
              | ok done => exact send v fun _ => (turned.1 key).mpr ⟨rfl, rfl⟩
            · have skip : (markTombstone key record : S3Program β Unit) = pure () := if_neg dead
              simp only [Program.ofExcept_ok, Program.done_bind, carryOut]
              rw [skip]
              exact send u' fun tombstone => absurd tombstone dead
      cases pending with
      | none => exact afresh
      | some sent =>
        simp only [Program.ofExcept_ok, Program.done_bind, unlessLanded]
        split
        · exact trivial
        · exact afresh

end Writes

theorem wp_read (key : RecordKey) (f : Option Record → Answer) (u : MarkerView) :
    Wp (markerContract hidden) (fun _ _ => True) u
      (read key >>= fun record => pure (f record) : S3Program β Answer) := by
  refine ⟨trivial, fun answer u' _ => ?_⟩
  change Wp _ _ u' ((Program.ofExcept (readResult answer) >>= _) >>= _)
  cases readResult answer <;> exact trivial

/-! ## The pages -/

omit [RecordJson β] [Etags β] in
theorem mem_add_markers {E : Type} {keys : KeyPrefix} {page : Page E} {out : Listing E}
    {key : RecordKey} : key ∈ (out.add keys page).markers ↔
      key ∈ out.markers ∨ keys.matches key = true ∧ ∃ tag, (key, tag) ∈ page.markers := by
  unfold Listing.add
  dsimp only
  generalize out.markers = markers
  induction page.markers generalizing markers with
  | nil => simp
  | cons entry rest ih =>
    obtain ⟨k, tag⟩ := entry
    rw [List.foldl_cons, ih]
    by_cases admitted : keys.matches k = true
    · simp only [admitted, if_true, Std.ExtTreeMap.mem_insert, Std.LawfulEqCmp.compare_eq_iff_eq,
        List.mem_cons, Prod.mk.injEq]
      constructor
      · rintro ((rfl | old) | ⟨ok, t, later⟩)
        · exact .inr ⟨admitted, tag, .inl ⟨rfl, rfl⟩⟩
        · exact .inl old
        · exact .inr ⟨ok, t, .inr later⟩
      · rintro (old | ⟨ok, t, ⟨rfl, rfl⟩ | later⟩)
        · exact .inl (.inr old)
        · exact .inl (.inl rfl)
        · exact .inr ⟨ok, t, later⟩
    · rw [if_neg admitted]
      constructor
      · rintro (old | ⟨ok, t, later⟩)
        · exact .inl old
        · exact .inr ⟨ok, t, List.mem_cons_of_mem _ later⟩
      · rintro (old | ⟨ok, t, member⟩)
        · exact .inl old
        · rcases List.mem_cons.mp member with same | later
          · cases same
            exact absurd ok admitted
          · exact .inr ⟨ok, t, later⟩

omit [RecordJson β] [Etags β] in
theorem matches_s3Prefix {keys : KeyPrefix} {key : RecordKey} (ok : keys.matches key = true) :
    (s3Prefix keys).matches key = true := by
  simp only [KeyPrefix.matches, s3Prefix, Bool.and_eq_true] at ok ⊢
  refine ⟨ok.1, ?_⟩
  split
  · exact ok.2
  · rfl

omit [RecordJson β] [Etags β] in
theorem matches_collection {keys : KeyPrefix} {key other : RecordKey}
    (same : collectionOf key = collectionOf other) : keys.matches key = keys.matches other := by
  simp only [collectionOf, Prod.mk.injEq] at same
  simp [KeyPrefix.matches, same.1, same.2]

/-- What a listing has shown once the names up to `token` are listed: all of them after
the last page. -/
structure Listed (hidden : Option Hidden) (keys : KeyPrefix) (past : String → Prop)
    (listing : Listing (Etags.Tag β)) (v : MarkerView) : Prop where
  records : ∀ key ∈ listing.records, keys.matches key = true
  markers : ∀ key ∈ listing.markers, keys.matches key = true
  unlisted : ∀ key, keys.matches key = true → past (objectKey key) → key ∉ listing.records →
    ¬ v.suspects key
  free : ∀ key, keys.matches key = true → past (objectKey key) → key ∉ listing.records →
    v.free key
  marked : ∀ key ∈ listing.markers, ¬ v.suspects key
  hidden : ∀ h, hidden = some h → h.marked → keys.matches h.key = true →
    past (markerKey h.key) → h.key ∈ listing.markers

/-- One page more. -/
theorem Listed.add {keys : KeyPrefix} {token : Option String} {listing : Listing (Etags.Tag β)}
    {u u' : MarkerView} {page : Page (Etags.Tag β)}
    (listed : Listed hidden keys (fun name => ∃ t, token = some t ∧ name ≤ t) listing u)
    (turned : (markerContract hidden).turn u (.listObjects (s3Prefix keys) token : S3Req β)
      (.ok page) u') :
    Listed hidden keys (fun name => ∀ t, page.next = some t → name ≤ t) (listing.add keys page)
      u' := by
  obtain ⟨-, suspects, -, free, -, shows, -⟩ := turned
  have covered : ∀ name, (∀ t, page.next = some t → name ≤ t) →
      (¬ ∃ t, token = some t ∧ name ≤ t) → Bucket.Covered token page.next name := by
    intro name upTo fresh
    refine ⟨fun t at_t => ?_, upTo⟩
    by_contra behind
    exact fresh ⟨t, at_t, not_lt.mp behind⟩
  have kept : ∀ key, ¬ u.suspects key → ¬ u'.suspects key := fun key clear suspect =>
    clear ((suspects key).mp suspect).1
  have unlisted : ∀ key, keys.matches key = true → key ∉ (listing.add keys page).records →
      key ∉ listing.records ∧ key ∉ page.records := by
    intro key ok absent
    simp only [Listing.add, List.mem_append, List.mem_filter, not_or, not_and] at absent
    exact ⟨absent.1, fun member => absent.2 member ok⟩
  refine ⟨fun key member => ?_, fun key member => ?_, fun key ok past absent suspect => ?_,
    fun key ok past absent => (free key).mpr ?_, fun key member suspect => ?_,
    fun h at_h marked ok past => ?_⟩
  · rcases List.mem_append.mp member with old | new
    · exact listed.records key old
    · exact (List.mem_filter.mp new).2
  · rcases mem_add_markers.mp member with old | ⟨ok, -⟩
    · exact listed.markers key old
    · exact ok
  · have unlisted := unlisted key ok absent
    by_cases before : ∃ t, token = some t ∧ objectKey key ≤ t
    · exact kept key (listed.unlisted key ok before unlisted.1) suspect
    · exact ((suspects key).mp suspect).2 ⟨page, rfl,
        .inl ⟨matches_s3Prefix ok, covered _ past before, unlisted.2⟩⟩
  · have unlisted := unlisted key ok absent
    by_cases shown : ShowsFree key (.listObjects (s3Prefix keys) token : S3Req β) (.ok page)
    · exact .inl shown
    · refine .inr ⟨shown, ?_⟩
      by_cases before : ∃ t, token = some t ∧ objectKey key ≤ t
      · exact listed.free key ok before unlisted.1
      · exact absurd ⟨page, rfl, matches_s3Prefix ok, covered _ past before, unlisted.2⟩ shown
  · rcases mem_add_markers.mp member with old | ⟨-, tag, new⟩
    · exact kept key (listed.marked key old) suspect
    · exact ((suspects key).mp suspect).2 ⟨page, rfl, .inr ⟨tag, new⟩⟩
  · rw [mem_add_markers]
    by_cases before : ∃ t, token = some t ∧ markerKey h.key ≤ t
    · exact .inl (listed.hidden h at_h marked ok before)
    · exact .inr ⟨ok, shows h at_h page rfl marked (matches_s3Prefix ok) (covered _ past before)⟩

/-- A listing of all pages. -/
theorem wp_listObjects (keys : KeyPrefix) (pages : Nat) {token : Option String}
    {out : Listing (Etags.Tag β)} {v u : MarkerView} (after : After Unread v u)
    (listed : Listed hidden keys (fun name => ∃ t, token = some t ∧ name ≤ t) out u) :
    Wp (markerContract hidden)
      (Learns Unread v fun u' listing => Listed hidden keys (fun _ => True) listing u') u
      (listObjects keys pages token out : S3Program β (Listing (Etags.Tag β))) := by
  induction pages generalizing token out u with
  | zero => exact Learns.fail after
  | succ pages ih =>
    refine Learns.send after (by simp) trivial fun page u' turned after' => ?_
    have more := listed.add turned
    cases next : page.next with
    | none =>
      simp only [next] at more
      exact Learns.done after' ⟨more.records, more.markers,
        fun key ok _ => more.unlisted key ok nofun, fun key ok _ => more.free key ok nofun,
        more.marked, fun h at_h marked ok _ => more.hidden h at_h marked ok nofun⟩
    | some t =>
      simp only [next] at more
      have upTo : ∀ name, (∃ t', some t = some t' ∧ name ≤ t') → ∀ t', some t = some t' →
          name ≤ t' := by
        rintro name ⟨t', same, le⟩ t'' same'
        cases same.symm.trans same'
        exact le
      exact ih after' ⟨more.records, more.markers,
        fun key ok past => more.unlisted key ok (upTo _ past),
        fun key ok past => more.free key ok (upTo _ past), more.marked,
        fun h at_h marked ok past => more.hidden h at_h marked ok (upTo _ past)⟩

/-! ## The reads of a listing -/

omit [RecordJson β] [Etags β] in
private theorem flatten_chunks_go {τ : Type} (n : Nat) (xs : List τ) (chunk : Array τ)
    (chunks : Array (List τ)) :
    (List.toChunks.go n xs chunk chunks).flatten =
      chunks.toList.flatten ++ chunk.toList ++ xs := by
  induction xs generalizing chunk chunks with
  | nil => simp [List.toChunks.go]
  | cons x xs ih =>
    unfold List.toChunks.go
    split
    · simp [ih]
    · simp [ih]

omit [RecordJson β] [Etags β] in
theorem flatten_toChunks {τ : Type} (n : Nat) (xs : List τ) : (xs.toChunks n).flatten = xs := by
  cases xs with
  | nil => cases n <;> rfl
  | cons x xs =>
    cases n with
    | zero => simp [List.toChunks]
    | succ n => simp [List.toChunks, flatten_chunks_go]

omit [Etags β] in
theorem decode_serde {contents : β} {e : CoreError} (unread : decode contents = .error e) :
    ∃ message, e = .serde message := by
  unfold decode at unread
  cases found : RecordJson.fromSlice contents <;> rw [found] at unread <;> cases unread
  exact ⟨_, rfl⟩

/-- A read that says anything says whether there is a tombstone. -/
theorem listedAsLive_tombstoned {answer : Except CoreError (Option (β × Etags.Tag β))}
    (foreign : ∀ e, answer = .error e → ∃ message, e = .backend message) {liveness : Liveness}
    (read : listedAsLive ((readResult answer).map (Option.map Prod.fst)) = .ok liveness) :
    ∃ found, answer = .ok found ∧
      (FindsTombstone found ↔ ∃ revision, liveness = .tombstoned revision) := by
  rcases answer with e | _ | ⟨contents, tag⟩
  · obtain ⟨message, rfl⟩ := foreign e rfl
    cases read
  · cases read
    refine ⟨_, rfl, ?_⟩
    constructor
    · rintro ⟨_, _, _, same, -⟩
      cases same
    · rintro ⟨_, same⟩
      cases same
  · refine ⟨_, rfl, ?_⟩
    cases decoded : decode contents with
    | error e =>
      obtain ⟨message, rfl⟩ := decode_serde decoded
      simp only [readResult, Except.bind, decoded, Except.map, listedAsLive, Except.ok.injEq] at read
      subst read
      constructor
      · rintro ⟨c, t, r, same, found, -⟩
        cases same
        cases decoded.symm.trans found
      · rintro ⟨_, same⟩
        cases same
    | ok record =>
      simp only [readResult, Except.bind, decoded, Except.map, Option.map_some, listedAsLive,
        Except.ok.injEq] at read
      subst read
      constructor
      · rintro ⟨c, t, r, same, found, dead⟩
        cases same
        cases decoded.symm.trans found
        exact ⟨record.revision, if_pos dead⟩
      · rintro ⟨revision, same⟩
        refine ⟨contents, tag, record, rfl, decoded, ?_⟩
        by_contra live
        rw [if_neg live] at same
        cases same

/-- What the reads so far have shown. -/
structure Reads (hidden : Option Hidden) (read : List RecordKey)
    (live : Std.ExtTreeMap RecordKey Liveness compare) (v : MarkerView) : Prop where
  all : ∀ key ∈ read, key ∈ live
  clear : ∀ key liveness, live[key]? = some liveness →
    (∀ revision, liveness ≠ .tombstoned revision) → ¬ v.suspects key
  free : ∀ key liveness, live[key]? = some liveness →
    (∀ revision, liveness ≠ .tombstoned revision) → v.free key
  hidden : ∀ h, hidden = some h → ∀ liveness, live[h.key]? = some liveness →
    ∃ revision, liveness = .tombstoned revision

omit [RecordJson β] [Etags β] in
theorem Reads.mono {read : List RecordKey} {live : Std.ExtTreeMap RecordKey Liveness compare}
    {u u' : MarkerView} (after : After Unread u u') (reads : Reads hidden read live u) :
    Reads hidden read live u' where
  all := reads.all
  clear key liveness at_key other suspect :=
    reads.clear key liveness at_key other (after.fewer key suspect)
  free key liveness at_key other := after.free key id (reads.free key liveness at_key other)
  hidden := reads.hidden

theorem wp_readListed {inside : RecordKey → Prop} {read : List RecordKey}
    {live : Std.ExtTreeMap RecordKey Liveness compare} {v u : MarkerView}
    (after : After inside v u) (reads : Reads hidden read live u) {key : RecordKey}
    (here : inside key) :
    Wp (markerContract hidden)
      (Learns inside v fun u' live' => Reads hidden (read ++ [key]) live' u') u
      (readListed live key : S3Program β _) := by
  refine Learns.attempt after (fun k same => ?_) trivial fun answer u' turned after' => ?_
  · cases same
    exact here
  obtain ⟨-, suspects, -, free, -, shows, foreign⟩ := turned
  cases listed : listedAsLive ((readResult answer).map (Option.map Prod.fst)) with
  | error e => exact Learns.fail after'
  | ok liveness =>
    obtain ⟨found, answered, tombstone⟩ := listedAsLive_tombstoned foreign listed
    refine Learns.done after' ⟨fun k member => ?_, fun k l at_k other => ?_,
      fun k l at_k other => (free k).mpr ?_, fun h at_h l at_h' => ?_⟩
    · rw [Std.ExtTreeMap.mem_insert]
      rcases List.mem_append.mp member with old | new
      · exact .inr (reads.all k old)
      · exact .inl (by simpa using (List.mem_singleton.mp new).symm)
    · rw [Std.ExtTreeMap.getElem?_insert] at at_k
      split at at_k
      next same =>
        cases at_k
        obtain rfl := Std.LawfulEqCmp.compare_eq_iff_eq.mp same
        intro suspect
        exact ((suspects key).mp suspect).2 ⟨rfl, found, answered,
          fun dead => (tombstone.mp dead).elim other⟩
      next =>
        intro suspect
        exact reads.clear k l at_k other ((suspects k).mp suspect).1
    · rw [Std.ExtTreeMap.getElem?_insert] at at_k
      split at at_k
      next same =>
        cases at_k
        obtain rfl := Std.LawfulEqCmp.compare_eq_iff_eq.mp same
        exact .inl ⟨rfl, found, answered, fun dead => (tombstone.mp dead).elim other⟩
      next apart =>
        refine .inr ⟨fun looks => apart ?_, reads.free k l at_k other⟩
        exact Std.LawfulEqCmp.compare_eq_iff_eq.mpr looks.1
    · rw [Std.ExtTreeMap.getElem?_insert] at at_h'
      split at at_h'
      next same =>
        cases at_h'
        exact tombstone.mp (shows h at_h found answered (Std.LawfulEqCmp.compare_eq_iff_eq.mp same))
      next => exact reads.hidden h at_h l at_h'

theorem wp_readLiveness {schedule : List RecordKey → List RecordKey}
    (permutes : ∀ keys, (schedule keys).Perm keys) (keys : List RecordKey) {v : MarkerView} :
    Wp (markerContract hidden) (Learns (· ∈ keys) v fun u' live => Reads hidden keys live u') v
      (readLiveness schedule keys : S3Program β _) := by
  have loop : ∀ (todo read : List RecordKey) (live : Std.ExtTreeMap RecordKey Liveness compare)
      (u : MarkerView), (∀ key ∈ todo, key ∈ keys) → After (· ∈ keys) v u →
      Reads hidden read live u →
      Wp (markerContract hidden)
        (Learns (· ∈ keys) v fun u' live' => Reads hidden (read ++ todo) live' u') u
        (todo.foldlM readListed live : S3Program β _) := by
    intro todo
    induction todo with
    | nil =>
      intro read live u _ after reads
      exact Learns.done after (by simpa using reads)
    | cons key rest ih =>
      intro read live u inside after reads
      rw [List.foldlM_cons]
      refine Learns.bind after (fun _ => id)
        (wp_readListed .refl reads (inside key List.mem_cons_self)) fun u' live' after' reads' => ?_
      simpa using ih (read ++ [key]) live' u'
        (fun k later => inside k (List.mem_cons_of_mem _ later))
        (after.trans (fun _ => id) after') reads'
  have asked : ∀ key, key ∈ (keys.toChunks listReadConcurrency).flatMap schedule ↔ key ∈ keys := by
    intro key
    rw [List.mem_flatMap]
    conv_rhs => rw [← flatten_toChunks listReadConcurrency keys, List.mem_flatten]
    exact exists_congr fun chunk => and_congr_right fun _ => (permutes chunk).mem_iff
  refine (loop _ [] ∅ v (fun key => (asked key).mp) .refl
    ⟨nofun, by simp, by simp, by simp⟩).mono ?_
  rintro u' result ⟨after, reads⟩
  refine ⟨after, fun live same => ?_⟩
  obtain ⟨all, clear, free, hidden⟩ := reads live same
  exact ⟨fun key member => all key ((asked key).mpr member), clear, free, hidden⟩

/-! ## The collections -/

omit [RecordJson β] in
theorem Listed.mono {keys : KeyPrefix} {past : String → Prop} {listing : Listing (Etags.Tag β)}
    {read : RecordKey → Prop} {u u' : MarkerView} (after : After read u u')
    (recorded : ∀ key, read key → key ∈ listing.records)
    (listed : Listed hidden keys past listing u) : Listed hidden keys past listing u' where
  records := listed.records
  markers := listed.markers
  unlisted key ok named absent suspect :=
    listed.unlisted key ok named absent (after.fewer key suspect)
  free key ok named absent :=
    after.free key (fun member => absent (recorded key member)) (listed.free key ok named absent)
  marked key member suspect := listed.marked key member (after.fewer key suspect)
  hidden := listed.hidden

/-- A collection that is said to be flagged is, and a hidden key without a marker is not in
it. -/
theorem wp_collectionMarked (coll : Collection) (v : MarkerView) :
    Wp (markerContract hidden) (Learns Unread v fun _ marked => marked = true →
      ∀ h, hidden = some h → coll = collectionOf h.key → h.marked) v
      (collectionMarked coll : S3Program β Bool) := by
  have seen : ∀ h : Hidden, (¬ h.marked → coll = collectionOf h.key →
      (Except.ok true : Except CoreError Bool) ≠ .ok true) → coll = collectionOf h.key →
      h.marked := by
    intro h shows inside
    by_contra unmarked
    exact shows unmarked inside rfl
  refine Learns.send .refl (by simp) trivial fun known u turned after => ?_
  cases known with
  | true =>
    exact Learns.done after fun _ h at_h inside => seen h (turned.2.2.2.2.2.1 h at_h) inside
  | false =>
    refine Learns.send after (by simp) trivial fun found u' turned' after' => ?_
    cases found with
    | false => exact Learns.done after' fun same => by cases same
    | true =>
      have flagged : u'.flagged coll := (turned'.2.2.1 coll).mpr (.inr ⟨rfl, rfl⟩)
      refine Learns.send after' (by simp) flagged fun _ u'' _ after'' => ?_
      exact Learns.done after'' fun _ h at_h inside => seen h (turned'.2.2.2.2.2.1 h at_h) inside

theorem wp_markCollection (coll : Collection) {v : MarkerView}
    (clear : ∀ key, collectionOf key = coll → ¬ v.suspects key) :
    Wp (markerContract hidden) (Learns Unread v fun _ _ => True) v
      (markCollection coll : S3Program β Unit) := by
  refine Learns.send .refl (by simp) clear fun _ u turned after => ?_
  exact Learns.sent after (by simp) ((turned.2.2.1 coll).mpr (.inr ⟨rfl, rfl⟩)) fun _ _ _ => trivial

/-- A marker is dropped after a look that showed no tombstone. -/
theorem wp_dropMarker (listing : Listing (Etags.Tag β)) {key : RecordKey} {v : MarkerView}
    (free : v.free key) :
    Wp (markerContract hidden) (Learns Unread v fun _ _ => True) v
      (dropMarker listing key : S3Program β Unit) := by
  unfold dropMarker
  split
  · exact Learns.sent .refl (by simp) free fun _ _ _ => trivial
  · exact Learns.done .refl trivial

/-- A key that was read is not suspect any more, and a hidden key is not answered. -/
theorem wp_listKey {keys : KeyPrefix} {past : String → Prop} {read : List RecordKey}
    {listing : Listing (Etags.Tag β)} {live : Std.ExtTreeMap RecordKey Liveness compare}
    {out : List RecordKey} {key : RecordKey} {u : MarkerView}
    (listed : Listed hidden keys past listing u) (reads : Reads hidden read live u)
    (absent : ∀ h, hidden = some h → h.key ∉ out)
    (known : ∀ h, hidden = some h → h.key = key → key ∈ live) :
    Wp (markerContract hidden) (Learns Unread u fun u' out' => (key ∈ live → ¬ u'.suspects key) ∧
        ∀ h, hidden = some h → h.key ∉ out') u
      (listKey listing live out key : S3Program β (List RecordKey)) := by
  have pushed : (∀ revision, live[key]? ≠ some (.tombstoned revision)) →
      ∀ h, hidden = some h → h.key ∉ out ++ [key] := by
    intro other h at_h member
    rcases List.mem_append.mp member with old | new
    · exact absent h at_h old
    · have same := List.mem_singleton.mp new
      have found := Std.ExtTreeMap.mem_iff_isSome_getElem?.mp (known h at_h same)
      obtain ⟨liveness, at_key⟩ := Option.isSome_iff_exists.mp found
      obtain ⟨revision, rfl⟩ := reads.hidden h at_h liveness (by rw [same]; exact at_key)
      exact other revision at_key
  unfold listKey
  cases at_key : live[key]? with
  | none =>
    refine Learns.done .refl ⟨fun member => ?_, pushed (by simp [at_key])⟩
    rw [Std.ExtTreeMap.mem_iff_isSome_getElem?, at_key] at member
    cases member
  | some liveness =>
    cases liveness with
    | live =>
      have clear := reads.clear key _ at_key nofun
      refine Learns.bind .refl (fun _ => id) (wp_dropMarker listing (reads.free key _ at_key nofun))
        fun u' _ after _ => ?_
      exact Learns.done after ⟨fun _ suspect => clear (after.fewer key suspect),
        pushed (by simp [at_key])⟩
    | absent =>
      have clear := reads.clear key _ at_key nofun
      refine Learns.bind .refl (fun _ => id) (wp_dropMarker listing (reads.free key _ at_key nofun))
        fun u' _ after _ => ?_
      exact Learns.done after ⟨fun _ suspect => clear (after.fewer key suspect), absent⟩
    | tombstoned revision =>
      dsimp only
      split
      next marked =>
        exact Learns.done .refl ⟨fun _ => listed.marked key marked, absent⟩
      next =>
        refine Learns.send .refl (by simp) trivial fun _ u' turned after => ?_
        exact Learns.done after ⟨fun _ suspect => ((turned.2.1 key).mp suspect).2 ⟨rfl, rfl⟩,
          absent⟩

/-- The loop of a collection's keys. -/
theorem wp_listKeys {keys : KeyPrefix} {past : String → Prop} {read : List RecordKey}
    {listing : Listing (Etags.Tag β)} {live : Std.ExtTreeMap RecordKey Liveness compare}
    (todo : List RecordKey) {out : List RecordKey} {u : MarkerView}
    (listed : Listed hidden keys past listing u) (reads : Reads hidden read live u)
    (absent : ∀ h, hidden = some h → h.key ∉ out)
    (known : ∀ h, hidden = some h → h.key ∈ todo → h.key ∈ live) :
    Wp (markerContract hidden)
      (Learns Unread u fun u' out' => (∀ key ∈ todo, key ∈ live → ¬ u'.suspects key) ∧
        ∀ h, hidden = some h → h.key ∉ out') u
      (todo.foldlM (listKey listing live) out : S3Program β (List RecordKey)) := by
  induction todo generalizing out u with
  | nil => exact Learns.done .refl ⟨nofun, absent⟩
  | cons key rest ih =>
    rw [List.foldlM_cons]
    refine Learns.bind .refl (fun _ => id) (wp_listKey listed reads absent fun h at_h same => ?_)
      fun u' out' after ⟨clear, absent'⟩ => ?_
    · exact same ▸ known h at_h (by simp [same])
    · refine (ih (listed.mono after fun _ => False.elim) (reads.mono after) absent'
        fun h at_h member => known h at_h (List.mem_cons_of_mem _ member)).mono ?_
      rintro u'' result ⟨after', holds⟩
      refine ⟨after.trans (fun _ => id) after', fun value same => ?_⟩
      obtain ⟨clears, absent''⟩ := holds value same
      refine ⟨fun k member at_k => ?_, absent''⟩
      rcases List.mem_cons.mp member with rfl | later
      · exact fun suspect => clear at_k (after'.fewer k suspect)
      · exact clears k later at_k

theorem wp_dropOrphans {orphans : List (RecordKey × Etags.Tag β)} {v u : MarkerView}
    (after : After Unread v u) (free : ∀ orphan ∈ orphans, v.free orphan.1) :
    Wp (markerContract hidden) (Learns Unread v fun _ _ => True) u
      (orphans.forM fun orphan => deleteMarkerIfMatch orphan.1 orphan.2 : S3Program β Unit) := by
  induction orphans generalizing u with
  | nil => exact Learns.done after trivial
  | cons orphan rest ih =>
    have first : u.free orphan.1 := after.free _ id (free orphan List.mem_cons_self)
    exact Learns.send after (by simp) first fun _ u' _ after' =>
      ih after' fun other later => free other (List.mem_cons_of_mem _ later)

omit [RecordJson β] in
theorem mem_collections {listing : Listing (Etags.Tag β)} {coll : Collection}
    (member : coll ∈ listing.collections) :
    ∃ key, (key ∈ listing.records ∨ key ∈ listing.markers) ∧ collectionOf key = coll := by
  simp only [Listing.collections, List.mem_mergeSort, List.mem_dedup, List.mem_append,
    List.mem_map, Std.ExtTreeMap.mem_keys] at member
  rcases member with ⟨key, listed, same⟩ | ⟨key, marked, same⟩
  · exact ⟨key, .inl listed, same⟩
  · exact ⟨key, .inr marked, same⟩

omit [RecordJson β] in
/-- The record of an orphan is on no page. -/
theorem Listed.free_orphan {keys : KeyPrefix} {listing : Listing (Etags.Tag β)} {u : MarkerView}
    (listed : Listed hidden keys (fun _ => True) listing u) {coll : Collection}
    {orphan : RecordKey × Etags.Tag β} (member : orphan ∈ listing.orphansOf coll) :
    u.free orphan.1 := by
  simp only [Listing.orphansOf, List.mem_filter, decide_eq_true_eq] at member
  obtain ⟨stands, inside, unlisted⟩ := member
  have marker : orphan.1 ∈ listing.markers := by
    rw [Std.ExtTreeMap.mem_iff_isSome_getElem?,
      Std.ExtTreeMap.mem_toList_iff_getElem?_eq_some.mp stands]
    rfl
  refine listed.free _ (listed.markers _ marker) trivial fun recorded => unlisted ?_
  exact List.mem_filter.mpr ⟨recorded, decide_eq_true inside⟩

/-- A collection is flagged only when none of its keys is suspect. -/
theorem wp_listCollection {schedule : List RecordKey → List RecordKey}
    (permutes : ∀ keys, (schedule keys).Perm keys) {keys : KeyPrefix}
    {listing : Listing (Etags.Tag β)} {out : List RecordKey} {coll : Collection} {u : MarkerView}
    (listed : Listed hidden keys (fun _ => True) listing u) (member : coll ∈ listing.collections)
    (absent : ∀ h, hidden = some h → h.key ∉ out) :
    Wp (markerContract hidden)
      (Learns (· ∈ listing.records) u fun _ out' => ∀ h, hidden = some h → h.key ∉ out') u
      (listCollection schedule listing out coll : S3Program β (List RecordKey)) := by
  have none : ∀ key, Unread key → key ∈ listing.records := fun _ => False.elim
  refine Learns.bind .refl none (wp_collectionMarked coll u) fun u₁ marked after₁ flagged => ?_
  have after₁ : After (· ∈ listing.records) u u₁ := After.refl.trans none after₁
  have recorded : ∀ key, key ∈ (if marked then (listing.recordsOf coll).filter
      (· ∈ listing.markers) else listing.recordsOf coll) → key ∈ listing.records := by
    intro key asked
    split at asked
    · exact (List.mem_filter.mp (List.mem_filter.mp asked).1).1
    · exact (List.mem_filter.mp asked).1
  refine Learns.bind after₁ recorded (wp_readLiveness permutes _) fun u₂ live after₂ reads => ?_
  have after₂ := after₁.trans recorded after₂
  have listed₂ := listed.mono after₂ fun _ => id
  refine Learns.bind after₂ none (wp_listKeys (listing.recordsOf coll) listed₂ reads absent
    fun h at_h inside => ?_) fun u₃ out' after₃ ⟨clear, absent'⟩ => ?_
  · refine reads.all h.key ?_
    cases marked with
    | false => exact inside
    | true =>
      obtain ⟨recorded, same⟩ := List.mem_filter.mp inside
      have at_first := flagged rfl h at_h (of_decide_eq_true same).symm
      have marker := listed.hidden h at_h at_first (listed.records _ recorded) trivial
      exact List.mem_filter.mpr ⟨inside, decide_eq_true marker⟩
  · have after₃ := after₂.trans none after₃
    have listed₃ := listed.mono after₃ fun _ => id
    refine Learns.bind after₃ none (wp_dropOrphans .refl fun orphan => listed₃.free_orphan)
      fun u₄ _ after₄ _ => ?_
    have kept : ∀ key, u₄.suspects key → u₃.suspects key := after₄.fewer
    have after₄ := after₃.trans none after₄
    cases marked with
    | true => exact Learns.done after₄ absent'
    | false =>
      refine Learns.bind after₄ none (wp_markCollection coll fun key inside suspect => ?_)
        fun u₅ _ after₅ _ => Learns.done (after₄.trans none after₅) absent'
      by_cases recorded : key ∈ listing.recordsOf coll
      · exact clear key recorded (reads.all key recorded) (kept key suspect)
      · obtain ⟨other, found, same⟩ := mem_collections member
        have ok : keys.matches other = true := found.elim (listed.records other)
          (listed.markers other)
        rw [matches_collection (same.trans inside.symm)] at ok
        refine listed.unlisted key ok trivial (fun plain => recorded ?_) (after₄.fewer key suspect)
        exact List.mem_filter.mpr ⟨plain, decide_eq_true inside⟩

omit [RecordJson β] in
theorem listed_start (keys : KeyPrefix) (u : MarkerView) :
    Listed hidden keys (fun name => ∃ t, none = some t ∧ name ≤ t) ({} : Listing (Etags.Tag β))
      u := by
  have unnamed : ∀ name : String, ¬ ∃ t, none = some t ∧ name ≤ t := by simp
  refine ⟨nofun, fun key member => ?_, fun key ok past => absurd past (unnamed _),
    fun key ok past => absurd past (unnamed _), fun key member => ?_,
    fun h at_h marked ok past => absurd past (unnamed _)⟩
  · exact absurd member Std.ExtTreeMap.not_mem_empty
  · exact absurd member Std.ExtTreeMap.not_mem_empty

/-- A list answers no hidden key. -/
theorem wp_list {schedule : List RecordKey → List RecordKey}
    (permutes : ∀ keys, (schedule keys).Perm keys) (pages : Nat) (keys : KeyPrefix)
    (u : MarkerView) :
    Wp (markerContract hidden)
      (Learns (fun _ => True) u fun _ out => ∀ h, hidden = some h → h.key ∉ out) u
      (list schedule pages keys : S3Program β (List RecordKey)) := by
  refine Learns.bind .refl (fun _ _ => trivial) (wp_listObjects keys pages .refl
    (listed_start keys u)) fun u' listing after listed => ?_
  have after : After (fun _ => True) u u' := After.refl.trans (fun _ _ => trivial) after
  have loop : ∀ (todo : List Collection) (out : List RecordKey) (w : MarkerView),
      (∀ coll ∈ todo, coll ∈ listing.collections) → Listed hidden keys (fun _ => True) listing w →
      (∀ h, hidden = some h → h.key ∉ out) →
      Wp (markerContract hidden)
        (Learns (· ∈ listing.records) w fun _ out' => ∀ h, hidden = some h → h.key ∉ out') w
        (todo.foldlM (listCollection schedule listing) out : S3Program β (List RecordKey)) := by
    intro todo
    induction todo with
    | nil => exact fun out w _ _ absent => Learns.done .refl absent
    | cons coll rest ih =>
      intro out w members listed absent
      rw [List.foldlM_cons]
      refine Learns.bind .refl (fun _ => id)
        (wp_listCollection permutes listed (members coll (by simp)) absent)
        fun w' out' after absent' => ?_
      refine (ih out' w' (fun c later => members c (List.mem_cons_of_mem _ later))
        (listed.mono after fun _ => id) absent').mono ?_
      exact fun w'' result ⟨after', holds⟩ => ⟨after.trans (fun _ => id) after', holds⟩
  refine Learns.bind after (fun _ _ => trivial) (loop _ [] u' (fun _ => id) listed
    fun _ _ => List.not_mem_nil) fun u'' out after' absent => ?_
  exact Learns.done (after.trans (fun _ _ => trivial) after')
    fun h at_h => by simpa using absent h at_h

/-! ## The calls -/

/-- An answer that lists no hidden key. -/
def Unlisted (hidden : Option Hidden) (result : Except CoreError Answer) : Prop :=
  ∀ h keys, hidden = some h → result = .ok (.listed keys) → h.key ∉ keys

variable [Blake3]

/-- Every call keeps to the contract, and a list answers no hidden key. -/
theorem wp_call (cap : Nat) (around : Circumstances) (req : StoreReq) (u : MarkerView) :
    Wp (markerContract hidden)
      (fun _ result => (∃ keys, req = .list keys) → Unlisted hidden result) u
      (call cap around req : S3Program β Answer) := by
  cases planned : planOf cap req with
  | some write =>
    obtain ⟨key, plan⟩ := write
    rw [call_of_planOf planned]
    refine (wp_writePlanned planned around.clock maxWriteAttempts none u).mono ?_
    rintro _ _ - ⟨keys, rfl⟩
    cases planned
  | none =>
    cases req with
    | get key =>
      refine (wp_read key _ u).mono ?_
      rintro _ _ - ⟨keys, same⟩
      cases same
    | getRaw key =>
      refine (wp_read key _ u).mono ?_
      rintro _ _ - ⟨keys, same⟩
      cases same
    | list keys =>
      refine (wp_list around.permutes around.pages keys u).bind ?_ ?_
      · rintro u' out ⟨-, absent⟩ - h listed at_h same
        cases same
        exact absent out rfl h at_h
      · rintro u' e - - h listed - same
        cases same
    | listRaw keys =>
      refine (wp_listObjects keys around.pages .refl (listed_start keys u)).bind ?_ ?_
      · rintro u' listing - ⟨keys, same⟩
        cases same
      · rintro u' e - ⟨keys, same⟩
        cases same
    | _ => cases planned

end Contract

end Gonzalo.S3
