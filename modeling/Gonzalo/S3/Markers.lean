import Gonzalo.S3.Listing

/-!
# Tombstones and their markers

Any number of clients of `gonzalo-store-s3/src/lib.rs` on one bucket, every request of
theirs a step of its own. In a flagged collection each tombstone should have a marker, so
that a list may trust the markers. A marker is written just before its tombstone, and a list
deletes one by its ETag after a look at the record that showed no tombstone. Between the two
requests other clients run: `Undisturbed` says that none of them was about to write a tombstone
when the list looked, and that none has sent the marker anew since.
-/

set_option autoImplicit false

namespace Gonzalo.S3
open Gonzalo.Core Gonzalo.Lib

section Buckets

variable {β σ : Type} [RecordJson β] [Etags β] [DecidableEq σ]

omit [Etags β] in
/-- The object at `key` is a tombstone. -/
def Bucket.Tombstoned (b : Bucket β) (key : RecordKey) : Prop :=
  ∃ contents record, b.records[key]? = some contents ∧ decode contents = .ok record ∧
    record.isTombstone = true

omit [Etags β] in
/-- The object at `key` is a tombstone that no marker marks. -/
def Bucket.Unmarked (b : Bucket β) (key : RecordKey) : Prop :=
  b.Tombstoned key ∧ b.markers[key]? = none

/-- Objects hold records of their own keys, every tombstone of a flagged collection has a
marker, and a store remembers flagged collections only. -/
structure World.Sound (w : World β σ) : Prop where
  keyed : Keyed w.bucket
  flags : ∀ key, collectionOf key ∈ w.bucket.flags → ¬ w.bucket.Unmarked key
  caches : ∀ store, ∀ coll ∈ w.marked store, coll ∈ w.bucket.flags

/-- What must hold of the world when a request is sent. -/
def World.Fits (w : World β σ) : S3Req β → Prop
  | .putObject record contents _ => encode record = .ok contents ∧
      (record.isTombstone = true → (w.bucket.markers[record.key]?).isSome)
  | .putFlag coll => ∀ key, collectionOf key = coll → ¬ w.bucket.Unmarked key
  | .remember coll => coll ∈ w.bucket.flags
  | .deleteMarker key tag =>
      (∃ b, w.bucket.Takes (.deleteMarker key tag) b) → ¬ w.bucket.Tombstoned key
  | _ => True

variable {store : σ} {w w' : World β σ} {req : S3Req β} {answer : Except CoreError req.Found}

omit [RecordJson β] in
/-- A request that writes a tombstone. -/
def PutsTombstone (key : RecordKey) : S3Req β → Prop
  | .putObject record _ _ => record.key = key ∧ record.isTombstone = true
  | _ => False

omit [RecordJson β] in
/-- A request that writes the marker of `key` with this ETag. -/
def SendsMarker (key : RecordKey) (tag : Etags.Tag β) : S3Req β → Prop
  | .putMarker k revision => k = key ∧ markerTag β revision = tag
  | _ => False

omit [RecordJson β] in
/-- A request leaves the bucket as it is or takes effect. -/
theorem served_bucket (served : Served store w req answer w') :
    w'.bucket = w.bucket ∨ w.bucket.Takes req w'.bucket := by
  cases served with
  | put takes => exact .inr takes
  | putUnseen kind takes => exact .inr takes
  | deleted takes => exact .inr takes
  | deleteUnseen kind takes => exact .inr takes
  | flagged takes => exact .inr takes
  | markerPut takes => exact .inr takes
  | markerDeleted takes => exact .inr takes
  | lost message takes => exact .inr takes
  | _ => exact .inl rfl

omit [RecordJson β] in
/-- A store remembers nothing but what it is asked to. -/
theorem served_caches (served : Served store w req answer w') {s : σ} {coll : Collection}
    (member : coll ∈ w'.marked s) : coll ∈ w.marked s ∨ req = .remember coll := by
  cases served with
  | remembered c =>
    by_cases same : s = store
    · subst same
      simp only [Function.update_self, Finset.mem_insert] at member
      exact member.symm.imp id fun here => by rw [here]
    · exact .inl (by simpa [same] using member)
  | _ => exact .inl member

omit [RecordJson β] in
theorem takes_flags {b b' : Bucket β} (takes : b.Takes req b') {coll : Collection}
    (flag : coll ∈ b.flags) : coll ∈ b'.flags := by
  cases takes with
  | putFlag c => exact Finset.mem_insert_of_mem flag
  | _ => exact flag

omit [RecordJson β] in
/-- A marker stays unless it is deleted. -/
theorem takes_markers {b b' : Bucket β} (takes : b.Takes req b') {key : RecordKey}
    (spared : ∀ tag, req ≠ .deleteMarker key tag) (marked : (b.markers[key]?).isSome) :
    (b'.markers[key]?).isSome := by
  cases takes with
  | putMarker k revision =>
    simp only [Std.ExtTreeMap.getElem?_insert]
    split
    · rfl
    · exact marked
  | @deleteMarker k tag revision stands same =>
    have other : k ≠ key := fun here => spared tag (by rw [here])
    simpa [Std.ExtTreeMap.getElem?_erase, Std.LawfulEqCmp.compare_eq_iff_eq, other] using marked
  | _ => exact marked

omit [DecidableEq σ] in
/-- No request that fits leaves a tombstone without the marker it had. -/
theorem takes_unmarked (roundTrip : RoundTrip β) (fits : w.Fits req) {b : Bucket β}
    (takes : w.bucket.Takes req b) {key : RecordKey} (unmarked : b.Unmarked key) :
    w.bucket.Unmarked key := by
  obtain ⟨⟨contents, record, stored, read, dead⟩, bare⟩ := unmarked
  cases takes with
  | @putObject filed contents' pre admits =>
    by_cases here : filed.key = key
    · subst here
      obtain ⟨written, marked⟩ := fits
      simp only [Std.ExtTreeMap.getElem?_insert_self, Option.some.injEq] at stored
      subst stored
      cases read.symm.trans (roundTrip filed contents' written)
      rw [bare] at marked
      cases marked dead
    · simp only [Std.ExtTreeMap.getElem?_insert, Std.LawfulEqCmp.compare_eq_iff_eq, here,
        if_false] at stored
      exact ⟨⟨contents, record, stored, read, dead⟩, bare⟩
  | @deleteObject k tag admits =>
    rw [Std.ExtTreeMap.getElem?_erase] at stored
    split at stored
    · cases stored
    · exact ⟨⟨contents, record, stored, read, dead⟩, bare⟩
  | putFlag coll => exact ⟨⟨contents, record, stored, read, dead⟩, bare⟩
  | putMarker k revision =>
    rw [Std.ExtTreeMap.getElem?_insert] at bare
    split at bare
    · cases bare
    · exact ⟨⟨contents, record, stored, read, dead⟩, bare⟩
  | @deleteMarker k tag revision stands same =>
    by_cases here : k = key
    · subst here
      exact absurd ⟨contents, record, stored, read, dead⟩ (fits ⟨_, .deleteMarker stands same⟩)
    · rw [Std.ExtTreeMap.getElem?_erase, if_neg (by
        simpa [Std.LawfulEqCmp.compare_eq_iff_eq] using here)] at bare
      exact ⟨⟨contents, record, stored, read, dead⟩, bare⟩

omit [DecidableEq σ] in
theorem takes_keyed (roundTrip : RoundTrip β) (fits : w.Fits req) (keyed : Keyed w.bucket)
    {b : Bucket β} (takes : w.bucket.Takes req b) : Keyed b := by
  intro key contents record stored read
  cases takes with
  | @putObject filed contents' pre admits =>
    by_cases here : filed.key = key
    · subst here
      simp only [Std.ExtTreeMap.getElem?_insert_self, Option.some.injEq] at stored
      subst stored
      cases read.symm.trans (roundTrip filed contents' fits.1)
      rfl
    · simp only [Std.ExtTreeMap.getElem?_insert, Std.LawfulEqCmp.compare_eq_iff_eq, here,
        if_false] at stored
      exact keyed key contents record stored read
  | @deleteObject k tag admits =>
    rw [Std.ExtTreeMap.getElem?_erase] at stored
    split at stored
    · cases stored
    · exact keyed key contents record stored read
  | _ => exact keyed key contents record stored read

/-- A request that fits leaves no tombstone without a marker that had one before. -/
theorem served_unmarked (roundTrip : RoundTrip β) (fits : w.Fits req)
    (served : Served store w req answer w') {key : RecordKey}
    (unmarked : w'.bucket.Unmarked key) : w.bucket.Unmarked key := by
  rcases served_bucket served with same | takes
  · exact same ▸ unmarked
  · exact takes_unmarked roundTrip fits takes unmarked

/-- A request that fits keeps the world sound. -/
theorem World.Sound.served (roundTrip : RoundTrip β) (sound : w.Sound) (fits : w.Fits req)
    (served : Served store w req answer w') : w'.Sound := by
  have flags : ∀ coll ∈ w.bucket.flags, coll ∈ w'.bucket.flags := by
    intro coll flag
    rcases served_bucket served with same | takes
    · exact same ▸ flag
    · exact takes_flags takes flag
  refine ⟨?_, fun key flag unmarked => ?_, fun s coll member => ?_⟩
  · rcases served_bucket served with same | takes
    · exact same ▸ sound.keyed
    · exact takes_keyed roundTrip fits sound.keyed takes
  · have before := served_unmarked roundTrip fits served unmarked
    rcases served_bucket served with same | takes
    · exact sound.flags key (same ▸ flag) before
    · generalize w'.bucket = b at takes flag
      cases takes with
      | putFlag coll =>
        rcases Finset.mem_insert.mp flag with new | old
        · exact fits key new before
        · exact sound.flags key old before
      | _ => exact sound.flags key flag before
  · rcases served_caches served member with old | rfl
    · exact flags coll (sound.caches s coll old)
    · exact flags coll fits

/-- What an answer shows is so. -/
theorem served_clears (served : Served store w req answer w') {key : RecordKey}
    (clears : Clears key req answer) : ¬ w'.bucket.Unmarked key := by
  cases served with
  | got k =>
    obtain ⟨rfl, found, same, none⟩ := clears
    cases same
    rintro ⟨⟨contents, record, stored, read, dead⟩, -⟩
    exact none ⟨contents, _, record, by rw [stored]; rfl, read, dead⟩
  | listed lists =>
    obtain ⟨page, same, ⟨ok, covered, absent⟩ | ⟨tag, present⟩⟩ := clears <;> cases same
    · rintro ⟨⟨contents, record, stored, -, -⟩, -⟩
      exact absent ((lists.records key).mpr ⟨by rw [stored]; rfl, ok, covered⟩)
    · rintro ⟨-, bare⟩
      obtain ⟨revision, marker, -⟩ := (lists.markers key tag).mp present
      rw [bare] at marker
      cases marker
  | markerPut takes =>
    obtain ⟨-, rfl⟩ := clears
    cases takes
    rintro ⟨-, bare⟩
    simp at bare
  | failed req message =>
    cases req with
    | getObject k => exact clears.2.elim fun _ found => by cases found.1
    | listObjects under token => exact clears.elim fun _ found => by cases found.1
    | putMarker k revision => cases clears.1
    | _ => exact clears.elim
  | lost message takes =>
    cases takes with
    | putMarker k revision => cases clears.1
    | _ => exact clears.elim
  | _ => exact clears.elim

/-- A look that finds no tombstone. -/
theorem served_free (served : Served store w req answer w') {key : RecordKey}
    (shows : ShowsFree key req answer) : ¬ w'.bucket.Tombstoned key := by
  cases served with
  | got k =>
    obtain ⟨rfl, found, same, none⟩ := shows
    cases same
    rintro ⟨contents, record, stored, read, dead⟩
    exact none ⟨contents, _, record, by rw [stored]; rfl, read, dead⟩
  | listed lists =>
    obtain ⟨page, same, ok, covered, absent⟩ := shows
    cases same
    rintro ⟨contents, record, stored, -, -⟩
    exact absent ((lists.records key).mpr ⟨by rw [stored]; rfl, ok, covered⟩)
  | failed req message =>
    cases req with
    | getObject k => exact shows.2.elim fun _ found => by cases found.1
    | listObjects under token => exact shows.elim fun _ found => by cases found.1
    | _ => exact shows.elim
  | lost message takes => cases takes <;> exact shows.elim
  | _ => exact shows.elim

omit [RecordJson β] in
/-- A marker with this ETag was there before, unless the request sends it. -/
theorem takes_marker_back {b b' : Bucket β} (takes : b.Takes req b') {key : RecordKey}
    {tag : Etags.Tag β} (unsent : ¬ SendsMarker key tag req)
    (stands : ∃ revision, b'.markers[key]? = some revision ∧ markerTag β revision = tag) :
    ∃ revision, b.markers[key]? = some revision ∧ markerTag β revision = tag := by
  obtain ⟨revision, stands, same⟩ := stands
  cases takes with
  | putMarker k sent =>
    rw [Std.ExtTreeMap.getElem?_insert] at stands
    split at stands
    next here =>
      cases stands
      exact absurd ⟨Std.LawfulEqCmp.compare_eq_iff_eq.mp here, same⟩ unsent
    · exact ⟨revision, stands, same⟩
  | deleteMarker =>
    rw [Std.ExtTreeMap.getElem?_erase] at stands
    split at stands
    · cases stands
    · exact ⟨revision, stands, same⟩
  | _ => exact ⟨revision, stands, same⟩

omit [DecidableEq σ] in
/-- Only the write of a tombstone makes one. -/
theorem takes_tombstoned (roundTrip : RoundTrip β) (fits : w.Fits req) {b : Bucket β}
    (takes : w.bucket.Takes req b) {key : RecordKey} (dead : b.Tombstoned key) :
    w.bucket.Tombstoned key ∨ PutsTombstone key req := by
  obtain ⟨contents, record, stored, read, tombstone⟩ := dead
  cases takes with
  | @putObject filed contents' pre admits =>
    by_cases here : filed.key = key
    · subst here
      simp only [Std.ExtTreeMap.getElem?_insert_self, Option.some.injEq] at stored
      subst stored
      cases read.symm.trans (roundTrip filed contents' fits.1)
      exact .inr ⟨rfl, tombstone⟩
    · simp only [Std.ExtTreeMap.getElem?_insert, Std.LawfulEqCmp.compare_eq_iff_eq, here,
        if_false] at stored
      exact .inl ⟨contents, record, stored, read, tombstone⟩
  | @deleteObject k tag admits =>
    rw [Std.ExtTreeMap.getElem?_erase] at stored
    split at stored
    · cases stored
    · exact .inl ⟨contents, record, stored, read, tombstone⟩
  | _ => exact .inl ⟨contents, record, stored, read, tombstone⟩

omit [RecordJson β] in
theorem served_flags (caches : ∀ coll ∈ w.marked store, coll ∈ w.bucket.flags)
    (served : Served store w req answer w') {coll : Collection} (flags : Flags coll req answer) :
    coll ∈ w'.bucket.flags := by
  cases served with
  | head c =>
    obtain ⟨same, rfl⟩ := flags
    simpa using same
  | cached c =>
    obtain ⟨same, rfl⟩ := flags
    exact caches c (by simpa using same)
  | flagged takes =>
    obtain ⟨-, rfl⟩ := flags
    cases takes
    exact Finset.mem_insert_self ..
  | failed req message =>
    cases req with
    | headFlag c => cases flags.1
    | cached c => cases flags.1
    | putFlag c => cases flags.1
    | _ => exact flags.elim
  | lost message takes =>
    cases takes with
    | putFlag c => cases flags.1
    | _ => exact flags.elim
  | _ => exact flags.elim

omit [RecordJson β] in
theorem served_marks (served : Served store w req answer w') {key : RecordKey}
    (marks : Marks key req answer) : (w'.bucket.markers[key]?).isSome := by
  cases served with
  | markerPut takes =>
    obtain ⟨-, rfl⟩ := marks
    cases takes
    simp
  | failed req message =>
    cases req with
    | putMarker k revision => cases marks.1
    | _ => exact marks.elim
  | lost message takes =>
    cases takes with
    | putMarker k revision => cases marks.1
    | _ => exact marks.elim
  | _ => exact marks.elim

theorem served_own (keyed : Keyed w.bucket) (served : Served store w req answer w') :
    ReadsOwn req answer := by
  cases served with
  | got key =>
    intro contents tag record same read
    cases object : w.bucket.records[key]? with
    | none =>
      rw [object] at same
      cases same
    | some stored =>
      rw [object] at same
      cases same
      exact keyed key _ record object read
  | failed req message =>
    cases req with
    | getObject key => exact fun _ _ _ same => by cases same
    | _ => trivial
  | lost message takes =>
    cases takes <;> trivial
  | _ => trivial

omit [RecordJson β] in
theorem served_error (served : Served store w req answer w') {e : CoreError}
    (failed : answer = .error e) : ∃ message, e = .backend message := by
  cases served with
  | failed req message =>
    cases failed
    exact ⟨message, rfl⟩
  | lost message takes =>
    cases failed
    exact ⟨message, rfl⟩
  | _ => cases failed

end Buckets

/-! ## Concurrent clients -/

section Clients

variable {β σ Client : Type} [RecordJson β] [Etags β] [DecidableEq σ] [DecidableEq Client]

/-- A request of a client, with its answer. -/
structure Event (β Client : Type) [Etags β] where
  client : Client
  req : S3Req β
  answer : Except CoreError req.Found

/-- The world, and what has been asked of it, the latest first. -/
structure Watched (β σ Client : Type) [Etags β] where
  now : World β σ
  log : List (Event β Client)

abbrev S3Pool (β σ Client : Type) [Etags β] : Type :=
  Pool (s3Interface β) (Watched β σ Client) Client CoreError Answer

omit [RecordJson β] in
/-- The last request of some client has written the marker of `key`: its tombstone may be the
next. -/
def Pending (key : RecordKey) (log : List (Event β Client)) : Prop :=
  ∃ i event, log.find? (fun event => event.client = i) = some event ∧
    Marks key event.req event.answer

omit [RecordJson β] in
/-- Since the client has looked at `key` last, nobody has sent a marker of it with this ETag,
and when it did no tombstone was pending there. -/
def Undisturbed (i : Client) (key : RecordKey) (tag : Etags.Tag β) : List (Event β Client) → Prop
  | [] => True
  | event :: earlier =>
    (event.client = i ∧ Looks key event.req event.answer → ¬ Pending key earlier) ∧
    (¬ (event.client = i ∧ Looks key event.req event.answer) →
      ¬ SendsMarker key tag event.req ∧ Undisturbed i key tag earlier)

omit [RecordJson β] in
/-- When a client may send a request: a marker's deletion, while it has not been disturbed. -/
def Scheduled (log : List (Event β Client)) (i : Client) : S3Req β → Prop
  | .deleteMarker key tag => Undisturbed i key tag log
  | _ => True

/-- Clients of a bucket that make any calls of the `Store` trait. -/
def s3Rules [Blake3] (owner : Client → σ) (cap : Nat)
    (admitted : List (Event β Client) → Client → S3Req β → Prop) :
    Rules (s3Interface β) (Watched β σ Client) Client CoreError Answer where
  serve w i req answer w' :=
    Served (owner i) w.now req answer w'.now ∧ w'.log = ⟨i, req, answer⟩ :: w.log
  starts _ p := ∃ req around, p = call cap around req
  ambient _ _ := False
  admits c i req := admitted c.world.log i req

/-- The world is sound, and each client knows what its view says. -/
structure Tracks (w : Watched β σ Client) (views : Client → MarkerView) : Prop where
  sound : w.now.Sound
  suspects : ∀ i key, w.now.bucket.Unmarked key → (views i).suspects key
  flagged : ∀ i coll, (views i).flagged coll → coll ∈ w.now.bucket.flags
  marked : ∀ i key, (views i).marked = some key → (w.now.bucket.markers[key]?).isSome
  latest : ∀ i key, (views i).marked = some key → ∃ event,
    w.log.find? (fun event => event.client = i) = some event ∧ Marks key event.req event.answer
  spared : ∀ i key tag, Undisturbed i key tag w.log → (views i).free key →
    (∃ revision, w.now.bucket.markers[key]? = some revision ∧ markerTag β revision = tag) →
    ¬ w.now.bucket.Tombstoned key ∧ ∀ j, (views j).marked ≠ some key

/-- What a call knows when it starts. -/
def startView (w : World β σ) : MarkerView :=
  ⟨none, w.bucket.Unmarked, fun _ => False, fun _ => False⟩

omit [DecidableEq σ] in
theorem Tracks.start {w : Watched β σ Client} {views : Client → MarkerView}
    (tracks : Tracks w views) (i : Client) :
    Tracks w (Function.update views i (startView w.now)) := by
  have marked : ∀ j key, (Function.update views i (startView w.now) j).marked = some key →
      (views j).marked = some key := by
    intro j key marked
    by_cases here : j = i
    · subst here
      rw [Function.update_self] at marked
      cases marked
    · rwa [Function.update_of_ne here] at marked
  refine ⟨tracks.sound, fun j key unmarked => ?_, fun j coll flagged => ?_,
    fun j key started => tracks.marked j key (marked j key started),
    fun j key started => tracks.latest j key (marked j key started),
    fun j key tag undisturbed free stands => ?_⟩
  · by_cases here : j = i
    · subst here
      rw [Function.update_self]
      exact unmarked
    · rw [Function.update_of_ne here]
      exact tracks.suspects j key unmarked
  · by_cases here : j = i
    · subst here
      rw [Function.update_self] at flagged
      exact flagged.elim
    · rw [Function.update_of_ne here] at flagged
      exact tracks.flagged j coll flagged
  · by_cases here : j = i
    · subst here
      rw [Function.update_self] at free
      exact free.elim
    · rw [Function.update_of_ne here] at free
      obtain ⟨live, nobody⟩ := tracks.spared j key tag undisturbed free stands
      exact ⟨live, fun l started => nobody l (marked l key started)⟩

section Requests

variable {w : Watched β σ Client} {views : Client → MarkerView} {i : Client} {req : S3Req β}
  {answer : Except CoreError req.Found} {hidden : Option Hidden}

omit [DecidableEq σ] in
/-- A marker that a client may delete is needed by nobody: its look has shown no tombstone,
nobody was about to write one, and a marker sent since has another ETag. -/
theorem Tracks.unneeded {key : RecordKey} {tag : Etags.Tag β} (tracks : Tracks w views)
    (scheduled : Scheduled w.log i (.deleteMarker key tag : S3Req β))
    (guarded : (markerContract hidden).guard (views i) (.deleteMarker key tag : S3Req β))
    {b : Bucket β} (takes : w.now.bucket.Takes (.deleteMarker key tag) b) :
    ¬ w.now.bucket.Tombstoned key ∧ ∀ j, (views j).marked ≠ some key := by
  cases takes with
  | deleteMarker stands same => exact tracks.spared i key tag scheduled guarded ⟨_, stands, same⟩

omit [DecidableEq σ] in
/-- A scheduled request that keeps to the contract fits the world. -/
theorem Tracks.fits (tracks : Tracks w views) (scheduled : Scheduled w.log i req)
    (guarded : (markerContract hidden).guard (views i) req) : w.now.Fits req := by
  cases req with
  | putObject record contents pre =>
    exact ⟨guarded.1, fun dead => tracks.marked i record.key (guarded.2 dead)⟩
  | putFlag coll =>
    intro key inside unmarked
    exact guarded key inside (tracks.suspects i key unmarked)
  | remember coll => exact tracks.flagged i coll guarded
  | deleteMarker key tag =>
    rintro ⟨b, takes⟩
    exact (tracks.unneeded scheduled guarded takes).1
  | _ => trivial

omit [RecordJson β] in
/-- The key whose marker a request has written. -/
def markedBy : (req : S3Req β) → Except CoreError req.Found → Option RecordKey
  | .putMarker key _, .ok _ => some key
  | _, _ => none

omit [RecordJson β] in
theorem markedBy_eq {key : RecordKey} : markedBy req answer = some key ↔ Marks key req answer := by
  cases req with
  | putMarker k revision =>
    cases answer with
    | error e => exact ⟨nofun, fun marks => by cases marks.1⟩
    | ok done => exact ⟨fun same => ⟨rfl, Option.some.inj same⟩, fun marks => congrArg some marks.2⟩
  | _ => exact ⟨nofun, False.elim⟩

/-- What a call knows after a request. -/
def nextView (v : MarkerView) (req : S3Req β) (answer : Except CoreError req.Found) :
    MarkerView where
  marked := markedBy req answer
  suspects key := v.suspects key ∧ ¬ Clears key req answer
  flagged coll := v.flagged coll ∨ Flags coll req answer
  free key := ShowsFree key req answer ∨ ¬ Looks key req answer ∧ v.free key

omit [RecordJson β] in
/-- A marker stays, unless a request deletes it that finds it standing. -/
theorem served_markers {store : σ} {now now' : World β σ} (served : Served store now req answer now')
    {key : RecordKey} (spared : ∀ tag b, req = .deleteMarker key tag → ¬ now.bucket.Takes req b)
    (marked : (now.bucket.markers[key]?).isSome) : (now'.bucket.markers[key]?).isSome := by
  rcases served_bucket served with same | takes
  · exact same ▸ marked
  · exact takes_markers takes (fun tag delete => spared tag _ delete takes) marked

/-- After a request the marker of `key` with this ETag is unneeded for whoever has looked and
not been disturbed. -/
theorem Tracks.spared_served (roundTrip : RoundTrip β) {owner : Client → σ}
    (tracks : Tracks w views) (fits : w.now.Fits req)
    (guarded : (markerContract hidden).guard (views i) req) {now' : World β σ}
    (served : Served (owner i) w.now req answer now') {j : Client} {key : RecordKey}
    {tag : Etags.Tag β} (undisturbed : Undisturbed j key tag (⟨i, req, answer⟩ :: w.log))
    (free : (Function.update views i (nextView (views i) req answer) j).free key)
    (stands : ∃ revision, now'.bucket.markers[key]? = some revision ∧
      markerTag β revision = tag) :
    ¬ now'.bucket.Tombstoned key ∧
      ∀ l, (Function.update views i (nextView (views i) req answer) l).marked ≠ some key := by
  by_cases looks : i = j ∧ Looks key req answer
  · -- the look itself: nothing was pending, and it has shown no tombstone
    obtain ⟨rfl, looks⟩ := looks
    rw [Function.update_self] at free
    have shows : ShowsFree key req answer := free.elim id fun other => absurd looks other.1
    refine ⟨served_free served shows, fun l marked => ?_⟩
    by_cases here : l = i
    · subst here
      rw [Function.update_self] at marked
      have marks := markedBy_eq.mp marked
      cases req with
      | putMarker k revision => exact looks
      | _ => exact marks
    · rw [Function.update_of_ne here] at marked
      exact undisturbed.1 ⟨rfl, looks⟩ ⟨l, tracks.latest l key marked⟩
  · obtain ⟨unsent, before⟩ := undisturbed.2 looks
    have free' : (views j).free key := by
      by_cases here : j = i
      · subst here
        rw [Function.update_self] at free
        exact free.elim (fun shows => absurd ⟨rfl, shows.looks⟩ looks) And.right
      · rwa [Function.update_of_ne here] at free
    have stood : ∃ revision, w.now.bucket.markers[key]? = some revision ∧
        markerTag β revision = tag := by
      rcases served_bucket served with same | takes
      · exact same ▸ stands
      · exact takes_marker_back takes unsent stands
    obtain ⟨live, nobody⟩ := tracks.spared j key tag before free' stood
    refine ⟨fun dead => ?_, fun l marked => ?_⟩
    · rcases served_bucket served with same | takes
      · exact live (same ▸ dead)
      · rcases takes_tombstoned roundTrip fits takes dead with old | puts
        · exact live old
        · cases req with
          | putObject record contents pre => exact nobody i (puts.1 ▸ guarded.2 puts.2)
          | _ => exact puts
    · by_cases here : l = i
      · subst here
        rw [Function.update_self] at marked
        have marks := markedBy_eq.mp marked
        cases served with
        | markerPut takes =>
          obtain ⟨-, rfl⟩ := marks
          cases takes
          obtain ⟨revision, stands, same⟩ := stands
          rw [Std.ExtTreeMap.getElem?_insert_self] at stands
          cases stands
          exact unsent ⟨rfl, same⟩
        | failed req message =>
          cases req with
          | putMarker k revision => cases marks.1
          | _ => exact marks
        | lost message takes =>
          cases takes with
          | putMarker k revision => cases marks.1
          | _ => exact marks
        | _ => exact marks
      · rw [Function.update_of_ne here] at marked
        exact nobody l marked

/-- One request: the client learns what its contract says, and the world stays as the views
say. -/
theorem Tracks.serve (roundTrip : RoundTrip β) {owner : Client → σ} (tracks : Tracks w views)
    (scheduled : Scheduled w.log i req) (guarded : (markerContract hidden).guard (views i) req)
    {now' : World β σ} (served : Served (owner i) w.now req answer now')
    (shows : ∀ h, hidden = some h → h.Shows req answer) :
    (markerContract hidden).turn (views i) req answer (nextView (views i) req answer) ∧
      Tracks ⟨now', ⟨i, req, answer⟩ :: w.log⟩
        (Function.update views i (nextView (views i) req answer)) := by
  have fits := tracks.fits scheduled guarded
  have fewer : ∀ key, now'.bucket.Unmarked key → w.now.bucket.Unmarked key :=
    fun key => served_unmarked roundTrip fits served
  have more : ∀ coll ∈ w.now.bucket.flags, coll ∈ now'.bucket.flags := by
    intro coll flag
    rcases served_bucket served with same | takes
    · exact same ▸ flag
    · exact takes_flags takes flag
  refine ⟨⟨fun key => markedBy_eq, fun key => .rfl, fun coll => .rfl, fun key => .rfl,
      served_own tracks.sound.keyed served, shows, fun e => served_error served⟩,
    tracks.sound.served roundTrip fits served, fun j key unmarked => ?_, fun j coll flagged => ?_,
    fun j key marked => ?_, fun j key marked => ?_,
    fun j key tag => tracks.spared_served roundTrip fits guarded served⟩
  · by_cases here : j = i
    · subst here
      rw [Function.update_self]
      exact ⟨tracks.suspects j key (fewer key unmarked),
        fun clears => served_clears served clears unmarked⟩
    · rw [Function.update_of_ne here]
      exact tracks.suspects j key (fewer key unmarked)
  · by_cases here : j = i
    · subst here
      rw [Function.update_self] at flagged
      exact flagged.elim (fun old => more coll (tracks.flagged j coll old))
        (served_flags (tracks.sound.caches _) served)
    · rw [Function.update_of_ne here] at flagged
      exact more coll (tracks.flagged j coll flagged)
  · by_cases here : j = i
    · subst here
      rw [Function.update_self] at marked
      exact served_marks served (markedBy_eq.mp marked)
    · rw [Function.update_of_ne here] at marked
      refine served_markers served (fun tag b delete takes => ?_) (tracks.marked j key marked)
      subst delete
      exact (tracks.unneeded scheduled guarded takes).2 j marked
  · by_cases here : j = i
    · subst here
      rw [Function.update_self] at marked
      exact ⟨⟨j, req, answer⟩, by simp, markedBy_eq.mp marked⟩
    · rw [Function.update_of_ne here] at marked
      obtain ⟨event, found, marks⟩ := tracks.latest j key marked
      exact ⟨event, by simpa [List.find?_cons, Ne.symm here] using found, marks⟩

end Requests

/-- The tombstone stays, and without a marker to begin with its collection is not flagged. -/
def Hidden.Stays (hidden : Hidden) (b : Bucket β) : Prop :=
  b.Tombstoned hidden.key ∧ (¬ hidden.marked → collectionOf hidden.key ∉ b.flags)

/-- The clients while one of them lists and a tombstone stays where it is. -/
def s3RulesDuring [Blake3] (owner : Client → σ) (cap : Nat) (lister : Client) (hidden : Hidden) :
    Rules (s3Interface β) (Watched β σ Client) Client CoreError Answer where
  serve w i req answer w' := Served (owner i) w.now req answer w'.now ∧
    w'.log = ⟨i, req, answer⟩ :: w.log ∧ hidden.Stays w'.now.bucket
  starts i p := i ≠ lister ∧ ∃ req around, p = call cap around req
  ambient _ _ := False
  admits c i req := Scheduled c.world.log i req

/-- Every answer given while the tombstone stays shows it. -/
theorem shows_hidden {store : σ} {w w' : World β σ} {req : S3Req β}
    {answer : Except CoreError req.Found} {hidden : Hidden} (stays : hidden.Stays w.bucket)
    (marked : hidden.marked → (w.bucket.markers[hidden.key]?).isSome)
    (caches : ∀ coll ∈ w.marked store, coll ∈ w.bucket.flags)
    (served : Served store w req answer w') : hidden.Shows req answer := by
  cases served with
  | got key =>
    rintro found same rfl
    obtain ⟨⟨contents, record, stored, read, dead⟩, -⟩ := stays
    rw [stored] at same
    cases same
    exact ⟨contents, _, record, rfl, read, dead⟩
  | listed lists =>
    rintro page same at_first ok covered
    cases same
    obtain ⟨revision, stands⟩ := Option.isSome_iff_exists.mp (marked at_first)
    exact ⟨_, (lists.markers _ _).mpr ⟨revision, stands, rfl, ok, covered⟩⟩
  | head coll =>
    rintro unmarked rfl same
    exact stays.2 unmarked (by simpa using same)
  | cached coll =>
    rintro unmarked rfl same
    exact stays.2 unmarked (caches _ (by simpa using same))
  | failed req message =>
    cases req with
    | getObject key => exact fun _ same => by cases same
    | listObjects under token => exact fun _ same => by cases same
    | headFlag coll => exact fun _ _ => nofun
    | cached coll => exact fun _ _ => nofun
    | _ => trivial
  | lost message takes => cases takes <;> trivial
  | _ => trivial

variable [Blake3]

/-- The views go on describing the world through every run whose deletions are scheduled. -/
theorem tracks_run (roundTrip : RoundTrip β) {owner : Client → σ} {cap : Nat}
    {c₀ c : S3Pool β σ Client} (sound : c₀.world.now.Sound) (nobody : ∀ i, c₀.clients i = none)
    (run : Pool.Reaches (s3Rules owner cap Scheduled) c₀ c) :
    ∃ views, Tracks c.world views ∧
      Pool.Covered (markerContract none) (fun _ _ _ => True) c views := by
  have logic : Pool.Logic (s3Rules (β := β) owner cap Scheduled) (markerContract none)
      (fun _ _ _ => True) fun c views => Tracks c.world views := by
    refine ⟨?_, ?_, ?_⟩
    · rintro c views i p tracks ⟨req, around, rfl⟩
      exact ⟨_, (wp_call cap around req _).mono fun _ _ _ => trivial, tracks.start i⟩
    · rintro c views i req next answer ⟨now', log'⟩ tracks at_req scheduled guarded ⟨served, rfl⟩
      obtain ⟨turned, tracks'⟩ := tracks.serve roundTrip scheduled guarded served nofun
      exact ⟨_, turned, fun _ => tracks'⟩
    · rintro c views w' tracks ⟨⟩
  have start : Tracks c₀.world fun _ => startView c₀.world.now := by
    refine ⟨sound, fun i key unmarked => unmarked, fun i coll flagged => flagged.elim, ?_, ?_,
      fun i key tag undisturbed free => free.elim⟩
    · intro i key marked
      cases marked
    · intro i key marked
      cases marked
  refine Pool.wp_invariant logic run ⟨_, start, fun i p at_i => ?_⟩
  rw [nobody i] at at_i
  cases at_i

/-- A list that runs while a tombstone stays does not answer its key. -/
theorem unlisted_run (roundTrip : RoundTrip β) {owner : Client → σ} {cap : Nat}
    {c c' : S3Pool β σ Client} {views : Client → MarkerView} (tracks : Tracks c.world views)
    (covered : Pool.Covered (markerContract none) (fun _ _ _ => True) c views) {lister : Client}
    {around : Circumstances} {keys : KeyPrefix} {hidden : Hidden}
    (stays : hidden.Stays c.world.now.bucket)
    (marked : hidden.marked → (c.world.now.bucket.markers[hidden.key]?).isSome)
    (run : Pool.Reaches (s3RulesDuring owner cap lister hidden)
      (c.setClient lister (call cap around (.list keys))) c') {listed : List RecordKey}
    (ended : c'.clients lister = some (.done (.listed listed))) : hidden.key ∉ listed := by
  have logic : Pool.Logic (s3RulesDuring (β := β) owner cap lister hidden)
      (markerContract (some hidden))
      (fun i _ result => i = lister → Unlisted (some hidden) result)
      (fun c views => Tracks c.world views ∧ hidden.Stays c.world.now.bucket ∧
        (hidden.marked → (c.world.now.bucket.markers[hidden.key]?).isSome)) := by
    refine ⟨?_, ?_, ?_⟩
    · rintro c views i p ⟨tracks, stays, marked⟩ ⟨other, req, around, rfl⟩
      exact ⟨_, (wp_call cap around req _).mono fun _ _ _ same => absurd same other,
        tracks.start i, stays, marked⟩
    · rintro c views i req next answer ⟨now', log'⟩ ⟨tracks, stays, marked⟩ at_req scheduled
        guarded ⟨served, rfl, stays'⟩
      have shows : ∀ h, some hidden = some h → h.Shows req answer := by
        rintro h ⟨⟩
        exact shows_hidden stays marked (tracks.sound.caches _) served
      obtain ⟨turned, tracks'⟩ := tracks.serve roundTrip scheduled guarded served shows
      refine ⟨_, turned, fun _ => ⟨tracks', stays', fun at_first => ?_⟩⟩
      refine served_markers served (fun tag b delete takes => ?_) (marked at_first)
      subst delete
      exact (tracks.unneeded scheduled guarded takes).1 stays.1
    · rintro c views w' tracks ⟨⟩
  have turns : ∀ view req answer view',
      (markerContract (β := β) (some hidden)).turn view req answer view' →
        (markerContract none).turn view req answer view' :=
    fun _ _ _ _ ⟨marks, suspects, flagged, free, own, _, errors⟩ =>
      ⟨marks, suspects, flagged, free, own, nofun, errors⟩
  have start : Pool.Covered (markerContract (some hidden))
      (fun i _ result => i = lister → Unlisted (some hidden) result)
      (c.setClient lister (call cap around (.list keys)))
      (Function.update views lister (startView c.world.now)) := by
    intro j p at_j
    by_cases here : j = lister
    · subst here
      rw [Pool.setClient_self] at at_j
      cases at_j
      rw [Function.update_self]
      exact (wp_call cap around (.list keys) _).mono fun _ _ holds _ => holds ⟨keys, rfl⟩
    · rw [Pool.setClient_ne c _ here] at at_j
      rw [Function.update_of_ne here]
      have before : Wp (markerContract none)
          (fun _ result => j = lister → Unlisted (some hidden) result) (views j) p :=
        (covered j p at_j).mono fun _ _ _ same => absurd same here
      refine before.of_turns ?_ turns
      exact fun view req guarded => guarded
  obtain ⟨views', -, covered'⟩ := Pool.wp_invariant logic run
    ⟨_, ⟨tracks.start lister, stays, marked⟩, start⟩
  exact covered' lister _ ended rfl hidden listed rfl rfl

/-- In every run in which each list that deletes a marker is undisturbed between its look and
the deletion, each tombstone of a flagged collection has a marker, and a list answers no key
that holds a tombstone while it runs: a marked one, or one whose collection is not flagged
meanwhile. -/
theorem markers_hold (roundTrip : RoundTrip β) {owner : Client → σ} {cap : Nat}
    {c₀ c : S3Pool β σ Client} (sound : c₀.world.now.Sound) (nobody : ∀ i, c₀.clients i = none)
    (run : Pool.Reaches (s3Rules owner cap Scheduled) c₀ c) :
    (∀ key, collectionOf key ∈ c.world.now.bucket.flags → c.world.now.bucket.Tombstoned key →
      (c.world.now.bucket.markers[key]?).isSome) ∧
    ∀ (key : RecordKey) (lister : Client) (around : Circumstances) (keys : KeyPrefix)
      (c' : S3Pool β σ Client) (listed : List RecordKey), c.world.now.bucket.Tombstoned key →
      Pool.Reaches
        (s3RulesDuring owner cap lister ⟨key, (c.world.now.bucket.markers[key]?).isSome⟩)
        (c.setClient lister (call cap around (.list keys))) c' →
      c'.clients lister = some (.done (.listed listed)) → key ∉ listed := by
  obtain ⟨views, tracks, covered⟩ := tracks_run roundTrip sound nobody run
  have marked : ∀ key, collectionOf key ∈ c.world.now.bucket.flags →
      c.world.now.bucket.Tombstoned key → (c.world.now.bucket.markers[key]?).isSome := by
    intro key flag tombstone
    by_contra bare
    exact tracks.sound.flags key flag ⟨tombstone, by simpa using bare⟩
  refine ⟨marked, fun key lister around keys c' listed tombstone during ended => ?_⟩
  refine unlisted_run roundTrip tracks covered ⟨tombstone, fun unmarked flag => ?_⟩ id during ended
  exact unmarked (marked key flag tombstone)

end Clients

/-! ## A marker that a list removes too late -/

section Late

attribute [local instance] sampleBlake3 recordFiles sampleEtags

/-- A bucket whose one collection is flagged, and known to be. -/
def flaggedWorld (records : Std.ExtTreeMap RecordKey Record compare)
    (markers : Std.ExtTreeMap RecordKey Revision compare) : World Record Unit :=
  ⟨⟨records, markers, {collectionOf rustKey}⟩, fun _ => {collectionOf rustKey}⟩

/-- Two clients of it. -/
def twoClients (w : Watched Record Unit Bool) (p q : Option (S3Program Record Answer)) :
    S3Pool Record Unit Bool :=
  ⟨w, fun i => bif i then q else p⟩

def liveRecords : Std.ExtTreeMap RecordKey Record compare :=
  (∅ : Std.ExtTreeMap RecordKey Record compare).insert rustKey (topicAt rustKey 0 "v0")

def deleteCall : StoreReq := .deleteAs rustKey none none

/-- The tombstone that it writes. -/
def rustTombstone : Record := tombstoneOf (topicAt rustKey 0 "v0") 0 32 none

def deadRecords : Std.ExtTreeMap RecordKey Record compare :=
  liveRecords.insert rustKey rustTombstone

def rustMarker : Std.ExtTreeMap RecordKey Revision compare :=
  (∅ : Std.ExtTreeMap RecordKey Revision compare).insert rustKey rustTombstone.revision

/-- What they may do. -/
abbrev twoRules (admitted : List (Event Record Bool) → Bool → S3Req Record → Prop) :
    Rules (s3Interface Record) (Watched Record Unit Bool) Bool CoreError Answer :=
  s3Rules (fun _ => ()) 32 admitted

abbrev freely : Rules (s3Interface Record) (Watched Record Unit Bool) Bool CoreError Answer :=
  twoRules fun _ _ _ => True

theorem twoClients_set {w w' : Watched Record Unit Bool} {p q : Option (S3Program Record Answer)}
    (i : Bool) (r : S3Program Record Answer) :
    ({ twoClients w p q with world := w' } : S3Pool Record Unit Bool).setClient i r =
      twoClients w' (bif i then p else some r) (bif i then some r else q) := by
  refine congrArg (Pool.mk w') (funext fun j => ?_)
  cases i <;> cases j <;> rfl

theorem twoClients_start {admitted : List (Event Record Bool) → Bool → S3Req Record → Prop}
    {w : Watched Record Unit Bool} {p q : Option (S3Program Record Answer)} (i : Bool)
    (req : StoreReq) :
    Pool.Step (twoRules admitted) (twoClients w p q)
      (twoClients w (bif i then p else some (call 32 plainly req))
        (bif i then some (call 32 plainly req) else q)) := by
  rw [← @twoClients_set w]
  exact .start i _ ⟨req, plainly, rfl⟩

theorem twoClients_serve {admitted : List (Event Record Bool) → Bool → S3Req Record → Prop}
    {w w' : World Record Unit} {log : List (Event Record Bool)}
    {p q : Option (S3Program Record Answer)} (i : Bool)
    {req : S3Req Record} {next : Except CoreError req.Found → S3Program Record Answer}
    {answer : Except CoreError req.Found} (at_req : (bif i then q else p) = some (.ask req next))
    (allowed : admitted log i req) (served : Served () w req answer w') :
    Pool.Step (twoRules admitted) (twoClients ⟨w, log⟩ p q)
      (twoClients ⟨w', ⟨i, req, answer⟩ :: log⟩ (bif i then p else some (next answer))
        (bif i then some (next answer) else q)) := by
  have here : (twoClients ⟨w, log⟩ p q).clients i = some (.ask req next) := by
    cases i <;> exact at_req
  rw [← @twoClients_set ⟨w, log⟩]
  exact @Pool.Step.serve _ _ _ _ _ _ (twoRules admitted) _ i req next answer
    ⟨w', ⟨i, req, answer⟩ :: log⟩ here allowed ⟨served, rfl⟩

/-- A page with the record, and with its marker if it has one. -/
def rustPage (marked : Bool) : Page (Etags.Tag Record) :=
  ⟨[rustKey], if marked then [(rustKey, .inr rustTombstone.revision)] else [], none⟩

/-- What a list knows after such a page. -/
def rustListing (marked : Bool) : Listing (Etags.Tag Record) :=
  ({} : Listing (Etags.Tag Record)).add .all (rustPage marked)

theorem rustListing_collections (marked : Bool) :
    (rustListing marked).collections = [collectionOf rustKey] := by
  have keys : (rustListing marked).markers.keys = if marked then [rustKey] else [] := by
    cases marked <;> rfl
  have records : (rustListing marked).records = [rustKey] := by
    cases marked <;> rfl
  unfold Listing.collections
  rw [keys, records]
  cases marked <;> simp

/-- What a list goes on with after such a page. -/
def afterRustPage (marked : Bool) : S3Program Record Answer :=
  ([collectionOf rustKey].foldlM (listCollection id (rustListing marked)) [] >>= fun out =>
    pure (out.mergeSort fun a b => decide (a ≤ b))) >>= fun listed => pure (.listed listed)

theorem list_rustPage (marked : Bool) :
    (((rustListing marked).collections.foldlM (listCollection id (rustListing marked)) [] >>=
      fun out => pure (out.mergeSort fun a b => decide (a ≤ b))) >>=
        fun listed => pure (.listed listed) : S3Program Record Answer) = afterRustPage marked := by
  rw [rustListing_collections]
  rfl

theorem lists_rust {records : Std.ExtTreeMap RecordKey Record compare}
    {markers : Std.ExtTreeMap RecordKey Revision compare} {marked : Bool}
    (only : ∀ key, key ∈ records ↔ key = rustKey)
    (mark : ∀ key revision, markers[key]? = some revision ↔
      marked = true ∧ key = rustKey ∧ revision = rustTombstone.revision) :
    (flaggedWorld records markers).bucket.Lists .all none (rustPage marked) := by
  have covered : ∀ name, Bucket.Covered none none name := fun name => ⟨nofun, nofun⟩
  have matched : ∀ key, KeyPrefix.all.matches key = true := fun key => rfl
  refine ⟨fun key => ?_, List.nodup_singleton _, fun key tag => ?_⟩
  · simp [rustPage, flaggedWorld, only, covered, matched]
  · simp only [rustPage, flaggedWorld, mark, covered, matched, and_true]
    cases marked with
    | false => simp
    | true =>
      simp only [if_true, List.mem_singleton, Prod.mk.injEq, true_and]
      constructor
      · rintro ⟨rfl, rfl⟩
        exact ⟨_, ⟨rfl, rfl⟩, rfl⟩
      · rintro ⟨revision, ⟨rfl, rfl⟩, rfl⟩
        exact ⟨rfl, rfl⟩

theorem mem_liveRecords (key : RecordKey) : key ∈ liveRecords ↔ key = rustKey := by
  simp [liveRecords, Std.LawfulEqCmp.compare_eq_iff_eq, @eq_comm _ rustKey]

theorem liveRecords_some {key : RecordKey} {contents : Record}
    (stored : liveRecords[key]? = some contents) :
    key = rustKey ∧ contents = topicAt rustKey 0 "v0" := by
  obtain rfl := (mem_liveRecords key).mp
    (Std.ExtTreeMap.mem_iff_isSome_getElem?.mpr (by rw [stored]; rfl))
  rw [liveRecords, Std.ExtTreeMap.getElem?_insert_self] at stored
  cases stored
  exact ⟨rfl, rfl⟩

theorem mem_deadRecords (key : RecordKey) : key ∈ deadRecords ↔ key = rustKey := by
  simp [deadRecords, mem_liveRecords, Std.LawfulEqCmp.compare_eq_iff_eq, @eq_comm _ rustKey]

theorem rustMarker_some (key : RecordKey) (revision : Revision) :
    rustMarker[key]? = some revision ↔
      true = true ∧ key = rustKey ∧ revision = rustTombstone.revision := by
  by_cases here : key = rustKey
  · subst here
    simp [rustMarker, eq_comm]
  · simp [rustMarker, here, Ne.symm here]

theorem rustMarker_erased (key : RecordKey) (revision : Revision) :
    (rustMarker.erase rustKey)[key]? = some revision ↔
      false = true ∧ key = rustKey ∧ revision = rustTombstone.revision := by
  by_cases here : key = rustKey
  · subst here
    simp
  · simp [rustMarker, Ne.symm here]

/-- A delete and a list. The list finds the marker and the live record, then the tombstone
is written, and then the list removes the marker. -/
theorem marker_removed : ∃ log,
    Pool.Reaches freely (twoClients ⟨flaggedWorld liveRecords ∅, []⟩ none none)
      (twoClients ⟨flaggedWorld deadRecords (rustMarker.erase rustKey), log⟩
        (some (.done (.deleted .deleted)))
        (some (.done (.listed ([rustKey].mergeSort fun a b => decide (a ≤ b)))))) := by
  apply Exists.intro
  refine .head (twoClients_start false deleteCall)
    (.head (twoClients_serve false rfl trivial (.got rustKey))
    (.head (twoClients_serve false rfl trivial (.markerPut (.putMarker rustKey rustTombstone.revision)))
    (.head (twoClients_start true (.list .all))
    (.head (twoClients_serve true rfl trivial
      (.listed (@lists_rust liveRecords rustMarker true mem_liveRecords rustMarker_some)))
    (.head (twoClients_serve true (congrArg some (list_rustPage true)) trivial (.cached _))
    (.head (twoClients_serve true rfl trivial (.got rustKey))
    (.head (twoClients_serve false rfl trivial (.put (.putObject ⟨_, rfl, rfl⟩)))
    (.head (twoClients_serve true rfl trivial (.markerDeleted (@Bucket.Takes.deleteMarker _ _ _ _ _
      rustTombstone.revision rfl rfl))) ?_))))))))
  exact .refl

/-- The next list. -/
theorem rust_listed {p : Option (S3Program Record Answer)} (log : List (Event Record Bool)) :
    ∃ log', Pool.Reaches freely
      (twoClients ⟨flaggedWorld deadRecords (rustMarker.erase rustKey), log⟩ p
        (some (call 32 plainly (.list .all))))
      (twoClients ⟨flaggedWorld deadRecords (rustMarker.erase rustKey), log'⟩ p
        (some (.done (.listed ([rustKey].mergeSort fun a b => decide (a ≤ b)))))) := by
  apply Exists.intro
  refine .head (twoClients_serve true rfl trivial
      (.listed (@lists_rust deadRecords _ false mem_deadRecords rustMarker_erased)))
    (.head (twoClients_serve true (congrArg some (list_rustPage false)) trivial (.cached _)) ?_)
  exact .refl

/-- A tombstone of a flagged collection ends without a marker, its delete done, and the
next list answers its key. -/
theorem late_clean_up :
    ∃ c c' : S3Pool Record Unit Bool,
      Pool.Reaches freely (twoClients ⟨flaggedWorld liveRecords ∅, []⟩ none none) c ∧
      c.clients false = some (.done (.deleted .deleted)) ∧
      c.world.now.bucket.Tombstoned rustKey ∧ collectionOf rustKey ∈ c.world.now.bucket.flags ∧
      c.world.now.bucket.markers[rustKey]? = none ∧
      Pool.Reaches freely (c.setClient true (call 32 plainly (.list .all))) c' ∧
      c'.clients true = some (.done (.listed [rustKey])) ∧
      c'.world.now.bucket.Tombstoned rustKey := by
  have dead : (flaggedWorld deadRecords (rustMarker.erase rustKey)).bucket.Tombstoned rustKey :=
    ⟨_, rustTombstone, Std.ExtTreeMap.getElem?_insert_self, rfl, rfl⟩
  have sorted : [rustKey].mergeSort (fun a b => decide (a ≤ b)) = [rustKey] := by simp
  obtain ⟨log, first⟩ := marker_removed
  obtain ⟨log', second⟩ := @rust_listed (some (.done (.deleted .deleted))) log
  rw [sorted] at first second
  refine ⟨_, twoClients ⟨flaggedWorld deadRecords (rustMarker.erase rustKey), log'⟩
    (some (.done (.deleted .deleted))) (some (.done (.listed [rustKey]))), first, rfl, dead,
    Finset.mem_singleton_self _, Std.ExtTreeMap.getElem?_erase_self, ?_, rfl, dead⟩
  have restarted := @twoClients_set ⟨flaggedWorld deadRecords (rustMarker.erase rustKey), log⟩
    ⟨flaggedWorld deadRecords (rustMarker.erase rustKey), log⟩ (some (.done (.deleted .deleted)))
    (some (.done (.listed [rustKey]))) true (call 32 plainly (.list .all))
  exact restarted ▸ second

/-- A list that finds a marker left over beside the live record looks at the record while a
delete has read it too, and removes the marker. Then the delete writes its own and the
tombstone. -/
theorem marker_replaced : ∃ log,
    Pool.Reaches (twoRules Scheduled) (twoClients ⟨flaggedWorld liveRecords rustMarker, []⟩ none none)
      (twoClients ⟨flaggedWorld deadRecords ((rustMarker.erase rustKey).insert rustKey
          rustTombstone.revision), log⟩
        (some (.done (.deleted .deleted)))
        (some (.done (.listed ([rustKey].mergeSort fun a b => decide (a ≤ b)))))) := by
  apply Exists.intro
  refine .head (twoClients_start true (.list .all))
    (.head (twoClients_serve true rfl trivial
      (.listed (@lists_rust liveRecords rustMarker true mem_liveRecords rustMarker_some)))
    (.head (twoClients_serve true (congrArg some (list_rustPage true)) trivial (.cached _))
    (.head (twoClients_start false deleteCall)
    (.head (twoClients_serve false rfl trivial (.got rustKey))
    (.head (twoClients_serve true rfl trivial (.got rustKey))
    (.head (twoClients_serve true rfl ?_ (.markerDeleted (@Bucket.Takes.deleteMarker _ _ _ _ _
      rustTombstone.revision rfl rfl)))
    (.head (twoClients_serve false rfl trivial
      (.markerPut (.putMarker rustKey rustTombstone.revision)))
    (.head (twoClients_serve false rfl trivial (.put (.putObject ⟨_, rfl, rfl⟩))) ?_))))))))
  · refine ⟨?_, fun elsewhere => absurd ⟨rfl, rfl, _, rfl⟩ elsewhere⟩
    rintro - ⟨i, event, found, marks⟩
    cases i <;> cases found <;> exact marks
  · exact .refl

/-- After it the tombstone has a marker, and no list answers it. -/
theorem marker_kept : ∃ log,
    let c := twoClients ⟨flaggedWorld deadRecords ((rustMarker.erase rustKey).insert rustKey
      rustTombstone.revision), log⟩ (some (.done (.deleted .deleted)))
      (some (.done (.listed ([rustKey].mergeSort fun a b => decide (a ≤ b)))))
    Pool.Reaches (twoRules Scheduled)
      (twoClients ⟨flaggedWorld liveRecords rustMarker, []⟩ none none) c ∧
    (c.world.now.bucket.markers[rustKey]?).isSome ∧
    ∀ (around : Circumstances) (keys : KeyPrefix) (c' : S3Pool Record Unit Bool)
      (listed : List RecordKey),
      Pool.Reaches (s3RulesDuring (fun _ => ()) 32 true
          ⟨rustKey, (c.world.now.bucket.markers[rustKey]?).isSome⟩)
        (c.setClient true (call 32 around (.list keys))) c' →
      c'.clients true = some (.done (.listed listed)) → rustKey ∉ listed := by
  obtain ⟨log, run⟩ := marker_replaced
  refine ⟨log, run, ?_⟩
  have roundTrip : RoundTrip Record := fun record file written => by
    cases written
    rfl
  have sound : (flaggedWorld liveRecords rustMarker).Sound := by
    refine ⟨fun key contents record stored read => ?_, fun key _ unmarked => ?_, fun _ _ => id⟩
    · obtain ⟨rfl, rfl⟩ := liveRecords_some stored
      cases read
      rfl
    · obtain ⟨⟨contents, record, stored, read, tombstone⟩, -⟩ := unmarked
      obtain ⟨rfl, rfl⟩ := liveRecords_some stored
      cases read
      cases tombstone
  obtain ⟨marked, unlisted⟩ := markers_hold roundTrip sound (fun i => by cases i <;> rfl) run
  have dead : (flaggedWorld deadRecords ((rustMarker.erase rustKey).insert rustKey
      rustTombstone.revision)).bucket.Tombstoned rustKey :=
    ⟨_, rustTombstone, Std.ExtTreeMap.getElem?_insert_self, rfl, rfl⟩
  exact ⟨marked rustKey (Finset.mem_singleton_self _) dead,
    fun around keys c' listed => unlisted rustKey true around keys c' listed dead⟩

end Late

end Gonzalo.S3
