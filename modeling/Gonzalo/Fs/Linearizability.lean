import Gonzalo.Core.DeletionFields
import Gonzalo.Fs.Instants
import Gonzalo.Fs.Mirror
import Gonzalo.Fs.Runs

/-!
# Concurrent calls of the file-system store

Any number of processes serve calls on one tree, request by request. A request may fail and a
process may stop anywhere; the lock of a record is with one call at a time, and no two calls
under way have the same nonce. Then every run comes with a run of a store and its blobs that
answers each call at one instant between its start and its end.
-/

set_option autoImplicit false

namespace Gonzalo.Fs
open Gonzalo.Core Gonzalo.Lib

/-- A backend answers a call at some time. -/
def AtOnce [Blake3] (w : Backend) (call : BackendReq) (answer : call.Ans) (w' : Backend) : Prop :=
  ∃ nowMs, answer = (w.reply nowMs call).2 ∧ w' = (w.reply nowMs call).1

variable [Blake3] [RecordJson Bytes]

/-! ### One call among others -/

/-- The key that a call decides about. -/
def FsView.key (cap : Nat) (v : FsView) : Option RecordKey :=
  (decides cap v.around.nowMs v.call).map Prod.fst

/-- What a call knows is so. -/
structure Fits (known : Set Bytes) (cap : Nat) (t : FileTree Bytes) (v : FsView) : Prop where
  separate : Separate v.call
  listed : ∀ content, v.call = .putBlob content → content ∈ known
  read : ∀ current, v.read = some current → ∃ key, v.key cap = some key ∧
    v.lock = some (lockPath (recordPath key)) ∧ recordAt t (recordPath key) = current
  temp : ∀ path bytes, v.temp = some (path, bytes) → v.Owns path ∧ t path = some (.file bytes)

section Step

variable {known : Set Bytes} {cap : Nat} {t t' : FileTree Bytes} {w : Backend} {v : FsView}

omit [RecordJson Bytes] in
theorem separate_key {nowMs : Int} {call : BackendReq} {key : RecordKey}
    {decide : Option Record → Decision call.Ans} (separate : Separate call)
    (about : decides cap nowMs call = some (key, decide)) : Apart key := by
  cases call with
  | store req =>
    cases req with
    | list | listRaw => cases about
    | _ =>
      cases about
      exact separate
  | _ => cases about

omit [RecordJson Bytes] [Blake3] in
theorem status_idle (idle : v.done = none) : v.status = .running v.call := by
  unfold FsView.status
  rw [idle]

omit [RecordJson Bytes] [Blake3] in
/-- A lock and a temporary file answer nothing. -/
theorem status_kept (v : FsView) (lock : Option Path) (temp : Option (Path × Bytes)) :
    FsView.status { v with lock := lock, temp := temp } = v.status := by
  unfold FsView.status
  cases v.done <;> rfl

omit [RecordJson Bytes] in
/-- A call that stays where it was. -/
theorem instant_wait {status : CallStatus backendInterface} : Instant AtOnce w w status status :=
  .inl ⟨rfl, rfl⟩

omit [Blake3] in
theorem recordIn_fileAt {path : Path} {current : Option Record}
    (read : recordIn (fileAt t path) = some current) : recordAt t path = current := by
  unfold fileAt at read
  unfold recordAt
  cases there : t path with
  | none =>
    rw [there] at read
    exact Option.some.inj read
  | some node =>
    rw [there] at read
    cases node with
    | dir => exact Option.some.inj read
    | file bytes =>
      obtain ⟨record, decoded, rfl⟩ := Option.map_eq_some_iff.mp read
      exact decoded

/-- A read. -/
theorem Fits.seen (fits : Fits known cap t v) (mirrors : Mirrors known t w)
    (capped : w.store.cap = cap) (idle : v.done = none) (path : Path) :
    Instant AtOnce w w v.status (v.seen cap path (fileAt t path)).status ∧
      Fits known cap t (v.seen cap path (fileAt t path)) := by
  unfold FsView.seen
  split
  next current decision found =>
    unfold shown at found
    split at found
    next => cases found
    next key decide about =>
      split at found
      next here =>
        subst here
        obtain ⟨_, read, same⟩ := Option.map_eq_some_iff.mp found
        cases same
        have lies := recordIn_fileAt read
        refine ⟨?_, ⟨fits.separate, fits.listed, ?_, fits.temp⟩⟩
        · cases decided : decide current with
          | answer a =>
            refine .inr ⟨v.call, a, status_idle idle, ⟨v.around.nowMs, ?_⟩, rfl⟩
            have own := mirrors.records key (separate_key fits.separate about)
            rw [reply_decides (capped ▸ about), own, lies, decided]
            exact ⟨rfl, rfl⟩
          | write stored a =>
            rw [status_idle idle]
            exact instant_wait
          | remove a =>
            rw [status_idle idle]
            exact instant_wait
        · intro current' kept
          simp only at kept
          split at kept
          next held =>
            cases kept
            exact ⟨key, by simp [FsView.key, about], held, lies⟩
          next => cases kept
      next => cases found
  next =>
    refine ⟨?_, ⟨fits.separate, fits.listed, fits.read, fits.temp⟩⟩
    rw [status_idle idle]
    obtain ⟨call, around, lock, read, temp, done⟩ := v
    cases call with
    | getBlob hash =>
      simp only [blobShown]
      split
      next here =>
        subst here
        refine .inr ⟨_, _, rfl, ⟨around.nowMs, ?_, rfl⟩, rfl⟩
        exact congrArg Except.ok (mirrors.blobs hash fits.separate).symm
      next => exact instant_wait
    | _ => exact instant_wait

/-- A look whether a file is there. -/
theorem Fits.present (fits : Fits known cap t v) (mirrors : Mirrors known t w)
    (hex : ∀ bytes, (ContentHash.of bytes).Hex) (idle : v.done = none) {path : Path} {found : Bool}
    (answered : t.present path = .ok found) :
    ∃ w', Instant AtOnce w w' v.status
        (FsView.status { v with done := presenceShown v.call path found }) ∧
      Mirrors known t w' ∧ w'.store.cap = w.store.cap := by
  rw [status_idle idle]
  obtain ⟨call, around, lock, read, temp, done⟩ := v
  cases call with
  | hasBlob hash =>
    simp only [presenceShown]
    split
    next here =>
      subst here
      refine ⟨w, .inr ⟨_, _, rfl, ⟨around.nowMs, ?_, rfl⟩, rfl⟩, mirrors, rfl⟩
      exact congrArg Except.ok (mirrors.contains fits.separate answered).symm
    next => exact ⟨w, instant_wait, mirrors, rfl⟩
  | putBlob content =>
    simp only [presenceShown]
    split
    next here =>
      obtain ⟨rfl, rfl⟩ := here
      have there : w.blobs[ContentHash.of content]? ≠ none := by
        rw [ne_eq, mirrors.absent_iff (hex content)]
        exact FileTree.present_eq_true answered
      exact ⟨w.putBlob content, .inr ⟨_, _, rfl, ⟨around.nowMs, rfl, rfl⟩, rfl⟩,
        mirrors.stored_already there, rfl⟩
    next => exact ⟨w, instant_wait, mirrors, rfl⟩
  | _ => exact ⟨w, instant_wait, mirrors, rfl⟩

/-- A change that a call has decided on. -/
theorem Fits.lands (fits : Fits known cap t v) (mirrors : Mirrors known t w)
    (capped : w.store.cap = cap) (roundTrip : RoundTrip Bytes)
    (hex : ∀ bytes, (ContentHash.of bytes).Hex)
    (free : ∀ a ∈ known, ∀ b ∈ known, ContentHash.of a = ContentHash.of b → a = b) {place : Path}
    {contents : Option Bytes} (leaves : v.Leaves cap place contents)
    (there : t' place = contents.map Node.file)
    (same : ∀ other, Published other → other ≠ place → t' other = t other) :
    ∃ w' a, landing cap v.around.nowMs v.read v.call = some a ∧ AtOnce w v.call a w' ∧
      Mirrors known t' w' ∧ w'.store.cap = cap := by
  rcases leaves with ⟨content, put, rfl, rfl⟩ | ⟨hash, delete, rfl, rfl⟩ |
    ⟨key, decide, current, about, read, rfl, what⟩
  · have listed := fits.listed content put
    have published := mirrors.published (hex content) listed
      (fun bytes mem => free bytes mem content listed) same there
    obtain ⟨call, around, lock, read, temp, done⟩ := v
    obtain rfl : call = .putBlob content := put
    exact ⟨_, _, rfl, ⟨around.nowMs, rfl, rfl⟩, published, capped⟩
  · have separate := fits.separate
    rw [delete] at separate
    have deleted := mirrors.deleted separate same there
    obtain ⟨call, around, lock, read, temp, done⟩ := v
    obtain rfl : call = .deleteBlob hash := delete
    exact ⟨_, _, rfl, ⟨around.nowMs, rfl, rfl⟩, deleted, capped⟩
  · obtain ⟨key', own, -, lies⟩ := fits.read current read
    have keys : key = key' := by simpa [FsView.key, about] using own
    subst keys
    have stored : w.store.getRaw key = current :=
      (mirrors.records key (separate_key fits.separate about)).trans lies
    have replied : w.reply v.around.nowMs v.call = (decide current).carriedOut w key := by
      rw [reply_decides (capped ▸ about), stored]
    rcases what with ⟨record, a, bytes, planned, encoded, rfl⟩ | ⟨a, planned, rfl⟩
    · have keyed : record.key = key := decides_key about planned fun c found =>
        MemStore.key_of_getRaw (stored.trans found)
      subst keyed
      refine ⟨_, a, ?_, ⟨v.around.nowMs, ?_, rfl⟩, ?_⟩
      · rw [read]
        exact landing_record about (by rw [planned]; rfl)
      · rw [replied, planned]
        rfl
      · rw [replied, planned]
        exact ⟨mirrors.wrote same there (roundTrip _ _ encoded), capped⟩
    · refine ⟨_, a, ?_, ⟨v.around.nowMs, ?_, rfl⟩, ?_⟩
      · rw [read]
        exact landing_record about (by rw [planned]; rfl)
      · rw [replied, planned]
        rfl
      · rw [replied, planned]
        exact ⟨mirrors.removed same there, capped⟩

/-! ### What a request keeps -/

variable {req : DiskReq Bytes} {answer : Except IoError req.Answer}

theorem FsView.Leaves.published {contents : Option Bytes} {place : Path}
    (leaves : v.Leaves cap place contents) (hex : ∀ bytes, (ContentHash.of bytes).Hex)
    (separate : Separate v.call) : Published place := by
  rcases leaves with ⟨content, -, rfl, -⟩ | ⟨hash, delete, rfl, -⟩ | ⟨key, _, _, -, -, rfl, -⟩
  · exact .inr ⟨_, hex content, rfl⟩
  · rw [delete] at separate
    exact .inr ⟨hash, separate, rfl⟩
  · exact .inl ⟨key, rfl⟩

/-- A record is only changed under its lock. -/
theorem Fits.holds_lock (fits : Fits known cap t v) (hex : ∀ bytes, (ContentHash.of bytes).Hex)
    {contents : Option Bytes} {key : RecordKey} (leaves : v.Leaves cap (recordPath key) contents) :
    v.lock = some (lockPath (recordPath key)) := by
  rcases leaves with ⟨content, -, same, -⟩ | ⟨hash, delete, same, -⟩ |
    ⟨key', decide, current, about, read, same, -⟩
  · exact absurd same (recordPath_ne_blobPath key (hex content))
  · have separate := fits.separate
    rw [delete] at separate
    exact absurd same (recordPath_ne_blobPath key separate)
  · obtain ⟨own, named, held, -⟩ := fits.read current read
    have keys : key' = own := by simpa [FsView.key, about] using named
    rw [same, keys, held]

/-- The places that a call changes, one by one. -/
theorem Fits.targets (fits : Fits known cap t v) (guard : v.Guard cap req) {place : Path}
    (target : place ∈ req.targets) : v.Owns place ∨ ∃ contents, v.Leaves cap place contents := by
  cases req with
  | fs req =>
    cases req with
    | writeFile path bytes =>
      obtain rfl := target
      exact .inl guard
    | rename src dst =>
      obtain ⟨-, bytes, temp, leaves⟩ := guard
      rcases target with rfl | rfl
      · exact .inl (fits.temp _ _ temp).1
      · exact .inr ⟨_, leaves⟩
    | _ => exact absurd target (Set.notMem_empty _)
  | removeFile path =>
    obtain rfl := target
    exact .inr ⟨_, guard.2⟩
  | modified path => exact absurd target (Set.notMem_empty _)

omit [Blake3] in
theorem recordAt_same {path : Path} (same : t' path = t path) :
    recordAt t' path = recordAt t path := by
  rw [recordAt, recordAt, same]

/-- What another call knows stays so. -/
theorem Fits.other {v' : FsView} (fits : Fits known cap t v) (others : Fits known cap t v')
    (hex : ∀ bytes, (ContentHash.of bytes).Hex) (guard : v.Guard cap req)
    (served : DiskServes t req answer t')
    (locks : ∀ lock, v.lock = some lock → v'.lock ≠ some lock)
    (nonces : ¬ (v.around.pid = v'.around.pid ∧ v.around.nonce = v'.around.nonce)) :
    Fits known cap t' v' where
  separate := others.separate
  listed := others.listed
  read := by
    intro current read
    obtain ⟨key, own, held, lies⟩ := others.read current read
    have untouched : recordPath key ∉ req.targets := by
      intro target
      rcases fits.targets guard target with owns | ⟨contents, leaves⟩
      · exact recordPath_not_scratch key owns.scratch
      -- Whoever changes the record holds its lock, and so does the reader.
      · exact locks _ (fits.holds_lock hex leaves) held
    have same := guard.frame served (.inl ⟨key, rfl⟩) untouched
    exact ⟨key, own, held, (recordAt_same same).trans lies⟩
  temp := by
    intro path bytes temp
    obtain ⟨owns', there⟩ := others.temp path bytes temp
    have untouched : path ∉ req.targets := by
      intro target
      rcases fits.targets guard target with owns | ⟨contents, leaves⟩
      · exact nonces (owns.disjoint owns' locks)
      · exact (leaves.published hex fits.separate).not_scratch owns'.scratch
    exact ⟨owns', ((served.leaves untouched).keeps (by rw [there]; simp)).trans there⟩

/-- A temporary file stays as it was written. -/
theorem Fits.keeps_temp (fits : Fits known cap t v) (served : DiskServes t req answer t')
    {path : Path} {bytes : Bytes} (temp : v.temp = some (path, bytes))
    (untouched : path ∉ req.targets) : v.Owns path ∧ t' path = some (.file bytes) := by
  obtain ⟨owns, there⟩ := fits.temp path bytes temp
  exact ⟨owns, ((served.leaves untouched).keeps (by rw [there]; simp)).trans there⟩

/-- What the call itself knows stays so when it changes nothing of it. -/
theorem Fits.self (fits : Fits known cap t v) (guard : v.Guard cap req)
    (served : DiskServes t req answer t')
    (quiet : ∀ place, Published place ∨ v.Owns place → place ∉ req.targets) :
    Fits known cap t' v where
  separate := fits.separate
  listed := fits.listed
  read := by
    intro current read
    obtain ⟨key, own, held, lies⟩ := fits.read current read
    have published : Published (recordPath key) := .inl ⟨key, rfl⟩
    have same := guard.frame served published (quiet _ (.inl published))
    exact ⟨key, own, held, (recordAt_same same).trans lies⟩
  temp := fun path bytes temp =>
    fits.keeps_temp served temp (quiet _ (.inr (fits.temp path bytes temp).1))

/-! ### A request that is served -/

/-- What comes of a request: the call has its instant or waits, and everybody is right. -/
def Advances (known : Set Bytes) (cap : Nat) (t' : FileTree Bytes) (w : Backend)
    (v v' : FsView) : Prop :=
  ∃ w', Instant AtOnce w w' v.status v'.status ∧ Mirrors known t' w' ∧ w'.store.cap = cap ∧
    Fits known cap t' v'

/-- A request that changes no file. -/
theorem Fits.looks (fits : Fits known cap t v) (mirrors : Mirrors known t w)
    (capped : w.store.cap = cap) (guard : v.Guard cap req) (served : DiskServes t req answer t')
    (nowhere : req.targets = ∅) : Advances known cap t' w v v := by
  have untouched : ∀ place, place ∉ req.targets := fun place =>
    nowhere ▸ Set.notMem_empty place
  exact ⟨w, instant_wait, mirrors.keeps fun place published =>
    guard.frame served published (untouched place), capped,
    fits.self guard served fun place _ => untouched place⟩

/-- A record or a blob is read. -/
theorem Fits.reads (fits : Fits known cap t v) (mirrors : Mirrors known t w)
    (capped : w.store.cap = cap) {path : Path} {answer : Except IoError Bytes}
    (idle : v.done = none) (served : MayServe t (.read path) answer t') :
    Advances known cap t' w v (v.after cap (.fs (.read path)) answer) := by
  obtain ⟨rfl, answered⟩ := served.read_answer
  have shown : ∀ contents, fileAt t' path = contents →
      Advances known cap t' w v (v.seen cap path contents) := by
    rintro _ rfl
    obtain ⟨instant, fits'⟩ := fits.seen mirrors capped idle path
    exact ⟨w, instant, mirrors, capped, fits'⟩
  cases answer with
  | ok bytes =>
    rcases answered with same | ⟨_, impossible⟩
    · exact shown (some bytes) (by rw [fileAt, FileTree.contents_eq_ok same.symm])
    · cases impossible
  | error e =>
    cases e with
    | other text => exact ⟨w, instant_wait, mirrors, capped, fits⟩
    | notFound =>
      rcases answered with same | ⟨_, impossible⟩
      · exact shown none (by rw [fileAt, FileTree.contents_eq_notFound same.symm])
      · cases impossible

/-- The lock of a record is taken. -/
theorem Fits.opens (fits : Fits known cap t v) (mirrors : Mirrors known t w)
    (capped : w.store.cap = cap) {path : Path} {answer : Except IoError Unit}
    (guard : v.Guard cap (.fs (.openFile path)))
    (served : MayServe t (.openFile path) answer t') :
    Advances known cap t' w v (v.after cap (.fs (.openFile path)) answer) := by
  obtain ⟨w', instant, mirrors', capped', fits'⟩ :=
    fits.looks mirrors capped guard (.fs served) rfl
  cases answer with
  | error e => exact ⟨w', instant, mirrors', capped', fits'⟩
  | ok value =>
    have stays := status_kept v (some path) v.temp
    refine ⟨w', stays ▸ instant, mirrors', capped', fits'.separate, fits'.listed, ?_, ?_⟩
    · intro current read
      obtain ⟨key, -, held, -⟩ := fits'.read current read
      rw [guard.1] at held
      cases held
    · intro path' bytes temp
      obtain ⟨owns, there⟩ := fits'.temp path' bytes temp
      refine ⟨?_, there⟩
      rcases owns with ⟨key, -, held, -⟩ | blob
      · rw [guard.1] at held
        cases held
      · exact .inr blob

/-- A temporary file is written. -/
theorem Fits.writes (fits : Fits known cap t v) (mirrors : Mirrors known t w)
    (capped : w.store.cap = cap) {path : Path} {bytes : Bytes} {answer : Except IoError Unit}
    (owns : v.Owns path) (served : MayServe t (.writeFile path bytes) answer t') :
    Advances known cap t' w v (v.after cap (.fs (.writeFile path bytes)) answer) := by
  have guard : v.Guard cap (.fs (.writeFile path bytes)) := owns
  have frame : ∀ place, Published place → t' place = t place := by
    intro place published
    refine guard.frame (.fs served) published ?_
    rintro rfl
    exact published.not_scratch owns.scratch
  have wrote : ∀ temp, (∀ place left, temp = some (place, left) →
      v.Owns place ∧ t' place = some (.file left)) →
        Advances known cap t' w v { v with temp := temp } := by
    intro temp holds
    have stays := status_kept v v.lock temp
    refine ⟨w, .inl ⟨rfl, stays⟩, mirrors.keeps frame, capped, fits.separate, fits.listed, ?_,
      holds⟩
    intro current read
    obtain ⟨key, own, held, lies⟩ := fits.read current read
    exact ⟨key, own, held, (recordAt_same (frame _ (.inl ⟨key, rfl⟩))).trans lies⟩
  cases answer with
  | ok value =>
    apply wrote
    rintro _ _ ⟨⟩
    exact ⟨owns, served.written⟩
  | error e =>
    apply wrote
    rintro _ _ ⟨⟩

section Landing

variable (roundTrip : RoundTrip Bytes) (hex : ∀ bytes, (ContentHash.of bytes).Hex)
  (free : ∀ a ∈ known, ∀ b ∈ known, ContentHash.of a = ContentHash.of b → a = b)

include roundTrip hex free

/-- The tree changes as the call has decided. -/
theorem Fits.landed (fits : Fits known cap t v) (mirrors : Mirrors known t w)
    (capped : w.store.cap = cap) (idle : v.done = none) {place : Path} {contents : Option Bytes}
    (leaves : v.Leaves cap place contents) (there : t' place = contents.map Node.file)
    (same : ∀ other, Published other → other ≠ place → t' other = t other)
    {temp : Option (Path × Bytes)} (holds : ∀ path bytes, temp = some (path, bytes) →
      v.Owns path ∧ t' path = some (.file bytes)) :
    Advances known cap t' w v { v with
      read := none, temp := temp, done := landing cap v.around.nowMs v.read v.call } := by
  obtain ⟨w', a, landed, instant, mirrors', capped'⟩ :=
    fits.lands mirrors capped roundTrip hex free leaves there same
  refine ⟨w', .inr ⟨v.call, a, status_idle idle, instant, ?_⟩, mirrors', capped',
    fits.separate, fits.listed, ?_, holds⟩
  · simp only [FsView.status, landed]
  · rintro _ ⟨⟩

/-- A temporary file is published. -/
theorem Fits.renames (fits : Fits known cap t v) (mirrors : Mirrors known t w)
    (capped : w.store.cap = cap) {src dst : Path} {answer : Except IoError Unit}
    (guard : v.Guard cap (.fs (.rename src dst)))
    (served : MayServe t (.rename src dst) answer t') :
    Advances known cap t' w v (v.after cap (.fs (.rename src dst)) answer) := by
  cases answer with
  | error e =>
    obtain rfl : t' = t := served.unmoved_of_error
    exact ⟨w, instant_wait, mirrors, capped, fits⟩
  | ok value =>
    have whole := guard
    obtain ⟨idle, bytes, temp, leaves⟩ := guard
    obtain ⟨owns, there⟩ := fits.temp _ _ temp
    refine fits.landed roundTrip hex free mirrors capped idle leaves (served.renamed there) ?_ ?_
    · intro other published away
      refine whole.frame (.fs served) published ?_
      rintro (rfl | here)
      · exact published.not_scratch owns.scratch
      · exact away here
    · rintro _ _ ⟨⟩

/-- A record or a blob is removed, or was gone. -/
theorem Fits.removes (fits : Fits known cap t v) (mirrors : Mirrors known t w)
    (capped : w.store.cap = cap) {path : Path} {answer : Except IoError Unit}
    (guard : v.Guard cap (.removeFile path))
    (served : DiskServes t (.removeFile path) answer t') :
    Advances known cap t' w v (v.after cap (.removeFile path) answer) := by
  have gone : t' path = none → Advances known cap t' w v
      { v with read := none, done := landing cap v.around.nowMs v.read v.call } := by
    intro absent
    refine fits.landed roundTrip hex free mirrors capped guard.1 guard.2 absent
      (fun other published away => guard.frame served published away) fun place bytes temp => ?_
    refine fits.keeps_temp served temp ?_
    rintro rfl
    exact (guard.2.published hex fits.separate).not_scratch (fits.temp _ _ temp).1.scratch
  cases served with
  | removed there => exact gone (Function.update_self _ _ _)
  | removeFailed _ text => exact ⟨w, instant_wait, mirrors, capped, fits⟩
  | @removeRefused _ e other =>
    cases e with
    | notFound => exact gone (FileTree.contents_eq_notFound other)
    | other text => exact ⟨w, instant_wait, mirrors, capped, fits⟩

/-- Every request of a call advances it. -/
theorem Fits.served (fits : Fits known cap t v) (mirrors : Mirrors known t w)
    (capped : w.store.cap = cap) (guard : v.Guard cap req) (served : DiskServes t req answer t') :
    Advances known cap t' w v (v.after cap req answer) := by
  cases req with
  | modified path => exact fits.looks mirrors capped guard served rfl
  | removeFile path => exact fits.removes roundTrip hex free mirrors capped guard served
  | fs req =>
    have looks := fits.looks mirrors capped guard served
    cases served with
    | fs served =>
      cases req with
      | createDirAll | syncDir | readDir => exact looks rfl
      | openFile path => exact fits.opens mirrors capped guard served
      | read path => exact fits.reads mirrors capped guard served
      | writeFile path bytes => exact fits.writes mirrors capped guard served
      | rename src dst => exact fits.renames roundTrip hex free mirrors capped guard served
      | tryExists path =>
        obtain rfl : t' = t := served.unmoved trivial
        cases answer with
        | error e => exact looks rfl
        | ok found =>
          obtain ⟨w', instant, mirrors', capped'⟩ :=
            fits.present mirrors hex guard served.answered
          exact ⟨w', instant, mirrors', capped'.trans capped, fits.separate, fits.listed,
            fits.read, fits.temp⟩

end Landing

end Step

/-! ### The pool -/

/-- What a call has taken: a nonce of its process, and a lock. -/
structure Note where
  pid : Nat
  nonce : Nat
  lock : Option Path

/-- Two calls have taken nothing in common. -/
structure Note.Clear (n n' : Note) : Prop where
  locks : ∀ lock, n.lock = some lock → n'.lock ≠ some lock
  nonces : ¬ (n.pid = n'.pid ∧ n.nonce = n'.nonce)

omit [Blake3] [RecordJson Bytes] in
theorem Note.Clear.symm {n n' : Note} (clear : n.Clear n') : n'.Clear n where
  locks := fun lock held' held => clear.locks lock held held'
  nonces := fun same => clear.nonces ⟨same.1.symm, same.2.symm⟩

def FsView.note (v : FsView) : Note := ⟨v.around.pid, v.around.nonce, v.lock⟩

/-- What a call notes of an answer. -/
def noted (note : Note) : (req : DiskReq Bytes) → Except IoError req.Answer → Note
  | .fs (.openFile path), .ok _ => { note with lock := some path }
  | _, _ => note

variable {Client : Type}

abbrev FsPool (Client : Type) : Type :=
  CallPool backendInterface (diskInterface Bytes) (FileTree Bytes) Client Note

/-- A lock is given to a call when no other call under way has it; the wait may fail. -/
def admitted (c : FsPool Client) (i : Client) :
    (req : DiskReq Bytes) → Except IoError req.Answer → Prop
  | .fs (.openFile path), .ok _ =>
    ∀ j o, j ≠ i → c.ongoing j = some o → o.InProgress → o.note.lock ≠ some path
  | _, _ => True

omit [Blake3] [RecordJson Bytes] in
/-- An answer that is admitted gives nothing that another call has. -/
theorem Note.Clear.noted {c : FsPool Client} {i j : Client} {n : Note} {o : Ongoing _ _ Note}
    (clear : n.Clear o.note) {req : DiskReq Bytes} {answer : Except IoError req.Answer}
    (allowed : admitted c i req answer) (other : j ≠ i) (at_j : c.ongoing j = some o)
    (busy : o.InProgress) : (Fs.noted n req answer).Clear o.note := by
  cases req with
  | modified | removeFile => exact clear
  | fs req =>
    cases req with
    | openFile path =>
      cases answer with
      | error e => exact clear
      | ok value =>
        refine ⟨?_, clear.nonces⟩
        rintro _ ⟨⟩
        exact allowed j o other at_j busy
    | _ => exact clear

/-- The tree mirrors the backend, every call under way knows what is so, and no two calls
have taken the same. -/
structure Good (known : Set Bytes) (cap : Nat) (c : FsPool Client) (views : Client → FsView)
    (w : Backend) : Prop where
  mirrors : Mirrors known c.world w
  capped : w.store.cap = cap
  fits : ∀ i o, c.ongoing i = some o → o.InProgress →
    Fits known cap c.world (views i) ∧ o.note = (views i).note
  clear : ∀ i j o o', i ≠ j → c.ongoing i = some o → c.ongoing j = some o' →
    o.InProgress → o'.InProgress → o.note.Clear o'.note

section Pool

variable [DecidableEq Client] {known : Set Bytes} {cap : Nat}

/-- A step of one call, seen by all. -/
theorem Good.updated {c c' : FsPool Client} {views : Client → FsView} {w w' : Backend}
    (good : Good known cap c views w) (i : Client) {o : Ongoing _ _ Note} {view : FsView}
    (mirrors : Mirrors known c'.world w') (capped : w'.store.cap = cap)
    (others : ∀ j, j ≠ i → c'.ongoing j = c.ongoing j) (at_i : c'.ongoing i = some o)
    (fits : Fits known cap c'.world view) (own : o.note = view.note)
    (kept : ∀ j o', j ≠ i → c.ongoing j = some o' → o'.InProgress →
      Fits known cap c'.world (views j) ∧ o.note.Clear o'.note) :
    Good known cap c' (Function.update views i view) w' where
  mirrors := mirrors
  capped := capped
  fits := by
    intro j o' at_j busy
    by_cases here : j = i
    · subst here
      cases at_i.symm.trans at_j
      rw [Function.update_self]
      exact ⟨fits, own⟩
    · rw [Function.update_of_ne here]
      rw [others j here] at at_j
      exact ⟨(kept j o' here at_j busy).1, (good.fits j o' at_j busy).2⟩
  clear := by
    intro j k o₁ o₂ apart at_j at_k busy busy'
    by_cases first : j = i
    · subst first
      cases at_i.symm.trans at_j
      rw [others k apart.symm] at at_k
      exact (kept k o₂ apart.symm at_k busy').2
    · rw [others j first] at at_j
      by_cases second : k = i
      · subst second
        cases at_i.symm.trans at_k
        exact (kept j o₁ first at_j busy).2.symm
      · rw [others k second] at at_k
        exact good.clear j k o₁ o₂ apart at_j at_k busy busy'

end Pool

end Gonzalo.Fs

namespace Gonzalo.Fs
open Gonzalo.Core Gonzalo.Lib

attribute [local instance] hexBlake3

end Gonzalo.Fs
