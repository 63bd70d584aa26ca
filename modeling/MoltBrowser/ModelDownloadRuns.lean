import MoltBrowser.ModelDownload

set_option autoImplicit false

/-!
# What a download moves into place

A job's writer and the .partial file it holds say the same as long as no other job's tasks run and
a restart that was asked for takes place. A run of which this is true installs whole files only.
-/
namespace MoltBrowser.ModelDownload
open List

variable {sha256 : Bytes → Bytes} {io : IoAnswers} {d : Disk} {w : Writer}

/-! ## The file a writer holds -/

structure Disk.Sound (d : Disk) : Prop where
 partial_lt : ∀ i, d.partialFile = some i → i < d.contents.length
 final_lt : ∀ i, d.finalFile = some i → i < d.contents.length
 apart : ∀ i, d.partialFile = some i → d.finalFile ≠ some i

/-- The writer's file, when it is open, is the one at the .partial path. -/
structure Holds (d : Disk) (w : Writer) : Prop where
 sound : d.Sound
 file : ∀ i, w.file = some i → d.partialFile = some i

structure Tracks (d : Disk) (w : Writer) : Prop where
 content : ∃ i, w.file = some i ∧ i < d.contents.length ∧ d.content i = w.hashed
 size : w.size = w.hashed.length

@[simp] theorem partialFile_write (d : Disk) (i : ℕ) (c : Bytes) : (d.write i c).partialFile = d.partialFile := rfl
@[simp] theorem finalFile_write (d : Disk) (i : ℕ) (c : Bytes) : (d.write i c).finalFile = d.finalFile := rfl

@[simp] theorem length_write (d : Disk) (i : ℕ) (c : Bytes) : (d.write i c).contents.length = d.contents.length :=
 List.length_set

variable {i : ℕ}

theorem content_write (d : Disk) (c : Bytes) (h : i < d.contents.length) : (d.write i c).content i = c := by
 simp [Disk.content, Disk.write, h]

theorem content_write_ne (d : Disk) {k : ℕ} (c : Bytes) (h : i ≠ k) : (d.write i c).content k = d.content k := by
 simp [Disk.content, Disk.write, getElem?_set_ne h]

theorem Disk.Sound.write (h : d.Sound) (i : ℕ) (c : Bytes) : (d.write i c).Sound where
 partial_lt k hk := by
  rw [length_write]
  exact h.partial_lt k hk
 final_lt k hk := by
  rw [length_write]
  exact h.final_lt k hk
 apart := h.apart

theorem Disk.Sound.final_write (h : d.Sound) (hi : d.partialFile = some i) (c : Bytes) :
  (d.write i c).final = d.final := by
 cases hfinal : d.finalFile with
 | none => rw [Disk.final, Disk.final, finalFile_write, hfinal]; rfl
 | some k =>
  have hne : i ≠ k := by
   rintro rfl
   exact h.apart i hi hfinal
  rw [Disk.final, Disk.final, finalFile_write, hfinal, Option.map_some, Option.map_some, content_write_ne d c hne]

theorem Disk.Sound.delete (h : d.Sound) (name : FileName) : (d.delete name).Sound := by
 cases name with
 | partialFile => exact ⟨fun i hi => (by cases hi), h.final_lt, fun i hi => (by cases hi)⟩
 | finalFile => exact ⟨h.partial_lt, fun i hi => (by cases hi), fun i _ hi => (by cases hi)⟩
 | other => exact h

theorem Disk.Sound.tryDelete (h : d.Sound) (io : IoAnswers) (name : FileName) : (d.tryDelete io name).Sound := by
 rw [Disk.tryDelete]
 split
 · exact h.delete name
 · exact h

theorem final_tryDelete (d : Disk) {name : FileName} (h : name ≠ .finalFile) :
  (d.tryDelete io name).final = d.final := by
 rw [Disk.tryDelete]
 split
 · cases name with
   | partialFile => rfl
   | finalFile => exact absurd rfl h
   | other => rfl
 · rfl

/-! ## The writer's tasks -/

theorem truncate_cases (io : IoAnswers) (d : Disk) (w : Writer) :
  truncate io d w = (false, d, w) ∨
   ∃ i, w.file = some i ∧ truncate io d w = (true, d.write i [], { w with hashed := [], size := 0 }) := by
 rw [truncate]
 cases hfile : w.file with
 | none => exact .inl rfl
 | some i =>
  cases hset : io.lengthSet with
  | false => exact .inl rfl
  | true => exact .inr ⟨i, rfl, rfl⟩

theorem Holds.truncate (h : Holds d w) (io : IoAnswers) :
  Holds (truncate io d w).2.1 (truncate io d w).2.2 ∧ (truncate io d w).2.1.final = d.final := by
 rcases truncate_cases io d w with heq | ⟨i, hfile, heq⟩
 · rw [heq]
   exact ⟨h, rfl⟩
 · rw [heq]
   exact ⟨⟨h.sound.write i [], h.file⟩, h.sound.final_write (h.file i hfile) []⟩

theorem Tracks.truncate (hfile : w.file = some i) (hi : i < d.contents.length) :
  Tracks (d.write i []) { w with hashed := [], size := 0 } where
 content := ⟨i, hfile, by rwa [length_write], content_write d [] hi⟩
 size := rfl

theorem Tracks.truncated (h : Tracks d w) (hset : io.lengthSet = true) :
  Tracks (ModelDownload.truncate io d w).2.1 (ModelDownload.truncate io d w).2.2 ∧
   (ModelDownload.truncate io d w).2.2.hashed = [] := by
 obtain ⟨i, hfile, hi, -⟩ := h.content
 have heq : ModelDownload.truncate io d w = (true, d.write i [], { w with hashed := [], size := 0 }) := by
  rw [ModelDownload.truncate, hfile]
  exact if_pos hset
 rw [heq]
 exact ⟨.truncate hfile hi, rfl⟩

theorem openAlways_spec (h : d.Sound) : d.openAlways.2.Sound ∧ d.openAlways.2.partialFile = some d.openAlways.1 ∧
  d.openAlways.2.final = d.final ∧
  d.openAlways.2.content d.openAlways.1 = (d.partialFile.map d.content).getD [] := by
 rw [Disk.openAlways]
 cases hpartial : d.partialFile with
 | some i => exact ⟨h, hpartial, rfl, rfl⟩
 | none =>
  have hold : ∀ i, i < d.contents.length → i < (d.contents ++ [[]]).length := fun i hi => by
   rw [length_append]
   omega
  refine ⟨⟨fun i hi => ?_, fun i hi => hold i (h.final_lt i hi), fun i hi hfinal => ?_⟩, rfl, ?_, ?_⟩
  · injection hi with hi
    rw [← hi, length_append]
    exact Nat.lt_succ_self _
  · injection hi with hi
    exact absurd (h.final_lt i hfinal) (by omega)
  · rw [Disk.final, Disk.final]
    refine Option.map_congr fun i hi => ?_
    rw [Disk.content, Disk.content, getElem?_append_left (h.final_lt i hi)]
  · rw [Disk.content, getElem?_append_right le_rfl, Nat.sub_self]
    rfl

theorem rehash_eq {content : Bytes} {fuel off : ℕ} {hashed : Bytes} (hfuel : content.length ≤ off + fuel)
  (hhashed : hashed = content.take off) (h : (rehash io content fuel off hashed).2 = true) :
  (rehash io content fuel off hashed).1 = content := by
 induction fuel generalizing off hashed with
 | zero =>
  rw [rehash, hhashed]
  exact take_of_length_le hfuel
 | succ fuel ih =>
  rw [rehash] at h ⊢
  by_cases hoff : off < content.length
  · rw [if_pos hoff] at h ⊢
    cases hread : io.readAt off with
    | none =>
     rw [hread] at h
     cases h
    | some n =>
     rw [hread] at h
     dsimp only at h ⊢
     generalize min n (min kRehashChunk (content.length - off)) = n at h ⊢
     by_cases hn : n = 0
     · rw [if_pos hn] at h
       cases h
     · rw [if_neg hn] at h ⊢
       refine ih (by omega) ?_ h
       rw [hhashed, take_add]
  · rw [if_neg hoff, hhashed]
    exact take_of_length_le (by omega)

/-- `Open`, whatever it answers, leaves the final file alone and holds the .partial file. -/
theorem Disk.Sound.openPartial (h : d.Sound) (io : IoAnswers) (hfile : w.file = none) (expectedSize : ℤ) :
  Holds (openPartial io d w expectedSize).2.1 (openPartial io d w expectedSize).2.2 ∧
   (openPartial io d w expectedSize).2.1.final = d.final := by
 obtain ⟨hsound, hpartial, hfinal, -⟩ := openAlways_spec h
 have hnone : ∀ w' : Writer, w'.file = none → Holds d w' := fun w' hw' => ⟨h, fun i hi => by rw [hw'] at hi; cases hi⟩
 have hsome : ∀ w' : Writer, w'.file = some d.openAlways.1 → Holds d.openAlways.2 w' := by
  intro w' hw'
  refine ⟨hsound, fun i hi => ?_⟩
  rw [← hi, hw']
  exact hpartial
 have hclean : ∀ w' : Writer, w'.file = some d.openAlways.1 →
   Holds (startClean io d.openAlways.2 w').2.1 (startClean io d.openAlways.2 w').2.2 ∧
    (startClean io d.openAlways.2 w').2.1.final = d.final := by
  intro w' hw'
  obtain ⟨hholds, hsame⟩ := (hsome w' hw').truncate io
  exact ⟨hholds, hsame.trans hfinal⟩
 simp only [ModelDownload.openPartial]
 split
 · exact ⟨hnone w hfile, rfl⟩
 split
 · exact ⟨hnone _ rfl, rfl⟩
 split
 · exact ⟨hsome _ rfl, hfinal⟩
 split
 · exact hclean _ rfl
 split
 · exact ⟨hsome _ rfl, hfinal⟩
 · exact hclean _ rfl

/-- The bytes it reports were hashed and are what the file holds: all that was found, or nothing. -/
theorem openPartial_some (h : d.Sound) {expectedSize : ℤ} {n : ℕ}
  (hn : (openPartial io d {} expectedSize).1 = some n) :
  Tracks (openPartial io d {} expectedSize).2.1 (openPartial io d {} expectedSize).2.2 ∧
   n = (openPartial io d {} expectedSize).2.2.size ∧
   (0 < n → (openPartial io d {} expectedSize).2.2.hashed = (d.partialFile.map d.content).getD []) := by
 obtain ⟨hsound, hpartial, -, hcontent⟩ := openAlways_spec h
 have hlt := hsound.partial_lt _ hpartial
 have hclean : ∀ w' : Writer, w'.file = some d.openAlways.1 → (startClean io d.openAlways.2 w').1 = some n →
   Tracks (startClean io d.openAlways.2 w').2.1 (startClean io d.openAlways.2 w').2.2 ∧
    n = (startClean io d.openAlways.2 w').2.2.size ∧
    (0 < n → (startClean io d.openAlways.2 w').2.2.hashed = (d.partialFile.map d.content).getD []) := by
  intro w' hw' hn'
  rcases truncate_cases io d.openAlways.2 w' with heq | ⟨i, hi, heq⟩
  · simp only [startClean, heq] at hn'
    cases hn'
  · rw [hw'] at hi
    cases hi
    simp only [startClean, heq] at hn' ⊢
    injection hn' with hn'
    exact ⟨.truncate hw' hlt, hn'.symm, fun hpos => absurd hn' (Nat.ne_of_lt hpos)⟩
 simp only [openPartial] at hn ⊢
 split at hn
 · cases hn
 split at hn
 · cases hn
 split at hn
 · cases hn
 next hdir hopened hlength =>
  rw [if_neg hdir, if_neg hopened, if_neg hlength]
  split at hn
  · next hcomplete =>
    rw [if_pos hcomplete]
    exact hclean _ rfl hn
  · next hcomplete =>
    rw [if_neg hcomplete]
    split at hn
    · next hread =>
      rw [if_pos hread]
      have hall := rehash_eq (Nat.le_of_eq (Nat.zero_add _).symm) (take_zero).symm hread
      injection hn with hn
      refine ⟨⟨⟨_, rfl, hlt, hall.symm⟩, congrArg List.length hall.symm⟩, hn.symm, fun _ => hall.trans hcontent⟩
    · next hread =>
      rw [if_neg hread]
      exact hclean _ rfl hn

theorem overwrite_end (content data : Bytes) : overwrite content content.length data = content ++ data := by
 simp [overwrite]

theorem Holds.append (h : Holds d w) (io : IoAnswers) (data : Bytes) :
  Holds (append io d w data).2.1 (append io d w data).2.2 ∧ (append io d w data).2.1.final = d.final := by
 rw [ModelDownload.append]
 cases hfile : w.file with
 | none => exact ⟨h, rfl⟩
 | some i =>
  have hpartial := h.file i hfile
  dsimp only
  split
  · exact ⟨⟨h.sound.write i _, h.file⟩, h.sound.final_write hpartial _⟩
  · exact ⟨⟨h.sound.write i _, fun k hk => h.file k (hfile.trans hk)⟩, h.sound.final_write hpartial _⟩

theorem Tracks.append (h : Tracks d w) {data : Bytes} (hok : (append io d w data).1 = true) :
  Tracks (append io d w data).2.1 (append io d w data).2.2 ∧
   (append io d w data).2.2.hashed = w.hashed ++ data := by
 obtain ⟨i, hfile, hi, hcontent⟩ := h.content
 rw [ModelDownload.append, hfile] at hok ⊢
 dsimp only at hok ⊢
 split at hok
 · cases hok
 · next hall =>
   push Not at hall
   rw [if_neg (not_or.2 ⟨hall.1, not_not.2 hall.2⟩), hall.2, take_length, hcontent, h.size]
   refine ⟨⟨⟨i, rfl, by rwa [length_write], ?_⟩, ?_⟩, rfl⟩
   · rw [content_write d _ hi, overwrite_end]
   · dsimp only
     rw [length_append]

theorem Holds.discard (h : Holds d w) (io : IoAnswers) (alsoDelete : List FileName) :
  Holds (discard io d w alsoDelete).1 (discard io d w alsoDelete).2 ∧
   (.finalFile ∉ alsoDelete → (discard io d w alsoDelete).1.final = d.final) := by
 have hfold : ∀ (names : List FileName) (d' : Disk), d'.Sound → (names.foldl (Disk.tryDelete io) d').Sound ∧
   (.finalFile ∉ names → (names.foldl (Disk.tryDelete io) d').final = d'.final) := by
  intro names
  induction names with
  | nil => exact fun d' hd' => ⟨hd', fun _ => rfl⟩
  | cons name names ih =>
   intro d' hd'
   obtain ⟨hsound, hfinal⟩ := ih (d'.tryDelete io name) (hd'.tryDelete io name)
   refine ⟨hsound, fun hnot => ?_⟩
   rw [mem_cons, not_or] at hnot
   exact (hfinal hnot.2).trans (final_tryDelete d' (Ne.symm hnot.1))
 obtain ⟨hsound, hfinal⟩ := hfold alsoDelete _ (h.sound.tryDelete io .partialFile)
 refine ⟨⟨hsound, fun i hi => by cases hi⟩, fun hnot => (hfinal hnot).trans (final_tryDelete d (by decide))⟩

theorem Disk.Sound.moveIntoPlace (h : d.Sound) (io : IoAnswers) (r : Result) :
  (moveIntoPlace io d r).2.Sound ∧
   ((moveIntoPlace io d r).1.success = false → (moveIntoPlace io d r).2.final = d.final) := by
 rw [ModelDownload.moveIntoPlace]
 split
 · refine ⟨⟨fun i hi => (by cases hi), h.partial_lt, fun i hi => (by cases hi)⟩, fun hno => (by cases hno)⟩
 · exact ⟨h, fun _ => rfl⟩

theorem Holds.finish (h : Holds d w) (sha256 : Bytes → Bytes) (io : IoAnswers) (p : Params) :
  Holds (finish io d w sha256 p).2.1 (finish io d w sha256 p).2.2 ∧
   ((finish io d w sha256 p).1.success = false → (finish io d w sha256 p).2.1.final = d.final) := by
 have hclosed : ∀ d' : Disk, d'.Sound → Holds d' { w with file := none } :=
  fun d' hd' => ⟨hd', fun i hi => by cases hi⟩
 simp only [ModelDownload.finish]
 split
 · exact ⟨h, fun _ => rfl⟩
 split
 · exact ⟨hclosed _ (h.sound.tryDelete io .partialFile), fun _ => final_tryDelete d (by decide)⟩
 · exact ⟨hclosed _ (h.sound.tryDelete io .partialFile), fun _ => final_tryDelete d (by decide)⟩
 · obtain ⟨hsound, hsame⟩ := h.sound.moveIntoPlace io { sha256 := sha256 w.hashed, verified := true }
   exact ⟨hclosed _ hsound, hsame⟩
 · obtain ⟨hsound, hsame⟩ := h.sound.moveIntoPlace io { sha256 := sha256 w.hashed }
   exact ⟨hclosed _ hsound, hsame⟩

variable {r : Result}

theorem moveIntoPlace_success (h : (moveIntoPlace io d r).1.success = true) (hr : r.success = false) :
  (moveIntoPlace io d r).1 = { r with success := true } ∧
   (moveIntoPlace io d r).2.final = d.partialFile.map d.content := by
 rw [moveIntoPlace] at h ⊢
 split at h
 · next hmove =>
   rw [if_pos hmove]
   exact ⟨rfl, rfl⟩
 · rw [hr] at h
   cases h

theorem verifyDownload_verified {actualSha256 expectedSha256 : Bytes} {actualSize : ℕ} {expectedSize : ℤ}
  (h : verifyDownload actualSha256 actualSize expectedSha256 expectedSize = .verified) :
  expectedSha256 ≠ [] ∧ actualSha256 = expectedSha256 ∧ (0 < expectedSize → (actualSize : ℤ) = expectedSize) := by
 rw [verifyDownload] at h
 split at h
 · cases h
 · next hsize =>
   push Not at hsize
   split at h
   · cases h
   · next hne =>
     split at h
     · next hsha => exact ⟨hne, hsha, hsize⟩
     · cases h

structure Good (sha256 : Bytes → Bytes) (p : Params) (meant : Bytes) (r : Result) (final : Option Bytes) : Prop where
 whole : final = some meant
 hash : r.sha256 = sha256 meant
 verified : r.verified = true → p.expectedSha256 ≠ [] ∧ r.sha256 = p.expectedSha256 ∧
  (0 < p.expectedSize → (meant.length : ℤ) = p.expectedSize)

theorem Tracks.finish (h : Tracks d w) (hholds : Holds d w) {p : Params}
  (hsuccess : (finish io d w sha256 p).1.success = true) :
  Good sha256 p w.hashed (finish io d w sha256 p).1 (finish io d w sha256 p).2.1.final := by
 obtain ⟨i, hfile, -, hcontent⟩ := h.content
 have hfinal : d.partialFile.map d.content = some w.hashed := by
  rw [hholds.file i hfile, Option.map_some, hcontent]
 simp only [ModelDownload.finish] at hsuccess ⊢
 split at hsuccess
 · cases hsuccess
 · next hflushed =>
   rw [if_neg hflushed]
   split at hsuccess
   · cases hsuccess
   · cases hsuccess
   · next hverify =>
     obtain ⟨hresult, hmoved⟩ := moveIntoPlace_success hsuccess rfl
     dsimp only
     rw [hresult, hmoved]
     have hpinned := verifyDownload_verified hverify
     rw [h.size] at hpinned
     exact ⟨hfinal, rfl, fun _ => hpinned⟩
   · next hverify =>
     obtain ⟨hresult, hmoved⟩ := moveIntoPlace_success hsuccess rfl
     dsimp only
     rw [hresult, hmoved]
     exact ⟨hfinal, rfl, fun hno => by cases hno⟩

/-! ## The course of a job -/

def truncations (pending : Bool) : List Task := if pending then [.truncate] else []

def restartedFrom (pending : Bool) (hashed : Bytes) : Bytes := if pending then [] else hashed

/-- Where a job is whose file was opened and that is to report still. With `pending`, the truncation
of a restart is first in its queue. -/
inductive Course (sha256 : Bytes → Bytes) (d : Disk) (job : Job) : Prop
 | opened (existing : Option ℕ) : job.loader = .none → job.queue = [] → job.replies = [.opened existing] →
   job.body = [] → job.restarted = false →
   (∀ n, existing = some n → Tracks d job.writer ∧ n = job.writer.size ∧
    (0 < n → job.writer.hashed = job.found)) → Course sha256 d job
 | requested : job.loader = .requested → job.queue = [] → job.replies = [] → job.body = [] →
   job.restarted = false → Tracks d job.writer → job.requestedOffset = job.writer.size →
   (0 < job.requestedOffset → job.writer.hashed = job.found) → Course sha256 d job
 | streaming (pending : Bool) : job.loader = .streaming false → job.queue = truncations pending →
   job.replies = [] → job.responseOk = true → Tracks d job.writer → (pending = true → job.restarted = true) →
   restartedFrom pending job.writer.hashed = job.meant → Course sha256 d job
 | inFlight (pending : Bool) (chunk : Bytes) : job.loader = .streaming true →
   job.queue = truncations pending ++ [.append chunk] → job.replies = [] → job.responseOk = true →
   Tracks d job.writer → (pending = true → job.restarted = true) →
   restartedFrom pending job.writer.hashed ++ chunk = job.meant → Course sha256 d job
 | answered (ok : Bool) : job.loader = .streaming true → job.queue = [] → job.replies = [.written ok] →
   job.responseOk = true → (ok = true → Tracks d job.writer ∧ job.writer.hashed = job.meant) → Course sha256 d job
 | finishing (pending : Bool) : job.loader = .none → job.queue = truncations pending ++ [.finish] →
   job.replies = [] → Tracks d job.writer → (pending = true → job.restarted = true) →
   restartedFrom pending job.writer.hashed = job.meant → Course sha256 d job
 | finished (r : Result) : job.loader = .none → job.queue = [] → job.replies = [.finished r] →
   (r.success = true → Good sha256 job.params job.meant r d.final) → Course sha256 d job

/-- A job whose `Open` hasn't run. -/
structure Unopened (job : Job) : Prop where
 queue : ∃ queue, job.queue = .openPartial :: queue ∧ .openPartial ∉ queue ∧ (job.hasDone = true → queue = [])
 loader : job.loader = .none
 replies : job.replies = []
 writer : job.writer = {}
 body : job.body = []
 restarted : job.restarted = false

variable {job : Job}

theorem Unopened.run (h : Unopened job) (hd : d.Sound) (hdone : job.hasDone = true) :
  Course sha256 (Job.runTask sha256 io d { job with queue := job.queue.tail } .openPartial).1
   (Job.runTask sha256 io d { job with queue := job.queue.tail } .openPartial).2 := by
 obtain ⟨queue, hqueue, -, hempty⟩ := h.queue
 simp only [Job.runTask, h.writer]
 refine .opened _ h.loader ?_ ?_ h.body h.restarted fun n hn => openPartial_some hd hn
 · rw [hqueue, tail_cons]
   exact hempty hdone
 · rw [h.replies]
   rfl

variable {job' : Job}

theorem meant_eq {job : Job} (hoffset : job'.requestedOffset = job.requestedOffset)
  (hrestarted : job'.restarted = job.restarted) (hfound : job'.found = job.found) (hbody : job'.body = job.body) :
  job'.meant = job.meant := by
 rw [Job.meant, Job.meant, hoffset, hrestarted, hfound, hbody]

/-- The next task of a job on its course, with its file held and a restart's truncation taking place. -/
theorem Course.run (h : Course sha256 d job) (hholds : Holds d job.writer) {task : Task} {queue : List Task}
  (hqueue : job.queue = task :: queue)
  (hset : task = .truncate → job.restarted = true → io.lengthSet = true) :
  Course sha256 (Job.runTask sha256 io d { job with queue := queue } task).1
   (Job.runTask sha256 io d { job with queue := queue } task).2 := by
 cases h with
 | opened existing _ hnil =>
  rw [hnil] at hqueue
  cases hqueue
 | requested _ hnil =>
  rw [hnil] at hqueue
  cases hqueue
 | answered ok _ hnil =>
  rw [hnil] at hqueue
  cases hqueue
 | finished r _ hnil =>
  rw [hnil] at hqueue
  cases hqueue
 | streaming pending hloader hpending hreplies hok htracks hrestarted hmeant =>
  cases pending with
  | false =>
   rw [hpending] at hqueue
   cases hqueue
  | true =>
   rw [hpending] at hqueue
   cases hqueue
   obtain ⟨htruncated, hhashed⟩ := htracks.truncated (hset rfl (hrestarted rfl))
   exact .streaming false hloader rfl hreplies hok htruncated (fun hno => by cases hno) (hhashed.trans hmeant)
 | inFlight pending chunk hloader hpending hreplies hok htracks hrestarted hmeant =>
  cases pending with
  | false =>
   rw [hpending] at hqueue
   cases hqueue
   refine .answered (ModelDownload.append io d job.writer chunk).1 hloader rfl ?_ hok fun hwritten => ?_
   · simp only [Job.runTask, hreplies]
     rfl
   · obtain ⟨happended, hhashed⟩ := htracks.append hwritten
     exact ⟨happended, hhashed.trans hmeant⟩
  | true =>
   rw [hpending] at hqueue
   cases hqueue
   obtain ⟨htruncated, hhashed⟩ := htracks.truncated (hset rfl (hrestarted rfl))
   exact .inFlight false chunk hloader rfl hreplies hok htruncated (fun hno => by cases hno)
    ((congrArg (· ++ chunk) hhashed).trans hmeant)
 | finishing pending hloader hpending hreplies htracks hrestarted hmeant =>
  cases pending with
  | false =>
   rw [hpending] at hqueue
   cases hqueue
   refine .finished (ModelDownload.finish io d job.writer sha256 job.params).1 hloader rfl ?_ fun hsuccess => ?_
   · simp only [Job.runTask, hreplies]
     rfl
   · have hgood := htracks.finish hholds hsuccess
     rw [show job.writer.hashed = job.meant from hmeant] at hgood
     exact hgood
  | true =>
   rw [hpending] at hqueue
   cases hqueue
   obtain ⟨htruncated, hhashed⟩ := htracks.truncated (hset rfl (hrestarted rfl))
   exact .finishing false hloader rfl hreplies htruncated (fun hno => by cases hno) (hhashed.trans hmeant)

/-! ## Calls on the UI thread -/

inductive Call (job : Job) : Job × Option Result → Prop
 | reply {reply : Reply} {replies : List Reply} : job.replies = reply :: replies →
   Call job (Job.onReply { job with replies := replies } reply)
 | response (status : ℤ) (contentRange : Option ℤ) : job.loader = .requested →
   Call job (job.onResponseStarted status contentRange)
 | data (bytes : Bytes) : job.loader = .streaming false → Call job (job.onDataReceived bytes, none)
 | complete (success : Bool) (netError : ℤ) :
   (job.loader = .streaming false ∨ (success = false ∧ job.loader ≠ .none)) →
   Call job (job.onComplete success netError)
 | cancel (alsoDelete : List FileName) : Call job (job.cancelAndDiscard alsoDelete, none)
 | destroy : Call job (job.destroy, none)

/-- Only a result of `Finish` reports success. -/
structure Framed (job : Job) (call : Job × Option Result) : Prop where
 writer : call.1.writer = job.writer
 queue : ∃ tasks, call.1.queue = job.queue ++ tasks ∧ .openPartial ∉ tasks
 alive : call.1.alive = true → job.alive = true
 hasDone : call.1.hasDone = true → job.hasDone = true
 report : ∀ r, call.2 = some r → r.success = true →
  job.alive = true ∧ job.hasDone = true ∧ ∃ replies, job.replies = .finished r :: replies

theorem failed_report {error : Bytes} {netError : ℤ} (h : (job.fail error netError).2 = some r) :
  r.success = false := by
 simp only [Job.fail, Job.report] at h
 split at h
 · cases h
   rfl
 · cases h

theorem Framed.failed (hwriter : job'.writer = job.writer)
  (hqueue : ∃ tasks, job'.queue = job.queue ++ tasks ∧ .openPartial ∉ tasks)
  (halive : job'.alive = true → job.alive = true) (error : Bytes) (netError : ℤ) :
  Framed job (job'.fail error netError) where
 writer := hwriter
 queue := hqueue
 alive := halive
 hasDone hno := by cases hno
 report r hr hsuccess := by
  rw [failed_report hr] at hsuccess
  cases hsuccess

theorem Framed.silent (hwriter : job'.writer = job.writer)
  (hqueue : ∃ tasks, job'.queue = job.queue ++ tasks ∧ .openPartial ∉ tasks)
  (halive : job'.alive = true → job.alive = true) (hdone : job'.hasDone = true → job.hasDone = true) :
  Framed job (job', none) :=
 ⟨hwriter, hqueue, halive, hdone, fun _ hr => by cases hr⟩

theorem nothing_posted (queue : List Task) : ∃ tasks, queue = queue ++ tasks ∧ .openPartial ∉ tasks :=
 ⟨[], (append_nil queue).symm, not_mem_nil⟩

theorem posted (queue : List Task) {task : Task} (h : task ≠ .openPartial) :
  ∃ tasks, queue ++ [task] = queue ++ tasks ∧ .openPartial ∉ tasks :=
 ⟨[task], rfl, fun hm => h (mem_singleton.1 hm).symm⟩

theorem Call.framed {call : Job × Option Result} (h : Call job call) : Framed job call := by
 cases h with
 | @reply reply replies hreplies =>
  cases halive : job.alive with
  | false =>
   simp only [Job.onReply, Bool.false_eq_true, if_false]
   exact .silent rfl (nothing_posted job.queue) (fun hno => by cases hno) id
  | true =>
   simp only [Job.onReply, if_true]
   cases reply with
   | opened existing =>
    cases existing with
    | none =>
     refine Framed.failed ?_ ?_ ?_ _ _
     · rfl
     · exact nothing_posted job.queue
     · exact fun _ => halive
    | some n => exact .silent rfl (nothing_posted job.queue) (fun _ => halive) id
   | written ok =>
    cases ok with
    | false =>
     refine Framed.failed ?_ ?_ ?_ _ _
     · rfl
     · exact nothing_posted job.queue
     · exact fun _ => halive
    | true =>
     simp only [Job.onChunkWritten, if_true]
     split
     · exact .silent rfl (nothing_posted job.queue) (fun _ => halive) id
     · exact .silent rfl (nothing_posted job.queue) (fun _ => halive) id
   | finished r =>
    refine ⟨rfl, nothing_posted job.queue, fun _ => halive, fun hno => (by cases hno), fun r' hr hsuccess => ?_⟩
    simp only [Job.report] at hr
    split at hr
    · next hdone =>
      cases hr
      exact ⟨halive, hdone, replies, hreplies⟩
    · cases hr
 | response status contentRange hloader =>
  rw [Job.onResponseStarted]
  dsimp only
  split
  · exact .silent rfl (nothing_posted job.queue) id id
  · exact .silent rfl (@posted job.queue .truncate (by decide)) id id
  · refine Framed.failed ?_ ?_ ?_ _ _
    · split <;> rfl
    · split
      · exact @posted job.queue .truncate (by decide)
      · exact nothing_posted job.queue
    · split <;> exact id
 | data bytes hloader =>
  rw [Job.onDataReceived]
  split
  · exact .silent rfl (@posted job.queue (.append bytes) (by simp)) id id
  · exact .silent rfl (nothing_posted job.queue) id id
 | complete success netError hloader =>
  rw [Job.onComplete]
  cases success with
  | true => exact .silent rfl (@posted job.queue .finish (by decide)) id id
  | false =>
   refine Framed.failed ?_ ?_ ?_ _ _
   · rfl
   · exact nothing_posted job.queue
   · exact id
 | cancel alsoDelete =>
  exact .silent rfl (@posted job.queue (.discard alsoDelete) (by simp)) id (fun hno => by cases hno)
 | destroy => exact .silent rfl (nothing_posted job.queue) (fun hno => by cases hno) id

theorem meant_data (job : Job) (chunk : Bytes) (hoffset : job'.requestedOffset = job.requestedOffset)
  (hrestarted : job'.restarted = job.restarted) (hfound : job'.found = job.found)
  (hbody : job'.body = job.body ++ chunk) : job'.meant = job.meant ++ chunk := by
 rw [Job.meant, Job.meant, hoffset, hrestarted, hfound, hbody]
 split
 · exact (append_assoc ..).symm
 · rfl

theorem Course.responded (h : Course sha256 d job) (hloader : job.loader = .requested) (status : ℤ)
  (contentRange : Option ℤ) (hdone : (job.onResponseStarted status contentRange).1.hasDone = true) :
  Course sha256 d (job.onResponseStarted status contentRange).1 := by
 cases h with
 | requested _ hqueue hreplies hbody hrestarted htracks hoffset hfound =>
  rw [Job.onResponseStarted] at hdone ⊢
  dsimp only at hdone ⊢
  split at hdone
  · refine .streaming false rfl hqueue hreplies rfl htracks (fun hno => by cases hno) ?_
    change job.writer.hashed = Job.meant _
    by_cases hpos : 0 < job.requestedOffset
    · rw [Job.meant, if_pos ⟨hpos, hrestarted⟩]
      dsimp only
      rw [hbody, append_nil, hfound hpos]
    · rw [Job.meant, if_neg fun hno => hpos hno.1]
      dsimp only
      rw [hbody]
      apply length_eq_zero_iff.1
      rw [← htracks.size, ← hoffset]
      exact Nat.eq_zero_of_not_pos hpos
  · refine .streaming true rfl ?_ hreplies rfl htracks (fun _ => rfl) ?_
    · change job.queue ++ [.truncate] = _
      rw [hqueue]
      rfl
    · rw [Job.meant, if_neg fun hno => by cases hno.2]
      exact hbody.symm
  · cases hdone
 | opened _ hother => rw [hother] at hloader; cases hloader
 | streaming _ hother => rw [hother] at hloader; cases hloader
 | inFlight _ _ hother => rw [hother] at hloader; cases hloader
 | answered _ hother => rw [hother] at hloader; cases hloader
 | finishing _ hother => rw [hother] at hloader; cases hloader
 | finished _ hother => rw [hother] at hloader; cases hloader

theorem Course.awaiting (h : Course sha256 d job) (hloader : job.loader = .streaming false) :
  ∃ pending, job.queue = truncations pending ∧ job.replies = [] ∧ job.responseOk = true ∧ Tracks d job.writer ∧
   (pending = true → job.restarted = true) ∧ restartedFrom pending job.writer.hashed = job.meant := by
 cases h with
 | streaming pending _ hqueue hreplies hok htracks hrestarted hmeant =>
  exact ⟨pending, hqueue, hreplies, hok, htracks, hrestarted, hmeant⟩
 | opened _ hother => rw [hother] at hloader; cases hloader
 | requested hother => rw [hother] at hloader; cases hloader
 | inFlight _ _ hother => rw [hother] at hloader; cases hloader
 | answered _ hother => rw [hother] at hloader; cases hloader
 | finishing _ hother => rw [hother] at hloader; cases hloader
 | finished _ hother => rw [hother] at hloader; cases hloader

theorem Course.received (h : Course sha256 d job) (hloader : job.loader = .streaming false) (bytes : Bytes) :
  Course sha256 d (job.onDataReceived bytes) := by
 obtain ⟨pending, hqueue, hreplies, hok, htracks, hrestarted, hmeant⟩ := h.awaiting hloader
 rw [Job.onDataReceived, if_pos hok]
 refine .inFlight pending bytes rfl (congrArg (· ++ [Task.append bytes]) hqueue) hreplies hok htracks hrestarted ?_
 have hnext : ({ job with loader := .streaming true, body := job.body ++ bytes }.post (.append bytes)).meant =
   job.meant ++ bytes := meant_data job bytes rfl rfl rfl rfl
 rw [hnext]
 exact congrArg (· ++ bytes) hmeant

theorem Course.completed (h : Course sha256 d job) (hloader : job.loader = .streaming false) (netError : ℤ) :
  Course sha256 d (job.onComplete true netError).1 := by
 obtain ⟨pending, hqueue, hreplies, -, htracks, hrestarted, hmeant⟩ := h.awaiting hloader
 rw [Job.onComplete, if_pos rfl]
 exact .finishing pending rfl (congrArg (· ++ [Task.finish]) hqueue) hreplies htracks hrestarted
  (hmeant.trans (meant_eq rfl rfl rfl rfl).symm)

theorem Course.replied (h : Course sha256 d job) (halive : job.alive = true) {reply : Reply} {replies : List Reply}
  (hreplies : job.replies = reply :: replies)
  (hdone : (Job.onReply { job with replies := replies } reply).1.hasDone = true) :
  Course sha256 d (Job.onReply { job with replies := replies } reply).1 := by
 simp only [Job.onReply, halive, if_true] at hdone ⊢
 cases h with
 | opened existing hloader hqueue hfirst hbody hrestarted hopened =>
  rw [hfirst] at hreplies
  cases hreplies
  cases existing with
  | none => cases hdone
  | some n =>
   obtain ⟨htracks, hsize, hfound⟩ := hopened n rfl
   exact .requested rfl hqueue rfl hbody hrestarted htracks hsize hfound
 | answered ok hloader hqueue hfirst hok hwritten =>
  rw [hfirst] at hreplies
  cases hreplies
  cases ok with
  | false => cases hdone
  | true =>
   obtain ⟨htracks, hmeant⟩ := hwritten rfl
   simp only [Job.onChunkWritten, hloader, if_true]
   exact .streaming false rfl hqueue rfl hok htracks (fun hno => by cases hno) hmeant
 | finished r hloader hqueue hfirst hgood =>
  rw [hfirst] at hreplies
  cases hreplies
  cases hdone
 | requested _ _ hnil => rw [hnil] at hreplies; cases hreplies
 | streaming _ _ _ hnil => rw [hnil] at hreplies; cases hreplies
 | inFlight _ _ _ _ hnil => rw [hnil] at hreplies; cases hreplies
 | finishing _ _ _ hnil => rw [hnil] at hreplies; cases hreplies

theorem Call.course {call : Job × Option Result} (hcall : Call job call) (h : Course sha256 d job)
  (halive : call.1.alive = true) (hdone : call.1.hasDone = true) : Course sha256 d call.1 := by
 have hlive := hcall.framed.alive halive
 cases hcall with
 | reply hreplies => exact h.replied hlive hreplies hdone
 | response status contentRange hloader => exact h.responded hloader status contentRange hdone
 | data bytes hloader => exact h.received hloader bytes
 | complete success netError hloader =>
  cases success with
  | false => cases hdone
  | true => exact h.completed (hloader.resolve_right fun hno => by cases hno.1) netError
 | cancel alsoDelete => cases hdone
 | destroy => cases halive

theorem Course.reported (h : Course sha256 d job) {replies : List Reply}
  (hreplies : job.replies = .finished r :: replies) (hsuccess : r.success = true) :
  Good sha256 job.params job.meant r d.final := by
 cases h with
 | finished r' _ _ hfirst hgood =>
  rw [hfirst] at hreplies
  cases hreplies
  exact hgood hsuccess
 | opened _ _ _ hother => rw [hother] at hreplies; cases hreplies
 | answered _ _ _ hother => rw [hother] at hreplies; cases hreplies
 | requested _ _ hnil => rw [hnil] at hreplies; cases hreplies
 | streaming _ _ _ hnil => rw [hnil] at hreplies; cases hreplies
 | inFlight _ _ _ _ hnil => rw [hnil] at hreplies; cases hreplies
 | finishing _ _ _ hnil => rw [hnil] at hreplies; cases hreplies

theorem Call.reports {call : Job × Option Result} (hcall : Call job call) (hr : call.2 = some r)
  (hsuccess : r.success = true) : call.1.params = job.params ∧ call.1.meant = job.meant := by
 obtain ⟨halive, -, replies, hreplies⟩ := hcall.framed.report r hr hsuccess
 cases hcall with
 | @reply reply replies' hfirst =>
  rw [hfirst] at hreplies
  cases hreplies
  simp only [Job.onReply, halive, if_true]
  exact ⟨rfl, rfl⟩
 | response status contentRange hloader =>
  rw [Job.onResponseStarted] at hr
  dsimp only at hr
  split at hr
  · cases hr
  · cases hr
  · rw [failed_report hr] at hsuccess
    cases hsuccess
 | data bytes => cases hr
 | complete success netError =>
  cases success with
  | true => cases hr
  | false =>
   rw [Job.onComplete, if_neg Bool.false_ne_true] at hr
   rw [failed_report hr] at hsuccess
   cases hsuccess
 | cancel => cases hr
 | destroy => cases hr

/-! ## Histories -/

def Reply.isSuccess : Reply → Bool
 | .finished r => r.success
 | _ => false

/-- Once a job's `Open` has run no task of an earlier job runs and no success of one is reported, and
the truncation of a restart takes place. -/
def Ordered (s : State) : Event → Prop
 | .runTask j io => ∀ job ∈ s.jobs[j]?, ∀ task ∈ job.queue.head?, task = .openPartial ∨
   (s.opened = some j ∧ (task = .truncate → job.restarted = true → io.lengthSet = true))
 | .reply j => ∀ job ∈ s.jobs[j]?, ∀ reply ∈ job.replies.head?, reply.isSuccess = true → s.opened = some j
 | _ => True

instance (s : State) (e : Event) : Decidable (Ordered s e) := by
 cases e <;> unfold Ordered <;> infer_instance

/-- The file at the final path stays, unless a job moves a file in that checked out or a cancelled
one deletes it by name. -/
def LeavesFinal (sha256 : Bytes → Bytes) (s : State) (e : Event) : Prop :=
 (step sha256 s e).disk.final = s.disk.final ∨ ∃ j io job, e = .runTask j io ∧ s.jobs[j]? = some job ∧
  ((job.queue.head? = some .finish ∧ (finish io s.disk job.writer sha256 job.params).1.success = true) ∨
   ∃ alsoDelete, job.queue.head? = some (.discard alsoDelete) ∧ .finalFile ∈ alsoDelete)

structure Kept (sha256 : Bytes → Bytes) (s : State) : Prop where
 disk : s.disk.Sound
 started : ∀ j, s.opened = some j → j < s.jobs.length
 queues : ∀ (j : ℕ) (job : Job), s.jobs[j]? = some job → .openPartial ∉ job.queue ∨ Unopened job
 file : ∀ (j : ℕ) (job : Job), s.opened = some j → s.jobs[j]? = some job → Holds s.disk job.writer
 course : ∀ (j : ℕ) (job : Job), s.opened = some j → s.jobs[j]? = some job → job.alive = true → job.hasDone = true →
  Course sha256 s.disk job
 reports : ∀ rep ∈ s.reports, rep.result.success = true →
  Good sha256 rep.job.params rep.job.meant rep.result rep.final

variable {j : ℕ}

theorem get_set {jobs : List Job} {k : ℕ} {job found : Job} (h : (jobs.set j job)[k]? = some found) :
  (k = j ∧ found = job) ∨ (k ≠ j ∧ jobs[k]? = some found) := by
 rw [getElem?_set] at h
 split at h
 · next heq =>
   split at h
   · injection h with h
     exact .inl ⟨heq.symm, h.symm⟩
   · cases h
 · next hne => exact .inr ⟨fun heq => hne heq.symm, h⟩

theorem length_put (s : State) (j : ℕ) (job : Job) : (s.put j job).jobs.length = s.jobs.length := List.length_set

theorem runTask_holds (h : Holds d job.writer) {task : Task} (htask : task ≠ .openPartial) :
  Holds (Job.runTask sha256 io d job task).1 (Job.runTask sha256 io d job task).2.writer ∧
   ((Job.runTask sha256 io d job task).1.final = d.final ∨
    (task = .finish ∧ (finish io d job.writer sha256 job.params).1.success = true) ∨
    ∃ alsoDelete, task = .discard alsoDelete ∧ .finalFile ∈ alsoDelete) := by
 cases task with
 | openPartial => exact absurd rfl htask
 | truncate =>
  obtain ⟨hholds, hfinal⟩ := h.truncate io
  exact ⟨hholds, .inl hfinal⟩
 | append data =>
  obtain ⟨hholds, hfinal⟩ := h.append io data
  exact ⟨hholds, .inl hfinal⟩
 | finish =>
  obtain ⟨hholds, hfinal⟩ := h.finish sha256 io job.params
  refine ⟨hholds, ?_⟩
  cases hsuccess : (finish io d job.writer sha256 job.params).1.success with
  | false => exact .inl (hfinal hsuccess)
  | true => exact .inr (.inl ⟨rfl, rfl⟩)
 | discard alsoDelete =>
  obtain ⟨hholds, hfinal⟩ := h.discard io alsoDelete
  refine ⟨hholds, ?_⟩
  by_cases hmem : .finalFile ∈ alsoDelete
  · exact .inr (.inr ⟨alsoDelete, rfl, hmem⟩)
  · exact .inl (hfinal hmem)

theorem runTask_frame (sha256 : Bytes → Bytes) (io : IoAnswers) (d : Disk) (job : Job) (task : Task) :
  (Job.runTask sha256 io d job task).2.alive = job.alive ∧
   (Job.runTask sha256 io d job task).2.hasDone = job.hasDone ∧
   (Job.runTask sha256 io d job task).2.queue = job.queue := by
 cases task <;> exact ⟨rfl, rfl, rfl⟩

variable {s : State}

theorem Kept.runLater (h : Kept sha256 s) (hj : s.jobs[j]? = some job) (hopened : s.opened = some j)
  {task : Task} {queue : List Task} (hqueue : job.queue = task :: queue) (htask : task ≠ .openPartial)
  (hset : task = .truncate → job.restarted = true → io.lengthSet = true) :
  Kept sha256 (s.run sha256 j job io) := by
 have hholds := (@runTask_holds sha256 io s.disk { job with queue := queue } (h.file j job hopened hj) task htask).1
 obtain ⟨halive, hdone, hrest⟩ := runTask_frame sha256 io s.disk { job with queue := queue } task
 have hrun : s.run sha256 j job io =
   { s.put j (Job.runTask sha256 io s.disk { job with queue := queue } task).2 with
     disk := (Job.runTask sha256 io s.disk { job with queue := queue } task).1 } := by
  rw [State.run, hqueue]
  dsimp only
  rw [if_neg htask]
  rfl
 rw [hrun]
 refine ⟨hholds.sound, fun k hk => (h.started k hk).trans_eq (length_put s j _).symm, fun k job' hk => ?_,
  fun k job' hk hjob => ?_, fun k job' hk hjob hal hdo => ?_, h.reports⟩
 · rcases get_set hk with ⟨-, rfl⟩ | ⟨-, hother⟩
   · left
     rw [hrest]
     intro hmem
     rcases h.queues j job hj with hnot | hunopened
     · exact hnot (hqueue ▸ mem_cons_of_mem task hmem)
     · obtain ⟨queue', hqueue', -⟩ := hunopened.queue
       rw [hqueue] at hqueue'
       exact htask (List.cons.inj hqueue').1
   · exact h.queues k job' hother
 · have heq : k = j := Option.some.inj (hk.symm.trans hopened)
   subst heq
   rcases get_set hjob with ⟨-, rfl⟩ | ⟨hne, -⟩
   · exact hholds
   · exact absurd rfl hne
 · have heq : k = j := Option.some.inj (hk.symm.trans hopened)
   subst heq
   rcases get_set hjob with ⟨-, rfl⟩ | ⟨hne, -⟩
   · exact (h.course k job hopened hj (halive.symm.trans hal) (hdone.symm.trans hdo)).run
      (h.file k job hopened hj) hqueue hset
   · exact absurd rfl hne

theorem Kept.runOpen (h : Kept sha256 s) {j : ℕ} (hj : s.jobs[j]? = some job) {queue : List Task}
  (hqueue : job.queue = .openPartial :: queue) :
  Kept sha256 (s.run sha256 j job io) ∧ (s.run sha256 j job io).disk.final = s.disk.final := by
 have hunopened : Unopened job := (h.queues j job hj).resolve_left fun hnot => hnot (hqueue ▸ mem_cons_self ..)
 obtain ⟨queue', hqueue', hnot, -⟩ := hunopened.queue
 obtain ⟨-, rfl⟩ := List.cons.inj (hqueue.symm.trans hqueue')
 have hfile : job.writer.file = none := by rw [hunopened.writer]
 obtain ⟨hholds, hfinal⟩ := h.disk.openPartial io hfile job.params.expectedSize
 have hrun : s.run sha256 j job io =
   { s.put j (Job.runTask sha256 io s.disk { job with queue := queue } .openPartial).2 with
     disk := (Job.runTask sha256 io s.disk { job with queue := queue } .openPartial).1
     opened := some j } := by
  rw [State.run, hqueue]
  rfl
 rw [hrun]
 refine ⟨⟨hholds.sound, fun k hk => ?_, fun k job' hk => ?_, fun k job' hk hjob => ?_, fun k job' hk hjob hal hdo => ?_,
  h.reports⟩, hfinal⟩
 · rw [← Option.some.inj hk]
   exact (List.getElem?_eq_some_iff.1 hj).1.trans_eq (length_put s j _).symm
 · rcases get_set hk with ⟨-, rfl⟩ | ⟨-, hother⟩
   · exact .inl hnot
   · exact h.queues k job' hother
 · rcases get_set hjob with ⟨-, rfl⟩ | ⟨hne, -⟩
   · exact hholds
   · exact absurd (Option.some.inj hk).symm hne
 · rcases get_set hjob with ⟨-, rfl⟩ | ⟨hne, -⟩
   · have hcourse := @Unopened.run sha256 io s.disk job hunopened h.disk hdo
     rw [hqueue] at hcourse
     exact hcourse
   · exact absurd (Option.some.inj hk).symm hne

theorem Kept.after (h : Kept sha256 s) (hj : s.jobs[j]? = some job) {call : Job × Option Result}
  (hcall : Call job call)
  (hsuccess : ∀ r, call.2 = some r → r.success = true → s.opened = some j) : Kept sha256 (s.after j call) := by
 have hframed := hcall.framed
 obtain ⟨tasks, htasks, hnot⟩ := hframed.queue
 refine ⟨h.disk, fun k hk => (h.started k hk).trans_eq (length_put s j call.1).symm, fun k job' hk => ?_, fun k job' hk hjob => ?_, fun k job' hk hjob hal hdo => ?_,
  fun rep hrep hok => ?_⟩
 · rcases get_set hk with ⟨-, rfl⟩ | ⟨-, hother⟩
   · rcases h.queues j job hj with hfree | hunopened
     · left
       rw [htasks, mem_append, not_or]
       exact ⟨hfree, hnot⟩
     · -- Before its `Open` a job can only be cancelled or destroyed.
       right
       obtain ⟨queue, hqueue, hqnot, hempty⟩ := hunopened.queue
       cases hcall with
       | reply hreplies =>
        rw [hunopened.replies] at hreplies
        cases hreplies
       | response status contentRange hloader =>
        rw [hunopened.loader] at hloader
        cases hloader
       | data bytes hloader =>
        rw [hunopened.loader] at hloader
        cases hloader
       | complete success netError hloader =>
        rw [hunopened.loader] at hloader
        rcases hloader with hno | ⟨-, hno⟩
        · cases hno
        · exact absurd rfl hno
       | cancel alsoDelete =>
        refine ⟨⟨queue ++ [.discard alsoDelete], ?_, ?_, fun hno => by cases hno⟩, rfl, hunopened.replies,
         hunopened.writer, hunopened.body, hunopened.restarted⟩
        · change job.queue ++ [.discard alsoDelete] = _
          rw [hqueue]
          rfl
        · simp [hqnot]
       | destroy =>
        exact ⟨⟨queue, hqueue, hqnot, hempty⟩, rfl, hunopened.replies, hunopened.writer, hunopened.body,
         hunopened.restarted⟩
   · exact h.queues k job' hother
 · rcases get_set hjob with ⟨rfl, rfl⟩ | ⟨-, hother⟩
   · rw [hframed.writer]
     exact h.file k job hk hj
   · exact h.file k job' hk hother
 · rcases get_set hjob with ⟨rfl, rfl⟩ | ⟨-, hother⟩
   · exact hcall.course (h.course k job hk hj (hframed.alive hal) (hframed.hasDone hdo)) hal hdo
   · exact h.course k job' hk hother hal hdo
 · rcases mem_append.1 hrep with hold | hnew
   · exact h.reports rep hold hok
   · cases hr : call.2 with
     | none =>
      rw [hr] at hnew
      cases hnew
     | some r =>
      rw [hr] at hnew
      obtain rfl := mem_singleton.1 hnew
      obtain ⟨halive, hdone, replies, hreplies⟩ := hframed.report r hr hok
      obtain ⟨hparams, hmeant⟩ := hcall.reports hr hok
      dsimp only
      rw [hparams, hmeant]
      exact (h.course j job (hsuccess r hr hok) hj halive hdone).reported hreplies hok

theorem after_none (s : State) (j : ℕ) (job : Job) : s.after j (job, none) = s.put j job := by
 simp only [State.after, Option.map_none, Option.toList_none, append_nil, State.put]

theorem act_call (sha256 : Bytes → Bytes) (s : State) {job : Job} (e : Event) (hrun : ∀ k io, e ≠ .runTask k io) :
  s.act sha256 j job e = s ∨ ∃ call, Call job call ∧ s.act sha256 j job e = s.after j call ∧
   ((∀ k, e ≠ .reply k) → ∀ r, call.2 = some r → r.success = false) := by
 cases e with
 | start params => exact .inl rfl
 | runTask k io => exact absurd rfl (hrun k io)
 | reply k =>
  cases hreplies : job.replies with
  | nil =>
   left
   simp only [State.act, hreplies]
  | cons reply replies =>
   refine .inr ⟨_, .reply hreplies, ?_, fun hno => absurd rfl (hno k)⟩
   simp only [State.act, hreplies]
 | response k status contentRange =>
  rw [State.act]
  split
  · next hloader =>
    refine .inr ⟨_, .response status contentRange hloader, rfl, fun _ r hr => ?_⟩
    rw [Job.onResponseStarted] at hr
    dsimp only at hr
    split at hr
    · cases hr
    · cases hr
    · exact failed_report hr
  · exact .inl rfl
 | data k bytes =>
  rw [State.act]
  split
  · next hloader => exact .inr ⟨_, .data bytes hloader, (after_none s j _).symm, fun _ r hr => by cases hr⟩
  · exact .inl rfl
 | complete k success netError =>
  rw [State.act]
  split
  · next hloader =>
    refine .inr ⟨_, .complete success netError hloader, rfl, fun _ r hr => ?_⟩
    rw [Job.onComplete] at hr
    cases success with
    | true => cases hr
    | false => exact failed_report hr
  · exact .inl rfl
 | cancel k alsoDelete =>
  rw [State.act]
  split
  · exact .inr ⟨_, .cancel alsoDelete, (after_none s j _).symm, fun _ r hr => by cases hr⟩
  · exact .inl rfl
 | destroy k => exact .inr ⟨_, .destroy, (after_none s j _).symm, fun _ r hr => by cases hr⟩

theorem Kept.start (h : Kept sha256 s) (params : Params) :
  Kept sha256 { s with jobs := s.jobs ++ [{ params := params }] } := by
 have hold : ∀ {k : ℕ} {job : Job}, (s.jobs ++ [{ params := params }])[k]? = some job → k < s.jobs.length →
   s.jobs[k]? = some job := fun hk hlt => by rwa [getElem?_append_left hlt] at hk
 refine ⟨h.disk, fun k hk => ?_, fun k job hk => ?_, fun k job hk hjob => h.file k job hk (hold hjob (h.started k hk)),
  fun k job hk hjob => h.course k job hk (hold hjob (h.started k hk)), h.reports⟩
 · have := h.started k hk
   rw [length_append]
   omega
 · rcases Nat.lt_or_ge k s.jobs.length with hlt | hge
   · exact h.queues k job (hold hk hlt)
   · rw [getElem?_append_right hge] at hk
     rw [mem_singleton.1 (mem_of_getElem? hk)]
     exact .inr ⟨⟨[], rfl, not_mem_nil, fun _ => rfl⟩, rfl, rfl, rfl, rfl, rfl⟩

theorem step_job {j : ℕ} (hj : s.jobs[j]? = some job) {e : Event} (hjob : e.job = j) (hstart : ∀ p, e ≠ .start p) :
  step sha256 s e = s.act sha256 j job e := by
 subst hjob
 cases e with
 | start params => exact absurd rfl (hstart params)
 | _ => simp only [step, hj]

theorem step_no_job {e : Event} (hj : s.jobs[e.job]? = none) (hstart : ∀ p, e ≠ .start p) : step sha256 s e = s := by
 cases e with
 | start params => exact absurd rfl (hstart params)
 | _ => simp only [step, hj]

theorem Kept.step (h : Kept sha256 s) (e : Event) (hordered : Ordered s e) :
  Kept sha256 (step sha256 s e) ∧ LeavesFinal sha256 s e := by
 by_cases hstart : ∃ params, e = .start params
 · obtain ⟨params, rfl⟩ := hstart
   exact ⟨h.start params, .inl rfl⟩
 have hstart : ∀ params, e ≠ .start params := fun params heq => hstart ⟨params, heq⟩
 cases hj : s.jobs[e.job]? with
 | none =>
  have hsame := @step_no_job sha256 s e hj hstart
  rw [LeavesFinal, hsame]
  exact ⟨h, .inl rfl⟩
 | some job =>
  have hstep := @step_job sha256 job s e.job hj e rfl hstart
  by_cases hrun : ∃ j io, e = .runTask j io
  · obtain ⟨j, io, rfl⟩ := hrun
    rw [LeavesFinal, hstep]
    change s.jobs[j]? = some job at hj
    change Kept sha256 (s.run sha256 j job io) ∧ ((s.run sha256 j job io).disk.final = s.disk.final ∨ _)
    cases hqueue : job.queue with
    | nil =>
     have hsame : s.run sha256 j job io = s := by
      rw [State.run, hqueue]
     rw [hsame]
     exact ⟨h, .inl rfl⟩
    | cons task queue =>
     by_cases htask : task = .openPartial
     · subst htask
       obtain ⟨hkept, hfinal⟩ := @Kept.runOpen sha256 io job s h j hj queue hqueue
       exact ⟨hkept, .inl hfinal⟩
     · have hhead : task ∈ job.queue.head? := by
        rw [hqueue]
        exact rfl
       obtain ⟨hopened, hset⟩ := (hordered job hj task hhead).resolve_left htask
       refine ⟨h.runLater hj hopened hqueue htask hset, ?_⟩
       have hdisk : (s.run sha256 j job io).disk =
         (Job.runTask sha256 io s.disk { job with queue := queue } task).1 := by
        rw [State.run, hqueue]
       have hholds := @runTask_holds sha256 io s.disk { job with queue := queue } (h.file j job hopened hj) task htask
       rw [hdisk]
       rcases hholds.2 with hsame | ⟨rfl, hsuccess⟩ | ⟨alsoDelete, rfl, hmem⟩
       · exact .inl hsame
       · exact .inr ⟨j, io, job, rfl, hj, .inl ⟨by rw [hqueue]; rfl, hsuccess⟩⟩
       · exact .inr ⟨j, io, job, rfl, hj, .inr ⟨alsoDelete, by rw [hqueue]; rfl, hmem⟩⟩
  · have hrun : ∀ j io, e ≠ .runTask j io := fun j io heq => hrun ⟨j, io, heq⟩
    rw [LeavesFinal, hstep]
    rcases act_call sha256 s e hrun with hsame | ⟨call, hcall, heq, hsilent⟩
    · rw [hsame]
      exact ⟨h, .inl rfl⟩
    · rw [heq]
      refine ⟨h.after hj hcall fun r hr hok => ?_, .inl rfl⟩
      by_cases hreply : ∃ k, e = .reply k
      · obtain ⟨k, rfl⟩ := hreply
        obtain ⟨-, -, replies, hreplies⟩ := hcall.framed.report r hr hok
        exact hordered job hj (.finished r) (by rw [hreplies]; rfl) hok
      · rw [hsilent (fun k heq => hreply ⟨k, heq⟩) r hr] at hok
        cases hok

/-- The disk before the first job: a leftover .partial file and a file at the final path, or none. -/
def Disk.initial (leftover final : Option Bytes) : Disk where
 contents := [leftover.getD [], final.getD []]
 partialFile := leftover.map fun _ => 0
 finalFile := final.map fun _ => 1

theorem Kept.initial (sha256 : Bytes → Bytes) (leftover final : Option Bytes) :
  Kept sha256 { disk := .initial leftover final } where
 disk := by
  refine ⟨fun i hi => ?_, fun i hi => ?_, fun i hi hf => ?_⟩
  · obtain ⟨_, -, rfl⟩ := Option.map_eq_some_iff.1 hi
    exact Nat.zero_lt_two
  · obtain ⟨_, -, rfl⟩ := Option.map_eq_some_iff.1 hi
    exact Nat.one_lt_two
  · obtain ⟨_, -, rfl⟩ := Option.map_eq_some_iff.1 hi
    obtain ⟨_, -, hf⟩ := Option.map_eq_some_iff.1 hf
    cases hf
 started j hj := by cases hj
 queues j job hj := by cases hj
 file j job hj := by cases hj
 course j job hj := by cases hj
 reports rep hrep := by cases hrep

def digest (_ : Bytes) : Bytes := "039058c6f2c0cb492c533b0a4d14ef77cc0f78abccced5287d84a1a2011cfb81"

def resumed : List Event :=
 [.start {}, .runTask 0 {}, .reply 0, .response 0 206 (some 2), .data 0 [3], .runTask 0 {}, .reply 0,
  .complete 0 true 0, .runTask 0 {}, .reply 0]

def untruncated : List Event :=
 [.start {}, .runTask 0 {}, .reply 0, .response 0 200 none, .runTask 0 { lengthSet := false }, .data 0 [3],
  .runTask 0 {}, .reply 0, .complete 0 true 0, .runTask 0 {}, .reply 0]

/-- The first job's truncation runs after the second one opened the file: a file that starts with
zeros is installed as verified. -/
example : (TransitionRuns.run (step digest) { disk := .initial (some [1, 2]) none }
  [.start {}, .runTask 0 {}, .reply 0, .response 0 416 none, .destroy 0, .start { expectedSha256 := digest [1, 2, 3] },
   .runTask 1 {}, .runTask 0 {}, .reply 1, .response 1 206 (some 2), .data 1 [3], .runTask 1 {}, .reply 1,
   .complete 1 true 0, .runTask 1 {}, .reply 1]).reports.map
  (fun rep => (rep.result.success, rep.result.verified, rep.final)) =
   [(false, false, none), (true, true, some [0, 0, 3])] := by decide

end MoltBrowser.ModelDownload
