import MoltBrowser.Bytes

set_option autoImplicit false

/-!
# Downloading a model file (`model_download_job.cc`, `download_policy.cc`)

A job streams a body into the .partial file on a file sequence of its own, hashing as it writes,
and moves the file into place when its size and hash check out. The jobs here are those for one
final path. What the system answers to file operations, what the server sends and when the tasks
and replies run is the environment's. The fields `found`, `body` and `restarted` of a job are what
the property speaks of; no code reads them.
-/
namespace MoltBrowser.ModelDownload

/-! ## Files -/

inductive FileName where
 | partialFile
 | finalFile
 | other
 deriving DecidableEq

/-- File contents by number, and which file each of the two paths names. A file that is open stays
when its path goes. -/
structure Disk where
 contents : List Bytes
 partialFile : Option ℕ := none
 finalFile : Option ℕ := none
 deriving DecidableEq

def Disk.content (d : Disk) (i : ℕ) : Bytes := d.contents[i]?.getD []

def Disk.final (d : Disk) : Option Bytes := d.finalFile.map d.content

def Disk.write (d : Disk) (i : ℕ) (content : Bytes) : Disk := { d with contents := d.contents.set i content }

def Disk.delete (d : Disk) : FileName → Disk
 | .partialFile => { d with partialFile := none }
 | .finalFile => { d with finalFile := none }
 | .other => d

/-- What the system answers to the file operations of one task. -/
structure IoAnswers where
 directoryMade : Bool := true
 opened : Bool := true
 lengthKnown : Bool := true
 /-- The bytes a read at an offset gives. -/
 readAt : ℕ → Option ℕ := fun _ => some (1 <<< 20)
 lengthSet : Bool := true
 /-- The bytes of a write that reach the file, when not all. -/
 stored : Option ℕ := none
 writeFails : Bool := false
 flushed : Bool := true
 deleted : FileName → Bool := fun _ => true
 replaced : Bool := true

def Disk.tryDelete (io : IoAnswers) (d : Disk) (name : FileName) : Disk := if io.deleted name then d.delete name else d

def overwrite (content : Bytes) (offset : ℕ) (data : Bytes) : Bytes :=
 (content ++ List.replicate (offset - content.length) 0).take offset ++ data ++ content.drop (offset + data.length)

/-! ## Decisions -/

inductive ResumeAction where
 | append
 | restart
 | fail
 deriving DecidableEq

def decideResumeAction (requestedOffset : ℕ) (httpStatus rangeFirst : ℤ) : ResumeAction :=
 if httpStatus = 200 then if requestedOffset = 0 then .append else .restart
 else if httpStatus = 206 then
  if rangeFirst = requestedOffset then .append
  else if rangeFirst = 0 then .restart else .fail
 else .fail

inductive VerifyResult where
 | verified
 | unverified
 | sizeMismatch
 | hashMismatch
 deriving DecidableEq

def verifyDownload (actualSha256 : Bytes) (actualSize : ℕ) (expectedSha256 : Bytes) (expectedSize : ℤ) : VerifyResult :=
 if 0 < expectedSize ∧ (actualSize : ℤ) ≠ expectedSize then .sizeMismatch
 else if expectedSha256 = [] then .unverified
 else if actualSha256 = expectedSha256 then .verified else .hashMismatch

/-! ## The writer -/

def kRehashChunk : ℕ := 1 <<< 20

/-- The open file, what was hashed and how many bytes it holds. -/
structure Writer where
 file : Option ℕ := none
 hashed : Bytes := []
 size : ℕ := 0
 deriving DecidableEq

structure Result where
 success : Bool := false
 verified : Bool := false
 sha256 : Bytes := []
 netError : ℤ := 0
 error : Bytes := []
 deriving DecidableEq

structure Params where
 /-- Empty for an entry that isn't pinned. -/
 expectedSha256 : Bytes := []
 /-- Not positive when it isn't known. -/
 expectedSize : ℤ := 0
 deriving DecidableEq

section WriterTasks

variable (io : IoAnswers) (d : Disk) (w : Writer)

def truncate : Bool × Disk × Writer :=
 match w.file with
 | none => (false, d, w)
 | some i => if io.lengthSet then (true, d.write i [], { w with hashed := [], size := 0 }) else (false, d, w)

/-- Hashes the file from `off` on, at most a chunk at a time, until a read gives nothing; `fuel` is
at least what is left. -/
def rehash (content : Bytes) : ℕ → ℕ → Bytes → Bytes × Bool
 | 0, _, hashed => (hashed, true)
 | fuel + 1, off, hashed =>
  if off < content.length then
   match io.readAt off with
   | none => (hashed, false)
   | some n =>
    let n := min n (min kRehashChunk (content.length - off))
    if n = 0 then (hashed, false)
    else rehash content fuel (off + n) (hashed ++ (content.drop off).take n)
  else (hashed, true)

def Disk.openAlways : ℕ × Disk :=
 match d.partialFile with
 | some i => (i, d)
 | none => (d.contents.length, { d with contents := d.contents ++ [[]], partialFile := some d.contents.length })

/-- `Open` starts clean: `Truncate() ? 0 : -1`. -/
def startClean : Option ℕ × Disk × Writer :=
 let t := truncate io d w
 (if t.1 then some 0 else none, t.2)

def openPartial (expectedSize : ℤ) : Option ℕ × Disk × Writer :=
 if !io.directoryMade then (none, d, w)
 else if !io.opened then (none, d, { w with file := none })
 else
  let i := d.openAlways.1
  let d := d.openAlways.2
  let w := { w with file := some i }
  let len := (d.content i).length
  if !io.lengthKnown then (none, d, w)
  else if 0 < expectedSize ∧ expectedSize ≤ len then startClean io d w
  else
   let h := rehash io (d.content i) len 0 w.hashed
   if h.2 then (some len, d, { w with hashed := h.1, size := len })
   else startClean io d { w with hashed := h.1 }

def append (data : Bytes) : Bool × Disk × Writer :=
 match w.file with
 | none => (false, d, w)
 | some i =>
  let n := min (io.stored.getD data.length) data.length
  let d := d.write i (overwrite (d.content i) w.size (data.take n))
  if io.writeFails ∨ n ≠ data.length then (false, d, w)
  else (true, d, { w with hashed := w.hashed ++ data, size := w.size + n })

def discard (alsoDelete : List FileName) : Disk × Writer :=
 (alsoDelete.foldl (Disk.tryDelete io) (d.tryDelete io .partialFile), { w with file := none })

def moveIntoPlace (r : Result) : Result × Disk :=
 if io.replaced ∧ d.partialFile.isSome then
  ({ r with success := true }, { d with finalFile := d.partialFile, partialFile := none })
 else ({ r with error := "Couldn't move the downloaded model into place." }, d)

/-- `sha256` is the digest in lowercase hex. -/
def finish (sha256 : Bytes → Bytes) (p : Params) : Result × Disk × Writer :=
 if w.file = none ∨ io.flushed = false then ({ error := "Couldn't finish writing the model file." }, d, w)
 else
  let closed := { w with file := none }
  let r : Result := { sha256 := sha256 w.hashed }
  match verifyDownload r.sha256 w.size p.expectedSha256 p.expectedSize with
  | .sizeMismatch =>
   let error := utf8 "The downloaded file has the wrong size (" ++ utf8 (toString w.size) ++
    utf8 " bytes, expected " ++ utf8 (toString p.expectedSize) ++
    utf8 "). It was discarded — please try again."
   ({ r with error := error }, d.tryDelete io .partialFile, closed)
  | .hashMismatch =>
   let error := utf8 "The downloaded file doesn't match the published checksum, so it was discarded. Please try again; if this keeps happening the file on the server may have changed."
   ({ r with error := error }, d.tryDelete io .partialFile, closed)
  | .verified =>
   let m := moveIntoPlace io d { r with verified := true }
   (m.1, m.2, closed)
  | .unverified =>
   let m := moveIntoPlace io d r
   (m.1, m.2, closed)

end WriterTasks

/-! ## The job -/

inductive Task where
 | openPartial
 | truncate
 | append (data : Bytes)
 | finish
 | discard (alsoDelete : List FileName)
 deriving DecidableEq

inductive Reply where
 | opened (existing : Option ℕ)
 | written (ok : Bool)
 | finished (r : Result)
 deriving DecidableEq

/-- The request: one chunk of the body at most is at the file sequence. -/
inductive Loader where
 | none
 | requested
 | streaming (inFlight : Bool)
 deriving DecidableEq

structure Job where
 params : Params
 alive : Bool := true
 hasDone : Bool := true
 loader : Loader := .none
 requestedOffset : ℕ := 0
 responseOk : Bool := false
 writer : Writer := {}
 queue : List Task := [.openPartial]
 replies : List Reply := []
 found : Bytes := []
 body : Bytes := []
 restarted : Bool := false
 deriving DecidableEq

/-- What a job that succeeds has downloaded: the .partial file it found and the body that goes on
from it, or the body alone. -/
def Job.meant (job : Job) : Bytes :=
 if 0 < job.requestedOffset ∧ job.restarted = false then job.found ++ job.body else job.body

def Job.post (job : Job) (task : Task) : Job := { job with queue := job.queue ++ [task] }

def Job.report (job : Job) (r : Result) : Job × Option Result :=
 ({ job with hasDone := false }, if job.hasDone then some r else none)

def Job.fail (job : Job) (error : Bytes) (netError : ℤ) : Job × Option Result :=
 job.report { error := error, netError := netError }

def Job.cancelAndDiscard (job : Job) (alsoDelete : List FileName) : Job :=
 { job with loader := .none, hasDone := false }.post (.discard alsoDelete)

def Job.destroy (job : Job) : Job := { job with alive := false, loader := .none }

def Job.onPartialOpened (job : Job) (existing : Option ℕ) : Job × Option Result :=
 match existing with
 | none => job.fail "Couldn't write the model file. Check free disk space." 0
 | some n => ({ job with requestedOffset := n, loader := .requested }, none)

def Job.onResponseStarted (job : Job) (status : ℤ) (contentRange : Option ℤ) : Job × Option Result :=
 let rangeFirst := if status = 206 then contentRange.getD (-1) else -1
 match decideResumeAction job.requestedOffset status rangeFirst with
 | .append => ({ job with responseOk := true, loader := .streaming false }, none)
 | .restart =>
  ({ job with responseOk := true, loader := .streaming false, restarted := true }.post .truncate, none)
 | .fail =>
  let job := { job with loader := .none }
  let job := if status = 416 ∨ status = 206 then job.post .truncate else job
  job.fail (utf8 "Download failed (HTTP " ++ utf8 (toString status) ++ utf8 ").") 0

def Job.onDataReceived (job : Job) (data : Bytes) : Job :=
 if job.responseOk then
  { job with loader := .streaming true, body := job.body ++ data }.post (.append data)
 else job

def Job.onChunkWritten (job : Job) (ok : Bool) : Job × Option Result :=
 if ok then
  -- Resuming a loader that is gone does nothing.
  (if job.loader = .streaming true then { job with loader := .streaming false } else job, none)
 else { job with loader := .none }.fail "Couldn't write the model file. Check free disk space." 0

def Job.onComplete (job : Job) (success : Bool) (netError : ℤ) : Job × Option Result :=
 let job := { job with loader := .none }
 if success then (job.post .finish, none)
 else job.fail (utf8 "Download failed (network error " ++ utf8 (toString netError) ++
  utf8 "). It will resume where it stopped.") netError

/-- A reply of the file sequence; those to a job that is gone are dropped. -/
def Job.onReply (job : Job) (reply : Reply) : Job × Option Result :=
 if job.alive then
  match reply with
  | .opened existing => job.onPartialOpened existing
  | .written ok => job.onChunkWritten ok
  | .finished r => job.report r
 else (job, none)

/-! ## Histories -/

/-- A report as it is made, with the file at the final path. -/
structure Report where
 job : Job
 result : Result
 final : Option Bytes
 deriving DecidableEq

/-- `opened` is the job whose `Open` ran last. -/
structure State where
 disk : Disk
 jobs : List Job := []
 opened : Option ℕ := none
 reports : List Report := []
 deriving DecidableEq

inductive Event where
 | start (params : Params)
 | runTask (j : ℕ) (io : IoAnswers)
 | reply (j : ℕ)
 | response (j : ℕ) (status : ℤ) (contentRange : Option ℤ)
 | data (j : ℕ) (bytes : Bytes)
 | complete (j : ℕ) (success : Bool) (netError : ℤ)
 | cancel (j : ℕ) (alsoDelete : List FileName)
 | destroy (j : ℕ)

def Job.runTask (sha256 : Bytes → Bytes) (io : IoAnswers) (d : Disk) (job : Job) : Task → Disk × Job
 | .openPartial =>
  let found := (d.partialFile.map d.content).getD []
  let r := ModelDownload.openPartial io d job.writer job.params.expectedSize
  (r.2.1, { job with writer := r.2.2, replies := job.replies ++ [.opened r.1], found := found })
 | .truncate =>
  let r := ModelDownload.truncate io d job.writer
  (r.2.1, { job with writer := r.2.2 })
 | .append data =>
  let r := ModelDownload.append io d job.writer data
  (r.2.1, { job with writer := r.2.2, replies := job.replies ++ [.written r.1] })
 | .finish =>
  let r := ModelDownload.finish io d job.writer sha256 job.params
  (r.2.1, { job with writer := r.2.2, replies := job.replies ++ [.finished r.1] })
 | .discard alsoDelete =>
  let r := ModelDownload.discard io d job.writer alsoDelete
  (r.1, { job with writer := r.2 })

def State.put (s : State) (j : ℕ) (job : Job) : State := { s with jobs := s.jobs.set j job }

def State.after (s : State) (j : ℕ) (call : Job × Option Result) : State :=
 { s.put j call.1 with reports := s.reports ++ (call.2.map fun r => ⟨call.1, r, s.disk.final⟩).toList }

def State.run (sha256 : Bytes → Bytes) (s : State) (j : ℕ) (job : Job) (io : IoAnswers) : State :=
 match job.queue with
 | [] => s
 | task :: queue =>
  let r := Job.runTask sha256 io s.disk { job with queue := queue } task
  { s.put j r.2 with disk := r.1, opened := if task = .openPartial then some j else s.opened }

/-- What an event does to the job it is for. The loader calls in its order: the response, then
chunks with none at the file sequence, then the end. -/
def State.act (sha256 : Bytes → Bytes) (s : State) (j : ℕ) (job : Job) : Event → State
 | .start _ => s
 | .runTask _ io => s.run sha256 j job io
 | .reply _ =>
  match job.replies with
  | [] => s
  | reply :: replies => s.after j (Job.onReply { job with replies := replies } reply)
 | .response _ status contentRange =>
  if job.loader = .requested then s.after j (job.onResponseStarted status contentRange) else s
 | .data _ bytes => if job.loader = .streaming false then s.put j (job.onDataReceived bytes) else s
 | .complete _ success netError =>
  if job.loader = .streaming false ∨ (success = false ∧ job.loader ≠ .none) then
   s.after j (job.onComplete success netError)
  else s
 | .cancel _ alsoDelete => if job.alive then s.put j (job.cancelAndDiscard alsoDelete) else s
 | .destroy _ => s.put j job.destroy

def Event.job : Event → ℕ
 | .start _ => 0
 | .runTask j _ | .reply j | .response j _ _ | .data j _ | .complete j _ _ | .cancel j _ | .destroy j => j

def step (sha256 : Bytes → Bytes) (s : State) (e : Event) : State :=
 match e with
 | .start params => { s with jobs := s.jobs ++ [{ params := params }] }
 | e =>
  match s.jobs[e.job]? with
  | none => s
  | some job => s.act sha256 e.job job e

end MoltBrowser.ModelDownload
