import MoltBrowser.MemoryIndex

set_option autoImplicit false

/-!
# The backend of the memory

The store's two vector spaces, the calls to the embedders in the background and what their replies change. The index in memory only
follows the store, and isn't part of the state.
-/
namespace MoltBrowser.Memory

inductive EmbedOutcome where
 | ok
 | retryLater
 | failed
 | unavailable
 deriving DecidableEq

structure EmbedBatchResult (F : Type*) where
 outcome : EmbedOutcome := .failed
 vectors : List (List F) := []

structure Embedder (F : Type*) where
 id : ℕ
 /-- The key of its space, `<model>/<dimensions>`. -/
 space : String
 keyed : space ≠ ""
 isSynchronous : Bool
 maxBatchSize : ℕ
 embed : String → List F

/-- A vector that an embedder answered, or the one with all zeros that a chunk gets when it is given up. -/
inductive Vec (F : Type*) where
 | answered (v : List F)
 | zeros

def Vec.size {F : Type*} : Vec F → ℕ
 | answered v => v.length
 | zeros => kEmbeddingDim

/-! ## The store -/

structure ChunkRow (F : Type*) where
 chunkId : ℤ
 docId : ℤ
 text : String
 embedding : Option (Vec F)

structure EmbeddingRow (F : Type*) where
 chunkId : ℤ
 docId : ℤ
 vector : Vec F

structure Storage (F : Type*) where
 committedSpace : String
 /-- The space being built, empty if there is none. -/
 nextSpace : String := ""
 chunks : List (ChunkRow F) := []
 chunkVectorsNext : List (EmbeddingRow F) := []
 /-- Ids are never used again. -/
 lastChunkId : ℤ := 0

/-- How the database behaves in one step: the rows that a read gives before it fails, and whether a transaction is written. -/
structure Sql where
 rows : ℕ
 written : Bool

section Storage

variable {F : Type*}

namespace Storage

def missingNextVector (s : Storage F) (c : ChunkRow F) : Bool := s.chunkVectorsNext.all fun n => n.chunkId != c.chunkId

def pendingChunks (s : Storage F) (sql : Sql) (after : ℤ) (limit : ℕ) : List (ChunkRow F) :=
 ((s.chunks.filter fun c => c.embedding.isNone && decide (after < c.chunkId)).take limit).take sql.rows

def chunksMissingNextVector (s : Storage F) (sql : Sql) (after : ℤ) (limit : ℕ) : List (ChunkRow F) :=
 if s.nextSpace = "" then []
 else ((s.chunks.filter fun c => s.missingNextVector c && decide (after < c.chunkId)).take limit).take sql.rows

def reembedAllAndCommit (s : Storage F) (sql : Sql) (e : Embedder F) : Option (Storage F) :=
 if sql.written then
  some
   { s with
     committedSpace := e.space
     nextSpace := ""
     chunks := s.chunks.map fun c => { c with embedding := some (.answered (e.embed c.text)) }
     chunkVectorsNext := [] }
 else none

def beginMigration (s : Storage F) (sql : Sql) (space : String) : Option (Storage F) :=
 if space = "" then none
 else if s.nextSpace = space then some s
 else if sql.written then some { s with nextSpace := space, chunkVectorsNext := [] }
 else none

def abortMigration (s : Storage F) (sql : Sql) : Storage F :=
 if sql.written then { s with nextSpace := "", chunkVectorsNext := [] } else s

def commitMigration (s : Storage F) (sql : Sql) : Option (Storage F) :=
 if s.nextSpace = "" || s.chunks.any s.missingNextVector || !sql.written then none
 else
  some
   { s with
     committedSpace := s.nextSpace
     nextSpace := ""
     chunks := s.chunks.map fun c =>
      { c with embedding := (s.chunkVectorsNext.find? fun n => n.chunkId == c.chunkId).map EmbeddingRow.vector }
     chunkVectorsNext := [] }

def storeNextVector (s : Storage F) (row : EmbeddingRow F) : Storage F :=
 match s.chunks.find? fun c => c.chunkId == row.chunkId with
 | none => s
 | some c =>
  { s with
    chunkVectorsNext :=
     s.chunkVectorsNext.filter (fun n => n.chunkId != row.chunkId) ++ [{ row with docId := c.docId }] }

def storeNextVectors (s : Storage F) (sql : Sql) (rows : List (EmbeddingRow F)) : Storage F :=
 if s.nextSpace = "" || !rows.all (fun r => r.vector.size == kEmbeddingDim) || !sql.written then s
 else rows.foldl storeNextVector s

def storePendingVector (s : Storage F) (row : EmbeddingRow F) : Storage F :=
 { s with
   chunks := s.chunks.map fun c =>
    if c.chunkId = row.chunkId ∧ c.embedding.isNone then { c with embedding := some row.vector } else c }

def storePendingVectors (s : Storage F) (sql : Sql) (rows : List (EmbeddingRow F)) : Storage F :=
 if !rows.all (fun r => r.vector.size == kEmbeddingDim) || !sql.written then s else rows.foldl storePendingVector s

/-- A page's chunks, with their vectors if an embedder answers at once. -/
def insertChunks (s : Storage F) (sql : Sql) (docId : ℤ) (now : Option (Embedder F)) (texts : List String) : Storage F :=
 if sql.written then
  { s with
    chunks := s.chunks ++ texts.mapIdx fun i text =>
     { chunkId := s.lastChunkId + 1 + i, docId, text, embedding := now.map fun e => .answered (e.embed text) }
    lastChunkId := s.lastChunkId + texts.length }
 else s

def deleteDocuments (s : Storage F) (sql : Sql) (docIds : List ℤ) : Storage F :=
 if sql.written then
  { s with
    chunks := s.chunks.filter fun c => !docIds.contains c.docId
    chunkVectorsNext := s.chunkVectorsNext.filter fun n => !docIds.contains n.docId }
 else s

def clear (s : Storage F) (sql : Sql) : Storage F :=
 if sql.written then { s with chunks := [], chunkVectorsNext := [] } else s

def reopened (s : Storage F) : Storage F :=
 { s with chunkVectorsNext := s.chunkVectorsNext.filter fun n => s.chunks.any fun c => c.chunkId == n.chunkId }

end Storage

end Storage

/-! ## The backend -/

inductive SpaceAction where
 | none
 | abortMigration
 | switchNow
 | migrate
 | continueMigration

def planEmbedderSpace (committedKey nextKey want : String) (desiredIsSynchronous : Bool) : SpaceAction :=
 if committedKey = want then if nextKey = "" then .none else .abortMigration
 else if desiredIsSynchronous then .switchNow
 else if nextKey = want then .continueMigration
 else .migrate

/-- A call in the background, with what its reply is handled by. -/
structure BackgroundCall where
 chunkIds : List ℤ
 docIds : List ℤ
 space : String
 migration : Bool
 deriving DecidableEq

structure Backend (F : Type*) where
 storage : Storage F
 isOpen : Bool := false
 model : Option (Embedder F) := none
 modelKnown : Bool := false
 modelFailed : Bool := false
 backgroundAllowed : Bool := false
 /-- The call that it is busy with. -/
 busy : Option BackgroundCall := none
 pumpScheduled : Bool := false
 pendingCursor : ℤ := 0
 migrationCursor : ℤ := 0
 singleUntil : ℤ := 0
 retryMs : ℤ := 0
 /-- The failed calls with one text, by its chunk. -/
 failures : ℤ → ℕ := fun _ => 0

def kFirstRetryMs : ℤ := 30000
def kMaxRetryMs : ℤ := 600000
def kFailuresToGiveUp : ℕ := 2

inductive Event (F : Type*) where
 | start (opened : Bool) (sql : Sql)
 | setModelEmbedder (e : Option (Embedder F)) (sql : Sql)
 | setBackgroundAllowed (allowed : Bool)
 | pump (sql : Sql)
 | reply (result : EmbedBatchResult F) (sql : Sql)
 | ingest (docId : ℤ) (texts : List String) (sql : Sql)
 | deleteDocuments (docIds : List ℤ) (sql : Sql)
 | clearAll (sql : Sql)
 /-- The browser ends, and another backend comes to the store. -/
 | restart

namespace Backend

variable {F : Type*} (hashing : Embedder F)

def schedulePump (b : Backend F) : Backend F := { b with pumpScheduled := true }

def nextRetryMs (b : Backend F) : ℤ := min kMaxRetryMs (max kFirstRetryMs (b.retryMs * 2))

def committedEmbedder (b : Backend F) : Option (Embedder F) :=
 if b.storage.committedSpace = hashing.space then some hashing
 else b.model.filter fun e => b.storage.committedSpace = e.space

def reconcile (b : Backend F) (sql : Sql) : Backend F :=
 if !b.isOpen || !b.modelKnown then b
 else
  let desired := b.model.getD hashing
  let b :=
   match planEmbedderSpace b.storage.committedSpace b.storage.nextSpace desired.space desired.isSynchronous with
   | .none | .continueMigration => b
   | .abortMigration => { b with storage := b.storage.abortMigration sql, migrationCursor := 0 }
   | .switchNow =>
    match b.storage.reembedAllAndCommit sql desired with
    | some storage => { b with storage, pendingCursor := 0, migrationCursor := 0, singleUntil := 0, failures := fun _ => 0 }
    | none => b
   | .migrate =>
    match b.storage.beginMigration sql desired.space with
    | some storage => { b with storage, migrationCursor := 0, singleUntil := 0, failures := fun _ => 0 }
    | none => b
  b.schedulePump

def start (b : Backend F) (opened : Bool) (sql : Sql) : Backend F :=
 if b.isOpen then reconcile hashing b sql
 else if opened then reconcile hashing { b with isOpen := true, storage := b.storage.reopened } sql
 else b

def modelKey (e : Option (Embedder F)) : String := e.elim "" Embedder.space

def setModelEmbedder (b : Backend F) (e : Option (Embedder F)) (sql : Sql) : Backend F :=
 let changed := decide (modelKey b.model ≠ modelKey e)
 let b := { b with model := e, modelKnown := true }
 reconcile hashing (if changed then { b with modelFailed := false, retryMs := 0 } else b) sql

def setBackgroundAllowed (b : Backend F) (allowed : Bool) : Backend F :=
 let b := { b with backgroundAllowed := allowed }
 if allowed then b.schedulePump else b

def batchSize (b : Backend F) (e : Embedder F) (cursor : ℤ) : ℕ := if cursor < b.singleUntil then 1 else max 1 e.maxBatchSize

def embedInBackground (b : Backend F) (e : Embedder F) (chunks : List (ChunkRow F)) (migration : Bool) : Backend F :=
 { b with busy := some { chunkIds := chunks.map ChunkRow.chunkId, docIds := chunks.map ChunkRow.docId, space := e.space, migration } }

/-- Chunks saved while the committed embedder was busy: the cursor, and what is to be embedded. -/
def pendingWork (b : Backend F) (sql : Sql) : ℤ × Option (Embedder F × List (ChunkRow F)) :=
 match (committedEmbedder hashing b).filter fun e => !e.isSynchronous with
 | none => (b.pendingCursor, none)
 | some e =>
  let chunks := b.storage.pendingChunks sql b.pendingCursor (b.batchSize e b.pendingCursor)
  if chunks.isEmpty && decide (0 < b.pendingCursor) then
   let chunks := b.storage.pendingChunks sql 0 (b.batchSize e 0)
   (0, if chunks.isEmpty then none else some (e, chunks))
  else (b.pendingCursor, if chunks.isEmpty then none else some (e, chunks))

def pumpMigration (b : Backend F) (sql : Sql) : Backend F :=
 match b.model.filter fun e => decide (b.storage.nextSpace ≠ "") && b.storage.nextSpace == e.space with
 | none => b
 | some e =>
  let chunks := b.storage.chunksMissingNextVector sql b.migrationCursor (b.batchSize e b.migrationCursor)
  let again := chunks.isEmpty && decide (0 < b.migrationCursor)
  let cursor := if again then 0 else b.migrationCursor
  let chunks := if again then b.storage.chunksMissingNextVector sql 0 (b.batchSize e 0) else chunks
  let b := { b with migrationCursor := cursor }
  if !chunks.isEmpty then b.embedInBackground e chunks true
  else
   match b.storage.commitMigration sql with
   | some storage => { b with storage, failures := fun _ => 0, singleUntil := 0 }
   | none => { b with retryMs := b.nextRetryMs }.schedulePump

def pump (b : Backend F) (sql : Sql) : Backend F :=
 if !b.isOpen || b.busy.isSome || !b.backgroundAllowed then b
 else
  let work := pendingWork hashing b sql
  let b := { b with pendingCursor := work.1 }
  match work.2 with
  | some (e, chunks) => b.embedInBackground e chunks false
  | none => b.pumpMigration sql

/-- Whether the space is still the same, with the vectors stored if it is. -/
def storeVectors (b : Backend F) (sql : Sql) (rows : List (EmbeddingRow F)) (space : String) (migration : Bool) : Backend F × Bool :=
 if migration then
  if b.storage.nextSpace ≠ space then (b, false) else ({ b with storage := b.storage.storeNextVectors sql rows }, true)
 else if b.storage.committedSpace ≠ space then (b, false)
 else ({ b with storage := b.storage.storePendingVectors sql rows }, true)

def setCursor (b : Backend F) (migration : Bool) (cursor : ℤ) : Backend F :=
 if migration then { b with migrationCursor := cursor } else { b with pendingCursor := cursor }

def wellFormed (call : BackgroundCall) (r : EmbedBatchResult F) : Bool :=
 r.outcome == .ok && r.vectors.length == call.chunkIds.length && r.vectors.all fun v => v.length == kEmbeddingDim

def answeredRows (call : BackgroundCall) (r : EmbedBatchResult F) : List (EmbeddingRow F) :=
 List.zipWith (fun ids v => { chunkId := ids.1, docId := ids.2, vector := .answered v }) (call.chunkIds.zip call.docIds) r.vectors

/-- The vectors are stored, and the chunks' failures forgotten. -/
def onEmbedded (b : Backend F) (call : BackgroundCall) (r : EmbedBatchResult F) (sql : Sql) : Backend F :=
 let b := { b with failures := fun c => if call.chunkIds.contains c then 0 else b.failures c }
 let (b, wanted) := b.storeVectors sql (answeredRows call r) call.space call.migration
 let b := if wanted then b.setCursor call.migration (call.chunkIds.getLastD 0) else b
 { b with retryMs := 0 }.schedulePump

def giveUp (b : Backend F) (call : BackgroundCall) (chunkId docId : ℤ) (sql : Sql) : Backend F :=
 let b := { b with failures := Function.update b.failures chunkId 0 }
 let (b, wanted) := b.storeVectors sql [{ chunkId, docId, vector := .zeros }] call.space call.migration
 (if wanted then b.setCursor call.migration chunkId else b).schedulePump

def retryLater (b : Backend F) : Backend F := { b with retryMs := b.nextRetryMs }.schedulePump

def onFailed (b : Backend F) (call : BackgroundCall) (sql : Sql) : Backend F :=
 match call.chunkIds with
 | [chunkId] =>
  let b := { b with failures := Function.update b.failures chunkId (b.failures chunkId + 1) }
  if kFailuresToGiveUp ≤ b.failures chunkId then b.giveUp call chunkId (call.docIds.headD 0) sql else b.retryLater
 | _ => { b with singleUntil := max b.singleUntil (call.chunkIds.getLastD 0) }.schedulePump

def onUnavailable (b : Backend F) (sql : Sql) : Backend F := reconcile hashing { b with model := none, modelFailed := true } sql

def onBackgroundEmbedded (b : Backend F) (call : BackgroundCall) (r : EmbedBatchResult F) (sql : Sql) : Backend F :=
 let b := { b with busy := none }
 if call.chunkIds.isEmpty then b
 else if wellFormed call r then b.onEmbedded call r sql
 else
  match r.outcome with
  | .unavailable => onUnavailable hashing b sql
  | .failed => b.onFailed call sql
  | _ => b.retryLater

def ingest (b : Backend F) (docId : ℤ) (texts : List String) (sql : Sql) : Backend F :=
 if !b.isOpen then b
 else
  let now := (committedEmbedder hashing b).filter Embedder.isSynchronous
  let b := { b with storage := b.storage.insertChunks sql docId now texts }
  if now.isSome then b else b.schedulePump

def clearAll (b : Backend F) (sql : Sql) : Backend F :=
 let b := { b with pendingCursor := 0, migrationCursor := 0, singleUntil := 0, failures := fun _ => 0 }
 if b.isOpen then { b with storage := b.storage.clear sql } else b

/-- What is posted runs once; where nothing is, nothing happens. -/
def step (b : Backend F) : Event F → Backend F
 | .start opened sql => start hashing b opened sql
 | .setModelEmbedder e sql => setModelEmbedder hashing b e sql
 | .setBackgroundAllowed allowed => b.setBackgroundAllowed allowed
 | .pump sql => if b.pumpScheduled then pump hashing { b with pumpScheduled := false } sql else b
 | .reply r sql =>
  match b.busy with
  | some call => onBackgroundEmbedded hashing b call r sql
  | none => b
 | .ingest docId texts sql => ingest hashing b docId texts sql
 | .deleteDocuments docIds sql => if b.isOpen then { b with storage := b.storage.deleteDocuments sql docIds } else b
 | .clearAll sql => b.clearAll sql
 | .restart => { storage := b.storage }

end Backend

def fresh {F : Type*} (hashing : Embedder F) : Backend F := { storage := { committedSpace := hashing.space } }

end MoltBrowser.Memory
