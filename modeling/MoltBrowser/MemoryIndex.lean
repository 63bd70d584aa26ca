import MoltBrowser.TopScores
import MoltBrowser.PackedRows

set_option autoImplicit false

/-!
# The index of the memory

The newest chunks' embeddings, packed in a ring beside the ids of their chunks and
documents. What it is for: the newest `capacity` entries in order, and the best of them.
-/
namespace MoltBrowser.Memory
open PackedRows TopScores List

def kEmbeddingDim : ℕ := 256

structure MemoryIndex (F : Type*) where
 embeddings : List F := []
 chunkIds : List ℤ := []
 docIds : List ℤ := []
 capacity : ℕ
 head : ℕ := 0
 size : ℕ := 0
 evicted : ℕ := 0

structure QueryHit (S : Type*) where
 chunkId : ℤ
 docId : ℤ
 score : S

section Index

variable {F : Type*}

def create (capacity : ℕ) : MemoryIndex F where
 capacity := max capacity 1

def MemoryIndex.add (m : MemoryIndex F) (chunkId docId : ℤ) (embedding : List F) : MemoryIndex F :=
 if embedding.length ≠ kEmbeddingDim then m
 else if m.size < m.capacity then
  { m with
    embeddings := m.embeddings ++ embedding
    chunkIds := m.chunkIds ++ [chunkId]
    docIds := m.docIds ++ [docId]
    size := m.size + 1 }
 else
  { m with
    embeddings := writeRow kEmbeddingDim m.embeddings m.head embedding
    chunkIds := m.chunkIds.set m.head chunkId
    docIds := m.docIds.set m.head docId
    head := (m.head + 1) % m.capacity
    evicted := m.evicted + 1 }

def MemoryIndex.physicalRow (m : MemoryIndex F) (logical : ℕ) : ℕ := (m.head + logical) % m.capacity

structure Rebuilt (F : Type*) where
 embeddings : List F := []
 chunkIds : List ℤ := []
 docIds : List ℤ := []
 removed : ℕ := 0

def MemoryIndex.keepRow (m : MemoryIndex F) (drop : List ℤ) (b : Rebuilt F) (i : ℕ) : Rebuilt F :=
 let row := m.physicalRow i
 if m.docIds.getD row 0 ∈ drop then { b with removed := b.removed + 1 }
 else
  { b with
    embeddings := b.embeddings ++ PackedRows.row kEmbeddingDim m.embeddings row
    chunkIds := b.chunkIds ++ [m.chunkIds.getD row 0]
    docIds := b.docIds ++ [m.docIds.getD row 0] }

def MemoryIndex.removeDocs (m : MemoryIndex F) (docIds : List ℤ) : MemoryIndex F × ℕ :=
 if docIds = [] ∨ m.size = 0 then (m, 0)
 else
  let b := (List.range m.size).foldl (m.keepRow docIds) {}
  if b.removed = 0 then (m, 0)
  else
   ({ m with
       embeddings := b.embeddings
       chunkIds := b.chunkIds
       docIds := b.docIds
       size := b.chunkIds.length
       head := 0 },
    b.removed)

def MemoryIndex.removeDoc (m : MemoryIndex F) (docId : ℤ) : MemoryIndex F := (m.removeDocs [docId]).1

def MemoryIndex.clear (m : MemoryIndex F) : MemoryIndex F :=
 { m with embeddings := [], chunkIds := [], docIds := [], head := 0, size := 0, evicted := 0 }

def MemoryIndex.chunkIdsOldestFirst (m : MemoryIndex F) : List ℤ :=
 (List.range m.size).map fun i => m.chunkIds.getD (m.physicalRow i) 0

/-- Every physical row scored, the best kept in a heap of scores and rows. -/
def MemoryIndex.query {S : Type*} [LinearOrder S] (alg : HeapAlgorithms (Prod.fst : S × ℕ → S))
  (dot : List F → List F → S) (m : MemoryIndex F) (query : List F) (topK : ℤ) : List (QueryHit S) :=
 if query.length ≠ kEmbeddingDim ∨ topK ≤ 0 ∨ m.size = 0 then []
 else
  (alg.best topK.toNat ((List.range m.size).map fun r =>
   (dot (row kEmbeddingDim m.embeddings r) query, r))).map fun hit =>
    { chunkId := m.chunkIds.getD hit.2 0, docId := m.docIds.getD hit.2 0, score := hit.1 }

inductive Call (F : Type*) where
 | add (chunkId docId : ℤ) (embedding : List F)
 | removeDoc (docId : ℤ)
 | removeDocs (docIds : List ℤ)
 | clear

def MemoryIndex.call (m : MemoryIndex F) : Call F → MemoryIndex F
 | .add chunkId docId embedding => m.add chunkId docId embedding
 | .removeDoc docId => m.removeDoc docId
 | .removeDocs docIds => (m.removeDocs docIds).1
 | .clear => m.clear

end Index

/-! ## The newest entries in order -/

structure Entry (F : Type*) where
 chunkId : ℤ
 docId : ℤ
 embedding : List F

/-- The entries, oldest first, and how many were dropped for want of room. -/
structure Fifo (F : Type*) where
 entries : List (Entry F) := []
 dropped : ℕ := 0

section Fifo

variable {F : Type*}

def Fifo.append (capacity : ℕ) (q : Fifo F) (e : Entry F) : Fifo F :=
 if capacity < (q.entries ++ [e]).length then ⟨(q.entries ++ [e]).tail, q.dropped + 1⟩
 else ⟨q.entries ++ [e], q.dropped⟩

def Fifo.call (capacity : ℕ) (q : Fifo F) : Call F → Fifo F
 | .add chunkId docId embedding =>
  if embedding.length = kEmbeddingDim then q.append capacity ⟨chunkId, docId, embedding⟩ else q
 | .removeDoc docId => { q with entries := q.entries.filter fun e => e.docId ≠ docId }
 | .removeDocs docIds => { q with entries := q.entries.filter fun e => e.docId ∉ docIds }
 | .clear => {}

/-- The physical rows of the ring, turned so that the oldest comes first. -/
structure Holds (m : MemoryIndex F) (q : Fifo F) (rows : List (Entry F)) : Prop where
 chunkIds : m.chunkIds = rows.map Entry.chunkId
 docIds : m.docIds = rows.map Entry.docId
 embeddings : m.embeddings = (rows.map Entry.embedding).flatten
 dim : ∀ e ∈ rows, e.embedding.length = kEmbeddingDim
 size : m.size = rows.length
 room : rows.length ≤ m.capacity
 capacity : 0 < m.capacity
 head : m.head < m.capacity
 unturned : rows.length < m.capacity → m.head = 0
 order : q.entries = rows.rotate m.head
 dropped : q.dropped = m.evicted

theorem create_holds (capacity : ℕ) : Holds (create (F := F) capacity) {} [] where
 chunkIds := rfl
 docIds := rfl
 embeddings := rfl
 dim := by simp
 size := rfl
 room := Nat.zero_le _
 capacity := lt_of_lt_of_le Nat.one_pos (le_max_right _ _)
 head := lt_of_lt_of_le Nat.one_pos (le_max_right _ _)
 unturned _ := rfl
 order := rfl
 dropped := rfl

variable {m : MemoryIndex F} {q : Fifo F} {rows : List (Entry F)}

theorem Holds.dims (h : Holds m q rows) :
  ∀ x ∈ rows.map Entry.embedding, x.length = kEmbeddingDim := by
 intro x hx
 obtain ⟨e, he, rfl⟩ := mem_map.1 hx
 exact h.dim e he

theorem Holds.add (h : Holds m q rows)
  (e : Entry F) (hdim : e.embedding.length = kEmbeddingDim) :
  ∃ rows', Holds (m.add e.chunkId e.docId e.embedding) (q.append m.capacity e) rows' := by
 have hlen : q.entries.length = rows.length := by rw [h.order, length_rotate]
 rw [MemoryIndex.add, if_neg (not_not.2 hdim), Fifo.append, length_append, length_singleton,
  hlen, h.size]
 split_ifs with hroom hfull
 · omega
 · have hhead := h.unturned hroom
   refine ⟨rows ++ [e], ⟨by simp [h.chunkIds], by simp [h.docIds], by simp [h.embeddings], ?_, by simp,
    by simpa using hroom, h.capacity, h.head, fun _ => hhead, ?_, h.dropped⟩⟩
   · intro x hx
     rcases mem_append.1 hx with hx | hx
     · exact h.dim x hx
     · rwa [mem_singleton.1 hx]
   · rw [h.order, hhead, rotate_zero, rotate_zero]
 · have hcap : rows.length = m.capacity := le_antisymm h.room (Nat.le_of_not_lt hroom)
   have hhead : m.head < rows.length := hcap ▸ h.head
   refine ⟨rows.set m.head e, ⟨?_, ?_, ?_, ?_, by simp, by simp [h.room], h.capacity,
    Nat.mod_lt _ h.capacity, ?_, ?_, by simp [h.dropped]⟩⟩
   · rw [h.chunkIds, map_set]
   · rw [h.docIds, map_set]
   · rw [h.embeddings, map_set, writeRow_flatten h.dims (by simpa using hhead)]
   · intro x hx
     rcases mem_or_eq_of_mem_set hx with hx | rfl
     · exact h.dim x hx
     · exact hdim
   · intro hlt
     rw [List.length_set, hcap] at hlt
     exact absurd hlt (lt_irrefl _)
   · have hne : rows.rotate m.head ≠ [] := by
      rw [← length_pos_iff, length_rotate]
      omega
     dsimp only
     rw [h.order, ← hcap, tail_append_of_ne_nil hne, ← rotate_set hhead]
     conv_rhs => rw [← rotate_mod, List.length_set, Nat.mod_mod]
     rw [← rotate_mod, List.length_set]
 · exact absurd (h.room.trans_lt (by omega)) (by omega)

theorem append_call (h : Holds m q rows)
  (chunkId docId : ℤ) (embedding : List F) :
  ∃ rows', Holds (m.add chunkId docId embedding)
   (q.call m.capacity (.add chunkId docId embedding)) rows' := by
 rw [Fifo.call]
 split_ifs with hdim
 · exact h.add ⟨chunkId, docId, embedding⟩ hdim
 · rw [MemoryIndex.add, if_pos hdim]
   exact ⟨rows, h⟩

/-! ## The rows in order -/

def MemoryIndex.rowEntry (m : MemoryIndex F) (r : ℕ) : Entry F where
 chunkId := m.chunkIds.getD r 0
 docId := m.docIds.getD r 0
 embedding := row kEmbeddingDim m.embeddings r

def MemoryIndex.entriesOldestFirst (m : MemoryIndex F) : List (Entry F) :=
 (List.range m.size).map fun i => m.rowEntry (m.physicalRow i)

theorem Holds.rowEntry (h : Holds m q rows)
  {r : ℕ} (hr : r < rows.length) : m.rowEntry r = rows[r] := by
 rw [MemoryIndex.rowEntry, h.chunkIds, h.docIds, h.embeddings, getD_eq_getElem _ _ (by simpa using hr),
  getD_eq_getElem _ _ (by simpa using hr), row_flatten h.dims (by simpa using hr)]
 simp

theorem Holds.rowEntries (h : Holds m q rows) :
  (List.range m.size).map m.rowEntry = rows := by
 rw [h.size]
 refine ext_getElem (by simp) fun i _ hi => ?_
 rw [getElem_map, getElem_range, h.rowEntry hi]

theorem Holds.oldestFirst (h : Holds m q rows) :
  m.entriesOldestFirst = q.entries := by
 rw [MemoryIndex.entriesOldestFirst, h.order, h.size]
 refine ext_getElem (by simp) fun i hi _ => ?_
 rw [length_map, length_range] at hi
 have hrow : m.physicalRow i = (i + m.head) % rows.length := by
  rw [MemoryIndex.physicalRow, Nat.add_comm]
  rcases h.room.lt_or_eq with hlt | heq
  · rw [h.unturned hlt, Nat.mod_eq_of_lt (by omega), Nat.mod_eq_of_lt (by omega)]
  · rw [heq]
 have hlt : m.physicalRow i < rows.length := hrow ▸ Nat.mod_lt _ (by omega)
 rw [getElem_map, getElem_range, getElem_rotate, h.rowEntry hlt]
 simp only [hrow]

/-! ## Removing -/

theorem keepRows_spec (m : MemoryIndex F) (drop : List ℤ) (is : List ℕ) (b : Rebuilt F) :
  is.foldl (m.keepRow drop) b =
   { embeddings := b.embeddings ++ (((is.map fun i => m.rowEntry (m.physicalRow i)).filter
      fun e => e.docId ∉ drop).map Entry.embedding).flatten
     chunkIds := b.chunkIds ++ ((is.map fun i => m.rowEntry (m.physicalRow i)).filter
      fun e => e.docId ∉ drop).map Entry.chunkId
     docIds := b.docIds ++ ((is.map fun i => m.rowEntry (m.physicalRow i)).filter
      fun e => e.docId ∉ drop).map Entry.docId
     removed := b.removed + ((is.map fun i => m.rowEntry (m.physicalRow i)).filter
      fun e => e.docId ∈ drop).length } := by
 induction is generalizing b with
 | nil => simp
 | cons i is ih =>
  rw [foldl_cons, ih]
  have hdoc : (m.rowEntry (m.physicalRow i)).docId = m.docIds.getD (m.physicalRow i) 0 := rfl
  by_cases hd : m.docIds.getD (m.physicalRow i) 0 ∈ drop
  · simp only [MemoryIndex.keepRow, map_cons, filter_cons, hdoc, hd, not_true,
     decide_true, decide_false, if_true, length_cons, Bool.false_eq_true, if_false]
    congr 1
    omega
  · simp only [MemoryIndex.keepRow, map_cons, filter_cons, hdoc, hd, not_false_eq_true,
     decide_true, decide_false, if_true, flatten_cons, Bool.false_eq_true, if_false,
     append_assoc, singleton_append]
    rfl

theorem Holds.removeDocs (h : Holds m q rows)
  (docIds : List ℤ) :
  ∃ rows', Holds (m.removeDocs docIds).1
   { q with entries := q.entries.filter fun e => e.docId ∉ docIds } rows' := by
 have hkeep := keepRows_spec m docIds (List.range m.size) {}
 have hold : (List.range m.size).map (fun i => m.rowEntry (m.physicalRow i)) = q.entries := h.oldestFirst
 rw [hold] at hkeep
 have hunchanged : (q.entries.filter fun e => e.docId ∉ docIds) = q.entries →
   Holds m { q with entries := q.entries.filter fun e => e.docId ∉ docIds } rows := by
  intro heq
  exact { h with order := heq.trans h.order }
 rw [MemoryIndex.removeDocs]
 split_ifs with hnone
 · refine ⟨rows, hunchanged ?_⟩
   rcases hnone with rfl | hsize
   · simp
   · have hempty : q.entries = [] := by
      rw [← length_eq_zero_iff, h.order, length_rotate, ← h.size]
      exact hsize
     rw [hempty, filter_nil]
 · dsimp only
   rw [hkeep]
   split_ifs with hzero
   · refine ⟨rows, hunchanged (filter_eq_self.2 fun e he => ?_)⟩
     simp only [Nat.zero_add, length_eq_zero_iff, filter_eq_nil_iff] at hzero
     simpa using hzero e he
   · have hmem : ∀ e ∈ q.entries, e.embedding.length = kEmbeddingDim := by
      intro e he
      rw [h.order] at he
      exact h.dim e (mem_rotate.1 he)
     refine ⟨q.entries.filter fun e => e.docId ∉ docIds, ⟨rfl, rfl, rfl, fun e he => ?_, by simp, ?_, h.capacity,
      h.capacity, fun _ => rfl, by simp, h.dropped⟩⟩
     · exact hmem e (mem_of_mem_filter he)
     · refine (length_filter_le _ _).trans ?_
       rw [h.order, length_rotate]
       exact h.room

theorem Holds.call (h : Holds m q rows) (c : Call F) :
  ∃ rows', Holds (m.call c) (q.call m.capacity c) rows' := by
 cases c with
 | add chunkId docId embedding => exact append_call h chunkId docId embedding
 | removeDoc docId =>
  obtain ⟨rows', h'⟩ := h.removeDocs [docId]
  exact ⟨rows', by simpa [Fifo.call, MemoryIndex.call, MemoryIndex.removeDoc] using h'⟩
 | removeDocs docIds => exact h.removeDocs docIds
 | clear =>
  exact ⟨[], ⟨rfl, rfl, rfl, by simp, rfl, Nat.zero_le _, h.capacity, h.capacity, fun _ => rfl, rfl, rfl⟩⟩

theorem call_capacity (m : MemoryIndex F) (c : Call F) : (m.call c).capacity = m.capacity := by
 have hdocs : ∀ docIds, (m.removeDocs docIds).1.capacity = m.capacity := by
  intro docIds
  rw [MemoryIndex.removeDocs]
  split_ifs
  · rfl
  · dsimp only
    split_ifs <;> rfl
 cases c with
 | add chunkId docId embedding =>
  rw [MemoryIndex.call, MemoryIndex.add]
  split_ifs <;> rfl
 | removeDoc docId => exact hdocs [docId]
 | removeDocs docIds => exact hdocs docIds
 | clear => rfl

theorem Holds.run (h : Holds m q rows)
  (calls : List (Call F)) :
  ∃ rows', Holds (calls.foldl MemoryIndex.call m) (calls.foldl (Fifo.call m.capacity) q) rows' := by
 induction calls generalizing m q rows with
 | nil => exact ⟨rows, h⟩
 | cons c calls ih =>
  obtain ⟨rows', h'⟩ := h.call c
  have hrest := ih h'
  rwa [call_capacity] at hrest

/-! ## Searching -/

def hitOf {S : Type*} (dot : List F → List F → S) (query : List F) (e : Entry F) : QueryHit S where
 chunkId := e.chunkId
 docId := e.docId
 score := dot e.embedding query

/-- The hits of `k` entries, best first, with none left out that is better. -/
def BestHits {S : Type*} [LinearOrder S] (dot : List F → List F → S) (query : List F) (k : ℕ)
  (entries : List (Entry F)) (hits : List (QueryHit S)) : Prop :=
 ∃ chosen rest : List (Entry F), (chosen ++ rest).Perm entries ∧ hits = chosen.map (hitOf dot query) ∧
  chosen.length = min k entries.length ∧
  chosen.Pairwise (fun a b => dot b.embedding query ≤ dot a.embedding query) ∧
  ∀ a ∈ chosen, ∀ b ∈ rest, dot b.embedding query ≤ dot a.embedding query

theorem Holds.query {S : Type*} [LinearOrder S] (alg : HeapAlgorithms (Prod.fst : S × ℕ → S))
  (dot : List F → List F → S) (h : Holds m q rows)
  {query : List F} (hquery : query.length = kEmbeddingDim) (topK : ℤ) :
  BestHits dot query topK.toNat q.entries (m.query alg dot query topK) := by
 have hperm : rows.Perm q.entries := by
  rw [h.order]
  exact (rotate_perm _ _).symm
 rw [MemoryIndex.query]
 split_ifs with hnone
 · refine ⟨[], q.entries, List.Perm.refl _, rfl, ?_, by simp, by simp⟩
   rcases hnone with hne | hle | hsize
   · exact absurd hquery hne
   · simp [Int.toNat_of_nonpos hle]
   · rw [← hperm.length_eq, ← h.size, hsize]
     simp
 · simp only [not_or, not_not, not_le] at hnone
   have hk : 0 < topK.toNat := by omega
   obtain ⟨rest, hbest, hlen, hsorted, hbetter⟩ := best_spec alg hk ((List.range m.size).map fun r =>
    (dot (row kEmbeddingDim m.embeddings r) query, r))
   set best := alg.best topK.toNat ((List.range m.size).map fun r =>
    (dot (row kEmbeddingDim m.embeddings r) query, r))
   -- A score in the heap is the score of its row.
   have hscore : ∀ hit ∈ best ++ rest, hit.1 = dot (m.rowEntry hit.2).embedding query := by
    intro hit hhit
    obtain ⟨r, -, rfl⟩ := mem_map.1 (hbest.mem_iff.1 hhit)
    rfl
   have hrows := hbest.map fun hit => m.rowEntry hit.2
   rw [map_append, map_map] at hrows
   refine ⟨best.map fun hit => m.rowEntry hit.2, rest.map fun hit => m.rowEntry hit.2, ?_, ?_, ?_, ?_, ?_⟩
   · refine hrows.trans ?_
     rw [show ((fun hit : S × ℕ => m.rowEntry hit.2) ∘ fun r =>
      (dot (row kEmbeddingDim m.embeddings r) query, r)) = m.rowEntry from rfl, h.rowEntries]
     exact hperm
   · rw [map_map]
     refine map_congr_left fun hit hhit => ?_
     rw [Function.comp_apply, hitOf, ← hscore hit (mem_append_left _ hhit)]
     rfl
   · rw [length_map, hlen, length_map, length_range, h.size, hperm.length_eq]
   · refine pairwise_map.2 (hsorted.imp_of_mem fun {a b} ha hb hab => ?_)
     rwa [← hscore a (mem_append_left _ ha), ← hscore b (mem_append_left _ hb)]
   · intro a ha b hb
     obtain ⟨hit, hhit, rfl⟩ := mem_map.1 ha
     obtain ⟨hit', hhit', rfl⟩ := mem_map.1 hb
     rw [← hscore hit (mem_append_left _ hhit), ← hscore hit' (mem_append_right _ hhit')]
     exact hbetter hit hhit hit' hhit'

end Fifo

end MoltBrowser.Memory
