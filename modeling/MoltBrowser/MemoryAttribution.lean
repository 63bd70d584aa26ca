import MoltBrowser.MemoryBackend

set_option autoImplicit false

/-!
# Which embedder an outcome is put down to

A reply carries its space, and is read against whatever model and whatever failures there are when it comes. Where the two belong
together, the model stays until it is replaced or can't run, and a chunk is given up only for its own embedder's failures.
-/
namespace MoltBrowser.Memory
open Backend List

variable {F : Type*} {hashing : Embedder F}

/-! ## Replies -/

abbrev Reply := BackgroundCall × EmbedOutcome

def answered (b : Backend F) : Event F → List Reply
 | .reply r _ => b.busy.toList.map fun call => (call, r.outcome)
 | _ => []

def blamed (history : List Reply) (chunkId : ℤ) : List String :=
 history.filterMap fun r => if r.2 = .failed ∧ r.1.chunkIds = [chunkId] then some r.1.space else none

/-- A reply belongs to what it is read against: an embedder can't run only if the model is of its space, and the failures that are
counted with one are of its space. -/
structure Attributed (b : Backend F) (history : List Reply) (e : Event F) : Prop where
 unavailable : ∀ r ∈ answered b e, r.2 = .unavailable → ∀ m ∈ b.model, m.space = r.1.space
 failed : ∀ r ∈ answered b e, r.2 = .failed → ∀ c, r.1.chunkIds = [c] →
  ∀ space ∈ (blamed history c).take (b.failures c), space = r.1.space

/-- Steps of which this holds, with the replies newest first. -/
inductive Runs (hashing : Embedder F) (ok : Backend F → List Reply → Event F → Prop) (b₀ : Backend F) (history₀ : List Reply) :
  Backend F → List Reply → Prop
 | refl : Runs hashing ok b₀ history₀ b₀ history₀
 | next {b : Backend F} {history : List Reply} {e : Event F} (h : Runs hashing ok b₀ history₀ b history) (hok : ok b history e) :
   Runs hashing ok b₀ history₀ (step hashing b e) (answered b e ++ history)

def UntilReplaced (m : Embedder F) (b : Backend F) (e : Event F) : Prop :=
 (∀ m' sql, e ≠ .setModelEmbedder m' sql) ∧ e ≠ .restart ∧ ∀ r ∈ answered b e, r.2 = .unavailable → r.1.space ≠ m.space

def Storage.ZerosIn (s : Storage F) (space : String) (chunkId : ℤ) : Prop :=
 (s.committedSpace = space ∧ ∃ c ∈ s.chunks, c.chunkId = chunkId ∧ c.embedding = some .zeros) ∨
  (s.nextSpace = space ∧ ∃ n ∈ s.chunkVectorsNext, n.chunkId = chunkId ∧ n.vector = .zeros)

/-! ## What each step leaves -/

def SameModel (b b' : Backend F) : Prop := b'.model = b.model ∧ b'.modelFailed = b.modelFailed

def Storage.NoMoreZeros (s s' : Storage F) : Prop := ∀ space c, s'.ZerosIn space c → s.ZerosIn space c

structure Calm (b b' : Backend F) : Prop where
 failures : ∀ c, b'.failures c ≤ b.failures c
 zeros : b.storage.NoMoreZeros b'.storage

variable {b b' b'' : Backend F} {s s' s'' : Storage F} {sql : Sql}

theorem SameModel.trans (h : SameModel b b') (h' : SameModel b' b'') : SameModel b b'' := ⟨h'.1.trans h.1, h'.2.trans h.2⟩

theorem Storage.NoMoreZeros.refl (s : Storage F) : s.NoMoreZeros s := fun _ _ h => h

theorem Storage.NoMoreZeros.trans (h : s.NoMoreZeros s') (h' : s'.NoMoreZeros s'') : s.NoMoreZeros s'' :=
 fun space c hc => h space c (h' space c hc)

theorem Calm.refl (b : Backend F) : Calm b b := ⟨fun _ => Nat.le_refl _, .refl _⟩

theorem Calm.trans (h : Calm b b') (h' : Calm b' b'') : Calm b b'' :=
 ⟨fun c => (h'.failures c).trans (h.failures c), h.zeros.trans h'.zeros⟩

/-! ## The store -/

namespace Storage

theorem NoMoreZeros.of_mem {s s' : Storage F} (hcommitted : s'.committedSpace = s.committedSpace)
  (hnext : s'.nextSpace = s.nextSpace ∨ s'.chunkVectorsNext = [])
  (hchunks : ∀ c ∈ s'.chunks, c.embedding = some .zeros → ∃ d ∈ s.chunks, d.chunkId = c.chunkId ∧ d.embedding = some .zeros)
  (hvectors : ∀ n ∈ s'.chunkVectorsNext, n.vector = .zeros → ∃ m ∈ s.chunkVectorsNext, m.chunkId = n.chunkId ∧ m.vector = .zeros) :
  s.NoMoreZeros s' := by
 rintro space id (⟨hspace, c, hc, rfl, hzeros⟩ | ⟨hspace, n, hn, rfl, hzeros⟩)
 · exact .inl ⟨hcommitted ▸ hspace, hchunks c hc hzeros⟩
 · rcases hnext with hnext | hnil
   · exact .inr ⟨hnext ▸ hspace, hvectors n hn hzeros⟩
   · rw [hnil] at hn
     cases hn

theorem reembedAllAndCommit_zeros {e : Embedder F} (h : s.reembedAllAndCommit sql e = some s') : s.NoMoreZeros s' := by
 unfold reembedAllAndCommit at h
 split_ifs at h
 cases h
 rintro space id (⟨-, c, hc, -, hzeros⟩ | ⟨-, n, hn, -⟩)
 · obtain ⟨d, -, rfl⟩ := mem_map.mp hc
   cases hzeros
 · cases hn

variable {space : String}

theorem beginMigration_zeros (h : s.beginMigration sql space = some s') : s.NoMoreZeros s' := by
 unfold beginMigration at h
 split_ifs at h
 · cases h
   exact .refl s
 · cases h
   exact .of_mem rfl (.inr rfl) (fun c hc hz => ⟨c, hc, rfl, hz⟩) (by simp)

theorem abortMigration_zeros (s : Storage F) (sql : Sql) : s.NoMoreZeros (s.abortMigration sql) := by
 unfold abortMigration
 split_ifs
 · exact .of_mem rfl (.inr rfl) (fun c hc hz => ⟨c, hc, rfl, hz⟩) (by simp)
 · exact .refl s

theorem commitMigration_zeros (h : s.commitMigration sql = some s') : s.NoMoreZeros s' := by
 unfold commitMigration at h
 split_ifs at h
 cases h
 rintro space id (⟨hspace, c, hc, rfl, hzeros⟩ | ⟨-, n, hn, -⟩)
 · obtain ⟨d, -, rfl⟩ := mem_map.mp hc
   obtain ⟨n, hn, hvector⟩ := Option.map_eq_some_iff.mp hzeros
   have hid := find?_some hn
   exact .inr ⟨hspace, n, mem_of_find?_eq_some hn, by simpa using hid, hvector⟩
 · cases hn

theorem insertChunks_zeros (s : Storage F) (sql : Sql) (docId : ℤ) (now : Option (Embedder F)) (texts : List String) :
  s.NoMoreZeros (s.insertChunks sql docId now texts) := by
 unfold insertChunks
 split_ifs
 · refine .of_mem rfl (.inl rfl) (fun c hc hzeros => ?_) (fun n hn hz => ⟨n, hn, rfl, hz⟩)
   rcases mem_append.mp hc with hc | hc
   · exact ⟨c, hc, rfl, hzeros⟩
   · obtain ⟨i, hi, rfl⟩ := mem_mapIdx.mp hc
     cases now <;> cases hzeros
 · exact .refl s

theorem filtered_zeros (s : Storage F) (p : ChunkRow F → Bool) (q : EmbeddingRow F → Bool) :
  s.NoMoreZeros { s with chunks := s.chunks.filter p, chunkVectorsNext := s.chunkVectorsNext.filter q } :=
 .of_mem rfl (.inl rfl) (fun c hc hz => ⟨c, (mem_filter.mp hc).1, rfl, hz⟩)
  (fun n hn hz => ⟨n, (mem_filter.mp hn).1, rfl, hz⟩)

theorem deleteDocuments_zeros (s : Storage F) (sql : Sql) (docIds : List ℤ) : s.NoMoreZeros (s.deleteDocuments sql docIds) := by
 unfold deleteDocuments
 split_ifs
 · exact filtered_zeros s _ _
 · exact .refl s

theorem clear_zeros (s : Storage F) (sql : Sql) : s.NoMoreZeros (s.clear sql) := by
 unfold clear
 split_ifs
 · exact .of_mem rfl (.inl rfl) (by simp) (by simp)
 · exact .refl s

theorem reopened_zeros (s : Storage F) : s.NoMoreZeros s.reopened :=
 .of_mem rfl (.inl rfl) (fun c hc hz => ⟨c, hc, rfl, hz⟩) (fun n hn hz => ⟨n, (mem_filter.mp hn).1, rfl, hz⟩)

def OnlyBy (s s' : Storage F) (space : String) (rows : List (EmbeddingRow F)) : Prop :=
 ∀ sp c, s'.ZerosIn sp c → s.ZerosIn sp c ∨ (sp = space ∧ ∃ r ∈ rows, r.chunkId = c ∧ r.vector = .zeros)

theorem onlyBy_foldl {put : Storage F → EmbeddingRow F → Storage F} {k : Storage F → String}
  (hkey : ∀ s r, k (put s r) = k s) (hput : ∀ s r, k s = space → OnlyBy s (put s r) space [r]) (hs : k s = space)
  (rows : List (EmbeddingRow F)) : OnlyBy s (rows.foldl put s) space rows := by
 induction rows generalizing s with
 | nil => exact fun _ _ h => .inl h
 | cons r rows ih =>
  intro sp c hzeros
  rcases ih ((hkey s r).trans hs) sp c hzeros with hzeros | ⟨hspace, r', hr', hrow⟩
  · rcases hput s r hs sp c hzeros with hzeros | ⟨hspace, r', hr', hrow⟩
    · exact .inl hzeros
    · obtain rfl := mem_singleton.mp hr'
      exact .inr ⟨hspace, r', mem_cons_self, hrow⟩
  · exact .inr ⟨hspace, r', mem_cons_of_mem _ hr', hrow⟩

theorem storeNextVector_nextSpace (s : Storage F) (r : EmbeddingRow F) : (s.storeNextVector r).nextSpace = s.nextSpace := by
 unfold storeNextVector
 split <;> rfl

theorem storeNextVector_zeros (s : Storage F) (r : EmbeddingRow F) : OnlyBy s (s.storeNextVector r) s.nextSpace [r] := by
 intro sp c hzeros
 unfold storeNextVector at hzeros
 split at hzeros
 · exact .inl hzeros
 · rcases hzeros with hzeros | ⟨hspace, n, hn, hrow⟩
   · exact .inl (.inl hzeros)
   · rcases mem_append.mp hn with hn | hn
     · exact .inl (.inr ⟨hspace, n, (mem_filter.mp hn).1, hrow⟩)
     · obtain rfl := mem_singleton.mp hn
       exact .inr ⟨hspace.symm, r, mem_singleton_self r, hrow⟩

theorem storeNextVectors_zeros (s : Storage F) (sql : Sql) (rows : List (EmbeddingRow F)) :
  OnlyBy s (s.storeNextVectors sql rows) s.nextSpace rows := by
 unfold storeNextVectors
 split_ifs
 · exact fun _ _ h => .inl h
 · exact onlyBy_foldl storeNextVector_nextSpace (fun s r hs => hs ▸ storeNextVector_zeros s r) rfl rows

theorem storePendingVector_zeros (s : Storage F) (r : EmbeddingRow F) : OnlyBy s (s.storePendingVector r) s.committedSpace [r] := by
 rintro sp c (⟨hspace, d, hd, hid, hzeros⟩ | hzeros)
 · obtain ⟨e, he, rfl⟩ := mem_map.mp hd
   split_ifs at hid hzeros with hrow
   · refine .inr ⟨hspace.symm, r, mem_singleton_self r, hrow.1 ▸ hid, ?_⟩
     simpa using hzeros
   · exact .inl (.inl ⟨hspace, e, he, hid, hzeros⟩)
 · exact .inl (.inr hzeros)

theorem storePendingVectors_zeros (s : Storage F) (sql : Sql) (rows : List (EmbeddingRow F)) :
  OnlyBy s (s.storePendingVectors sql rows) s.committedSpace rows := by
 unfold storePendingVectors
 split_ifs
 · exact fun _ _ h => .inl h
 · have hput : ∀ (t : Storage F) (r : EmbeddingRow F), t.committedSpace = s.committedSpace →
     OnlyBy t (t.storePendingVector r) s.committedSpace [r] := fun t r ht => ht ▸ storePendingVector_zeros t r
   have hkey : ∀ (t : Storage F) (r : EmbeddingRow F), (t.storePendingVector r).committedSpace = t.committedSpace := fun _ _ => rfl
   exact onlyBy_foldl hkey hput rfl rows

theorem OnlyBy.noMoreZeros {rows : List (EmbeddingRow F)} (h : OnlyBy s s' space rows)
  (hrows : ∀ r ∈ rows, r.vector ≠ .zeros) : s.NoMoreZeros s' := by
 intro sp c hzeros
 rcases h sp c hzeros with hzeros | ⟨-, r, hr, -, hvector⟩
 · exact hzeros
 · exact absurd hvector (hrows r hr)

end Storage

/-! ## The backend -/

/-- A step that is about neither the model nor the failures. -/
structure Still (b b' : Backend F) : Prop where
 model : SameModel b b'
 calm : Calm b b'

theorem Still.refl (b : Backend F) : Still b b := ⟨⟨rfl, rfl⟩, .refl b⟩

theorem Still.trans (h : Still b b') (h' : Still b' b'') : Still b b'' := ⟨h.model.trans h'.model, h.calm.trans h'.calm⟩

theorem still_of (hmodel : b'.model = b.model) (hfailed : b'.modelFailed = b.modelFailed)
  (hfailures : b'.failures = b.failures ∨ b'.failures = fun _ => 0) (hzeros : b.storage.NoMoreZeros b'.storage) : Still b b' := by
 refine ⟨⟨hmodel, hfailed⟩, fun c => ?_, hzeros⟩
 rcases hfailures with hfailures | hfailures
 · rw [hfailures]
 · rw [hfailures]
   exact Nat.zero_le _

theorem schedulePump_still (b : Backend F) : Still b b.schedulePump := still_of rfl rfl (.inl rfl) (.refl _)

theorem reconcile_still (b : Backend F) (sql : Sql) : Still b (reconcile hashing b sql) := by
 unfold reconcile
 by_cases hopen : (!b.isOpen || !b.modelKnown) = true
 · rw [if_pos hopen]
   exact .refl b
 · rw [if_neg hopen]
   refine .trans ?_ (schedulePump_still _)
   split
   · exact .refl b
   · exact .refl b
   · exact still_of rfl rfl (.inl rfl) (Storage.abortMigration_zeros _ _)
   · split
     · rename_i hstorage
       exact still_of rfl rfl (.inr rfl) (Storage.reembedAllAndCommit_zeros hstorage)
     · exact .refl b
   · split
     · rename_i hstorage
       exact still_of rfl rfl (.inr rfl) (Storage.beginMigration_zeros hstorage)
     · exact .refl b

theorem start_still (b : Backend F) (opened : Bool) (sql : Sql) : Still b (start hashing b opened sql) := by
 unfold start
 split_ifs
 · exact reconcile_still b sql
 · refine .trans ?_ (reconcile_still _ sql)
   exact still_of rfl rfl (.inl rfl) (Storage.reopened_zeros _)
 · exact .refl b

theorem setBackgroundAllowed_still (b : Backend F) (allowed : Bool) : Still b (b.setBackgroundAllowed allowed) := by
 unfold setBackgroundAllowed
 split_ifs <;> exact still_of rfl rfl (.inl rfl) (.refl _)

theorem pumpMigration_still (b : Backend F) (sql : Sql) : Still b (b.pumpMigration sql) := by
 unfold pumpMigration
 split
 · exact .refl b
 · simp only
   split_ifs
   all_goals try exact still_of rfl rfl (.inl rfl) (.refl _)
   all_goals
    split
    · rename_i hstorage
      exact still_of rfl rfl (.inr rfl) (Storage.commitMigration_zeros hstorage)
    · exact still_of rfl rfl (.inl rfl) (.refl _)

theorem pump_still (b : Backend F) (sql : Sql) : Still b (pump hashing b sql) := by
 unfold pump
 by_cases hidle : (!b.isOpen || b.busy.isSome || !b.backgroundAllowed) = true
 · rw [if_pos hidle]
   exact .refl b
 · rw [if_neg hidle]
   simp only
   split
   · exact still_of rfl rfl (.inl rfl) (.refl _)
   · refine .trans ?_ (pumpMigration_still _ sql)
     exact still_of rfl rfl (.inl rfl) (.refl _)

theorem ingest_still (b : Backend F) (docId : ℤ) (texts : List String) (sql : Sql) : Still b (ingest hashing b docId texts sql) := by
 unfold ingest
 simp only
 split_ifs
 · exact .refl b
 · exact still_of rfl rfl (.inl rfl) (Storage.insertChunks_zeros _ _ _ _ _)
 · exact still_of rfl rfl (.inl rfl) (Storage.insertChunks_zeros _ _ _ _ _)

theorem clearAll_still (b : Backend F) (sql : Sql) : Still b (b.clearAll sql) := by
 unfold clearAll
 simp only
 split_ifs
 · exact still_of rfl rfl (.inr rfl) (Storage.clear_zeros _ _)
 · exact still_of rfl rfl (.inr rfl) (.refl _)

theorem retryLater_still (b : Backend F) : Still b b.retryLater := still_of rfl rfl (.inl rfl) (.refl _)

/-! ## Replies -/

theorem storeVectors_fields (b : Backend F) (sql : Sql) (rows : List (EmbeddingRow F)) (space : String) (migration : Bool) :
  SameModel b (b.storeVectors sql rows space migration).1 ∧ (b.storeVectors sql rows space migration).1.failures = b.failures ∧
   Storage.OnlyBy b.storage (b.storeVectors sql rows space migration).1.storage space rows := by
 unfold storeVectors
 split_ifs with hmigration hspace hspace
 · exact ⟨⟨rfl, rfl⟩, rfl, fun _ _ h => .inl h⟩
 · rw [not_not] at hspace
   exact ⟨⟨rfl, rfl⟩, rfl, hspace ▸ Storage.storeNextVectors_zeros _ sql rows⟩
 · exact ⟨⟨rfl, rfl⟩, rfl, fun _ _ h => .inl h⟩
 · rw [not_not] at hspace
   exact ⟨⟨rfl, rfl⟩, rfl, hspace ▸ Storage.storePendingVectors_zeros _ sql rows⟩

theorem setCursor_still (b : Backend F) (migration : Bool) (cursor : ℤ) : Still b (b.setCursor migration cursor) := by
 unfold setCursor
 split_ifs <;> exact still_of rfl rfl (.inl rfl) (.refl _)

variable {r : EmbedBatchResult F}

theorem answeredRows_vector {call : BackgroundCall} : ∀ row ∈ answeredRows call r, row.vector ≠ .zeros := by
 intro row hrow hzeros
 obtain ⟨i, hi⟩ := mem_iff_getElem?.mp hrow
 obtain ⟨ids, v, -, -, rfl⟩ := getElem?_zipWith_eq_some.mp hi
 cases hzeros

theorem onEmbedded_still (b : Backend F) (call : BackgroundCall) (r : EmbedBatchResult F) (sql : Sql) : Still b (b.onEmbedded call r sql) := by
 have hforgot : Still b { b with failures := fun c => if call.chunkIds.contains c then 0 else b.failures c } := by
  refine ⟨⟨rfl, rfl⟩, fun c => ?_, .refl _⟩
  simp only
  split_ifs
  · exact Nat.zero_le _
  · exact Nat.le_refl _
 refine hforgot.trans ?_
 obtain ⟨hmodel, hfailures, hzeros⟩ := storeVectors_fields { b with failures := fun c => if call.chunkIds.contains c then 0 else b.failures c }
  sql (answeredRows call r) call.space call.migration
 have hstored := still_of hmodel.1 hmodel.2 (.inl hfailures) (hzeros.noMoreZeros answeredRows_vector)
 refine hstored.trans ?_
 unfold onEmbedded
 simp only
 split_ifs
 · exact (setCursor_still _ _ _).trans (still_of rfl rfl (.inl rfl) (.refl _))
 · exact still_of rfl rfl (.inl rfl) (.refl _)

theorem giveUp_fields (b : Backend F) (call : BackgroundCall) (chunkId docId : ℤ) (sql : Sql) :
  SameModel b (b.giveUp call chunkId docId sql) ∧ (b.giveUp call chunkId docId sql).failures = Function.update b.failures chunkId 0 ∧
   ∀ space c, (b.giveUp call chunkId docId sql).storage.ZerosIn space c →
    b.storage.ZerosIn space c ∨ (space = call.space ∧ c = chunkId) := by
 obtain ⟨hmodel, hfailures, hzeros⟩ := storeVectors_fields { b with failures := Function.update b.failures chunkId 0 }
  sql [{ chunkId, docId, vector := .zeros }] call.space call.migration
 have hwhole : ∀ b' : Backend F, SameModel b b' → b'.failures = Function.update b.failures chunkId 0 →
   Storage.OnlyBy b.storage b'.storage call.space [{ chunkId, docId, vector := .zeros }] →
   SameModel b b' ∧ b'.failures = Function.update b.failures chunkId 0 ∧
    ∀ space c, b'.storage.ZerosIn space c → b.storage.ZerosIn space c ∨ (space = call.space ∧ c = chunkId) := by
  intro b' hmodel hfailures hzeros
  refine ⟨hmodel, hfailures, fun space c hc => (hzeros space c hc).imp id ?_⟩
  rintro ⟨hspace, r, hr, hid, -⟩
  obtain rfl := mem_singleton.mp hr
  exact ⟨hspace, hid.symm⟩
 unfold giveUp
 simp only
 split_ifs
 · unfold setCursor
   split_ifs <;> exact hwhole _ hmodel hfailures hzeros
 · exact hwhole _ hmodel hfailures hzeros

structure FailedAlone (b : Backend F) (call : BackgroundCall) (chunkId : ℤ) (b' : Backend F) : Prop where
 model : SameModel b b'
 others : ∀ c, c ≠ chunkId → b'.failures c ≤ b.failures c
 counted : b'.failures chunkId ≤ b.failures chunkId + 1
 zeros : ∀ space c, b'.storage.ZerosIn space c →
  b.storage.ZerosIn space c ∨ (space = call.space ∧ c = chunkId ∧ kFailuresToGiveUp ≤ b.failures chunkId + 1)

theorem onFailed_alone {call : BackgroundCall} {chunkId : ℤ} (h : call.chunkIds = [chunkId]) :
  FailedAlone b call chunkId (b.onFailed call sql) := by
 unfold onFailed
 rw [h]
 simp only [Function.update_self]
 split_ifs with hgive
 · obtain ⟨hmodel, hfailures, hzeros⟩ := giveUp_fields
    { b with failures := Function.update b.failures chunkId (b.failures chunkId + 1) } call chunkId (call.docIds.headD 0) sql
   refine ⟨hmodel, fun c hc => ?_, ?_, fun space c hc => ?_⟩
   · rw [hfailures, Function.update_of_ne hc]
     exact (Function.update_of_ne hc _ _).le
   · rw [hfailures, Function.update_self]
     exact Nat.zero_le _
   · exact (hzeros space c hc).imp id fun ⟨hspace, hid⟩ => ⟨hspace, hid, hgive⟩
 · refine ⟨⟨rfl, rfl⟩, fun c hc => ?_, ?_, fun space c hc => .inl hc⟩
   · exact (Function.update_of_ne hc _ _).le
   · exact (Function.update_self _ _ _).le

theorem onFailed_several {call : BackgroundCall} (h : ∀ c, call.chunkIds ≠ [c]) : Still b (b.onFailed call sql) := by
 unfold onFailed
 split
 · rename_i c hc
   exact absurd hc (h c)
 · exact still_of rfl rfl (.inl rfl) (.refl _)

inductive StepOf (b : Backend F) (e : Event F) (b' : Backend F) : Prop
 | still (h : Still b b')
 | set {m : Option (Embedder F)} {sql : Sql} (he : e = .setModelEmbedder m sql) (hmodel : b'.model = m)
   (hfailed : b'.modelFailed = if modelKey b.model ≠ modelKey m then false else b.modelFailed) (hcalm : Calm b b')
 | restarted (he : e = .restart) (hmodel : b'.model = none) (hcalm : Calm b b')
 | unavailable {r : Reply} (he : r ∈ answered b e) (houtcome : r.2 = .unavailable) (hmodel : b'.model = none) (hcalm : Calm b b')
 | failed {r : Reply} {chunkId : ℤ} (he : answered b e = [r]) (houtcome : r.2 = .failed) (hids : r.1.chunkIds = [chunkId])
   (h : FailedAlone b r.1 chunkId b')

theorem answered_reply {call : BackgroundCall} (h : b.busy = some call) :
  answered b (.reply r sql) = [(call, r.outcome)] := by simp [answered, h]

theorem reply_stepOf {call : BackgroundCall} (h : b.busy = some call) :
  StepOf b (.reply r sql) (onBackgroundEmbedded hashing b call r sql) := by
 have hidle : Still b { b with busy := none } := still_of rfl rfl (.inl rfl) (.refl _)
 unfold onBackgroundEmbedded
 simp only
 split_ifs
 · exact .still hidle
 · exact .still (hidle.trans (onEmbedded_still _ call r sql))
 · split
   · rename_i houtcome
     have hcalm : Calm b { b with busy := none, model := none, modelFailed := true } := ⟨fun _ => Nat.le_refl _, .refl _⟩
     have hreconciled : Still _ (reconcile hashing { b with busy := none, model := none, modelFailed := true } sql) :=
      reconcile_still _ sql
     refine .unavailable (r := (call, r.outcome)) ?_ houtcome hreconciled.model.1 (hcalm.trans hreconciled.calm)
     rw [answered_reply h]
     exact mem_singleton_self _
   · rename_i houtcome
     by_cases halone : ∃ c, call.chunkIds = [c]
     · obtain ⟨c, hc⟩ := halone
       have hfailed : FailedAlone { b with busy := none } call c (Backend.onFailed { b with busy := none } call sql) := onFailed_alone hc
       obtain ⟨hmodel, hothers, hcounted, hzeros⟩ := hfailed
       exact .failed (answered_reply h) houtcome hc ⟨hmodel, hothers, hcounted, hzeros⟩
     · exact .still (hidle.trans (onFailed_several (not_exists.mp halone)))
   · exact .still (hidle.trans (retryLater_still _))

theorem step_stepOf (b : Backend F) (e : Event F) : StepOf b e (step hashing b e) := by
 cases e with
 | start opened sql => exact .still (start_still b opened sql)
 | setModelEmbedder m sql =>
  have hcalm : ∀ failed retry, Calm b { b with model := m, modelKnown := true, modelFailed := failed, retryMs := retry } :=
   fun _ _ => ⟨fun _ => Nat.le_refl _, .refl _⟩
  change StepOf b _ (setModelEmbedder hashing b m sql)
  unfold setModelEmbedder
  simp only [decide_eq_true_eq]
  split_ifs with hchanged
  · have hreconciled : Still _ (reconcile hashing { b with model := m, modelKnown := true, modelFailed := false, retryMs := 0 } sql) :=
     reconcile_still _ sql
    refine .set rfl hreconciled.model.1 ?_ ((hcalm _ _).trans hreconciled.calm)
    rw [if_pos hchanged]
    exact hreconciled.model.2
  · have hreconciled : Still _ (reconcile hashing { b with model := m, modelKnown := true } sql) := reconcile_still _ sql
    refine .set rfl hreconciled.model.1 ?_ ((hcalm _ _).trans hreconciled.calm)
    rw [if_neg hchanged]
    exact hreconciled.model.2
 | setBackgroundAllowed allowed => exact .still (setBackgroundAllowed_still b allowed)
 | pump sql =>
  change StepOf b _ (if b.pumpScheduled then pump hashing { b with pumpScheduled := false } sql else b)
  split_ifs
  · refine .still (.trans ?_ (pump_still _ sql))
    exact still_of rfl rfl (.inl rfl) (.refl _)
  · exact .still (.refl b)
 | reply r sql =>
  cases hbusy : b.busy with
  | none =>
   have hsame : step hashing b (.reply r sql) = b := by simp [step, hbusy]
   rw [hsame]
   exact .still (.refl b)
  | some call =>
   have hcall : step hashing b (.reply r sql) = onBackgroundEmbedded hashing b call r sql := by simp [step, hbusy]
   rw [hcall]
   exact reply_stepOf hbusy
 | ingest docId texts sql => exact .still (ingest_still b docId texts sql)
 | deleteDocuments docIds sql =>
  change StepOf b _ (if b.isOpen then { b with storage := b.storage.deleteDocuments sql docIds } else b)
  split_ifs
  · exact .still (still_of rfl rfl (.inl rfl) (Storage.deleteDocuments_zeros _ _ _))
  · exact .still (.refl b)
 | clearAll sql => exact .still (clearAll_still b sql)
 | restart => exact .restarted rfl rfl ⟨fun _ => Nat.zero_le _, .refl _⟩

/-! ## Runs -/

def ModelRuns (b : Backend F) : Prop := b.model.isSome = true → b.modelFailed = false

theorem modelKey_none : modelKey (none : Option (Embedder F)) = "" := rfl

variable {e : Event F}

theorem ModelRuns.step (h : ModelRuns b) (hstep : StepOf b e b') : ModelRuns b' := by
 intro hsome
 cases hstep with
 | still hstill =>
  rw [hstill.model.1] at hsome
  rw [hstill.model.2]
  exact h hsome
 | set he hmodel hfailed _ =>
  rw [hfailed]
  split_ifs with hkey
  · rfl
  · -- The keys are alike, and the new one isn't empty: there was a model.
    rw [not_not] at hkey
    apply h
    rw [hmodel] at hsome
    obtain ⟨m, rfl⟩ := Option.isSome_iff_exists.mp hsome
    cases hbefore : b.model with
    | none =>
     rw [hbefore, modelKey_none] at hkey
     exact absurd hkey.symm m.keyed
    | some _ => rfl
 | restarted _ hmodel _ =>
  rw [hmodel] at hsome
  cases hsome
 | unavailable _ _ hmodel _ =>
  rw [hmodel] at hsome
  cases hsome
 | failed _ _ _ hfailed =>
  rw [hfailed.model.1] at hsome
  rw [hfailed.model.2]
  exact h hsome

variable {history : List Reply}

theorem modelRuns_run {ok : Backend F → List Reply → Event F → Prop} {b₀ : Backend F} {history₀ : List Reply}
  (h : Runs hashing ok b₀ history₀ b history) (h₀ : ModelRuns b₀) : ModelRuns b := by
 induction h with
 | refl => exact h₀
 | next _ _ ih => exact ih.step (step_stepOf _ _)

theorem model_stays {m : Embedder F} (hmodel : b.model = some m) (hok : Attributed b history e)
  (huntil : UntilReplaced m b e) (hstep : StepOf b e b') : b'.model = some m := by
 cases hstep with
 | still hstill => rw [hstill.model.1, hmodel]
 | set he _ _ _ => exact absurd he (huntil.1 _ _)
 | restarted he _ _ => exact absurd he huntil.2.1
 | unavailable he houtcome _ _ =>
  have hspace := hok.unavailable _ he houtcome m hmodel
  exact absurd hspace.symm (huntil.2.2 _ he houtcome)
 | failed _ _ _ hfailed => rw [hfailed.model.1, hmodel]

theorem setModelEmbedder_model (b : Backend F) (m : Option (Embedder F)) (sql : Sql) :
  (step hashing b (.setModelEmbedder m sql)).model = m := by
 change (setModelEmbedder hashing b m sql).model = m
 unfold setModelEmbedder
 exact (reconcile_still _ sql).model.1.trans (by split_ifs <;> rfl)

/-! ## Failures -/

theorem blamed_append (new history : List Reply) (c : ℤ) : blamed (new ++ history) c = blamed new c ++ blamed history c :=
 filterMap_append

/-- The failures counted are the newest of the history, and whoever has zeros has failed often enough in that space. -/
structure Counted (b : Backend F) (history : List Reply) : Prop where
 failures : ∀ c, b.failures c ≤ (blamed history c).length
 zeros : ∀ space c, b.storage.ZerosIn space c → kFailuresToGiveUp ≤ (blamed history c).count space

theorem Counted.calm (h : Counted b history) (hcalm : Calm b b') (new : List Reply) :
  Counted b' (new ++ history) where
 failures c := by
  rw [blamed_append, length_append]
  exact (hcalm.failures c).trans ((h.failures c).trans (Nat.le_add_left _ _))
 zeros space c hc := by
  rw [blamed_append, count_append]
  exact (h.zeros space c (hcalm.zeros space c hc)).trans (Nat.le_add_left _ _)

theorem count_counted {spaces : List String} {space : String} {n : ℕ} (hall : ∀ s ∈ spaces.take n, s = space) (hn : n ≤ spaces.length) :
  n ≤ spaces.count space := by
 have htake : (spaces.take n).count space = n := by
  rw [count_eq_length.mpr fun s hs => (hall s hs).symm, length_take, Nat.min_eq_left hn]
 rw [← htake]
 exact (take_sublist n spaces).count_le space

theorem Counted.failed {r : Reply} {chunkId : ℤ} (h : Counted b history) (houtcome : r.2 = .failed)
  (hids : r.1.chunkIds = [chunkId]) (hfailed : FailedAlone b r.1 chunkId b')
  (hspace : ∀ space ∈ (blamed history chunkId).take (b.failures chunkId), space = r.1.space) : Counted b' (r :: history) := by
 have hhere : blamed (r :: history) chunkId = r.1.space :: blamed history chunkId := by
  simp [blamed, houtcome, hids]
 have helse : ∀ c, c ≠ chunkId → blamed (r :: history) c = blamed history c := by
  intro c hc
  simp [blamed, hids, hc.symm]
 refine ⟨fun c => ?_, fun space c hc => ?_⟩
 · by_cases hid : c = chunkId
   · rw [hid, hhere, length_cons]
     exact hfailed.counted.trans (Nat.succ_le_succ (h.failures chunkId))
   · rw [helse c hid]
     exact (hfailed.others c hid).trans (h.failures c)
 · rcases hfailed.zeros space c hc with hold | ⟨rfl, rfl, hgive⟩
   · have hcount := h.zeros space c hold
     by_cases hid : c = chunkId
     · rw [hid, hhere]
       rw [hid] at hcount
       exact hcount.trans count_le_count_cons
     · rw [helse c hid]
       exact hcount
   · have hcount := count_counted hspace (h.failures c)
     rw [hhere, count_cons_self]
     omega

theorem Counted.step (h : Counted b history) (hok : Attributed b history e)
  (hstep : StepOf b e b') : Counted b' (answered b e ++ history) := by
 cases hstep with
 | still hstill => exact h.calm hstill.calm _
 | set _ _ _ hcalm => exact h.calm hcalm _
 | restarted _ _ hcalm => exact h.calm hcalm _
 | unavailable _ _ _ hcalm => exact h.calm hcalm _
 | failed he houtcome hids hfailed =>
  have hspace := hok.failed _ (he ▸ mem_singleton_self _) houtcome _ hids
  rw [he]
  exact h.failed houtcome hids hfailed hspace

theorem counted_fresh : Counted (fresh hashing) [] where
 failures _ := Nat.le_refl _
 zeros := by
  rintro space c (⟨-, d, hd, -⟩ | ⟨-, n, hn, -⟩)
  · cases hd
  · cases hn

theorem counted_run (h : Runs hashing Attributed (fresh hashing) [] b history) : Counted b history := by
 induction h with
 | refl => exact counted_fresh
 | next _ hok ih => exact ih.step hok (step_stepOf _ _)

/-! ## Attribution -/

theorem model_stays_run {m : Embedder F} {b₀ : Backend F} {history₀ : List Reply}
  (h : Runs hashing (fun b history e => Attributed b history e ∧ UntilReplaced m b e) b₀ history₀ b history) (h₀ : b₀.model = some m) :
  b.model = some m := by
 induction h with
 | refl => exact h₀
 | next _ hok ih => exact model_stays ih hok.1 hok.2 (step_stepOf _ _)

def keywordHashing : Embedder ℤ where
 id := 0
 space := "hashing-v3/256"
 keyed := by decide
 isSynchronous := true
 maxBatchSize := 8
 embed _ := []

def firstModel : Embedder ℤ where
 id := 1
 space := "first/256"
 keyed := by decide
 isSynchronous := false
 maxBatchSize := 8
 embed _ := []

def secondModel : Embedder ℤ := { firstModel with id := 2, space := "second/256", keyed := by decide }

def wellWritten : Sql := { rows := 100, written := true }

def observe (hashing : Embedder F) (r : Backend F × List Reply) (e : Event F) : Backend F × List Reply :=
 (step hashing r.1 e, answered r.1 e ++ r.2)

abbrev AnyRun (hashing : Embedder F) (b : Backend F) (history : List Reply) : Prop :=
 Runs hashing (fun _ _ _ => True) (fresh hashing) [] b history

theorem anyRun_foldl (h : AnyRun hashing b history) (es : List (Event F)) :
  AnyRun hashing (es.foldl (observe hashing) (b, history)).1 (es.foldl (observe hashing) (b, history)).2 := by
 induction es generalizing b history with
 | nil => exact h
 | cons e es ih => exact ih (h.next trivial)

def embeddingPage : List (Event ℤ) :=
 [.start true wellWritten, .setBackgroundAllowed true, .setModelEmbedder none wellWritten, .ingest 1 ["miso"] wellWritten,
  .setModelEmbedder (some firstModel) wellWritten, .pump wellWritten]

def replaced : Event ℤ := .setModelEmbedder (some secondModel) wellWritten

def failed : Event ℤ := .reply { outcome := .failed } wellWritten

end MoltBrowser.Memory
