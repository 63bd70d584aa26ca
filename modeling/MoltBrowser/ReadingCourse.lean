import MoltBrowser.ReadingCuts

set_option autoImplicit false

/-!
# Nothing skipped, nothing said twice

The reading queue over any calls: what was said to its end and what is still to be said make up
the text from where reading began.
-/
namespace MoltBrowser.Voice
open StreamFilters SelfSynchronizing SpeechEvents List

/-! ## Where a chunk ends -/

/-- A place after `start` the text may be cut at, its end included. -/
structure EndsAt (text : Bytes) (start k : ℕ) : Prop where
 above : start < k
 le : k ≤ text.length
 boundary : Boundary text k

section Chunk

variable {block : ReadingBlock} {start maxChars : ℕ}

theorem takeSentences_spec {text : Bytes} (hstart : start < text.length) {stop spoken : ℕ} {starts : List ℕ}
  (hstarts : ∀ k ∈ starts, EndsAt text start k) (hstop : start < stop → EndsAt text start stop) (hle : start ≤ stop) :
  EndsAt text start (takeSentences text maxChars start stop spoken starts).1 := by
 have hend : EndsAt text start text.length := ⟨hstart, le_refl _, boundary_of_ge (le_refl _)⟩
 induction starts generalizing stop spoken with
 | nil =>
  rw [takeSentences]
  dsimp only
  generalize (if (spokenPrefix (slice text stop _) maxChars).1 < _ then maxChars + 1 else _) = more
  split_ifs with hdone hheavy
  · exact hstop (hstart.trans_le hdone.2)
  · exact hstop hheavy.1
  · exact hend
 | cons next starts ih =>
  have hnext := hstarts next (mem_cons_self ..)
  rw [takeSentences, if_neg (by simp)]
  dsimp only
  generalize (if (spokenPrefix (slice text stop _) maxChars).1 < _ then maxChars + 1 else _) = more
  split_ifs with hheavy
  · exact hstop hheavy.1
  · exact ih (fun k hk => hstarts k (mem_cons_of_mem _ hk)) (fun _ => hnext) hnext.above.le

theorem ReadingBlock.Built.valid (h : block.Built) : Valid block.text := by
 obtain ⟨raw, hraw⟩ := h.text
 rw [hraw]
 exact speechSafeText_valid raw _

theorem rfind_lt {c : UInt8} {s : Bytes} {i : ℕ} (h : rfind c s = some i) : i < s.length := by
 by_contra hge
 have hhead := head_drop_rfind h
 rw [drop_eq_nil_of_le (Nat.le_of_not_lt hge)] at hhead
 exact absurd hhead (by simp)

theorem ReadingBlock.Built.later_starts (h : block.Built) (start : ℕ) :
  (∀ k ∈ block.sentences.dropWhile (· ≤ start), EndsAt block.text start k) ∧
   (block.sentences.dropWhile (· ≤ start)).Pairwise (· < ·) := by
 obtain ⟨hall, hsorted⟩ := sentenceStarts_spec h.valid h.ne
 rw [← h.sentences] at hall hsorted
 have hlater := hsorted.sublist (dropWhile_sublist (fun k => decide (k ≤ start)))
 refine ⟨fun k hk => ?_, hlater⟩
 have hmem := (dropWhile_sublist _).subset hk
 refine ⟨?_, (hall k hmem).1.le, (hall k hmem).2⟩
 cases hd : block.sentences.dropWhile (· ≤ start) with
 | nil =>
  rw [hd] at hk
  exact absurd hk not_mem_nil
 | cons first more =>
  have hfirst : ¬ (first ≤ start) := by
   have := head?_dropWhile_not (fun k => decide (k ≤ start)) block.sentences
   rw [hd] at this
   simpa using this
  rw [hd] at hk hlater
  rcases mem_cons.1 hk with rfl | hk
  · omega
  · have := (pairwise_cons.1 hlater).1 k hk
    omega

theorem chunkEnd_spec (h : block.Built) (hstart : start < block.text.length) (hb : Boundary block.text start) :
  EndsAt block.text start (chunkEnd block start maxChars) := by
 have htaken := @takeSentences_spec start maxChars block.text hstart _ 0 _ (h.later_starts start).1 (fun hlt => absurd hlt (lt_irrefl _))
  (le_refl start)
 rw [chunkEnd]
 generalize takeSentences block.text maxChars start start 0 (block.sentences.dropWhile (· ≤ start)) = taken at htaken ⊢
 split_ifs with hheavy
 · have hslice := slice_valid h.valid hb htaken.boundary htaken.above.le
   obtain ⟨hle, hcut, hpos⟩ := spokenPrefix_spec maxChars hslice
   have hlength : (slice block.text start taken.1).length = taken.1 - start := by
    rw [slice, length_take, length_drop]
    have := htaken.le
    omega
   have hne : slice block.text start taken.1 ≠ [] := by
    have := htaken.above
    rw [← length_pos_iff, hlength]
    omega
   have hcut' := Boundary.of_slice htaken.boundary htaken.above.le hcut hle
   have hpos' := hpos hne
   rw [hlength] at hle
   have hlimit : EndsAt block.text start (start + (spokenPrefix (slice block.text start taken.1) maxChars).1) :=
    ⟨by omega, by have := htaken.le; have := htaken.above; omega, hcut'⟩
   dsimp only
   generalize start + (spokenPrefix (slice block.text start taken.1) maxChars).1 = limit at hlimit ⊢
   split
   · exact hlimit
   · exact hlimit
   · rename_i space hzero hspace
     have hlt := rfind_lt hspace
     have hhead := head_drop_rfind hspace
     rw [slice, length_take] at hlt
     rw [head?_drop, slice, getElem?_take] at hhead
     split_ifs at hhead
     rw [getElem?_drop] at hhead
     refine ⟨by omega, by have := hlimit.le; omega, boundary_after (c := 0x20) h.valid ?_ (by decide)⟩
     rw [head?_drop, hhead]
 · exact htaken

end Chunk

/-! ## What there is to say -/

/-- The bytes from `lo` to `hi` that aren't spaces. -/
def spots (text : Bytes) (lo hi : ℕ) : List ℕ := (List.range' lo (hi - lo)).filter fun i => text.getD i 0 ≠ 0x20

theorem spots_append (text : Bytes) {lo mid hi : ℕ} (hlo : lo ≤ mid) (hhi : mid ≤ hi) :
  spots text lo mid ++ spots text mid hi = spots text lo hi := by
 have hrange : List.range' lo (mid - lo) ++ List.range' mid (hi - mid) = List.range' lo (hi - lo) := by
  have happend := range'_append_1 (s := lo) (m := mid - lo) (n := hi - mid)
  rw [show lo + (mid - lo) = mid by omega, show mid - lo + (hi - mid) = hi - lo by omega] at happend
  exact happend
 rw [spots, spots, ← filter_append, hrange, spots]

theorem spots_nil {text : Bytes} {lo hi : ℕ} (h : ∀ i, lo ≤ i → i < hi → text.getD i 0 = 0x20) : spots text lo hi = [] := by
 rw [spots, filter_eq_nil_iff]
 intro i hi'
 obtain ⟨hlo, hlt⟩ := mem_range'_1.1 hi'
 simpa using h i hlo (by omega)

theorem spots_cons {text : Bytes} {lo hi : ℕ} (hlt : lo < hi) (hchar : text.getD lo 0 ≠ 0x20) :
  spots text lo hi = lo :: spots text (lo + 1) hi := by
 have hone : spots text lo (lo + 1) = [lo] := by
  rw [spots, Nat.add_sub_cancel_left, range'_one, filter_cons_of_pos (by simpa using hchar), filter_nil]
 rw [← spots_append text (Nat.le_succ lo) hlt, hone]
 rfl

def blockSpots (document : ReadingDocument) (lo b : ℕ) : List (ℕ × ℕ) :=
 (spots (blockAt document b).text lo (blockAt document b).text.length).map fun i => (b, i)

/-- The block and offset of every character but spaces, from a position up to the end block, in
reading order. -/
def places (document : ReadingDocument) (pos : ReadingPosition) (endBlock : ℕ) : List (ℕ × ℕ) :=
 if pos.block < endBlock then
  blockSpots document pos.offset pos.block ++
   (List.range' (pos.block + 1) (endBlock - (pos.block + 1))).flatMap (blockSpots document 0)
 else []

theorem places_next (document : ReadingDocument) {b endBlock : ℕ} :
  (List.range' (b + 1) (endBlock - (b + 1))).flatMap (blockSpots document 0) =
   places document { block := b + 1 } endBlock := by
 rw [places]
 split_ifs with hlt
 · obtain ⟨n, hn⟩ : ∃ n, endBlock - (b + 1) = n + 1 := ⟨endBlock - (b + 1) - 1, by dsimp only at hlt; omega⟩
   rw [hn, range'_succ, flatMap_cons, show n = endBlock - (b + 1 + 1) by omega]
 · rw [show endBlock - (b + 1) = 0 by dsimp only at hlt; omega]
   rfl

theorem places_of_lt (document : ReadingDocument) {pos : ReadingPosition} {endBlock : ℕ} (h : pos.block < endBlock) :
  places document pos endBlock =
   blockSpots document pos.offset pos.block ++ places document { block := pos.block + 1 } endBlock := by
 rw [places, if_pos h, places_next]

/-- The position stands at a word that is still to be said. -/
structure AtWord (document : ReadingDocument) (pos : ReadingPosition) (endBlock : ℕ) : Prop where
 block : pos.block < endBlock
 offset : pos.offset < (blockAt document pos.block).text.length
 char : (blockAt document pos.block).text.getD pos.offset 0 ≠ 0x20

theorem places_head {document : ReadingDocument} {pos : ReadingPosition} {endBlock : ℕ} (h : AtWord document pos endBlock) :
  (places document pos endBlock).head? = some (pos.block, pos.offset) := by
 rw [places, if_pos h.block, blockSpots, spots_cons h.offset h.char]
 rfl

theorem takeWhile_spaces (text : Bytes) (k : ℕ) :
  (∀ i, k ≤ i → i < k + ((text.drop k).takeWhile (· == 0x20)).length → text.getD i 0 = 0x20) ∧
   (k + ((text.drop k).takeWhile (· == 0x20)).length < text.length →
    text.getD (k + ((text.drop k).takeWhile (· == 0x20)).length) 0 ≠ 0x20) := by
 generalize hs : (text.drop k).takeWhile (· == 0x20) = s
 have hsplit : text.drop k = s ++ (text.drop k).dropWhile (· == 0x20) := by
  rw [← hs, takeWhile_append_dropWhile]
 have hget : ∀ j, text.getD (k + j) 0 = (text.drop k).getD j 0 := by
  intro j
  rw [getD_eq_getElem?_getD, getD_eq_getElem?_getD, getElem?_drop]
 constructor
 · intro i hk hi
   obtain ⟨j, rfl⟩ := Nat.exists_eq_add_of_le hk
   have hj : j < s.length := by omega
   rw [hget, hsplit, getD_append _ _ _ _ hj, getD_eq_getElem _ _ hj]
   have hmem : s[j] ∈ (text.drop k).takeWhile (· == 0x20) := hs ▸ getElem_mem hj
   simpa using mem_takeWhile_imp hmem
 · intro hlt
   rw [hget, hsplit, getD_append_right _ _ _ _ (le_refl _), Nat.sub_self]
   cases hd : (text.drop k).dropWhile (· == 0x20) with
   | nil =>
    rw [hd, append_nil] at hsplit
    have := congrArg List.length hsplit
    rw [length_drop] at this
    omega
   | cons c rest =>
    have hfirst := head?_dropWhile_not (fun c : UInt8 => c == 0x20) (text.drop k)
    rw [hd] at hfirst
    simpa using hfirst

def AtBoundary (document : ReadingDocument) (pos : ReadingPosition) : Prop :=
 Boundary (blockAt document pos.block).text pos.offset

section Document

variable {document : ReadingDocument} (hbuilt : ∀ b ∈ document, b.Built)
include hbuilt

theorem blockAt_valid (b : ℕ) : Valid (blockAt document b).text := by
 rw [blockAt, getD_eq_getElem?_getD]
 cases hb : document[b]? with
 | none => exact .nil
 | some block => exact (hbuilt block (mem_of_getElem? hb)).valid

theorem wordFrom_spec (pos : ReadingPosition) (endBlock : ℕ) (hb : AtBoundary document pos) :
  places document (wordFrom document pos endBlock) endBlock = places document pos endBlock ∧
   (endBlock ≤ (wordFrom document pos endBlock).block ∨ AtWord document (wordFrom document pos endBlock) endBlock) ∧
   AtBoundary document (wordFrom document pos endBlock) := by
 induction pos using wordFrom.induct document endBlock with
 | case1 pos hlt text offset hoffset =>
  rw [wordFrom, if_pos hlt]
  dsimp only
  rw [if_pos hoffset]
  obtain ⟨hspaces, hword⟩ := takeWhile_spaces (blockAt document pos.block).text pos.offset
  refine ⟨?_, .inr ⟨hlt, hoffset, hword hoffset⟩, ?_⟩
  · rw [places, places, if_pos hlt, if_pos hlt, blockSpots, blockSpots,
     ← spots_append _ (Nat.le_add_right pos.offset _) hoffset.le, spots_nil hspaces, nil_append]
  · by_cases hzero : ((blockAt document pos.block).text.drop pos.offset).takeWhile (· == 0x20) = []
    · rw [AtBoundary, hzero]
      exact hb
    · have hpos := length_pos_iff.2 hzero
      have hlast := hspaces (pos.offset + (((blockAt document pos.block).text.drop pos.offset).takeWhile (· == 0x20)).length - 1)
       (by omega) (by omega)
      simp only [text, offset] at hoffset
      rw [AtBoundary]
      dsimp only
      generalize (((blockAt document pos.block).text.drop pos.offset).takeWhile (· == 0x20)).length = n at *
      rw [show pos.offset + n = pos.offset + n - 1 + 1 by omega]
      refine boundary_after (c := 0x20) (blockAt_valid hbuilt _) ?_ (by decide)
      rw [head?_drop, getElem?_eq_getElem (by omega)]
      rw [getD_eq_getElem _ _ (by omega)] at hlast
      rw [hlast]
 | case2 pos hlt text offset hoffset ih =>
  rw [wordFrom, if_pos hlt]
  dsimp only
  rw [if_neg hoffset]
  obtain ⟨hspaces, -⟩ := takeWhile_spaces (blockAt document pos.block).text pos.offset
  obtain ⟨hplaces, hrest⟩ := ih (boundary_of_valid_drop (blockAt_valid hbuilt _))
  refine ⟨?_, hrest⟩
  rw [hplaces, places_of_lt document hlt, blockSpots, spots_nil fun i hlo hi => hspaces i hlo ?_]
  · rfl
  · simp only [text, offset] at hoffset
    omega
 | case3 pos hle =>
  rw [wordFrom, if_neg hle]
  exact ⟨rfl, .inl (Nat.le_of_not_lt hle), hb⟩

end Document

/-! ## Chunks -/

namespace ReadingChunk

def stop (document : ReadingDocument) (c : ReadingChunk) : ℕ :=
 if c.next.block = c.pos.block then c.next.offset else (blockAt document c.pos.block).text.length

def places (document : ReadingDocument) (c : ReadingChunk) : List (ℕ × ℕ) :=
 (spots (blockAt document c.pos.block).text c.pos.offset (c.stop document)).map fun i => (c.pos.block, i)

end ReadingChunk

def trim (s : Bytes) : Bytes := trimEnd (s.dropWhile (· == 0x20))

/-- Its text is its range trimmed, with at most a full stop, and the range is cut between
characters. -/
structure ReadingChunk.WellCut (document : ReadingDocument) (c : ReadingChunk) : Prop where
 ne : c.text ≠ []
 below : c.pos.offset < c.stop document
 le : c.stop document ≤ (blockAt document c.pos.block).text.length
 starts : Boundary (blockAt document c.pos.block).text c.pos.offset
 ends : Boundary (blockAt document c.pos.block).text (c.stop document)
 said : c.text = trim (slice (blockAt document c.pos.block).text c.pos.offset (c.stop document)) ∨
  c.text = trim (slice (blockAt document c.pos.block).text c.pos.offset (c.stop document)) ++ utf8 "."

theorem trimEnd_ne_nil {c : UInt8} {s : Bytes} (hc : c ≠ 0x20) : trimEnd (c :: s) ≠ [] := by
 rw [trimEnd, ne_eq, reverse_eq_nil_iff, dropWhile_eq_nil_iff]
 intro h
 have := h c (by simp)
 exact hc (by simpa using this)

theorem chunkText_spec (block : ReadingBlock) {start stop : ℕ} (hlt : start < stop) (hstart : start < block.text.length)
  (hchar : block.text.getD start 0 ≠ 0x20) :
  chunkText block start stop ≠ [] ∧ (chunkText block start stop = trim (slice block.text start stop) ∨
   chunkText block start stop = trim (slice block.text start stop) ++ utf8 ".") := by
 obtain ⟨rest, hslice⟩ : ∃ rest, slice block.text start stop = block.text.getD start 0 :: rest := by
  obtain ⟨n, hn⟩ : ∃ n, stop - start = n + 1 := ⟨stop - start - 1, by omega⟩
  rw [slice, hn, drop_eq_getElem_cons hstart, take_succ_cons, getD_eq_getElem _ _ hstart]
  exact ⟨_, rfl⟩
 have htrim : trim (slice block.text start stop) = trimEnd (slice block.text start stop) := by
  rw [trim, hslice, dropWhile_cons_of_neg (by simpa using hchar)]
 have hne : trimEnd (slice block.text start stop) ≠ [] := by
  rw [hslice]
  exact trimEnd_ne_nil hchar
 have hdot : utf8 "." = [0x2E] := by decide
 rw [htrim, hdot, chunkText]
 generalize trimEnd (slice block.text start stop) = said at hne
 split_ifs
 · split
   · split_ifs
     · exact ⟨hne, .inl rfl⟩
     · exact ⟨by simp, .inr rfl⟩
   · exact ⟨hne, .inl rfl⟩
 · exact ⟨hne, .inl rfl⟩

section Document

variable {document : ReadingDocument} (hbuilt : ∀ b ∈ document, b.Built)
include hbuilt

theorem blockAt_built {b : ℕ} (h : b < document.length) : (blockAt document b).Built := by
 rw [blockAt, getD_eq_getElem _ _ h]
 exact hbuilt _ (getElem_mem h)

theorem chunkAt_none {pos : ReadingPosition} {maxChars endBlock : ℕ} (hb : AtBoundary document pos)
  (hend : endBlock ≤ document.length) : chunkAt document pos maxChars endBlock = none ↔ places document pos endBlock = [] := by
 obtain ⟨hplaces, hword, -⟩ := wordFrom_spec hbuilt pos endBlock hb
 rw [← hplaces, chunkAt, Nat.min_eq_left hend]
 dsimp only
 split_ifs with hdone
 · rw [places, if_neg (Nat.not_lt.2 hdone)]
   simp
 · have hhead := places_head (hword.resolve_left hdone)
   constructor
   · intro h
     exact absurd h (by simp)
   · intro h
     rw [h] at hhead
     exact absurd hhead (by simp)

/-- A chunk says what comes first of what there is to say, and leaves the rest for later. -/
theorem chunkAt_some {pos : ReadingPosition} {maxChars endBlock : ℕ} {c : ReadingChunk} (hb : AtBoundary document pos)
  (hend : endBlock ≤ document.length) (hc : chunkAt document pos maxChars endBlock = some c) :
  c.WellCut document ∧ AtWord document c.pos endBlock ∧ places document c.pos endBlock = places document pos endBlock ∧
   places document c.pos endBlock = c.places document ++ places document c.next endBlock ∧ AtBoundary document c.next := by
 obtain ⟨hplaces, hword, hboundary⟩ := wordFrom_spec hbuilt pos endBlock hb
 rw [chunkAt, Nat.min_eq_left hend] at hc
 dsimp only at hc
 by_cases hdone : endBlock ≤ (wordFrom document pos endBlock).block
 · rw [if_pos hdone] at hc
   exact absurd hc (by simp)
 rw [if_neg hdone] at hc
 have hat := hword.resolve_left hdone
 generalize wordFrom document pos endBlock = word at *
 have hblock := blockAt_built hbuilt (hat.block.trans_le hend)
 have hstop := @chunkEnd_spec _ _ (max maxChars 1) hblock hat.offset hboundary
 generalize chunkEnd (blockAt document word.block) word.offset (max maxChars 1) = k at hc hstop
 obtain ⟨hne, hsaid⟩ := chunkText_spec (blockAt document word.block) hstop.above hat.offset hat.char
 have hcat := Option.some.inj hc
 have hpos : c.pos = word := by rw [← hcat]
 have htext : c.text = chunkText (blockAt document word.block) word.offset k := by rw [← hcat]
 -- The rest begins in the block after this one, or further on in this one.
 have hrest : c.stop document = k ∧ places document word endBlock =
   (spots (blockAt document word.block).text word.offset k).map (fun i => (word.block, i)) ++
    places document c.next endBlock ∧ AtBoundary document c.next := by
  by_cases hlast : (blockAt document word.block).text.length ≤ k
  · have hk := le_antisymm hstop.le hlast
    have hnext : c.next = { block := word.block + 1 } := by rw [← hcat, if_pos hlast]
    refine ⟨?_, ?_, ?_⟩
    · rw [ReadingChunk.stop, hnext, hpos, if_neg (by simp), hk]
    · rw [hnext, places_of_lt document hat.block, blockSpots, hk]
    · rw [hnext]
      exact boundary_of_valid_drop (blockAt_valid hbuilt _)
  · have hnext : c.next = { block := word.block, offset := k } := by rw [← hcat, if_neg hlast]
    refine ⟨?_, ?_, ?_⟩
    · rw [ReadingChunk.stop, hnext, hpos, if_pos rfl]
    · have hmore : places document { block := word.block, offset := k } endBlock =
        blockSpots document k word.block ++ places document { block := word.block + 1 } endBlock :=
       @places_of_lt document { block := word.block, offset := k } _ hat.block
      rw [hnext, hmore, places_of_lt document hat.block, blockSpots, blockSpots,
       ← spots_append _ hstop.above.le hstop.le, map_append, append_assoc]
    · rw [hnext]
      exact hstop.boundary
 obtain ⟨hstop', hcovers, hnext⟩ := hrest
 have hcut : c.WellCut document := by
  constructor
  · rwa [htext]
  · rw [hstop', hpos]
    exact hstop.above
  · rw [hstop', hpos]
    exact hstop.le
  · rw [hpos]
    exact hboundary
  · rw [hstop', hpos]
    exact hstop.boundary
  · rw [htext, hstop', hpos]
    exact hsaid
 refine ⟨hcut, by rwa [hpos], by rw [hpos, hplaces], ?_, hnext⟩
 rw [ReadingChunk.places, hstop', hpos]
 exact hcovers

end Document

/-! ## Runs of the queue -/

inductive ReadingCall where
 | next (rate : SpeechEvents.Double)
 | spoken
 | stop

structure Reading where
 queue : ReadingQueue
 said : List ReadingChunk := []

namespace Reading

def step (r : Reading) : ReadingCall → Reading
 | .next rate => { r with queue := (r.queue.nextChunk rate).2 }
 | .spoken => { queue := r.queue.spoken, said := r.said ++ r.queue.handed.head?.toList }
 | .stop => { r with queue := r.queue.stop }

def run (r : Reading) (calls : List ReadingCall) : Reading := calls.foldl step r

def begin (q : ReadingQueue) (document : ReadingDocument) (pos : ReadingPosition) (endBlock : ℕ) : Reading :=
 { queue := q.start document pos endBlock }

end Reading

/-- Each chunk handed out says what there is to say up to the next one. -/
def Linked (document : ReadingDocument) (endBlock : ℕ) : List ReadingChunk → ReadingPosition → Prop
 | [], _ => True
 | c :: cs, next => c.WellCut document ∧ AtWord document c.pos endBlock ∧
   places document c.pos endBlock =
    c.places document ++ places document ((cs.head?.map ReadingChunk.pos).getD next) endBlock ∧
   Linked document endBlock cs next

theorem Linked.concat {document : ReadingDocument} {endBlock : ℕ} {cs : List ReadingChunk} {next : ReadingPosition}
  {c : ReadingChunk} (h : Linked document endBlock cs next) (hcut : c.WellCut document)
  (hword : AtWord document c.pos endBlock) (hpos : places document c.pos endBlock = places document next endBlock)
  (hcovers : places document c.pos endBlock = c.places document ++ places document c.next endBlock) :
  Linked document endBlock (cs ++ [c]) c.next := by
 induction cs with
 | nil => exact ⟨hcut, hword, hcovers, trivial⟩
 | cons d cs ih =>
  obtain ⟨hcutD, hwordD, hcoversD, hrest⟩ := h
  refine ⟨hcutD, hwordD, ?_, ih hrest⟩
  rw [hcoversD]
  cases cs with
  | nil =>
   change d.places document ++ places document next endBlock = d.places document ++ places document c.pos endBlock
   rw [hpos]
  | cons e cs => rfl

structure ReadingInv (document : ReadingDocument) (start : ReadingPosition) (endBlock : ℕ) (r : Reading) : Prop where
 reads : r.queue.document = document
 loaded : r.queue.loaded = true
 ends : r.queue.endBlock = endBlock
 next : AtBoundary document r.queue.next
 handed : Linked document endBlock r.queue.handed r.queue.next
 covered : r.said.flatMap (ReadingChunk.places document) ++ places document r.queue.position endBlock =
  places document start endBlock
 said : ∀ c ∈ r.said, c.WellCut document

section Runs

variable {document : ReadingDocument} {start : ReadingPosition} {endBlock : ℕ}

theorem ReadingInv.begin (q : ReadingQueue) (hstart : AtBoundary document start) :
  ReadingInv document start (min endBlock document.length) (Reading.begin q document start endBlock) :=
 ⟨rfl, rfl, rfl, hstart, trivial, rfl, by simp [Reading.begin]⟩

theorem ReadingInv.position_eq {r : Reading} :
  r.queue.position = (r.queue.handed.head?.map ReadingChunk.pos).getD r.queue.next := by
 rw [ReadingQueue.position]
 cases r.queue.handed <;> rfl

theorem ReadingInv.spoken {r : Reading} (h : ReadingInv document start endBlock r) :
  ReadingInv document start endBlock (r.step .spoken) := by
 have hcovered := h.covered
 have hlinked := h.handed
 rw [ReadingInv.position_eq] at hcovered
 rw [Reading.step, ReadingQueue.spoken]
 cases hhanded : r.queue.handed with
 | nil =>
  have hsame : ({ queue := r.queue, said := r.said ++ [].head?.toList } : Reading) = r := by simp
  rw [hsame]
  exact h
 | cons c cs =>
  rw [hhanded] at hcovered hlinked
  obtain ⟨hcut, -, hcovers, hrest⟩ := hlinked
  refine ⟨h.reads, h.loaded, h.ends, h.next, hrest, ?_, ?_⟩
  · have hsaid : (c :: cs).head?.toList = [c] := rfl
    rw [ReadingInv.position_eq, hsaid, flatMap_append, flatMap_singleton, append_assoc]
    dsimp only
    rw [← hcovers]
    exact hcovered
  · intro d hd
    rcases mem_append.1 hd with hd | hd
    · exact h.said d hd
    · obtain rfl := mem_singleton.1 hd
      exact hcut

theorem ReadingInv.stop {r : Reading} (h : ReadingInv document start endBlock r) :
  ReadingInv document start endBlock (r.step .stop) := by
 have hcovered := h.covered
 have hlinked := h.handed
 rw [ReadingInv.position_eq] at hcovered
 rw [Reading.step, ReadingQueue.stop]
 cases hhanded : r.queue.handed with
 | nil => exact h
 | cons c cs =>
  rw [hhanded] at hcovered hlinked
  exact ⟨h.reads, h.loaded, h.ends, hlinked.1.starts, trivial, hcovered, h.said⟩

section Built

variable (hbuilt : ∀ b ∈ document, b.Built) (hend : endBlock ≤ document.length)
include hbuilt hend

theorem ReadingInv.nextChunk {r : Reading} (h : ReadingInv document start endBlock r) (rate : SpeechEvents.Double) :
  ReadingInv document start endBlock (r.step (.next rate)) := by
 rw [Reading.step, ReadingQueue.nextChunk]
 split_ifs
 · exact h
 · rw [h.reads, h.ends]
   cases hc : chunkAt document r.queue.next (readingChunkChars rate) endBlock with
   | none => exact h
   | some c =>
    obtain ⟨hcut, hword, hpos, hcovers, hnext⟩ := chunkAt_some hbuilt h.next hend hc
    refine ⟨rfl, h.loaded, rfl, hnext, h.handed.concat hcut hword hpos hcovers, ?_, h.said⟩
    have hcovered := h.covered
    rw [ReadingInv.position_eq] at hcovered ⊢
    cases hhanded : r.queue.handed with
    | nil =>
     rw [hhanded] at hcovered
     rw [← hcovered]
     change _ ++ places document c.pos endBlock = _ ++ places document r.queue.next endBlock
     rw [hpos]
    | cons d ds =>
     rw [hhanded] at hcovered
     exact hcovered

theorem ReadingInv.run {r : Reading} (h : ReadingInv document start endBlock r) (calls : List ReadingCall) :
  ReadingInv document start endBlock (r.run calls) := by
 induction calls generalizing r with
 | nil => exact h
 | cons call calls ih =>
  refine ih ?_
  cases call with
  | next rate => exact h.nextChunk hbuilt hend rate
  | spoken => exact h.spoken
  | stop => exact h.stop

end Built

theorem Linked.mem {cs : List ReadingChunk} {next : ReadingPosition} (h : Linked document endBlock cs next) :
  ∀ c ∈ cs, c.WellCut document := by
 induction cs with
 | nil => simp
 | cons d cs ih =>
  intro c hc
  rcases mem_cons.1 hc with rfl | hc
  · exact h.1
  · exact ih h.2.2.2 c hc

end Runs

structure Faithful (document : ReadingDocument) (start : ReadingPosition) (endBlock : ℕ) (r : Reading) : Prop where
 /-- What was said and what is to be said make up the text, in order. -/
 covered : r.said.flatMap (ReadingChunk.places document) ++ places document r.queue.position endBlock =
  places document start endBlock
 cut : ∀ c ∈ r.said ++ r.queue.handed, c.WellCut document
 /-- The position is where the first chunk that is with the voice begins, also when it is stopped. -/
 position : ∀ c ∈ r.queue.handed.head?, r.queue.position = c.pos ∧ r.queue.stop.position = c.pos
 /-- The next chunk begins at the first word from the position on. -/
 resumes : r.queue.handed = [] → ∀ rate c, (r.queue.nextChunk rate).1 = some c →
  (places document r.queue.position endBlock).head? = some (c.pos.block, c.pos.offset)
 finished : r.queue.finished = true ↔ r.said.flatMap (ReadingChunk.places document) = places document start endBlock

theorem reading_faithful {document : ReadingDocument} (hbuilt : ∀ b ∈ document, b.Built) {start : ReadingPosition}
  (hstart : AtBoundary document start) (q : ReadingQueue) (endBlock : ℕ) (calls : List ReadingCall) :
  Faithful document start (min endBlock document.length) ((Reading.begin q document start endBlock).run calls) := by
 have hend : min endBlock document.length ≤ document.length := Nat.min_le_right ..
 have h := (@ReadingInv.begin _ _ endBlock q hstart).run hbuilt hend calls
 generalize (Reading.begin q document start endBlock).run calls = r at h
 generalize min endBlock document.length = last at h hend
 refine ⟨h.covered, ?_, ?_, ?_, ?_⟩
 · intro c hc
   rcases List.mem_append.1 hc with hc | hc
   · exact h.said c hc
   · exact h.handed.mem c hc
 · intro c hc
   rw [ReadingQueue.stop, ReadingQueue.position]
   cases hhanded : r.queue.handed with
   | nil =>
    rw [hhanded] at hc
    exact absurd hc (by simp)
   | cons d ds =>
    rw [hhanded] at hc
    obtain rfl := Option.some.inj hc
    exact ⟨rfl, rfl⟩
 · intro hhanded rate c hc
   rw [ReadingQueue.nextChunk, h.reads, h.ends] at hc
   split_ifs at hc
   cases hchunk : chunkAt document r.queue.next (readingChunkChars rate) last with
   | none =>
    rw [hchunk] at hc
    exact absurd hc (by simp)
   | some d =>
    rw [hchunk] at hc
    obtain rfl := Option.some.inj hc
    obtain ⟨-, hword, hpos, -, -⟩ := chunkAt_some hbuilt h.next hend hchunk
    rw [ReadingQueue.position, hhanded]
    dsimp only
    rw [← hpos]
    exact places_head hword
 · have hcovered := h.covered
   have hall : r.said.flatMap (ReadingChunk.places document) = places document start last ↔
     places document r.queue.position last = [] := by
    rw [← hcovered]
    constructor
    · intro heq
      exact List.append_right_eq_self.1 heq.symm
    · intro hnil
      rw [hnil, List.append_nil]
   rw [hall, ReadingQueue.finished, h.loaded, h.reads, h.ends, Bool.true_and, Bool.and_eq_true,
    List.isEmpty_iff, Option.isNone_iff_eq_none, chunkAt_none hbuilt h.next hend]
   constructor
   · rintro ⟨hhanded, hnil⟩
     rwa [ReadingQueue.position, hhanded]
   · intro hnil
     cases hhanded : r.queue.handed with
     | nil =>
      rw [ReadingQueue.position, hhanded] at hnil
      exact ⟨rfl, hnil⟩
     | cons c cs =>
      have hlinked := h.handed
      rw [hhanded] at hlinked
      have hhead := places_head hlinked.2.1
      rw [ReadingQueue.position, hhanded] at hnil
      rw [hnil] at hhead
      exact absurd hhead (by simp)

theorem reading_faithful_hello :
  Faithful (textDocument (utf8 "Hello there. Go on")) {} (min 1 (textDocument (utf8 "Hello there. Go on")).length)
   ((Reading.begin {} (textDocument (utf8 "Hello there. Go on")) {} 1).run
    [.next (.finite 1), .spoken, .next (.finite 2), .stop]) :=
 @reading_faithful _ (textDocument_built _) {}
  (boundary_of_valid_drop (k := 0) (blockAt_valid (textDocument_built (utf8 "Hello there. Go on")) 0)) {} 1 _

/-- A word as long as a chunk: once it is said the position is at the space after it, and the
next chunk begins past that. -/
theorem position_before_space :
  ((Reading.begin {} (textDocument (List.replicate 80 0x61 ++ utf8 " b")) {} 1).run
   [.next (.finite (1 / 10)), .spoken]).queue.position = { offset := 80 } ∧
  (((Reading.begin {} (textDocument (List.replicate 80 0x61 ++ utf8 " b")) {} 1).run
   [.next (.finite (1 / 10)), .spoken]).queue.nextChunk (.finite (1 / 10))).1.map ReadingChunk.pos =
    some { offset := 81 } := by
 decide +kernel

end MoltBrowser.Voice
