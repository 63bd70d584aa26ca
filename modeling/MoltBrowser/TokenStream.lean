import MoltBrowser.StreamFilters

set_option autoImplicit false

/-!
# What the service streams

The generation loop of the engine: each decoded piece through the filters, what comes out
sent in chunks, everything held back released at the end. The browser checks every chunk
and runs the stop strings over them again.
-/
namespace MoltBrowser.TokenStream
open StreamFilters SelfSynchronizing List

def kMaxChunkBytes : ℕ := 4096

/-- Steps back from `cut` over the bytes of a character. -/
def cutBack (text : Bytes) : ℕ → ℕ
 | 0 => 0
 | cut + 1 => if isContinuation (text.getD (cut + 1) 0) then cutBack text cut else cut + 1

def chunkCut (text : Bytes) : ℕ :=
 let cut := cutBack text kMaxChunkBytes
 if cut = 0 then kMaxChunkBytes else cut

def emitChunks (text : Bytes) : List Bytes :=
 if _h : kMaxChunkBytes < text.length then
  text.take (chunkCut text) :: emitChunks (text.drop (chunkCut text))
 else if text = [] then [] else [text]
termination_by text.length
decreasing_by
 have : 0 < chunkCut text := by
  rw [chunkCut]
  split_ifs
  · decide
  · omega
 rw [length_drop]
 omega

structure Params where
 stopSequences : List Bytes
 grammar : Bool := false
 gemmaThoughts : Bool := false
 thoughtStartInside : Bool := false
 thinkStartInside : Bool := false

structure Emitter where
 harmony : HarmonyChannelFilter := {}
 gemma : GemmaThoughtFilter
 think : ThinkTagFilter
 utf8 : Utf8Assembler := {}
 stop : StopSequenceFilter
 out : Bytes := []

def Emitter.create (p : Params) : Emitter where
 gemma := .create (p.gemmaThoughts && p.thoughtStartInside)
 think := .create p.thinkStartInside
 stop := .create p.stopSequences

/-- The bytes that are whole characters, as they are displayed, past the stop strings. -/
def Emitter.display (e : Emitter) (bytes : Bytes) : Emitter :=
 let (whole, utf8) := e.utf8.push bytes
 let (shown, stop) := e.stop.feed (toDisplayText whole)
 { e with utf8, stop, out := e.out ++ shown }

def Emitter.feed (p : Params) (e : Emitter) (piece : Bytes) : Emitter :=
 if p.grammar then e.display piece
 else
  let (text, harmony) := e.harmony.feed piece
  let (text, gemma) := if p.gemmaThoughts then e.gemma.feed text else (text, e.gemma)
  let (text, think) := e.think.feed text
  { e with harmony, gemma, think }.display text

def Emitter.send (e : Emitter) : List Bytes × Emitter := (emitChunks e.out, { e with out := [] })

/-- A sampled token, or the tokens that force an answer out of the reasoning. -/
inductive Turn where
 | token (piece : Bytes)
 | force (pieces : List Bytes)

def Emitter.turn (p : Params) (e : Emitter) : Turn → Emitter
 | .token piece => e.feed p piece
 | .force pieces =>
  let e := pieces.foldl (Emitter.feed p) e
  let e := { e with gemma := e.gemma.forceClose }
  if e.think.inThink then e.feed p closeTag else e

/-- The held-back bytes go through in pipeline order. -/
def Emitter.finish (p : Params) (e : Emitter) : Emitter :=
 let (rest, think) :=
  if p.gemmaThoughts then e.think.feed e.gemma.flush.1 else ([], e.think)
 let (tail, think) := think.flush
 let (whole, utf8) := e.utf8.push (rest ++ tail)
 let (shown, stop) := e.stop.feed (toDisplayText (whole ++ utf8.flush.1))
 let (last, stop) := stop.flush
 { e with think, utf8 := {}, stop, out := e.out ++ shown ++ last }

def Emitter.run (p : Params) (e : Emitter) : List Turn → List Bytes
 | [] => (e.finish p).send.1
 | t :: turns =>
  let (chunks, e) := (e.turn p t).send
  chunks ++ e.run p turns

/-- The browser's side: a chunk that isn't UTF-8 is a violation; the rest goes through the
browser's own filter. -/
def onChunk (stop : StopSequenceFilter) (text : Bytes) : Option (Bytes × StopSequenceFilter) :=
 if text = [] then none
 else if kMaxChunkBytes < text.length then none
 else if !isValidUtf8 text then none
 else if stop.stopped then some ([], stop)
 else some (stop.feed (replaceNul text))

/-! ## Where the stop strings cut -/

section Stops

variable {stops : List Bytes} {s shown : Bytes} {f : StopSequenceFilter}

theorem atStart_of_valid {t : Bytes} (h : Valid t) : AtStart Leads t :=
 h.atStart wellFormed_synchronizing

theorem held_back_prefix (h : Watching stops s shown f) :
  f.pending = [] ∨ ∃ t ∈ stops, t ≠ [] ∧ f.pending <+: t := by
 rcases (longestMatch_spec f.stops).2 with hzero | ⟨stop, hstop, hmax⟩
 · exact .inl (length_eq_zero_iff.1 (h.held.trans hzero))
 · have hmem : stop.text ∈ stops.filter (· ≠ []) := by
    rw [← h.follow.texts]
    exact mem_map_of_mem hstop
   obtain ⟨hmem, hne⟩ := mem_filter.1 hmem
   refine .inr ⟨stop.text, hmem, by simpa using hne, ?_⟩
   have hlongest := (h.follow.ready stop hstop).longest
   have hlen : f.pending.length = (stop.text.take stop.matched).length := by
    rw [h.held, hmax, length_take, min_eq_left hlongest.lt.le]
   have heq : f.pending = stop.text.take stop.matched := by
    have hpending : f.pending <:+ s := ⟨shown, h.split⟩
    exact (suffix_of_suffix_length_le hpending hlongest.ends hlen.le).eq_of_length hlen
   rw [heq]
   exact take_prefix _ _

theorem remainder_atStart (hstops : ∀ t ∈ stops, Valid t) (h : Tracks stops s shown f) :
  ∃ rest, shown ++ rest = s ∧ AtStart Leads rest := by
 rcases h with h | h
 · refine ⟨f.pending, h.split, ?_⟩
   rcases held_back_prefix h with hnone | ⟨t, ht, -, more, rfl⟩
   · rw [hnone]
     exact atStart_of_valid .nil
   · intro c hc
     have hstart := atStart_of_valid (hstops _ ht)
     refine hstart c ?_
     rw [head?_append, hc]
     rfl
 · obtain ⟨e, t, hfirst, rfl⟩ := h.cut
   refine ⟨s.drop (e - t.length), take_append_drop _ _, ?_⟩
   obtain ⟨before, hbefore⟩ := hfirst.ends
   have hlen : before.length = e - t.length := by
    have hle := congrArg List.length hbefore
    rw [length_append, length_take, min_eq_left hfirst.within] at hle
    omega
   have hdrop : s.drop (e - t.length) = t ++ s.drop e := by
    conv_lhs => rw [← take_append_drop e s, ← hbefore, append_assoc, ← hlen]
    exact drop_left
   rw [hdrop]
   exact atStart_append (atStart_of_valid (hstops t hfirst.mem)) hfirst.nonempty _

theorem feed_tracks (h : Tracks stops s shown f) (text : Bytes) :
  Tracks stops (s ++ text) (shown ++ (f.feed text).1) (f.feed text).2 := by
 rcases h with h | h
 · exact feed_watching h text
 · exact .inr (feed_halted h text)

theorem feed_valid (hstops : ∀ t ∈ stops, Valid t) (h : Tracks stops s shown f) (hs : Valid s)
  {text : Bytes} (htext : Valid text) : Valid (f.feed text).1 := by
 rcases h with h | h
 · obtain ⟨rest, hrest, hstart⟩ := remainder_atStart hstops (.inl h)
   obtain ⟨rest', hrest', hstart'⟩ := remainder_atStart hstops (feed_watching h text)
   rw [← hrest] at hs
   have hvalid := (hs.split wellFormed_synchronizing hstart).2.append htext
   rw [← hrest, append_assoc, append_assoc] at hrest'
   rw [← append_cancel_left hrest'] at hvalid
   exact (hvalid.split wellFormed_synchronizing hstart').1
 · rw [StopSequenceFilter.feed, if_pos h.stopped]
   exact .nil

theorem flush_valid (hstops : ∀ t ∈ stops, Valid t) (h : Tracks stops s shown f) (hs : Valid s) :
  Valid f.flush.1 ∧ Quiet stops (shown ++ f.flush.1) ∧ shown ++ f.flush.1 <+: s := by
 rcases h with h | h
 · obtain ⟨rest, hrest, hstart⟩ := remainder_atStart hstops (.inl h)
   have hflush : f.flush.1 = rest := append_cancel_left (h.flush.trans hrest.symm)
   rw [← hrest] at hs
   refine ⟨hflush ▸ (hs.split wellFormed_synchronizing hstart).2, ?_, ?_⟩
   · rw [h.flush]
     exact h.quiet
   · rw [h.flush]
 · obtain ⟨e, t, hfirst, rfl⟩ := h.cut
   rw [h.flush, append_nil]
   exact ⟨.nil, hfirst.quiet_before, take_prefix _ _⟩

theorem shown_prefix (h : Tracks stops s shown f) : shown <+: s := by
 rcases h with h | h
 · exact ⟨f.pending, h.split⟩
 · obtain ⟨e, t, -, rfl⟩ := h.cut
   exact take_prefix _ _

end Stops

/-! ## Chunks -/

theorem cutBack_le (text : Bytes) (cut : ℕ) : cutBack text cut ≤ cut := by
 induction cut with
 | zero => exact le_refl _
 | succ cut ih =>
  rw [cutBack]
  split_ifs
  · omega
  · exact le_refl _

theorem cutBack_spec (text : Bytes) {lead cut : ℕ} (hle : lead ≤ cut) (hpos : 0 < lead)
  (hlead : isContinuation (text.getD lead 0) = false) :
  lead ≤ cutBack text cut ∧ isContinuation (text.getD (cutBack text cut) 0) = false := by
 induction cut with
 | zero => omega
 | succ cut ih =>
  rw [cutBack]
  split_ifs with hcont
  · refine ih ?_
    have hne : lead ≠ cut + 1 := by
     rintro rfl
     rw [hcont] at hlead
     exact absurd hlead (by simp)
    omega
  · exact ⟨hle, by simpa using hcont⟩

/-- A long text has a character that begins within its first chunk, so that the cut is there. -/
theorem chunkCut_spec {text : Bytes} (h : Valid text) (hlen : kMaxChunkBytes < text.length) :
  0 < chunkCut text ∧ chunkCut text ≤ kMaxChunkBytes ∧ AtStart Leads (text.drop (chunkCut text)) := by
 cases h with
 | nil => exact absurd hlen (by simp)
 | @cons w rest hw hrest =>
  obtain ⟨c, tail, rfl, -⟩ := wellFormed_synchronizing.starts hw
  have hshape := (matched_of_wellFormed hw []).2
  have hfour := (shapeOf_spec c).2.2.2
  have hrestne : rest ≠ [] := by
   rintro rfl
   simp only [append_nil, length_cons, kMaxChunkBytes] at hlen
   omega
  have hlead : isContinuation (((c :: tail) ++ rest).getD (tail.length + 1) 0) = false := by
   cases rest with
   | nil => exact absurd rfl hrestne
   | cons d rest =>
    rw [getD_append_right _ _ _ _ (by simp)]
    simpa [AtStart, Leads] using atStart_of_valid hrest
  obtain ⟨hle, hcont⟩ := cutBack_spec _ (show tail.length + 1 ≤ kMaxChunkBytes by simp [kMaxChunkBytes]; omega)
   (Nat.succ_pos _) hlead
  have hcut : chunkCut ((c :: tail) ++ rest) = cutBack ((c :: tail) ++ rest) kMaxChunkBytes :=
   if_neg (by omega)
  rw [hcut]
  refine ⟨by omega, cutBack_le _ _, fun d hd => ?_⟩
  rw [head?_drop] at hd
  rw [getD_eq_getElem?_getD, hd] at hcont
  exact hcont

theorem emitChunks_spec {text : Bytes} (h : Valid text) :
  (emitChunks text).flatten = text ∧
   ∀ c ∈ emitChunks text, Valid c ∧ c ≠ [] ∧ c.length ≤ kMaxChunkBytes := by
 induction text using emitChunks.induct with
 | case1 text hlen ih =>
  obtain ⟨hpos, hle, hstart⟩ := chunkCut_spec h hlen
  rw [← take_append_drop (chunkCut text) text] at h
  obtain ⟨hfirst, hrest⟩ := h.split wellFormed_synchronizing hstart
  obtain ⟨hflat, hall⟩ := ih hrest
  rw [emitChunks, dif_pos hlen]
  refine ⟨by rw [flatten_cons, hflat, take_append_drop], fun c hc => ?_⟩
  rcases mem_cons.1 hc with rfl | hc
  · refine ⟨hfirst, ?_, (length_take_le _ _).trans hle⟩
    rw [← length_pos_iff, length_take]
    omega
  · exact hall c hc
 | case2 hlen =>
  rw [emitChunks, dif_neg hlen, if_pos rfl]
  simp
 | case3 text hlen hne =>
  rw [emitChunks, dif_neg hlen, if_neg hne]
  simpa using ⟨h, hne, Nat.le_of_not_lt hlen⟩

/-! ## The stream -/

/-- What `e` has been given to display, of which `sent` went out. -/
structure Streams (stops : List Bytes) (sent : Bytes) (e : Emitter) (s : Bytes) : Prop where
 tracks : Tracks stops s (sent ++ e.out) e.stop
 valid : Valid s
 nul : 0 ∉ s
 out : Valid e.out

theorem Streams.same {stops : List Bytes} {sent s : Bytes} {e e' : Emitter} (h : Streams stops sent e s)
  (hstop : e'.stop = e.stop) (hout : e'.out = e.out) : Streams stops sent e' s :=
 ⟨by rw [hout, hstop]; exact h.tracks, h.valid, h.nul, by rw [hout]; exact h.out⟩

theorem send_streams {stops : List Bytes} {sent s : Bytes} {e : Emitter} (h : Streams stops sent e s) :
  Streams stops (sent ++ e.send.1.flatten) e.send.2 s ∧
   ∀ c ∈ e.send.1, Valid c ∧ c ≠ [] ∧ c.length ≤ kMaxChunkBytes ∧ 0 ∉ c := by
 obtain ⟨hflat, hall⟩ := emitChunks_spec h.out
 refine ⟨⟨?_, h.valid, h.nul, .nil⟩, fun c hc => ?_⟩
 · rw [Emitter.send, hflat, append_nil]
   exact h.tracks
 · obtain ⟨hvalid, hne, hlen⟩ := hall c hc
   refine ⟨hvalid, hne, hlen, fun h0 => h.nul ?_⟩
   have hmem : 0 ∈ e.out := by
    rw [← hflat]
    exact mem_flatten.2 ⟨c, hc, h0⟩
   exact ( shown_prefix h.tracks).subset (mem_append_right _ hmem)

theorem feed_displays (p : Params) (e : Emitter) (piece : Bytes) : ∃ (e' : Emitter) (text : Bytes),
  e.feed p piece = e'.display text ∧ e'.stop = e.stop ∧ e'.out = e.out := by
 rw [Emitter.feed]
 split_ifs
 · exact ⟨e, piece, rfl, rfl, rfl⟩
 · exact ⟨_, _, rfl, rfl, rfl⟩
 · exact ⟨_, _, rfl, rfl, rfl⟩

section Stream

variable {p : Params} (hstops : ∀ t ∈ p.stopSequences, Valid t) {sent s : Bytes} {e : Emitter}
include hstops

theorem display_streams (h : Streams p.stopSequences sent e s) (bytes : Bytes) :
  ∃ s', Streams p.stopSequences sent (e.display bytes) s' := by
 obtain ⟨hvalid, hnul⟩ := toDisplayText_valid (e.utf8.push bytes).1
 refine ⟨s ++ toDisplayText (e.utf8.push bytes).1, ?_, h.valid.append hvalid, ?_, ?_⟩
 · have htracks := feed_tracks h.tracks (toDisplayText (e.utf8.push bytes).1)
   rwa [append_assoc] at htracks
 · simp [h.nul, hnul]
 · exact h.out.append (feed_valid hstops h.tracks h.valid hvalid)

theorem feed_streams (h : Streams p.stopSequences sent e s) (piece : Bytes) :
  ∃ s', Streams p.stopSequences sent (e.feed p piece) s' := by
 obtain ⟨e', text, hfeed, hstop, hout⟩ := feed_displays p e piece
 rw [hfeed]
 exact display_streams hstops (h.same hstop hout) text

theorem feeds_streams (h : Streams p.stopSequences sent e s) (pieces : List Bytes) :
  ∃ s', Streams p.stopSequences sent (pieces.foldl (Emitter.feed p) e) s' := by
 induction pieces generalizing e s with
 | nil => exact ⟨s, h⟩
 | cons piece pieces ih =>
  obtain ⟨s', h'⟩ := feed_streams hstops h piece
  exact ih h'

theorem turn_streams (h : Streams p.stopSequences sent e s) (t : Turn) :
  ∃ s', Streams p.stopSequences sent (e.turn p t) s' := by
 cases t with
 | token piece => exact feed_streams hstops h piece
 | force pieces =>
  obtain ⟨s', h'⟩ := feeds_streams hstops h pieces
  have hclosed : Streams p.stopSequences sent { pieces.foldl (Emitter.feed p) e with
    gemma := (pieces.foldl (Emitter.feed p) e).gemma.forceClose } s' := h'.same rfl rfl
  rw [Emitter.turn]
  dsimp only
  split_ifs
  · exact feed_streams hstops hclosed closeTag
  · exact ⟨s', hclosed⟩

theorem finish_streams (h : Streams p.stopSequences sent e s) :
  Valid (e.finish p).out ∧ Quiet p.stopSequences (sent ++ (e.finish p).out) ∧ 0 ∉ (e.finish p).out := by
 have hout : ∃ bytes, (e.finish p).out = e.out ++ (e.stop.feed (toDisplayText bytes)).1 ++
   (e.stop.feed (toDisplayText bytes)).2.flush.1 := ⟨_, rfl⟩
 obtain ⟨bytes, hout⟩ := hout
 obtain ⟨hvalid, hnul⟩ := toDisplayText_valid bytes
 have htracks := feed_tracks h.tracks (toDisplayText bytes)
 obtain ⟨hlast, hquiet, hprefix⟩ := flush_valid hstops htracks (h.valid.append hvalid)
 rw [hout]
 refine ⟨(h.out.append (feed_valid hstops h.tracks h.valid hvalid)).append hlast, ?_, fun h0 => ?_⟩
 · simpa only [append_assoc] using hquiet
 · rw [append_assoc] at h0
   have hmem := mem_append_right sent h0
   rw [← append_assoc, ← append_assoc] at hmem
   rcases mem_append.1 ( hprefix.subset hmem) with hmem | hmem
   · exact h.nul hmem
   · exact hnul hmem

theorem run_streams (h : Streams p.stopSequences sent e s) (turns : List Turn) :
  (∀ c ∈ e.run p turns, Valid c ∧ c ≠ [] ∧ c.length ≤ kMaxChunkBytes ∧ 0 ∉ c) ∧
   Quiet p.stopSequences (sent ++ (e.run p turns).flatten) := by
 induction turns generalizing sent s e with
 | nil =>
  obtain ⟨hvalid, hquiet, hnul⟩ := finish_streams hstops h
  obtain ⟨hflat, hall⟩ := emitChunks_spec hvalid
  refine ⟨fun c hc => ?_, ?_⟩
  · obtain ⟨hc', hne, hlen⟩ := hall c hc
    refine ⟨hc', hne, hlen, fun h0 => hnul ?_⟩
    rw [← hflat]
    exact mem_flatten.2 ⟨c, hc, h0⟩
  · rw [Emitter.run, Emitter.send, hflat]
    exact hquiet
 | cons t turns ih =>
  obtain ⟨s', h'⟩ := turn_streams hstops h t
  obtain ⟨hnext, hchunks⟩ := send_streams h'
  obtain ⟨hrest, hquiet⟩ := ih hnext
  rw [Emitter.run]
  refine ⟨fun c hc => ?_, ?_⟩
  · rcases mem_append.1 hc with hc | hc
    · exact hchunks c hc
    · exact hrest c hc
  · rw [flatten_append, ← append_assoc]
    exact hquiet

end Stream

theorem create_streams (p : Params) : Streams p.stopSequences [] (.create p) [] :=
 ⟨.inl (create_watching _), .nil, not_mem_nil, .nil⟩

theorem valid_stops {p : Params} (h : ∀ t ∈ p.stopSequences, isValidUtf8 t = true) :
  ∀ t ∈ p.stopSequences, Valid t :=
 fun t ht => (isValidUtf8_iff t).1 (h t ht)

/-- Whatever bytes the model decodes to, what the browser gets can be displayed chunk by chunk, has
no stop string in it, and goes through the browser's own filter unchanged. -/
theorem stream_displays (p : Params) (hstops : ∀ t ∈ p.stopSequences, isValidUtf8 t = true)
  (turns : List Turn) :
  (∀ c ∈ (Emitter.create p).run p turns, isValidUtf8 c = true ∧ 0 ∉ c) ∧
   (∀ t ∈ p.stopSequences, t ≠ [] → ¬ t <:+: ((Emitter.create p).run p turns).flatten) ∧
   (StopSequenceFilter.create p.stopSequences).shownAll ((Emitter.create p).run p turns) =
    ((Emitter.create p).run p turns).flatten := by
 obtain ⟨hchunks, hquiet⟩ := run_streams (valid_stops hstops) (create_streams p) turns
 rw [List.nil_append] at hquiet
 refine ⟨fun c hc => ?_, quiet_iff.1 hquiet, (shownAll_of_quiet hquiet).1⟩
 obtain ⟨hvalid, -, -, hnul⟩ := hchunks c hc
 exact ⟨(isValidUtf8_iff c).2 hvalid, hnul⟩

/-- A stop string that begins with the second half of a token's character. -/
theorem stream_displays_accent :
  (∀ c ∈ (Emitter.create { stopSequences := [[0xC3, 0xA9, 0x21]] }).run
    { stopSequences := [[0xC3, 0xA9, 0x21]] } [.token [0x63, 0xC3], .token [0xA9], .token [0x21, 0x63]],
   isValidUtf8 c = true ∧ 0 ∉ c) ∧
  ¬ [0xC3, 0xA9, 0x21] <:+: ((Emitter.create { stopSequences := [[0xC3, 0xA9, 0x21]] }).run
   { stopSequences := [[0xC3, 0xA9, 0x21]] } [.token [0x63, 0xC3], .token [0xA9], .token [0x21, 0x63]]).flatten := by
 have hvalid : isValidUtf8 [0xC3, 0xA9, 0x21] = true := (isValidUtf8_iff _).2
  (.cons (w := [0xC3, 0xA9]) ⟨0xC3, [0xA9], rfl, rfl, by decide +kernel, by decide +kernel⟩
   (.single (wellFormed_ascii (by decide +kernel))))
 have hdisplays := stream_displays { stopSequences := [[0xC3, 0xA9, 0x21]] }
  (fun t ht => by rw [List.mem_singleton.1 ht]; exact hvalid)
  [.token [0x63, 0xC3], .token [0xA9], .token [0x21, 0x63]]
 exact ⟨hdisplays.1, hdisplays.2.1 _ (List.mem_singleton_self _) (List.cons_ne_nil _ _)⟩

theorem browser_accepts (p : Params) (hstops : ∀ t ∈ p.stopSequences, isValidUtf8 t = true)
  (turns : List Turn) (f : StopSequenceFilter) {c : Bytes} (hc : c ∈ (Emitter.create p).run p turns) :
  onChunk f c = some (f.feed c) := by
 obtain ⟨hvalid, hne, hlen, hnul⟩ := (run_streams (valid_stops hstops) (create_streams p) turns).1 c hc
 rw [onChunk, if_neg hne, if_neg (Nat.not_lt.2 hlen), (isValidUtf8_iff c).2 hvalid,
  replaceNul_of_not_mem hnul]
 split_ifs with h
 · simp at h
 · rw [StopSequenceFilter.feed, if_pos (by assumption)]
 · rfl

end MoltBrowser.TokenStream
