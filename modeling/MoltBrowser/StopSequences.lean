import MoltBrowser.Bytes
import MoltBrowser.KnuthMorrisPratt

set_option autoImplicit false

/-!
# Stop strings

The filter the service and the browser both run over the visible text: it cuts the
text at the first stop string, and holds back what could still become one.
-/
namespace MoltBrowser.StreamFilters
open KnuthMorrisPratt List

structure Stop where
 text : Bytes
 failure : List ℕ
 matched : ℕ := 0

structure StopSequenceFilter where
 stops : List Stop
 pending : Bytes := []
 stopped : Bool := false

def StopSequenceFilter.create (stopSequences : List Bytes) : StopSequenceFilter where
 stops := (stopSequences.filter (· ≠ [])).map fun text => { text, failure := failureTable text }

/-- One byte for every stop string in turn, up to the first that it completes. -/
def matchByte (c : UInt8) : List Stop → List Stop × Option ℕ
 | [] => ([], none)
 | stop :: rest =>
  let k := advance stop.text stop.failure c stop.matched
  if k = stop.text.length then (stop :: rest, some k)
  else
   let (rest, found) := matchByte c rest
   ({ stop with matched := k } :: rest, found)

/-- The bytes from index `i` of what is pending on, and where to cut it. -/
def matchBytes (stops : List Stop) (i : ℕ) : Bytes → List Stop × Option ℕ
 | [] => (stops, none)
 | c :: text =>
  match matchByte c stops with
  | (stops, some k) => (stops, some (i + 1 - k))
  | (stops, none) => matchBytes stops (i + 1) text

def longestMatch (stops : List Stop) : ℕ :=
 stops.foldl (fun hold stop => max hold stop.matched) 0

def StopSequenceFilter.feed (f : StopSequenceFilter) (text : Bytes) : Bytes × StopSequenceFilter :=
 if f.stopped then ([], f)
 else if f.stops = [] then (text, f)
 else
  let pending := f.pending ++ text
  match matchBytes f.stops f.pending.length text with
  | (stops, some cut) => (pending.take cut, { stops, pending := [], stopped := true })
  | (stops, none) =>
   let hold := min (longestMatch stops) pending.length
   (pending.take (pending.length - hold),
    { f with stops, pending := pending.drop (pending.length - hold) })

def StopSequenceFilter.flush (f : StopSequenceFilter) : Bytes × StopSequenceFilter :=
 (if f.stopped then [] else f.pending,
  { f with pending := [], stops := f.stops.map fun stop => { stop with matched := 0 } })

def StopSequenceFilter.feedAll (f : StopSequenceFilter) : List Bytes → List Bytes × StopSequenceFilter
 | [] => ([], f)
 | piece :: pieces =>
  let (out, f) := f.feed piece
  let (outs, f) := f.feedAll pieces
  (out :: outs, f)

/-! ## What the filter is for -/

/-- `t` is the stop string of `stops` that completes earliest in `s`, at its byte `e`: of those
completing there the first in the list. -/
structure CompletesFirst (stops : List Bytes) (s : Bytes) (e : ℕ) (t : Bytes) : Prop where
 within : e ≤ s.length
 nonempty : t ≠ []
 ends : t <:+ s.take e
 listed : ∃ before after, stops = before ++ t :: after ∧ ∀ u ∈ before, u ≠ [] → ¬ u <:+ s.take e
 earliest : ∀ e' < e, ∀ u ∈ stops, u ≠ [] → ¬ u <:+ s.take e'

/-- No stop string has completed anywhere in `s`. -/
def Quiet (stops : List Bytes) (s : Bytes) : Prop :=
 ∀ e ≤ s.length, ∀ u ∈ stops, u ≠ [] → ¬ u <:+ s.take e

theorem quiet_iff {stops : List Bytes} {s : Bytes} :
  Quiet stops s ↔ ∀ u ∈ stops, u ≠ [] → ¬ u <:+: s := by
 constructor
 · rintro h u hu hne ⟨before, after, rfl⟩
   refine h (before.length + u.length) (by simp) u hu hne ⟨before, ?_⟩
   rw [take_left' (by simp)]
 · intro h e _ u hu hne hsuf
   exact h u hu hne (hsuf.isInfix.trans (List.take_prefix e s).isInfix)

variable {t : Bytes} {e : ℕ}

theorem CompletesFirst.mem {stops : List Bytes} {s : Bytes} (h : CompletesFirst stops s e t) :
  t ∈ stops := by
 obtain ⟨before, after, rfl, -⟩ := h.listed
 simp

theorem CompletesFirst.le {stops : List Bytes} {s : Bytes} (h : CompletesFirst stops s e t) :
  t.length ≤ e := by
 have := h.ends.length_le
 rw [length_take] at this
 omega

theorem CompletesFirst.more {stops : List Bytes} {s : Bytes} (h : CompletesFirst stops s e t)
  (more : Bytes) : CompletesFirst stops (s ++ more) e t := by
 have htake : ∀ e' ≤ e, (s ++ more).take e' = s.take e' := fun e' he =>
  take_append_of_le_length (he.trans h.within)
 obtain ⟨before, after, hstops, hbefore⟩ := h.listed
 refine ⟨?_, h.nonempty, ?_, ⟨before, after, hstops, ?_⟩, ?_⟩
 · rw [length_append]
   exact h.within.trans (Nat.le_add_right _ _)
 · rw [htake e (le_refl e)]
   exact h.ends
 · rw [htake e (le_refl e)]
   exact hbefore
 · intro e' he
   rw [htake e' he.le]
   exact h.earliest e' he

theorem CompletesFirst.not_quiet {stops : List Bytes} {s : Bytes}
  (h : CompletesFirst stops s e t) : ¬ Quiet stops s :=
 fun hq => hq e h.within t h.mem h.nonempty h.ends

theorem CompletesFirst.unique {stops : List Bytes} {s t' : Bytes} {e' : ℕ}
  (h : CompletesFirst stops s e t) (h' : CompletesFirst stops s e' t') : e = e' ∧ t = t' := by
 obtain rfl : e = e' := by
  rcases Nat.lt_trichotomy e e' with hlt | heq | hgt
  · exact absurd h.ends (h'.earliest e hlt t h.mem h.nonempty)
  · exact heq
  · exact absurd h'.ends (h.earliest e' hgt t' h'.mem h'.nonempty)
 refine ⟨rfl, ?_⟩
 obtain ⟨before, after, hstops, hbefore⟩ := h.listed
 obtain ⟨before', after', hstops', hbefore'⟩ := h'.listed
 rw [hstops] at hstops'
 rcases append_eq_append_iff.1 hstops' with ⟨mid, rfl, hmid⟩ | ⟨mid, rfl, hmid⟩
 · cases mid with
   | nil => exact (List.cons.inj hmid).1
   | cons u mid =>
    obtain rfl := (List.cons.inj hmid).1
    exact absurd h.ends (hbefore' t (by simp) h.nonempty)
 · cases mid with
   | nil => exact (List.cons.inj hmid).1.symm
   | cons u mid =>
    obtain rfl := (List.cons.inj hmid).1
    exact absurd h'.ends (hbefore t' (by simp) h'.nonempty)

theorem CompletesFirst.quiet_before {stops : List Bytes} {s : Bytes}
  (h : CompletesFirst stops s e t) : Quiet stops (s.take (e - t.length)) := by
 intro e' he u hu hne hsuf
 have hpos := length_pos_iff.2 h.nonempty
 have hle := h.le
 rw [length_take] at he
 rw [take_take, min_eq_left (by omega)] at hsuf
 exact h.earliest e' (by omega) u hu hne hsuf

/-! ## The stop strings as the text goes by -/

/-- One stop string's state after the text `s`. -/
structure Ready (s : Bytes) (stop : Stop) : Prop where
 borders : Borders stop.text stop.failure
 complete : stop.failure.length = stop.text.length
 longest : Longest stop.text s stop.matched

theorem ready_create {text : Bytes} (h : text ≠ []) :
  Ready [] { text, failure := failureTable text } :=
 ⟨(failureTable_spec h).1, (failureTable_spec h).2, longest_nil h⟩

theorem Ready.table_covers {s : Bytes} {stop : Stop} (h : Ready s stop) :
  stop.matched ≤ stop.failure.length := by
 rw [h.complete]
 exact h.longest.lt.le

theorem Ready.completes_iff {s : Bytes} {stop : Stop} (h : Ready s stop) (c : UInt8) :
  advance stop.text stop.failure c stop.matched = stop.text.length ↔ stop.text <:+ s ++ [c] :=
 advance_eq_length h.borders h.table_covers h.longest

variable {c : UInt8}

theorem Ready.advance {s : Bytes} {stop : Stop} (h : Ready s stop)
  (hne : ¬ stop.text <:+ s ++ [c]) :
  Ready (s ++ [c]) { stop with matched := advance stop.text stop.failure c stop.matched } where
 borders := h.borders
 complete := h.complete
 longest := advance_longest h.borders h.table_covers h.longest (mt (h.completes_iff c).1 hne)

theorem Ready.advance_le {s : Bytes} {stop : Stop} (h : Ready s stop) (c : UInt8) :
  KnuthMorrisPratt.advance stop.text stop.failure c stop.matched ≤ stop.matched + 1 := by
 obtain ⟨hle, hends, -⟩ := advance_spec (c := c) h.borders h.table_covers h.longest
 cases hk : KnuthMorrisPratt.advance stop.text stop.failure c stop.matched with
 | zero => exact Nat.zero_le _
 | succ j =>
  rw [hk] at hle hends
  exact Nat.succ_le_succ (h.longest.longest j hle ((take_succ_suffix hle).1 hends).1)

/-- Every stop string follows the text `s`, of which `i` bytes are pending. -/
structure Follow (texts : List Bytes) (s : Bytes) (i : ℕ) (stops : List Stop) : Prop where
 texts : stops.map Stop.text = texts
 ready : ∀ stop ∈ stops, Ready s stop
 covers : ∀ stop ∈ stops, stop.matched ≤ i

variable {texts : List Bytes}

theorem Follow.tail {s : Bytes} {i : ℕ} {stop : Stop} {rest : List Stop}
  (h : Follow texts s i (stop :: rest)) : Follow (rest.map Stop.text) s i rest where
 texts := rfl
 ready u hu := h.ready u (mem_cons_of_mem _ hu)
 covers u hu := h.covers u (mem_cons_of_mem _ hu)

theorem matchByte_none {s : Bytes} {i : ℕ} {stops stops' : List Stop}
  (h : Follow texts s i stops) (hm : matchByte c stops = (stops', none)) :
  Follow texts (s ++ [c]) (i + 1) stops' ∧ ∀ t ∈ texts, ¬ t <:+ s ++ [c] := by
 induction stops generalizing texts stops' with
 | nil =>
  obtain ⟨rfl, -⟩ := Prod.mk.inj hm
  obtain rfl := h.texts
  exact ⟨⟨rfl, by simp, by simp⟩, by simp⟩
 | cons stop rest ih =>
  have hready := h.ready stop (mem_cons_self ..)
  rw [matchByte] at hm
  dsimp only at hm
  split_ifs at hm with hk
  · exact absurd (Prod.mk.inj hm).2 (by simp)
  · obtain ⟨rfl, hnone⟩ := Prod.mk.inj hm
    have hnot := mt (hready.completes_iff c).2 hk
    obtain ⟨hrest, hquiet⟩ := ih h.tail (Prod.ext rfl hnone)
    obtain rfl := h.texts
    refine ⟨⟨by simp [hrest.texts], ?_, ?_⟩, ?_⟩
    · intro u hu
      rcases mem_cons.1 hu with rfl | hu
      · exact hready.advance hnot
      · exact hrest.ready u hu
    · intro u hu
      rcases mem_cons.1 hu with rfl | hu
      · exact (hready.advance_le c).trans (Nat.succ_le_succ (h.covers stop (mem_cons_self ..)))
      · exact hrest.covers u hu
    · intro t ht
      rcases mem_cons.1 ht with rfl | ht
      · exact hnot
      · exact hquiet t ht

theorem matchByte_some {s : Bytes} {i k : ℕ} {stops stops' : List Stop}
  (h : Follow texts s i stops) (hm : matchByte c stops = (stops', some k)) :
  ∃ before t after, texts = before ++ t :: after ∧ t.length = k ∧ k ≤ i + 1 ∧ t ≠ [] ∧
   t <:+ s ++ [c] ∧ ∀ u ∈ before, ¬ u <:+ s ++ [c] := by
 induction stops generalizing texts stops' with
 | nil => exact absurd (Prod.mk.inj hm).2 (by simp)
 | cons stop rest ih =>
  have hready := h.ready stop (mem_cons_self ..)
  rw [matchByte] at hm
  dsimp only at hm
  obtain rfl := h.texts
  split_ifs at hm with hk
  · obtain rfl := Option.some.inj (Prod.mk.inj hm).2
    have hle := (hready.advance_le c).trans (Nat.succ_le_succ (h.covers stop (mem_cons_self ..)))
    refine ⟨[], stop.text, rest.map Stop.text, rfl, hk.symm, hle, ?_, (hready.completes_iff c).1 hk, by simp⟩
    exact length_pos_iff.1 (Nat.zero_lt_of_lt hready.longest.lt)
  · obtain ⟨-, hsome⟩ := Prod.mk.inj hm
    obtain ⟨before, t, after, htexts, hrest, hle, hne, hends, hbefore⟩ := ih h.tail (Prod.ext rfl hsome)
    refine ⟨stop.text :: before, t, after, by simp [htexts], hrest, hle, hne, hends, fun u hu => ?_⟩
    rcases mem_cons.1 hu with rfl | hu
    · exact mt (hready.completes_iff c).2 hk
    · exact hbefore u hu

theorem completesFirst_snoc {stops before after : List Bytes} {s : Bytes}
  (hquiet : Quiet stops s) (htexts : stops.filter (· ≠ []) = before ++ t :: after) (hne : t ≠ [])
  (hends : t <:+ s ++ [c]) (hbefore : ∀ u ∈ before, ¬ u <:+ s ++ [c]) :
  CompletesFirst stops (s ++ [c]) (s.length + 1) t := by
 have hall : (s ++ [c]).take (s.length + 1) = s ++ [c] := take_of_length_le (by simp)
 refine ⟨by simp, hne, by rwa [hall], ?_, ?_⟩
 · obtain ⟨first, rest, rfl, hfirst, hrest⟩ := filter_eq_append_iff.1 htexts
   obtain ⟨empty, after', rfl, hempty, -, -⟩ := filter_eq_cons_iff.1 hrest
   refine ⟨first ++ empty, after', by simp, fun u hu hune => ?_⟩
   rw [hall]
   rcases mem_append.1 hu with hu | hu
   · refine hbefore u ?_
     rw [← hfirst]
     exact mem_filter.2 ⟨hu, by simpa using hune⟩
   · exact absurd (by simpa using hune) (hempty u hu)
 · intro e' he u hu hune
   rw [take_append_of_le_length (by omega)]
   exact hquiet e' (by omega) u hu hune

theorem Quiet.snoc {stops : List Bytes} {s : Bytes} (h : Quiet stops s)
  (hc : ∀ u ∈ stops.filter (· ≠ []), ¬ u <:+ s ++ [c]) : Quiet stops (s ++ [c]) := by
 intro e he u hu hne
 rw [length_append, length_singleton] at he
 rcases Nat.lt_or_ge s.length e with hlt | hle
 · rw [take_of_length_le (by simp; omega)]
   exact hc u (mem_filter.2 ⟨hu, by simpa using hne⟩)
 · rw [take_append_of_le_length hle]
   exact h e hle u hu hne

theorem matchBytes_no_stops (i : ℕ) (text : Bytes) : matchBytes [] i text = ([], none) := by
 induction text generalizing i with
 | nil => rfl
 | cons c text ih => exact ih (i + 1)

section Bytes

variable {stops : List Bytes} {s text : Bytes} {i : ℕ} {list list' : List Stop}

theorem matchBytes_none (h : Follow (stops.filter (· ≠ [])) s i list) (hquiet : Quiet stops s)
  (hm : matchBytes list i text = (list', none)) :
  Follow (stops.filter (· ≠ [])) (s ++ text) (i + text.length) list' ∧ Quiet stops (s ++ text) := by
 induction text generalizing s i list with
 | nil =>
  obtain ⟨rfl, -⟩ := Prod.mk.inj hm
  simpa using And.intro h hquiet
 | cons c text ih =>
  rw [matchBytes] at hm
  split at hm
  · exact absurd (Prod.mk.inj hm).2 (by simp)
  · rename_i list₁ hbyte
    obtain ⟨hfollow, hnot⟩ := matchByte_none h hbyte
    have hrest := ih hfollow (hquiet.snoc hnot) hm
    rwa [append_assoc, singleton_append, Nat.add_assoc, Nat.add_comm 1] at hrest

theorem matchBytes_some {cut : ℕ} (h : Follow (stops.filter (· ≠ [])) s i list)
  (hquiet : Quiet stops s) (hm : matchBytes list i text = (list', some cut)) :
  ∃ e t, CompletesFirst stops (s ++ text) e t ∧ s.length + cut + t.length = i + e := by
 induction text generalizing s i list with
 | nil => exact absurd (Prod.mk.inj hm).2 (by simp)
 | cons c text ih =>
  have hsplit : s ++ c :: text = (s ++ [c]) ++ text := by simp
  rw [matchBytes] at hm
  rw [hsplit]
  split at hm
  · rename_i list₁ k hbyte
    obtain rfl := Option.some.inj (Prod.mk.inj hm).2
    obtain ⟨before, t, after, htexts, rfl, hle, hne, hends, hbefore⟩ := matchByte_some h hbyte
    exact ⟨_, t, (completesFirst_snoc hquiet htexts hne hends hbefore).more text, by omega⟩
  · rename_i list₁ hbyte
    obtain ⟨hfollow, hnot⟩ := matchByte_none h hbyte
    obtain ⟨e, t, hfirst, hcut⟩ := ih hfollow (hquiet.snoc hnot) hm
    rw [length_append, length_singleton] at hcut
    exact ⟨e, t, hfirst, by omega⟩

end Bytes

/-! ## The filter as the text goes by -/

theorem foldl_max_spec (list : List Stop) (init : ℕ) :
  init ≤ list.foldl (fun hold stop => max hold stop.matched) init ∧
   (∀ stop ∈ list, stop.matched ≤ list.foldl (fun hold stop => max hold stop.matched) init) ∧
   (list.foldl (fun hold stop => max hold stop.matched) init = init ∨
    ∃ stop ∈ list, list.foldl (fun hold stop => max hold stop.matched) init = stop.matched) := by
 induction list generalizing init with
 | nil => simp
 | cons stop rest ih =>
  obtain ⟨hinit, hall, hone⟩ := ih (max init stop.matched)
  rw [foldl_cons]
  refine ⟨(le_max_left _ _).trans hinit, ?_, ?_⟩
  · intro u hu
    rcases mem_cons.1 hu with rfl | hu
    · exact (le_max_right _ _).trans hinit
    · exact hall u hu
  · rcases hone with hone | ⟨u, hu, hone⟩
    · rcases max_choice init stop.matched with hmax | hmax
      · exact .inl (hone.trans hmax)
      · exact .inr ⟨stop, mem_cons_self .., hone.trans hmax⟩
    · exact .inr ⟨u, mem_cons_of_mem _ hu, hone⟩

theorem longestMatch_spec (stops : List Stop) :
  (∀ stop ∈ stops, stop.matched ≤ longestMatch stops) ∧
   (longestMatch stops = 0 ∨ ∃ stop ∈ stops, longestMatch stops = stop.matched) :=
 (foldl_max_spec stops 0).2

/-- Nothing has completed in `s`, of which `shown` has been let through. -/
structure Watching (stops : List Bytes) (s shown : Bytes) (f : StopSequenceFilter) : Prop where
 running : f.stopped = false
 follow : Follow (stops.filter (· ≠ [])) s f.pending.length f.stops
 split : shown ++ f.pending = s
 quiet : Quiet stops s
 held : f.pending.length = longestMatch f.stops

/-- The text was cut before the stop string that completes first. -/
structure Halted (stops : List Bytes) (s shown : Bytes) (f : StopSequenceFilter) : Prop where
 stopped : f.stopped = true
 pending : f.pending = []
 cut : ∃ e t, CompletesFirst stops s e t ∧ shown = s.take (e - t.length)

def Tracks (stops : List Bytes) (s shown : Bytes) (f : StopSequenceFilter) : Prop :=
 Watching stops s shown f ∨ Halted stops s shown f

theorem create_watching (stops : List Bytes) : Watching stops [] [] (.create stops) where
 running := rfl
 follow :=
  { texts := by simp [StopSequenceFilter.create, Function.comp_def]
    ready := by
     intro stop hstop
     obtain ⟨text, htext, rfl⟩ := mem_map.1 hstop
     exact ready_create (by simpa using (mem_filter.1 htext).2)
    covers := by
     intro stop hstop
     obtain ⟨text, -, rfl⟩ := mem_map.1 hstop
     exact le_refl 0 }
 split := rfl
 quiet := by
  intro e _ u _ hne hsuf
  rw [take_nil] at hsuf
  exact hne (suffix_nil.1 hsuf)
 held := by
  rcases (longestMatch_spec (StopSequenceFilter.create stops).stops).2 with h | ⟨stop, hstop, h⟩
  · exact h.symm
  · obtain ⟨text, -, rfl⟩ := mem_map.1 hstop
    exact h.symm

variable {f : StopSequenceFilter}

theorem feed_halted {stops : List Bytes} {s shown : Bytes}
  (h : Halted stops s shown f) (text : Bytes) :
  Halted stops (s ++ text) (shown ++ (f.feed text).1) (f.feed text).2 := by
 obtain ⟨e, t, hfirst, hshown⟩ := h.cut
 rw [StopSequenceFilter.feed, if_pos h.stopped]
 refine ⟨h.stopped, h.pending, e, t, hfirst.more text, ?_⟩
 have hwithin := hfirst.within
 rw [append_nil, hshown, take_append_of_le_length (by omega)]

theorem feed_watching {stops : List Bytes} {s shown : Bytes}
  (h : Watching stops s shown f) (text : Bytes) :
  Tracks stops (s ++ text) (shown ++ (f.feed text).1) (f.feed text).2 := by
 have hs : shown ++ (f.pending ++ text) = s ++ text := by rw [← append_assoc, h.split]
 have hlen : shown.length + f.pending.length = s.length := by rw [← h.split, length_append]
 rw [StopSequenceFilter.feed, if_neg (by simp [h.running])]
 split_ifs with hempty
 · left
   have hpending : f.pending = [] := by
    rw [← length_eq_zero_iff, h.held, hempty]
    rfl
   have hnone : matchBytes f.stops f.pending.length text = (f.stops, none) := by
    rw [hempty, matchBytes_no_stops]
   obtain ⟨hfollow, hquiet⟩ := matchBytes_none h.follow h.quiet hnone
   refine ⟨h.running, ⟨hfollow.texts, hfollow.ready, by simp [hempty]⟩, ?_, hquiet, h.held⟩
   rw [hpending, append_nil, ← hs, hpending, nil_append]
 · dsimp only
   split
   · rename_i list cut hm
     obtain ⟨e, t, hfirst, hcut⟩ := matchBytes_some h.follow h.quiet hm
     refine .inr ⟨rfl, rfl, e, t, hfirst, ?_⟩
     rw [← hs, show e - t.length = shown.length + cut by omega, take_length_add_append]
   · rename_i list hm
     obtain ⟨hfollow, hquiet⟩ := matchBytes_none h.follow h.quiet hm
     have hhold : min (longestMatch list) (f.pending ++ text).length = longestMatch list := by
      refine min_eq_left ?_
      rw [length_append]
      rcases (longestMatch_spec list).2 with hzero | ⟨stop, hstop, hmax⟩
      · omega
      · rw [hmax]
        exact hfollow.covers stop hstop
     have hle := min_eq_left_iff.1 hhold
     have hdrop : ((f.pending ++ text).drop ((f.pending ++ text).length - longestMatch list)).length
       = longestMatch list := by
      rw [length_drop]
      omega
     left
     simp only [hhold]
     refine ⟨h.running, ⟨hfollow.texts, hfollow.ready, ?_⟩, ?_, hquiet, hdrop⟩
     · intro stop hstop
       dsimp only
       rw [hdrop]
       exact (longestMatch_spec list).1 stop hstop
     · rw [append_assoc, take_append_drop, hs]

theorem feedAll_tracks {stops : List Bytes} {s shown : Bytes}
  (h : Tracks stops s shown f) (pieces : List Bytes) :
  Tracks stops (s ++ pieces.flatten) (shown ++ (f.feedAll pieces).1.flatten) (f.feedAll pieces).2 := by
 induction pieces generalizing s shown f with
 | nil => simpa [StopSequenceFilter.feedAll] using h
 | cons piece pieces ih =>
  have hfeed : Tracks stops (s ++ piece) (shown ++ (f.feed piece).1) (f.feed piece).2 := by
   rcases h with h | h
   · exact feed_watching h piece
   · exact .inr (feed_halted h piece)
  have hrest := ih hfeed
  rw [append_assoc, append_assoc] at hrest
  exact hrest

def StopSequenceFilter.shownAll (f : StopSequenceFilter) (pieces : List Bytes) : Bytes :=
 (f.feedAll pieces).1.flatten ++ (f.feedAll pieces).2.flush.1

theorem Watching.flush {stops : List Bytes} {s shown : Bytes}
  (h : Watching stops s shown f) : shown ++ f.flush.1 = s := by
 rw [StopSequenceFilter.flush, h.running]
 exact h.split

theorem Halted.flush {stops : List Bytes} {s shown : Bytes}
  (h : Halted stops s shown f) : f.flush.1 = [] := by
 simp [StopSequenceFilter.flush, h.stopped]

theorem shownAll_of_quiet {stops pieces : List Bytes} (h : Quiet stops pieces.flatten) :
  (StopSequenceFilter.create stops).shownAll pieces = pieces.flatten ∧
   ((StopSequenceFilter.create stops).feedAll pieces).2.stopped = false := by
 rcases feedAll_tracks (.inl (create_watching stops)) pieces with hw | hh
 · exact ⟨hw.flush, hw.running⟩
 · obtain ⟨e, t, hfirst, -⟩ := hh.cut
   exact absurd h hfirst.not_quiet

theorem shownAll_of_occurs {stops pieces : List Bytes} (h : ¬ Quiet stops pieces.flatten) :
  ∃ e t, CompletesFirst stops pieces.flatten e t ∧
   (StopSequenceFilter.create stops).shownAll pieces = pieces.flatten.take (e - t.length) ∧
   ((StopSequenceFilter.create stops).feedAll pieces).2.stopped = true := by
 rcases feedAll_tracks (.inl (create_watching stops)) pieces with hw | hh
 · exact absurd hw.quiet h
 · obtain ⟨e, t, hfirst, hshown⟩ := hh.cut
   refine ⟨e, t, hfirst, ?_, hh.stopped⟩
   rw [StopSequenceFilter.shownAll, hh.flush, append_nil]
   exact hshown

theorem matched_unique {s : Bytes} {list list' : List Stop} (h : ∀ stop ∈ list, Ready s stop) (h' : ∀ stop ∈ list', Ready s stop)
  (htexts : list.map Stop.text = list'.map Stop.text) : list.map Stop.matched = list'.map Stop.matched := by
 induction list generalizing list' with
 | nil =>
  rw [map_nil, eq_comm, map_eq_nil_iff] at htexts
  rw [htexts]
 | cons stop list ih =>
  cases list' with
  | nil => cases htexts
  | cons stop' list' =>
   obtain ⟨htext, hrest⟩ := List.cons.inj htexts
   have hlongest := (h stop mem_cons_self).longest
   have hlongest' := (h' stop' mem_cons_self).longest
   rw [← htext] at hlongest'
   have hmatched : stop.matched = stop'.matched :=
    le_antisymm (hlongest'.longest _ hlongest.lt hlongest.ends) (hlongest.longest _ hlongest'.lt hlongest'.ends)
   have hmore := ih (fun u hu => h u (mem_cons_of_mem _ hu)) (fun u hu => h' u (mem_cons_of_mem _ hu)) hrest
   rw [map_cons, map_cons, hmatched, hmore]

/-- What the filter has shown of a text is determined by the text, and so is what it holds back. -/
theorem Tracks.unique {stops : List Bytes} {s shown shown' : Bytes} {f' : StopSequenceFilter}
  (h : Tracks stops s shown f) (h' : Tracks stops s shown' f') : shown = shown' ∧ f.flush.1 = f'.flush.1 := by
 cases h with
 | inl hw =>
  cases h' with
  | inl hw' =>
   have hmatched := matched_unique hw.follow.ready hw'.follow.ready (hw.follow.texts.trans hw'.follow.texts.symm)
   have hlongest : ∀ list, longestMatch list = (list.map Stop.matched).foldl max 0 := fun list => (foldl_map).symm
   have hlength : f.pending.length = f'.pending.length := by
    rw [hw.held, hw'.held, hlongest, hlongest, hmatched]
   obtain ⟨hshown, hpending⟩ := append_inj' (hw.split.trans hw'.split.symm) hlength
   refine ⟨hshown, ?_⟩
   rw [StopSequenceFilter.flush, StopSequenceFilter.flush, hw.running, hw'.running, hpending]
  | inr hh' =>
   obtain ⟨e, t, hfirst, -⟩ := hh'.cut
   exact absurd hw.quiet hfirst.not_quiet
 | inr hh =>
  obtain ⟨e, t, hfirst, hshown⟩ := hh.cut
  cases h' with
  | inl hw' => exact absurd hw'.quiet hfirst.not_quiet
  | inr hh' =>
   obtain ⟨e', t', hfirst', hshown'⟩ := hh'.cut
   obtain ⟨rfl, rfl⟩ := hfirst.unique hfirst'
   exact ⟨hshown.trans hshown'.symm, hh.flush.trans hh'.flush.symm⟩

def longestStop (stops : List Bytes) : ℕ :=
 (stops.map List.length).foldr max 0

theorem length_le_longestStop {stops : List Bytes} (h : t ∈ stops) :
  t.length ≤ longestStop stops := by
 induction stops with
 | nil => exact absurd h (not_mem_nil)
 | cons u stops ih =>
  rw [longestStop, map_cons, foldr_cons]
  rcases mem_cons.1 h with rfl | h
  · exact le_max_left _ _
  · exact (ih h).trans (le_max_right _ _)

theorem Tracks.held_back {stops : List Bytes} {s shown : Bytes}
  (h : Tracks stops s shown f) :
  f.pending = [] ∨ ∃ t ∈ stops, t ≠ [] ∧ f.pending.length < t.length := by
 rcases h with h | h
 · rcases (longestMatch_spec f.stops).2 with hzero | ⟨stop, hstop, hmax⟩
   · exact .inl (length_eq_zero_iff.1 (h.held.trans hzero))
   · have hmem : stop.text ∈ stops.filter (· ≠ []) := by
      rw [← h.follow.texts]
      exact mem_map_of_mem hstop
     obtain ⟨hmem, hne⟩ := mem_filter.1 hmem
     refine .inr ⟨stop.text, hmem, by simpa using hne, ?_⟩
     rw [h.held, hmax]
     exact (h.follow.ready stop hstop).longest.lt
 · exact .inl h.pending

/-- However the text is cut into pieces, the filter shows it up to the stop string that completes
first, all of it when there is none, and holds back less than a stop string. -/
theorem stop_filter_refines (stops pieces : List Bytes) :
  ((∀ t ∈ stops, t ≠ [] → ¬ t <:+: pieces.flatten) →
    (StopSequenceFilter.create stops).shownAll pieces = pieces.flatten) ∧
   ((∃ t ∈ stops, t ≠ [] ∧ t <:+: pieces.flatten) →
    ∃ e t, CompletesFirst stops pieces.flatten e t ∧
     (StopSequenceFilter.create stops).shownAll pieces = pieces.flatten.take (e - t.length)) ∧
   (((StopSequenceFilter.create stops).feedAll pieces).2.stopped = true ↔
    ∃ t ∈ stops, t ≠ [] ∧ t <:+: pieces.flatten) ∧
   ∀ n, ((∃ t ∈ stops, t ≠ []) →
     ((StopSequenceFilter.create stops).feedAll (pieces.take n)).2.pending.length < longestStop stops) ∧
    ((∀ t ∈ stops, t = []) →
     ((StopSequenceFilter.create stops).feedAll (pieces.take n)).2.pending = []) := by
 have hoccurs : (∃ t ∈ stops, t ≠ [] ∧ t <:+: pieces.flatten) ↔ ¬ Quiet stops pieces.flatten := by
  rw [quiet_iff]
  push Not
  rfl
 refine ⟨fun h => (shownAll_of_quiet (quiet_iff.2 h)).1, fun h => ?_, ?_, fun n => ?_⟩
 · obtain ⟨e, t, hfirst, hshown, -⟩ := shownAll_of_occurs (hoccurs.1 h)
   exact ⟨e, t, hfirst, hshown⟩
 · rw [hoccurs]
   constructor
   · intro hstopped hquiet
     rw [(shownAll_of_quiet hquiet).2] at hstopped
     exact absurd hstopped (by simp)
   · intro h
     obtain ⟨e, t, -, -, hstopped⟩ := shownAll_of_occurs h
     exact hstopped
 · have htracks := feedAll_tracks (.inl (create_watching stops)) (pieces.take n)
   constructor
   · rintro ⟨u, hu, hune⟩
     rcases htracks.held_back with hnone | ⟨t, ht, -, hlt⟩
     · rw [hnone]
       exact (List.length_pos_iff.2 hune).trans_le (length_le_longestStop hu)
     · exact hlt.trans_le (length_le_longestStop ht)
   · intro hempty
     rcases htracks.held_back with hnone | ⟨t, ht, hne, -⟩
     · exact hnone
     · exact absurd (hempty t ht) hne

/-- With nothing but an empty stop string, nothing is held back, which isn't fewer bytes than none. -/
theorem empty_stop_held_back :
  ¬ ∀ stops pieces : List Bytes,
   ((StopSequenceFilter.create stops).feedAll pieces).2.pending.length < longestStop stops := by
 intro h
 exact absurd (h [[]] [[97]]) (by decide)

example : (StopSequenceFilter.create ["aab", "bb"]).shownAll ["aa", "a", "abb"] = utf8 "aa" := by decide

end MoltBrowser.StreamFilters
