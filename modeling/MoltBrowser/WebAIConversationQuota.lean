import MoltBrowser.WebAIConversation
import MoltBrowser.NewestItems

set_option autoImplicit false

/-!
# What each call does to a conversation's quota

The token counter is the sum of the turns' tokens as long as the quota is below
the counters' largest value: what fits it is counted without saturation. Each
call is said once, by the turns it evicts and the items it keeps.
-/
namespace MoltBrowser.WebAIConversation
open NewestItems List

/-! ## Token counts -/

def maxTokens : ℕ := 2 ^ 32 - 1

theorem saturate_toNat (v : ℕ) : (saturate v).toNat = min v maxTokens := by
 unfold saturate maxTokens
 split
 · next h =>
   rw [Nat.min_eq_right (by omega)]
   rfl
 · next h =>
   rw [Nat.min_eq_left (by omega), Nat.toUInt32, UInt32.toNat_ofNat']
   omega

theorem addTokens_toNat (a b : UInt32) :
  (addTokens a b).toNat = min (a.toNat + b.toNat) maxTokens := saturate_toNat _

theorem addTokens_le_iff {a b quota : UInt32} (hquota : quota.toNat < maxTokens) :
  addTokens a b ≤ quota ↔ a.toNat + b.toNat ≤ quota.toNat := by
 rw [UInt32.le_iff_toNat_le, addTokens_toNat]
 omega

theorem addTokens_of_le {a b : UInt32} (h : a.toNat + b.toNat ≤ maxTokens) :
  (addTokens a b).toNat = a.toNat + b.toNat := by
 rw [addTokens_toNat]
 omega

def tokensOf (turns : List Turn) : ℕ := (turns.map fun t => t.tokens.toNat).sum

@[simp] theorem tokensOf_nil : tokensOf [] = 0 := rfl

@[simp] theorem tokensOf_cons (t : Turn) (ts : List Turn) :
  tokensOf (t :: ts) = t.tokens.toNat + tokensOf ts := by simp [tokensOf]

@[simp] theorem tokensOf_append (ts more : List Turn) :
  tokensOf (ts ++ more) = tokensOf ts + tokensOf more := by simp [tokensOf]

theorem tokensOf_drop_le (ts : List Turn) (k : ℕ) : tokensOf (ts.drop k) ≤ tokensOf ts := by
 conv_rhs => rw [← take_append_drop k ts, tokensOf_append]
 omega

theorem foldl_addTokens (added : List Turn) (tokens : UInt32) :
  (added.foldl (fun tokens t => addTokens tokens t.tokens) tokens).toNat =
   min (tokens.toNat + tokensOf added) maxTokens := by
 induction added generalizing tokens with
 | nil =>
  have := tokens.toNat_lt
  simp only [foldl_nil, tokensOf_nil, maxTokens]
  omega
 | cons t added ih =>
  rw [foldl_cons, ih, addTokens_toNat, tokensOf_cons]
  omega

/-! ## Images and clips -/

section Media

theorem keepNewest_eq {α : Type} {media : Turn → List α} {setMedia : Turn → List α → Turn}
  (hset : ∀ t, setMedia t (media t) = t) (max : ℕ) (ts : List Turn) :
  Conversation.keepNewest media setMedia max ts =
   ((newest max (ts.map media)).flatten.length,
    List.zipWith setMedia ts (newest max (ts.map media))) := by
 induction ts with
 | nil => rfl
 | cons t ts ih =>
  have hkept := length_flatten_newest max (ts.map media)
  rw [Conversation.keepNewest, ih, map_cons, newest]
  dsimp only
  split
  · next hroom =>
    rw [rtake_of_length_le (by omega), flatten_cons, length_append,
     zipWith_cons_cons, hset, Nat.add_comm]
  · next hfull =>
    rw [flatten_cons, length_append, zipWith_cons_cons, length_rtake, List.rtake]
    congr 1
    omega

@[grind =] def withMedia : List Turn → List (List ModelImage) → List (List ModelAudio) → List Turn
 | t :: ts, images :: is, audio :: as => { t with images, audio } :: withMedia ts is as
 | _, _, _ => []

theorem keepNewestMedia_eq (turns : List Turn) : Conversation.keepNewestMedia turns =
  withMedia turns (newest kMaxContextImages (turns.map (·.images)))
   (newest kMaxContextAudio (turns.map (·.audio))) := by
 have hzip : ∀ (ts : List Turn) (is : List (List ModelImage)) (as : List (List ModelAudio)),
   List.zipWith (fun t audio => { t with audio })
    (List.zipWith (fun t images => { t with images }) ts is) as = withMedia ts is as := by
  intro ts
  induction ts with
  | nil => simp [withMedia]
  | cons t ts ih =>
   intro is as
   cases is with
   | nil => simp [withMedia]
   | cons i is =>
    cases as with
    | nil => simp [withMedia]
    | cons a as => simp only [zipWith_cons_cons, withMedia, ih]
 have haudio : ∀ (ts : List Turn) (is : List (List ModelImage)), is.length = ts.length →
   (List.zipWith (fun t images => { t with images }) ts is).map (·.audio) = ts.map (·.audio) := by
  intro ts
  induction ts with
  | nil => simp
  | cons t ts ih =>
   intro is hlen
   cases is with
   | nil => simp at hlen
   | cons i is => simp only [zipWith_cons_cons, map_cons, ih is (by simpa using hlen)]
 rw [Conversation.keepNewestMedia]
 rw [keepNewest_eq (fun _ => rfl), keepNewest_eq (fun _ => rfl)]
 dsimp only
 rw [haudio _ _ (by simp), hzip]

variable {ts : List Turn} {is : List (List ModelImage)} {as : List (List ModelAudio)}

theorem withMedia_images (hi : is.length = ts.length) (ha : as.length = ts.length) :
  (withMedia ts is as).map (·.images) = is := by
 induction ts generalizing is as with
 | nil => simp [withMedia, length_eq_zero_iff.1 hi]
 | cons t ts ih =>
  match is, as, hi, ha with
  | i :: is, a :: as, hi, ha =>
   simp only [withMedia, map_cons, ih (Nat.succ.inj hi) (Nat.succ.inj ha)]

theorem withMedia_audio (hi : is.length = ts.length) (ha : as.length = ts.length) :
  (withMedia ts is as).map (·.audio) = as := by
 induction ts generalizing is as with
 | nil => simp [withMedia, length_eq_zero_iff.1 ha]
 | cons t ts ih =>
  match is, as, hi, ha with
  | i :: is, a :: as, hi, ha =>
   simp only [withMedia, map_cons, ih (Nat.succ.inj hi) (Nat.succ.inj ha)]

theorem withMedia_keeps {β : Type} {f : Turn → β}
  (hf : ∀ t images audio, f { t with images, audio } = f t)
  (hi : is.length = ts.length) (ha : as.length = ts.length) :
  (withMedia ts is as).map f = ts.map f := by
 induction ts generalizing is as with
 | nil => simp [withMedia]
 | cons t ts ih =>
  match is, as, hi, ha with
  | i :: is, a :: as, hi, ha =>
   simp only [withMedia, map_cons, hf, ih (Nat.succ.inj hi) (Nat.succ.inj ha)]

theorem withMedia_drop (k : ℕ) :
  (withMedia ts is as).drop k = withMedia (ts.drop k) (is.drop k) (as.drop k) := by
 induction ts generalizing k is as with
 | nil => simp [withMedia]
 | cons t ts ih =>
  cases k with
  | zero => rfl
  | succ k =>
   match is, as with
   | [], _ => simp [withMedia]
   | _ :: _, [] => cases h : ts.drop k <;> simp [withMedia, h]
   | i :: is, a :: as => exact ih k

theorem withMedia_again {more : List Turn} {is' : List (List ModelImage)}
  {as' : List (List ModelAudio)} (hi : is.length = ts.length) (ha : as.length = ts.length) :
  withMedia (withMedia ts is as ++ more) is' as' = withMedia (ts ++ more) is' as' := by
 induction ts generalizing is as is' as' with
 | nil => simp [withMedia]
 | cons t ts ih =>
  match is, as, hi, ha with
  | i :: is, a :: as, hi, ha =>
   match is', as' with
   | [], _ => simp [withMedia]
   | _ :: _, [] => simp [withMedia]
   | i' :: is', a' :: as' =>
    simp only [withMedia, cons_append, ih (Nat.succ.inj hi) (Nat.succ.inj ha)]

theorem withMedia_append {more : List Turn} {is' : List (List ModelImage)}
  {as' : List (List ModelAudio)} (hi : is.length = ts.length) (ha : as.length = ts.length) :
  withMedia (ts ++ more) (is ++ is') (as ++ as') = withMedia ts is as ++ withMedia more is' as' := by
 induction ts generalizing is as with
 | nil => simp [withMedia, length_eq_zero_iff.1 hi, length_eq_zero_iff.1 ha]
 | cons t ts ih =>
  match is, as, hi, ha with
  | i :: is, a :: as, hi, ha =>
   simp only [cons_append, withMedia, ih (Nat.succ.inj hi) (Nat.succ.inj ha)]

theorem keepNewestMedia_images (turns : List Turn) :
  (Conversation.keepNewestMedia turns).map (·.images) =
   newest kMaxContextImages (turns.map (·.images)) := by
 rw [keepNewestMedia_eq, withMedia_images (by simp) (by simp)]

theorem keepNewestMedia_audio (turns : List Turn) :
  (Conversation.keepNewestMedia turns).map (·.audio) =
   newest kMaxContextAudio (turns.map (·.audio)) := by
 rw [keepNewestMedia_eq, withMedia_audio (by simp) (by simp)]

theorem keepNewestMedia_keeps {β : Type} {f : Turn → β}
  (hf : ∀ t images audio, f { t with images, audio } = f t) (turns : List Turn) :
  (Conversation.keepNewestMedia turns).map f = turns.map f := by
 rw [keepNewestMedia_eq, withMedia_keeps hf (by simp) (by simp)]

theorem tokensOf_keepNewestMedia (turns : List Turn) :
  tokensOf (Conversation.keepNewestMedia turns) = tokensOf turns := by
 rw [tokensOf, keepNewestMedia_keeps fun _ _ _ => rfl, tokensOf]

theorem length_keepNewestMedia (turns : List Turn) :
  (Conversation.keepNewestMedia turns).length = turns.length := by
 simpa using congrArg List.length (keepNewestMedia_keeps (f := fun _ => ()) (fun _ _ _ => rfl) turns)

theorem keepNewestMedia_drop (turns : List Turn) (k : ℕ) :
  (Conversation.keepNewestMedia turns).drop k = Conversation.keepNewestMedia (turns.drop k) := by
 rw [keepNewestMedia_eq, withMedia_drop, newest_drop, newest_drop, keepNewestMedia_eq,
  List.map_drop, List.map_drop]

theorem keepNewestMedia_again (turns added : List Turn) :
  Conversation.keepNewestMedia (Conversation.keepNewestMedia turns ++ added) =
   Conversation.keepNewestMedia (turns ++ added) := by
 rw [keepNewestMedia_eq (_ ++ _), map_append, map_append, keepNewestMedia_images,
  keepNewestMedia_audio, newest_newest_append, newest_newest_append, keepNewestMedia_eq turns,
  withMedia_again (by simp) (by simp), keepNewestMedia_eq, map_append, map_append]

theorem keepNewestMedia_plain (turns : List Turn) {t : Turn} (hi : t.images = []) (ha : t.audio = []) :
  Conversation.keepNewestMedia (turns ++ [t]) = Conversation.keepNewestMedia turns ++ [t] := by
 obtain ⟨role, text, images, audio, tokens⟩ := t
 subst hi ha
 rw [keepNewestMedia_eq, map_append, map_append, map_singleton, map_singleton,
  newest_append_nil, newest_append_nil, withMedia_append (by simp) (by simp), keepNewestMedia_eq]
 rfl

end Media

namespace Conversation

def Exact (c : Conversation) : Prop := c.turnsTokens.toNat = tokensOf c.turns

/-- The system prompt, `turns` and `more` tokens fit the quota. -/
def Fits (c : Conversation) (turns : List Turn) (more : ℕ) : Prop :=
 c.systemTokens.toNat + tokensOf turns + more ≤ c.inputQuota.toNat

variable {c : Conversation}

theorem Fits.drop {turns : List Turn} {more : ℕ} (h : c.Fits turns more) (k : ℕ) :
  c.Fits (turns.drop k) more := by
 have := tokensOf_drop_le turns k
 unfold Fits at *
 omega

/-! ## Eviction -/

section Evict

theorem popFront_turns (c : Conversation) : c.popFront.turns = c.turns.tail := by
 unfold popFront
 split <;> simp_all

theorem popFront_exact (h : c.Exact) : c.popFront.Exact := by
 unfold Exact popFront at *
 split
 · exact h
 · next t ts hturns =>
   rw [hturns, tokensOf_cons] at h
   have hle : t.tokens ≤ c.turnsTokens := by
    rw [UInt32.le_iff_toNat_le]
    omega
   change (c.turnsTokens - t.tokens).toNat = tokensOf ts
   rw [UInt32.toNat_sub_of_le _ _ hle]
   omega

theorem popFront_frame (c : Conversation) : c.popFront.inputQuota = c.inputQuota ∧
  c.popFront.systemTokens = c.systemTokens ∧ c.popFront.systemPrompt = c.systemPrompt := by
 unfold popFront
 split <;> exact ⟨rfl, rfl, rfl⟩

theorem popFront_iterate (c : Conversation) (k : ℕ) : (popFront^[k] c).turns = c.turns.drop k ∧
  (popFront^[k] c).inputQuota = c.inputQuota ∧ (popFront^[k] c).systemTokens = c.systemTokens ∧
  (c.Exact → (popFront^[k] c).Exact) := by
 induction k with
 | zero => exact ⟨rfl, rfl, rfl, id⟩
 | succ k ih =>
  obtain ⟨hturns, hquota, hsystem, hexact⟩ := ih
  obtain ⟨hquota', hsystem', -⟩ := popFront_frame (popFront^[k] c)
  rw [Function.iterate_succ_apply']
  refine ⟨?_, hquota'.trans hquota, hsystem'.trans hsystem, fun h => popFront_exact (hexact h)⟩
  rw [popFront_turns, hturns, tail_drop]

theorem evictFor_spec (requested : UInt32) {quota : UInt32} (kept : UInt32) {turns : List Turn}
  (hquota : quota.toNat < maxTokens) (hkept : kept.toNat = tokensOf turns) :
  let k := evictFor requested quota kept turns
  k ≤ turns.length ∧
   (k < turns.length → requested.toNat + tokensOf (turns.drop k) ≤ quota.toNat) ∧
   ∀ j < k, quota.toNat < requested.toNat + tokensOf (turns.drop j) := by
 induction turns generalizing kept with
 | nil => simp [evictFor]
 | cons t ts ih =>
  rw [tokensOf_cons] at hkept
  have hfits : addTokens requested kept ≤ quota ↔
    requested.toNat + tokensOf (t :: ts) ≤ quota.toNat := by
   rw [addTokens_le_iff hquota, hkept, tokensOf_cons]
  dsimp only
  rw [evictFor]
  split
  · next hover =>
    have hover' := mt hfits.2 (UInt32.not_le.2 hover)
    have hle : t.tokens ≤ kept := by
     rw [UInt32.le_iff_toNat_le]
     omega
    obtain ⟨hlen, hfit, hmin⟩ := ih (kept - t.tokens) (by
     rw [UInt32.toNat_sub_of_le _ _ hle]
     omega)
    refine ⟨by simpa using hlen, fun hlt => hfit (by simpa using hlt), fun j hj => ?_⟩
    cases j with
    | zero => simpa using hover'
    | succ j => exact hmin j (by omega)
  · next hunder =>
    exact ⟨by omega, fun _ => hfits.1 (UInt32.not_lt.1 hunder), fun j hj => absurd hj (by omega)⟩

theorem leadingReplies_le (turns : List Turn) : leadingReplies turns ≤ turns.length :=
 (takeWhile_sublist _).length_le

theorem head_after_replies {turns : List Turn} {t : Turn}
  (h : t ∈ (turns.drop (leadingReplies turns)).head?) : t.role = .user := by
 induction turns with
 | nil => simp [leadingReplies] at h
 | cons s ts ih =>
  by_cases hs : s.role = .assistant
  · simp only [leadingReplies, takeWhile_cons, hs, decide_true, ↓reduceIte,
     length_cons, drop_succ_cons] at h
    exact ih h
  · simp only [leadingReplies, takeWhile_cons, hs, decide_false, Bool.false_eq_true,
     ↓reduceIte, length_nil, drop_zero, head?_cons, Option.mem_def,
     Option.some.injEq] at h
    subst h
    cases hrole : s.role with
    | user => rfl
    | assistant => exact absurd hrole hs

theorem role_of_leadingReplies (turns : List Turn) (i : ℕ) {t : Turn}
  (hi : i < leadingReplies turns) (ht : turns[i]? = some t) : t.role = .assistant := by
 have hmem : t ∈ turns.takeWhile (·.role = .assistant) := by
  have htaken := takeWhile_prefix (l := turns) (fun t => decide (t.role = .assistant))
  rw [prefix_iff_eq_take] at htaken
  rw [htaken, mem_take_iff_getElem]
  obtain ⟨hlt, rfl⟩ := List.getElem?_eq_some_iff.1 ht
  exact ⟨i, by unfold leadingReplies at hi; omega, rfl⟩
 simpa using mem_takeWhile_imp hmem

end Evict

/-! ## The system prompt -/

theorem setSystemPrompt_cases (c : Conversation) (text : Bytes) :
  c.setSystemPrompt text = (c, false) ∨
   addTokens (estimateMessageTokens text) c.turnsTokens ≤ c.inputQuota ∧
   c.setSystemPrompt text = ({ c with
    systemTokens := estimateMessageTokens text
    systemPrompt := text }, true) := by
 unfold setSystemPrompt
 dsimp only
 split
 · exact .inl rfl
 · next h => exact .inr ⟨UInt32.not_lt.1 h, rfl⟩

/-! ## Turns added -/

theorem planAdd_cases (c : Conversation) (added : List Turn) :
  (c.planAdd added).fits = false ∨
   let requested := addTokens c.systemTokens
    (added.foldl (fun tokens t => addTokens tokens t.tokens) 0)
   let k := evictFor requested c.inputQuota c.turnsTokens c.turns
   requested ≤ c.inputQuota ∧ (c.planAdd added).fits = true ∧
    (c.planAdd added).evict = if k > 0 then k + leadingReplies (c.turns.drop k) else k := by
 unfold planAdd
 dsimp only
 split
 · exact .inl rfl
 · next h => exact .inr ⟨UInt32.not_lt.1 h, rfl, rfl⟩

theorem requested_eq {added : List Turn} {system quota : UInt32} (hquota : quota.toNat < maxTokens)
  (h : addTokens system (added.foldl (fun tokens t => addTokens tokens t.tokens) 0) ≤ quota) :
  (addTokens system (added.foldl (fun tokens t => addTokens tokens t.tokens) 0)).toNat =
   system.toNat + tokensOf added := by
 rw [UInt32.le_iff_toNat_le, addTokens_toNat, foldl_addTokens] at h
 rw [addTokens_toNat, foldl_addTokens]
 change min (_ + min (0 + _) _) _ ≤ _ at h
 change min (_ + min (0 + _) _) _ = _
 omega

/-- A plan that fits evicts the fewest of the oldest turns that leave room, and the rest of the
exchange it begins to evict. -/
structure Evicts (c : Conversation) (added : List Turn) (evict : ℕ) : Prop where
 bounded : evict ≤ c.turns.length
 fits : c.Fits (c.turns.drop evict) (tokensOf added)
 needed : ∃ k ≤ evict, (∀ j < k, ¬ c.Fits (c.turns.drop j) (tokensOf added)) ∧
  (k = 0 → evict = 0) ∧
  ∀ i t, k ≤ i → i < evict → c.turns[i]? = some t → t.role = .assistant

theorem planAdd_spec (hquota : c.inputQuota.toNat < maxTokens) (h : c.Exact) {added : List Turn}
  (hfits : (c.planAdd added).fits = true) : c.Evicts added (c.planAdd added).evict := by
 rcases planAdd_cases c added with hno | ⟨hle, -, hevict⟩
 · rw [hno] at hfits
   cases hfits
 have hreq := requested_eq hquota hle
 rw [UInt32.le_iff_toNat_le] at hle
 generalize addTokens c.systemTokens (added.foldl _ 0) = requested at hle hreq hevict
 obtain ⟨hlen, hfit, hmin⟩ := evictFor_spec requested c.turnsTokens hquota h
 generalize evictFor requested c.inputQuota c.turnsTokens c.turns = k at hlen hfit hmin hevict
 have hfit' : c.Fits (c.turns.drop k) (tokensOf added) := by
  unfold Fits
  rcases Nat.lt_or_ge k c.turns.length with hlt | hge
  · have := hfit hlt
    omega
  · rw [drop_eq_nil_of_le hge, tokensOf_nil]
    omega
 have hmin' : ∀ j < k, ¬ c.Fits (c.turns.drop j) (tokensOf added) := by
  intro j hj
  have := hmin j hj
  unfold Fits
  omega
 rw [hevict]
 split
 · next hpos =>
   have hrest := leadingReplies_le (c.turns.drop k)
   rw [length_drop] at hrest
   refine ⟨by omega, ?_, k, by omega, hmin', by omega, fun i t hki hi ht => ?_⟩
   · rw [← drop_drop]
     exact hfit'.drop _
   · refine role_of_leadingReplies (c.turns.drop k) (i - k) (by omega) ?_
     rw [getElem?_drop, Nat.add_sub_cancel' hki]
     exact ht
 · next hzero =>
   exact ⟨hlen, hfit', k, le_refl k, hmin', fun h0 => h0, fun i t hki hi => absurd hi (by omega)⟩

theorem planAdd_head (c : Conversation) {added : List Turn} (hevict : 0 < (c.planAdd added).evict)
  {t : Turn} (ht : t ∈ (c.turns.drop (c.planAdd added).evict).head?) : t.role = .user := by
 rcases planAdd_cases c added with hno | ⟨-, -, heq⟩
 · have hzero : (c.planAdd added).evict = 0 := by
    unfold planAdd at hno ⊢
    dsimp only at hno ⊢
    split at hno
    · next h => rw [if_pos h]
    · cases hno
   omega
 · rw [heq] at hevict ht
   split at hevict
   · next hpos =>
     rw [if_pos hpos, ← drop_drop] at ht
     exact head_after_replies ht
   · next hzero => exact absurd hevict hzero

theorem foldl_pushBack (c : Conversation) (added : List Turn) :
  (added.foldl pushBack c).turns = c.turns ++ added ∧
  (added.foldl pushBack c).inputQuota = c.inputQuota ∧
  (added.foldl pushBack c).systemTokens = c.systemTokens ∧
  (c.Exact → tokensOf (c.turns ++ added) ≤ maxTokens → (added.foldl pushBack c).Exact) := by
 induction added generalizing c with
 | nil => exact ⟨by simp, rfl, rfl, fun h _ => h⟩
 | cons t added ih =>
  obtain ⟨hturns, hquota, hsystem, hexact⟩ := ih (c.pushBack t)
  have happend : (c.pushBack t).turns ++ added = c.turns ++ t :: added := by simp [pushBack]
  rw [foldl_cons]
  refine ⟨hturns.trans happend, hquota, hsystem, fun h hroom => hexact ?_ (happend ▸ hroom)⟩
  rw [tokensOf_append, tokensOf_cons] at hroom
  unfold Exact pushBack at *
  dsimp only
  rw [addTokens_of_le (by omega), tokensOf_append, h, tokensOf_cons, tokensOf_nil, Nat.add_zero]

theorem drop_evict (c : Conversation) (plan : Plan) :
  c.turns.drop (min plan.evict c.turns.length) = c.turns.drop plan.evict := by
 rcases Nat.le_total plan.evict c.turns.length with hle | hge
 · rw [Nat.min_eq_left hle]
 · rw [Nat.min_eq_right hge, drop_length, drop_eq_nil_of_le hge]

theorem add_spec (c : Conversation) (plan : Plan) (added : List Turn) :
  (c.add plan added).turns = keepNewestMedia (c.turns.drop plan.evict ++ added) ∧
  (c.add plan added).inputQuota = c.inputQuota ∧
  (c.add plan added).systemTokens = c.systemTokens ∧
  (c.Exact → tokensOf (c.turns.drop plan.evict ++ added) ≤ maxTokens →
   (c.add plan added).Exact) := by
 obtain ⟨hturns, hquota, hsystem, hexact⟩ :=
  popFront_iterate c (min plan.evict c.turns.length)
 obtain ⟨hturns', hquota', hsystem', hexact'⟩ :=
  foldl_pushBack (popFront^[min plan.evict c.turns.length] c) added
 rw [hturns, drop_evict] at hturns' hexact'
 refine ⟨?_, hquota'.trans hquota, hsystem'.trans hsystem, fun h hroom => ?_⟩
 · change keepNewestMedia (added.foldl pushBack _).turns = _
   rw [hturns']
 · have := hexact' (hexact h) hroom
   unfold Exact at this ⊢
   change (added.foldl pushBack _).turnsTokens.toNat = tokensOf (keepNewestMedia _)
   rw [this, tokensOf_keepNewestMedia]

/-! ## Replies -/

/-- The loop of `AddReply`: the oldest turns go until the reply fits or none is left. -/
theorem evictForReply_spec (c : Conversation) (tokens : UInt32) (n : ℕ)
  (hn : c.turns.length ≤ n) : ∃ k, c.evictForReply tokens n = (popFront^[k] c, decide (0 < k)) ∧
   ((popFront^[k] c).turns = [] ∨
    addTokens (addTokens c.systemTokens (popFront^[k] c).turnsTokens) tokens ≤ c.inputQuota) ∧
   ∀ j < k, (popFront^[j] c).turns ≠ [] ∧
    c.inputQuota < addTokens (addTokens c.systemTokens (popFront^[j] c).turnsTokens) tokens := by
 induction n generalizing c with
 | zero =>
  exact ⟨0, rfl, .inl (length_eq_zero_iff.1 (by simpa using hn)), fun j hj => absurd hj (by omega)⟩
 | succ n ih =>
  rw [evictForReply]
  split
  · next hgo =>
    simp only [Bool.and_eq_true, Bool.not_eq_true', isEmpty_eq_false_iff, decide_eq_true_eq] at hgo
    obtain ⟨hquota, hsystem, -⟩ := popFront_frame c
    obtain ⟨k, heq, hend, hmin⟩ := ih c.popFront (by
     rw [popFront_turns, length_tail]
     omega)
    rw [hquota, hsystem] at hend
    rw [hquota, hsystem] at hmin
    refine ⟨k + 1, by rw [heq]; rfl, hend, fun j hj => ?_⟩
    cases j with
    | zero => exact hgo
    | succ j => exact hmin j (by omega)
  · next hstop =>
    refine ⟨0, rfl, ?_, fun j hj => absurd hj (by omega)⟩
    simp only [Bool.and_eq_true, Bool.not_eq_true', isEmpty_eq_false_iff, decide_eq_true_eq,
     not_and, gt_iff_lt, UInt32.not_lt] at hstop
    by_cases hnil : c.turns = []
    · exact .inl hnil
    · exact .inr (hstop hnil)

def reply (text : Bytes) : Turn := makeTurn .assistant text 0 []

/-- `AddReply` lets `gone` turns go, none or up to the start of an exchange, and appends the reply. -/
structure Replies (c : Conversation) (text : Bytes) (gone : ℕ) : Prop where
 result : c.addReply text = ((popFront^[gone] c).pushBack (reply text), decide (0 < gone))
 bounded : gone ≤ c.turns.length
 head : 0 < gone → ∀ t ∈ (c.turns.drop gone).head?, t.role = .user
 fits : c.inputQuota.toNat < maxTokens → c.Exact →
  c.turns.drop gone = [] ∨ c.Fits (c.turns.drop gone) (reply text).tokens.toNat
 needed : c.inputQuota.toNat < maxTokens → c.Exact → ∃ k ≤ gone,
  (∀ j < k, ¬ c.Fits (c.turns.drop j) (reply text).tokens.toNat) ∧ (k = 0 → gone = 0) ∧
   gone = if 0 < k then k + leadingReplies (c.turns.drop k) else 0

theorem fits_iff_of_exact (hquota : c.inputQuota.toNat < maxTokens) (h : c.Exact) (k : ℕ)
  (tokens : UInt32) :
  addTokens (addTokens c.systemTokens (popFront^[k] c).turnsTokens) tokens ≤ c.inputQuota ↔
   c.Fits (c.turns.drop k) tokens.toNat := by
 obtain ⟨hturns, -, -, hexact⟩ := popFront_iterate c k
 have hcount : (popFront^[k] c).turnsTokens.toNat = tokensOf (c.turns.drop k) := by
  rw [← hturns]
  exact hexact h
 rw [addTokens_le_iff hquota, addTokens_toNat, hcount]
 unfold Fits
 omega

theorem addReply_spec (c : Conversation) (text : Bytes) : ∃ gone, c.Replies text gone := by
 obtain ⟨k, heq, hend, hmin⟩ := evictForReply_spec c (reply text).tokens c.turns.length le_rfl
 have hk : k ≤ c.turns.length := by
  by_contra hlt
  refine (hmin c.turns.length (by omega)).1 ?_
  rw [(popFront_iterate c _).1, drop_length]
 have hresult : c.addReply text =
   ((if decide (0 < k) = true then popFront^[leadingReplies (popFront^[k] c).turns] (popFront^[k] c)
    else popFront^[k] c).pushBack (reply text), decide (0 < k)) := by
  unfold addReply
  rw [reply] at heq ⊢
  dsimp only
  rw [heq]
 rw [(popFront_iterate c k).1] at hresult
 rw [(popFront_iterate c k).1] at hend
 have hneeded : c.inputQuota.toNat < maxTokens → c.Exact →
   ∀ j < k, ¬ c.Fits (c.turns.drop j) (reply text).tokens.toNat := fun hquota h j hj hfits =>
  UInt32.not_le.2 (hmin j hj).2 ((fits_iff_of_exact hquota h j _).2 hfits)
 have hrest := leadingReplies_le (c.turns.drop k)
 rw [length_drop] at hrest
 rcases Nat.eq_zero_or_pos k with hzero | hpos
 · subst hzero
   exact ⟨0, hresult, Nat.zero_le _, fun h => absurd h (lt_irrefl 0),
    fun hquota h => hend.imp_right fun hle => (fits_iff_of_exact hquota h 0 _).1 hle,
    fun hquota h => ⟨0, le_rfl, hneeded hquota h, fun _ => rfl, rfl⟩⟩
 · refine ⟨k + leadingReplies (c.turns.drop k), ?_, by omega, fun _ t ht => ?_, fun hquota h => ?_,
    fun hquota h => ⟨k, by omega, hneeded hquota h, fun h0 => by omega, (if_pos hpos).symm⟩⟩
   · rw [hresult, ← Function.iterate_add_apply, Nat.add_comm k]
     simp only [hpos, decide_true, ↓reduceIte, Nat.add_pos_right]
   · rw [← drop_drop] at ht
     exact head_after_replies ht
   · rw [← drop_drop]
     rcases hend with hnil | hle
     · exact .inl (by rw [hnil, drop_nil])
     · exact .inr (((fits_iff_of_exact hquota h k _).1 hle).drop _)

theorem Replies.exact {text : Bytes} {gone : ℕ} (hr : c.Replies text gone)
  (hquota : c.inputQuota.toNat < maxTokens) (h : c.Exact) : (c.addReply text).1.Exact := by
 obtain ⟨hturns, -, -, hexact⟩ := popFront_iterate c gone
 have hpop := hexact h
 have hreply := (reply text).tokens.toNat_lt
 have hroom : (popFront^[gone] c).turnsTokens.toNat + (reply text).tokens.toNat ≤ maxTokens := by
  rw [hpop, hturns]
  rcases hr.fits hquota h with hnil | hfits
  · rw [hnil, tokensOf_nil]
    unfold maxTokens
    omega
  · unfold Fits at hfits
    omega
 rw [hr.result]
 unfold Exact pushBack at *
 dsimp only
 rw [addTokens_of_le hroom, tokensOf_append, hpop, tokensOf_cons, tokensOf_nil, Nat.add_zero]

theorem Replies.frame {text : Bytes} {gone : ℕ} (hr : c.Replies text gone) :
  (c.addReply text).1.turns = c.turns.drop gone ++ [reply text] ∧
   (c.addReply text).1.inputQuota = c.inputQuota ∧
   (c.addReply text).1.systemTokens = c.systemTokens := by
 obtain ⟨hturns, hquota, hsystem, -⟩ := popFront_iterate c gone
 rw [hr.result]
 refine ⟨?_, hquota, hsystem⟩
 change (popFront^[gone] c).turns ++ [reply text] = _
 rw [hturns]

/-- Usage above the quota: the system prompt and the reply are too much by themselves. -/
theorem Replies.over {text : Bytes} {gone : ℕ} (hr : c.Replies text gone)
  (hquota : c.inputQuota.toNat < maxTokens) (h : c.Exact)
  (hover : c.inputQuota < (c.addReply text).1.inputUsage) :
  c.inputQuota.toNat < c.systemTokens.toNat + (reply text).tokens.toNat := by
 obtain ⟨hturns, -, hsystem⟩ := hr.frame
 have hexact := hr.exact hquota h
 rw [← UInt32.not_le, inputUsage, addTokens_le_iff hquota, hsystem, hexact, hturns,
  tokensOf_append, tokensOf_cons, tokensOf_nil] at hover
 rcases hr.fits hquota h with hnil | hfits
 · rw [hnil, tokensOf_nil] at hover
   omega
 · unfold Fits at hfits
   omega

end Conversation
end MoltBrowser.WebAIConversation
