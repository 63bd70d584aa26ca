import MoltBrowser.WebAIConversationQuota
import MoltBrowser.TransitionRuns

set_option autoImplicit false

/-!
# Conversations over whole runs

Any sequence of system prompts, turns and replies on a new conversation. Beside
the context the history keeps its turns whole, with every image and clip they
were added with, and what the evictions so far left.
-/
namespace MoltBrowser.WebAIConversation
open NewestItems TransitionRuns List

inductive Call where
 | setSystemPrompt (text : Bytes)
 | add (added : List Turn)
 | addReply (text : Bytes)

def StartsWithUser (added : List Turn) : Prop := added.head?.map (·.role) = some .user

def Call.FromUser : Call → Prop
 | .add added => StartsWithUser added
 | _ => True

/-- `replyAlone`: the last eviction was a reply's, and no turn stayed beside it. -/
structure History where
 context : Conversation
 whole : List Turn := []
 evicted : Bool := false
 replyAlone : Bool := false

namespace History
open Conversation

/-- Turns that don't fit are refused; a plan is made on the context it is carried out on. -/
def step (h : History) : Call → History
 | .setSystemPrompt text => { h with context := (h.context.setSystemPrompt text).1 }
 | .add added =>
  let plan := h.context.planAdd added
  if plan.fits then
   { context := h.context.add plan added
     whole := h.whole.drop plan.evict ++ added
     evicted := h.evicted || plan.evict > 0
     replyAlone := h.replyAlone && plan.evict = 0 }
  else h
 | .addReply text =>
  let (context, evicted) := h.context.addReply text
  -- The turns left, without the reply.
  let left := context.turns.length - 1
  { context
    whole := h.whole.drop (h.context.turns.length - left) ++ [reply text]
    evicted := h.evicted || evicted
    replyAlone := if evicted then left = 0 else h.replyAlone }

def afterCalls (quota : UInt32) (calls : List Call) : History :=
 run step { context := { inputQuota := quota } } calls

variable {h : History}

/-! ## One call -/

theorem step_add {added : List Turn} (hfits : (h.context.planAdd added).fits = true) :
  h.step (.add added) =
   { context := h.context.add (h.context.planAdd added) added
     whole := h.whole.drop (h.context.planAdd added).evict ++ added
     evicted := h.evicted || (h.context.planAdd added).evict > 0
     replyAlone := h.replyAlone && (h.context.planAdd added).evict = 0 } := if_pos hfits

theorem step_add_refused {added : List Turn} (hfits : (h.context.planAdd added).fits = false) :
  h.step (.add added) = h := if_neg (by simp [hfits])

variable {text : Bytes}

theorem step_addReply {gone : ℕ} (hr : h.context.Replies text gone) :
  h.step (.addReply text) =
   { context := (h.context.addReply text).1
     whole := h.whole.drop gone ++ [reply text]
     evicted := h.evicted || 0 < gone
     replyAlone := if 0 < gone then h.context.turns.length ≤ gone else h.replyAlone } := by
 obtain ⟨hturns, -, -⟩ := hr.frame
 have hleft : (h.context.addReply text).1.turns.length - 1 = h.context.turns.length - gone := by
  simp [hturns]
 have hgone : h.context.turns.length - (h.context.turns.length - gone) = gone := by
  have := hr.bounded
  omega
 have hevicted : (h.context.addReply text).2 = decide (0 < gone) := by rw [hr.result]
 simp only [step, hleft, hgone, hevicted, decide_eq_true_eq, Nat.sub_eq_zero_iff_le]

/-! ## The context is the turns with their newest images and clips -/

/-- The turns of the context, and the quota as it was given. -/
structure Keeps (quota : UInt32) (h : History) : Prop where
 quota : h.context.inputQuota = quota
 turns : h.context.turns = keepNewestMedia h.whole

variable {quota : UInt32}

theorem Keeps.length (hk : h.Keeps quota) :
  h.context.turns.length = h.whole.length := by
 rw [hk.turns, length_keepNewestMedia]

theorem Keeps.map_drop (hk : h.Keeps quota) {β : Type} {f : Turn → β}
  (hf : ∀ t images audio, f { t with images, audio } = f t) (k : ℕ) :
  (h.context.turns.drop k).map f = (h.whole.drop k).map f := by
 rw [List.map_drop, hk.turns, keepNewestMedia_keeps hf, List.map_drop]

theorem Keeps.step (hk : h.Keeps quota) (call : Call) :
  (h.step call).Keeps quota := by
 cases call with
 | setSystemPrompt text =>
  rcases setSystemPrompt_cases h.context text with heq | ⟨-, heq⟩
  · exact ⟨by simp only [History.step, heq, hk.quota], by simp only [History.step, heq, hk.turns]⟩
  · exact ⟨by simp only [History.step, heq, hk.quota], by simp only [History.step, heq, hk.turns]⟩
 | add added =>
  cases hfits : (h.context.planAdd added).fits with
  | false => rwa [step_add_refused hfits]
  | true =>
   obtain ⟨hturns, hquota, -, -⟩ := add_spec h.context (h.context.planAdd added) added
   rw [step_add hfits]
   refine ⟨hquota.trans hk.quota, ?_⟩
   dsimp only
   rw [hturns, hk.turns, keepNewestMedia_drop, keepNewestMedia_again]
 | addReply text =>
  obtain ⟨gone, hr⟩ := addReply_spec h.context text
  obtain ⟨hturns, hquota, -⟩ := hr.frame
  rw [step_addReply hr]
  refine ⟨hquota.trans hk.quota, ?_⟩
  dsimp only
  rw [hturns, hk.turns, keepNewestMedia_drop, keepNewestMedia_plain _ rfl rfl]

theorem keeps_afterCalls (quota : UInt32) (calls : List Call) : (afterCalls quota calls).Keeps quota :=
 run_invariant_unconditional (fun _ call hk => hk.step call) ⟨rfl, rfl⟩ calls

/-! ## The counter -/

theorem exact_step (hquota : quota.toNat < maxTokens) (hk : h.Keeps quota)
  (hexact : h.context.Exact) (call : Call) : (h.step call).context.Exact := by
 have hquota' : h.context.inputQuota.toNat < maxTokens := by rwa [hk.quota]
 cases call with
 | setSystemPrompt text =>
  rcases setSystemPrompt_cases h.context text with heq | ⟨-, heq⟩
  · simpa only [History.step, heq] using hexact
  · simp only [History.step, heq]
    exact hexact
 | add added =>
  cases hfits : (h.context.planAdd added).fits with
  | false => rwa [step_add_refused hfits]
  | true =>
   have hroom := (planAdd_spec hquota' hexact hfits).fits
   rw [step_add hfits]
   refine (add_spec h.context (h.context.planAdd added) added).2.2.2 hexact ?_
   unfold Conversation.Fits at hroom
   rw [tokensOf_append]
   omega
 | addReply text =>
  obtain ⟨gone, hr⟩ := addReply_spec h.context text
  rw [step_addReply hr]
  exact hr.exact hquota' hexact

theorem exact_start (quota : UInt32) : ({ inputQuota := quota } : Conversation).Exact := rfl

theorem exact_afterCalls (hquota : quota.toNat < maxTokens) (calls : List Call) :
  (afterCalls quota calls).context.Exact :=
 (run_invariant_unconditional (I := fun h : History => h.Keeps quota ∧ h.context.Exact)
  (fun _ call hI => ⟨Keeps.step hI.1 call, exact_step hquota hI.1 hI.2 call⟩)
  ⟨⟨rfl, rfl⟩, exact_start quota⟩ calls).2

theorem usage_after_prompt {c : Conversation}
  (hset : (c.setSystemPrompt text).2 = true) :
  (c.setSystemPrompt text).1.inputUsage ≤ c.inputQuota := by
 rcases setSystemPrompt_cases c text with heq | ⟨hle, heq⟩
 · rw [heq] at hset
   cases hset
 · rw [heq]
   exact hle

theorem usage_after_add {c : Conversation} (hquota : c.inputQuota.toNat < maxTokens)
  (hexact : c.Exact) {added : List Turn} (hfits : (c.planAdd added).fits = true) :
  (c.add (c.planAdd added) added).inputUsage ≤ c.inputQuota := by
 have hroom := (planAdd_spec hquota hexact hfits).fits
 obtain ⟨hturns, -, hsystem, hexact'⟩ := add_spec c (c.planAdd added) added
 unfold Conversation.Fits at hroom
 have hcount := hexact' hexact (by rw [tokensOf_append]; omega)
 rw [Conversation.inputUsage, addTokens_le_iff hquota, hsystem, hcount, hturns,
  tokensOf_keepNewestMedia, tokensOf_append]
 omega

/-- One turn of the context beside the turn as it was added. -/
structure KeptOf (kept added : Turn) : Prop where
 role : kept.role = added.role
 text : kept.text = added.text
 tokens : kept.tokens = added.tokens
 images : kept.images <:+ added.images
 audio : kept.audio <:+ added.audio

theorem keptOf_withMedia {ts : List Turn} {is : List (List ModelImage)} {as : List (List ModelAudio)}
  (hi : List.Forall₂ (fun kept row => kept <:+ row) is (ts.map (·.images)))
  (ha : List.Forall₂ (fun kept row => kept <:+ row) as (ts.map (·.audio))) :
  List.Forall₂ KeptOf (withMedia ts is as) ts := by
 induction ts generalizing is as with
 | nil => simp [withMedia]
 | cons t ts ih =>
  cases hi with
  | cons hi his =>
   cases ha with
   | cons ha has => exact .cons ⟨rfl, rfl, rfl, hi, ha⟩ (ih his has)

theorem Keeps.keptOf (hk : h.Keeps quota) :
  List.Forall₂ KeptOf h.context.turns h.whole := by
 rw [hk.turns, keepNewestMedia_eq]
 exact keptOf_withMedia (newest_suffix _ _) (newest_suffix _ _)

/-- Session quota accounting is exact, for every quota below the counters' largest value: after any
calls the counter is the sum of the turns' tokens, what is set or added fits the quota, only a
reply too large for it goes over, no turn goes that could stay, and the newest images and clips
are kept. -/
theorem quota_accounting_exact (quota : UInt32) (hquota : quota.toNat < maxTokens)
  (calls : List Call) :
  let h := afterCalls quota calls
  let c := h.context
  c.turnsTokens.toNat = tokensOf c.turns ∧
  (∀ text, (c.setSystemPrompt text).2 = true → (c.setSystemPrompt text).1.inputUsage ≤ quota) ∧
  (∀ added, (c.planAdd added).fits = true →
   (c.add (c.planAdd added) added).inputUsage ≤ quota ∧
   c.Evicts added (c.planAdd added).evict) ∧
  (∀ text, quota < (c.addReply text).1.inputUsage →
   quota.toNat < c.systemTokens.toNat + (reply text).tokens.toNat) ∧
  List.Forall₂ KeptOf c.turns h.whole ∧
  c.turns.flatMap (·.images) = (h.whole.flatMap (·.images)).rtake kMaxContextImages ∧
  c.turns.flatMap (·.audio) = (h.whole.flatMap (·.audio)).rtake kMaxContextAudio ∧
  c.imageCount ≤ kMaxContextImages ∧ c.audioCount ≤ kMaxContextAudio := by
 have hk := keeps_afterCalls quota calls
 have hexact := exact_afterCalls hquota calls
 generalize afterCalls quota calls = h at hk hexact
 have hquota' : h.context.inputQuota.toNat < maxTokens := by rwa [hk.quota]
 have himages := keepNewestMedia_images h.whole
 have haudio := keepNewestMedia_audio h.whole
 rw [← hk.turns] at himages haudio
 have hcount : ∀ {α : Type} (media : Turn → List α) (max : ℕ),
   h.context.turns.map media = newest max (h.whole.map media) →
   (h.context.turns.map fun t => (media t).length).sum ≤ max := by
  intro α media max hmedia
  have hlength : (h.context.turns.map fun t => (media t).length).sum =
    (h.context.turns.map media).flatten.length := by
   rw [List.length_flatten, List.map_map]
   rfl
  rw [hlength, hmedia, length_flatten_newest]
  exact Nat.min_le_left _ _
 refine ⟨hexact, fun text hset => ?_, fun added hfits => ?_, fun text hover => ?_, ?_, ?_, ?_,
  hcount _ _ himages, hcount _ _ haudio⟩
 · rw [← hk.quota]
   exact usage_after_prompt hset
 · rw [← hk.quota]
   exact ⟨usage_after_add hquota' hexact hfits, planAdd_spec hquota' hexact hfits⟩
 · obtain ⟨gone, hr⟩ := addReply_spec h.context text
   rw [← hk.quota] at hover ⊢
   exact hr.over hquota' hexact hover
 · exact hk.keptOf
 · rw [List.flatMap_def, himages, flatten_newest, List.flatMap_def]
 · rw [List.flatMap_def, haudio, flatten_newest, List.flatMap_def]

theorem quota_accounting_exact_small : (20 : UInt32).toNat < maxTokens ∧
  (afterCalls 20 [.add [makeTurn .user "Hi" 0 []], .addReply "Hello"]).context.turnsTokens.toNat =
   tokensOf (afterCalls 20 [.add [makeTurn .user "Hi" 0 []], .addReply "Hello"]).context.turns :=
 ⟨by decide, (quota_accounting_exact 20 (by decide) _).1⟩

/-- A quota at the counters' largest value is never exceeded, so the counter saturates. -/
theorem largest_quota_saturates :
  let c := (afterCalls 4294967295 [.add [makeTurn .user [] (2 ^ 40) []],
   .add [makeTurn .user [] (2 ^ 40) []]]).context
  c.turnsTokens.toNat ≠ tokensOf c.turns := by decide

/-! ## Who speaks first -/

/-- After an eviction the oldest turn is the user's, or the reply that left nothing beside it. -/
structure UserFirst (h : History) : Prop where
 remains : h.evicted = true → h.whole ≠ []
 user : h.evicted = true → h.replyAlone = false → ∀ t ∈ h.whole.head?, t.role = .user
 reply : h.replyAlone = true → ∃ text, h.whole.head? = some (reply text)

theorem StartsWithUser.head {added : List Turn} (hu : StartsWithUser added) :
  ∃ t rest, added = t :: rest ∧ t.role = .user := by
 cases added with
 | nil => cases hu
 | cons t rest => exact ⟨t, rest, rfl, Option.some.inj hu⟩

theorem Keeps.head_role (hk : h.Keeps quota) {k : ℕ}
  (huser : ∀ t ∈ (h.context.turns.drop k).head?, t.role = .user) :
  ∀ t ∈ (h.whole.drop k).head?, t.role = .user := by
 intro t ht
 have hroles := congrArg List.head? (hk.map_drop (f := (·.role)) (fun _ _ _ => rfl) k)
 rw [head?_map, head?_map, Option.mem_def.1 ht, Option.map_some,
  Option.map_eq_some_iff] at hroles
 obtain ⟨s, hs, hrole⟩ := hroles
 rw [← hrole]
 exact huser s hs

theorem head_append {s t : Turn} {old more : List Turn} (hold : ∀ t ∈ old.head?, t.role = .user)
  (ht : t ∈ (old ++ s :: more).head?) (hs : s.role = .user) : t.role = .user := by
 cases old with
 | nil =>
  obtain rfl : s = t := Option.some.inj ht
  exact hs
 | cons u old => exact hold t ht

theorem UserFirst.step (hk : h.Keeps quota) (hf : h.UserFirst) {call : Call}
  (hcall : call.FromUser) : (h.step call).UserFirst := by
 cases call with
 | setSystemPrompt text => exact ⟨hf.remains, hf.user, hf.reply⟩
 | add added =>
  cases hfits : (h.context.planAdd added).fits with
  | false => rwa [step_add_refused hfits]
  | true =>
   obtain ⟨s, rest, rfl, hs⟩ := StartsWithUser.head hcall
   rw [step_add hfits]
   rcases Nat.eq_zero_or_pos (h.context.planAdd (s :: rest)).evict with hzero | hpos
   · -- Nothing goes: the front is what it was.
     simp only [hzero, drop_zero, lt_self_iff_false, decide_false, Bool.or_false,
      decide_true, Bool.and_true]
     refine ⟨fun _ => by simp, fun he ha t ht => head_append (hf.user he ha) ht hs, fun ha => ?_⟩
     obtain ⟨text, htext⟩ := hf.reply ha
     exact ⟨text, by rw [head?_append, htext, Option.some_or]⟩
   · have hold := hk.head_role fun t ht => planAdd_head h.context hpos ht
     refine ⟨fun _ => by simp, fun _ _ t ht => head_append hold ht hs, fun ha => ?_⟩
     simp [hpos.ne'] at ha
 | addReply text =>
  obtain ⟨gone, hr⟩ := addReply_spec h.context text
  rw [step_addReply hr]
  rcases Nat.eq_zero_or_pos gone with rfl | hpos
  · simp only [drop_zero, lt_self_iff_false, decide_false, Bool.or_false, ↓reduceIte]
    refine ⟨fun _ => by simp, fun he ha t ht => ?_, fun ha => ?_⟩
    · obtain ⟨u, us, hu⟩ := exists_cons_of_ne_nil (hf.remains he)
      rw [hu, cons_append, head?_cons, Option.mem_def, Option.some.injEq] at ht
      exact hf.user he ha t (by rw [hu, ← ht]; rfl)
    · obtain ⟨text', htext⟩ := hf.reply ha
      exact ⟨text', by rw [head?_append, htext, Option.some_or]⟩
  · simp only [hpos, decide_true, Bool.or_true, ↓reduceIte]
    have hold := hk.head_role (hr.head hpos)
    have hlength := hk.length
    refine ⟨fun _ => by simp, fun _ ha t ht => ?_, fun ha => ?_⟩
    · have hlt : gone < h.whole.length := by
       have := of_decide_eq_false ha
       omega
      cases hdrop : h.whole.drop gone with
      | nil => exact absurd (drop_eq_nil_iff.1 hdrop) (by omega)
      | cons u us =>
       rw [hdrop, cons_append, head?_cons, Option.mem_def, Option.some.injEq] at ht
       exact hold t (by rw [hdrop, ← ht]; rfl)
    · have hle := of_decide_eq_true ha
      rw [drop_eq_nil_of_le (by omega)]
      exact ⟨text, rfl⟩

theorem userFirst_afterCalls (quota : UInt32) {calls : List Call}
  (hcalls : ∀ call ∈ calls, call.FromUser) : (afterCalls quota calls).UserFirst := by
 refine (run_invariant (C := fun _ call => call.FromUser)
  (I := fun h : History => h.Keeps quota ∧ h.UserFirst)
  (fun h call hI hC => ⟨Keeps.step hI.1 call, UserFirst.step hI.1 hI.2 hC⟩)
  ⟨⟨rfl, rfl⟩, ⟨fun he => ?_, fun he => ?_, fun he => ?_⟩⟩ (along_of_forall_mem hcalls)).2
 · cases he
 · cases he
 · cases he

theorem keptOf_reply {t : Turn} (ht : KeptOf t (reply text)) : t = reply text := by
 obtain ⟨role, text', images, audio, tokens⟩ := t
 obtain ⟨hrole, htext, htokens, himages, haudio⟩ := ht
 dsimp only at hrole htext htokens himages haudio
 rw [suffix_nil.1 himages, suffix_nil.1 haudio, hrole, htext, htokens]
 rfl

def largeReply : List Call := [.add [makeTurn .user "Hi" 0 []], .addReply "Hello"]

end History
end MoltBrowser.WebAIConversation
