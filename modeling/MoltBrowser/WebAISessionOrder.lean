import MoltBrowser.WebAISession

set_option autoImplicit false

/-!
# A session serves its requests one at a time

The requests that are not answered yet, the running one first, stand in call
order behind the completed ones. Every transition answers some of them, drops
some, or adds one at the end; only a completion changes the conversation.
-/
namespace MoltBrowser.WebAISession
open List

open WebAIConversation TransitionRuns

variable {Audio : Type}

/-- What a completed request does to the conversation: its turns, planned on the
conversation they are added to, then its reply. -/
def applyCompleted (c : Conversation) (done : Completed) : Conversation :=
 let c := c.add (c.planAdd done.turns) done.turns
 if done.appendOnly then c else (c.addReply done.reply).1

def completionOf : Message → Option ℕ
 | .answer call (.completion _) => some call
 | _ => none

def answerOf : Message → Option ℕ
 | .answer call _ => some call
 | _ => none

def completionCalls (sent : List Message) : List ℕ := sent.filterMap completionOf

def answeredCalls (sent : List Message) : List ℕ := sent.filterMap answerOf

@[simp] theorem completionCalls_nil : completionCalls [] = [] := rfl

@[simp] theorem answeredCalls_nil : answeredCalls [] = [] := rfl

@[simp] theorem completionCalls_cons (m : Message) (ms : List Message) :
  completionCalls (m :: ms) = (completionOf m).toList ++ completionCalls ms := by
 cases h : completionOf m <;> simp [completionCalls, h]

@[simp] theorem answeredCalls_cons (m : Message) (ms : List Message) :
  answeredCalls (m :: ms) = (answerOf m).toList ++ answeredCalls ms := by
 cases h : answerOf m <;> simp [answeredCalls, h]

attribute [simp] completionOf answerOf

@[simp] theorem completionCalls_append (a b : List Message) :
  completionCalls (a ++ b) = completionCalls a ++ completionCalls b := filterMap_append

@[simp] theorem answeredCalls_append (a b : List Message) :
  answeredCalls (a ++ b) = answeredCalls a ++ answeredCalls b := filterMap_append

def withoutImages (t : Turn) : Turn := { t with images := [] }

def FromCall (env : Environment Audio) (config : Config) (calls : List (Call Audio)) (call : ℕ)
  (appendOnly : Bool) (turns : List Turn) : Prop :=
 ∃ c g, calls[call]? = some c ∧ c.appendOnly = appendOnly ∧
  gatherPrompts env config {} c.prompts = some g ∧ turns.map withoutImages = g.turns

theorem FromCall.lt_length {env : Environment Audio} {config : Config}
  {calls : List (Call Audio)} {call : ℕ} {appendOnly : Bool} {turns : List Turn}
  (h : FromCall env config calls call appendOnly turns) : call < calls.length := by
 obtain ⟨c, g, hc, -⟩ := h
 exact (List.getElem?_eq_some_iff.1 hc).1

theorem FromCall.append {env : Environment Audio} {config : Config}
  {calls : List (Call Audio)} {call : ℕ} {appendOnly : Bool} {turns : List Turn}
  (h : FromCall env config calls call appendOnly turns) (more : List (Call Audio)) :
  FromCall env config (calls ++ more) call appendOnly turns := by
 have hlt := h.lt_length
 obtain ⟨c, g, hc, hrest⟩ := h
 exact ⟨c, g, by rw [getElem?_append_left hlt]; exact hc, hrest⟩

namespace Session

def live (s : Session Audio) : List Request := s.running.toList ++ s.queue

end Session

structure Served (env : Environment Audio) (initial : Conversation) (s : Session Audio) :
  Prop where
 folded : s.conversation = s.completed.foldl applyCompleted initial
 completions : s.completed.map (·.call) = completionCalls s.sent
 ordered : (s.completed.map (·.call) ++ s.live.map (·.call)).Pairwise (· < ·)
 answered : (answeredCalls s.sent).Nodup
 fresh : ∀ r ∈ s.live, r.call ∉ answeredCalls s.sent
 known : ∀ call ∈ answeredCalls s.sent, call < s.calls.length
 sources : ∀ r ∈ s.live, FromCall env s.config s.calls r.call r.appendOnly r.turns
 completedSources : ∀ c ∈ s.completed,
  FromCall env s.config s.calls c.call c.appendOnly c.turns
 planned : ∀ r ∈ s.running, r.appendOnly = false ∧ r.plan = s.conversation.planAdd r.turns

section Steps

variable {env : Environment Audio} {initial : Conversation} {s s' : Session Audio}

/-- The fields the invariant reads, but for the messages and the live requests. -/
structure SameRecord (s s' : Session Audio) : Prop where
 conversation : s'.conversation = s.conversation
 completed : s'.completed = s.completed
 calls : s'.calls = s.calls
 config : s'.config = s.config

theorem Served.refuse (h : Served env initial s) (same : SameRecord s s')
  (hlive : s'.live.Sublist s.live) (hrunning : ∀ r ∈ s'.running, r ∈ s.running)
  (refused : List ℕ) (hdone : completionCalls s'.sent = completionCalls s.sent)
  (hans : answeredCalls s'.sent = answeredCalls s.sent ++ refused) (hnodup : refused.Nodup)
  (hnew : ∀ call ∈ refused, call ∉ answeredCalls s.sent ∧ call < s.calls.length ∧
   ∀ r ∈ s'.live, r.call ≠ call) : Served env initial s' where
 folded := by rw [same.conversation, same.completed]; exact h.folded
 completions := by rw [same.completed, hdone]; exact h.completions
 ordered := by
  rw [same.completed]
  exact h.ordered.sublist ((List.Sublist.refl _).append (hlive.map _))
 answered := by
  rw [hans]
  refine nodup_append.2 ⟨h.answered, hnodup, ?_⟩
  rintro a ha b hb rfl
  exact (hnew a hb).1 ha
 fresh := fun r hr => by
  rw [hans, mem_append, not_or]
  exact ⟨h.fresh r (hlive.subset hr), fun hmem => (hnew _ hmem).2.2 r hr rfl⟩
 known := by
  rw [hans, same.calls]
  intro call hcall
  rcases mem_append.1 hcall with hold | hnow
  · exact h.known call hold
  · exact (hnew call hnow).2.1
 sources := fun r hr => by
  rw [same.config, same.calls]; exact h.sources r (hlive.subset hr)
 completedSources := by rw [same.completed, same.config, same.calls]; exact h.completedSources
 planned := fun r hr => by rw [same.conversation]; exact h.planned r (hrunning r hr)

theorem Served.shrink (h : Served env initial s) (same : SameRecord s s')
  (hlive : s'.live.Sublist s.live) (hrunning : ∀ r ∈ s'.running, r ∈ s.running)
  (hdone : completionCalls s'.sent = completionCalls s.sent)
  (hans : answeredCalls s'.sent = answeredCalls s.sent) : Served env initial s' :=
 h.refuse same hlive hrunning [] hdone (by rw [hans, append_nil])
  nodup_nil (fun _ hcall => absurd hcall not_mem_nil)

theorem Served.live_calls (h : Served env initial s) :
  (s.live.map (·.call)).Pairwise (· < ·) := (pairwise_append.1 h.ordered).2.1

/-- The oldest live request completes: what it adds follows everything completed before. -/
theorem Served.complete (h : Served env initial s) {r : Request} {rest : List Request}
  (hlive : s.live = r :: rest) (reply : Bytes)
  (hconv : s'.conversation =
   applyCompleted s.conversation ⟨r.call, r.turns, r.appendOnly, reply⟩)
  (hcompleted : s'.completed = s.completed ++ [⟨r.call, r.turns, r.appendOnly, reply⟩])
  (hcalls : s'.calls = s.calls) (hconfig : s'.config = s.config)
  (hrunning : s'.running = none) (hqueue : s'.queue = rest)
  (hdone : completionCalls s'.sent = completionCalls s.sent ++ [r.call])
  (hans : answeredCalls s'.sent = answeredCalls s.sent ++ [r.call]) :
  Served env initial s' := by
 have hmem : r ∈ s.live := by rw [hlive]; exact mem_cons_self
 have hlive' : s'.live = rest := by simp [Session.live, hrunning, hqueue]
 have hsub : ∀ q ∈ rest, q ∈ s.live := fun q hq => by
  rw [hlive]; exact mem_cons_of_mem r hq
 have hlater : ∀ q ∈ rest, r.call < q.call := by
  have hcalls := h.live_calls
  rw [hlive, map_cons, pairwise_cons] at hcalls
  exact fun q hq => hcalls.1 q.call (mem_map_of_mem hq)
 refine
  { folded := ?_
    completions := ?_
    ordered := ?_
    answered := ?_
    fresh := ?_
    known := ?_
    sources := ?_
    completedSources := ?_
    planned := ?_ }
 · rw [hcompleted, foldl_append, ← h.folded, hconv]
   rfl
 · rw [hcompleted, hdone, map_append, h.completions]
   rfl
 · have hold := h.ordered
   rw [hlive, map_cons] at hold
   rw [hcompleted, hlive', map_append, append_assoc]
   exact hold
 · rw [hans]
   refine nodup_append.2 ⟨h.answered, nodup_singleton _, ?_⟩
   intro a ha b hb hab
   rw [mem_singleton.1 hb] at hab
   exact h.fresh r hmem (hab ▸ ha)
 · intro q hq
   rw [hlive'] at hq
   rw [hans, mem_append, not_or, mem_singleton]
   exact ⟨h.fresh q (hsub q hq), (hlater q hq).ne'⟩
 · intro call hcall
   rw [hans, mem_append, mem_singleton] at hcall
   rw [hcalls]
   rcases hcall with hold | rfl
   · exact h.known call hold
   · exact (h.sources r hmem).lt_length
 · intro q hq
   rw [hlive'] at hq
   rw [hconfig, hcalls]
   exact h.sources q (hsub q hq)
 · intro c hc
   rw [hcompleted, mem_append, mem_singleton] at hc
   rw [hconfig, hcalls]
   rcases hc with hold | rfl
   · exact h.completedSources c hold
   · exact h.sources r hmem
 · intro q hq
   rw [hrunning] at hq
   exact absurd hq (by simp)

theorem Served.sync (h : Served env initial s) : Served env initial s.syncHeldImages := by
 unfold Session.syncHeldImages
 dsimp only
 split
 · exact h.shrink ⟨rfl, rfl, rfl, rfl⟩ (List.Sublist.refl _) (fun _ hr => hr)
    (by simp [Session.send])
    (by simp [Session.send])
 · exact h

theorem Served.refuse_head (h : Served env initial s) {r : Request} {rest : List Request}
  (hidle : s.running = none) (hqueue : s.queue = r :: rest) (status : ResponseStatus)
  (quota : Option (UInt32 × UInt32)) :
  Served env initial { s.onError r.call status quota with queue := rest } := by
 have hlive : s.live = r :: rest := by simp [Session.live, hidle, hqueue]
 have hmem : r ∈ s.live := by rw [hlive]; exact mem_cons_self
 refine h.refuse ⟨rfl, rfl, rfl, rfl⟩ ?_ (fun _ hr => hr) [r.call] ?_ ?_
  (nodup_singleton _) ?_
 · simp [Session.live, hqueue, Session.onError, Session.send]
 · simp [Session.onError, Session.send]
 · simp [Session.onError, Session.send]
 · intro call hcall
   rw [mem_singleton] at hcall
   subst hcall
   refine ⟨h.fresh r hmem, (h.sources r hmem).lt_length, ?_⟩
   have hcalls := h.live_calls
   rw [hlive, map_cons, pairwise_cons] at hcalls
   intro q hq
   have hq : q ∈ rest := by
    simpa [Session.live, Session.onError, Session.send, hidle] using hq
   exact (hcalls.1 q.call (mem_map_of_mem hq)).ne'

theorem begin_queue (s : Session Audio) (queue : List Request) (r : Request) :
  ({ s with queue } : Session Audio).begin r =
   ({ (s.begin r).1 with queue }, (s.begin r).2) := by
 unfold Session.begin
 dsimp only
 split
 · rfl
 · split
   · split <;> rfl
   · rfl

theorem Served.begin_none (h : Served env initial s) {r : Request} {rest : List Request}
  (hidle : s.running = none) (hqueue : s.queue = r :: rest) (hb : (s.begin r).2 = none) :
  Served env initial { (s.begin r).1 with queue := rest } := by
 unfold Session.begin at hb ⊢
 dsimp only at hb ⊢
 split
 · exact h.refuse_head hidle hqueue _ _
 · next hfits =>
   rw [if_neg hfits] at hb
   split at hb
   · next happ =>
     rw [if_pos happ]
     have hlive : s.live = r :: rest := by simp [Session.live, hidle, hqueue]
     refine h.complete hlive [] ?_ ?_ ?_ ?_ ?_ rfl ?_ ?_
     · rw [applyCompleted]
       split <;> simp [Session.send]
     all_goals split <;>
      simp [Session.send, happ, hidle]
   · exact absurd hb (by simp)

theorem Served.begin_some (h : Served env initial s) {r r' : Request} {rest : List Request}
  {job : GenerationJob} (hidle : s.running = none) (hqueue : s.queue = r :: rest)
  (hb : (s.begin r).2 = some (r', job)) :
  Served env initial { (s.begin r).1.startJob r' job with queue := rest } := by
 unfold Session.begin at hb ⊢
 dsimp only at hb ⊢
 split
 · next hfits =>
   rw [if_pos hfits] at hb
   exact absurd hb (by simp)
 · next hfits =>
   rw [if_neg hfits] at hb
   split at hb
   · exact absurd hb (by simp)
   · next happ =>
     rw [if_neg happ]
     simp only [Option.some.injEq, Prod.mk.injEq] at hb
     obtain ⟨rfl, -⟩ := hb
     have hlive : s.live = r :: rest := by simp [Session.live, hidle, hqueue]
     have hmem : ∀ q ∈ s.live, q = r ∨ q ∈ rest := by
      intro q hq
      rwa [hlive, mem_cons] at hq
     refine
      { folded := h.folded
        completions := ?_
        ordered := ?_
        answered := ?_
        fresh := ?_
        known := ?_
        sources := ?_
        completedSources := h.completedSources
        planned := ?_ }
     · simpa [Session.startJob, Session.send] using h.completions
     · have hold := h.ordered
       rw [hlive] at hold
       simpa [Session.startJob, Session.send, Session.live] using hold
     · simpa [Session.startJob, Session.send] using h.answered
     · have hold := h.fresh
       rw [hlive] at hold
       simpa [Session.startJob, Session.send, Session.live] using hold
     · simpa [Session.startJob, Session.send] using h.known
     · have hold := h.sources
       rw [hlive] at hold
       simpa [Session.startJob, Session.send, Session.live] using hold
     · simpa [Session.startJob, Session.send] using happ

theorem Served.startRequests {rest : List Request} (h : Served env initial { s with queue := rest }) :
  Served env initial (s.startRequests rest) := by
 induction rest generalizing s with
 | nil => exact h
 | cons r rest ih =>
  rw [Session.startRequests]
  split
  · exact h
  · next hstop =>
    have hidle : s.running = none := by
     cases hr : s.running with
     | none => rfl
     | some q => simp [hr] at hstop
    split
    · exact ih (h.refuse_head hidle rfl _ _)
    · split
      · next s' hb =>
        have hnone := h.begin_none hidle rfl (by rw [begin_queue, hb])
        rw [begin_queue, hb] at hnone
        exact ih hnone
      · next s' r' job hb =>
        have hb' : (Session.begin { s with queue := r :: rest } r).2 = some (r', job) := by
         rw [begin_queue, hb]
        have hsome := h.begin_some hidle rfl hb'
        rw [begin_queue, hb] at hsome
        exact hsome

theorem Served.maybeStartNext (h : Served env initial s) :
  Served env initial s.maybeStartNext := by
 unfold Session.maybeStartNext
 dsimp only
 split
 · exact h.startRequests
 · exact h.startRequests.sync

/-- The number of a call that has just arrived: nothing was answered for it yet. -/
structure NewCall (s : Session Audio) (call : ℕ) (c : Call Audio) : Prop where
 recorded : s.calls[call]? = some c
 last : s.calls.length = call + 1
 unanswered : ∀ answered ∈ answeredCalls s.sent, answered < call
 older : ∀ r ∈ s.live, r.call < call
 olderCompleted : ∀ r ∈ s.completed, r.call < call

theorem Served.called (h : Served env initial s) (c : Call Audio) :
  Served env initial { s with calls := s.calls ++ [c] } ∧
   NewCall { s with calls := s.calls ++ [c] } s.calls.length c := by
 constructor
 · exact
    { h with
      known := fun call hcall => by
       have hlt := h.known call hcall
       simp only [length_append, length_singleton]
       omega
      sources := fun r hr => (h.sources r hr).append [c]
      completedSources := fun r hr => (h.completedSources r hr).append [c] }
 · exact
    { recorded := by simp
      last := by simp
      unanswered := h.known
      older := fun r hr => (h.sources r hr).lt_length
      olderCompleted := fun r hr => (h.completedSources r hr).lt_length }

theorem Served.refuse_call (h : Served env initial s) {call : ℕ} {c : Call Audio}
  (hnew : NewCall s call c) (status : ResponseStatus) (quota : Option (UInt32 × UInt32)) :
  Served env initial (s.onError call status quota) := by
 refine h.refuse ⟨rfl, rfl, rfl, rfl⟩ (List.Sublist.refl _) (fun _ hr => hr) [call]
  (by simp [Session.onError, Session.send]) (by simp [Session.onError, Session.send])
  (nodup_singleton _) ?_
 intro call' hcall
 rw [mem_singleton] at hcall
 subst hcall
 refine ⟨fun hmem => (hnew.unanswered _ hmem).false, ?_, fun r hr => (hnew.older r hr).ne⟩
 have hlast := hnew.last
 omega

theorem Served.queued (h : Served env initial s) {call : ℕ} {c : Call Audio}
  (hnew : NewCall s call c) {r : Request} (hcall : r.call = call)
  (hsource : FromCall env s.config s.calls r.call r.appendOnly r.turns)
  (same : SameRecord s s') (hrunning : s'.running = s.running) (hqueue : s'.queue = s.queue ++ [r])
  (hdone : completionCalls s'.sent = completionCalls s.sent)
  (hans : answeredCalls s'.sent = answeredCalls s.sent) : Served env initial s' := by
 have hlive : s'.live = s.live ++ [r] := by
  simp [Session.live, hrunning, hqueue]
 refine
  { folded := by rw [same.conversation, same.completed]; exact h.folded
    completions := by rw [same.completed, hdone]; exact h.completions
    ordered := ?_
    answered := by rw [hans]; exact h.answered
    fresh := ?_
    known := by rw [hans, same.calls]; exact h.known
    sources := ?_
    completedSources := by
     rw [same.completed, same.config, same.calls]; exact h.completedSources
    planned := by rw [hrunning, same.conversation]; exact h.planned }
 · rw [same.completed, hlive, map_append, ← append_assoc]
   refine pairwise_append.2 ⟨h.ordered, pairwise_singleton _ _, ?_⟩
   intro older holder last hlast
   rw [map_singleton, mem_singleton] at hlast
   rw [hlast, hcall]
   rcases mem_append.1 holder with hdone | hlive
   · obtain ⟨q, hq, rfl⟩ := mem_map.1 hdone
     exact hnew.olderCompleted q hq
   · obtain ⟨q, hq, rfl⟩ := mem_map.1 hlive
     exact hnew.older q hq
 · intro q hq
   rw [hlive, mem_append, mem_singleton] at hq
   rw [hans]
   rcases hq with hold | rfl
   · exact h.fresh q hold
   · rw [hcall]
     exact fun hmem => (hnew.unanswered _ hmem).false
 · intro q hq
   rw [hlive, mem_append, mem_singleton] at hq
   rw [same.config, same.calls]
   rcases hq with hold | rfl
   · exact h.sources q hold
   · exact hsource

theorem Served.enqueue (h : Served env initial s) {call : ℕ} {c : Call Audio}
  (hnew : NewCall s call c) {r : Request} (hcall : r.call = call)
  (hsource : FromCall env s.config s.calls r.call r.appendOnly r.turns)
  (bitmaps : List Bitmap) (granted : Bool) :
  Served env initial (s.enqueue r bitmaps granted) := by
 subst hcall
 unfold Session.enqueue
 split
 · exact h
 · split
   · exact h.refuse_call hnew _ _
   · split
     · exact h.refuse_call hnew _ _
     · split
       · exact h.refuse_call hnew _ _
       · dsimp only
         split
         · exact h.refuse_call hnew _ _
         · refine (h.queued (r := { r with
             id := s.nextRequestId
             imagesPending := !bitmaps.isEmpty
             heldImages := bitmaps.length + (r.turns.map (·.audio.length)).sum })
            hnew rfl hsource ?_ ?_ ?_ ?_ ?_).maybeStartNext
           · split <;> exact ⟨rfl, rfl, rfl, rfl⟩
           all_goals split <;> simp [Session.send]

theorem gatherBitmaps_turns {g g' : Gathered} {bitmaps : List Bitmap}
  (h : gatherBitmaps g bitmaps = some g') : g'.turns = g.turns := by
 induction bitmaps generalizing g with
 | nil =>
  rw [gatherBitmaps, Option.some.injEq] at h
  rw [h]
 | cons b rest ih =>
  rw [gatherBitmaps] at h
  split at h
  · exact absurd h (by simp)
  · have hrest := ih h
    exact hrest

theorem gatherPrompts_withoutImages {config : Config} {g g' : Gathered}
  {prompts : List (Prompt Audio)} (h : gatherPrompts env config g prompts = some g')
  (hg : g.turns.map withoutImages = g.turns) :
  g'.turns.map withoutImages = g'.turns := by
 induction prompts generalizing g with
 | nil =>
  rw [gatherPrompts, Option.some.injEq] at h
  rw [← h]
  exact hg
 | cons p rest ih =>
  rw [gatherPrompts, Option.bind_eq_some_iff] at h
  obtain ⟨g₁, hp, hrest⟩ := h
  refine ih hrest ?_
  unfold gatherPrompt at hp
  split at hp
  · exact absurd hp (by simp)
  · split at hp
    · exact absurd hp (by simp)
    · split at hp
      · exact absurd hp (by simp)
      · next g₂ hbitmaps =>
        split at hp
        · exact absurd hp (by simp)
        · rw [Option.some.injEq] at hp
          subst hp
          rw [map_append, gatherBitmaps_turns hbitmaps, hg]
          rfl

theorem Served.queueCall (h : Served env initial s) {call : ℕ} {c : Call Audio}
  (hnew : NewCall s call c) (jsonSchema : Bytes) (granted : Bool) :
  Served env initial (s.queueCall env call c.prompts c.appendOnly jsonSchema granted) := by
 unfold Session.queueCall
 dsimp only
 split
 · exact h.refuse_call hnew _ _
 · split
   · exact h.refuse_call hnew _ _
   · next g hg =>
     split
     · exact h.refuse_call hnew _ _
     · refine h.enqueue hnew rfl ?_ g.bitmaps granted
       exact ⟨c, g, hnew.recorded, rfl, hg, gatherPrompts_withoutImages hg rfl⟩

theorem Served.prompt (h : Served env initial s) (prompts : List (Prompt Audio))
  (constraint : Option Constraint) (granted : Bool) :
  Served env initial (s.prompt env prompts constraint granted) := by
 obtain ⟨hcalled, hnew⟩ := h.called (Call.mk prompts false constraint)
 unfold Session.prompt
 dsimp only
 split
 · exact hcalled.refuse_call hnew _ _
 · exact hcalled.queueCall hnew _ granted

theorem Served.append (h : Served env initial s) (prompts : List (Prompt Audio))
  (granted : Bool) : Served env initial (s.append env prompts granted) := by
 obtain ⟨hcalled, hnew⟩ := h.called (Call.mk prompts true none)
 exact hcalled.queueCall hnew [] granted

theorem Served.onResponderDisconnected (h : Served env initial s) (requestId : ℕ) :
  Served env initial (s.onResponderDisconnected requestId) := by
 unfold Session.onResponderDisconnected
 split
 · refine Served.maybeStartNext (h.shrink ?_ ?_ ?_ ?_ ?_)
   · dsimp only
     split <;> exact ⟨rfl, rfl, rfl, rfl⟩
   · dsimp only
     split <;> simp [Session.live, Session.send]
   · simp
   all_goals
    dsimp only
    split <;> simp [Session.send]
 · split
   · refine Served.maybeStartNext (h.shrink ⟨rfl, rfl, rfl, rfl⟩ ?_ (fun _ hr => hr) rfl rfl)
     exact (List.Sublist.refl _).append eraseP_sublist
   · exact h

theorem modify_withoutImages (turns : List Turn) (turn : ℕ) (image : ModelImage) :
  (turns.modify turn fun t => { t with images := t.images ++ [image] }).map
   withoutImages = turns.map withoutImages := by
 refine ext_getElem? fun i => ?_
 rw [getElem?_map, getElem?_modify, getElem?_map]
 cases turns[i]? with
 | none => rfl
 | some t => by_cases hi : turn = i <;> simp [hi, withoutImages]

theorem attachImages_withoutImages (turns : List Turn) (images : List (ModelImage × ℕ)) :
  (Session.attachImages turns images).map withoutImages = turns.map withoutImages := by
 induction images generalizing turns with
 | nil => rfl
 | cons image rest ih =>
  exact (ih _).trans (modify_withoutImages turns image.2 image.1)

/-- Replacing the request of an id by one of the same call keeps the order of the calls. -/
theorem replace_calls {queue : List Request} {id : ℕ} {r ready : Request}
  (hr : queue.find? (·.id = id) = some r) (hcall : ready.call = r.call) :
  (queue.replaceF fun q => if q.id = id then some ready else none).map (·.call) =
   queue.map (·.call) := by
 induction queue with
 | nil => rfl
 | cons q rest ih =>
  by_cases hq : q.id = id
  · have hrq : q = r := by simpa [hq] using hr
    subst hrq
    simp [List.replaceF, hq, hcall]
  · have hrest : rest.find? (·.id = id) = some r := by simpa [hq] using hr
    simpa [List.replaceF, hq] using ih hrest

theorem mem_replace {queue : List Request} {id : ℕ} {ready q : Request}
  (hq : q ∈ queue.replaceF fun q => if q.id = id then some ready else none) :
  q ∈ queue ∨ q = ready := by
 induction queue with
 | nil => exact absurd hq (by simp [List.replaceF])
 | cons p rest ih =>
  by_cases hp : p.id = id
  · simp only [List.replaceF, hp, if_true, mem_cons] at hq
    rcases hq with rfl | hq
    · exact Or.inr rfl
    · exact Or.inl (mem_cons_of_mem p hq)
  · simp only [List.replaceF, hp, if_false, mem_cons] at hq
    rcases hq with rfl | hq
    · exact Or.inl mem_cons_self
    · rcases ih hq with hold | hready
      · exact Or.inl (mem_cons_of_mem p hold)
      · exact Or.inr hready

theorem Served.ready (h : Served env initial s) {id : ℕ} {r ready : Request}
  (hr : s.queue.find? (·.id = id) = some r) (hcall : ready.call = r.call)
  (happend : ready.appendOnly = r.appendOnly)
  (hturns : ready.turns.map withoutImages = r.turns.map withoutImages) :
  Served env initial { s with
   queue := s.queue.replaceF fun q => if q.id = id then some ready else none } := by
 have hmem : r ∈ s.live := mem_append_right _ (mem_of_find?_eq_some hr)
 have hlive : ∀ q ∈ s.running.toList ++
   (s.queue.replaceF fun q => if q.id = id then some ready else none),
   q ∈ s.live ∨ q = ready := by
  intro q hq
  rcases mem_append.1 hq with hrun | hqueue
  · exact Or.inl (mem_append_left _ hrun)
  · rcases mem_replace hqueue with hold | hready
    · exact Or.inl (mem_append_right _ hold)
    · exact Or.inr hready
 exact
  { h with
    ordered := by
     have hold := h.ordered
     simp only [Session.live, map_append] at hold ⊢
     rw [replace_calls hr hcall]
     exact hold
    fresh := fun q hq => by
     rcases hlive q hq with hold | rfl
     · exact h.fresh q hold
     · rw [hcall]
       exact h.fresh r hmem
    sources := fun q hq => by
     rcases hlive q hq with hold | rfl
     · exact h.sources q hold
     · rw [hcall, happend]
       obtain ⟨c, g, hc, hca, hg, hgt⟩ := h.sources r hmem
       exact ⟨c, g, hc, hca, hg, hturns.trans hgt⟩ }

theorem Served.refuse_waiting (h : Served env initial s) {id : ℕ} {r : Request}
  (hr : s.queue.find? (·.id = id) = some r) (status : ResponseStatus)
  (quota : Option (UInt32 × UInt32)) :
  Served env initial
   { s.onError r.call status quota with queue := s.queue.eraseP (·.id = id) } := by
 have hmem : r ∈ s.live := mem_append_right _ (mem_of_find?_eq_some hr)
 obtain ⟨-, before, after, hqueue, hbefore⟩ := find?_eq_some_iff_append.1 hr
 have herase : s.queue.eraseP (·.id = id) = before ++ after := by
  have hid : r.id = id := by simpa using find?_some hr
  rw [hqueue, eraseP_append_right _ fun q hq => by simpa using hbefore q hq]
  simp [hid]
 have hcalls := h.live_calls
 rw [Session.live, hqueue, ← append_assoc, map_append, map_cons,
  pairwise_append] at hcalls
 obtain ⟨-, hafter, hacross⟩ := hcalls
 refine h.refuse ⟨rfl, rfl, rfl, rfl⟩ ?_ (fun _ hq => hq) [r.call] ?_ ?_
  (nodup_singleton _) ?_
 · exact (List.Sublist.refl _).append eraseP_sublist
 · simp [Session.onError, Session.send]
 · simp [Session.onError, Session.send]
 · intro call hcall
   rw [mem_singleton] at hcall
   subst hcall
   refine ⟨h.fresh r hmem, (h.sources r hmem).lt_length, ?_⟩
   intro q hq
   have hq : q ∈ (s.running.toList ++ before) ++ after := by
    simpa [Session.live, Session.onError, Session.send, herase] using hq
   rcases mem_append.1 hq with hold | hnew
   · exact (hacross _ (mem_map_of_mem hold) _ mem_cons_self).ne
   · exact ((pairwise_cons.1 hafter).1 _ (mem_map_of_mem hnew)).ne'

theorem Served.onImagesReady (h : Served env initial s) (requestId : ℕ)
  (images : Option (List ModelImage)) :
  Served env initial (s.onImagesReady requestId images) := by
 unfold Session.onImagesReady
 split
 · exact h
 · split
   · exact h
   · next r hr =>
     split
     · exact h
     · split
       · exact (h.refuse_waiting hr _ _).sync.maybeStartNext
       · exact Served.maybeStartNext (h.ready hr rfl rfl (attachImages_withoutImages _ _))

theorem Served.flush (h : Served env initial s) : Served env initial s.flush := by
 unfold Session.flush
 split
 · split
   · exact h
   · exact h.shrink ⟨rfl, rfl, rfl, rfl⟩ (List.Sublist.refl _) (fun _ hr => hr)
      (by simp [Session.send]) (by simp [Session.send])
 · exact h

theorem Served.onChunk (h : Served env initial s) (requestId : ℕ) (text : Bytes) (due : Bool) :
  Served env initial (s.onChunk requestId text due) := by
 unfold Session.onChunk
 split
 · split
   · have hreply : Served env initial
       { s with reply := s.reply ++ text, unsent := s.unsent ++ text } := { h with }
     dsimp only
     split
     · exact hreply.flush
     · exact hreply
   · exact h
 · exact h

theorem Served.finish (h : Served env initial s) {r : Request} (hrun : s.running = some r)
  (same : SameRecord s s') (hrunning : s'.running = none) (hqueue : s'.queue = s.queue)
  (hdone : completionCalls s'.sent = completionCalls s.sent)
  (hans : answeredCalls s'.sent = answeredCalls s.sent) (reply : Bytes) :
  Served env initial ((s'.commit r reply).send
   (.answer r.call (.completion (s'.commit r reply).conversation.inputUsage))) := by
 obtain ⟨happend, hplan⟩ := h.planned r hrun
 have hlive : s.live = r :: s.queue := by simp [Session.live, hrun]
 have hconv : (s'.commit r reply).conversation =
   applyCompleted s.conversation ⟨r.call, r.turns, r.appendOnly, reply⟩ := by
  have hcommit : (s'.commit r reply).conversation =
    ((s'.conversation.add r.plan r.turns).addReply reply).1 := by
   unfold Session.commit
   dsimp only
   split <;> rfl
  rw [hcommit, same.conversation, applyCompleted, happend, hplan]
  rfl
 refine h.complete hlive reply hconv ?_ ?_ ?_ ?_ ?_ ?_ ?_
 all_goals
  unfold Session.commit
  dsimp only
  split <;>
   simp [Session.send, same.completed, same.calls, same.config, hrunning, hqueue, hdone, hans]

theorem Served.fail (h : Served env initial s) {r : Request} (hrun : s.running = some r)
  (same : SameRecord s s') (hrunning : s'.running = none) (hqueue : s'.queue = s.queue)
  (hsent : s'.sent = s.sent) (status : ResponseStatus) (quota : Option (UInt32 × UInt32)) :
  Served env initial (s'.onError r.call status quota) := by
 have hlive : s.live = r :: s.queue := by simp [Session.live, hrun]
 have hlive' : (s'.onError r.call status quota).live = s.queue := by
  simp [Session.live, Session.onError, Session.send, hrunning, hqueue]
 have hmem : r ∈ s.live := by rw [hlive]; exact mem_cons_self
 have hcalls := h.live_calls
 rw [hlive, map_cons, pairwise_cons] at hcalls
 refine h.refuse ⟨same.conversation, same.completed, same.calls, same.config⟩ ?_ ?_ [r.call]
  ?_ ?_ (nodup_singleton _) ?_
 · rw [hlive', hlive]
   exact sublist_cons_self r s.queue
 · simp [Session.onError, Session.send, hrunning]
 · simp [Session.onError, Session.send, hsent]
 · simp [Session.onError, Session.send, hsent]
 · intro call hcall
   rw [mem_singleton] at hcall
   subst hcall
   refine ⟨h.fresh r hmem, (h.sources r hmem).lt_length, ?_⟩
   intro q hq
   rw [hlive'] at hq
   exact (hcalls.1 _ (mem_map_of_mem hq)).ne'

theorem Served.finishRunning (h : Served env initial s) {r : Request}
  (hrun : s.running = some r) (status : GenerationStatus) (unsent : Bytes) :
  Served env initial (s.finishRunning r status unsent) := by
 unfold Session.finishRunning
 dsimp only
 split
 · have hsame : SameRecord s (if unsent.isEmpty then { s with running := none, jobId := 0 }
     else { s with running := none, jobId := 0 }.send (.streaming r.call unsent)) := by
    split <;> exact ⟨rfl, rfl, rfl, rfl⟩
   have hfinish : Served env initial _ :=
    h.finish hrun hsame (by split <;> rfl) (by split <;> rfl)
     (by split <;> simp [Session.send]) (by split <;> simp [Session.send])
     (if unsent.isEmpty then { s with running := none, jobId := 0 }
      else { s with running := none, jobId := 0 }.send (.streaming r.call unsent)).reply
   exact { hfinish with }
 · have hsame : SameRecord s { s with running := none, jobId := 0 } := ⟨rfl, rfl, rfl, rfl⟩
   have hfail := h.fail hrun hsame rfl rfl rfl (statusFor status) none
   exact { hfail with }

theorem Served.onDone (h : Served env initial s) (requestId : ℕ) (status : GenerationStatus) :
  Served env initial (s.onDone env requestId status) := by
 unfold Session.onDone
 cases hrun : s.running with
 | none => exact h
 | some r =>
  dsimp only
  split
  · exact h
  · exact (h.finishRunning hrun _ _).maybeStartNext

theorem Served.delete (h : Served env initial s) : Served env initial s.delete := by
 have hans (waiting : List Request) : answeredCalls
   (waiting.map fun r => Message.answer r.call (.error .errorSessionDestroyed none)) =
    waiting.map (·.call) := by
  induction waiting with
  | nil => rfl
  | cons r rest ih => simp [ih]
 have hdone (waiting : List Request) : completionCalls
   (waiting.map fun r => Message.answer r.call (.error .errorSessionDestroyed none)) = [] := by
  induction waiting with
  | nil => rfl
  | cons r rest ih => simp [ih]
 have hnodup : (s.live.map (·.call)).Nodup := h.live_calls.imp fun hlt => hlt.ne
 refine h.refuse ?_ ?_ ?_ (s.live.map (·.call)) ?_ ?_ hnodup ?_
 · unfold Session.delete
   dsimp only
   split <;> split <;> exact ⟨rfl, rfl, rfl, rfl⟩
 · have hnone : s.delete.live = [] := by simp [Session.live, Session.delete]
   rw [hnone]
   exact nil_sublist _
 · simp [Session.delete]
 · unfold Session.delete
   dsimp only
   split <;> split <;> simp [Session.send, hdone]
 · unfold Session.delete
   dsimp only
   split <;> split <;> simp [Session.send, Session.live, hans]
 · intro call hcall
   obtain ⟨r, hr, rfl⟩ := mem_map.1 hcall
   refine ⟨h.fresh r hr, (h.sources r hr).lt_length, ?_⟩
   simp [Session.live, Session.delete]

theorem Served.step (h : Served env initial s) (e : Event Audio) :
  Served env initial (s.step env e) := by
 unfold Session.step
 split
 · exact h
 · cases e with
   | prompt prompts constraint granted => exact h.prompt prompts constraint granted
   | append prompts granted => exact h.append prompts granted
   | responderDisconnected id => exact h.onResponderDisconnected id
   | imagesReady id images => exact h.onImagesReady id images
   | chunk id text due => exact h.onChunk id text due
   | done id status => exact h.onDone id status
   | permission mayServe => exact { h with }
   | close => exact { h with }
   | deleted => exact h.delete

end Steps

/-- Everything a session can reach: `es` is any order of events, spurious ones too. -/
def afterEvents (env : Environment Audio) (config : Config) (conversation : Conversation)
  (es : List (Event Audio)) : Session Audio :=
 run (Session.step env) { config, conversation } es

theorem served_afterEvents (env : Environment Audio) (config : Config)
  (conversation : Conversation) (es : List (Event Audio)) :
  Served env conversation (afterEvents env config conversation es) := by
 refine run_invariant_unconditional (fun s e hs => hs.step e) ?_ es
 exact
  { folded := rfl
    completions := rfl
    ordered := List.Pairwise.nil
    answered := nodup_nil
    fresh := by simp
    known := by simp
    sources := by simp [Session.live]
    completedSources := by simp
    planned := by simp }

theorem not_completed_of_error {sent : List Message} (hnodup : (answeredCalls sent).Nodup)
  {call : ℕ} {status : ResponseStatus} {quota : Option (UInt32 × UInt32)}
  (herror : .answer call (.error status quota) ∈ sent) : call ∉ completionCalls sent := by
 induction sent with
 | nil => exact absurd herror not_mem_nil
 | cons m rest ih =>
  rw [answeredCalls_cons, nodup_append] at hnodup
  obtain ⟨-, hrest, hapart⟩ := hnodup
  have hanswered : ∀ c ∈ completionCalls rest, c ∈ answeredCalls rest := by
   intro c hc
   obtain ⟨m, hm, hcm⟩ := mem_filterMap.1 hc
   refine mem_filterMap.2 ⟨m, hm, ?_⟩
   unfold completionOf at hcm
   split at hcm
   · exact hcm
   · exact absurd hcm (by simp)
  rw [completionCalls_cons, mem_append, not_or]
  rcases mem_cons.1 herror with rfl | hlater
  · refine ⟨by simp, fun hmem => ?_⟩
    exact hapart call (by simp) call (hanswered call hmem) rfl
  · refine ⟨fun hmem => ?_, ih hrest hlater⟩
    have hm : call ∈ (answerOf m).toList := by
     cases m with
     | answer c a => cases a <;> simp_all
     | _ => simp at hmem
    exact hapart call hm call (mem_filterMap.2 ⟨_, hlater, rfl⟩) rfl

end MoltBrowser.WebAISession
