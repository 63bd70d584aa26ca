import MoltBrowser.WebAIConversationQuota

set_option autoImplicit false

/-!
# What the model is sent and what is kept

`ShapeAfter` counts the images and clips that a request sends; `Add` lets go of the others. A shape
is the one of the turns that `KeepNewestMedia` leaves, so the two agree.
-/
namespace MoltBrowser.WebAIConversation
open NewestItems
namespace Conversation

theorem newestCounts_eq {α : Type} (max : ℕ) (rows : List (List α)) :
  newestCounts max (rows.map List.length) =
   (max - (newest max rows).flatten.length, (newest max rows).map List.length) := by
 induction rows with
 | nil => rfl
 | cons row rows ih =>
  rw [List.map_cons, newestCounts, ih, newest, List.flatten_cons, List.length_append, List.map_cons, length_rtake]
  dsimp only
  rw [Nat.sub_sub, Nat.add_comm (newest max rows).flatten.length]

def mergeWhole (merged : List Merged) (t : Turn) : List Merged := mergeTurn merged t t.images t.audio

theorem mergeTurn_withMedia (merged : List Merged) (t : Turn) (images : List ModelImage) (audio : List ModelAudio) :
  mergeTurn merged t images audio = mergeWhole merged { t with images, audio } := rfl

theorem foldl_mergeTurn (turns : List Turn) (is : List (List ModelImage)) (as : List (List ModelAudio))
  (hi : List.Forall₂ (fun i t => i <:+ t.images) is turns) (ha : List.Forall₂ (fun a t => a <:+ t.audio) as turns)
  (merged : List Merged) :
  (turns.zip ((is.map List.length).zip (as.map List.length))).foldl
    (fun merged (t, images, audio) => mergeTurn merged t
     (t.images.drop (t.images.length - images)) (t.audio.drop (t.audio.length - audio))) merged =
   (withMedia turns is as).foldl mergeWhole merged := by
 induction turns generalizing is as merged with
 | nil => simp [withMedia]
 | cons t turns ih =>
  cases hi with
  | cons hkept hi =>
   cases ha with
   | cons hclips ha =>
    simp only [List.map_cons, List.zip_cons_cons, List.foldl_cons, withMedia]
    rw [← List.suffix_iff_eq_drop.1 hkept, ← List.suffix_iff_eq_drop.1 hclips, mergeTurn_withMedia, ih _ _ hi ha]

def mergedTurns (turns : List Turn) : List Merged := (keepNewestMedia turns).foldl mergeWhole []

theorem merged_sent (all : List Turn) :
  (all.zip ((newestCounts kMaxContextImages (all.map (·.images.length))).2.zip
    (newestCounts kMaxContextAudio (all.map (·.audio.length))).2)).foldl
   (fun merged (t, images, audio) => mergeTurn merged t
    (t.images.drop (t.images.length - images)) (t.audio.drop (t.audio.length - audio))) [] = mergedTurns all := by
 have himages := newestCounts_eq kMaxContextImages (all.map (·.images))
 have haudio := newestCounts_eq kMaxContextAudio (all.map (·.audio))
 rw [List.map_map] at himages haudio
 have hkept := newest_suffix kMaxContextImages (all.map (·.images))
 have hclips := newest_suffix kMaxContextAudio (all.map (·.audio))
 rw [List.forall₂_map_right_iff] at hkept hclips
 rw [mergedTurns, keepNewestMedia_eq, ← foldl_mergeTurn all _ _ hkept hclips]
 exact congrArg₂ (fun images audio => (all.zip (images.zip audio)).foldl _ [])
  (congrArg Prod.snd himages) (congrArg Prod.snd haudio)

theorem mergedTurns_kept (turns : List Turn) : mergedTurns (keepNewestMedia turns) = mergedTurns turns := by
 have hagain := keepNewestMedia_again turns []
 rw [List.append_nil, List.append_nil] at hagain
 rw [mergedTurns, hagain, mergedTurns]

def shapeOf (merged : List Merged) : Shape :=
 let (history, user) := splitUserMessage merged
 { history := history.map fun m => (m.role, m.text)
   historyImages := if history.any (!·.images.isEmpty) then history.map (·.images) else []
   userMessage := (user.map (·.text)).getD []
   userImages := (user.map (·.images)).getD []
   historyAudio := if history.any (!·.audio.isEmpty) then history.map (·.audio) else []
   userAudio := (user.map (·.audio)).getD [] }

theorem shapeAfter_eq (c : Conversation) (plan : Plan) (added : List Turn) :
  c.shapeAfter plan added = shapeOf (mergedTurns (c.turns.drop plan.evict ++ added)) := by
 rw [← drop_evict, ← merged_sent]
 rfl

/-- The shape of what the model is sent for a call is the shape of what the call leaves. -/
theorem sent_is_kept (c : Conversation) (added : List Turn) :
  c.shapeAfter (c.planAdd added) added = (c.add (c.planAdd added) added).shapeAfter {} [] := by
 rw [shapeAfter_eq, shapeAfter_eq, (add_spec c (c.planAdd added) added).1, List.drop_zero, List.append_nil,
  mergedTurns_kept]

end Conversation
end MoltBrowser.WebAIConversation
