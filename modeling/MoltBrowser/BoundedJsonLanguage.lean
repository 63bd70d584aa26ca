import MoltBrowser.JsonStrings

set_option autoImplicit false

/-!
# The language of the JSON reader

The reader accepts the JSON texts within its limits whose objects name no member twice, and gives
the value a text says.
-/
namespace MoltBrowser.BoundedJson
open Json List

/-! ## Keys met twice -/

theorem adjacent_iff {l : List Bytes} (h : l.Pairwise (· ≤ ·)) :
  (l.zip l.tail).any (fun k => k.1 == k.2) = true ↔ ¬ l.Nodup := by
 induction l with
 | nil => simp
 | cons a l ih =>
  cases l with
  | nil => simp
  | cons b l =>
   have htail := pairwise_cons.1 h
   rw [tail_cons, zip_cons_cons, any_cons, Bool.or_eq_true, beq_iff_eq, nodup_cons]
   have hrest := ih htail.2
   rw [tail_cons] at hrest
   rw [hrest]
   constructor
   · rintro (heq | hdup) ⟨hnot, hnodup⟩
     · have hab : a = b := heq
       exact hnot (hab ▸ mem_cons_self)
     · exact hdup hnodup
   · intro hnot
     by_cases heq : a = b
     · exact .inl heq
     refine .inr fun hnodup => hnot ⟨fun hmem => ?_, hnodup⟩
     rcases mem_cons.1 hmem with hab | hmem
     · exact heq hab
     · exact heq (List.le_antisymm (htail.1 b mem_cons_self) ((pairwise_cons.1 htail.2).1 a hmem))

theorem hasDuplicate_iff (keys : List Bytes) : hasDuplicate keys = true ↔ ¬ keys.Nodup := by
 have hsorted := @pairwise_mergeSort _ (fun a b : Bytes => decide (a ≤ b))
  (fun a b c hab hbc => by
   rw [decide_eq_true_eq] at hab hbc ⊢
   exact List.le_trans hab hbc)
  (fun a b => by simpa using List.le_total a b) keys
 rw [hasDuplicate, adjacent_iff (by simpa using hsorted), (mergeSort_perm keys _).nodup_iff]

/-! ## What the reader takes is JSON -/

section Sound

variable {limits : JsonLimits}

/-- The values of a form are within what the limits leave. -/
structure Fits (limits : JsonLimits) (depth values : ℕ) (f : Form) : Prop where
 values : values + f.count ≤ limits.maxValues
 deep : depth + f.depth ≤ limits.maxDepth
 distinct : f.Distinct

/-- What stands before `tail` says the form. -/
structure Takes (limits : JsonLimits) (depth : ℕ) (f : Form) (closing : Bytes) (p p' : Parser) : Prop where
 fits : Fits limits depth p.values f
 values : p'.values = p.values + f.count
 text : ∃ w after, p.rest = w ++ (after ++ (closing ++ p'.rest)) ∧ Says f w ∧ Spaces after ∧ (closing = [] → after = [])

variable {p p' : Parser}

theorem countValue_eq (h : countValue limits p = .ok p') :
  p.values + 1 ≤ limits.maxValues ∧ p' = { p with values := p.values + 1 } := by
 rw [countValue] at h
 split_ifs at h with hmany
 · exact absurd h fail_ne_ok
 · exact ⟨by omega, (Except.ok.inj h).symm⟩

theorem text_eq {read : Bytes → Read (Bytes × Bytes)} {t : Bytes} (h : p.text read = .ok (t, p')) :
  ∃ rest, read p.rest = .ok (t, rest) ∧ p' = { p with rest } := by
 simp only [Parser.text, bind_eq_ok, Prod.exists] at h
 obtain ⟨t', rest, hread, h⟩ := h
 cases h
 exact ⟨rest, hread, rfl⟩

theorem parseKey_split {k : Bytes} (h : parseKey p = .ok (k, p')) :
  p'.values = p.values ∧ ∃ key before after, p.rest = key ++ (before ++ 0x3A :: (after ++ p'.rest)) ∧ StringText key k ∧
   Spaces before ∧ Spaces after := by
 rw [parseKey] at h
 split_ifs at h with hquote
 · exact absurd h fail_ne_ok
 simp only [bind_eq_ok, Prod.exists] at h
 obtain ⟨t, q, htext, h⟩ := h
 obtain ⟨rest, hstring, rfl⟩ := text_eq htext
 split_ifs at h with hcolon
 · exact absurd h fail_ne_ok
 cases h
 obtain ⟨key, hkey, hform⟩ := parseString_split hstring (not_not.1 hquote)
 obtain ⟨before, hbefore, hb⟩ := skipWhitespace_split rest
 obtain ⟨after, hafter, ha⟩ := skipWhitespace_split (skipWhitespace rest).tail
 refine ⟨rfl, key, before, after, ?_, hform, hb, ha⟩
 have hc : skipWhitespace rest = 0x3A :: (skipWhitespace rest).tail := cons_of_peek (not_not.1 hcolon) (by decide)
 calc
  p.rest = key ++ (before ++ skipWhitespace rest) := by rw [hkey, ← hbefore]
  _ = key ++ (before ++ 0x3A :: (after ++ skipWhitespace (skipWhitespace rest).tail)) := by rw [← hafter, ← hc]

variable {depth : ℕ}

theorem Takes.array {l : List JsonValue} (hopen : p.peek = 0x5B)
  (h : Takes limits (depth + 1) (.items l) [0x5D] { rest := skipWhitespace p.rest.tail, values := p.values + 1 } p') :
  Takes limits depth (.value (.array l)) [] p p' := by
 obtain ⟨⟨hvalues, hdepth, hdistinct⟩, hcount, w, after, htext, hform, hafter, -⟩ := h
 obtain ⟨before, hbefore, hb⟩ := skipWhitespace_split p.rest.tail
 simp only [Form.count, Form.depth, Form.Distinct] at *
 refine ⟨⟨?_, ?_, hdistinct⟩, ?_, 0x5B :: (before ++ (w ++ (after ++ [0x5D]))), [], ?_, .array hform hb hafter, by simp [Spaces],
  fun _ => rfl⟩
 · simp only [Form.count, JsonValue.count]
   omega
 · simp only [Form.depth, JsonValue.depth]
   omega
 · simp only [Form.count, JsonValue.count]
   omega
 · have hc := cons_of_peek hopen (by decide)
   rw [hc, hbefore, htext]
   simp

theorem Takes.object {l : List (Bytes × JsonValue)} (hopen : p.peek = 0x7B)
  (hkeys : (l.map Prod.fst).Nodup)
  (h : Takes limits (depth + 1) (.members l) [0x7D] { rest := skipWhitespace p.rest.tail, values := p.values + 1 } p') :
  Takes limits depth (.value (.object l)) [] p p' := by
 obtain ⟨⟨hvalues, hdepth, hdistinct⟩, hcount, w, after, htext, hform, hafter, -⟩ := h
 obtain ⟨before, hbefore, hb⟩ := skipWhitespace_split p.rest.tail
 simp only [Form.count, Form.depth, Form.Distinct] at *
 refine ⟨⟨?_, ?_, hkeys, hdistinct⟩, ?_, 0x7B :: (before ++ (w ++ (after ++ [0x7D]))), [], ?_, .object hform hb hafter,
  by simp [Spaces], fun _ => rfl⟩
 · simp only [Form.count, JsonValue.count]
   omega
 · simp only [Form.depth, JsonValue.depth]
   omega
 · simp only [Form.count, JsonValue.count]
   omega
 · have hc := cons_of_peek hopen (by decide)
   rw [hc, hbefore, htext]
   simp

variable {v : JsonValue}

theorem Takes.plain {w rest : Bytes} (hdepth : depth ≤ limits.maxDepth)
  (hroom : p.values + 1 ≤ limits.maxValues) (hv : v.count = 1 ∧ v.depth = 0 ∧ v.Distinct) (hform : Says (.value v) w)
  (hw : p.rest = w ++ rest) : Takes limits depth (.value v) [] p { rest, values := p.values + 1 } := by
 obtain ⟨hcount, hd, hdistinct⟩ := hv
 refine ⟨⟨?_, ?_, hdistinct⟩, ?_, w, [], by simpa using hw, hform, by simp [Spaces], fun _ => rfl⟩
 · rw [Form.count, hcount]
   exact hroom
 · rw [Form.depth, hd]
   exact hdepth
 · rw [Form.count, hcount]

theorem takes_emptyArray (hopen : p.peek = 0x5B) (hclose : peek (skipWhitespace p.rest.tail) = 0x5D)
  (hroom : p.values + 1 ≤ limits.maxValues) (hdeep : depth + 1 ≤ limits.maxDepth) :
  Takes limits depth (.value (.array [])) [] p { rest := (skipWhitespace p.rest.tail).tail, values := p.values + 1 } := by
 obtain ⟨ws, hws, hspaces⟩ := skipWhitespace_split p.rest.tail
 refine ⟨⟨hroom, hdeep, trivial⟩, rfl, 0x5B :: (ws ++ [0x5D]), [], ?_, .emptyArray hspaces, by simp [Spaces], fun _ => rfl⟩
 have hc := cons_of_peek hopen (by decide)
 have hc' := cons_of_peek hclose (by decide)
 rw [hc]
 conv_lhs => rw [hws, hc']
 simp

theorem takes_emptyObject (hopen : p.peek = 0x7B) (hclose : peek (skipWhitespace p.rest.tail) = 0x7D)
  (hroom : p.values + 1 ≤ limits.maxValues) (hdeep : depth + 1 ≤ limits.maxDepth) :
  Takes limits depth (.value (.object [])) [] p { rest := (skipWhitespace p.rest.tail).tail, values := p.values + 1 } := by
 obtain ⟨ws, hws, hspaces⟩ := skipWhitespace_split p.rest.tail
 refine ⟨⟨hroom, hdeep, nodup_nil, trivial⟩, rfl, 0x7B :: (ws ++ [0x7D]), [], ?_, .emptyObject hspaces, by simp [Spaces],
  fun _ => rfl⟩
 have hc := cons_of_peek hopen (by decide)
 have hc' := cons_of_peek hclose (by decide)
 rw [hc]
 conv_lhs => rw [hws, hc']
 simp

theorem literal_split {word : Bytes} {v' : JsonValue} (h : p.literal word v = .ok (v', p')) :
  v' = v ∧ ∃ rest, p.rest = word ++ rest ∧ p' = { p with rest } := by
 simp only [Parser.literal, bind_eq_ok] at h
 obtain ⟨rest, hliteral, h⟩ := h
 cases h
 exact ⟨rfl, rest, literal_eq.1 hliteral, rfl⟩

/-- What each call takes, with the calls it makes in turn. -/
structure Sound (limits : JsonLimits) (fuel : ℕ) : Prop where
 value : ∀ {depth p v p'}, depth ≤ limits.maxDepth → parseValue limits fuel depth p = .ok (v, p') →
  Takes limits depth (.value v) [] p p'
 object : ∀ {depth p v p'}, p.peek = 0x7B → p.values + 1 ≤ limits.maxValues →
  parseObject limits fuel (depth + 1) { p with values := p.values + 1 } = .ok (v, p') → Takes limits depth (.value v) [] p p'
 members : ∀ {depth p l p'}, depth ≤ limits.maxDepth → parseMembers limits fuel depth p = .ok (l, p') →
  Takes limits depth (.members l) [0x7D] p p'
 array : ∀ {depth p v p'}, p.peek = 0x5B → p.values + 1 ≤ limits.maxValues →
  parseArray limits fuel (depth + 1) { p with values := p.values + 1 } = .ok (v, p') → Takes limits depth (.value v) [] p p'
 items : ∀ {depth p l p'}, depth ≤ limits.maxDepth → parseItems limits fuel depth p = .ok (l, p') →
  Takes limits depth (.items l) [0x5D] p p'

variable {fuel : ℕ}

theorem Sound.value_succ (ih : Sound limits fuel)
  (hdepth : depth ≤ limits.maxDepth) (h : parseValue limits (fuel + 1) depth p = .ok (v, p')) :
  Takes limits depth (.value v) [] p p' := by
 rw [parseValue, bind_eq_ok] at h
 obtain ⟨q, hq, h⟩ := h
 obtain ⟨hroom, rfl⟩ := countValue_eq hq
 split_ifs at h with hobject harray hstring htrue hfalse hnull
 · exact ih.object hobject hroom h
 · exact ih.array harray hroom h
 · simp only [bind_eq_ok, Prod.exists] at h
   obtain ⟨t, q, htext, h⟩ := h
   obtain ⟨rest, hread, rfl⟩ := text_eq htext
   obtain ⟨w, hw, hform⟩ := parseString_split hread hstring
   cases h
   exact .plain hdepth hroom ⟨rfl, rfl, trivial⟩ (.string hform) hw
 · obtain ⟨rfl, rest, hw, rfl⟩ := literal_split h
   exact .plain hdepth hroom ⟨rfl, rfl, trivial⟩ .true hw
 · obtain ⟨rfl, rest, hw, rfl⟩ := literal_split h
   exact .plain hdepth hroom ⟨rfl, rfl, trivial⟩ .false hw
 · obtain ⟨rfl, rest, hw, rfl⟩ := literal_split h
   exact .plain hdepth hroom ⟨rfl, rfl, trivial⟩ .null hw
 · simp only [bind_eq_ok, Prod.exists] at h
   obtain ⟨t, q, htext, h⟩ := h
   obtain ⟨rest, hread, rfl⟩ := text_eq htext
   obtain ⟨hw, hnumber⟩ := parseNumber_split hread
   cases h
   exact .plain hdepth hroom ⟨rfl, rfl, trivial⟩ (.number hnumber) hw

theorem Sound.object_succ (ih : Sound limits fuel) (hopen : p.peek = 0x7B)
  (hroom : p.values + 1 ≤ limits.maxValues)
  (h : parseObject limits (fuel + 1) (depth + 1) { p with values := p.values + 1 } = .ok (v, p')) :
  Takes limits depth (.value v) [] p p' := by
 rw [parseObject] at h
 dsimp only at h
 split_ifs at h with hdeep hclose
 · exact absurd h fail_ne_ok
 · cases h
   exact takes_emptyObject hopen hclose hroom (Nat.le_of_not_lt hdeep)
 · simp only [bind_eq_ok, Prod.exists] at h
   obtain ⟨l, q, hmembers, h⟩ := h
   split_ifs at h with hdup
   · exact absurd h fail_ne_ok
   cases h
   rw [hasDuplicate_iff, not_not] at hdup
   exact .object hopen hdup (ih.members (Nat.le_of_not_lt hdeep) hmembers)

theorem Sound.array_succ (ih : Sound limits fuel) (hopen : p.peek = 0x5B)
  (hroom : p.values + 1 ≤ limits.maxValues)
  (h : parseArray limits (fuel + 1) (depth + 1) { p with values := p.values + 1 } = .ok (v, p')) :
  Takes limits depth (.value v) [] p p' := by
 rw [parseArray] at h
 dsimp only at h
 split_ifs at h with hdeep hclose
 · exact absurd h fail_ne_ok
 · cases h
   exact takes_emptyArray hopen hclose hroom (Nat.le_of_not_lt hdeep)
 · simp only [bind_eq_ok, Prod.exists] at h
   obtain ⟨l, q, hitems, h⟩ := h
   cases h
   exact .array hopen (ih.items (Nat.le_of_not_lt hdeep) hitems)

theorem Sound.items_succ {l : List JsonValue} (ih : Sound limits fuel)
  (hdepth : depth ≤ limits.maxDepth) (h : parseItems limits (fuel + 1) depth p = .ok (l, p')) :
  Takes limits depth (.items l) [0x5D] p p' := by
 rw [parseItems] at h
 simp only [bind_eq_ok, Prod.exists] at h
 obtain ⟨v, q, hvalue, h⟩ := h
 obtain ⟨⟨hroom, hdeep, hdistinct⟩, hcount, w, after, htext, hform, -, hnone⟩ := ih.value hdepth hvalue
 rw [hnone rfl, nil_append, nil_append] at htext
 obtain ⟨ws, hws, hspaces⟩ := skipWhitespace_split q.rest
 simp only [Form.count, Form.depth, Form.Distinct] at hroom hdeep hdistinct hcount
 split_ifs at h with hcomma hclose
 · simp only [bind_eq_ok, Prod.exists] at h
   obtain ⟨l', q', hitems, h⟩ := h
   cases h
   obtain ⟨⟨hroom', hdeep', hdistinct'⟩, hcount', w', after', htext', hform', hafter, -⟩ := ih.items hdepth hitems
   obtain ⟨ws', hws', hspaces'⟩ := skipWhitespace_split (skipWhitespace q.rest).tail
   have hc := cons_of_peek hcomma (by decide)
   simp only [Form.count, Form.depth, Form.Distinct] at hroom' hdeep' hdistinct' hcount'
   simp only [Parser.skipWhitespace, Parser.advance] at hroom' hcount' htext' hc
   refine ⟨⟨?_, ?_, hdistinct, hdistinct'⟩, ?_, w ++ (ws ++ 0x2C :: (ws' ++ w')), after', ?_,
    .items hform hform' hspaces hspaces', hafter, by simp⟩
   · simp only [Form.count, itemsCount]
     omega
   · simp only [Form.depth, itemsDepth]
     omega
   · simp only [Form.count, itemsCount]
     omega
   · rw [htext, hws, hc, hws', htext']
     simp
 · exact absurd h fail_ne_ok
 · cases h
   have hc := cons_of_peek (not_not.1 hclose) (by decide)
   simp only [Parser.skipWhitespace] at hc
   refine ⟨⟨?_, ?_, hdistinct, trivial⟩, ?_, w, ws, ?_, .item hform, hspaces, by simp⟩
   · simp only [Form.count, itemsCount]
     omega
   · simp only [Form.depth, itemsDepth]
     omega
   · simp only [Form.count, itemsCount, Parser.advance, Parser.skipWhitespace]
     omega
   · rw [htext, hws, hc]
     simp [Parser.advance, Parser.skipWhitespace]

theorem Sound.members_succ {l : List (Bytes × JsonValue)} (ih : Sound limits fuel)
  (hdepth : depth ≤ limits.maxDepth) (h : parseMembers limits (fuel + 1) depth p = .ok (l, p')) :
  Takes limits depth (.members l) [0x7D] p p' := by
 rw [parseMembers] at h
 simp only [bind_eq_ok, Prod.exists] at h
 obtain ⟨k, o, hkey, v, q, hvalue, h⟩ := h
 obtain ⟨ho, key, before, after₀, hkeyText, hk, hbefore, hafter₀⟩ := parseKey_split hkey
 obtain ⟨⟨hroom, hdeep, hdistinct⟩, hcount, w, after, htext, hform, -, hnone⟩ := ih.value hdepth hvalue
 rw [hnone rfl, nil_append, nil_append] at htext
 obtain ⟨ws, hws, hspaces⟩ := skipWhitespace_split q.rest
 simp only [Form.count, Form.depth, Form.Distinct] at hroom hdeep hdistinct hcount
 split_ifs at h with hcomma hclose
 · simp only [bind_eq_ok, Prod.exists] at h
   obtain ⟨l', q', hmembers, h⟩ := h
   cases h
   obtain ⟨⟨hroom', hdeep', hdistinct'⟩, hcount', w', after', htext', hform', hafter, -⟩ := ih.members hdepth hmembers
   obtain ⟨ws', hws', hspaces'⟩ := skipWhitespace_split (skipWhitespace q.rest).tail
   have hc := cons_of_peek hcomma (by decide)
   simp only [Form.count, Form.depth, Form.Distinct] at hroom' hdeep' hdistinct' hcount'
   simp only [Parser.skipWhitespace, Parser.advance] at hroom' hcount' htext' hc
   refine ⟨⟨?_, ?_, hdistinct, hdistinct'⟩, ?_,
    key ++ (before ++ 0x3A :: (after₀ ++ (w ++ (ws ++ 0x2C :: (ws' ++ w'))))), after', ?_,
    .members hk hform hform' hbefore hafter₀ hspaces hspaces', hafter, by simp⟩
   · simp only [Form.count, membersCount]
     omega
   · simp only [Form.depth, membersDepth]
     omega
   · simp only [Form.count, membersCount]
     omega
   · rw [hkeyText, htext, hws, hc, hws', htext']
     simp
 · exact absurd h fail_ne_ok
 · cases h
   have hc := cons_of_peek (not_not.1 hclose) (by decide)
   simp only [Parser.skipWhitespace] at hc
   refine ⟨⟨?_, ?_, hdistinct, trivial⟩, ?_, key ++ (before ++ 0x3A :: (after₀ ++ w)), ws, ?_,
    .member hk hform hbefore hafter₀, hspaces, by simp⟩
   · simp only [Form.count, membersCount]
     omega
   · simp only [Form.depth, membersDepth]
     omega
   · simp only [Form.count, membersCount, Parser.advance, Parser.skipWhitespace]
     omega
   · rw [hkeyText, htext, hws, hc]
     simp [Parser.advance, Parser.skipWhitespace]

theorem sound (limits : JsonLimits) (fuel : ℕ) : Sound limits fuel := by
 induction fuel with
 | zero =>
  refine ⟨fun _ h => ?_, fun _ _ h => ?_, fun _ h => ?_, fun _ _ h => ?_, fun _ h => ?_⟩
  · exact absurd ((parseValue.eq_1 ..).symm.trans h) fail_ne_ok
  · exact absurd ((parseObject.eq_1 ..).symm.trans h) fail_ne_ok
  · exact absurd ((parseMembers.eq_1 ..).symm.trans h) fail_ne_ok
  · exact absurd ((parseArray.eq_1 ..).symm.trans h) fail_ne_ok
  · exact absurd ((parseItems.eq_1 ..).symm.trans h) fail_ne_ok
 | succ fuel ih => exact ⟨ih.value_succ, ih.object_succ, ih.members_succ, ih.array_succ, ih.items_succ⟩

theorem parseJson_sound {s : Bytes} (h : parseJson s limits = .ok v) :
  IsText s v ∧ v.Distinct ∧ s.length ≤ limits.maxBytes ∧ v.depth ≤ limits.maxDepth ∧ v.count ≤ limits.maxValues := by
 rw [parseJson] at h
 split_ifs at h with hlarge
 · exact absurd h fail_ne_ok
 simp only [bind_eq_ok, Prod.exists] at h
 obtain ⟨v', p, hvalue, h⟩ := h
 split_ifs at h with hend
 · cases h
   obtain ⟨⟨hroom, hdeep, hdistinct⟩, -, w, after, htext, hform, -, hnone⟩ := (sound limits _).value (Nat.zero_le _) hvalue
   rw [hnone rfl, nil_append, nil_append] at htext
   obtain ⟨before, hbefore, hb⟩ := skipWhitespace_split s
   obtain ⟨after', hafter', ha⟩ := skipWhitespace_split p.rest
   rw [List.isEmpty_iff.1 hend, append_nil] at hafter'
   simp only [Form.count, Form.depth, Form.Distinct, Nat.zero_add] at hroom hdeep hdistinct htext
   refine ⟨⟨before, w, after', ?_, hb, ha, hform⟩, hdistinct, Nat.le_of_not_lt hlarge, hdeep, hroom⟩
   rw [← hafter', ← htext, ← hbefore]
 · exact absurd h fail_ne_ok

end Sound

/-! ## JSON within the limits is taken -/

section Complete

variable {limits : JsonLimits}

/-- What the reader does with a text that says the form, where more follows that can't belong to it. -/
def Taken (limits : JsonLimits) : Form → Bytes → Prop
 | .value v, w => ∀ {fuel depth values rest}, EndsNumber (peek rest) → 3 * w.length + 1 ≤ fuel →
   Fits limits depth values (.value v) →
   parseValue limits fuel depth ⟨w ++ rest, values⟩ = .ok (v, ⟨rest, values + v.count⟩)
 | .items l, w => ∀ {fuel depth values after rest}, Spaces after → 3 * w.length + 2 ≤ fuel →
   Fits limits depth values (.items l) →
   parseItems limits fuel depth ⟨w ++ (after ++ 0x5D :: rest), values⟩ = .ok (l, ⟨rest, values + itemsCount l⟩)
 | .members l, w => ∀ {fuel depth values after rest}, Spaces after → 3 * w.length + 2 ≤ fuel →
   Fits limits depth values (.members l) →
   parseMembers limits fuel depth ⟨w ++ (after ++ 0x7D :: rest), values⟩ = .ok (l, ⟨rest, values + membersCount l⟩)

variable {c : UInt8}

theorem endsNumber_space (h : IsSpace c) : EndsNumber c := by
 rcases h with rfl | rfl | rfl | rfl
 all_goals exact ⟨by decide, by decide, by decide, by decide⟩

variable {ws s : Bytes}

theorem endsNumber_after (hws : Spaces ws) (hc : EndsNumber c) :
  EndsNumber (peek (ws ++ c :: s)) := by
 cases ws with
 | nil => exact hc
 | cons c ws => exact endsNumber_space (hws c mem_cons_self)

variable {values : ℕ}

theorem skip_append (hws : Spaces ws) (hc : ¬ IsSpace c) :
  Parser.skipWhitespace ⟨ws ++ c :: s, values⟩ = ⟨c :: s, values⟩ := by
 rw [Parser.skipWhitespace, skipWhitespace_append hws (show ¬ IsSpace (peek (c :: s)) from hc)]

variable {w : Bytes}

theorem number_head (h : IsNumber w) : ∃ c w', w = c :: w' ∧ (c = 0x2D ∨ isDigit c = true) := by
 obtain ⟨sign, int, frac, exp, rfl, hsign, hint, -, -⟩ := h
 rcases hsign with rfl | rfl
 · rcases hint with rfl | ⟨d, ds, rfl, hd, -⟩
   · exact ⟨_, _, rfl, .inr (by decide)⟩
   · refine ⟨_, _, rfl, .inr ?_⟩
     rw [isDigit, Bool.and_eq_true, decide_eq_true_eq, decide_eq_true_eq]
     exact ⟨UInt8.le_trans (by decide : (0x30 : UInt8) ≤ 0x31) hd.1, hd.2⟩
 · exact ⟨_, _, rfl, .inl rfl⟩

theorem number_byte (h : c = 0x2D ∨ isDigit c = true) : (¬ IsSpace c ∧ c ≠ 0x5D) ∧ c ≠ 0x7B ∧ c ≠ 0x5B ∧
  c ≠ 0x22 ∧ c ≠ 0x74 ∧ c ≠ 0x66 ∧ c ≠ 0x6E := by
 have hall : ∀ n < 256, (UInt8.ofNat n = 0x2D ∨ isDigit (UInt8.ofNat n) = true) → (¬ IsSpace (UInt8.ofNat n) ∧
   UInt8.ofNat n ≠ 0x5D) ∧ UInt8.ofNat n ≠ 0x7B ∧ UInt8.ofNat n ≠ 0x5B ∧ UInt8.ofNat n ≠ 0x22 ∧ UInt8.ofNat n ≠ 0x74 ∧
   UInt8.ofNat n ≠ 0x66 ∧ UInt8.ofNat n ≠ 0x6E := by decide +kernel
 have hc := hall c.toNat c.toNat_lt
 rw [UInt8.ofNat_toNat] at hc
 exact hc h

theorem word_head : (∃ w, utf8 "null" = 0x6E :: w) ∧ (∃ w, utf8 "true" = 0x74 :: w) ∧ ∃ w, utf8 "false" = 0x66 :: w :=
 ⟨⟨[0x75, 0x6C, 0x6C], by decide⟩, ⟨[0x72, 0x75, 0x65], by decide⟩,
  ⟨[0x61, 0x6C, 0x73, 0x65], by decide⟩⟩

variable {v : JsonValue}

theorem value_head (h : Says (.value v) w) : ∃ c w', w = c :: w' ∧ ¬ IsSpace c ∧ c ≠ 0x5D := by
 obtain ⟨⟨n, hnull⟩, ⟨t, htrue⟩, f, hfalse⟩ := word_head
 cases h with
 | null => exact ⟨_, _, hnull, by decide, by decide⟩
 | true => exact ⟨_, _, htrue, by decide, by decide⟩
 | false => exact ⟨_, _, hfalse, by decide, by decide⟩
 | number h =>
  obtain ⟨c, w', hw, hc⟩ := number_head h
  exact ⟨c, w', hw, (number_byte hc).1⟩
 | string h =>
  obtain ⟨body, cs, rfl, -, -⟩ := h
  exact ⟨_, _, rfl, by decide, by decide⟩
 | emptyArray | array | emptyObject | object => exact ⟨_, _, rfl, by decide, by decide⟩

variable {key k : Bytes}

theorem key_head (h : StringText key k) : ∃ w, key = 0x22 :: w := by
 obtain ⟨body, cs, rfl, -, -⟩ := h
 exact ⟨_, rfl⟩

theorem items_head {l : List JsonValue} (h : Says (.items l) w) : ∃ c w', w = c :: w' ∧ ¬ IsSpace c ∧ c ≠ 0x5D := by
 cases h with
 | item h => exact value_head h
 | items h =>
  obtain ⟨c, w', rfl, hc⟩ := value_head h
  exact ⟨c, _, rfl, hc⟩

variable {l : List (Bytes × JsonValue)}

theorem members_head (h : Says (.members l) w) : ∃ w', w = 0x22 :: w' := by
 cases h with
 | member hk =>
  obtain ⟨w', rfl⟩ := key_head hk
  exact ⟨_, rfl⟩
 | members hk =>
  obtain ⟨w', rfl⟩ := key_head hk
  exact ⟨_, rfl⟩

/-! ### One call -/

theorem countValue_room (hroom : values + 1 ≤ limits.maxValues) :
  countValue limits ⟨s, values⟩ = .ok ⟨s, values + 1⟩ := by
 rw [countValue, if_neg (Nat.not_lt.2 hroom)]

theorem taken_word {word : Bytes} (hv : v.count = 1)
  (hcall : ∀ {fuel depth values s}, values + 1 ≤ limits.maxValues →
   parseValue limits (fuel + 1) depth ⟨word ++ s, values⟩ = Parser.literal ⟨word ++ s, values + 1⟩ word v) :
  Taken limits (.value v) word := by
 intro fuel depth values rest _ hfuel hfits
 obtain ⟨fuel, rfl⟩ := Nat.exists_eq_succ_of_ne_zero (show fuel ≠ 0 by omega)
 have hroom := hfits.values
 rw [Form.count, hv] at hroom
 rw [hcall hroom, Parser.literal, literal_eq.2 rfl, bind_ok, hv]

theorem taken_null : Taken limits (.value .null) (utf8 "null") := by
 obtain ⟨⟨w, hw⟩, -, -⟩ := word_head
 refine taken_word rfl fun hroom => ?_
 rw [parseValue, countValue_room hroom, bind_ok, hw]
 rfl

theorem taken_true : Taken limits (.value (.bool true)) (utf8 "true") := by
 obtain ⟨-, ⟨w, hw⟩, -⟩ := word_head
 refine taken_word rfl fun hroom => ?_
 rw [parseValue, countValue_room hroom, bind_ok, hw]
 rfl

theorem taken_false : Taken limits (.value (.bool false)) (utf8 "false") := by
 obtain ⟨-, -, w, hw⟩ := word_head
 refine taken_word rfl fun hroom => ?_
 rw [parseValue, countValue_room hroom, bind_ok, hw]
 rfl

theorem taken_number (h : IsNumber w) : Taken limits (.value (.number w)) w := by
 intro fuel depth values rest hrest hfuel hfits
 obtain ⟨fuel, rfl⟩ := Nat.exists_eq_succ_of_ne_zero (show fuel ≠ 0 by omega)
 obtain ⟨c, w', rfl, hc⟩ := number_head h
 obtain ⟨-, h1, h2, h3, h4, h5, h6⟩ := number_byte hc
 rw [parseValue, countValue_room hfits.values, bind_ok]
 simp only [Parser.peek, cons_append, peek_cons, h1, h2, h3, h4, h5, h6, if_false, Parser.text]
 rw [← cons_append, parseNumber_append h hrest]
 rfl

theorem taken_string {t : Bytes} (h : StringText w t) : Taken limits (.value (.string t)) w := by
 intro fuel depth values rest hrest hfuel hfits
 obtain ⟨fuel, rfl⟩ := Nat.exists_eq_succ_of_ne_zero (show fuel ≠ 0 by omega)
 obtain ⟨hpeek, hstring⟩ := parseString_append h rest
 rw [parseValue, countValue_room hfits.values, bind_ok]
 simp only [Parser.peek, hpeek, Parser.text, hstring]
 rfl

/-! ### Containers -/

variable {depth : ℕ}

theorem Fits.room (h : Fits limits depth values (.value v)) : values + 1 ≤ limits.maxValues := by
 have hvalues := h.values
 have hpos : 1 ≤ v.count := by
  cases v with
  | array l => simp [JsonValue.count]
  | object l => simp [JsonValue.count]
  | _ => exact le_refl _
 rw [Form.count] at hvalues
 omega

theorem parseValue_array {fuel : ℕ} (hroom : values + 1 ≤ limits.maxValues) :
  parseValue limits (fuel + 1) depth ⟨0x5B :: s, values⟩ = parseArray limits fuel (depth + 1) ⟨0x5B :: s, values + 1⟩ := by
 rw [parseValue, countValue_room hroom, bind_ok]
 rfl

theorem parseValue_object {fuel : ℕ} (hroom : values + 1 ≤ limits.maxValues) :
  parseValue limits (fuel + 1) depth ⟨0x7B :: s, values⟩ = parseObject limits fuel (depth + 1) ⟨0x7B :: s, values + 1⟩ := by
 rw [parseValue, countValue_room hroom, bind_ok]
 rfl

theorem taken_emptyArray (hws : Spaces ws) : Taken limits (.value (.array [])) (0x5B :: (ws ++ [0x5D])) := by
 intro fuel depth values rest _ hfuel hfits
 simp only [length_cons, length_append] at hfuel
 obtain ⟨fuel, rfl⟩ := Nat.exists_eq_add_of_le' (show 2 ≤ fuel by omega)
 have hdeep : depth + 1 ≤ limits.maxDepth := hfits.deep
 rw [cons_append, parseValue_array hfits.room, parseArray, if_neg (Nat.not_lt.2 hdeep)]
 dsimp only
 rw [Parser.advance, tail_cons, append_assoc, singleton_append, skip_append (c := 0x5D) hws (by decide)]
 rfl

theorem taken_emptyObject (hws : Spaces ws) : Taken limits (.value (.object [])) (0x7B :: (ws ++ [0x7D])) := by
 intro fuel depth values rest _ hfuel hfits
 simp only [length_cons, length_append] at hfuel
 obtain ⟨fuel, rfl⟩ := Nat.exists_eq_add_of_le' (show 2 ≤ fuel by omega)
 have hdeep : depth + 1 ≤ limits.maxDepth := hfits.deep
 rw [cons_append, parseValue_object hfits.room, parseObject, if_neg (Nat.not_lt.2 hdeep)]
 dsimp only
 rw [Parser.advance, tail_cons, append_assoc, singleton_append, skip_append (c := 0x7D) hws (by decide)]
 rfl

variable {before : Bytes}

theorem taken_array {l : List JsonValue} {after : Bytes} (hform : Says (.items l) w) (hb : Spaces before)
  (ha : Spaces after) (ih : Taken limits (.items l) w) :
  Taken limits (.value (.array l)) (0x5B :: (before ++ (w ++ (after ++ [0x5D])))) := by
 intro fuel depth values rest _ hfuel hfits
 simp only [length_cons, length_append, length_nil] at hfuel
 obtain ⟨fuel, rfl⟩ := Nat.exists_eq_add_of_le' (show 2 ≤ fuel by omega)
 obtain ⟨hvalues, hdeep, hdistinct⟩ := id hfits
 simp only [Form.count, Form.depth, Form.Distinct, JsonValue.count, JsonValue.depth, JsonValue.Distinct] at hvalues hdeep hdistinct
 obtain ⟨c, w', rfl, hspace, hclose⟩ := items_head hform
 have hread := @ih fuel (depth + 1) (values + 1) after rest ha (by omega)
  ⟨by simp only [Form.count]; omega, by simp only [Form.depth]; omega, hdistinct⟩
 rw [cons_append, parseValue_array hfits.room, parseArray, if_neg (by omega)]
 dsimp only
 simp only [Parser.advance, tail_cons, append_assoc, cons_append, nil_append] at hread ⊢
 rw [skip_append hb hspace]
 simp only [Parser.peek, peek_cons, hclose, if_false]
 rw [hread, bind_ok, JsonValue.count, show values + 1 + itemsCount l = values + (itemsCount l + 1) by omega]

theorem taken_object {after : Bytes} (hform : Says (.members l) w) (hb : Spaces before)
  (ha : Spaces after) (ih : Taken limits (.members l) w) :
  Taken limits (.value (.object l)) (0x7B :: (before ++ (w ++ (after ++ [0x7D])))) := by
 intro fuel depth values rest _ hfuel hfits
 simp only [length_cons, length_append, length_nil] at hfuel
 obtain ⟨fuel, rfl⟩ := Nat.exists_eq_add_of_le' (show 2 ≤ fuel by omega)
 obtain ⟨hvalues, hdeep, hdistinct⟩ := id hfits
 simp only [Form.count, Form.depth, Form.Distinct, JsonValue.count, JsonValue.depth, JsonValue.Distinct] at hvalues hdeep hdistinct
 obtain ⟨w', rfl⟩ := members_head hform
 have hread := @ih fuel (depth + 1) (values + 1) after rest ha (by omega)
  ⟨by simp only [Form.count]; omega, by simp only [Form.depth]; omega, hdistinct.2⟩
 have hnodup : hasDuplicate (l.map Prod.fst) = false := by
  rw [Bool.eq_false_iff, ne_eq, hasDuplicate_iff, not_not]
  exact hdistinct.1
 rw [cons_append, parseValue_object hfits.room, parseObject, if_neg (by omega)]
 dsimp only
 simp only [Parser.advance, tail_cons, append_assoc, cons_append, nil_append] at hread ⊢
 rw [skip_append (c := 0x22) hb (by decide)]
 simp only [Parser.peek, peek_cons, show ¬ (0x22 : UInt8) = 0x7D by decide, if_false]
 rw [hread, bind_ok, JsonValue.count, show values + 1 + membersCount l = values + (membersCount l + 1) by omega]
 dsimp only
 rw [hnodup, if_neg (by simp)]

/-! ### The values of a container -/

theorem taken_item (ih : Taken limits (.value v) w) : Taken limits (.items [v]) w := by
 intro fuel depth values after rest ha hfuel hfits
 obtain ⟨fuel, rfl⟩ := Nat.exists_eq_succ_of_ne_zero (show fuel ≠ 0 by omega)
 obtain ⟨hvalues, hdeep, hdistinct⟩ := hfits
 simp only [Form.count, Form.depth, Form.Distinct, itemsCount, itemsDepth, ItemsDistinct] at hvalues hdeep hdistinct
 have hends : EndsNumber (peek (after ++ 0x5D :: rest)) := endsNumber_after ha (by decide)
 have hread := @ih fuel depth values _ hends (by omega) ⟨hvalues, by simpa [Form.depth] using hdeep, hdistinct.1⟩
 rw [parseItems, hread, bind_ok]
 dsimp only
 rw [skip_append (c := 0x5D) ha (by decide)]
 rfl

theorem taken_items {l : List JsonValue} {rest after : Bytes} (hform : Says (.items l) rest)
  (hb : Spaces before) (ha : Spaces after) (ih : Taken limits (.value v) w) (ihl : Taken limits (.items l) rest) :
  Taken limits (.items (v :: l)) (w ++ (before ++ 0x2C :: (after ++ rest))) := by
 intro fuel depth values after' rest' ha' hfuel hfits
 simp only [length_cons, length_append] at hfuel
 obtain ⟨fuel, rfl⟩ := Nat.exists_eq_succ_of_ne_zero (show fuel ≠ 0 by omega)
 obtain ⟨hvalues, hdeep, hdistinct⟩ := hfits
 simp only [Form.count, Form.depth, Form.Distinct, itemsCount, itemsDepth, ItemsDistinct] at hvalues hdeep hdistinct
 have hends : EndsNumber (peek (before ++ 0x2C :: (after ++ (rest ++ (after' ++ 0x5D :: rest'))))) :=
  endsNumber_after hb (by decide)
 have hread := @ih fuel depth values _ hends (by omega)
  ⟨by simp only [Form.count]; omega, by simp only [Form.depth]; omega, hdistinct.1⟩
 have hmore := @ihl fuel depth (values + v.count) after' rest' ha' (by omega)
  ⟨by simp only [Form.count]; omega, by simp only [Form.depth]; omega, hdistinct.2⟩
 obtain ⟨c, w', rfl, hspace, -⟩ := items_head hform
 simp only [append_assoc, cons_append] at hread hmore ⊢
 rw [parseItems, hread, bind_ok]
 dsimp only
 rw [skip_append (c := 0x2C) hb (by decide)]
 simp only [Parser.peek, peek_cons, if_true, Parser.advance, tail_cons]
 rw [skip_append ha hspace, hmore, bind_ok, itemsCount, Nat.add_assoc]

theorem parseKey_append {after : Bytes} (hk : StringText key k) (hb : Spaces before)
  (ha : Spaces after) (hc : ¬ IsSpace c) :
  parseKey ⟨key ++ (before ++ 0x3A :: (after ++ c :: s)), values⟩ = .ok (k, ⟨c :: s, values⟩) := by
 obtain ⟨hpeek, hstring⟩ := parseString_append hk (before ++ 0x3A :: (after ++ c :: s))
 rw [parseKey, Parser.peek, hpeek, if_neg (by simp), Parser.text, hstring, bind_ok, bind_ok]
 dsimp only
 rw [skip_append (c := 0x3A) hb (by decide), Parser.peek, peek_cons, if_neg (by simp), Parser.advance, tail_cons,
  skip_append ha hc]

theorem taken_member {after : Bytes} (hk : StringText key k) (hform : Says (.value v) w)
  (hb : Spaces before) (ha : Spaces after) (ih : Taken limits (.value v) w) :
  Taken limits (.members [(k, v)]) (key ++ (before ++ 0x3A :: (after ++ w))) := by
 intro fuel depth values after' rest ha' hfuel hfits
 simp only [length_cons, length_append] at hfuel
 obtain ⟨fuel, rfl⟩ := Nat.exists_eq_succ_of_ne_zero (show fuel ≠ 0 by omega)
 obtain ⟨hvalues, hdeep, hdistinct⟩ := hfits
 simp only [Form.count, Form.depth, Form.Distinct, membersCount, membersDepth, MembersDistinct] at hvalues hdeep hdistinct
 have hends : EndsNumber (peek (after' ++ 0x7D :: rest)) := endsNumber_after ha' (by decide)
 have hread := @ih fuel depth values _ hends (by omega) ⟨hvalues, by simpa [Form.depth] using hdeep, hdistinct.1⟩
 obtain ⟨c, w', rfl, hspace, -⟩ := value_head hform
 simp only [append_assoc, cons_append] at hread ⊢
 rw [parseMembers, parseKey_append hk hb ha hspace, bind_ok]
 dsimp only
 rw [hread, bind_ok]
 dsimp only
 rw [skip_append (c := 0x7D) ha' (by decide)]
 rfl

theorem taken_members {after rest before' after' : Bytes}
  (hk : StringText key k) (hform : Says (.value v) w) (hl : Says (.members l) rest) (hb : Spaces before)
  (ha : Spaces after) (hb' : Spaces before') (ha' : Spaces after') (ih : Taken limits (.value v) w)
  (ihl : Taken limits (.members l) rest) :
  Taken limits (.members ((k, v) :: l)) (key ++ (before ++ 0x3A :: (after ++ (w ++ (before' ++ 0x2C :: (after' ++ rest)))))) := by
 intro fuel depth values end' rest' hend hfuel hfits
 simp only [length_cons, length_append] at hfuel
 obtain ⟨fuel, rfl⟩ := Nat.exists_eq_succ_of_ne_zero (show fuel ≠ 0 by omega)
 obtain ⟨hvalues, hdeep, hdistinct⟩ := hfits
 simp only [Form.count, Form.depth, Form.Distinct, membersCount, membersDepth, MembersDistinct] at hvalues hdeep hdistinct
 have hends : EndsNumber (peek (before' ++ 0x2C :: (after' ++ (rest ++ (end' ++ 0x7D :: rest'))))) :=
  endsNumber_after hb' (by decide)
 have hread := @ih fuel depth values _ hends (by omega)
  ⟨by simp only [Form.count]; omega, by simp only [Form.depth]; omega, hdistinct.1⟩
 have hmore := @ihl fuel depth (values + v.count) end' rest' hend (by omega)
  ⟨by simp only [Form.count]; omega, by simp only [Form.depth]; omega, hdistinct.2⟩
 obtain ⟨c, w', rfl, hspace, -⟩ := value_head hform
 obtain ⟨r, rfl⟩ := members_head hl
 simp only [append_assoc, cons_append] at hread hmore ⊢
 rw [parseMembers, parseKey_append hk hb ha hspace, bind_ok]
 dsimp only
 rw [hread, bind_ok]
 dsimp only
 rw [skip_append (c := 0x2C) hb' (by decide)]
 simp only [Parser.peek, peek_cons, if_true, Parser.advance, tail_cons]
 rw [skip_append (c := 0x22) ha' (by decide), hmore, bind_ok, membersCount, Nat.add_assoc]

theorem taken {f : Form} {w : Bytes} (h : Says f w) : Taken limits f w := by
 induction h with
 | null => exact taken_null
 | true => exact taken_true
 | false => exact taken_false
 | number h => exact taken_number h
 | string h => exact taken_string h
 | emptyArray hws => exact taken_emptyArray hws
 | array h hb ha ih => exact taken_array h hb ha ih
 | item _ ih => exact taken_item ih
 | items _ hl hb ha ih ihl => exact taken_items hl hb ha ih ihl
 | emptyObject hws => exact taken_emptyObject hws
 | object h hb ha ih => exact taken_object h hb ha ih
 | member hk h hb ha ih => exact taken_member hk h hb ha ih
 | members hk h hl hb ha hb' ha' ih ihl => exact taken_members hk h hl hb ha hb' ha' ih ihl

theorem parseJson_complete (h : IsText s v) (hdistinct : v.Distinct)
  (hbytes : s.length ≤ limits.maxBytes) (hdepth : v.depth ≤ limits.maxDepth) (hvalues : v.count ≤ limits.maxValues) :
  parseJson s limits = .ok v := by
 obtain ⟨before, w, after, rfl, hb, ha, hform⟩ := h
 have hends : EndsNumber (peek after) := by
  cases after with
  | nil => decide
  | cons c after => exact endsNumber_space (ha c mem_cons_self)
 have hskip : skipWhitespace after = [] := by
  have hall := @skipWhitespace_append [] after ha (by decide)
  rwa [append_nil] at hall
 have hfuel : 3 * w.length + 1 ≤ fuelFor (before ++ (w ++ after)).length := by
  simp only [fuelFor, length_append]
  omega
 have hread := @taken limits _ _ hform _ 0 0 after hends hfuel
  ⟨by simpa [Form.count] using hvalues, by simpa [Form.depth] using hdepth, hdistinct⟩
 have hstart : skipWhitespace (before ++ (w ++ after)) = w ++ after := by
  obtain ⟨c, w', rfl, hspace, -⟩ := value_head hform
  exact skipWhitespace_append hb hspace
 rw [parseJson, if_neg (Nat.not_lt.2 hbytes), hstart, hread, bind_ok]
 dsimp only
 rw [hskip]
 rfl

end Complete

/-- The reader accepts its language and nothing else, and reads the value a text says. -/
theorem parseJson_accepts (s : Bytes) (limits : JsonLimits) (v : JsonValue) : parseJson s limits = .ok v ↔
  IsText s v ∧ v.Distinct ∧ s.length ≤ limits.maxBytes ∧ v.depth ≤ limits.maxDepth ∧ v.count ≤ limits.maxValues := by
 constructor
 · exact parseJson_sound
 · rintro ⟨htext, hdistinct, hbytes, hdepth, hvalues⟩
   exact parseJson_complete htext hdistinct hbytes hdepth hvalues

end MoltBrowser.BoundedJson
