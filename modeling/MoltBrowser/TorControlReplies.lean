import MoltBrowser.Bytes

set_option autoImplicit false

/-!
# Replies on Tor's control port

Bytes read from the control port, of which a reply is told to be complete and whose status is
read. A walk over the bytes keeps the part of the line read so far.
-/
namespace MoltBrowser.TorControl
open List

def isDigit (c : UInt8) : Bool := 0x30 ≤ c && c ≤ 0x39

def dropCr (line : Bytes) : Bytes := if line.getLast? = some 0x0D then line.dropLast else line

def completeLinesFrom (line : Bytes) : Bytes → List Bytes
 | [] => []
 | c :: text => if c = 0x0A then dropCr line :: completeLinesFrom [] text else completeLinesFrom (line ++ [c]) text

def completeLines (text : Bytes) : List Bytes := completeLinesFrom [] text

def mark (line : Bytes) : UInt8 := line.getD 3 0

def isStatusLine : Bytes → Bool
 | a :: b :: c :: d :: _ => isDigit a && isDigit b && isDigit c && (d = 0x2D || d = 0x2B || d = 0x20)
 | _ => false

def statusOf (line : Bytes) : ℤ :=
 ((line.getD 0 0).toNat - 0x30) * 100 + ((line.getD 1 0).toNat - 0x30) * 10 + ((line.getD 2 0).toNat - 0x30)

/-- The loop over the lines, in a data block or not; with it whether an end line was seen. -/
@[grind =] def statusLinesOf : Bool → List Bytes → List Bytes × Bool
 | _, [] => ([], false)
 | true, line :: lines => statusLinesOf (line ≠ utf8 ".") lines
 | false, line :: lines =>
  if !isStatusLine line then ([line], true)
  else if mark line = 0x2B then (line :: (statusLinesOf true lines).1, (statusLinesOf true lines).2)
  else if mark line = 0x20 then ([line], true)
  else (line :: (statusLinesOf false lines).1, (statusLinesOf false lines).2)

def statusLines (reply : Bytes) : List Bytes × Bool := statusLinesOf false (completeLines reply)

def isCompleteReply (buffer : Bytes) : Bool := (statusLines buffer).2

def getReplyStatus (reply : Bytes) : ℤ :=
 let (lines, complete) := statusLines reply
 match complete, lines.getLast? with
 | true, some last => if !isStatusLine last || mark last ≠ 0x20 then -1 else statusOf last
 | _, _ => -1

def isOkReply (reply : Bytes) : Bool :=
 let (lines, complete) := statusLines reply
 complete && !lines.isEmpty && (lines.all fun line => isStatusLine line && statusOf line = 250) &&
  lines.getLast? = some (utf8 "250 OK")

/-- The same framing; `start` is where the next byte is. -/
def completeReplyLengthFrom (inData : Bool) (line : Bytes) (start : ℕ) : Bytes → ℕ
 | [] => 0
 | c :: buffer =>
  if c ≠ 0x0A then completeReplyLengthFrom inData (line ++ [c]) (start + 1) buffer
  else if inData then completeReplyLengthFrom (dropCr line ≠ utf8 ".") [] (start + 1) buffer
  else if !isStatusLine (dropCr line) || mark (dropCr line) = 0x20 then start + 1
  else completeReplyLengthFrom (mark (dropCr line) = 0x2B) [] (start + 1) buffer

def completeReplyLength (buffer : Bytes) : ℕ := completeReplyLengthFrom false [] 0 buffer

/-- The messages that a connection takes off what it has read, and what stays pending. A message
has a byte, so `fuel` bounds them. -/
def readMessages : ℕ → Bytes → List Bytes × Bytes
 | 0, pending => ([], pending)
 | fuel + 1, pending =>
  if completeReplyLength pending = 0 then ([], pending)
  else
   let (messages, rest) := readMessages fuel (pending.drop (completeReplyLength pending))
   (pending.take (completeReplyLength pending) :: messages, rest)

/-! ## Lines -/

def joined (raws : List Bytes) : Bytes := raws.flatMap fun raw => raw ++ [0x0A]

def Raw (raw : Bytes) : Prop := (0x0A : UInt8) ∉ raw

theorem joined_append (f g : List Bytes) : joined (f ++ g) = joined f ++ joined g := flatMap_append

theorem joined_cons (raw : Bytes) (raws : List Bytes) : joined (raw :: raws) = raw ++ 0x0A :: joined raws := by
 simp [joined]

theorem exists_lines (text : Bytes) : ∃ raws tail, text = joined raws ++ tail ∧ (∀ raw ∈ raws, Raw raw) ∧ Raw tail := by
 induction text with
 | nil => exact ⟨[], [], rfl, by simp, by simp [Raw]⟩
 | cons c text ih =>
  obtain ⟨raws, tail, rfl, hraws, htail⟩ := ih
  by_cases hc : c = 0x0A
  · refine ⟨[] :: raws, tail, ?_, ?_, htail⟩
    · rw [joined_cons, hc]
      rfl
    · intro raw hraw
      rcases mem_cons.1 hraw with rfl | hraw
      · exact not_mem_nil
      · exact hraws raw hraw
  · cases raws with
    | nil => exact ⟨[], c :: tail, rfl, by simp, fun h => (mem_cons.1 h).elim (fun h => hc h.symm) htail⟩
    | cons raw raws =>
     refine ⟨(c :: raw) :: raws, tail, ?_, ?_, htail⟩
     · rw [joined_cons, joined_cons]
       rfl
     · intro r hr
       rcases mem_cons.1 hr with rfl | hr
       · exact fun h => (mem_cons.1 h).elim (fun h => hc h.symm) (hraws raw mem_cons_self)
       · exact hraws r (mem_cons_of_mem _ hr)

theorem completeLinesFrom_raw {raw : Bytes} (h : Raw raw) (line text : Bytes) :
  completeLinesFrom line (raw ++ text) = completeLinesFrom (line ++ raw) text := by
 induction raw generalizing line with
 | nil => rw [append_nil, nil_append]
 | cons c raw ih =>
  have hc : c ≠ 0x0A := fun hc => h (hc ▸ mem_cons_self)
  rw [cons_append, completeLinesFrom, if_neg hc, ih fun hm => h (mem_cons_of_mem _ hm), append_assoc]
  rfl

theorem completeLines_joined {raws : List Bytes} {tail : Bytes} (h : ∀ raw ∈ raws, Raw raw) (htail : Raw tail) :
  completeLines (joined raws ++ tail) = raws.map dropCr := by
 rw [completeLines]
 induction raws with
 | nil =>
  have hend := completeLinesFrom_raw htail [] []
  rw [append_nil] at hend
  rw [joined, flatMap_nil, nil_append, hend]
  rfl
 | cons raw raws ih =>
  rw [joined_cons, append_assoc, completeLinesFrom_raw (h raw mem_cons_self), cons_append, completeLinesFrom,
   if_pos rfl, ih fun r hr => h r (mem_cons_of_mem _ hr)]
  rfl

theorem completeReplyLengthFrom_raw {raw : Bytes} (h : Raw raw) (inData : Bool) (line : Bytes) (start : ℕ) (buffer : Bytes) :
  completeReplyLengthFrom inData line start (raw ++ buffer) =
   completeReplyLengthFrom inData (line ++ raw) (start + raw.length) buffer := by
 induction raw generalizing line start with
 | nil => rw [append_nil, nil_append, length_nil, Nat.add_zero]
 | cons c raw ih =>
  have hc : c ≠ 0x0A := fun hc => h (hc ▸ mem_cons_self)
  rw [cons_append, completeReplyLengthFrom, if_pos hc, ih fun hm => h (mem_cons_of_mem _ hm), append_assoc,
   length_cons]
  congr 1
  omega

/-! ## A reply -/

/-- The lines of a reply as they were read, and its status lines: mid lines, data blocks up to
their dot, and an end line, or one that is malformed. -/
inductive Framed : List Bytes → List Bytes → Prop where
 | last (raw : Bytes) (hraw : isStatusLine (dropCr raw) = false ∨ mark (dropCr raw) = 0x20) : Framed [raw] [dropCr raw]
 | mid (raw : Bytes) {raws lines : List Bytes} (hstatus : isStatusLine (dropCr raw) = true) (hspace : mark (dropCr raw) ≠ 0x20)
  (hplus : mark (dropCr raw) ≠ 0x2B) (hrest : Framed raws lines) : Framed (raw :: raws) (dropCr raw :: lines)
 | data (raw : Bytes) (block : List Bytes) (dot : Bytes) {raws lines : List Bytes} (hstatus : isStatusLine (dropCr raw) = true)
  (hplus : mark (dropCr raw) = 0x2B) (hblock : ∀ l ∈ block, dropCr l ≠ utf8 ".") (hdot : dropCr dot = utf8 ".")
  (hrest : Framed raws lines) : Framed (raw :: (block ++ dot :: raws)) (dropCr raw :: lines)

theorem statusLinesOf_block {block : List Bytes} {dot : Bytes} (hblock : ∀ l ∈ block, dropCr l ≠ utf8 ".")
  (hdot : dropCr dot = utf8 ".") (rest : List Bytes) :
  statusLinesOf true ((block ++ dot :: rest).map dropCr) = statusLinesOf false (rest.map dropCr) := by
 induction block with
 | nil => rw [nil_append, map_cons, statusLinesOf, hdot, decide_eq_false (fun h => h rfl)]
 | cons l block ih =>
  rw [cons_append, map_cons, statusLinesOf, decide_eq_true (hblock l mem_cons_self)]
  exact ih fun m hm => hblock m (mem_cons_of_mem _ hm)

theorem Framed.statusLines {raws lines : List Bytes} (h : Framed raws lines) (rest : List Bytes) :
  statusLinesOf false ((raws ++ rest).map dropCr) = (lines, true) := by
 induction h with
 | last raw hraw =>
  rw [singleton_append, map_cons, statusLinesOf]
  rcases hraw with hraw | hraw
  · rw [hraw, Bool.not_false, if_pos rfl]
  · have hplus : ¬ mark (dropCr raw) = 0x2B := by rw [hraw]; decide
    by_cases hstatus : (!isStatusLine (dropCr raw)) = true
    · rw [if_pos hstatus]
    · rw [if_neg hstatus, if_neg hplus, if_pos hraw]
 | mid raw hstatus hspace hplus hrest ih =>
  rw [cons_append, map_cons, statusLinesOf, hstatus, if_neg (by simp), if_neg hplus, if_neg hspace, ih]
 | data raw block dot hstatus hplus hblock hdot hrest ih =>
  rw [cons_append, append_assoc, cons_append, map_cons, statusLinesOf, hstatus, if_neg (by simp),
   if_pos hplus, statusLinesOf_block hblock hdot, ih]

theorem framed_of_complete (raws : List Bytes) :
  ((statusLinesOf false (raws.map dropCr)).2 = true →
   ∃ f rest, raws = f ++ rest ∧ Framed f (statusLinesOf false (raws.map dropCr)).1) ∧
  ((statusLinesOf true (raws.map dropCr)).2 = true → ∃ block dot f rest, raws = block ++ dot :: (f ++ rest) ∧
   (∀ l ∈ block, dropCr l ≠ utf8 ".") ∧ dropCr dot = utf8 "." ∧ Framed f (statusLinesOf true (raws.map dropCr)).1) := by
 induction raws with
 | nil => exact ⟨fun h => absurd h (by simp [statusLinesOf]), fun h => absurd h (by simp [statusLinesOf])⟩
 | cons raw raws ih =>
  obtain ⟨ihmid, ihdata⟩ := ih
  constructor
  · intro h
    rw [map_cons, statusLinesOf] at h ⊢
    split_ifs at h ⊢ with hstatus hplus hspace
    · exact ⟨[raw], raws, rfl, .last raw (.inl (by simpa using hstatus))⟩
    · obtain ⟨block, dot, f, rest, rfl, hblock, hdot, hf⟩ := ihdata h
      refine ⟨raw :: (block ++ dot :: f), rest, by simp, ?_⟩
      exact .data raw block dot (by simpa using hstatus) hplus hblock hdot hf
    · exact ⟨[raw], raws, rfl, .last raw (.inr hspace)⟩
    · obtain ⟨f, rest, rfl, hf⟩ := ihmid h
      exact ⟨raw :: f, rest, rfl, .mid raw (by simpa using hstatus) hspace hplus hf⟩
  · intro h
    rw [map_cons, statusLinesOf] at h ⊢
    by_cases hdot : dropCr raw = utf8 "."
    · rw [decide_eq_false (fun hne => hne hdot)] at h ⊢
      obtain ⟨f, rest, rfl, hf⟩ := ihmid h
      exact ⟨[], raw, f, rest, rfl, by simp, hdot, hf⟩
    · rw [decide_eq_true hdot] at h ⊢
      obtain ⟨block, dot, f, rest, rfl, hblock, hdot', hf⟩ := ihdata h
      refine ⟨raw :: block, dot, f, rest, rfl, fun l hl => ?_, hdot', hf⟩
      rcases mem_cons.1 hl with rfl | hl
      · exact hdot
      · exact hblock l hl

theorem completeReplyLengthFrom_line {raw : Bytes} (h : Raw raw) (inData : Bool) (start : ℕ) (buffer : Bytes) :
  completeReplyLengthFrom inData [] start (raw ++ 0x0A :: buffer) =
   if inData then completeReplyLengthFrom (dropCr raw ≠ utf8 ".") [] (start + raw.length + 1) buffer
   else if !isStatusLine (dropCr raw) || mark (dropCr raw) = 0x20 then start + raw.length + 1
   else completeReplyLengthFrom (mark (dropCr raw) = 0x2B) [] (start + raw.length + 1) buffer := by
 rw [completeReplyLengthFrom_raw h, nil_append, completeReplyLengthFrom, if_neg (fun hne => hne rfl)]

theorem completeReplyLengthFrom_block {block : List Bytes} {dot : Bytes} (hraw : ∀ l ∈ block ++ [dot], Raw l)
  (hblock : ∀ l ∈ block, dropCr l ≠ utf8 ".") (hdot : dropCr dot = utf8 ".") (start : ℕ) (buffer : Bytes) :
  completeReplyLengthFrom true [] start (joined (block ++ [dot]) ++ buffer) =
   completeReplyLengthFrom false [] (start + (joined (block ++ [dot])).length) buffer := by
 induction block generalizing start with
 | nil =>
  rw [nil_append, joined_cons, append_assoc, cons_append, completeReplyLengthFrom_line (hraw dot (by simp)),
   if_pos rfl, hdot, decide_eq_false (fun h => h rfl)]
  simp [joined, Nat.add_assoc]
 | cons l block ih =>
  rw [cons_append, joined_cons, append_assoc, cons_append, completeReplyLengthFrom_line (hraw l (by simp)),
   if_pos rfl, decide_eq_true (hblock l mem_cons_self),
   ih (fun m hm => hraw m (mem_cons_of_mem _ hm)) fun m hm => hblock m (mem_cons_of_mem _ hm)]
  congr 1
  rw [length_append, length_cons]
  omega

theorem Framed.length {raws lines : List Bytes} (h : Framed raws lines) (hraw : ∀ raw ∈ raws, Raw raw) (start : ℕ) (buffer : Bytes) :
  completeReplyLengthFrom false [] start (joined raws ++ buffer) = start + (joined raws).length := by
 induction h generalizing start with
 | last raw hlast =>
  rw [joined_cons, append_assoc, cons_append, completeReplyLengthFrom_line (hraw raw (by simp)), if_neg (by simp),
   if_pos]
  · simp [joined, Nat.add_assoc]
  · rcases hlast with hlast | hlast
    · rw [hlast]
      rfl
    · simp [hlast]
 | mid raw hstatus hspace hplus hrest ih =>
  rw [joined_cons, append_assoc, cons_append, completeReplyLengthFrom_line (hraw raw (by simp)), if_neg (by simp),
   hstatus, if_neg (by simp [hspace]), decide_eq_false hplus, ih fun r hr => hraw r (mem_cons_of_mem _ hr)]
  rw [length_append, length_cons]
  omega
 | data raw block dot hstatus hplus hblock hdot hrest ih =>
  have hsplit : ∀ f, joined (block ++ dot :: f) = joined (block ++ [dot]) ++ joined f := fun f => by
   rw [← joined_append, append_assoc, singleton_append]
  rw [joined_cons, append_assoc, cons_append, completeReplyLengthFrom_line (hraw raw (by simp)), if_neg (by simp),
   hstatus, if_neg (by simp [hplus]), decide_eq_true hplus, hsplit, append_assoc,
   completeReplyLengthFrom_block (fun l hl => hraw l ?_) hblock hdot, ih fun r hr => hraw r ?_]
  · simp only [length_append, length_cons]
    omega
  · simp [hr]
  · rcases mem_append.1 hl with hl | hl
    · simp [hl]
    · simp [mem_singleton.1 hl]

theorem completeReplyLengthFrom_incomplete {raws : List Bytes} {tail : Bytes} (hraws : ∀ raw ∈ raws, Raw raw) (htail : Raw tail)
  (inData : Bool) (start : ℕ) (h : (statusLinesOf inData (raws.map dropCr)).2 = false) :
  completeReplyLengthFrom inData [] start (joined raws ++ tail) = 0 := by
 induction raws generalizing inData start with
 | nil =>
  have hend := completeReplyLengthFrom_raw htail inData [] start []
  rw [append_nil] at hend
  rw [joined, flatMap_nil, nil_append, hend]
  rfl
 | cons raw raws ih =>
  have hrest := ih fun r hr => hraws r (mem_cons_of_mem _ hr)
  rw [joined_cons, append_assoc, cons_append, completeReplyLengthFrom_line (hraws raw mem_cons_self)]
  cases inData with
  | true =>
   rw [map_cons, statusLinesOf] at h
   exact hrest _ _ h
  | false =>
   rw [map_cons, statusLinesOf] at h
   rw [if_neg (by simp)]
   split_ifs at h with hstatus hplus hspace
   · rw [if_neg (by simp_all), decide_eq_true hplus]
     exact hrest _ _ h
   · rw [if_neg (by simp_all), decide_eq_false hplus]
     exact hrest _ _ h

/-! ## Framing -/

theorem Framed.read {f lines : List Bytes} (h : Framed f lines) (hraw : ∀ raw ∈ f, Raw raw) (more : Bytes) :
  TorControl.statusLines (joined f ++ more) = (lines, true) ∧ completeReplyLength (joined f ++ more) = (joined f).length := by
 obtain ⟨raws, tail, rfl, hraws, htail⟩ := exists_lines more
 constructor
 · have hall : ∀ raw ∈ f ++ raws, Raw raw := fun r hr => (mem_append.1 hr).elim (hraw r) (hraws r)
   rw [TorControl.statusLines, ← append_assoc, ← joined_append, completeLines_joined hall htail, h.statusLines]
 · rw [completeReplyLength, h.length hraw, Nat.zero_add]

theorem framed_or_not (b : Bytes) :
  (∃ f lines more, b = joined f ++ more ∧ (∀ raw ∈ f, Raw raw) ∧ Framed f lines) ∨
   ((statusLines b).2 = false ∧ completeReplyLength b = 0) := by
 obtain ⟨raws, tail, rfl, hraws, htail⟩ := exists_lines b
 rw [statusLines, completeLines_joined hraws htail]
 cases hcomplete : (statusLinesOf false (raws.map dropCr)).2 with
 | true =>
  obtain ⟨f, rest, hsplit, hf⟩ := (framed_of_complete raws).1 hcomplete
  refine .inl ⟨f, _, joined rest ++ tail, ?_, fun r hr => hraws r ?_, hf⟩
  · rw [hsplit, joined_append, append_assoc]
  · rw [hsplit]
    exact mem_append_left _ hr
 | false => exact .inr ⟨rfl, completeReplyLengthFrom_incomplete hraws htail false 0 hcomplete⟩

theorem Framed.joined_pos {f lines : List Bytes} (h : Framed f lines) : 0 < (joined f).length := by
 cases h <;> simp [joined]

theorem Framed.ne_nil {f lines : List Bytes} (h : Framed f lines) : f ≠ [] ∧ lines ≠ [] := by
 cases h <;> simp

theorem Framed.getLast {f lines : List Bytes} (h : Framed f lines) : lines.getLast? = (f.getLast?).map dropCr := by
 induction h with
 | last raw hraw => rfl
 | @mid raw raws lines hstatus hspace hplus hrest ih =>
  rw [← singleton_append, getLast?_append_of_ne_nil _ hrest.ne_nil.2, ih, ← singleton_append (x := raw),
   getLast?_append_of_ne_nil _ hrest.ne_nil.1]
 | @data raw block dot raws lines hstatus hplus hblock hdot hrest ih =>
  have hsplit : raw :: (block ++ dot :: raws) = (raw :: block ++ [dot]) ++ raws := by simp
  rw [← singleton_append, getLast?_append_of_ne_nil _ hrest.ne_nil.2, ih, hsplit,
   getLast?_append_of_ne_nil _ hrest.ne_nil.1]

theorem completeReplyLength_append {b : Bytes} (h : 0 < completeReplyLength b) (more : Bytes) :
  completeReplyLength (b ++ more) = completeReplyLength b ∧
   (b ++ more).take (completeReplyLength (b ++ more)) = b.take (completeReplyLength b) := by
 rcases framed_or_not b with ⟨f, lines, rest, rfl, hraw, hf⟩ | ⟨-, hlength⟩
 · have hread := (hf.read hraw (rest ++ more)).2
   rw [append_assoc, hread, (hf.read hraw rest).2, take_left, take_left]
   exact ⟨rfl, rfl⟩
 · omega

theorem reply_framing (b : Bytes) :
  (0 < completeReplyLength b ↔ isCompleteReply b = true) ∧
  (0 < completeReplyLength b →
   getReplyStatus (b.take (completeReplyLength b)) = getReplyStatus b ∧
   isOkReply (b.take (completeReplyLength b)) = isOkReply b ∧
   ∀ more, completeReplyLength (b ++ more) = completeReplyLength b ∧
    (b ++ more).take (completeReplyLength (b ++ more)) = b.take (completeReplyLength b)) ∧
  (isOkReply b = true → ∃ f lines, b.take (completeReplyLength b) = joined f ∧ (∀ raw ∈ f, Raw raw) ∧ Framed f lines ∧
   (∀ line ∈ lines, isStatusLine line = true ∧ statusOf line = 250) ∧ f.getLast?.map dropCr = some (utf8 "250 OK")) := by
 rcases framed_or_not b with ⟨f, lines, more, rfl, hraw, hf⟩ | ⟨hcomplete, hlength⟩
 · obtain ⟨hlines, hlength⟩ := hf.read hraw more
   obtain ⟨hlines', -⟩ := hf.read hraw []
   have htake : (joined f ++ more).take (joined f).length = joined f := List.take_left
   rw [List.append_nil] at hlines'
   rw [hlength, htake]
   have hpos : 0 < completeReplyLength (joined f ++ more) := by
    rw [hlength]
    exact hf.joined_pos
   have happend := completeReplyLength_append hpos
   rw [hlength, htake] at happend
   refine ⟨?_, fun _ => ⟨?_, ?_, happend⟩, fun hok => ⟨f, lines, rfl, hraw, hf, ?_, ?_⟩⟩
   · rw [isCompleteReply, hlines]
     exact iff_of_true hf.joined_pos rfl
   · rw [getReplyStatus, getReplyStatus, hlines, hlines']
   · rw [isOkReply, isOkReply, hlines, hlines']
   · rw [isOkReply, hlines] at hok
     intro line hline
     simp only [Bool.true_and, Bool.and_eq_true, List.all_eq_true, decide_eq_true_eq] at hok
     exact hok.1.2 line hline
   · rw [isOkReply, hlines] at hok
     simp only [Bool.and_eq_true, decide_eq_true_eq] at hok
     rw [← hf.getLast]
     exact hok.2
 · rw [isCompleteReply, hcomplete, hlength]
   refine ⟨by simp, fun h => absurd h (lt_irrefl 0), fun hok => ?_⟩
   rw [isOkReply] at hok
   dsimp only at hok
   rw [hcomplete] at hok
   exact absurd hok (by simp)

theorem reply_framing_two_lines :
  completeReplyLength (utf8 "250-version=1\r\n250 OK\r\n650 " ++ utf8 "SIGNAL NEWNYM\r\n") =
   completeReplyLength (utf8 "250-version=1\r\n250 OK\r\n650 ") :=
 (((reply_framing (utf8 "250-version=1\r\n250 OK\r\n650 ")).2.1 (by decide)).2.2 _).1

end MoltBrowser.TorControl
