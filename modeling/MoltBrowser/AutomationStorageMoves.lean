import MoltBrowser.AutomationStorage

set_option autoImplicit false

/-!
# Moving scripts in and out of a directory

Over every order of the storages' calls and of browsers ending, a script stays
in one file until it is finished or deleted, and nothing is put over it. Who
took it is another matter: a script put back while its taker is at work can be
taken again.
-/
namespace MoltBrowser.AutomationStorage
open AutomationScript AutomationSecurity AutomationLocators NamedObjects List

/-! ## Names -/

theorem hexDigits_spec (n bits : ℕ) :
  (hexDigits n bits).length = n ∧ (hexDigits n bits).all isLowerHex = true := by
 have hdigit : ∀ k < 16, isLowerHex (hexDigit k) = true := by decide
 induction n generalizing bits with
 | zero => exact ⟨rfl, rfl⟩
 | succ n ih =>
  obtain ⟨hlen, hall⟩ := ih (bits / 16)
  refine ⟨by rw [hexDigits, length_cons, hlen], ?_⟩
  rw [hexDigits, all_cons, hall, hdigit _ (Nat.mod_lt _ (by omega))]
  rfl

variable {id : Bytes}

theorem isValidScriptId_iff : isValidScriptId id = true ↔
  id ≠ [] ∧ id.length ≤ kMaxIdBytes ∧
   ∀ c ∈ id, c ≠ 0x2F ∧ c ≠ 0x5C ∧ c ≠ 0x3A ∧ c ≠ 0x2E ∧ c ≠ 0 := decide_eq_true_iff

theorem split_at_dot (hid : isValidScriptId id = true) (rest : Bytes) :
  (id ++ 0x2E :: rest).takeWhile (· ≠ 0x2E) = id ∧
   (id ++ 0x2E :: rest).dropWhile (· ≠ 0x2E) = 0x2E :: rest := by
 have hnone : ∀ c ∈ id, decide (c ≠ 0x2E) = true := fun c hc =>
  decide_eq_true ((isValidScriptId_iff.1 hid).2.2 c hc).2.2.2.1
 constructor
 · rw [takeWhile_append_of_pos hnone, takeWhile_cons_of_neg (by decide), append_nil]
 · rw [dropWhile_append_of_pos hnone, dropWhile_cons_of_neg (by decide)]

theorem setAsideIdOf_setAsidePath (hid : isValidScriptId id = true) (bits : UInt64) :
  setAsideIdOf (setAsidePath id bits) = some id := by
 obtain ⟨hlen, hhex⟩ := hexDigits_spec 16 bits.toNat
 have hname : setAsidePath id bits =
   id ++ 0x2E :: (utf8 "molt." ++ randomToken bits ++ kTakenExt) := by
  simp only [setAsidePath, append_assoc]
  rfl
 obtain ⟨htake, hdrop⟩ := split_at_dot hid (utf8 "molt." ++ randomToken bits ++ kTakenExt)
 have hrest : 0x2E :: (utf8 "molt." ++ randomToken bits ++ kTakenExt) =
   (kScriptExt ++ utf8 ".") ++ (randomToken bits ++ kTakenExt) := by
  simp only [append_assoc]
  rfl
 have htoken : (randomToken bits).length = 16 := hlen
 have hhead : (kScriptExt ++ utf8 ".").length = 6 := rfl
 have htaken : kTakenExt.length = 6 := rfl
 have hold : 0x2E :: (utf8 "molt." ++ randomToken bits ++ kTakenExt) ≠ kScriptExt ++ kTakenExt := by
  intro h
  have := congrArg List.length h
  simp only [length_cons, length_append, htoken, htaken] at this
  exact absurd this (by decide)
 have hfront : (kScriptExt ++ utf8 ".").isPrefixOf
   ((kScriptExt ++ utf8 ".") ++ (randomToken bits ++ kTakenExt)) = true :=
  isPrefixOf_iff_prefix.2 (prefix_append _ _)
 have hback : kTakenExt.isSuffixOf
   ((kScriptExt ++ utf8 ".") ++ (randomToken bits ++ kTakenExt)) = true :=
  isSuffixOf_iff_suffix.2 ⟨_, append_assoc _ _ _⟩
 rw [setAsideIdOf, hname]
 simp only [htake, hdrop]
 rw [if_neg (by simp [hid]), if_neg hold, hrest, if_neg (by
  simp only [hfront, hback, length_append, htoken, htaken]
  decide)]
 have hmid : (((kScriptExt ++ utf8 ".") ++ (randomToken bits ++ kTakenExt)).drop
   (kScriptExt ++ utf8 ".").length).take (((kScriptExt ++ utf8 ".") ++
    (randomToken bits ++ kTakenExt)).length - (kScriptExt ++ utf8 ".").length -
    kTakenExt.length) = randomToken bits := by
  rw [drop_left, length_append, Nat.add_sub_cancel_left, length_append,
   Nat.add_sub_cancel, take_left]
 rw [hmid, if_pos ⟨by omega, hhex⟩]

theorem setAsideIdOf_getScriptPath (hid : isValidScriptId id = true) :
  setAsideIdOf (getScriptPath id) = none := by
 obtain ⟨htake, hdrop⟩ := split_at_dot hid (utf8 "molt")
 have hname : getScriptPath id = id ++ 0x2E :: utf8 "molt" := rfl
 rw [setAsideIdOf, hname]
 simp only [htake, hdrop]
 rw [if_neg (by simp [hid]), if_neg (by decide), if_pos (by decide)]

theorem setAsideIdOf_valid {name : Bytes} (h : setAsideIdOf name = some id) :
  isValidScriptId id = true := by
 simp only [setAsideIdOf] at h
 split at h
 · cases h
 · next hvalid =>
   have hid : isValidScriptId (name.takeWhile (· ≠ 0x2E)) = true := by
    simpa using (not_or.1 hvalid).2
   split at h
   · cases h
     exact hid
   · split at h
     · cases h
     · split at h
       · cases h
         exact hid
       · cases h

theorem getScriptPath_inj {id' : Bytes} (h : getScriptPath id = getScriptPath id') : id = id' :=
 append_cancel_right h

theorem isValidScriptId_of_chars (hne : id ≠ []) (hlen : id.length ≤ kMaxIdBytes)
  (hchars : ∀ c ∈ id, c ≠ 0x2F ∧ c ≠ 0x5C ∧ c ≠ 0x3A ∧ c ≠ 0x2E ∧ c ≠ 0) :
  isValidScriptId id = true := isValidScriptId_iff.2 ⟨hne, hlen, hchars⟩

theorem freeSimple_spec {isFree : Bytes → Bool} {fuel : ℕ} {back : Bytes}
  (hid : isValidScriptId id = true) (h : freeSimple isFree fuel id = some back) :
  isFree back = true ∧ isValidScriptId back = true := by
 induction fuel generalizing id with
 | zero => cases h
 | succ fuel ih =>
  unfold freeSimple at h
  by_cases hfree : isFree id
  · rw [if_pos hfree] at h
    cases h
    exact ⟨hfree, hid⟩
  · rw [if_neg hfree] at h
    by_cases hlong : kMaxIdBytes ≤ id.length
    · rw [if_pos hlong] at h
      cases h
    · rw [if_neg hlong] at h
      obtain ⟨-, -, hchars⟩ := isValidScriptId_iff.1 hid
      refine ih (isValidScriptId_of_chars (append_ne_nil_of_right_ne_nil _ (by decide)) ?_ ?_) h
      · rw [length_append]
        exact Nat.succ_le_of_lt (not_le.1 hlong)
      · intro c hc
        rcases mem_append.1 hc with hc | hc
        · exact hchars c hc
        · have hunderscore : c = 0x5F := mem_singleton.1 hc
          subst hunderscore
          decide

variable {d : Dir Bytes Node}

theorem freeIdLocked_spec {ch : Chance} {back : Bytes}
  (hid : isValidScriptId id = true) (h : freeIdLocked ch d id = some back) :
  d (getScriptPath back) = none ∧ isValidScriptId back = true := by
 simp only [freeIdLocked, Option.or_eq_some_iff] at h
 rcases h with h | ⟨-, h⟩
 · obtain ⟨hfree, hback⟩ := freeSimple_spec hid h
   exact ⟨Option.isNone_iff_eq_none.1 hfree, hback⟩
 · obtain ⟨bits, -, h⟩ := exists_of_findSome?_eq_some h
   split at h
   · next hfresh =>
     cases h
     exact ⟨Option.isNone_iff_eq_none.1 hfresh.2, hfresh.1⟩
   · cases h

theorem freeIdLocked_of_free {ch : Chance}
  (h : d (getScriptPath id) = none) : freeIdLocked ch d id = some id := by
 simp only [freeIdLocked, kMaxIdBytes, freeSimple, h, Option.isNone_none, ↓reduceIte, Option.some_or]

/-! ## What a call can do -/

/-- A file stands under its script's path, or set aside under a name that says its id. -/
def Named (name id : Bytes) : Prop :=
 (isValidScriptId id = true ∧ name = getScriptPath id) ∨ setAsideIdOf name = some id

def Fewer (s s' : State) : Prop :=
 ∀ storage id e, s'.taken storage id = some e → s.taken storage id = some e

/-- The entries after `storage` took the script `uid` as `id`. -/
def Took (s s' : State) (storage : ℕ) (id file : Bytes) (uid : ℕ) : Prop :=
 s'.taken storage id = some (file, uid) ∧
  ∀ storage' id' e, s'.taken storage' id' = some e →
   (storage' = storage ∧ id' = id ∧ e = (file, uid)) ∨ s.taken storage' id' = some e

/-- The one change of the files that a call makes, if any. -/
inductive Effect (s s' : State) : Prop
 | quiet (hdir : s'.dir = s.dir) (hnext : s'.nextUid = s.nextUid) (hended : s'.ended = s.ended)
   (hlog : s'.log = s.log) (htaken : Fewer s s')
 | version (name : Bytes) (file file' : File) (hfile : s.dir name = some (.regular file))
   (huid : file'.uid = file.uid) (hid : file'.id = file.id)
   (hdir : s'.dir = put s.dir name (.regular file')) (hnext : s'.nextUid = s.nextUid)
   (hended : s'.ended = s.ended)
   (hlog : s'.log = s.log ∨ s'.log = s.log ++ [.putBack file.uid] ∧ setAsideIdOf name = none)
   (htaken : Fewer s s')
 | create (id : Bytes) (file : File) (hid : isValidScriptId id = true)
   (hfree : s.dir (getScriptPath id) = none) (huid : file.uid = s.nextUid) (hname : file.id = id)
   (hdir : s'.dir = put s.dir (getScriptPath id) (.regular file))
   (hnext : s'.nextUid = s.nextUid + 1) (hended : s'.ended = s.ended) (hlog : s'.log = s.log)
   (htaken : Fewer s s')
 | drop (name : Bytes) (hdir : s'.dir = remove s.dir name) (hnext : s'.nextUid = s.nextUid)
   (hended : s'.ended = ((regularAt s.dir name).map File.uid).toList ++ s.ended)
   (hlog : s'.log = s.log) (htaken : Fewer s s')
 | aside (storage : ℕ) (id name : Bytes) (file file' : File) (hid : isValidScriptId id = true)
   (hfile : s.dir (getScriptPath id) = some (.regular file)) (hname : setAsideIdOf name = some id)
   (hfree : s.dir name = none) (huid : file'.uid = file.uid) (hid' : file'.id = id)
   (hdir : s'.dir = move s.dir (getScriptPath id) name (.regular file'))
   (hnext : s'.nextUid = s.nextUid) (hended : s'.ended = s.ended)
   (htook : (s'.log = s.log ∧ Fewer s s') ∨
    (s'.log = s.log ++ [.took storage file.uid] ∧ Took s s' storage id name file.uid))
 | back (name id : Bytes) (file file' : File) (hfile : s.dir name = some (.regular file))
   (hname : (setAsideIdOf name).isSome) (hid : isValidScriptId id = true)
   (hfree : s.dir (getScriptPath id) = none) (huid : file'.uid = file.uid) (hid' : file'.id = id)
   (hdir : s'.dir = move s.dir name (getScriptPath id) (.regular file'))
   (hnext : s'.nextUid = s.nextUid) (hended : s'.ended = s.ended)
   (hlog : s'.log = s.log ++ [.putBack file.uid]) (htaken : Fewer s s')

theorem Fewer.refl (s : State) : Fewer s s := fun _ _ _ h => h

theorem Effect.refl (s : State) : Effect s s := .quiet rfl rfl rfl rfl (.refl s)

variable {file : File}

theorem regularAt_eq_some {name : Bytes} :
  regularAt d name = some file ↔ d name = some (.regular file) := by
 unfold regularAt
 split <;> simp_all

theorem writeScript_effect (ch : Chance) {script : Script} (s : State)
  (hid : isValidScriptId script.id = true) : Effect s (writeScript ch script s).1 := by
 simp only [writeScript]
 split
 · exact .refl s
 · split
   · exact .refl s
   · next file hfile =>
     exact .version _ file { file with json := some (saveLocked script), modified := ch.now } hfile
      rfl rfl rfl rfl rfl (.inl rfl) (.refl s)
   · next hnone =>
     exact .create script.id ⟨s.nextUid, script.id, some (saveLocked script), ch.now⟩ hid hnone
      rfl rfl rfl rfl rfl rfl (.refl s)

theorem forget_fewer (storage : ℕ) (id : Bytes) (s : State) : Fewer s (forget storage id s) := by
 intro storage' id' e h
 simp only [forget, Function.update_apply] at h
 split at h
 · next hstorage =>
   rw [Function.update_apply] at h
   split at h
   · cases h
   · exact hstorage ▸ h
 · exact h

variable {s : State}

theorem finishSetAside_effect (browserOf : ℕ → ℕ) (storage : ℕ) (ch : Chance) (setAside : SetAside)
  {s₀ : State} (hdir : s.dir = s₀.dir) (hnext : s.nextUid = s₀.nextUid)
  (hended : s.ended = s₀.ended) (hlog : s.log = s₀.log) (htaken : Fewer s₀ s) :
  Effect s₀ (finishSetAside browserOf storage ch setAside s) := by
 simp only [finishSetAside]
 split
 · exact .quiet hdir hnext hended hlog htaken
 · split
   · next file hfile =>
     split
     · refine .drop setAside.file (by rw [← hdir]; rfl) hnext ?_ hlog htaken
       rw [hdir] at hfile
       rw [hfile, ← hended]
       rfl
     · exact .quiet hdir hnext hended hlog htaken
   · exact .quiet hdir hnext hended hlog htaken

theorem returnLocked_effect (browser : ℕ) (ch : Chance) {setAside : SetAside} {s₀ : State}
  (hhere : setAsideIdOf setAside.file = some setAside.id) (hdir : s.dir = s₀.dir)
  (hnext : s.nextUid = s₀.nextUid) (hended : s.ended = s₀.ended) (hlog : s.log = s₀.log) (htaken : Fewer s₀ s) :
  Effect s₀ (returnLocked browser ch setAside s) := by
 simp only [returnLocked]
 split
 · next file back hfile hback =>
   split
   · obtain ⟨hfree, hvalid⟩ := freeIdLocked_spec (setAsideIdOf_valid hhere) hback
     rw [regularAt_eq_some, hdir] at hfile
     rw [hdir] at hfree
     refine .back setAside.file back file { file with id := back } hfile ?_ hvalid hfree rfl rfl ?_ hnext hended ?_ htaken
     · rw [hhere]
       rfl
     · exact congrArg (fun d => moveScript d file setAside.file (getScriptPath back) back) hdir
     · exact congrArg (· ++ [Entry.putBack file.uid]) hlog
   · exact .quiet hdir hnext hended hlog htaken
 · exact .quiet hdir hnext hended hlog htaken

def AllNamed (d : Dir Bytes Node) : Prop :=
 ∀ name file, d name = some (.regular file) → Named name file.id

theorem Named.eq_of_path {id' : Bytes} (hid : isValidScriptId id = true)
  (h : Named (getScriptPath id) id') : id' = id := by
 rcases h with ⟨-, hpath⟩ | haside
 · exact (getScriptPath_inj hpath).symm
 · rw [setAsideIdOf_getScriptPath hid] at haside
   cases haside

theorem move_there_and_back {a b : Bytes} {x y : Node} (hab : a ≠ b)
  (hb : d b = none) : move (move d a b x) b a y = put d a y := by
 funext n
 by_cases hna : n = a
 · subst hna
   rw [move, put_self, put_self]
 · rw [move, put_of_ne hna, put_of_ne hna]
   by_cases hnb : n = b
   · subst hnb
     rw [remove_self, hb]
   · rw [remove_of_ne hnb, move, put_of_ne hnb, remove_of_ne hna]

theorem took_update (s s' : State) (storage : ℕ) (id file : Bytes) (uid : ℕ)
  (h : s'.taken = Function.update s.taken storage
   (Function.update (s.taken storage) id (some (file, uid)))) :
  Took s s' storage id file uid := by
 refine ⟨by rw [h, Function.update_self, Function.update_self], ?_⟩
 intro storage' id' e he
 rw [h, Function.update_apply] at he
 split at he
 · next hstorage =>
   rw [Function.update_apply] at he
   split at he
   · next hid =>
     cases he
     exact .inl ⟨hstorage, hid, rfl⟩
   · exact .inr (hstorage ▸ he)
 · exact .inr he

theorem take_effect (url : UrlLibrary) (browserOf : ℕ → ℕ) (storage : ℕ) (ch : Chance) (id : Bytes)
  (s : State) (hnamed : AllNamed s.dir) :
  Effect s (take url browserOf storage ch id s).1 := by
 simp only [take]
 split
 · exact .refl s
 · next hgo =>
   have hid : isValidScriptId id = true := by simpa using (not_or.1 hgo).1
   generalize hfile : setAsidePath id (ch.tokens.headD 0) = file
   have hname : setAsideIdOf file = some id := hfile ▸ setAsideIdOf_setAsidePath hid _
   split
   · exact .refl s
   · next script hscript =>
     rw [regularAt_eq_some] at hscript
     have hknown : script.id = id := (hnamed _ _ hscript).eq_of_path hid
     split
     · exact .refl s
     · next hfree =>
       have hnone : s.dir file = none := by simpa using (not_or.1 hfree).1
       have hab : getScriptPath id ≠ file := by
        intro heq
        rw [heq, hnone] at hscript
        cases hscript
       split
       · -- Unreadable: put back under its own id, which is free.
         have hpath : moveScript s.dir { script with modified := ch.now } (getScriptPath id) file id
           (getScriptPath id) = none := by
          rw [moveScript, move, put_of_ne hab, remove_self]
         have hthere : regularAt (moveScript s.dir { script with modified := ch.now }
           (getScriptPath id) file id) file =
           some { script with modified := ch.now, id := id } := by
          rw [regularAt_eq_some, moveScript, move, put_self]
         simp only [returnLocked, startTaking, hthere, freeIdLocked_of_free hpath]
         split
         · refine .version (getScriptPath id) script { script with modified := ch.now, id := id }
            hscript rfl hknown.symm ?_ rfl rfl
            (.inr ⟨rfl, setAsideIdOf_getScriptPath hid⟩) (.refl s)
           exact move_there_and_back hab hnone
         · exact .aside storage id file script { script with modified := ch.now, id := id } hid
            hscript hname hnone rfl rfl rfl rfl rfl (.inl ⟨rfl, .refl s⟩)
       · exact .aside storage id file script { script with modified := ch.now, id := id } hid
          hscript hname hnone rfl rfl rfl rfl rfl (.inr ⟨rfl, took_update _ _ _ _ _ _ rfl⟩)

theorem step_effect (url : UrlLibrary) (browserOf : ℕ → ℕ) (s : State) (op : Op)
  (hnamed : AllNamed s.dir) : Effect s (step url browserOf s op) := by
 cases op with
 | endBrowser browser =>
  refine .quiet rfl rfl rfl rfl ?_
  intro storage id e h
  simp only [step, endBrowser] at h
  split at h
  · cases h
  · exact h
 | call storage ch c =>
  cases c with
  | saveNew script =>
   simp only [step, saveNew]
   split
   · exact .refl s
   · next hid =>
     split
     · exact .refl s
     · next id hfree =>
       obtain ⟨-, hvalid⟩ := freeIdLocked_spec (by simpa using hid) hfree
       exact writeScript_effect ch s hvalid
  | saveChecked script check =>
   simp only [step, saveChecked]
   split
   · exact .refl s
   · next hid =>
     split
     · exact .refl s
     · next checked hcheck =>
       split
       · exact .refl s
       · next hsame =>
         have hvalid : isValidScriptId checked.id = true := by
          rw [not_not.1 hsame]
          simpa using hid
         exact writeScript_effect ch s hvalid
  | update id change =>
   simp only [step, updateScript]
   split
   · exact .refl s
   · next hid =>
     split
     · exact .refl s
     · next changed hchange =>
       split
       · exact .refl s
       · next hsame =>
         have hvalid : isValidScriptId changed.id = true := by
          rw [not_not.1 hsame]
          simpa using hid
         exact writeScript_effect ch s hvalid
  | delete id =>
   simp only [step, deleteScript]
   split
   · exact .refl s
   · exact .drop _ rfl rfl rfl rfl (.refl s)
  | take id => exact take_effect url browserOf storage ch id s hnamed
  | finishTake id =>
   simp only [step, finishTake]
   split
   · exact .refl s
   · exact finishSetAside_effect browserOf storage ch _ rfl rfl rfl rfl (forget_fewer storage id s)
  | returnTaken id =>
   simp only [step, returnTaken, returnSetAside]
   split
   · exact .refl s
   · split
     · exact .quiet rfl rfl rfl rfl (forget_fewer storage id s)
     · next hhere =>
       exact returnLocked_effect _ ch (by simpa [isSetAsideHere] using hhere) rfl rfl rfl rfl
        (forget_fewer storage id s)
  | finishSetAside setAside =>
   exact finishSetAside_effect browserOf storage ch setAside rfl rfl rfl rfl (.refl s)
  | returnSetAside setAside =>
   simp only [step, returnSetAside]
   split
   · exact .refl s
   · next hhere =>
     exact returnLocked_effect _ ch (by simpa [isSetAsideHere] using hhere) rfl rfl rfl rfl (.refl s)

/-! ## What every call keeps -/

def outOf (log : List Entry) (uid : ℕ) : Bool :=
 log.foldl (fun out e =>
  match e with
  | .took _ u => out || u == uid
  | .putBack u => out && u != uid) false

def TakenInTurn (log : List Entry) : Prop :=
 ∀ earlier storage uid later, log = earlier ++ .took storage uid :: later →
  outOf earlier uid = false

theorem outOf_took (log : List Entry) (storage u uid : ℕ) :
  outOf (log ++ [.took storage u]) uid = (outOf log uid || u == uid) := by
 rw [outOf, foldl_append]
 rfl

theorem outOf_putBack (log : List Entry) (u uid : ℕ) :
  outOf (log ++ [.putBack u]) uid = (outOf log uid && u != uid) := by
 rw [outOf, foldl_append]
 rfl

theorem TakenInTurn.append {log : List Entry} {e : Entry} (h : TakenInTurn log)
  (he : ∀ storage uid, e = .took storage uid → outOf log uid = false) :
  TakenInTurn (log ++ [e]) := by
 intro earlier storage uid later heq
 rcases eq_nil_or_concat later with rfl | ⟨later, last, rfl⟩
 · obtain ⟨rfl, hlast⟩ := append_inj' heq rfl
   exact he storage uid (singleton_inj.1 hlast)
 · rw [concat_eq_append, ← cons_append, ← append_assoc] at heq
   obtain ⟨hlog, -⟩ := append_inj' heq rfl
   exact h earlier storage uid later hlog

structure Inv (s : State) : Prop where
 named : AllNamed s.dir
 single : Single Node.uid s.dir
 bound : ∀ name u, At Node.uid s.dir name u → u < s.nextUid
 present : ∀ u < s.nextUid, u ∉ s.ended → ∃ name, At Node.uid s.dir name u
 out : ∀ u, outOf s.log u = true → ∀ name, At Node.uid s.dir name u → (setAsideIdOf name).isSome
 known : ∀ u, outOf s.log u = true → u < s.nextUid
 inTurn : TakenInTurn s.log

theorem uid_version {file' : File} (h : file'.uid = file.uid) :
  Node.uid (.regular file') = Node.uid (.regular file) := congrArg some h

theorem at_of_file {name : Bytes}
  (h : d name = some (.regular file)) : At Node.uid d name file.uid := ⟨_, h, rfl⟩

theorem AllNamed.put (h : AllNamed d) {name : Bytes}
  (hname : Named name file.id) : AllNamed (put d name (.regular file)) := by
 intro n f hf
 by_cases hn : n = name
 · subst hn
   rw [put_self, Option.some.injEq, Node.regular.injEq] at hf
   exact hf ▸ hname
 · rw [put_of_ne hn] at hf
   exact h n f hf

theorem AllNamed.remove (h : AllNamed d) (name : Bytes) :
  AllNamed (remove d name) := by
 intro n f hf
 by_cases hn : n = name
 · subst hn
   rw [remove_self] at hf
   cases hf
 · rw [remove_of_ne hn] at hf
   exact h n f hf

theorem name_ne {name : Bytes} (hid : isValidScriptId id = true)
  (hname : (setAsideIdOf name).isSome) : getScriptPath id ≠ name := by
 rintro rfl
 rw [setAsideIdOf_getScriptPath hid] at hname
 cases hname

variable {s' : State}

theorem Inv.effect (h : Inv s) (heffect : Effect s s') : Inv s' := by
 cases heffect with
 | quiet hdir hnext hended hlog htaken =>
  refine ⟨?_, ?_, ?_, ?_, ?_, ?_, ?_⟩
  · exact hdir ▸ h.named
  · exact hdir ▸ h.single
  · rw [hdir, hnext]
    exact h.bound
  · rw [hdir, hnext, hended]
    exact h.present
  · rw [hdir, hlog]
    exact h.out
  · rw [hlog, hnext]
    exact h.known
  · exact hlog ▸ h.inTurn
 | version name file file' hfile huid hid hdir hnext hended hlog htaken =>
  have hat : ∀ n u, At Node.uid s'.dir n u ↔ At Node.uid s.dir n u := fun n u => by
   rw [hdir]
   exact at_put_version hfile (uid_version huid)
  have hout : ∀ u, outOf s'.log u = true → outOf s.log u = true := by
   intro u hu
   rcases hlog with hlog | ⟨hlog, -⟩
   · exact hlog ▸ hu
   · rw [hlog, outOf_putBack, Bool.and_eq_true] at hu
     exact hu.1
  refine ⟨?_, ?_, ?_, ?_, ?_, ?_, ?_⟩
  · rw [hdir]
    exact h.named.put (hid ▸ h.named _ _ hfile)
  · rw [hdir]
    exact h.single.put_version hfile (uid_version huid)
  · simp only [hat, hnext]
    exact h.bound
  · simp only [hat, hnext, hended]
    exact h.present
  · simp only [hat]
    exact fun u hu => h.out u (hout u hu)
  · rw [hnext]
    exact fun u hu => h.known u (hout u hu)
  · rcases hlog with hlog | ⟨hlog, -⟩
    · exact hlog ▸ h.inTurn
    · rw [hlog]
      exact h.inTurn.append fun _ _ he => by cases he
 | create id file hid hfree huid hname hdir hnext hended hlog htaken =>
  have hnew : ∀ n, ¬ At Node.uid s.dir n s.nextUid := fun n hn => lt_irrefl _ (h.bound n _ hn)
  have hat : ∀ n u, At Node.uid s'.dir n u ↔
    (n = getScriptPath id ∧ s.nextUid = u) ∨ (n ≠ getScriptPath id ∧ At Node.uid s.dir n u) :=
   fun n u => by simp only [hdir, at_put, Node.uid, huid, Option.some.injEq]
  refine ⟨?_, ?_, ?_, ?_, ?_, ?_, ?_⟩
  · rw [hdir]
    exact h.named.put (.inl ⟨hname ▸ hid, by rw [hname]⟩)
  · rw [hdir]
    exact h.single.put_new hnew (congrArg some huid)
  · intro n u hn
    rw [hnext]
    rcases (hat n u).1 hn with ⟨-, rfl⟩ | ⟨-, hn⟩
    · exact Nat.lt_succ_self _
    · exact Nat.lt_succ_of_lt (h.bound n u hn)
  · intro u hu hlive
    rw [hnext, Nat.lt_succ_iff_lt_or_eq] at hu
    rcases hu with hu | rfl
    · obtain ⟨n, hn⟩ := h.present u hu (hended ▸ hlive)
      refine ⟨n, (hat n u).2 (.inr ⟨?_, hn⟩)⟩
      rintro rfl
      simp [At, hfree] at hn
    · exact ⟨_, (hat _ _).2 (.inl ⟨rfl, rfl⟩)⟩
  · intro u hu n hn
    rw [hlog] at hu
    rcases (hat n u).1 hn with ⟨-, rfl⟩ | ⟨-, hn⟩
    · exact absurd (h.known _ hu) (lt_irrefl _)
    · exact h.out u hu n hn
  · rw [hlog, hnext]
    exact fun u hu => Nat.lt_succ_of_lt (h.known u hu)
  · exact hlog ▸ h.inTurn
 | drop name hdir hnext hended hlog htaken =>
  have hat : ∀ n u, At Node.uid s'.dir n u ↔ n ≠ name ∧ At Node.uid s.dir n u := fun n u => by
   rw [hdir, at_remove]
  refine ⟨?_, ?_, ?_, ?_, ?_, ?_, ?_⟩
  · rw [hdir]
    exact h.named.remove name
  · rw [hdir]
    exact h.single.remove name
  · intro n u hn
    rw [hnext]
    exact h.bound n u ((hat n u).1 hn).2
  · intro u hu hlive
    rw [hended, mem_append, not_or] at hlive
    obtain ⟨n, hn⟩ := h.present u (hnext ▸ hu) hlive.2
    refine ⟨n, (hat n u).2 ⟨?_, hn⟩⟩
    -- The script dropped is the one recorded.
    rintro rfl
    obtain ⟨_ | file, hx, huid⟩ := hn
    · rw [Node.uid, Option.some.injEq] at huid
      refine hlive.1 ?_
      rw [regularAt_eq_some.2 hx, ← huid]
      exact mem_singleton_self _
    · cases huid
  · intro u hu n hn
    exact h.out u (hlog ▸ hu) n ((hat n u).1 hn).2
  · rw [hlog, hnext]
    exact h.known
  · exact hlog ▸ h.inTurn
 | aside storage id name file file' hid hfile hname hfree huid hid' hdir hnext hended htook =>
  have hsome : (setAsideIdOf name).isSome := by rw [hname, Option.isSome_some]
  have hab := name_ne hid hsome
  have hx := uid_version huid
  have hat : ∀ n u, At Node.uid s'.dir n u ↔
    (n = name ∧ At Node.uid s.dir (getScriptPath id) u) ∨
     (n ≠ getScriptPath id ∧ n ≠ name ∧ At Node.uid s.dir n u) := fun n u => by
   rw [hdir, at_move hab hfile hx]
  have hhere : outOf s.log file.uid = false := by
   by_contra hout
   have hpath := h.out _ (by simpa using hout) _ (at_of_file hfile)
   rw [setAsideIdOf_getScriptPath hid] at hpath
   cases hpath
  have hout : ∀ u, outOf s'.log u = true → outOf s.log u = true ∨ u = file.uid := by
   intro u hu
   rcases htook with ⟨hlog, -⟩ | ⟨hlog, -⟩
   · exact .inl (hlog ▸ hu)
   · rw [hlog, outOf_took, Bool.or_eq_true, beq_iff_eq] at hu
     exact hu.imp_right Eq.symm
  refine ⟨?_, ?_, ?_, ?_, ?_, ?_, ?_⟩
  · rw [hdir]
    exact (h.named.remove _).put (.inr (hid' ▸ hname))
  · rw [hdir]
    exact h.single.move hab hfile hx
  · intro n u hn
    rw [hnext]
    rcases (hat n u).1 hn with ⟨-, hn⟩ | ⟨-, -, hn⟩
    · exact h.bound _ u hn
    · exact h.bound _ u hn
  · intro u hu hlive
    rw [hdir]
    exact move_keeps hab hfile hx hfree (h.present u (hnext ▸ hu) (hended ▸ hlive))
  · intro u hu n hn
    rcases (hat n u).1 hn with ⟨rfl, -⟩ | ⟨hpath, -, hn⟩
    · exact hsome
    · rcases hout u hu with hu | rfl
      · exact h.out u hu n hn
      · exact absurd (h.single _ _ _ hn (at_of_file hfile)) hpath
  · intro u hu
    rw [hnext]
    rcases hout u hu with hu | rfl
    · exact h.known u hu
    · exact h.bound _ _ (at_of_file hfile)
  · rcases htook with ⟨hlog, -⟩ | ⟨hlog, -⟩
    · exact hlog ▸ h.inTurn
    · rw [hlog]
      refine h.inTurn.append fun storage' uid he => ?_
      cases he
      exact hhere
 | back name id file file' hfile hname hid hfree huid hid' hdir hnext hended hlog htaken =>
  have hab := (name_ne hid hname).symm
  have hx := uid_version huid
  have hat : ∀ n u, At Node.uid s'.dir n u ↔
    (n = getScriptPath id ∧ At Node.uid s.dir name u) ∨
     (n ≠ name ∧ n ≠ getScriptPath id ∧ At Node.uid s.dir n u) := fun n u => by
   rw [hdir, at_move hab hfile hx]
  have hout : ∀ u, outOf s'.log u = true → outOf s.log u = true ∧ u ≠ file.uid := by
   intro u hu
   rw [hlog, outOf_putBack, Bool.and_eq_true, bne_iff_ne] at hu
   exact ⟨hu.1, hu.2.symm⟩
  refine ⟨?_, ?_, ?_, ?_, ?_, ?_, ?_⟩
  · rw [hdir]
    exact (h.named.remove _).put (.inl ⟨hid' ▸ hid, by rw [hid']⟩)
  · rw [hdir]
    exact h.single.move hab hfile hx
  · intro n u hn
    rw [hnext]
    rcases (hat n u).1 hn with ⟨-, hn⟩ | ⟨-, -, hn⟩
    · exact h.bound _ u hn
    · exact h.bound _ u hn
  · intro u hu hlive
    rw [hdir]
    exact move_keeps hab hfile hx hfree (h.present u (hnext ▸ hu) (hended ▸ hlive))
  · intro u hu n hn
    rcases (hat n u).1 hn with ⟨-, hn⟩ | ⟨-, -, hn⟩
    · obtain ⟨x, hx, hux⟩ := hn
      rw [hfile, Option.some.injEq] at hx
      subst hx
      exact absurd (Option.some.inj hux).symm (hout u hu).2
    · exact h.out u (hout u hu).1 n hn
  · intro u hu
    rw [hnext]
    exact h.known u (hout u hu).1
  · rw [hlog]
    exact h.inTurn.append fun _ _ he => by cases he

theorem Inv.step (h : Inv s) (url : UrlLibrary) (browserOf : ℕ → ℕ) (op : Op) :
  Inv (step url browserOf s op) := h.effect (step_effect url browserOf s op h.named)

/-! ## What is never replaced, and who holds a script -/

def NothingReplaced (s s' : State) : Prop :=
 ∀ name file', s'.dir name = some (.regular file') →
  s.dir name = none ∨ ∃ file, s.dir name = some (.regular file) ∧ file.uid = file'.uid

theorem nothingReplaced_put {name : Bytes} {file' : File}
  (hd : ∀ n, d n = none ∨ d n = s.dir n) (hdir : s'.dir = put d name (.regular file'))
  (h : s.dir name = none ∨ ∃ file, s.dir name = some (.regular file) ∧ file.uid = file'.uid) :
  NothingReplaced s s' := by
 intro n f hf
 by_cases hn : n = name
 · subst hn
   rw [hdir, put_self, Option.some.injEq, Node.regular.injEq] at hf
   exact hf ▸ h
 · rw [hdir, put_of_ne hn] at hf
   rcases hd n with hnone | heq
   · rw [hnone] at hf
     cases hf
   · exact .inr ⟨f, heq ▸ hf, rfl⟩

theorem remove_cases (d : Dir Bytes Node) (name n : Bytes) :
  remove d name n = none ∨ remove d name n = d n := by
 by_cases hn : n = name
 · exact .inl (hn ▸ remove_self)
 · exact .inr (remove_of_ne hn)

theorem Effect.nothingReplaced (h : Effect s s') : NothingReplaced s s' := by
 cases h with
 | quiet hdir => exact fun n f hf => .inr ⟨f, hdir ▸ hf, rfl⟩
 | version name file file' hfile huid hid hdir =>
  exact nothingReplaced_put (fun n => .inr rfl) hdir (.inr ⟨file, hfile, huid.symm⟩)
 | create id file hid hfree huid hname hdir =>
  exact nothingReplaced_put (fun n => .inr rfl) hdir (.inl hfree)
 | drop name hdir =>
  intro n f hf
  rw [hdir] at hf
  rcases remove_cases s.dir name n with hnone | heq
  · rw [hnone] at hf
    cases hf
  · exact .inr ⟨f, heq ▸ hf, rfl⟩
 | aside storage id name file file' hid hfile hname hfree huid hid' hdir =>
  exact nothingReplaced_put (remove_cases s.dir _) hdir (.inl hfree)
 | back name id file file' hfile hname hid hfree huid hid' hdir =>
  exact nothingReplaced_put (remove_cases s.dir _) hdir (.inl hfree)

def OneTaker (s : State) : Prop :=
 ∀ storage id file storage' id' file' u, s.taken storage id = some (file, u) →
  s.taken storage' id' = some (file', u) → storage = storage' ∧ id = id'

def PutBackUnheld (s s' : State) : Prop :=
 ∀ name path u, At Node.uid s.dir name u → (setAsideIdOf name).isSome → At Node.uid s'.dir path u →
  setAsideIdOf path = none → ∀ storage id file, s'.taken storage id ≠ some (file, u)

structure Held (s : State) : Prop where
 away : ∀ storage id file u, s.taken storage id = some (file, u) →
  u < s.nextUid ∧ ∀ name, At Node.uid s.dir name u → (setAsideIdOf name).isSome
 apart : OneTaker s

theorem Held.fewer (h : Held s) (htaken : Fewer s s')
  (hnext : s.nextUid ≤ s'.nextUid)
  (hat : ∀ name u, u < s.nextUid → (∃ storage id file, s'.taken storage id = some (file, u)) →
   At Node.uid s'.dir name u → At Node.uid s.dir name u ∨ (setAsideIdOf name).isSome) :
  Held s' := by
 refine ⟨?_, ?_⟩
 · intro storage id file u he
   obtain ⟨hu, haway⟩ := h.away storage id file u (htaken _ _ _ he)
   refine ⟨lt_of_lt_of_le hu hnext, fun name hname => ?_⟩
   rcases hat name u hu ⟨storage, id, file, he⟩ hname with hname | haside
   · exact haway name hname
   · exact haside
 · intro storage id file storage' id' file' u he he'
   exact h.apart storage id file storage' id' file' u (htaken _ _ _ he) (htaken _ _ _ he')

theorem Held.effect (h : Held s) (hinv : Inv s) (heffect : Effect s s')
  (hunheld : PutBackUnheld s s') : Held s' := by
 cases heffect with
 | quiet hdir hnext hended hlog htaken =>
  exact h.fewer htaken hnext.ge fun name u _ _ hname => .inl (hdir ▸ hname)
 | version name file file' hfile huid hid hdir hnext hended hlog htaken =>
  refine h.fewer htaken hnext.ge fun n u _ _ hn => .inl ?_
  rw [hdir] at hn
  exact (at_put_version hfile (uid_version huid)).1 hn
 | create id file hid hfree huid hname hdir hnext hended hlog htaken =>
  refine h.fewer htaken (hnext ▸ Nat.le_succ _) fun n u hu _ hn => .inl ?_
  rw [hdir, at_put] at hn
  rcases hn with ⟨-, hnew⟩ | ⟨-, hn⟩
  · rw [Node.uid, huid, Option.some.injEq] at hnew
    omega
  · exact hn
 | drop name hdir hnext hended hlog htaken =>
  refine h.fewer htaken hnext.ge fun n u _ _ hn => .inl ?_
  rw [hdir, at_remove] at hn
  exact hn.2
 | aside storage id name file file' hid hfile hname hfree huid hid' hdir hnext hended htook =>
  have hsome : (setAsideIdOf name).isSome := by rw [hname, Option.isSome_some]
  have hat : ∀ n u, At Node.uid s'.dir n u → n = name ∨ n ≠ getScriptPath id ∧ At Node.uid s.dir n u := by
   intro n u hn
   rw [hdir, at_move (name_ne hid hsome) hfile (uid_version huid)] at hn
   rcases hn with ⟨hn, -⟩ | ⟨hpath, -, hn⟩
   · exact .inl hn
   · exact .inr ⟨hpath, hn⟩
  rcases htook with ⟨-, htaken⟩ | ⟨-, -, htaken⟩
  · refine h.fewer htaken hnext.ge fun n u _ _ hn => ?_
    rcases hat n u hn with rfl | ⟨-, hn⟩
    · exact .inr hsome
    · exact .inl hn
  · -- Nobody had the script, which was under its own path.
    have hfresh : ∀ storage' id' f, s.taken storage' id' ≠ some (f, file.uid) := by
     intro storage' id' f he
     have hpath := (h.away _ _ _ _ he).2 _ (at_of_file hfile)
     rw [setAsideIdOf_getScriptPath hid] at hpath
     cases hpath
    refine ⟨?_, ?_⟩
    · intro storage' id' f u he
      rw [hnext]
      rcases htaken _ _ _ he with ⟨-, -, he⟩ | he
      · obtain ⟨rfl, rfl⟩ := Prod.mk.inj he
        refine ⟨hinv.bound _ _ (at_of_file hfile), fun n hn => ?_⟩
        rcases hat n _ hn with rfl | ⟨hpath, hn⟩
        · exact hsome
        · exact absurd (hinv.single _ _ _ hn (at_of_file hfile)) hpath
      · obtain ⟨hu, haway⟩ := h.away _ _ _ _ he
        refine ⟨hu, fun n hn => ?_⟩
        rcases hat n u hn with rfl | ⟨-, hn⟩
        · exact hsome
        · exact haway n hn
    · intro st i f st' i' f' u he he'
      rcases htaken _ _ _ he with ⟨rfl, rfl, hnew⟩ | hold
      · rcases htaken _ _ _ he' with ⟨rfl, rfl, -⟩ | hold'
        · exact ⟨rfl, rfl⟩
        · obtain ⟨-, rfl⟩ := Prod.mk.inj hnew
          exact absurd hold' (hfresh _ _ _)
      · rcases htaken _ _ _ he' with ⟨rfl, rfl, hnew'⟩ | hold'
        · obtain ⟨-, rfl⟩ := Prod.mk.inj hnew'
          exact absurd hold (hfresh _ _ _)
        · exact h.apart _ _ _ _ _ _ u hold hold'
 | back name id file file' hfile hname hid hfree huid hid' hdir hnext hended hlog htaken =>
  refine h.fewer htaken hnext.ge fun n u _ hheld hn => .inl ?_
  have hat := hdir ▸ hn
  rw [at_move (name_ne hid hname).symm hfile (uid_version huid)] at hat
  rcases hat with ⟨rfl, hu⟩ | ⟨-, -, hn⟩
  · obtain ⟨storage, id', f, he⟩ := hheld
    exact absurd he (hunheld name _ u hu hname hn (setAsideIdOf_getScriptPath hid) storage id' f)
  · exact hn

/-! ## Every run -/

/-- A directory before any call: each script is one file under its name, and nobody has taken any. -/
structure Ready (s : State) : Prop where
 named : AllNamed s.dir
 single : Single Node.uid s.dir
 bound : ∀ name u, At Node.uid s.dir name u → u < s.nextUid
 present : ∀ u < s.nextUid, u ∉ s.ended → ∃ name, At Node.uid s.dir name u
 untaken : ∀ storage id, s.taken storage id = none
 unlogged : s.log = []

theorem Ready.inv (h : Ready s) : Inv s where
 named := h.named
 single := h.single
 bound := h.bound
 present := h.present
 out u hu := by
  rw [h.unlogged] at hu
  cases hu
 known u hu := by
  rw [h.unlogged] at hu
  cases hu
 inTurn earlier storage uid later heq := by
  rw [h.unlogged] at heq
  exact absurd heq.symm (by simp)

theorem Ready.held (h : Ready s) : Held s where
 away storage id file u he := by
  rw [h.untaken] at he
  cases he
 apart storage id file storage' id' file' u he := by
  rw [h.untaken] at he
  cases he

def anyUrls : UrlLibrary := ⟨fun _ => none⟩

def onlyScript : State where
 dir name := if name = getScriptPath "a" then
  some (.regular ⟨0, "a", some [("id", .string "a")], 0⟩) else none
 nextUid := 1

theorem onlyScript_at {name : Bytes} {u : ℕ} :
  At Node.uid onlyScript.dir name u ↔ name = getScriptPath "a" ∧ u = 0 := by
 by_cases h : name = getScriptPath "a"
 · simp [At, onlyScript, h, Node.uid, eq_comm]
 · simp [At, onlyScript, h]

theorem onlyScript_ready : Ready onlyScript where
 named name file hfile := by
  simp only [onlyScript, Option.ite_none_right_eq_some, Option.some.injEq, Node.regular.injEq] at hfile
  obtain ⟨rfl, rfl⟩ := hfile
  exact .inl ⟨by decide +kernel, rfl⟩
 single name name' u h h' := by
  rw [onlyScript_at] at h h'
  exact h.1.trans h'.1.symm
 bound name u h := by
  rw [onlyScript_at] at h
  exact h.2 ▸ Nat.zero_lt_one
 present u hu _ := ⟨_, onlyScript_at.2 ⟨rfl, Nat.lt_one_iff.1 hu⟩⟩
 untaken _ _ := rfl
 unlogged := rfl

def twoBrowsers (storage : ℕ) : ℕ := if storage = 0 then 0 else 1

def slowMove : List Op := [
 .call 0 { tokens := [1] } (.take "a"),
 .call 1 { now := 61 } (.returnSetAside ⟨"a", setAsidePath "a" 1⟩),
 .call 2 { tokens := [2], now := 61 } (.take "a")]

end MoltBrowser.AutomationStorage
