import MoltBrowser.Bytes

set_option autoImplicit false

/-!
# Confirmation words (`voice_gesture.cc`, `confirmation_words_es.cc`)

Which word of a language's list an utterance is: the one said, its plural, the
word split in two, or the only word of the list that sounds like it.
-/
namespace MoltBrowser.ConfirmationWords

inductive Language where
 | english
 | spanish
 deriving DecidableEq, Repr

inductive HeardWord where
 | none
 | word (index : ℕ)
 | unsure
 deriving DecidableEq, Repr

/-- Code elsewhere: `spoken_text.cc`'s folding and the phonetic keys. -/
structure Phonetics where
 foldForComparison : Bytes → Bytes
 phoneticKeyFor : Language → Bytes → Bytes
 joinPhoneticKeys : Bytes → Bytes → Bytes
 phoneticBound : ℕ → ℕ
 phoneticDistance : Bytes → Bytes → ℕ → ℕ

def kMaxHeardBytes : ℕ := 200
def kMaxHeardWords : ℕ := 6
def kSureSoundAlikeMargin : ℕ := 1

def kWords : List Bytes :=
 ["harbor", "maple", "tiger", "lemon", "rocket", "garden", "basket", "dragon", "planet", "magnet",
  "pepper", "cactus", "falcon", "hammer", "lantern", "napkin", "orange", "umbrella", "bamboo",
  "cobalt", "eagle", "helmet", "turtle", "banjo", "fossil", "kayak", "lobster", "mango", "yogurt",
  "compass", "guitar", "lettuce", "whistle", "canyon", "butterfly", "gorilla", "macaroni",
  "sandwich", "strawberry", "tornado"].map utf8

def kAnswerWords : List Bytes :=
 ["yes", "no", "ok", "okay", "stop", "cancel", "block", "allow", "deny", "leave", "stay", "keep",
  "discard", "save", "never", "repeat", "help", "molt", "hey", "one", "two", "three", "four",
  "five", "six", "seven", "eight", "nine", "ten", "eleven", "twelve", "next", "back", "answer",
  "send", "yeah", "yep", "nope", "sure", "play", "pause", "open", "close", "reload", "please",
  "again", "what", "sorry", "wait", "delete", "remove", "dismiss", "later", "ignore", "confirm",
  "fine", "thanks", "thank", "not", "now", "type", "dont", "reply", "page", "here", "got",
  "password", "it", "is", "my"].map utf8

def kLeading : List Bytes := ["yes", "ok", "okay", "say", "its", "the", "a"].map utf8
def kTrailing : List Bytes := ["please", "thanks"].map utf8

def spanishConfirmationWords : List Bytes :=
 ["manzana", "tomate", "sombrero", "castillo", "molino", "jirafa", "caballo", "hormiga", "caracol",
  "platano", "chocolate", "martillo", "cactus", "ancla", "mochila", "tranvia", "camion",
  "tractor", "submarino", "delfin", "cangrejo", "langosta", "mapache", "arcoiris", "relampago",
  "linterna", "saxofon", "mosquito", "alfombra", "ascensor", "bizcocho", "yogur", "mermelada",
  "mantequilla", "almendra", "melocoton", "halcon", "tornillo", "pulsera", "salchicha"].map utf8

def spanishAnswerWords : List Bytes :=
 ["si", "no", "vale", "ok", "okay", "para", "alto", "cancela", "cancelar", "bloquea", "bloquear",
  "bloquearlo", "permite", "permitir", "permitirlo", "deniega", "denegar", "sal", "salir",
  "quedate", "quedarme", "quedar", "guarda", "guardar", "nunca", "descarta", "descartar", "borra",
  "borrar", "elimina", "eliminar", "repite", "ayuda", "molt", "oye", "hola", "hey", "uno", "una",
  "un", "dos", "tres", "cuatro", "cinco", "seis", "siete", "ocho", "nueve", "diez", "once",
  "doce", "siguiente", "atras", "responde", "respuesta", "responder", "envia", "enviar", "claro",
  "seguro", "sip", "pausa", "abre", "cierra", "cerrar", "recarga", "recargar", "favor", "por",
  "gracias", "otra", "vez", "que", "perdon", "espera", "ahora", "luego", "tarde", "ignora",
  "ignorar", "confirma", "confirmar", "bien", "venga", "dale", "nop", "escribe", "pagina", "aqui",
  "contrasena", "es", "mi", "eso", "esto", "acepta", "aceptar", "deja", "dejar", "di", "yes",
  "stop", "conservalo", "borralo", "ignoralo", "descartalo", "bloquealo", "cancelalo", "quedo",
  "permitas", "permitelo", "conserva", "conservar", "hagas", "quedarse", "conserves", "eliminalo",
  "recargala", "sitio", "contesta", "entendido", "este", "esta", "mas", "muchas", "pues", "de",
  "lo", "la", "me", "en", "eh", "em"].map utf8

def spanishConfirmationLeading : List Bytes :=
 ["si", "vale", "ok", "okay", "di", "es", "el", "la", "un", "una"].map utf8
def spanishConfirmationTrailing : List Bytes := ["por favor", "porfa", "gracias"].map utf8

structure WordTable where
 words : List Bytes
 answers : List Bytes
 leading : List Bytes
 trailing : List Bytes
 language : Language

def tableFor : Language → WordTable
 | .english => ⟨kWords, kAnswerWords, kLeading, kTrailing, .english⟩
 | .spanish =>
  ⟨spanishConfirmationWords, spanishAnswerWords, spanishConfirmationLeading,
   spanishConfirmationTrailing, .spanish⟩

def confirmationWords (language : Language) : List Bytes := (tableFor language).words

def trailingAt (trailing words : List Bytes) (first last : ℕ) : ℕ :=
 (trailing.findSome? fun phrase =>
  match phrase.findIdx? (· == 0x20) with
  | none => if last > first ∧ words[last - 1]? = some phrase then some 1 else none
  | some space =>
   if last > first + 1 ∧ words[last - 2]? = some (phrase.take space) ∧
     words[last - 1]? = some (phrase.drop (space + 1)) then some 2
   else none).getD 0

/-- The loop over `trailingAt`; each turn drops a word at least. -/
def dropTrailing (trailing words : List Bytes) (first : ℕ) : ℕ → ℕ → ℕ
 | 0, last => last
 | turns + 1, last =>
  let dropped := trailingAt trailing words first last
  if dropped = 0 then last else dropTrailing trailing words first turns (last - dropped)

def skipLeading (leading : List Bytes) : ℕ → List Bytes → ℕ
 | turns + 1, word :: rest =>
  if rest ≠ [] ∧ word ∈ leading then skipLeading leading turns rest + 1 else 0
 | _, _ => 0

def plural (table : WordTable) (word : Bytes) : Option ℕ :=
 let exact :=
  if word.length > 3 ∧ word.getLast? = some 0x73 then table.words.idxOf? word.dropLast else none
 match exact with
 | some index => some index
 | none =>
  if table.language = .spanish ∧ word.length > 4 ∧ (utf8 "es").isSuffixOf word then
   table.words.idxOf? (word.take (word.length - 2))
  else none

section Hear

variable (phonetics : Phonetics)

def splitFolded (heard : Bytes) (maxBytes maxWords : ℕ) : List Bytes :=
 (((phonetics.foldForComparison (heard.take maxBytes)).splitOn 0x20).filter (· ≠ [])).take
  (maxWords + 1)

/-- The loop of `SoundsLike`: `found` within the bound, `near` within it and the margin. -/
def soundsLikeFrom (language : Language) (key : Bytes) :
  List Bytes → ℕ → Option ℕ → ℕ → HeardWord
 | [], _, none, _ => .none
 | [], _, some index, near => if near = 1 then .word index else .unsure
 | word :: rest, i, found, near =>
  let wordKey := phonetics.phoneticKeyFor language word
  let bound := phonetics.phoneticBound (max key.length wordKey.length)
  let distance := phonetics.phoneticDistance key wordKey (bound + kSureSoundAlikeMargin)
  let near := if distance ≤ bound + kSureSoundAlikeMargin then near + 1 else near
  if distance ≤ bound then
   if found.isSome then .unsure else soundsLikeFrom language key rest (i + 1) (some i) near
  else soundsLikeFrom language key rest (i + 1) found near

def soundsLike (table : WordTable) (key : Bytes) : HeardWord :=
 if key = [] then .none else soundsLikeFrom phonetics table.language key table.words 0 none 0

def hearOne (table : WordTable) (word : Bytes) : HeardWord :=
 match table.words.idxOf? word with
 | some index => .word index
 | none =>
  match plural table word with
  | some index => .word index
  | none =>
   if word ∈ table.answers then .none
   else soundsLike phonetics table (phonetics.phoneticKeyFor table.language word)

def hearTwo (table : WordTable) (one two : Bytes) : HeardWord :=
 match table.words.idxOf? (one ++ two) with
 | some index => .word index
 | none =>
  if one ∈ table.answers ∨ two ∈ table.answers then .none
  else
   let a := phonetics.phoneticKeyFor table.language one
   let b := phonetics.phoneticKeyFor table.language two
   if a ≠ [] ∧ b ≠ [] then soundsLike phonetics table (phonetics.joinPhoneticKeys a b)
   else .none

def hearIn (table : WordTable) (heard : Bytes) : HeardWord :=
 let words := splitFolded phonetics heard kMaxHeardBytes kMaxHeardWords
 if words = [] ∨ words.length > kMaxHeardWords then .none
 else
  let first := skipLeading table.leading 2 words
  let last := dropTrailing table.trailing words (first + 1) words.length words.length
  match (words.take last).drop first with
  | [word] => hearOne phonetics table word
  | [one, two] => hearTwo phonetics table one two
  | _ => .none

def hearConfirmationWord (heard : Bytes) (language : Language) : HeardWord :=
 hearIn phonetics (tableFor language) heard

/-! ### A word heard is a word of the list -/

theorem idxOf_lt {words : List Bytes} {word : Bytes} {index : ℕ}
  (h : words.idxOf? word = some index) : index < words.length := by
 rw [List.idxOf?, List.findIdx?_eq_some_iff_getElem] at h
 exact h.1

theorem plural_lt {table : WordTable} {word : Bytes} {index : ℕ}
  (h : plural table word = some index) : index < table.words.length := by
 unfold plural at h
 dsimp only at h
 split at h
 · next found hexact =>
   rw [Option.some.injEq] at h
   subst h
   split at hexact
   · exact idxOf_lt hexact
   · exact absurd hexact (by simp)
 · split at h
   · exact idxOf_lt h
   · exact absurd h (by simp)

theorem soundsLikeFrom_lt {language : Language} {key : Bytes} {words : List Bytes} {i near : ℕ}
  {found : Option ℕ} {index : ℕ} (hfound : ∀ k ∈ found, k < i + words.length)
  (h : soundsLikeFrom phonetics language key words i found near = .word index) :
  index < i + words.length := by
 induction words generalizing i found near with
 | nil =>
  cases found with
  | none => exact absurd h (by simp [soundsLikeFrom])
  | some k =>
   rw [soundsLikeFrom] at h
   split at h
   · rw [HeardWord.word.injEq] at h
     exact h ▸ hfound k rfl
   · exact absurd h (by simp)
 | cons word rest ih =>
  have hlen : i + (word :: rest).length = i + 1 + rest.length := by
   simp only [List.length_cons]
   omega
  rw [hlen] at hfound ⊢
  rw [soundsLikeFrom] at h
  split at h
  · split at h
    · exact absurd h (by simp)
    · refine ih (fun k hk => ?_) h
      rw [← Option.some.inj hk]
      omega
  · exact ih hfound h

theorem soundsLike_lt {table : WordTable} {key : Bytes} {index : ℕ}
  (h : soundsLike phonetics table key = .word index) : index < table.words.length := by
 unfold soundsLike at h
 split at h
 · exact absurd h (by simp)
 · simpa using soundsLikeFrom_lt phonetics (by simp) h

theorem hearConfirmationWord_lt {heard : Bytes} {language : Language} {index : ℕ}
  (h : hearConfirmationWord phonetics heard language = .word index) :
  index < (confirmationWords language).length := by
 unfold hearConfirmationWord hearIn at h
 dsimp only at h
 split at h
 · exact absurd h (by simp)
 · split at h
   · unfold hearOne at h
     split at h
     · next hexact => exact HeardWord.word.inj h ▸ idxOf_lt hexact
     · split at h
       · next hplural => exact HeardWord.word.inj h ▸ plural_lt hplural
       · split at h
         · exact absurd h (by simp)
         · exact soundsLike_lt phonetics h
   · unfold hearTwo at h
     split at h
     · next hexact => exact HeardWord.word.inj h ▸ idxOf_lt hexact
     · split at h
       · exact absurd h (by simp)
       · dsimp only at h
         split at h
         · exact soundsLike_lt phonetics h
         · exact absurd h (by simp)
   · exact absurd h (by simp)

end Hear

end MoltBrowser.ConfirmationWords
