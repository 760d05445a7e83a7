import Revix.LenientBase64
import Revix.SandboxRuns
import Revix.TextSearch
import Revix.WebhookRequests

/-! `github_app_private_key`. What `is_file` and `read_text` make of a path is an argument. -/
namespace Revix
open Infixes

inductive KeyFile
  /-- `is_file()` is false. -/
  | absent
  | text (s : String)
  /-- It cannot be read, with a `ValueError` such as a `UnicodeDecodeError` or another exception. -/
  | unreadable (isValueError : Bool) (text : String)

structure KeyError where
  isValueError : Bool
  text : String

structure KeySources where
  githubAppPrivateKeyPath : Option String := none
  githubAppPrivateKeyB64 : Option String := none
  githubAppPrivateKey : Option String := none

/-- `s.strip(chars)` -/
def stripEnds (drops : Char → Bool) (s : List Char) : List Char :=
  ((s.dropWhile drops).reverse.dropWhile drops).reverse

def normalizePem (keyText : String) : String :=
  let unescaped := (replace "\\n" "\n" keyText).toList
  strip (String.ofList (stripEnds (· = '\'') (stripEnds (· = '"') unescaped)))

/-- `str(e)` for an exception of `b64decode`. -/
def base64Error : LenientBase64.DecodeError → String
  | .singleDigit count => "Invalid base64-encoded string: number of data characters (" ++
      toString count ++ ") cannot be 1 more than a multiple of 4"
  | .padding => "Incorrect padding"

def b64decode (s : String) : Except String ByteArray :=
  if isAscii s then
    match LenientBase64.decode s.toList with
    | .ok bytes => .ok ⟨bytes.toArray⟩
    | .error e => .error (base64Error e)
  else .error "string argument should contain only ASCII characters"

section Resolution

variable (undecodable : ByteArray → String) (files : String → KeyFile)

/-- The key in a file; `missing` is the error when there is none. -/
def readKey (path missing : String) : Except KeyError String :=
  match files path with
  | .absent => .error ⟨true, missing⟩
  | .text s => .ok (normalizePem s)
  | .unreadable isValueError text => .error ⟨isValueError, text⟩

def githubAppPrivateKey (sources : KeySources) : Except KeyError String :=
  match sources.githubAppPrivateKey.filter (· ≠ "") with
  | some keyText => .ok (normalizePem keyText)
  | none =>
    match sources.githubAppPrivateKeyPath.filter (fun path => strip path ≠ "") with
    | some path => readKey files (strip path) ("GitHub private key file not found at: " ++ path)
    | none =>
      match sources.githubAppPrivateKeyB64.filter (· ≠ "") with
      | some encoded =>
        match b64decode encoded >>= decodeBytes undecodable with
        | .ok decoded => .ok (normalizePem decoded)
        | .error e =>
          .error ⟨true, "Invalid Base64 in GITHUB_APP_PRIVATE_KEY_B64: " ++ e⟩
      | none => readKey files "github_private_key.pem"
          ("GitHub App Private Key is missing. Set GITHUB_APP_PRIVATE_KEY_PATH, " ++
          "GITHUB_APP_PRIVATE_KEY_B64, GITHUB_APP_PRIVATE_KEY, or place github_private_key.pem " ++
          "in the project root.")

end Resolution

/-- A text in which some line breaks may have been written as `\n`. -/
inductive Escaped : List Char → List Char → Prop
  | nil : Escaped [] []
  | keep {text s : List Char} (c : Char) (h : Escaped text s) : Escaped (c :: text) (c :: s)
  | lineBreak {text s : List Char} (h : Escaped text s) :
      Escaped ('\\' :: 'n' :: text) ('\n' :: s)

/-- Nothing of the key is a quote or white space around it, or an escaped line break. -/
structure Whole (k : List Char) : Prop where
  ne_nil : k ≠ []
  first : ∀ c ∈ k.head?, isSpace c = false ∧ c ≠ '"' ∧ c ≠ '\''
  last : ∀ c ∈ k.getLast?, isSpace c = false ∧ c ≠ '"' ∧ c ≠ '\''
  unescaped : ¬['\\', 'n'] <:+: k

/-- The key with white space around it, that in single quotes and that in double quotes, each as
often as one likes, and line breaks that may be escaped. -/
def Wraps (text k : List Char) : Prop :=
  ∃ d s w w' s' d' : List Char, Escaped text (d ++ (s ++ (w ++ k ++ w') ++ s') ++ d') ∧
    (∀ c ∈ d ++ d', c = '"') ∧ (∀ c ∈ s ++ s', c = '\'') ∧ ∀ c ∈ w ++ w', isSpace c = true

section Unescape

variable {text s l r k : List Char}

theorem escaped_replaceChars (text : List Char) :
    Escaped text (replaceChars ['\\', 'n'] ['\n'] 0 text) := by
  induction hn : text.length using Nat.strong_induction_on generalizing text with
  | _ n ih =>
    cases text with
    | nil => exact .nil
    | cons c cs =>
      by_cases hp : ['\\', 'n'] <+: c :: cs
      · obtain ⟨rest, hrest⟩ := hp
        have hcs : c :: cs = ['\\', 'n'] ++ rest := hrest.symm
        rw [hcs, replaceChars_prefix (by simp)]
        refine .lineBreak (ih rest.length ?_ rest rfl)
        rw [← hn, hcs, List.length_append]
        simp only [List.length_cons, List.length_nil]
        omega
      · rw [replaceChars_cons hp]
        exact .keep c (ih cs.length (by simp [← hn]) cs rfl)

theorem Escaped.head_eq {c : Char} (h : Escaped (c :: text) s) (hc : c ≠ '\\') :
    ∃ s', s = c :: s' := by
  cases h with
  | keep c h => exact ⟨_, rfl⟩
  | lineBreak h => exact absurd rfl hc

/-- A text that has no `\n` of its own is recovered. -/
theorem replaceChars_of_escaped (h : Escaped text s) (hs : ¬['\\', 'n'] <:+: s) :
    replaceChars ['\\', 'n'] ['\n'] 0 text = s := by
  induction h with
  | nil => rfl
  | @keep text s c h ih =>
    have hp : ¬['\\', 'n'] <+: c :: text := by
      rintro ⟨rest, hrest⟩
      obtain ⟨rfl, rfl⟩ : '\\' = c ∧ 'n' :: rest = text := by simpa using hrest
      obtain ⟨s', rfl⟩ := h.head_eq (by decide)
      exact hs (List.prefix_append ['\\', 'n'] s').isInfix
    rw [replaceChars_cons hp, ih fun hin => hs (List.infix_cons_iff.2 (.inr hin))]
  | @lineBreak text s h ih =>
    have hstep : replaceChars ['\\', 'n'] ['\n'] 0 ('\\' :: 'n' :: text) =
        '\n' :: replaceChars ['\\', 'n'] ['\n'] 0 text :=
      replaceChars_prefix (by simp) ['\n'] text
    rw [hstep, ih fun hin => hs (List.infix_cons_iff.2 (.inr hin))]

theorem not_escape_infix (hk : ¬['\\', 'n'] <:+: k) (hl : '\\' ∉ l) (hr : 'n' ∉ r) :
    ¬['\\', 'n'] <:+: l ++ k ++ r := by
  intro h
  have hmarker : ['\\'] ++ ['n'] <:+: l ++ k ++ r := h
  have hfront := (infix_append_of_last hr).1 hmarker
  exact hk (infix_of_head_not_mem hl hfront)

end Unescape

section Strip

variable {drops : Char → Bool} {s t l r k : List Char}

theorem dropWhile_eq_iff : s.dropWhile drops = t ↔ (∀ c ∈ t.head?, drops c = false) ∧
    ∃ l, s = l ++ t ∧ ∀ c ∈ l, drops c = true := by
  constructor
  · rintro rfl
    refine ⟨fun c hc => ?_, s.takeWhile drops, (List.takeWhile_append_dropWhile).symm,
      fun c hc => List.mem_takeWhile_imp hc⟩
    have hhead := List.head?_dropWhile_not drops s
    rw [Option.mem_def] at hc
    rwa [hc] at hhead
  · rintro ⟨hfirst, l, rfl, hl⟩
    rw [List.dropWhile_append_of_pos hl]
    cases t with
    | nil => rfl
    | cons c cs => exact List.dropWhile_cons_of_neg (by simp [hfirst c rfl])

theorem stripEnds_eq_iff (hne : t ≠ []) : stripEnds drops s = t ↔
    ((∀ c ∈ t.head?, drops c = false) ∧ ∀ c ∈ t.getLast?, drops c = false) ∧
      ∃ l r, s = l ++ t ++ r ∧ ∀ c ∈ l ++ r, drops c = true := by
  rw [stripEnds, List.reverse_eq_iff, dropWhile_eq_iff, List.head?_reverse]
  constructor
  · rintro ⟨hlast, r, hr, hdrops⟩
    rw [List.reverse_eq_iff, List.reverse_append, List.reverse_reverse] at hr
    obtain ⟨hfirst, l, rfl, hl⟩ := dropWhile_eq_iff.1 hr
    refine ⟨⟨fun c hc => hfirst c ?_, hlast⟩, l, r.reverse, by simp, fun c hc => ?_⟩
    · rw [List.head?_append_of_ne_nil _ hne]
      exact hc
    · rcases List.mem_append.1 hc with hc | hc
      · exact hl c hc
      · exact hdrops c (List.mem_reverse.1 hc)
  · rintro ⟨⟨hfirst, hlast⟩, l, r, rfl, hdrops⟩
    refine ⟨hlast, r.reverse, ?_, fun c hc => hdrops c (by simp_all)⟩
    rw [List.reverse_eq_iff, List.reverse_append, List.reverse_reverse, List.reverse_reverse]
    refine dropWhile_eq_iff.2 ⟨?_, l, by simp, fun c hc => hdrops c (by simp [hc])⟩
    rw [List.head?_append_of_ne_nil _ hne]
    exact hfirst

/-- What stands first around something is either the first of it or before it. -/
theorem mem_head?_around {c : Char} (hne : k ≠ []) (h : c ∈ (l ++ k ++ r).head?) :
    c ∈ l ∨ c ∈ k.head? := by
  cases l with
  | nil =>
    rw [List.nil_append, List.head?_append_of_ne_nil _ hne] at h
    exact .inr h
  | cons x l =>
    cases h
    exact .inl (.head _)

theorem mem_getLast?_around {c : Char} (hne : k ≠ []) (h : c ∈ (l ++ k ++ r).getLast?) :
    c ∈ r ∨ c ∈ k.getLast? := by
  rw [← List.head?_reverse, List.reverse_append, List.reverse_append, ← List.append_assoc] at h
  have haround := mem_head?_around (by simpa using hne) h
  simpa using haround

end Strip

section Normalizing

variable {text k : List Char} {d d' s s' w w' : List Char}

theorem toList_normalizePem (keyText : String) : (normalizePem keyText).toList =
    stripEnds isSpace (stripEnds (· = '\'') (stripEnds (· = '"')
      (replaceChars ['\\', 'n'] ['\n'] 0 keyText.toList))) := by
  simp only [normalizePem, strip, replace, String.toList_ofList]
  rfl

theorem Whole.around_ne_nil (hk : Whole k) : d ++ k ++ d' ≠ [] := by
  simp [hk.ne_nil]

/-- The white space and the quotes are taken away from the outside inwards. -/
theorem stripEnds_around (hk : Whole k) (hd : ∀ c ∈ d ++ d', c = '"')
    (hs : ∀ c ∈ s ++ s', c = '\'') (hw : ∀ c ∈ w ++ w', isSpace c = true) :
    stripEnds isSpace (stripEnds (· = '\'') (stripEnds (· = '"')
      (d ++ (s ++ (w ++ k ++ w') ++ s') ++ d'))) = k := by
  have hspace : stripEnds isSpace (w ++ k ++ w') = k :=
    (stripEnds_eq_iff hk.ne_nil).2
      ⟨⟨fun c hc => (hk.first c hc).1, fun c hc => (hk.last c hc).1⟩, w, w', rfl, hw⟩
  have hnotSpace : ∀ c ∈ w ++ w', c ≠ '"' ∧ c ≠ '\'' := by
    intro c hc
    have hcs := hw c hc
    constructor <;> rintro rfl <;> exact absurd hcs (by decide)
  have hne : w ++ k ++ w' ≠ [] := hk.around_ne_nil
  have hfirst : ∀ c ∈ (w ++ k ++ w').head?, c ≠ '"' ∧ c ≠ '\'' := fun c hc =>
    (mem_head?_around hk.ne_nil hc).elim (fun h => hnotSpace c (by simp [h]))
      fun h => (hk.first c h).2
  have hlast : ∀ c ∈ (w ++ k ++ w').getLast?, c ≠ '"' ∧ c ≠ '\'' := fun c hc =>
    (mem_getLast?_around hk.ne_nil hc).elim (fun h => hnotSpace c (by simp [h]))
      fun h => (hk.last c h).2
  have hsingle : stripEnds (· = '\'') (s ++ (w ++ k ++ w') ++ s') = w ++ k ++ w' := by
    refine (stripEnds_eq_iff hne).2 ⟨⟨fun c hc => ?_, fun c hc => ?_⟩, s, s', rfl, ?_⟩
    · simpa using (hfirst c hc).2
    · simpa using (hlast c hc).2
    · simpa using hs
  have hdouble : stripEnds (· = '"') (d ++ (s ++ (w ++ k ++ w') ++ s') ++ d') =
      s ++ (w ++ k ++ w') ++ s' := by
    have hnotDouble : ∀ c ∈ s ++ s', c ≠ '"' := fun c hc => by
      rw [hs c hc]
      decide
    refine (stripEnds_eq_iff (by simp [hk.ne_nil])).2
      ⟨⟨fun c hc => ?_, fun c hc => ?_⟩, d, d', rfl, ?_⟩
    · have hc' : c ≠ '"' := (mem_head?_around hne hc).elim
        (fun h => hnotDouble c (by simp [h])) fun h => (hfirst c h).1
      simpa using hc'
    · have hc' : c ≠ '"' := (mem_getLast?_around hne hc).elim
        (fun h => hnotDouble c (by simp [h])) fun h => (hlast c h).1
      simpa using hc'
    · simpa using hd
  rw [hdouble, hsingle, hspace]

/-- The texts that are taken for a key. -/
theorem normalizePem_eq_iff {keyText key : String} (hk : Whole key.toList) :
    normalizePem keyText = key ↔ Wraps keyText.toList key.toList := by
  rw [← String.toList_inj, toList_normalizePem]
  constructor
  · intro h
    obtain ⟨-, w, w', hsingle, hw⟩ := (stripEnds_eq_iff hk.ne_nil).1 h
    obtain ⟨-, s, s', hdouble, hs⟩ := (stripEnds_eq_iff hk.around_ne_nil).1 hsingle
    have hne : s ++ (w ++ key.toList ++ w') ++ s' ≠ [] := by simp [hk.ne_nil]
    obtain ⟨-, d, d', hunescaped, hd⟩ := (stripEnds_eq_iff hne).1 hdouble
    refine ⟨d, s, w, w', s', d', ?_, by simpa using hd, by simpa using hs, hw⟩
    rw [← hunescaped]
    exact escaped_replaceChars keyText.toList
  · rintro ⟨d, s, w, w', s', d', htext, hd, hs, hw⟩
    have hforeign : ∀ c ∈ d ++ s ++ w ++ (w' ++ s' ++ d'), c ≠ '\\' ∧ c ≠ 'n' := by
      intro c hc
      have hc : c = '"' ∨ c = '\'' ∨ isSpace c = true := by
        simp only [List.mem_append] at hc hd hs hw
        rcases hc with ((hc | hc) | hc) | (hc | hc) | hc
        · exact .inl (hd c (.inl hc))
        · exact .inr (.inl (hs c (.inl hc)))
        · exact .inr (.inr (hw c (.inl hc)))
        · exact .inr (.inr (hw c (.inr hc)))
        · exact .inr (.inl (hs c (.inr hc)))
        · exact .inl (hd c (.inr hc))
      rcases hc with rfl | rfl | hc
      · decide
      · decide
      · constructor <;> rintro rfl <;> exact absurd hc (by decide)
    have hunescaped : ¬['\\', 'n'] <:+: d ++ s ++ w ++ key.toList ++ (w' ++ s' ++ d') :=
      not_escape_infix hk.unescaped
        (fun hc => (hforeign _ (List.mem_append_left _ hc)).1 rfl)
        fun hc => (hforeign _ (List.mem_append_right _ hc)).2 rfl
    rw [replaceChars_of_escaped htext (by simpa using hunescaped), stripEnds_around hk hd hs hw]

end Normalizing

def Unset (setting : Option String) : Prop := ∀ s, setting = some s → s = ""

/-- There is no path. -/
def Blank (path : Option String) : Prop := ∀ s, path = some s → strip s = ""

/-- The text in the first place that is set. -/
inductive KeySources.Offers (undecodable : ByteArray → String) (files : String → KeyFile)
    (sources : KeySources) : String → Prop
  | key {text : String} (h : sources.githubAppPrivateKey = some text) (hne : text ≠ "") :
      sources.Offers undecodable files text
  | file {path text : String} (hkey : Unset sources.githubAppPrivateKey)
      (h : sources.githubAppPrivateKeyPath = some path) (hne : strip path ≠ "")
      (hfile : files (strip path) = .text text) : sources.Offers undecodable files text
  | encoded {s text : String} (hkey : Unset sources.githubAppPrivateKey)
      (hpath : Blank sources.githubAppPrivateKeyPath) (h : sources.githubAppPrivateKeyB64 = some s)
      (hne : s ≠ "") (hdecoded : b64decode s >>= decodeBytes undecodable = .ok text) :
      sources.Offers undecodable files text
  | projectRoot {text : String} (hkey : Unset sources.githubAppPrivateKey)
      (hpath : Blank sources.githubAppPrivateKeyPath) (hb64 : Unset sources.githubAppPrivateKeyB64)
      (hfile : files "github_private_key.pem" = .text text) : sources.Offers undecodable files text

section Resolving

variable {undecodable : ByteArray → String} {files : String → KeyFile} {sources : KeySources}

theorem filter_eq_none_of_unset {setting : Option String} (h : Unset setting) :
    setting.filter (· ≠ "") = none := by
  cases setting with
  | none => rfl
  | some s => simp [h s rfl]

theorem unset_of_filter_eq_none {setting : Option String}
    (h : setting.filter (· ≠ "") = none) : Unset setting := by
  rintro s rfl
  simpa using h

theorem filter_eq_none_of_blank {path : Option String} (h : Blank path) :
    path.filter (fun path => strip path ≠ "") = none := by
  cases path with
  | none => rfl
  | some s => simp [h s rfl]

theorem blank_of_filter_eq_none {path : Option String}
    (h : path.filter (fun path => strip path ≠ "") = none) : Blank path := by
  rintro s rfl
  simpa using h

theorem readKey_eq_ok_iff {path missing key : String} :
    readKey files path missing = .ok key ↔
      ∃ text, files path = .text text ∧ normalizePem text = key := by
  unfold readKey
  cases files path with
  | absent => simp
  | text s => simp
  | unreadable isValueError text => simp

theorem githubAppPrivateKey_eq_ok_iff {key : String} :
    githubAppPrivateKey undecodable files sources = .ok key ↔
      ∃ text, sources.Offers undecodable files text ∧ normalizePem text = key := by
  constructor
  · intro h
    unfold githubAppPrivateKey at h
    split at h
    · rename_i keyText hset
      obtain ⟨hset, hne⟩ := Option.filter_eq_some_iff.1 hset
      exact ⟨keyText, .key hset (by simpa using hne), by simpa using h⟩
    rename_i hkey
    replace hkey := unset_of_filter_eq_none hkey
    split at h
    · rename_i path hset
      obtain ⟨hset, hne⟩ := Option.filter_eq_some_iff.1 hset
      obtain ⟨text, hfile, htext⟩ := readKey_eq_ok_iff.1 h
      exact ⟨text, .file hkey hset (by simpa using hne) hfile, htext⟩
    rename_i hpath
    replace hpath := blank_of_filter_eq_none hpath
    split at h
    · rename_i s hset
      obtain ⟨hset, hne⟩ := Option.filter_eq_some_iff.1 hset
      split at h
      · rename_i decoded hdecoded
        exact ⟨decoded, .encoded hkey hpath hset (by simpa using hne) hdecoded, by simpa using h⟩
      · cases h
    · rename_i hb64
      obtain ⟨text, hfile, htext⟩ := readKey_eq_ok_iff.1 h
      exact ⟨text, .projectRoot hkey hpath (unset_of_filter_eq_none hb64) hfile, htext⟩
  · rintro ⟨text, hoffers, rfl⟩
    unfold githubAppPrivateKey
    cases hoffers with
    | key h hne =>
      simp only [h, Option.filter_some, hne, ne_eq, not_false_eq_true, decide_true, if_true]
    | file hkey h hne hfile =>
      simp only [filter_eq_none_of_unset hkey, h, Option.filter_some, hne, ne_eq,
        not_false_eq_true, decide_true, if_true]
      exact readKey_eq_ok_iff.2 ⟨text, hfile, rfl⟩
    | encoded hkey hpath h hne hdecoded =>
      simp only [filter_eq_none_of_unset hkey, filter_eq_none_of_blank hpath, h,
        Option.filter_some, hne, ne_eq, not_false_eq_true, decide_true, if_true, hdecoded]
    | projectRoot hkey hpath hb64 hfile =>
      simp only [filter_eq_none_of_unset hkey, filter_eq_none_of_blank hpath,
        filter_eq_none_of_unset hb64]
      exact readKey_eq_ok_iff.2 ⟨text, hfile, rfl⟩

/-- The key is found exactly when the first place that is set has it, however it is wrapped. -/
theorem key_found_iff (undecodable : ByteArray → String) (files : String → KeyFile)
    (sources : KeySources) {key : String} (hk : Whole key.toList) :
    githubAppPrivateKey undecodable files sources = .ok key ↔
      ∃ text, sources.Offers undecodable files text ∧ Wraps text.toList key.toList := by
  rw [githubAppPrivateKey_eq_ok_iff]
  exact exists_congr fun text => and_congr_right fun _ => normalizePem_eq_iff hk

theorem decodeBytes_toUTF8 (text : String) : decodeBytes undecodable text.toUTF8 = .ok text := by
  rw [decodeBytes, String.fromUTF8?, String.toUTF8_eq_toByteArray, dif_pos text.isValidUTF8]
  rfl

/-- Foreign characters may stand anywhere in the Base64 of a text. -/
theorem b64decode_of_filter {encoded text : String} (hascii : isAscii encoded = true)
    (h : encoded.toList.filter LenientBase64.isBase64 =
      LenientBase64.encode text.toUTF8.data.toList) :
    b64decode encoded = .ok text.toUTF8 := by
  rw [b64decode, if_pos hascii, LenientBase64.decode_of_filter h]

theorem Wraps.ne_empty {text : String} {k : List Char} (h : Wraps text.toList k) (hk : Whole k) :
    text ≠ "" := by
  rintro rfl
  obtain ⟨d, s, w, w', s', d', htext, -⟩ := h
  generalize hwrapped : d ++ (s ++ (w ++ k ++ w') ++ s') ++ d' = wrapped at htext
  cases htext
  exact hk.ne_nil (by simp_all)

/-- A key in Base64 is found however it is wrapped and wherever the lines of the Base64 end. -/
theorem base64_key_found (undecodable : ByteArray → String) (files : String → KeyFile)
    {sources : KeySources} (hkey : Unset sources.githubAppPrivateKey)
    (hpath : Blank sources.githubAppPrivateKeyPath) {encoded text key : String}
    (hset : sources.githubAppPrivateKeyB64 = some encoded) (hascii : isAscii encoded = true)
    (hencoded : encoded.toList.filter LenientBase64.isBase64 =
      LenientBase64.encode text.toUTF8.data.toList)
    (hk : Whole key.toList) (hwraps : Wraps text.toList key.toList) :
    githubAppPrivateKey undecodable files sources = .ok key := by
  refine githubAppPrivateKey_eq_ok_iff.2 ⟨text, ?_, (normalizePem_eq_iff hk).2 hwraps⟩
  have hdecoded := b64decode_of_filter hascii hencoded
  refine .encoded hkey hpath hset ?_ ?_
  · rintro rfl
    have hbytes : ByteArray.empty = text.toUTF8 := Except.ok.inj hdecoded
    have htext : (.ok "" : Except String String) = .ok text := by
      rw [← @decodeBytes_toUTF8 undecodable text, ← hbytes]
      rfl
    exact hwraps.ne_empty hk (Except.ok.inj htext).symm
  · rw [hdecoded]
    exact decodeBytes_toUTF8 text

end Resolving

namespace Sample

def privateKey : String := "-BEGIN\nEND-"

/-- The key in quotes, with its line break escaped. -/
def quotedKey : String := "\"-BEGIN\\nEND-\""

/-- The Base64 of `quotedKey`, in two lines. -/
def encodedKey : String := "Ii1CRUdJ\nTlxuRU5ELSI=\n"

theorem whole_privateKey : Whole privateKey.toList where
  ne_nil := by decide
  first := by rintro c ⟨⟩; decide
  last := by rintro c ⟨⟩; decide
  unescaped := by decide

theorem wraps_quotedKey : Wraps quotedKey.toList privateKey.toList :=
  (normalizePem_eq_iff whole_privateKey).1 (by decide)

end Sample

theorem key_found_iff_quoted : ∃ text,
    KeySources.Offers (fun _ => "") (fun _ => .absent)
      { githubAppPrivateKey := some Sample.quotedKey } text ∧
      Wraps text.toList Sample.privateKey.toList :=
  (key_found_iff _ _ _ Sample.whole_privateKey).1 rfl

theorem base64_key_found_twoLines :
    githubAppPrivateKey (fun _ => "") (fun _ => .absent)
      { githubAppPrivateKeyB64 := some Sample.encodedKey } = .ok Sample.privateKey :=
  base64_key_found _ _ (by rintro s ⟨⟩) (by rintro s ⟨⟩) rfl (by decide) (by decide)
    Sample.whole_privateKey Sample.wraps_quotedKey

end Revix
