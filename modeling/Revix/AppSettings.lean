import Revix.PrivateKeys
import Revix.WebhookProvenance

namespace Revix
open EffectPrograms

/-- The fields of `Settings` that are validated, and those that the pool of connections is for. -/
structure AppSettings extends KeySources where
  aiModelMap : String := "openrouter/google/gemini-3.1-flash-lite"
  aiModelReduce : String := "openrouter/google/gemini-3.1-flash-lite"
  aiApiKey : Option String := none
  openrouterApiKey : Option String := none
  githubAppId : ℤ := 0
  githubWebhookSecret : String := ""
  dbPoolMinSize : ℤ := 10
  workerConcurrency : ℤ := 5

/-- `not setting` -/
def isUnset (setting : Option String) : Bool := setting.all (· = "")

/-- The gateway's prefix, and the slug that is paid for. -/
def routedModel (model : String) : String :=
  let model := if "minimax/".toList.isPrefixOf model.toList then "openrouter/" ++ model else model
  if occursIn "minimax-m3:free".toList model.toList then replace ":free" "" model else model

/-- The fields that `validate_setup` fills in. -/
def AppSettings.completed (s : AppSettings) : AppSettings :=
  { s with
    aiApiKey := if isUnset s.aiApiKey && !isUnset s.openrouterApiKey then s.openrouterApiKey
      else s.aiApiKey
    aiModelMap := routedModel s.aiModelMap
    aiModelReduce := routedModel s.aiModelReduce }

/-- The errors of the checks before that of the private key. -/
def AppSettings.missing (s : AppSettings) : List String :=
  (if isUnset s.aiApiKey then ["❌ AI_API_KEY is missing."] else []) ++
    (if s.githubAppId = 0 then ["❌ GITHUB_APP_ID is missing."] else []) ++
    (if s.githubWebhookSecret = "" then ["❌ GITHUB_WEBHOOK_SECRET is missing."] else [])

section Validation

variable (undecodable : ByteArray → String) (files : String → KeyFile)

/-- What is wrong with the settings, unless the key cannot be looked for. -/
def AppSettings.errors (s : AppSettings) : Except KeyError (List String) :=
  match githubAppPrivateKey undecodable files s.toKeySources with
  | .ok _ => .ok s.missing
  | .error e => if e.isValueError then .ok (s.missing ++ ["❌ " ++ e.text]) else .error e

def validateSetup (s : AppSettings) : Except KeyError AppSettings :=
  match s.completed.errors undecodable files with
  | .error e => .error e
  | .ok [] => .ok s.completed
  | .ok errors => .error ⟨true, "Configuration Errors Found:\n" ++ joinTexts "\n" errors⟩

/-- `settings`, where `env` is what the environment has for the fields, if they can be read. -/
def settingsInForce (env : Except String AppSettings) : AppSettings :=
  match env with
  | .error _ => {}
  | .ok s =>
    match validateSetup undecodable files s with
    | .ok s => s
    | .error _ => {}

end Validation

def AppSettings.dbPoolMaxSize (s : AppSettings) : ℤ :=
  max (s.workerConcurrency * 2 + 5) s.dbPoolMinSize

structure AppSettings.Complete (undecodable : ByteArray → String) (files : String → KeyFile)
    (s : AppSettings) : Prop where
  apiKey : ¬Unset s.aiApiKey ∨ ¬Unset s.openrouterApiKey
  appId : s.githubAppId ≠ 0
  secret : s.githubWebhookSecret ≠ ""
  privateKey : ∃ key, githubAppPrivateKey undecodable files s.toKeySources = .ok key

section Valid

variable {undecodable : ByteArray → String} {files : String → KeyFile} {s t : AppSettings}

theorem isUnset_iff {setting : Option String} : isUnset setting = true ↔ Unset setting := by
  cases setting with
  | none => simp [isUnset, Unset]
  | some s => simp [isUnset, Unset]

theorem unset_completed : Unset s.completed.aiApiKey ↔
    Unset s.aiApiKey ∧ Unset s.openrouterApiKey := by
  rw [← isUnset_iff, ← isUnset_iff, ← isUnset_iff]
  cases hai : isUnset s.aiApiKey <;> cases hopen : isUnset s.openrouterApiKey <;>
    simp [AppSettings.completed, hai, hopen]

theorem missing_eq_nil_iff : s.missing = [] ↔
    ¬Unset s.aiApiKey ∧ s.githubAppId ≠ 0 ∧ s.githubWebhookSecret ≠ "" := by
  rw [AppSettings.missing, List.append_eq_nil_iff, List.append_eq_nil_iff, and_assoc,
    ← isUnset_iff]
  refine and_congr ?_ (and_congr ?_ ?_)
  · cases isUnset s.aiApiKey <;> simp
  · by_cases h : s.githubAppId = 0 <;> simp [h]
  · by_cases h : s.githubWebhookSecret = "" <;> simp [h]

theorem errors_eq_nil_iff : s.errors undecodable files = .ok [] ↔
    s.missing = [] ∧ ∃ key, githubAppPrivateKey undecodable files s.toKeySources = .ok key := by
  unfold AppSettings.errors
  cases githubAppPrivateKey undecodable files s.toKeySources with
  | ok key => simp
  | error e => cases hvalue : e.isValueError <;> simp [hvalue]

/-- The settings are accepted when nothing is missing, and then completed. -/
theorem validateSetup_eq_ok_iff : validateSetup undecodable files s = .ok t ↔
    s.Complete undecodable files ∧ t = s.completed := by
  have hcomplete : s.completed.errors undecodable files = .ok [] ↔
      s.Complete undecodable files := by
    rw [errors_eq_nil_iff, missing_eq_nil_iff, unset_completed, not_and_or]
    exact ⟨fun h => ⟨h.1.1, h.1.2.1, h.1.2.2, h.2⟩,
      fun h => ⟨⟨h.apiKey, h.appId, h.secret⟩, h.privateKey⟩⟩
  rw [← hcomplete, validateSetup]
  cases s.completed.errors undecodable files with
  | error e => simp
  | ok errors => cases errors <;> simp [eq_comm]

end Valid

section Forged

variable {undecodable : ByteArray → String} {files : String → KeyFile}
  {env : Except String AppSettings}

def Configured (undecodable : ByteArray → String) (files : String → KeyFile)
    (env : Except String AppSettings) (s : AppSettings) : Prop :=
  env = .ok s ∧ s.Complete undecodable files

theorem settingsInForce_of_configured {s : AppSettings}
    (h : Configured undecodable files env s) :
    settingsInForce undecodable files env = s.completed := by
  obtain ⟨rfl, hcomplete⟩ := h
  rw [settingsInForce, validateSetup_eq_ok_iff.2 ⟨hcomplete, rfl⟩]

theorem settingsInForce_of_not_configured (h : ¬∃ s, Configured undecodable files env s) :
    settingsInForce undecodable files env = {} := by
  unfold settingsInForce
  cases env with
  | error text => rfl
  | ok s =>
    dsimp only
    cases hvalid : validateSetup undecodable files s with
    | error e => rfl
    | ok t => exact absurd ⟨s, rfl, (validateSetup_eq_ok_iff.1 hvalid).1⟩ h

theorem verifySignature_other {lib : WebhookLibraries} {secret : String} {request : WebhookRequest}
    {digest : String} (hsigned : request.signature = some ("sha256=" ++ digest))
    (hascii : isAscii digest = true) (hhex : isAscii (lib.hexdigest secret request.body) = true)
    (hother : lib.hexdigest secret request.body ≠ digest) :
    verifySignature lib secret request.body request.signature =
      .ok (some (.httpException 401 "Invalid signature")) := by
  have hdiffer : "sha256=" ++ lib.hexdigest secret request.body ≠ "sha256=" ++ digest :=
    fun h => hother ((String.append_right_inj _).1 h)
  rw [verifySignature, hsigned, Option.filter_some_pos (by simp)]
  simp [compareDigest, isAscii_signature hascii, isAscii_signature hhex, hdiffer]

/-- Everybody can sign with the empty secret. A request that is signed so is refused when the
settings of the environment are valid; when anything in them is missing or wrong, be it the id of
the app or the key of the models, its pull request is enqueued. -/
theorem forged_request_outcome (undecodable : ByteArray → String) (files : String → KeyFile)
    (env : Except String AppSettings) {lib : WebhookLibraries} {request : WebhookRequest}
    {e : PullRequestEvent} (traceContext : Dict)
    (hhex : ∀ secret body, isAscii (lib.hexdigest secret body) = true)
    (hforged : request.Announces lib "" e)
    (hdistinct : ∀ s, env = .ok s → s.githubWebhookSecret ≠ "" →
      lib.hexdigest s.githubWebhookSecret request.body ≠ lib.hexdigest "" request.body) :
    let secret := (settingsInForce undecodable files env).githubWebhookSecret
    ((∃ s, Configured undecodable files env s) →
      githubWebhook lib secret request traceContext () =
        .done (.ok (.httpException 401 "Invalid signature"), ())) ∧
    ((¬∃ s, Configured undecodable files env s) → ∃ resume,
      githubWebhook lib secret request traceContext () =
        .ask (.enqueueIfNew e traceContext) resume) := by
  constructor
  · rintro ⟨s, hconfigured⟩
    have hverify : verifySignature lib s.completed.githubWebhookSecret request.body
        request.signature = .ok (some (.httpException 401 "Invalid signature")) :=
      verifySignature_other hforged.1 (hhex _ _) (hhex _ _)
        (hdistinct s hconfigured.1 hconfigured.2.secret)
    rw [settingsInForce_of_configured hconfigured, githubWebhook, hverify]
    rfl
  · intro h
    have hdefault : (settingsInForce undecodable files env).githubWebhookSecret = "" := by
      rw [settingsInForce_of_not_configured h]
    rw [hdefault, githubWebhook_of_announces hforged (hhex _ _)]
    exact ⟨_, rfl⟩

end Forged

namespace Sample

def withoutAppId : AppSettings where
  aiApiKey := some "sk"
  githubWebhookSecret := "webhook-secret"
  githubAppPrivateKey := some quotedKey

def deployed : AppSettings := { withoutAppId with githubAppId := 1024 }

theorem complete_deployed : deployed.Complete (fun _ => "") (fun _ => .absent) where
  apiKey := .inl (by simp [deployed, withoutAppId, Unset])
  appId := by decide
  secret := by decide
  privateKey := ⟨privateKey, rfl⟩

end Sample

/-- A request that is signed with the empty secret, to an app in working order and to one without
its id. -/
theorem forged_request_outcome_withoutAppId :
    githubWebhook Sample.webhooks (settingsInForce (fun _ => "") (fun _ => .absent)
        (.ok Sample.deployed)).githubWebhookSecret (Sample.signed "") [] () =
      .done (.ok (.httpException 401 "Invalid signature"), ()) ∧
    ∃ resume, githubWebhook Sample.webhooks (settingsInForce (fun _ => "") (fun _ => .absent)
        (.ok Sample.withoutAppId)).githubWebhookSecret (Sample.signed "") [] () =
      .ask (.enqueueIfNew ⟨Sample.sha, "octo/widgets", 7, 42⟩ []) resume := by
  have hforged := Sample.announces_signed ""
  have hdistinct : ∀ secret, secret = "webhook-secret" →
      Sample.webhooks.hexdigest secret (Sample.signed "").body ≠
        Sample.webhooks.hexdigest "" (Sample.signed "").body := by
    rintro secret rfl
    rw [Sample.signed, Sample.hexdigest_opened, Sample.hexdigest_opened]
    decide
  constructor
  · refine (forged_request_outcome _ _ _ [] Sample.isAscii_hexdigest hforged ?_).1
      ⟨Sample.deployed, rfl, Sample.complete_deployed⟩
    rintro s ⟨⟩ -
    exact hdistinct _ rfl
  · refine (forged_request_outcome _ _ _ [] Sample.isAscii_hexdigest hforged ?_).2 ?_
    · rintro s ⟨⟩ -
      exact hdistinct _ rfl
    · rintro ⟨s, ⟨⟩, hcomplete⟩
      exact hcomplete.appId rfl

end Revix
