import WorkflowEngine.Service.Endpoints

/-! The signature header of a webhook request.

    The header is compared with the digest by `hmac.compare_digest`, which refuses strings that are not
    ASCII. A header can hold any latin-1 character, so a forged one makes the handler raise instead of
    answering 401. -/

namespace WorkflowEngine
open Schemes

variable {D P V J : Type} {lib : YamlLibrary D P}

/-- The header that a signed request carries. -/
def signatureOf (s : Service V P J) (secret : String) (body : List UInt8) : String :=
  "sha256=" ++ s.hmac secret body

/-- `hexdigest` writes lowercase hexadecimal digits. -/
def Hexadecimal (digest : String) : Prop := ∀ c ∈ digest.toList, c ∈ "0123456789abcdef".toList

theorem Hexadecimal.ascii {digest : String} (h : Hexadecimal digest) :
    digest.toList.all Char.isAscii = true := by
  have hall : "0123456789abcdef".toList.all Char.isAscii = true := by decide
  exact List.all_eq_true.mpr fun c hc => List.all_eq_true.mp hall c (h c hc)

/-! ### The prefix -/

theorem drop_signature (rest : String) : (("sha256=" ++ rest).drop 7).toString = rest := by
  refine String.toList_injective ?_
  change ((("sha256=" ++ rest).drop 7).copy).toList = _
  rw [String.toList_copy_drop, String.toList_append]
  rfl

theorem isPrefixOf_signature {header : String} :
    "sha256=".isPrefixOf header = true ↔ ∃ rest, header = "sha256=" ++ rest := by
  unfold String.isPrefixOf
  rw [String.startsWith_string_iff]
  constructor
  · rintro ⟨rest, hrest⟩
    refine ⟨String.ofList rest, String.toList_injective ?_⟩
    simp [← hrest]
  · rintro ⟨rest, rfl⟩
    rw [String.toList_append]
    exact List.prefix_append _ _

/-! ### The comparison -/

section Compare
variable {s : Service V P J} {trigger : WebhookTrigger} {secret : String} {body : List UInt8}
  {header : Option String}

/-- A header with the prefix is compared, after it. -/
theorem acceptsSignature_prefixed (hsecret : truthy trigger.secret = some secret) (rest : String) :
    acceptsSignature s trigger body (some ("sha256=" ++ rest)) =
      compareDigest rest (s.hmac secret body) := by
  have hne : truthy (some ("sha256=" ++ rest)) = some ("sha256=" ++ rest) := by
    rw [truthy, Option.filter_some, if_pos]
    simp
  rw [acceptsSignature, hsecret, hne]
  simp only [if_pos (isPrefixOf_signature.mpr ⟨rest, rfl⟩), drop_signature]

/-- Any other header is refused without a comparison. -/
theorem acceptsSignature_unprefixed (hsecret : truthy trigger.secret = some secret)
    (h : ∀ rest, header ≠ some ("sha256=" ++ rest)) :
    acceptsSignature s trigger body header = .ok false := by
  rw [acceptsSignature, hsecret]
  cases hh : truthy header with
  | none => rfl
  | some text =>
    have htext : header = some text := by
      rw [truthy, Option.filter_eq_some_iff] at hh
      exact hh.1
    refine if_neg fun hp => ?_
    obtain ⟨rest, rfl⟩ := isPrefixOf_signature.mp hp
    exact h rest htext

/-- What the check finds, in cases: the right header passes, a comparison outside ASCII raises, and
    everything else is refused. -/
theorem acceptsSignature_cases (hsecret : truthy trigger.secret = some secret)
    (hhex : Hexadecimal (s.hmac secret body)) (header : Option String) :
    (header = some (signatureOf s secret body) ∧
      acceptsSignature s trigger body header = .ok true) ∨
    ((∃ rest, header = some ("sha256=" ++ rest) ∧ rest.toList.all Char.isAscii = false) ∧
      header ≠ some (signatureOf s secret body) ∧
      ∃ message, acceptsSignature s trigger body header = .error (.other message)) ∨
    ((∀ rest, header = some ("sha256=" ++ rest) → rest.toList.all Char.isAscii = true) ∧
      header ≠ some (signatureOf s secret body) ∧
      acceptsSignature s trigger body header = .ok false) := by
  by_cases hp : ∃ rest, header = some ("sha256=" ++ rest)
  · obtain ⟨rest, rfl⟩ := hp
    have hright : some ("sha256=" ++ rest) = some (signatureOf s secret body) ↔
        rest = s.hmac secret body := by
      rw [signatureOf, Option.some_inj, String.append_right_inj]
    rw [acceptsSignature_prefixed hsecret, Ne, hright, compareDigest, hhex.ascii, Bool.and_true]
    cases ha : rest.toList.all Char.isAscii with
    | false =>
      refine .inr (.inl ⟨⟨rest, rfl, ha⟩, fun hd => ?_, _, rfl⟩)
      rw [hd, hhex.ascii] at ha
      exact absurd ha (by simp)
    | true =>
      by_cases hd : rest = s.hmac secret body
      · exact .inl ⟨hd, by simp [hd]⟩
      · refine .inr (.inr ⟨fun rest' h => ?_, hd, by simp [hd]⟩)
        obtain rfl := (String.append_right_inj _).mp (Option.some.inj h)
        exact ha
  · have hnone : ∀ rest, header ≠ some ("sha256=" ++ rest) := not_exists.mp hp
    exact .inr (.inr ⟨fun rest h => absurd h (hnone rest), hnone _,
      acceptsSignature_unprefixed hsecret hnone⟩)

end Compare

/-! ### The request -/

section Trigger
variable [PyValue V] (s : Service V P J) (c : Circumstances V P) (w : World lib V J) (name : String)
  (trigger : WebhookTrigger) (secret : String) (body : List UInt8) (header key : Option String)

/-- The request is let in and comes to the check of this registration. -/
structure ReachesCheck : Prop where
  allowed : c.denied = none
  found : c.fails .getWebhook = none
  again : c.fails .verifyGet = none
  registered : w.webhooks.get name = some trigger
  keyed : trigger.secret = some secret
  nonempty : secret ≠ ""

/-- SPEC: the check passes exactly the right header, and any other request is answered 401 and
    leaves the world as it was. -/
structure SignatureExact : Prop where
  passes : (checkSignature s c name body header w).1 = .ok () ↔
    header = some (signatureOf s secret body)
  fires : header = some (signatureOf s secret body) →
    triggerWebhook s c name body header key w = orPersistence (fireWebhook s c name trigger key) w
  refuses : header ≠ some (signatureOf s secret body) →
    triggerWebhook s c name body header key w =
      (.error (.http 401 "Webhook signature is invalid" "webhook_signature_invalid"), w)

variable {s c w name trigger secret body header key}

theorem checkSignature_reached (h : ReachesCheck c w name trigger secret) :
    checkSignature s c name body header w =
      (match acceptsSignature s trigger body header with
        | .ok true => .ok ()
        | .ok false => .error (.http 401 "Webhook signature is invalid" "webhook_signature_invalid")
        | .error e => .error e, w) := by
  have hverify : verifySignature s c name body header w =
      (acceptsSignature s trigger body header, w) := by
    rw [verifySignature, Prog.bind_of_ok (attempt_of_none h.again), Prog.view_bind_run,
      h.registered]
    rfl
  rw [checkSignature]
  rcases ha : acceptsSignature s trigger body header with e | accepted
  · rw [Prog.bind_of_error (hverify.trans (by rw [ha]))]
  · rw [Prog.bind_of_ok (hverify.trans (by rw [ha]))]
    cases accepted <;> rfl

theorem findWebhook_reached (h : ReachesCheck c w name trigger secret) :
    findWebhook c name w = (.ok trigger, w) := by
  have hlet : (checkAccess c : Program lib V J Unit) w = (.ok (), w) := by
    rw [checkAccess, h.allowed]; rfl
  rw [findWebhook, Prog.bind_of_ok hlet, Prog.bind_of_ok (attempt_of_none h.found),
    Prog.view_bind_run, h.registered]
  rfl

theorem triggerWebhook_passed (h : ReachesCheck c w name trigger secret)
    (hp : checkSignature s c name body header w = (.ok (), w)) :
    triggerWebhook s c name body header key w =
      orPersistence (fireWebhook s c name trigger key) w := by
  rw [triggerWebhook, orPersistence_run, orPersistence_run, Prog.bind_of_ok (findWebhook_reached h),
    Prog.bind_of_ok hp]

theorem triggerWebhook_stopped {e : Exn} (h : ReachesCheck c w name trigger secret)
    (hp : checkSignature s c name body header w = (.error e, w))
    (hkept : ∀ message, e ≠ .persistence message) :
    triggerWebhook s c name body header key w = (.error e, w) := by
  rw [triggerWebhook, orPersistence_run, Prog.bind_of_ok (findWebhook_reached h),
    Prog.bind_of_error hp]
  cases e with
  | persistence message => exact absurd rfl (hkept message)
  | _ => rfl

/-- CORRECT (signatures): the check is exact and total exactly for the headers whose part after the
    prefix, if they have it, is ASCII. -/
theorem signatureExact_iff (h : ReachesCheck c w name trigger secret)
    (hhex : Hexadecimal (s.hmac secret body)) :
    SignatureExact s c w name trigger secret body header key ↔
      ∀ rest, header = some ("sha256=" ++ rest) → rest.toList.all Char.isAscii = true := by
  have hsecret : truthy trigger.secret = some secret := by
    rw [h.keyed, truthy, Option.filter_some, if_pos]
    simpa using h.nonempty
  have hcheck : checkSignature s c name body header w = _ := checkSignature_reached h
  rcases acceptsSignature_cases hsecret hhex header with
    ⟨hright, ha⟩ | ⟨⟨rest, hrest, hna⟩, hwrong, message, ha⟩ | ⟨hascii, hwrong, ha⟩
  · rw [ha] at hcheck
    refine iff_of_true ⟨?_, fun _ => triggerWebhook_passed h hcheck, fun hw => absurd hright hw⟩ ?_
    · exact iff_of_true (congrArg Prod.fst hcheck) hright
    · intro rest hr
      obtain rfl := (String.append_right_inj _).mp (Option.some.inj (hr.symm.trans hright))
      exact hhex.ascii
  · rw [ha] at hcheck
    refine iff_of_false (fun hex => ?_) fun hall => ?_
    · have hraised : triggerWebhook s c name body header key w = _ :=
        triggerWebhook_stopped h hcheck (by simp)
      have h401 := hraised.symm.trans (hex.refuses hwrong)
      exact absurd (congrArg Prod.fst h401) (by simp)
    · exact absurd (hna.symm.trans (hall rest hrest)) (by simp)
  · rw [ha] at hcheck
    refine iff_of_true ⟨?_, fun hr => absurd hr hwrong, fun _ => ?_⟩ hascii
    · exact iff_of_false (by rw [hcheck]; simp) hwrong
    · exact triggerWebhook_stopped h hcheck (by simp)

end Trigger

/-! ### An example -/

/-- The digest of the body `{}` under the secret `s3cret`. -/
def signing : Service String Unit (List (DeadLetter Unit)) :=
  { quiet with hmac := fun _ _ =>
      "adbde1ce40c89c14215687d5d762a47df6dfaefcfad61e2e86718ffc8498571b" }

def pushTrigger : WebhookTrigger := ⟨"push", Document.idle.text, "", some "s3cret"⟩

def registeredPush : World documents String (List (DeadLetter Unit)) :=
  { blank with webhooks := Dict.ofList [("push", pushTrigger)] }

theorem reaches_push : ReachesCheck (calm "1") registeredPush "push" pushTrigger "s3cret" :=
  ⟨rfl, rfl, rfl, rfl, rfl, by decide⟩

theorem hexadecimal_signing : Hexadecimal (signing.hmac "s3cret" [123, 125]) := by
  have hall : (signing.hmac "s3cret" [123, 125]).toList.all
      ("0123456789abcdef".toList.contains ·) = true := by decide +kernel
  exact fun c hc => List.contains_iff_mem.mp (List.all_eq_true.mp hall c hc)

theorem signatureExact_push :
    SignatureExact signing (calm "1") registeredPush "push" pushTrigger "s3cret" [123, 125]
        (some "sha256=00") none ↔
      ∀ rest, some "sha256=00" = some ("sha256=" ++ rest) →
        rest.toList.all Char.isAscii = true :=
  signatureExact_iff reaches_push hexadecimal_signing

/-- A forged header that is not ASCII makes the handler raise. -/
theorem forged_raises :
    ¬ SignatureExact signing (calm "1") registeredPush "push" pushTrigger "s3cret" [123, 125]
      (some ("sha256=" ++ "é")) none := by
  intro h
  have hwrong : some ("sha256=" ++ "é") ≠ some (signatureOf signing "s3cret" [123, 125]) := by
    decide
  have hraised : checkSignature signing (calm "1") "push" [123, 125]
      (some ("sha256=" ++ "é")) registeredPush =
      (.error (.other "comparing strings with non-ASCII characters is not supported"),
        registeredPush) := by
    rw [checkSignature_reached reaches_push, acceptsSignature_prefixed rfl]
    rfl
  have h401 := (triggerWebhook_stopped reaches_push hraised (by simp)).symm.trans
    (h.refuses hwrong)
  exact absurd (congrArg Prod.fst h401) (by simp)

end WorkflowEngine
