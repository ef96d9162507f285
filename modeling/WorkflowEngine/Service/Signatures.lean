import WorkflowEngine.Service.Endpoints
import WorkflowEngine.Schemes.History
import Mathlib.Logic.Function.Basic

/-! Webhook requests that overlap with registrations.

    The handler reads the registration of its webhook, waits for the body, and reads the registration
    again to verify the signature; what it dispatches is the definition of the first one. Any other
    request can be served in between. -/

namespace WorkflowEngine
open Schemes

variable {D P V J ι : Type} {lib : YamlLibrary D P} [PyValue V]

/-- A signature passes exactly if the store answers with a registration that accepts it. -/
theorem checkSignature_ok_iff {s : Service V P J} {c : Circumstances V P} {w : World lib V J}
    {name : String} {body : List UInt8} {signature : Option String} :
    (checkSignature s c name body signature w).1 = .ok () ↔ c.fails .verifyGet = none ∧
      ∃ checked, w.webhooks.get name = some checked ∧
        acceptsSignature s checked body signature = .ok true := by
  have haccepted : (checkSignature s c name body signature w).1 = .ok () ↔
      (verifySignature s c name body signature w).1 = .ok true := by
    unfold checkSignature
    rcases hv : verifySignature s c name body signature w with ⟨e | accepted, w'⟩
    · rw [Prog.bind_of_error hv]
      simp
    · rw [Prog.bind_of_ok hv]
      cases accepted <;> simp
  rw [haccepted, verifySignature]
  rcases hf : c.fails .verifyGet with _ | e
  · rw [Prog.bind_of_ok (attempt_of_none hf), Prog.view_bind_run]
    cases w.webhooks.get name <;> simp
  · rw [Prog.bind_of_error (attempt_of_some hf)]
    simp

/-! ### Overlapping requests -/

/-- What a webhook request carries. -/
structure WebhookCall where
  name : String
  body : List UInt8
  signature : Option String
  key : Option String

/-- Where a webhook request stands. A cleared one has had its signature accepted against `checked` and
    is about to dispatch the definition of `trigger`. -/
inductive WebhookStage where
  | new
  | found (trigger : WebhookTrigger)
  | cleared (trigger checked : WebhookTrigger)
  | ended

/-- The steps of a webhook request, and the other requests. -/
inductive WebhookStep (ι V P : Type) [PyValue V] where
  | find (i : ι) (c : Circumstances V P)
  | check (i : ι) (c : Circumstances V P)
  | fire (i : ι) (c : Circumstances V P)
  | serve (request : ServiceRequest) (cs : ℕ → Circumstances V P)

/-- The world and the webhook requests. `dispatched` is what they dispatched, and the registration
    against which the signature was accepted. -/
structure Webhooks {D P : Type} (lib : YamlLibrary D P) (V J ι : Type) [PyValue V] where
  world : World lib V J
  stage : ι → WebhookStage := fun _ => .new
  dispatched : List (ι × String × WebhookTrigger) := []

namespace Webhooks
variable [DecidableEq ι] (s : Service V P J) (calls : ι → WebhookCall)

/-- One step; a step that its request is not at changes nothing. -/
def take (u : Webhooks lib V J ι) : WebhookStep ι V P → Webhooks lib V J ι
  | .find i c =>
    match u.stage i with
    | .new =>
      let (found, w) := findWebhook c (calls i).name u.world
      { u with world := w, stage := Function.update u.stage i (match found with
        | .ok trigger => .found trigger
        | .error _ => .ended) }
    | _ => u
  | .check i c =>
    match u.stage i with
    | .found trigger =>
      let (passed, w) :=
        checkSignature s c (calls i).name (calls i).body (calls i).signature u.world
      { u with world := w
               stage := Function.update u.stage i
                 (match passed, u.world.webhooks.get (calls i).name with
                  | .ok _, some checked => .cleared trigger checked
                  | _, _ => .ended) }
    | _ => u
  | .fire i c =>
    match u.stage i with
    | .cleared trigger checked =>
      let claimed :=
        (claimIdempotency c ("webhook:" ++ (calls i).name) (calls i).key u.world).1
      { world := (fireWebhook s c (calls i).name trigger (calls i).key u.world).2
        stage := Function.update u.stage i .ended
        dispatched := match claimed with
          | .ok _ => u.dispatched ++ [(i, trigger.yamlDefinition, checked)]
          | .error _ => u.dispatched }
    | _ => u
  | .serve request cs => { u with world := (WorkflowEngine.serve s cs request u.world).2 }

/-- From this world on. -/
def after (w : World lib V J) (steps : List (WebhookStep ι V P)) : Webhooks lib V J ι :=
  steps.foldl (take s calls) { world := w }

/-- The condition: a signature is accepted only against a registration with the definition that the
    request has found. -/
def Current (u : Webhooks lib V J ι) : WebhookStep ι V P → Prop
  | .check i c => c.fails .verifyGet = none → ∀ trigger checked, u.stage i = .found trigger →
      u.world.webhooks.get (calls i).name = some checked →
      acceptsSignature s checked (calls i).body (calls i).signature = .ok true →
      checked.yamlDefinition = trigger.yamlDefinition
  | _ => True

/-- Every request that is about to dispatch holds the definition of the registration that its
    signature was accepted against. -/
def Matched (u : Webhooks lib V J ι) : Prop :=
  ∀ i trigger checked, u.stage i = .cleared trigger checked →
    checked.yamlDefinition = trigger.yamlDefinition

/-! ### What a step keeps -/

/-- What is known of the registrations that signatures were accepted against. -/
structure Checked (u : Webhooks lib V J ι) : Prop where
  cleared : ∀ i trigger checked, u.stage i = .cleared trigger checked →
    acceptsSignature s checked (calls i).body (calls i).signature = .ok true
  dispatched : ∀ i d checked, (i, d, checked) ∈ u.dispatched →
    acceptsSignature s checked (calls i).body (calls i).signature = .ok true

/-- What was dispatched is the definition of the registration. -/
def Fired (u : Webhooks lib V J ι) : Prop :=
  ∀ i d checked, (i, d, checked) ∈ u.dispatched → checked.yamlDefinition = d

variable {s calls} {u : Webhooks lib V J ι}

/-- After a step a request is cleared only if it was, or if its signature has just been accepted. -/
theorem cleared_take {a : WebhookStep ι V P} {i : ι} {trigger checked : WebhookTrigger}
    (h : (take s calls u a).stage i = .cleared trigger checked) :
    u.stage i = .cleared trigger checked ∨
    ∃ c, a = .check i c ∧ u.stage i = .found trigger ∧ c.fails .verifyGet = none ∧
      u.world.webhooks.get (calls i).name = some checked ∧
      acceptsSignature s checked (calls i).body (calls i).signature = .ok true := by
  cases a with
  | serve request cs => exact .inl h
  | find j c =>
    rw [take] at h
    cases hstage : u.stage j with
    | new =>
      simp only [hstage, Function.update_apply] at h
      split_ifs at h
      · split at h <;> cases h
      · exact .inl h
    | found | cleared | ended => rw [hstage] at h; exact .inl h
  | fire j c =>
    rw [take] at h
    cases hstage : u.stage j with
    | cleared trigger' checked' =>
      simp only [hstage, Function.update_apply] at h
      split_ifs at h
      exact .inl h
    | new | found | ended => rw [hstage] at h; exact .inl h
  | check j c =>
    rw [take] at h
    cases hstage : u.stage j with
    | found trigger' =>
      simp only [hstage, Function.update_apply] at h
      split_ifs at h with hij
      · subst hij
        split at h
        · next hpassed hget =>
          cases h
          obtain ⟨hf, checked', hget', haccepts⟩ := checkSignature_ok_iff.mp hpassed
          obtain rfl := Option.some.inj (hget.symm.trans hget')
          exact .inr ⟨c, rfl, hstage, hf, hget, haccepts⟩
        · cases h
      · exact .inl h
    | new | cleared | ended => rw [hstage] at h; exact .inl h

/-- A step dispatches only for a request that was cleared. -/
theorem dispatched_take {a : WebhookStep ι V P} {i : ι} {d : String} {checked : WebhookTrigger}
    (h : (i, d, checked) ∈ (take s calls u a).dispatched) : (i, d, checked) ∈ u.dispatched ∨
    ∃ trigger, u.stage i = .cleared trigger checked ∧ trigger.yamlDefinition = d := by
  cases a with
  | serve request cs => exact .inl h
  | find j c | check j c =>
    rw [take] at h
    cases hstage : u.stage j <;> rw [hstage] at h <;> exact .inl h
  | fire j c =>
    rw [take] at h
    cases hstage : u.stage j with
    | cleared trigger checked' =>
      simp only [hstage] at h
      split at h
      · rcases List.mem_append.mp h with h | h
        · exact .inl h
        · obtain ⟨rfl, rfl, rfl⟩ : i = j ∧ d = trigger.yamlDefinition ∧ checked = checked' := by
            simpa using h
          exact .inr ⟨trigger, hstage, rfl⟩
      · exact .inl h
    | new | found | ended => rw [hstage] at h; exact .inl h

theorem Checked.take (h : Checked s calls u) (a : WebhookStep ι V P) :
    Checked s calls (take s calls u a) where
  cleared i trigger checked hi := by
    rcases cleared_take hi with hi | ⟨c, -, -, -, -, haccepts⟩
    · exact h.cleared i trigger checked hi
    · exact haccepts
  dispatched i d checked hi := by
    rcases dispatched_take hi with hi | ⟨trigger, hi, -⟩
    · exact h.dispatched i d checked hi
    · exact h.cleared i trigger checked hi

theorem Matched.take (h : Matched u) {a : WebhookStep ι V P} (hc : Current s calls u a) :
    Matched (take s calls u a) := by
  intro i trigger checked hi
  rcases cleared_take hi with hi | ⟨c, rfl, hfound, hf, hget, haccepts⟩
  · exact h i trigger checked hi
  · exact hc hf trigger checked hfound hget haccepts

theorem Fired.take (h : Fired u) (hm : Matched u) (a : WebhookStep ι V P) :
    Fired (Webhooks.take s calls u a) := by
  intro i d checked hi
  rcases dispatched_take hi with hold | ⟨trigger, hcleared, rfl⟩
  · exact h i d checked hold
  · exact hm i trigger checked hcleared

/-- A step that is not current clears a request for another definition. -/
theorem not_matched_take {a : WebhookStep ι V P} (hc : ¬ Current s calls u a) :
    ¬ Matched (take s calls u a) := by
  intro hm
  cases a with
  | find | fire | serve => exact hc trivial
  | check i c =>
    simp only [Current, not_forall] at hc
    obtain ⟨hf, trigger, checked, hfound, hget, haccepts, hne⟩ := hc
    have hok : (checkSignature s c (calls i).name (calls i).body (calls i).signature u.world).1 =
        .ok () := checkSignature_ok_iff.mpr ⟨hf, checked, hget, haccepts⟩
    refine hne (hm i trigger checked ?_)
    simp only [take, hfound, Function.update_self]
    rw [hok, hget]

/-! ### Every run -/

variable (s calls) (w : World lib V J)

theorem after_concat (pre : List (WebhookStep ι V P)) (a : WebhookStep ι V P) :
    after s calls w (pre ++ [a]) = take s calls (after s calls w pre) a := by
  rw [after, List.foldl_append]
  rfl

theorem checked_after (steps : List (WebhookStep ι V P)) :
    Checked s calls (after s calls w steps) := by
  induction steps using List.reverseRecOn with
  | nil =>
    constructor
    · exact fun _ _ _ hi => absurd hi (by simp [after])
    · exact fun _ _ _ hi => absurd hi (by simp [after])
  | append_singleton steps a ih =>
    rw [after_concat]
    exact ih.take a

theorem fired_after {steps : List (WebhookStep ι V P)}
    (h : ∀ pre, pre <+: steps → Matched (after s calls w pre)) :
    Fired (after s calls w steps) := by
  induction steps using List.reverseRecOn with
  | nil => exact fun _ _ _ hi => absurd hi (by simp [after])
  | append_singleton steps a ih =>
    rw [after_concat]
    have hprefix : steps <+: steps ++ [a] := List.prefix_append _ _
    exact (ih fun pre hpre => h pre (hpre.trans hprefix)).take (h steps hprefix) a

/-- EXACT (webhooks): if every check is current, then in every run what is dispatched is the definition
    of a registration against which the request's signature was accepted; and every check is current
    exactly if at every moment every request that is about to dispatch holds such a definition. -/
theorem dispatched_of_checked (s : Service V P J) (calls : ι → WebhookCall) (w : World lib V J)
    (steps : List (WebhookStep ι V P)) :
    (History.Each (fun pre a => Current s calls (after s calls w pre) a) steps →
      ∀ i d checked, (i, d, checked) ∈ (after s calls w steps).dispatched →
        checked.yamlDefinition = d ∧
        acceptsSignature s checked (calls i).body (calls i).signature = .ok true) ∧
    ((∀ pre, pre <+: steps → Matched (after s calls w pre)) ↔
      History.Each (fun pre a => Current s calls (after s calls w pre) a) steps) := by
  have hiff := History.each_iff_good (fun _ => True)
    (fun pre => Matched (after s calls w pre))
    (p := fun pre a => Current s calls (after s calls w pre) a)
    (fun _ _ _ => trivial) (fun _ _ _ hi => by cases hi) (fun _ hm => hm)
    (fun pre a _ hm hc => by rw [after_concat]; exact hm.take hc)
    (fun pre a _ _ hc => by rw [after_concat]; exact not_matched_take hc) steps trivial
  refine ⟨fun hc i d checked hi => ⟨?_, ?_⟩, hiff⟩
  · exact fired_after s calls w (hiff.mpr hc) i d checked hi
  · exact (checked_after s calls w steps).dispatched i d checked hi

end Webhooks

/-! ### An example -/

/-- A request without a signature. -/
def unsignedCall : Unit → WebhookCall := fun _ => ⟨"push", [], none, none⟩

/-- A protected webhook is registered again, for another definition and without a secret, while the
    request is waiting for its body. -/
noncomputable def replacedWebhook : List (WebhookStep Unit String Unit) :=
  [.serve (.registerWebhook "push" Document.idle.text "" (some "s3cret")) fun _ => calm "1",
   .find () (calm "2"),
   .serve (.registerWebhook "push" Document.typo.text "" none) fun _ => calm "3",
   .check () (calm "2"), .fire () (calm "2")]

/-- The protected definition is dispatched, and the signature was accepted against the other one. -/
theorem replacedWebhook_dispatched :
    (Webhooks.after quiet unsignedCall blank replacedWebhook).dispatched =
      [((), Document.idle.text, ⟨"push", Document.typo.text, "", none⟩)] ∧
    Document.idle.text ≠ Document.typo.text ∧
    acceptsSignature quiet ⟨"push", Document.idle.text, "", some "s3cret"⟩ [] none = .ok false :=
  ⟨rfl, by decide, rfl⟩

end WorkflowEngine
