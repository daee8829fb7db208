import Allotment.Proofs.Text
import Allotment.Queue.Basic
import Allotment.Queue.Plan

/-!
# What is configured for a queue

A configuration is compared with a queue item by item: what is written is what the queue has to have, and
for each item that may be left out it is said what the queue has instead. Nothing here speaks of how settings
are read off a configuration, so it serves queues that are built and queues that are reloaded alike.
-/

namespace Allotment

variable {F : Type}

/-- Whether an access list lets in whom a text names: everyone if the text is a star, and otherwise those
whose names stand between its commas, blanks around a name left aside. -/
def AccessList.IsWritten (l : AccessList) (text : String) : Prop :=
  ∃ parts : List String, (∀ part ∈ parts, ',' ∉ part.toList) ∧ ",".intercalate parts = Text.trim text ∧
    ∀ user, (l.allows user = true ↔ Text.trim text = "*" ∨ user ≠ "" ∧ user ∈ parts.map Text.trim)

/-- The list that is read off a text lets in whom the text names. -/
theorem AccessList.isWritten_ofText (text : String) : (ofText text).IsWritten text := by
  refine ⟨_, fun part hpart => Text.not_mem_split hpart, Text.intercalate_split ',' _, fun user => ?_⟩
  unfold ofText
  by_cases hstar : Text.trim text = "*"
  · simp [hstar, allows]
  · simp [hstar, allows, and_comm]

namespace QueueOptions

/-- What is written about who has a permission. -/
def access? (o : QueueOptions F) : Permission → Option String
  | .submit => o.submitAcl
  | .administer => o.adminAcl

/-- Whether settings are the configured ones, at the root or elsewhere. A largest share or a limit that is
left out is the largest number there is. Where nothing is written about a permission, the root grants it to
everyone and another queue to no one. -/
structure Governs (o : QueueOptions F) (isRoot : Bool) (s : QueueSettings F) : Prop where
  weight : s.weight = o.weight
  minShare : s.minShare = o.minShare
  maxShare : ∀ r, o.maxShare = some r → s.maxShare = r
  unbounded : o.maxShare = none → ∀ dim, (s.maxShare.get dim).toNat = 18446744073709551615
  limit : ∀ n, o.maxRunningApps = some n → s.limit = n
  unlimited : o.maxRunningApps = none → s.limit = 18446744073709551615
  access : ∀ p text, o.access? p = some text → (s.acl p).IsWritten text
  fallback : ∀ p, o.access? p = none → ∀ user, (s.acl p).allows user = isRoot

/-- Whether a policy is the configured one: the one of the name that is written, in letters of either case,
or `fair` if none is. -/
def AsksFor (o : QueueOptions F) (p : Policy) : Prop :=
  (∀ n, o.policy = some n →
    (n.map Char.toLower, p) ∈ [("fair", Policy.fair), ("fifo", .fifo), ("drf", .drf)]) ∧
  (o.policy = none → p = .fair)

/-- A permission is granted to those who are written down for it, or by default. -/
theorem acl_ofOptions (o : QueueOptions F) (isRoot : Bool) (p : Permission) :
    (QueueSettings.ofOptions o isRoot).acl p =
      ((o.access? p).map AccessList.ofText).getD (if isRoot then .everyone else .nobody) := by
  cases p <;> rfl

/-- The settings that are read off a configuration are the configured ones. -/
theorem governs_ofOptions (o : QueueOptions F) (isRoot : Bool) : o.Governs isRoot (.ofOptions o isRoot) where
  weight := rfl
  minShare := rfl
  maxShare r hr := by simp [QueueSettings.ofOptions, hr]
  unbounded hnone dim := by cases dim <;> simp [QueueSettings.ofOptions, hnone] <;> rfl
  limit n hn := by simp [QueueSettings.ofOptions, hn]
  unlimited hnone := by simp [QueueSettings.ofOptions, hnone]; rfl
  access p text htext := by
    rw [acl_ofOptions, htext]
    exact AccessList.isWritten_ofText text
  fallback p hnone user := by
    rw [acl_ofOptions, hnone]
    cases isRoot <;> rfl

end QueueOptions

namespace QueueConfig

/-- Whether a queue, the root or another one, is of the configured kind and has the settings and the policy
that are configured. -/
structure Describes (c : QueueConfig F) (isRoot : Bool) (q : Queue F) : Prop where
  kind : q.kind = .parent ↔ isRoot = true ∨ c.children ≠ [] ∨ c.options.forceParent = true
  settings : c.options.Governs isRoot q.info.settings
  policy : c.options.AsksFor q.info.policy

variable {c : QueueConfig F}

/-- A queue is to be a parent if it has children or is said to be one. -/
theorem kind_eq_parent_iff (c : QueueConfig F) :
    c.kind = .parent ↔ c.children ≠ [] ∨ c.options.forceParent = true := by
  unfold kind isParent
  cases c.options.forceParent <;> simp

/-- The policy that is read off a configuration is the configured one. -/
theorem policy_eq_ok_iff {p : Policy} : c.policy = .ok p ↔ c.options.AsksFor p := by
  unfold policy QueueOptions.AsksFor
  cases c.options.policy with
  | none => simp [eq_comm]
  | some n =>
    have hnamed : Policy.ofName n = .ok p ↔
        (n.map Char.toLower, p) ∈ [("fair", Policy.fair), ("fifo", .fifo), ("drf", .drf)] := by
      unfold Policy.ofName
      by_cases hfair : n.map Char.toLower = "fair"
      · simp [hfair, eq_comm]
      by_cases hfifo : n.map Char.toLower = "fifo"
      · simp [hfifo, eq_comm]
      by_cases hdrf : n.map Char.toLower = "drf"
      · simp [hdrf, eq_comm]
      · simp [hfair, hfifo, hdrf]
    simpa using hnamed

/-- A queue that has got what is read off a configuration is the configured one. -/
theorem describes_of_eq {isRoot : Bool} {q : Queue F}
    (hkind : q.kind = .parent ↔ isRoot = true ∨ c.children ≠ [] ∨ c.options.forceParent = true)
    (hsettings : q.info.settings = .ofOptions c.options isRoot) (hpolicy : c.policy = .ok q.info.policy) :
    c.Describes isRoot q :=
  ⟨hkind, hsettings ▸ c.options.governs_ofOptions isRoot, policy_eq_ok_iff.mp hpolicy⟩

/-- Below the root the kind is that of the configuration. -/
theorem describes_of_kind_eq {q : Queue F} (hkind : q.kind = c.kind)
    (hsettings : q.info.settings = .ofOptions c.options false) (hpolicy : c.policy = .ok q.info.policy) :
    c.Describes false q := by
  refine describes_of_eq ?_ hsettings hpolicy
  rw [hkind, kind_eq_parent_iff]
  simp

end QueueConfig

end Allotment
