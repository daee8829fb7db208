import Allotment.Proofs.Queue.Plan

/-!
# Configurations that have a plan

The plan of a configuration fails for no other reasons than a wrong name at the top, a component that
cannot stand in a name, two children of one name, and a policy that is not known or does not apply to
its place.
-/

namespace Allotment.QueueConfig

open QueueName

variable {F : Type}

/-- Whether a configured queue has a known policy that applies to a place. -/
def HasPolicyFor (c : QueueConfig F) (place : Depth) : Prop :=
  ∃ policy, c.policy = .ok policy ∧ policy.appliesTo place = true

/-- Whether no two children of a configured queue share a name. -/
def Siblings (c : QueueConfig F) : Prop := (c.children.map name).Nodup

/-- Whether a configured queue can stand below another. -/
structure FitsBelow (c : QueueConfig F) : Prop where
  part : IsPart c.name
  policy : c.HasPolicyFor c.place
  siblings : c.Siblings

/-- Whether a configuration is that of a tree. -/
structure Admissible (c : QueueConfig F) : Prop where
  top : c.name = QueueName.root
  policy : c.HasPolicyFor Depth.top
  siblings : c.Siblings
  below : ∀ e ∈ c.configured, e.2.FitsBelow

/-- Having a policy for a place is having one there under any name. -/
theorem exists_policyAt_iff (c : QueueConfig F) (n : String) (place : Depth) :
    (∃ policy, c.policyAt n place = .ok policy) ↔ c.HasPolicyFor place := by
  simp only [policyAt_eq_ok_iff, HasPolicyFor]

/-- Several queues have a plan if they have new names, all different, and each fits below another
with all that is configured in it. -/
theorem exists_planAll_iff (children : List (QueueConfig F)) (parent : String) (seen : List String)
    (hchildren : ∀ c ∈ children, ∀ seen : List String,
      (∃ planned, planQueue parent seen c = .ok planned) ↔
        c.name ∉ seen ∧ ∀ e ∈ entries parent c, e.2.FitsBelow) :
    (∃ planned, planAll parent seen children = .ok planned) ↔
      (children.map name).Nodup ∧ (∀ c ∈ children, c.name ∉ seen) ∧
        ∀ e ∈ entriesBelow parent children, e.2.FitsBelow := by
  induction children generalizing seen with
  | nil => simp [planAll, entriesBelow, pure, Except.pure]
  | cons c rest ih =>
    have hfirst := hchildren c List.mem_cons_self seen
    have hothers := ih (c.name :: seen) fun d hd => hchildren d (List.mem_cons_of_mem c hd)
    have hsplit : (∃ planned, planAll parent seen (c :: rest) = .ok planned) ↔
        (∃ first, planQueue parent seen c = .ok first) ∧
          ∃ others, planAll parent (c.name :: seen) rest = .ok others := by
      simp only [planAll_cons_eq_ok_iff]
      constructor
      · rintro ⟨-, first, others, hfirst, hothers, -⟩
        exact ⟨⟨first, hfirst⟩, others, hothers⟩
      · rintro ⟨⟨first, hfirst⟩, others, hothers⟩
        exact ⟨_, first, others, hfirst, hothers, rfl⟩
    have hunseen : (∀ d ∈ rest, d.name ∉ c.name :: seen) ↔
        c.name ∉ rest.map name ∧ ∀ d ∈ rest, d.name ∉ seen := by
      simp only [List.mem_cons, not_or, List.mem_map, not_exists, not_and]
      exact ⟨fun h => ⟨fun d hd => (h d hd).1, fun d hd => (h d hd).2⟩,
        fun h d hd => ⟨h.1 d hd, h.2 d hd⟩⟩
    rw [hsplit, hfirst, hothers, hunseen, entriesBelow, List.map_cons, List.nodup_cons,
      List.forall_mem_cons, List.forall_mem_append]
    constructor
    · rintro ⟨⟨hnew, hfits⟩, hdistinct, ⟨hother, hnews⟩, hrest⟩
      exact ⟨⟨hother, hdistinct⟩, ⟨hnew, hnews⟩, hfits, hrest⟩
    · rintro ⟨⟨hother, hdistinct⟩, ⟨hnew, hnews⟩, hfits, hrest⟩
      exact ⟨⟨hnew, hfits⟩, hdistinct, ⟨hother, hnews⟩, hrest⟩

/-- A queue has a plan if its name is new and it fits below another with all that is configured in
it. -/
theorem exists_planQueue_iff (c : QueueConfig F) (parent : String) (seen : List String) :
    (∃ planned, planQueue parent seen c = .ok planned) ↔
      c.name ∉ seen ∧ ∀ e ∈ entries parent c, e.2.FitsBelow := by
  induction c using QueueConfig.induction generalizing parent seen with
  | node options children ih =>
    have hbelow := exists_planAll_iff children (child parent options.name) []
      fun c hc => ih c hc (child parent options.name)
    have hpolicy := exists_policyAt_iff (.node options children) (child parent options.name)
      (place (.node options children))
    simp only [planQueue_eq_ok_iff, entries, List.forall_mem_cons]
    constructor
    · rintro ⟨-, hpart, hseen, policy, below, hat, hall, -⟩
      obtain ⟨hdistinct, -, hfits⟩ := hbelow.mp ⟨below, hall⟩
      exact ⟨hseen, ⟨hpart, hpolicy.mp ⟨policy, hat⟩, hdistinct⟩, hfits⟩
    · rintro ⟨hseen, ⟨hpart, hhas, hdistinct⟩, hfits⟩
      obtain ⟨policy, hat⟩ := hpolicy.mpr hhas
      obtain ⟨below, hall⟩ := hbelow.mpr ⟨hdistinct, by simp, hfits⟩
      exact ⟨_, hpart, hseen, policy, below, hat, hall, rfl⟩

/-- A configuration has a plan exactly if it is that of a tree. -/
theorem exists_plan_iff (c : QueueConfig F) :
    (∃ planned, c.plan = .ok planned) ↔ c.Admissible := by
  have hbelow := exists_planAll_iff c.children QueueName.root []
    fun c _ => exists_planQueue_iff c QueueName.root
  have hpolicy := exists_policyAt_iff c QueueName.root Depth.top
  simp only [plan_eq_ok_iff]
  constructor
  · rintro ⟨planned, hname, hat, hall⟩
    obtain ⟨hdistinct, -, hfits⟩ := hbelow.mp ⟨planned, hall⟩
    exact ⟨hname, hpolicy.mp hat, hdistinct, hfits⟩
  · rintro ⟨hname, hhas, hdistinct, hfits⟩
    obtain ⟨planned, hall⟩ := hbelow.mpr ⟨hdistinct, by simp, hfits⟩
    exact ⟨planned, hname, hpolicy.mpr hhas, hall⟩

/-- A configuration that is not that of a tree is refused a plan, and no other is. -/
theorem plan_fails_iff (c : QueueConfig F) : (∃ e, c.plan = .error e) ↔ ¬ c.Admissible := by
  rw [← exists_plan_iff]
  cases c.plan <;> simp

end Allotment.QueueConfig
