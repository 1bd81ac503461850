import DlpServer.Lib.Best
import DlpServer.Policy.Engine

/-!
# The order of the rows

`_load_ruleset` reads rules and overrides in whatever order the database gives
them, and `pick_action` takes the first of the best. The order does not matter
exactly when the best of each table agree on the action (`row_order_iff`).
-/

namespace DlpServer.Policy

open Best

section Rows

variable (u : Unicode) (rs : Ruleset) (purpose : String) (role : Option String)
  (entityType : String) (riskScore : PyFloat) (injectionHit : Bool)

/-- The override fires. -/
def fires (o : Override) : Bool := evalCondition u o.conditionExpr riskScore injectionHit

/-- The action of the override that decides, if one fires. -/
def overrideAction (overrides : List Override) : Option Action :=
  ((overrides.filter (fires u riskScore injectionHit)).argmax overrideKey).map Override.action

/-- The action of the rule that decides, if one matches. -/
def ruleAction (rules : List Rule) : Option Action :=
  ((rules.filter (ruleMatches purpose role entityType)).argmax ruleKey).map Rule.action

theorem pickAction_eq : pickAction u rs purpose role entityType riskScore injectionHit =
    (overrideAction u riskScore injectionHit rs.overrides).getD
      ((ruleAction purpose role entityType rs.rules).getD fallbackAction) := by
  unfold pickAction overrideAction ruleAction fires
  dsimp only
  cases (rs.overrides.filter fun o =>
    evalCondition u o.conditionExpr riskScore injectionHit).argmax overrideKey with
  | some o => rfl
  | none =>
      cases (rs.rules.filter (ruleMatches purpose role entityType)).argmax ruleKey with
      | some r => rfl
      | none => rfl

/-- The overrides of the highest priority among those that fire agree on the action,
and where none fires the matching rules of the greatest specificity and priority do. -/
structure Settled : Prop where
  overrides : ∀ o o', IsBest overrideKey (rs.overrides.filter (fires u riskScore injectionHit)) o →
    IsBest overrideKey (rs.overrides.filter (fires u riskScore injectionHit)) o' →
    o.action = o'.action
  rules : rs.overrides.filter (fires u riskScore injectionHit) = [] →
    ∀ r r', IsBest ruleKey (rs.rules.filter (ruleMatches purpose role entityType)) r →
      IsBest ruleKey (rs.rules.filter (ruleMatches purpose role entityType)) r' →
      r.action = r'.action

end Rows

section Order

variable {u : Unicode} {rs : Ruleset} {purpose : String} {role : Option String}
  {entityType : String} {riskScore : PyFloat} {injectionHit : Bool}

theorem filter_nil_of_perm {α : Type*} {p : α → Bool} {l l' : List α} (hperm : l'.Perm l)
    (hnil : l.filter p = []) : l'.filter p = [] :=
  List.Perm.eq_nil (hnil ▸ hperm.filter p)

theorem overrideAction_none {overrides : List Override} :
    overrideAction u riskScore injectionHit overrides = none ↔
      overrides.filter (fires u riskScore injectionHit) = [] := by
  rw [overrideAction, Option.map_eq_none_iff, List.argmax_eq_none]

theorem ruleAction_none {rules : List Rule} :
    ruleAction purpose role entityType rules = none ↔
      rules.filter (ruleMatches purpose role entityType) = [] := by
  rw [ruleAction, Option.map_eq_none_iff, List.argmax_eq_none]

theorem pickAction_of_settled {rs' : Ruleset}
    (h : Settled u rs purpose role entityType riskScore injectionHit)
    (hrules : rs'.rules.Perm rs.rules) (hoverrides : rs'.overrides.Perm rs.overrides) :
    pickAction u rs' purpose role entityType riskScore injectionHit =
      pickAction u rs purpose role entityType riskScore injectionHit := by
  classical
  have hsame : overrideAction u riskScore injectionHit rs'.overrides =
      overrideAction u riskScore injectionHit rs.overrides :=
    (first_best_iff _ _ _ _).mpr h.overrides _ hoverrides
  rw [pickAction_eq, pickAction_eq, hsame]
  cases hfired : overrideAction u riskScore injectionHit rs.overrides with
  | some action => rfl
  | none =>
      have hrule : ruleAction purpose role entityType rs'.rules =
          ruleAction purpose role entityType rs.rules :=
        (first_best_iff _ _ _ _).mpr (h.rules (overrideAction_none.mp hfired)) _ hrules
      rw [hrule]

/-- Where the order does not matter for a request, the best agree. -/
theorem settled_of_order
    (h : ∀ rs' : Ruleset, rs'.rules.Perm rs.rules → rs'.overrides.Perm rs.overrides →
      pickAction u rs' purpose role entityType riskScore injectionHit =
        pickAction u rs purpose role entityType riskScore injectionHit) :
    Settled u rs purpose role entityType riskScore injectionHit := by
  classical
  constructor
  · refine (first_best_iff _ _ _ _).mp fun overrides hperm => ?_
    show overrideAction u riskScore injectionHit overrides =
      overrideAction u riskScore injectionHit rs.overrides
    have hpick := h ⟨rs.rules, overrides⟩ (List.Perm.refl _) hperm
    rw [pickAction_eq, pickAction_eq] at hpick
    cases hfired : overrideAction u riskScore injectionHit rs.overrides with
    | none => exact overrideAction_none.mpr (filter_nil_of_perm hperm (overrideAction_none.mp hfired))
    | some action =>
        cases hfired' : overrideAction u riskScore injectionHit overrides with
        | none =>
            have := overrideAction_none.mpr
              (filter_nil_of_perm hperm.symm (overrideAction_none.mp hfired'))
            rw [hfired] at this
            cases this
        | some action' =>
            rw [hfired] at hpick
            dsimp only at hpick
            rw [hfired'] at hpick
            exact congrArg some hpick
  · intro hnone
    refine (first_best_iff _ _ _ _).mp fun rules hperm => ?_
    show ruleAction purpose role entityType rules = ruleAction purpose role entityType rs.rules
    have hpick := h ⟨rules, rs.overrides⟩ hperm (List.Perm.refl _)
    rw [pickAction_eq, pickAction_eq] at hpick
    dsimp only at hpick
    rw [overrideAction_none.mpr hnone] at hpick
    cases hmatch : ruleAction purpose role entityType rs.rules with
    | none => exact ruleAction_none.mpr (filter_nil_of_perm hperm (ruleAction_none.mp hmatch))
    | some action =>
        cases hmatch' : ruleAction purpose role entityType rules with
        | none =>
            have := ruleAction_none.mpr
              (filter_nil_of_perm hperm.symm (ruleAction_none.mp hmatch'))
            rw [hmatch] at this
            cases this
        | some action' =>
            rw [hmatch, hmatch'] at hpick
            exact congrArg some hpick

/-- **Decisions do not depend on the order of the rows** exactly when for every
request the best of the overrides that fire, and where none fires the best of the
matching rules, agree on the action. -/
theorem row_order_iff (u : Unicode) (rs : Ruleset) :
    (∀ rs' : Ruleset, rs'.rules.Perm rs.rules → rs'.overrides.Perm rs.overrides →
      ∀ purpose role entityType riskScore injectionHit,
        pickAction u rs' purpose role entityType riskScore injectionHit =
          pickAction u rs purpose role entityType riskScore injectionHit) ↔
      ∀ purpose role entityType riskScore injectionHit,
        Settled u rs purpose role entityType riskScore injectionHit := by
  constructor
  · intro h purpose role entityType riskScore injectionHit
    exact settled_of_order fun rs' hrules hoverrides =>
      h rs' hrules hoverrides purpose role entityType riskScore injectionHit
  · intro h rs' hrules hoverrides purpose role entityType riskScore injectionHit
    exact pickAction_of_settled (h purpose role entityType riskScore injectionHit) hrules hoverrides

/-- Two rules of one specificity and priority, one for a role and one for a type. -/
theorem equal_rules_differ :
    let byRole : Rule := ⟨none, some "agent_l1", none, .keep, 0⟩
    let byType : Rule := ⟨none, none, some "CARD", .block, 0⟩
    [byType, byRole].Perm [byRole, byType] ∧
      pickAction .ascii ⟨[byRole, byType], []⟩ "unknown" (some "agent_l1") "CARD" 0 false = .keep ∧
      pickAction .ascii ⟨[byType, byRole], []⟩ "unknown" (some "agent_l1") "CARD" 0 false = .block :=
  ⟨List.Perm.swap _ _ _, by decide +kernel, by decide +kernel⟩

end Order

end DlpServer.Policy
