import DlpServer.Policy.Order
import DlpServer.Vault.Spec

/-!
# Seeding the policy (`scripts/seed_policy.py`)

`seed` stores the rules of the policy file as rows of `policy_rules`, and the default as
one more row, without any axis and of priority `-1`. `_load_ruleset` reads the rows of
the active version in an order the database does not say. What the engine makes of them
is what the file says, unless the row of the default comes before a rule of the file, or
the column has cut the role of a rule (`seed_preserves_iff`).
-/

namespace DlpServer.Policy

open Best Vault

/-! ## The policy file -/

/-- A rule of `policy.yaml`; `none` is a missing key. -/
structure SpecRule where
  purpose : Option String
  role : Option String
  entity : Option String
  action : Option String
  priority : Option ℤ

structure SpecOverride where
  when : Option Text
  action : Option String
  priority : Option ℤ

structure Spec where
  rules : List SpecRule := []
  defaultAction : Option String := none
  riskOverrides : List SpecOverride := []

/-! ## The tables -/

/-- `purpose_ref`. -/
def purposeRef : List String :=
  ["customer_support", "doc_summarize", "code_help", "data_analysis", "fraud_investigation",
   "unknown"]

/-- The labels of `action_type`. -/
def actionType (name : String) : Option Action :=
  match name with
  | "keep" => some .keep
  | "mask" => some .mask
  | "generalize" => some .generalize
  | "aggregate" => some .aggregate
  | "tokenize" => some .tokenize
  | "synthetic" => some .synthetic
  | "redact" => some .redact
  | "block" => some .block
  | _ => none

structure VersionRow where
  policyVersionId : ℕ
  isActive : Bool

/-- The policy tables. Rules and overrides stand with the version they belong to;
`nextVersion` is the sequence behind `policy_version_id`. -/
structure PolicyDb where
  nextVersion : ℕ
  versions : List VersionRow
  rules : List (ℕ × Rule)
  overrides : List (ℕ × Override)
  versions_lt : ∀ v ∈ versions, v.policyVersionId < nextVersion
  rules_lt : ∀ r ∈ rules, r.1 < nextVersion
  overrides_lt : ∀ o ∈ overrides, o.1 < nextVersion

def PolicyDb.empty : PolicyDb where
  nextVersion := 1
  versions := []
  rules := []
  overrides := []
  versions_lt := by simp
  rules_lt := by simp
  overrides_lt := by simp

inductive SeedError where
  | key                           -- `rule["action"]`, `ov["when"]`, `ov["action"]`
  | database (e : VaultError)
deriving DecidableEq

/-! ## The script -/

/-- `_norm`. -/
def norm (value : Option String) : Option String :=
  if value ∈ [none, some "", some "*"] then none else value

/-- A subscript: a missing key raises. -/
def required {α : Type} (value : Option α) : Except SeedError α :=
  match value with
  | some x => .ok x
  | none => .error .key

/-- An `INT` column. -/
def intColumn (n : ℤ) : Except VaultError ℤ :=
  if -2 ^ 31 ≤ n ∧ n < 2 ^ 31 then .ok n else .error .data

/-- An `action_type` column. -/
def actionColumn (name : String) : Except VaultError Action :=
  match actionType name with
  | some action => .ok action
  | none => .error .data

/-- The `role` column, a `VARCHAR(64)`. -/
def roleColumn (role : Option String) : Except VaultError (Option String) :=
  match role with
  | none => .ok none
  | some x => (varchar 64 x.toList).map fun t => some (String.ofList t)

/-- A foreign key on a column that may be `NULL`. -/
def referenced (codes : List String) (value : Option String) : Except VaultError (Option String) :=
  if ∀ x ∈ value, x ∈ codes then .ok value else .error .foreignKey

/-- The checks of `INSERT INTO policy_rules`. -/
def checkRule (purpose role entityType : Option String) (action : String) (priority : ℤ) :
    Except VaultError Rule := do
  let purpose ← referenced purposeRef purpose
  let role ← roleColumn role
  let entityType ← referenced entityTypeRef entityType
  let action ← actionColumn action
  let priority ← intColumn priority
  .ok ⟨purpose, role, entityType, action, priority⟩

def seedRule (r : SpecRule) : Except SeedError Rule := do
  let action ← required r.action
  (checkRule (norm r.purpose) (norm r.role) (norm r.entity) action (r.priority.getD 0)).mapError
    .database

/-- The row of `defaults.action`, which is stored if it is not empty. -/
def seedDefault (defaultAction : Option String) : Except SeedError (List Rule) :=
  match defaultAction with
  | none => .ok []
  | some name =>
      if name = "" then .ok []
      else ((checkRule none none none name (-1)).map fun rule => [rule]).mapError .database

def seedOverride (o : SpecOverride) : Except SeedError Override := do
  let condition ← required o.when
  let action ← required o.action
  let row : Except VaultError Override := do
    let condition ← textColumn condition
    let action ← actionColumn action
    let priority ← intColumn (o.priority.getD 100)
    .ok ⟨condition, action, priority⟩
  row.mapError .database

/-- The tables with a new version, the only active one. -/
def PolicyDb.activate (db : PolicyDb) (rules : List Rule) (overrides : List Override) :
    PolicyDb where
  nextVersion := db.nextVersion + 1
  versions := db.versions.map (fun v => { v with isActive := false }) ++ [⟨db.nextVersion, true⟩]
  rules := db.rules ++ rules.map fun r => (db.nextVersion, r)
  overrides := db.overrides ++ overrides.map fun o => (db.nextVersion, o)
  versions_lt v hv := by
    rcases List.mem_append.mp hv with hv | hv
    · obtain ⟨v', hv', rfl⟩ := List.mem_map.mp hv
      exact Nat.lt_succ_of_lt (db.versions_lt v' hv')
    · obtain rfl := List.mem_singleton.mp hv
      exact Nat.lt_succ_self _
  rules_lt r hr := by
    rcases List.mem_append.mp hr with hr | hr
    · exact Nat.lt_succ_of_lt (db.rules_lt r hr)
    · obtain ⟨r', -, rfl⟩ := List.mem_map.mp hr
      exact Nat.lt_succ_self _
  overrides_lt o ho := by
    rcases List.mem_append.mp ho with ho | ho
    · exact Nat.lt_succ_of_lt (db.overrides_lt o ho)
    · obtain ⟨o', -, rfl⟩ := List.mem_map.mp ho
      exact Nat.lt_succ_self _

/-- `seed`, one transaction: it returns the version, or raises and stores nothing. -/
def seed (db : PolicyDb) (spec : Spec) : Except SeedError (PolicyDb × ℕ) := do
  let rules ← spec.rules.mapM seedRule
  let default ← seedDefault spec.defaultAction
  let overrides ← spec.riskOverrides.mapM seedOverride
  .ok (db.activate (rules ++ default) overrides, db.nextVersion)

/-- `_load_ruleset`, with the rows in the order in which they are stored. -/
def loadRuleset (db : PolicyDb) : Ruleset :=
  match db.versions.find? VersionRow.isActive with
  | none => {}
  | some v =>
      ⟨(db.rules.filter fun r => r.1 = v.policyVersionId).map Prod.snd,
       (db.overrides.filter fun o => o.1 = v.policyVersionId).map Prod.snd⟩

/-- A ruleset that `_load_ruleset` may return: without `ORDER BY` the rows come in any
order. -/
structure Reads (db : PolicyDb) (rs : Ruleset) : Prop where
  rules : rs.rules.Perm (loadRuleset db).rules
  overrides : rs.overrides.Perm (loadRuleset db).overrides

/-! ## What the file says -/

/-- An axis left open: `"*"`, `""` or no key. -/
def wildcard (axis : Option String) : Bool := decide (axis ∈ [none, some "", some "*"])

/-- The axis says nothing of the value, or names it. -/
def axisCovers (axis value : Option String) : Bool := wildcard axis || axis == value

/-- The rule speaks about the request. -/
def SpecRule.covers (purpose : String) (role : Option String) (entityType : String)
    (r : SpecRule) : Bool :=
  axisCovers r.purpose (some purpose) && axisCovers r.role role &&
    axisCovers r.entity (some entityType)

/-- How many axes the rule names. -/
def SpecRule.named (r : SpecRule) : ℕ :=
  (!wildcard r.purpose).toNat + (!wildcard r.role).toNat + (!wildcard r.entity).toNat

/-- What decides between two rules: how specific they are, then their priority. -/
def SpecRule.rank (r : SpecRule) : RuleKey := (toLex (r.named, r.priority.getD 0) : ℕ ×ₗ ℤ)

/-- `defaults.action`, if the file gives one. -/
def Spec.default (spec : Spec) : Option String :=
  match spec.defaultAction with
  | none => none
  | some name => if name = "" then none else some name

section Meaning

variable (spec : Spec) (purpose : String) (role : Option String) (entityType : String)

/-- The rule of the file that decides the request. -/
def Spec.chosen : Option SpecRule :=
  (spec.rules.filter (SpecRule.covers purpose role entityType)).argmax SpecRule.rank

/-- **The meaning of the file**: the action of the deciding rule, and where there is none
that of the defaults. -/
def Spec.means : Option Action :=
  match spec.chosen purpose role entityType with
  | some r => r.action.bind actionType
  | none =>
      match spec.default with
      | some name => actionType name
      | none => some fallbackAction

/-- No two rules about the request are equally specific and of one priority. -/
def Spec.Untied : Prop :=
  (spec.rules.filter (SpecRule.covers purpose role entityType)).Pairwise
    fun r r' => r.rank ≠ r'.rank

instance : Decidable (spec.Untied purpose role entityType) :=
  inferInstanceAs (Decidable (List.Pairwise _ _))

/-- The first 64 characters, which is what the column keeps of a role. -/
def cutRole (x : String) : String := String.ofList (x.toList.take 64)

/-- The role of the request is not that of a rule which the column cuts, nor what the cut
leaves of it. -/
def Spec.Uncut : Prop :=
  ∀ r ∈ spec.rules, ∀ x, r.role = some x → cutRole x ≠ x → role ≠ some x ∧ role ≠ some (cutRole x)

/-- The rule as it is stored speaks about the request. -/
def SpecRule.coversStored (r : SpecRule) : Bool :=
  axisCovers r.purpose (some purpose) && axisMatches ((norm r.role).map cutRole) role &&
    axisCovers r.entity (some entityType)

/-- The rank of the row of the default. -/
def defaultRank : RuleKey := (toLex (0, -1) : ℕ ×ₗ ℤ)

/-- Nothing that is stored about the request comes before the rank. -/
def Spec.Unbeaten (k : RuleKey) : Prop :=
  (∀ r ∈ spec.rules, r.coversStored purpose role entityType = true → r.rank ≤ k) ∧
    (spec.default ≠ none → defaultRank ≤ k)

/-- What is stored may decide otherwise than the file: by a rule that is not the one of the
file, by the row of the default, or by nothing. -/
inductive Spec.Misled : Prop
  | rule {r : SpecRule} : r ∈ spec.rules → r.coversStored purpose role entityType = true →
      spec.Unbeaten purpose role entityType r.rank →
      r.action.bind actionType ≠ spec.means purpose role entityType → Spec.Misled
  | default {name : String} : spec.default = some name →
      spec.Unbeaten purpose role entityType defaultRank →
      actionType name ≠ spec.means purpose role entityType → Spec.Misled
  | nothing : spec.default = none →
      (∀ r ∈ spec.rules, r.coversStored purpose role entityType = false) →
      some fallbackAction ≠ spec.means purpose role entityType → Spec.Misled

/-- The row of the default comes before the rule that decides: the rule names no axis, its
priority is not above `-1`, and the default asks for another action. -/
def Spec.Overtaken : Prop :=
  ∃ r name, spec.chosen purpose role entityType = some r ∧ spec.default = some name ∧
    r.named = 0 ∧ r.priority.getD 0 ≤ -1 ∧ r.action ≠ some name

end Meaning

/-! ## Rows of the file -/

/-- The rule of the file is stored as the row. -/
structure Stores (r : SpecRule) (row : Rule) : Prop where
  purpose : row.purpose = norm r.purpose
  role : row.role = (norm r.role).map cutRole
  entityType : row.entityType = norm r.entity
  action : ∃ name, r.action = some name ∧ actionType name = some row.action
  priority : row.priority = r.priority.getD 0

theorem mapError_ok {ε ε' α : Type} {f : ε → ε'} {x : Except ε α} {a : α} :
    x.mapError f = .ok a ↔ x = .ok a := by
  cases x with
  | error e => simp [Except.mapError]
  | ok b => simp [Except.mapError]

theorem required_ok {α : Type} {value : Option α} {x : α} :
    required value = .ok x ↔ value = some x := by
  cases value with
  | none => simp [required]
  | some y => simp [required]

theorem referenced_ok {codes : List String} {value value' : Option String}
    (h : referenced codes value = .ok value') : value' = value := by
  unfold referenced at h
  split at h
  · exact (Except.ok.inj h).symm
  · cases h

theorem actionColumn_ok {name : String} {action : Action} (h : actionColumn name = .ok action) :
    actionType name = some action := by
  unfold actionColumn at h
  split at h
  · rename_i heq
    rw [heq, Except.ok.inj h]
  · cases h

theorem intColumn_ok {n m : ℤ} (h : intColumn n = .ok m) : m = n := by
  unfold intColumn at h
  split at h
  · exact (Except.ok.inj h).symm
  · cases h

theorem roleColumn_ok {role role' : Option String} (h : roleColumn role = .ok role') :
    role' = role.map cutRole := by
  cases role with
  | none => exact (Except.ok.inj h).symm
  | some x =>
      cases hcut : varchar 64 x.toList with
      | error e =>
          rw [roleColumn, hcut] at h
          cases h
      | ok t =>
          rw [roleColumn, hcut] at h
          rw [← Except.ok.inj h, (varchar_ok hcut).1]
          rfl

/-- What is stored when the checks pass. -/
theorem checkRule_ok {purpose role entityType : Option String} {name : String} {priority : ℤ}
    {row : Rule} (h : checkRule purpose role entityType name priority = .ok row) :
    row.purpose = purpose ∧ row.role = role.map cutRole ∧ row.entityType = entityType ∧
      actionType name = some row.action ∧ row.priority = priority := by
  unfold checkRule at h
  obtain ⟨p, hp, h⟩ := bind_ok.mp h
  obtain ⟨r, hr, h⟩ := bind_ok.mp h
  obtain ⟨e, he, h⟩ := bind_ok.mp h
  obtain ⟨a, ha, h⟩ := bind_ok.mp h
  obtain ⟨n, hn, h⟩ := bind_ok.mp h
  obtain rfl := Except.ok.inj h
  exact ⟨referenced_ok hp, roleColumn_ok hr, referenced_ok he, actionColumn_ok ha, intColumn_ok hn⟩

theorem seedRule_stores {r : SpecRule} {row : Rule} (h : seedRule r = .ok row) : Stores r row := by
  obtain ⟨name, hname, h⟩ := bind_ok.mp h
  obtain ⟨hpurpose, hrole, hentity, haction, hpriority⟩ := checkRule_ok (mapError_ok.mp h)
  exact ⟨hpurpose, hrole, hentity, ⟨name, required_ok.mp hname, haction⟩, hpriority⟩

theorem seedOverride_ok {o : SpecOverride} {row : Override} (h : seedOverride o = .ok row) :
    o.when = some row.conditionExpr := by
  obtain ⟨condition, hcondition, h⟩ := bind_ok.mp h
  obtain ⟨name, -, h⟩ := bind_ok.mp h
  obtain ⟨t, ht, h⟩ := bind_ok.mp (mapError_ok.mp h)
  obtain ⟨a, -, h⟩ := bind_ok.mp h
  obtain ⟨n, -, h⟩ := bind_ok.mp h
  obtain rfl := Except.ok.inj h
  rw [required_ok.mp hcondition]
  unfold textColumn at ht
  split at ht
  · cases ht
  · exact congrArg some (Except.ok.inj ht)

/-- The row of the default. -/
def DefaultRow (spec : Spec) (rows : List Rule) : Prop :=
  match spec.default with
  | none => rows = []
  | some name => ∃ action, actionType name = some action ∧ rows = [⟨none, none, none, action, -1⟩]

theorem seedDefault_ok {spec : Spec} {rows : List Rule}
    (h : seedDefault spec.defaultAction = .ok rows) : DefaultRow spec rows := by
  unfold DefaultRow Spec.default
  unfold seedDefault at h
  cases hdefault : spec.defaultAction with
  | none =>
      rw [hdefault] at h
      exact (Except.ok.inj h).symm
  | some name =>
      rw [hdefault] at h
      dsimp only at h ⊢
      by_cases hempty : name = ""
      · rw [if_pos hempty] at h ⊢
        exact (Except.ok.inj h).symm
      · rw [if_neg hempty] at h ⊢
        cases hrow : checkRule none none none name (-1) with
        | error e =>
            rw [hrow] at h
            cases h
        | ok row =>
            rw [hrow] at h
            obtain ⟨hpurpose, hrole, hentity, haction, hpriority⟩ := checkRule_ok hrow
            refine ⟨row.action, haction, ?_⟩
            obtain ⟨_, _, _, _, _⟩ := row
            cases hpurpose
            cases hrole
            cases hentity
            cases hpriority
            exact (Except.ok.inj h).symm

theorem mapM_forall₂ {ε : Type} {α β : Type} {f : α → Except ε β} {R : α → β → Prop}
    (hf : ∀ a b, f a = .ok b → R a b) {l : List α} {l' : List β} (h : l.mapM f = .ok l') :
    List.Forall₂ R l l' := by
  induction l generalizing l' with
  | nil =>
      obtain rfl : [] = l' := Except.ok.inj h
      exact .nil
  | cons a l ih =>
      rw [List.mapM_cons] at h
      obtain ⟨b, hb, h⟩ := bind_ok.mp h
      obtain ⟨bs, hbs, h⟩ := bind_ok.mp h
      obtain rfl : b :: bs = l' := Except.ok.inj h
      exact .cons (hf a b hb) (ih hbs)

/-- **What is read back** of a seeded file: a row for each rule, and that of the default. -/
theorem read_back {db db' : PolicyDb} {spec : Spec} {version : ℕ}
    (h : seed db spec = .ok (db', version)) :
    ∃ rows default overrides, List.Forall₂ Stores spec.rules rows ∧ DefaultRow spec default ∧
      List.Forall₂ (fun o row => o.when = some row.conditionExpr) spec.riskOverrides overrides ∧
      loadRuleset db' = ⟨rows ++ default, overrides⟩ := by
  obtain ⟨rows, hrows, h⟩ := bind_ok.mp h
  obtain ⟨default, hdefault, h⟩ := bind_ok.mp h
  obtain ⟨overrides, hoverrides, h⟩ := bind_ok.mp h
  obtain ⟨rfl, rfl⟩ := Prod.mk.inj (Except.ok.inj h)
  refine ⟨rows, default, overrides, mapM_forall₂ (fun _ _ => seedRule_stores) hrows,
    seedDefault_ok hdefault, mapM_forall₂ (fun _ _ => seedOverride_ok) hoverrides, ?_⟩
  have hnone : (db.versions.map fun v : VersionRow => { v with isActive := false }).find?
      VersionRow.isActive = none := by
    refine List.find?_eq_none.mpr fun v hv hactive => ?_
    obtain ⟨v', -, rfl⟩ := List.mem_map.mp hv
    cases hactive
  have hactive : (db.activate (rows ++ default) overrides).versions.find? VersionRow.isActive =
      some ⟨db.nextVersion, true⟩ := by
    show ((db.versions.map fun v : VersionRow => { v with isActive := false }) ++
      [(⟨db.nextVersion, true⟩ : VersionRow)]).find? VersionRow.isActive = _
    rw [List.find?_append, hnone]
    rfl
  rw [loadRuleset, hactive]
  -- Older rows have older versions.
  have hown : ∀ {α : Type} (old : List (ℕ × α)) (new : List α), (∀ p ∈ old, p.1 < db.nextVersion) →
      ((old ++ new.map fun x => (db.nextVersion, x)).filter fun p => p.1 = db.nextVersion).map
        Prod.snd = new := by
    intro α old new hold
    have hfirst : old.filter (fun p => p.1 = db.nextVersion) = [] :=
      List.filter_eq_nil_iff.mpr fun p hp heq => (hold p hp).ne (of_decide_eq_true heq)
    have hsecond : (new.map fun x => (db.nextVersion, x)).filter
        (fun p => p.1 = db.nextVersion) = new.map fun x => (db.nextVersion, x) := by
      refine List.filter_eq_self.mpr fun p hp => ?_
      obtain ⟨x, -, rfl⟩ := List.mem_map.mp hp
      exact decide_eq_true rfl
    rw [List.filter_append, hfirst, hsecond, List.nil_append, List.map_map]
    exact List.map_id' new
  have hrules := hown db.rules (rows ++ default) db.rules_lt
  have hoverrides := hown db.overrides overrides db.overrides_lt
  exact congrArg₂ Ruleset.mk hrules hoverrides

/-! ## A row and its rule -/

theorem norm_isNone (axis : Option String) : (norm axis).isNone = wildcard axis := by
  unfold norm wildcard
  split
  · rename_i h
    rw [decide_eq_true h]
    rfl
  · rename_i h
    rw [decide_eq_false h]
    cases axis with
    | none => exact absurd (by simp) h
    | some x => rfl

theorem norm_matches (axis value : Option String) :
    axisMatches (norm axis) value = axisCovers axis value := by
  rw [axisMatches, axisCovers, norm_isNone]
  unfold norm wildcard
  split
  · rename_i h
    rw [decide_eq_true h]
    rfl
  · rfl

section Rows

variable {spec : Spec} {purpose : String} {role : Option String} {entityType : String}

theorem role_matches (h : spec.Uncut role) {r : SpecRule} (hr : r ∈ spec.rules) :
    axisMatches ((norm r.role).map cutRole) role = axisCovers r.role role := by
  rw [← norm_matches]
  cases hnorm : norm r.role with
  | none => rfl
  | some x =>
      have hrole : r.role = some x := by
        unfold norm at hnorm
        split at hnorm
        · cases hnorm
        · exact hnorm
      by_cases hcut : cutRole x = x
      · rw [Option.map_some, hcut]
      · obtain ⟨hne, hne'⟩ := h r hr x hrole hcut
        have hbeq : (some x == role) = false := beq_eq_false_iff_ne.mpr hne.symm
        have hbeq' : (some (cutRole x) == role) = false := beq_eq_false_iff_ne.mpr hne'.symm
        show (false || (some (cutRole x) == role)) = (false || (some x == role))
        rw [hbeq, hbeq']

/-- Without a cut the rule is stored as it is. -/
theorem coversStored_eq (h : spec.Uncut role) {r : SpecRule} (hr : r ∈ spec.rules) :
    r.coversStored purpose role entityType = r.covers purpose role entityType := by
  rw [SpecRule.coversStored, SpecRule.covers, role_matches h hr]

/-- A row matches the requests its rule as it is stored is about. -/
theorem Stores.covers {r : SpecRule} {row : Rule} (hrow : Stores r row) :
    ruleMatches purpose role entityType row = r.coversStored purpose role entityType := by
  rw [ruleMatches, SpecRule.coversStored, hrow.purpose, hrow.role, hrow.entityType, norm_matches,
    norm_matches]

theorem Stores.rank {r : SpecRule} {row : Rule} (hrow : Stores r row) :
    ruleKey row = r.rank := by
  have hsome : ∀ axis, (norm axis).isSome = !wildcard axis := fun axis => by
    rw [← norm_isNone, Option.not_isNone]
  have hnamed : specificity row = r.named := by
    rw [specificity, SpecRule.named, hrow.purpose, hrow.role, hrow.entityType, Option.isSome_map,
      hsome, hsome, hsome]
  rw [ruleKey, SpecRule.rank, hnamed, hrow.priority]

theorem exists_of_forall₂ {α β : Type} {R : α → β → Prop} {l : List α} {l' : List β}
    (h : List.Forall₂ R l l') : (∀ a ∈ l, ∃ b ∈ l', R a b) ∧ ∀ b ∈ l', ∃ a ∈ l, R a b := by
  induction h with
  | nil => simp
  | cons hab _ ih =>
      obtain ⟨ih, ih'⟩ := ih
      constructor
      · intro a ha
        rcases List.mem_cons.mp ha with rfl | ha
        · exact ⟨_, List.mem_cons_self, hab⟩
        · obtain ⟨b, hb, hrel⟩ := ih a ha
          exact ⟨b, List.mem_cons_of_mem _ hb, hrel⟩
      · intro b hb
        rcases List.mem_cons.mp hb with rfl | hb
        · exact ⟨_, List.mem_cons_self, hab⟩
        · obtain ⟨a, ha, hrel⟩ := ih' b hb
          exact ⟨a, List.mem_cons_of_mem _ ha, hrel⟩

theorem default_matches {rows : List Rule} (h : DefaultRow spec rows) :
    rows.filter (ruleMatches purpose role entityType) = rows := by
  unfold DefaultRow at h
  refine List.filter_eq_self.mpr fun row hrow => ?_
  split at h
  · rw [h] at hrow
    cases hrow
  · obtain ⟨action, -, rfl⟩ := h
    obtain rfl := List.mem_singleton.mp hrow
    rfl

/-- Of the rules about a request, those of one rank are one. -/
theorem Spec.Untied.eq (h : spec.Untied purpose role entityType) {r r' : SpecRule}
    (hr : r ∈ spec.rules.filter (SpecRule.covers purpose role entityType))
    (hr' : r' ∈ spec.rules.filter (SpecRule.covers purpose role entityType))
    (hrank : r.rank = r'.rank) : r = r' := by
  by_contra hne
  have : Std.Symm fun r r' : SpecRule => r.rank ≠ r'.rank := ⟨fun _ _ h => h.symm⟩
  exact h.forall hr hr' hne hrank

end Rows

/-! ## What the engine makes of the rows -/

def actionName : Action → String
  | .keep => "keep"
  | .mask => "mask"
  | .generalize => "generalize"
  | .aggregate => "aggregate"
  | .tokenize => "tokenize"
  | .synthetic => "synthetic"
  | .redact => "redact"
  | .block => "block"

theorem eq_actionName {name : String} {action : Action} (h : actionType name = some action) :
    name = actionName action := by
  unfold actionType at h
  split at h <;> cases h <;> rfl

section Requests

variable {spec : Spec} {purpose : String} {role : Option String} {entityType : String}
  {rows default l : List Rule}

theorem rank_le_default {r : SpecRule} :
    r.rank ≤ defaultRank ↔ r.named = 0 ∧ r.priority.getD 0 ≤ -1 := by
  show (toLex (r.named, r.priority.getD 0) : ℕ ×ₗ ℤ) ≤ toLex (0, -1) ↔ _
  rw [Prod.Lex.toLex_le_toLex]
  simp

/-- What is stored about the request: rows of rules, and the row of the default. -/
theorem mem_stored (hrows : List.Forall₂ Stores spec.rules rows) (hdefault : DefaultRow spec default)
    {t : Rule} : t ∈ (rows ++ default).filter (ruleMatches purpose role entityType) ↔
      (t ∈ rows ∧ ∃ r ∈ spec.rules, Stores r t ∧ r.coversStored purpose role entityType = true) ∨
        t ∈ default := by
  rw [List.filter_append, default_matches hdefault, List.mem_append, List.mem_filter]
  refine or_congr_left (and_congr_right fun ht => ?_)
  obtain ⟨r, hr, hstores⟩ := (exists_of_forall₂ hrows).2 t ht
  constructor
  · intro hmatch
    exact ⟨r, hr, hstores, hstores.covers ▸ hmatch⟩
  · rintro ⟨r', -, hstores', hcovers⟩
    rw [hstores'.covers]
    exact hcovers

theorem mem_default (hdefault : DefaultRow spec default) {t : Rule} (ht : t ∈ default) :
    ∃ name, spec.default = some name ∧ actionType name = some t.action ∧
      ruleKey t = defaultRank := by
  unfold DefaultRow at hdefault
  cases hname : spec.default with
  | none =>
      rw [hname] at hdefault
      rw [hdefault] at ht
      cases ht
  | some name =>
      rw [hname] at hdefault
      obtain ⟨action, haction, rfl⟩ := hdefault
      obtain rfl := List.mem_singleton.mp ht
      exact ⟨name, rfl, haction, rfl⟩

theorem default_stored (hdefault : DefaultRow spec default) {name : String}
    (hname : spec.default = some name) :
    ∃ t ∈ default, actionType name = some t.action ∧ ruleKey t = defaultRank := by
  unfold DefaultRow at hdefault
  rw [hname] at hdefault
  obtain ⟨action, haction, rfl⟩ := hdefault
  exact ⟨_, List.mem_singleton_self _, haction, rfl⟩

theorem unbeaten_iff (hrows : List.Forall₂ Stores spec.rules rows)
    (hdefault : DefaultRow spec default) {k : RuleKey} :
    spec.Unbeaten purpose role entityType k ↔
      ∀ t ∈ (rows ++ default).filter (ruleMatches purpose role entityType), ruleKey t ≤ k := by
  constructor
  · rintro ⟨hrules, hdef⟩ t ht
    rcases (mem_stored hrows hdefault).mp ht with ⟨-, r, hr, hstores, hcovers⟩ | ht
    · rw [hstores.rank]
      exact hrules r hr hcovers
    · obtain ⟨name, hname, -, hkey⟩ := mem_default hdefault ht
      rw [hkey]
      exact hdef (by simp [hname])
  · intro h
    refine ⟨fun r hr hcovers => ?_, fun hne => ?_⟩
    · obtain ⟨t, ht, hstores⟩ := (exists_of_forall₂ hrows).1 r hr
      rw [← hstores.rank]
      exact h t ((mem_stored hrows hdefault).mpr (Or.inl ⟨ht, r, hr, hstores, hcovers⟩))
    · obtain ⟨name, hname⟩ := Option.ne_none_iff_exists'.mp hne
      obtain ⟨t, ht, -, hkey⟩ := default_stored hdefault hname
      rw [← hkey]
      exact h t ((mem_stored hrows hdefault).mpr (Or.inr ht))

theorem Stores.action_eq {r : SpecRule} {row : Rule} (h : Stores r row) :
    r.action.bind actionType = some row.action := by
  obtain ⟨name, hname, htype⟩ := h.action
  rw [hname]
  exact htype

/-- **The engine follows the file in every order of the rows** exactly when what is stored
does not mislead it. -/
theorem ruleAction_means_iff (hrows : List.Forall₂ Stores spec.rules rows)
    (hdefault : DefaultRow spec default) :
    (∀ l : List Rule, l.Perm (rows ++ default) →
        some ((ruleAction purpose role entityType l).getD fallbackAction) =
          spec.means purpose role entityType) ↔
      ¬ spec.Misled purpose role entityType := by
  classical
  have horder := first_in_any_order ruleKey (ruleMatches purpose role entityType) (rows ++ default)
    fun o => some ((o.map Rule.action).getD fallbackAction) = spec.means purpose role entityType
  refine horder.trans ⟨?_, fun hno => ⟨fun t ht => ?_, fun hnil => ?_⟩⟩
  · rintro ⟨hbest, hnone⟩ hmisled
    cases hmisled with
    | @rule r hr hcovers hunbeaten hne =>
        obtain ⟨t, ht, hstores⟩ := (exists_of_forall₂ hrows).1 r hr
        refine hne (hstores.action_eq.trans (hbest t ⟨?_, ?_⟩))
        · exact (mem_stored hrows hdefault).mpr (Or.inl ⟨ht, r, hr, hstores, hcovers⟩)
        · rw [hstores.rank]
          exact (unbeaten_iff hrows hdefault).mp hunbeaten
    | @default name hname hunbeaten hne =>
        obtain ⟨t, ht, haction, hkey⟩ := default_stored hdefault hname
        refine hne (haction.trans (hbest t ⟨(mem_stored hrows hdefault).mpr (Or.inr ht), ?_⟩))
        rw [hkey]
        exact (unbeaten_iff hrows hdefault).mp hunbeaten
    | nothing hname hcovers hne =>
        refine hne (hnone (List.eq_nil_iff_forall_not_mem.mpr fun t ht => ?_))
        rcases (mem_stored hrows hdefault).mp ht with ⟨-, r, hr, -, hyes⟩ | ht
        · rw [hcovers r hr] at hyes
          cases hyes
        · obtain ⟨name, hyes, -⟩ := mem_default hdefault ht
          rw [hname] at hyes
          cases hyes
  · -- One of the best: a row of a rule, or that of the default.
    have hunbeaten := (unbeaten_iff hrows hdefault).mpr ht.2
    by_contra hne
    rcases (mem_stored hrows hdefault).mp ht.1 with ⟨-, r, hr, hstores, hcovers⟩ | hmem
    · exact hno (.rule hr hcovers (hstores.rank ▸ hunbeaten) fun heq =>
        hne (hstores.action_eq.symm.trans heq))
    · obtain ⟨name, hname, haction, hkey⟩ := mem_default hdefault hmem
      exact hno (.default hname (hkey ▸ hunbeaten) fun heq => hne (haction.symm.trans heq))
  · by_contra hne
    refine hno (.nothing ?_ (fun r hr => ?_) hne)
    · by_contra hsome
      obtain ⟨name, hname⟩ := Option.ne_none_iff_exists'.mp hsome
      obtain ⟨t, ht, -⟩ := default_stored hdefault hname
      have hmem : t ∈ (rows ++ default).filter (ruleMatches purpose role entityType) :=
        (mem_stored hrows hdefault).mpr (Or.inr ht)
      rw [hnil] at hmem
      cases hmem
    · obtain ⟨t, ht, hstores⟩ := (exists_of_forall₂ hrows).1 r hr
      by_contra hyes
      have hmem : t ∈ (rows ++ default).filter (ruleMatches purpose role entityType) :=
        (mem_stored hrows hdefault).mpr
          (Or.inl ⟨ht, r, hr, hstores, (Bool.not_eq_false _).mp hyes⟩)
      rw [hnil] at hmem
      cases hmem

/-- Where no role is cut, what misleads the engine is the row of the default. -/
theorem misled_iff_overtaken (huncut : spec.Uncut role)
    (huntied : spec.Untied purpose role entityType) (hdefault : DefaultRow spec default) :
    spec.Misled purpose role entityType ↔ spec.Overtaken purpose role entityType := by
  have hmem : ∀ {r : SpecRule},
      r ∈ spec.rules.filter (SpecRule.covers purpose role entityType) ↔
        r ∈ spec.rules ∧ r.coversStored purpose role entityType = true := by
    intro r
    rw [List.mem_filter]
    exact and_congr_right fun hr => by rw [coversStored_eq huncut hr]
  constructor
  · intro hmisled
    cases hchosen : spec.chosen purpose role entityType with
    | none =>
        have hnil : ∀ r ∈ spec.rules, r.coversStored purpose role entityType = true → False := by
          intro r hr hcovers
          have hin := hmem.mpr ⟨hr, hcovers⟩
          rw [List.argmax_eq_none.mp hchosen] at hin
          cases hin
        exfalso
        cases hmisled with
        | rule hr hcovers => exact hnil _ hr hcovers
        | default hname _ hne =>
            rw [Spec.means, hchosen, hname] at hne
            exact hne rfl
        | nothing hname _ hne =>
            rw [Spec.means, hchosen, hname] at hne
            exact hne rfl
    | some c =>
        have hbest := IsBest.of_argmax (Option.mem_def.mpr hchosen)
        obtain ⟨hc, hccovers⟩ := hmem.mp hbest.1
        have hmeans : spec.means purpose role entityType = c.action.bind actionType := by
          rw [Spec.means, hchosen]
        cases hmisled with
        | @rule r hr hcovers hunbeaten hne =>
            have hin := hmem.mpr ⟨hr, hcovers⟩
            have hrank : r.rank = c.rank := le_antisymm (hbest.2 r hin) (hunbeaten.1 c hc hccovers)
            rw [huntied.eq hin hbest.1 hrank, hmeans] at hne
            exact absurd rfl hne
        | @default name hname hunbeaten hne =>
            obtain ⟨hnamed, hpriority⟩ := rank_le_default.mp (hunbeaten.1 c hc hccovers)
            refine ⟨c, name, hchosen, hname, hnamed, hpriority, fun heq => hne ?_⟩
            rw [hmeans, heq]
            rfl
        | nothing _ hcovers _ =>
            rw [hcovers c hc] at hccovers
            cases hccovers
  · rintro ⟨r, name, hchosen, hname, hnamed, hpriority, hne⟩
    have hbest := IsBest.of_argmax (Option.mem_def.mpr hchosen)
    refine .default hname ⟨fun r' hr' hcovers => ?_, fun _ => le_rfl⟩ fun heq => ?_
    · exact (hbest.2 r' (hmem.mpr ⟨hr', hcovers⟩)).trans (rank_le_default.mpr ⟨hnamed, hpriority⟩)
    · rw [Spec.means, hchosen] at heq
      obtain ⟨t, -, haction, -⟩ := default_stored hdefault hname
      rw [haction] at heq
      obtain ⟨name', hname', htype⟩ := Option.bind_eq_some_iff.mp heq.symm
      rw [eq_actionName haction, ← eq_actionName htype] at hne
      exact hne hname'

theorem overridden_never {u : Unicode} {riskScore : PyFloat} {injectionHit : Bool}
    {overrides l' : List Override}
    (hquiet : ∀ o ∈ spec.riskOverrides, ∀ condition, o.when = some condition →
      evalCondition u condition riskScore injectionHit = false)
    (hstored : List.Forall₂ (fun o row => o.when = some row.conditionExpr) spec.riskOverrides
      overrides) (hl' : l'.Perm overrides) :
    overrideAction u riskScore injectionHit l' = none := by
  refine overrideAction_none.mpr (List.filter_eq_nil_iff.mpr fun row hrow => ?_)
  obtain ⟨o, ho, hwhen⟩ := (exists_of_forall₂ hstored).2 row (hl'.mem_iff.mp hrow)
  rw [fires, hquiet o ho _ hwhen]
  exact Bool.false_ne_true

end Requests

/-- **Seeding preserves the meaning of the policy file** for a request exactly when what
is stored does not mislead the engine; and where the column cuts no role of a rule that
speaks about the role of the request, that is when the row of the default does not come
before the rule that decides. Ties within the file and overrides that fire are left aside. -/
theorem seed_preserves_iff (u : Unicode) (db db' : PolicyDb) (spec : Spec) (version : ℕ)
    (hseed : seed db spec = .ok (db', version)) (purpose : String) (role : Option String)
    (entityType : String) (riskScore : PyFloat) (injectionHit : Bool)
    (huntied : spec.Untied purpose role entityType)
    (hquiet : ∀ o ∈ spec.riskOverrides, ∀ condition, o.when = some condition →
      evalCondition u condition riskScore injectionHit = false) :
    ((∀ rs, Reads db' rs →
        some (pickAction u rs purpose role entityType riskScore injectionHit) =
          spec.means purpose role entityType) ↔
      ¬ spec.Misled purpose role entityType) ∧
      (spec.Uncut role →
        (spec.Misled purpose role entityType ↔ spec.Overtaken purpose role entityType)) := by
  obtain ⟨rows, default, overrides, hrows, hdefault, hstored, hload⟩ := read_back hseed
  have hpick : ∀ rs, Reads db' rs →
      pickAction u rs purpose role entityType riskScore injectionHit =
        (ruleAction purpose role entityType rs.rules).getD fallbackAction := by
    intro rs hrs
    have hperm := hrs.overrides
    rw [hload] at hperm
    rw [pickAction_eq, overridden_never hquiet hstored hperm]
    rfl
  refine ⟨?_, fun huncut => misled_iff_overtaken huncut huntied hdefault⟩
  rw [← ruleAction_means_iff hrows hdefault]
  constructor
  · intro h l hl
    have hreads : Reads db' ⟨l, overrides⟩ := by
      constructor
      · rw [hload]
        exact hl
      · rw [hload]
    rw [← hpick _ hreads]
    exact h _ hreads
  · intro h rs hrs
    have hperm := hrs.rules
    rw [hload] at hperm
    rw [hpick rs hrs]
    exact h rs.rules hperm

/-- Card numbers are blocked, everything else is masked. -/
def cardSpec : Spec where
  rules := [⟨some "*", none, some "CARD", some "block", none⟩]
  defaultAction := some "mask"

def cardDb : PolicyDb :=
  PolicyDb.empty.activate [⟨none, none, some "CARD", .block, 0⟩, ⟨none, none, none, .mask, -1⟩] []

theorem seed_preserves_iff_sample :
    some (pickAction .ascii (loadRuleset cardDb) "unknown" (some "agent_l1") "CARD" 0 false) =
      some .block := by
  obtain ⟨hpreserves, hovertaken⟩ := seed_preserves_iff .ascii .empty cardDb cardSpec 1 rfl
    "unknown" (some "agent_l1") "CARD" 0 false (by decide +kernel) (by simp [cardSpec])
  refine hpreserves.mpr ((hovertaken ?_).not.mpr ?_) (loadRuleset cardDb) ⟨.refl _, .refl _⟩
  · intro r hr x hx
    obtain rfl := List.mem_singleton.mp hr
    cases hx
  · rintro ⟨r, name, hchosen, -, hnamed, -⟩
    have hr : r ∈ cardSpec.rules := (List.mem_filter.mp (List.argmax_mem hchosen)).1
    obtain rfl := List.mem_singleton.mp hr
    revert hnamed
    decide +kernel

/-- A rule for everything, of low priority. -/
def openSpec : Spec where
  rules := [⟨some "*", some "*", some "*", some "mask", some (-5)⟩]
  defaultAction := some "block"

def openDb : PolicyDb :=
  PolicyDb.empty.activate [⟨none, none, none, .mask, -5⟩, ⟨none, none, none, .block, -1⟩] []

/-- The default wins against a rule that matches. -/
theorem default_overtakes :
    seed .empty openSpec = .ok (openDb, 1) ∧ openSpec.Untied "unknown" none "NAME" ∧
      openSpec.means "unknown" none "NAME" = some .mask ∧
      pickAction .ascii (loadRuleset openDb) "unknown" none "NAME" 0 false = .block :=
  ⟨rfl, by decide +kernel, by decide +kernel, by decide +kernel⟩

end DlpServer.Policy
