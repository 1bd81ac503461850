import DlpServer.Lib.Twins
import DlpServer.Vault.Restore

/-!
# Labels are pseudonyms

What the vault answers and logs does not depend on the plaintexts, but for which of them
are equal. Two runs that store other values in the same pattern hand out the same labels
and leave the same access log (`pseudonyms`); only a restored value tells them apart, and
that is the value of the same call.

The argument is a simulation. A `Pairing` says which values stand for one another, and its
field that the hashes of one session cannot tell pairs apart; tables whose rows store paired
values are *twins*, and no call tells twins apart.
-/

namespace DlpServer.Vault

open Ids Runs

/-! ## Twins -/

/-- Which values of a session and type stand for one another in two runs. The truncated
hashes find the same values again in both. -/
structure Pairing (env : Env) where
  rel : String → String → Text → Text → Prop
  agree : ∀ {s t s' t' : String} {x y x' y' : Text}, rel s t x y → rel s' t' x' y' →
    env.coerce s = env.coerce s' →
    (env.hash s t x = env.hash s' t' x' ↔ env.hash s t y = env.hash s' t' y')

variable {env : Env}

namespace Pairing

variable (K : Pairing env)

/-- Paired values of the sessions of one UUID. -/
def Restores (s : Uuid) (x y : Text) : Prop := ∃ sid t, env.coerce sid = s ∧ K.rel sid t x y

/-- Rows that store paired values and are otherwise the same. -/
structure RowTwin (r r' : Row) : Prop where
  tokenId : r.tokenId = r'.tokenId
  sessionId : r.sessionId = r'.sessionId
  entityType : r.entityType = r'.entityType
  tokenLabel : r.tokenLabel = r'.tokenLabel
  accessScope : r.accessScope = r'.accessScope
  expiresAt : r.expiresAt = r'.expiresAt
  revokedAt : r.revokedAt = r'.revokedAt
  stored : ∃ sid t x y, K.rel sid t x y ∧ env.coerce sid = r.sessionId ∧
    r.valueHash = env.hash sid t x ∧ r'.valueHash = env.hash sid t y ∧
    env.decrypt r.cipherValue = .ok x ∧ env.decrypt r'.cipherValue = .ok y

structure DbTwin (v v' : Db) : Prop where
  rows : List.Forall₂ K.RowTwin v.rows v'.rows
  accessLog : v.accessLog = v'.accessLog
  nextId : v.nextId = v'.nextId
  now : v.now = v'.now

/-- The two fetches pick twins among twins. -/
def FetchTwin (fetch fetch' : FetchOne) : Prop :=
  ∀ {rs rs'}, List.Forall₂ K.RowTwin rs rs' →
    Option.Rel K.RowTwin (fetch.pick rs) (fetch'.pick rs')

/-- The same call, with paired values. -/
inductive OpTwin : Op → Op → Prop
  | tokenize {nonce nonce' : Nonce} {sid et : String} {x y : Text} {scope : Option AccessScope} :
      K.rel sid (env.normalizeEntityType et) x y →
        OpTwin (.tokenize nonce sid et x scope) (.tokenize nonce' sid et y scope)
  | detokenize {fetch fetch' : FetchOne} {sid : String} {label : Text}
      {role purpose : Option String} : K.FetchTwin fetch fetch' →
        OpTwin (.detokenize fetch sid label role purpose)
          (.detokenize fetch' sid label role purpose)
  | purgeExpired : OpTwin .purgeExpired .purgeExpired
  | revokeSession (sid : String) : OpTwin (.revokeSession sid) (.revokeSession sid)
  | advance (elapsed : ℕ) : OpTwin (.advance elapsed) (.advance elapsed)

end Pairing

variable {K : Pairing env} {r r' : Row} {v v' : Db}

/-! ## Statements on twins -/

namespace Pairing.RowTwin

theorem revoke (h : K.RowTwin r r') (t : Time) :
    K.RowTwin { r with revokedAt := some t } { r' with revokedAt := some t } :=
  { h with revokedAt := rfl }

/-- The hash column finds a value in both tables or in neither. -/
theorem holds (h : K.RowTwin r r') {sid t : String} {x y : Text} (hval : K.rel sid t x y) :
    r.holds (env.coerce sid) (env.hash sid t x) = r'.holds (env.coerce sid) (env.hash sid t y) := by
  obtain ⟨sid', t', x', y', hrel, hs, hx, hy, -⟩ := h.stored
  apply Bool.eq_iff_iff.mpr
  rw [Row.holds_iff, Row.holds_iff, ← h.sessionId, ← h.revokedAt, hx, hy]
  refine and_congr_right fun hsid => and_congr_left' ?_
  exact K.agree hrel hval (hs.trans hsid)

theorem counts (h : K.RowTwin r r') (s : Uuid) (etype : String) :
    r.counts s etype = r'.counts s etype := by
  rw [Row.counts, Row.counts, h.sessionId, h.entityType]

theorem carries (h : K.RowTwin r r') (s : Uuid) (label : Text) :
    r.carries s label = r'.carries s label := by
  rw [Row.carries, Row.carries, h.sessionId, h.tokenLabel, h.revokedAt]

theorem graceOver (h : K.RowTwin r r') (now : Time) : r.graceOver now = r'.graceOver now := by
  rw [Row.graceOver, Row.graceOver, h.revokedAt]

end Pairing.RowTwin

namespace Pairing.DbTwin

theorem active (h : K.DbTwin v v') {sid t : String} {x y : Text} (hval : K.rel sid t x y) :
    Option.Rel K.RowTwin (selectActive v.rows (env.coerce sid) (env.hash sid t x))
      (selectActive v'.rows (env.coerce sid) (env.hash sid t y)) :=
  forall₂_find? (fun _ _ hrow => hrow.holds hval) h.rows

theorem count (h : K.DbTwin v v') (s : Uuid) (etype : String) :
    countRows v.rows s etype = countRows v'.rows s etype :=
  forall₂_countP (fun _ _ hrow => hrow.counts s etype) h.rows

theorem labelled (h : K.DbTwin v v') (s : Uuid) (label : Text) :
    List.Forall₂ K.RowTwin (selectByLabel v.rows s label) (selectByLabel v'.rows s label) :=
  forall₂_filter (fun _ _ hrow => hrow.carries s label) h.rows

theorem revokeWhere {p q : Row → Bool} (hpq : ∀ r r', K.RowTwin r r' → p r = q r')
    (now : Time) {rows rows' : List Row} (h : List.Forall₂ K.RowTwin rows rows') :
    List.Forall₂ K.RowTwin (revokeWhere p now rows) (revokeWhere q now rows') := by
  refine List.rel_map (fun r r' hrow => ?_) h
  rw [hpq r r' hrow, ← hrow.revokedAt]
  split
  · exact hrow.revoke now
  · exact hrow

end Pairing.DbTwin

/-! ## Calls on twins -/

namespace Pairing

theorem newRow_twin {sid etype : String} {x y : Text} (hval : K.rel sid etype x y)
    {nonce nonce' : Nonce} {blob blob' : Blob} (hblob : env.encrypt nonce x = .ok blob)
    (hblob' : env.encrypt nonce' y = .ok blob') (id : ℕ) (now : Time) (label : Text)
    (scope : AccessScope) :
    K.RowTwin (newRow env id now (env.coerce sid) etype label blob (env.hash sid etype x) scope)
      (newRow env id now (env.coerce sid) etype label blob' (env.hash sid etype y) scope) where
  tokenId := rfl
  sessionId := rfl
  entityType := rfl
  tokenLabel := rfl
  accessScope := rfl
  expiresAt := rfl
  revokedAt := rfl
  stored := ⟨sid, etype, x, y, hval, rfl, rfl, rfl, decrypt_encrypt hblob, decrypt_encrypt hblob'⟩

theorem checkRow_twin (h : K.RowTwin r r') :
    ExceptRel K.RowTwin (checkRow r) (checkRow r') := by
  unfold checkRow
  rw [← h.tokenLabel, ← h.accessScope, ← h.entityType]
  refine .bind (.same _) fun label _ hlabel => ?_
  refine .bind (.same _) fun scope _ hscope => ?_
  subst hlabel hscope
  split
  · exact .ok { h with entityType := rfl, tokenLabel := rfl, accessScope := rfl }
  · exact .error _

/-- A table has the active row that a row conflicts with, or its twin has none either. -/
theorem DbTwin.conflict (h : K.DbTwin v v') (hr : K.RowTwin r r') :
    Option.Rel K.RowTwin (selectActive v.rows r.sessionId r.valueHash)
      (selectActive v'.rows r'.sessionId r'.valueHash) := by
  obtain ⟨sid, t, x, y, hval, hs, hx, hy, -⟩ := hr.stored
  rw [← hr.sessionId, hx, hy, ← hs]
  exact h.active hval

theorem insertRow_twin (h : K.DbTwin v v') (hr : K.RowTwin r r') :
    ExceptRel (fun p q => p.1 = q.1 ∧ K.DbTwin p.2 q.2) (insertRow v r) (insertRow v' r') := by
  refine .bind (checkRow_twin hr) fun w w' hw => ?_
  rcases optionRel_cases (h.conflict hw) with ⟨hnone, hnone'⟩ | ⟨a, b, hsome, hsome', -⟩
  · rw [hnone, hnone']
    refine .ok ⟨congrArg some hw.tokenLabel, ?_⟩
    exact
      { h with
        rows := List.rel_append h.rows (.cons hw .nil)
        nextId := congrArg (· + 1) h.nextId }
  · rw [hsome, hsome']
    exact .ok ⟨rfl, h⟩

/-- What `tokenize` answers to twins: the same label, or the same exception. -/
theorem tokenize_twin (h : K.DbTwin v v') {sid et : String} {x y : Text}
    (hval : K.rel sid (env.normalizeEntityType et) x y) (nonce nonce' : Nonce)
    (scope : Option AccessScope) :
    ExceptRel (fun p q => p.1 = q.1 ∧ K.DbTwin p.2 q.2) (tokenize env nonce v sid et x scope)
      (tokenize env nonce' v' sid et y scope) := by
  unfold tokenize
  dsimp only
  rcases optionRel_cases (h.active hval) with ⟨hnone, hnone'⟩ | ⟨a, b, hsome, hsome', hab⟩
  · rw [hnone, hnone', ← h.count, ← h.nextId, ← h.now]
    have hcipher : ExceptRel (fun blob blob' => env.encrypt nonce x = .ok blob ∧
        env.encrypt nonce' y = .ok blob') (env.encrypt nonce x) (env.encrypt nonce' y) := by
      unfold Env.encrypt
      cases env.cipher with
      | none => exact .error _
      | some aead => exact .ok ⟨rfl, rfl⟩
    refine .bind hcipher fun blob blob' hblob => ?_
    refine .bind (insertRow_twin h (newRow_twin hval hblob.1 hblob.2 _ _ _ _)) ?_
    rintro ⟨inserted, w⟩ ⟨inserted', w'⟩ ⟨hins, hw⟩
    obtain rfl : inserted = inserted' := hins
    cases inserted with
    | some label => exact .ok ⟨rfl, hw⟩
    | none => exact .error _
  · rw [hsome, hsome']
    exact .ok ⟨hab.tokenLabel, h⟩

theorem logAccess_twin (h : K.DbTwin v v') (id : ℕ) (sid : String) (label : Text)
    (role purpose : Option String) (granted : Bool) (deniedReason : Option String) :
    ExceptRel K.DbTwin (logAccess env v id sid label role purpose granted deniedReason)
      (logAccess env v' id sid label role purpose granted deniedReason) := by
  refine .bind (.same _) fun label _ hlabel => ?_
  refine .bind (.same _) fun requestedRole _ hrole => ?_
  refine .bind (.same _) fun requestedPurpose _ hpurpose => ?_
  subst hlabel hrole hpurpose
  exact .ok { h with accessLog := by rw [h.accessLog] }

theorem detokenizeBody_twin (h : K.DbTwin v v') {fetch fetch' : FetchOne}
    (hfetch : K.FetchTwin fetch fetch') (sid : String) (label : Text)
    (role purpose : Option String) :
    ExceptRel (fun p q => Option.Rel (K.Restores (env.coerce sid)) p.1 q.1 ∧ K.DbTwin p.2 q.2)
      (detokenizeBody env fetch v sid label role purpose)
      (detokenizeBody env fetch' v' sid label role purpose) := by
  -- A refusal is logged alike.
  have hrefuse : ∀ id denied,
      ExceptRel (fun p q => Option.Rel (K.Restores (env.coerce sid)) p.1 q.1 ∧ K.DbTwin p.2 q.2)
        (logAccess env v id sid label role purpose false denied >>= fun w => .ok (none, w))
        (logAccess env v' id sid label role purpose false denied >>= fun w => .ok (none, w)) := by
    intro id denied
    refine .bind (logAccess_twin h id sid label role purpose false denied) fun w w' hw => ?_
    exact .ok ⟨.none, hw⟩
  unfold detokenizeBody
  rcases optionRel_cases (hfetch (h.labelled (env.coerce sid) label)) with
    ⟨hnone, hnone'⟩ | ⟨a, b, hsome, hsome', hab⟩
  · rw [hnone, hnone']
    exact hrefuse _ _
  · rw [hsome, hsome']
    dsimp only [resolveScope]
    rw [← hab.expiresAt, ← hab.tokenId, ← hab.accessScope, ← h.now]
    split
    · exact hrefuse _ _
    · split
      · exact hrefuse _ _
      · have hselected := mem_selectByLabel.mp (fetch.pick_mem hsome)
        obtain ⟨sid', t, x, y, hval, hs, -, -, hx, hy⟩ := hab.stored
        rw [hx, hy]
        have hpair : K.Restores (env.coerce sid) x y := ⟨sid', t, hs.trans hselected.2.1, hval⟩
        refine .bind (.ok hpair) fun x y hxy => ?_
        refine .bind (logAccess_twin h _ sid label role purpose true none) fun w w' hw => ?_
        exact .ok ⟨.some hxy, hw⟩

/-- What `detokenize` answers to twins: paired values, or none to both. -/
theorem detokenize_twin (h : K.DbTwin v v') {fetch fetch' : FetchOne}
    (hfetch : K.FetchTwin fetch fetch') (sid : String) (label : Text)
    (role purpose : Option String) :
    Option.Rel (K.Restores (env.coerce sid)) (detokenize env fetch v sid label role purpose).1
        (detokenize env fetch' v' sid label role purpose).1 ∧
      K.DbTwin (detokenize env fetch v sid label role purpose).2
        (detokenize env fetch' v' sid label role purpose).2 := by
  have hbody := detokenizeBody_twin h hfetch sid label role purpose
  unfold detokenize
  generalize detokenizeBody env fetch v sid label role purpose = p at hbody ⊢
  generalize detokenizeBody env fetch' v' sid label role purpose = q at hbody ⊢
  cases hbody with
  | ok hpq => exact hpq
  | error e => exact ⟨.none, h⟩

theorem step_twin (h : K.DbTwin v v') {op op' : Op} (hop : K.OpTwin op op') :
    K.DbTwin (step env v op) (step env v' op') := by
  cases hop with
  | @tokenize nonce nonce' sid et x y scope hval =>
      have hcall := tokenize_twin h hval nonce nonce' scope
      dsimp only [step]
      generalize Vault.tokenize env nonce v sid et x scope = p at hcall ⊢
      generalize Vault.tokenize env nonce' v' sid et y scope = q at hcall ⊢
      cases hcall with
      | ok hpq => exact hpq.2
      | error e => exact h
  | detokenize hfetch => exact (detokenize_twin h hfetch _ _ _ _).2
  | purgeExpired =>
      have hexpired : ∀ r r', K.RowTwin r r' →
          decide (r.expiresAt < v.now) = decide (r'.expiresAt < v'.now) := by
        intro r r' hrow
        rw [hrow.expiresAt, h.now]
      have hrows := DbTwin.revokeWhere hexpired v.now h.rows
      refine { h with rows := ?_ }
      show List.Forall₂ K.RowTwin (List.filter _ _) (List.filter _ _)
      rw [← h.now] at hrows ⊢
      exact forall₂_filter (fun r r' hrow => by rw [hrow.graceOver]) hrows
  | revokeSession sid =>
      have hsession : ∀ r r', K.RowTwin r r' →
          (r.sessionId == env.coerce sid) = (r'.sessionId == env.coerce sid) := by
        intro r r' hrow
        rw [hrow.sessionId]
      refine { h with rows := ?_ }
      show List.Forall₂ K.RowTwin (revokeWhere _ v.now _) (revokeWhere _ v'.now _)
      rw [← h.now]
      exact DbTwin.revokeWhere hsession v.now h.rows
  | advance elapsed => exact { h with now := by rw [step, step, h.now] }

end Pairing

/-! ## What a run answers -/

/-- What one call of a run answers. A restored value stands with the UUID of the session. -/
inductive Answer where
  | label (outcome : Except VaultError Text)
  | restored (session : Uuid) (value : Option Text)
  | none

def answer (env : Env) (v : Db) : Op → Answer
  | .tokenize nonce sessionId entityType value accessScope =>
      .label ((tokenize env nonce v sessionId entityType value accessScope).map Prod.fst)
  | .detokenize fetch sessionId label role purpose =>
      .restored (env.coerce sessionId) (detokenize env fetch v sessionId label role purpose).1
  | .purgeExpired | .revokeSession _ | .advance _ => .none

def answers (env : Env) (start : Time) (ops : List Op) : List Answer :=
  collect (step env) (fun v op => [answer env v op]) (Db.empty start) ops

/-- The same answer, but for restored values, which are paired by `restores`. -/
inductive Answer.Alike (restores : Uuid → Text → Text → Prop) : Answer → Answer → Prop
  | label (outcome : Except VaultError Text) : Alike restores (.label outcome) (.label outcome)
  | restored {s : Uuid} {x y : Option Text} :
      Option.Rel (restores s) x y → Alike restores (.restored s x) (.restored s y)
  | none : Alike restores .none .none

namespace Pairing

theorem answer_twin (h : K.DbTwin v v') {op op' : Op} (hop : K.OpTwin op op') :
    (answer env v op).Alike K.Restores (answer env v' op') := by
  cases hop with
  | @tokenize nonce nonce' sid et x y scope hval =>
      have hcall := tokenize_twin h hval nonce nonce' scope
      dsimp only [answer]
      generalize Vault.tokenize env nonce v sid et x scope = p at hcall ⊢
      generalize Vault.tokenize env nonce' v' sid et y scope = q at hcall ⊢
      cases hcall with
      | @ok a b hpq =>
          simp only [Except.map, hpq.1]
          exact .label _
      | error e => exact .label _
  | detokenize hfetch => exact .restored (detokenize_twin h hfetch _ _ _ _).1
  | purgeExpired | revokeSession | advance => exact .none

theorem empty_twin (start : Time) : K.DbTwin (Db.empty start) (Db.empty start) where
  rows := .nil
  accessLog := rfl
  nextId := rfl
  now := rfl

/-- **Simulation.** Runs of the same calls with paired values stay twins and answer alike. -/
theorem run_twins (start : Time) {ops ops' : List Op} (h : List.Forall₂ K.OpTwin ops ops') :
    K.DbTwin (runFrom env start ops) (runFrom env start ops') ∧
      List.Forall₂ (Answer.Alike K.Restores) (answers env start ops) (answers env start ops') := by
  have hkeep : ∀ {v v' op op'}, K.DbTwin v v' → K.OpTwin op op' →
      K.DbTwin (step env v op) (step env v' op') := fun hdb hop => step_twin hdb hop
  refine ⟨run_related hkeep (empty_twin start) h, ?_⟩
  refine collect_related hkeep (fun hdb hop => ?_) (empty_twin start) h
  exact .cons (answer_twin hdb hop) .nil

end Pairing

/-! ## Two runs that differ in their plaintexts -/

/-- A row without the two columns that depend on the value. -/
def Row.visible (r : Row) : Row := { r with cipherValue := [], valueHash := [] }

theorem Pairing.visible_twins {rs rs' : List Row} (h : List.Forall₂ K.RowTwin rs rs') :
    rs.map Row.visible = rs'.map Row.visible := by
  rw [← List.forall₂_eq_eq_eq, List.forall₂_map_left_iff, List.forall₂_map_right_iff]
  refine h.imp fun r r' hrow => ?_
  rw [Row.visible, Row.visible, hrow.tokenId, hrow.sessionId, hrow.entityType, hrow.tokenLabel,
    hrow.accessScope, hrow.expiresAt, hrow.revokedAt]

/-- The two fetches return the row in the same place, where the visible columns are the same. -/
def FetchOne.SamePlace (fetch fetch' : FetchOne) : Prop :=
  ∀ rs rs' : List Row, rs.map Row.visible = rs'.map Row.visible →
    ∃ i : ℕ, fetch.pick rs = rs[i]? ∧ fetch'.pick rs' = rs'[i]?

theorem FetchOne.first_samePlace : FetchOne.first.SamePlace .first :=
  fun _ _ _ => ⟨0, List.head?_eq_getElem?, List.head?_eq_getElem?⟩

/-- The same call, but for the value stored and its nonce. -/
inductive Op.Alike : Op → Op → Prop
  | tokenize (nonce nonce' : Nonce) (sid et : String) (x y : Text)
      (scope : Option AccessScope) :
      Alike (.tokenize nonce sid et x scope) (.tokenize nonce' sid et y scope)
  | detokenize {fetch fetch' : FetchOne} (sid : String) (label : Text)
      (role purpose : Option String) : fetch.SamePlace fetch' →
        Alike (.detokenize fetch sid label role purpose) (.detokenize fetch' sid label role purpose)
  | purgeExpired : Alike .purgeExpired .purgeExpired
  | revokeSession (sid : String) : Alike (.revokeSession sid) (.revokeSession sid)
  | advance (elapsed : ℕ) : Alike (.advance elapsed) (.advance elapsed)

/-- `tokenize` is called with `x` in the one run where it is called with `y` in the other. -/
def CalledWith (env : Env) (ops ops' : List Op) (sid etype : String) (x y : Text) : Prop :=
  (⟨sid, etype, x⟩, ⟨sid, etype, y⟩) ∈ (calls env ops).zip (calls env ops')

/-- Two calls for one session store the same value in the one run exactly if they do in the
other. The input of the hash is session, type and value. -/
def SamePattern (env : Env) (ops ops' : List Op) : Prop :=
  ∀ p ∈ (calls env ops).zip (calls env ops'), ∀ q ∈ (calls env ops).zip (calls env ops'),
    env.coerce p.1.sessionId = env.coerce q.1.sessionId →
    (Env.hashInput p.1.sessionId p.1.entityType p.1.value =
        Env.hashInput q.1.sessionId q.1.entityType q.1.value ↔
      Env.hashInput p.2.sessionId p.2.entityType p.2.value =
        Env.hashInput q.2.sessionId q.2.entityType q.2.value)

theorem CollisionFree.hash_iff {ops : List Op} (h : CollisionFree env ops) {a b : Call}
    (ha : a ∈ calls env ops) (hb : b ∈ calls env ops) :
    env.hash a.sessionId a.entityType a.value = env.hash b.sessionId b.entityType b.value ↔
      Env.hashInput a.sessionId a.entityType a.value =
        Env.hashInput b.sessionId b.entityType b.value := by
  refine ⟨h a ha b hb, fun heq => ?_⟩
  rw [Env.hash, Env.hash, heq]

/-- The pairing of two runs by their calls. -/
def Pairing.ofRuns {ops ops' : List Op} (hfree : CollisionFree env ops)
    (hfree' : CollisionFree env ops') (hpattern : SamePattern env ops ops') : Pairing env where
  rel := CalledWith env ops ops'
  agree := by
    intro s t s' t' x y x' y' hxy hxy' hs
    obtain ⟨hx, hy⟩ := List.of_mem_zip hxy
    obtain ⟨hx', hy'⟩ := List.of_mem_zip hxy'
    have hcalls := hpattern _ hxy _ hxy' hs
    exact ((hfree.hash_iff hx hx').trans hcalls).trans (hfree'.hash_iff hy hy').symm

theorem FetchOne.SamePlace.twin {fetch fetch' : FetchOne} (h : fetch.SamePlace fetch')
    (K : Pairing env) : K.FetchTwin fetch fetch' := by
  intro rs rs' hrows
  obtain ⟨i, hi, hi'⟩ := h rs rs' (Pairing.visible_twins hrows)
  rw [hi, hi']
  rcases lt_or_ge i rs.length with hlt | hge
  · have hlt' : i < rs'.length := hrows.length_eq ▸ hlt
    rw [List.getElem?_eq_getElem hlt, List.getElem?_eq_getElem hlt']
    exact .some (hrows.get hlt hlt')
  · have hge' : rs'.length ≤ i := hrows.length_eq ▸ hge
    rw [List.getElem?_eq_none hge, List.getElem?_eq_none hge']
    exact .none

theorem opTwins_of_alike {K : Pairing env} {ops ops' : List Op}
    (h : List.Forall₂ Op.Alike ops ops')
    (hK : ∀ sid t x y, CalledWith env ops ops' sid t x y → K.rel sid t x y) :
    List.Forall₂ K.OpTwin ops ops' := by
  induction h with
  | nil => exact .nil
  | cons hop _ ih =>
      cases hop with
      | tokenize nonce nonce' sid et x y scope =>
          refine .cons (.tokenize (hK _ _ _ _ List.mem_cons_self)) (ih ?_)
          intro sid t x y hcall
          exact hK _ _ _ _ (List.mem_cons_of_mem _ hcall)
      | detokenize sid label role purpose hplace =>
          exact .cons (.detokenize (hplace.twin K)) (ih hK)
      | purgeExpired => exact .cons .purgeExpired (ih hK)
      | revokeSession sid => exact .cons (.revokeSession sid) (ih hK)
      | advance elapsed => exact .cons (.advance elapsed) (ih hK)

/-- **Labels are pseudonyms.** Two runs of the same calls whose values are equal in the same
pattern, without a collision of the truncated hash, answer every call alike: the same labels
and exceptions, and values restored in the one where the values of the same calls are in the
other. The access logs are the same, and so are the tables but for ciphertexts and hashes. -/
theorem pseudonyms (env : Env) (start : Time) (ops ops' : List Op)
    (halike : List.Forall₂ Op.Alike ops ops') (hfree : CollisionFree env ops)
    (hfree' : CollisionFree env ops') (hpattern : SamePattern env ops ops') :
    List.Forall₂
        (Answer.Alike fun s x y =>
          ∃ sid etype, env.coerce sid = s ∧ CalledWith env ops ops' sid etype x y)
        (answers env start ops) (answers env start ops') ∧
      (runFrom env start ops).accessLog = (runFrom env start ops').accessLog ∧
      (runFrom env start ops).rows.map Row.visible =
        (runFrom env start ops').rows.map Row.visible := by
  have htwins := opTwins_of_alike (K := Pairing.ofRuns hfree hfree' hpattern) halike
    fun sid t x y hcall => hcall
  obtain ⟨hdb, hanswers⟩ := Pairing.run_twins start htwins
  exact ⟨hanswers, hdb.accessLog, Pairing.visible_twins hdb.rows⟩

/-- Two numbers stored, the first one twice, and its label restored. -/
def twoNumbers (x y : Text) : List Op :=
  [.tokenize .zero "s" "RRN" x (some (forRole "agent_l1")),
   .tokenize .zero "s" "RRN" y (some (forRole "agent_l1")),
   .tokenize .zero "s" "RRN" x (some (forRole "agent_l1")),
   .detokenize .first "s" "<PII:RRN:1>".toList (some "agent_l1") none]

theorem twoNumbers_alike (x y x' y' : Text) :
    List.Forall₂ Op.Alike (twoNumbers x y) (twoNumbers x' y') :=
  .cons (.tokenize ..) <| .cons (.tokenize ..) <| .cons (.tokenize ..) <|
    .cons (.detokenize _ _ _ _ FetchOne.first_samePlace) .nil

/-- Other numbers, the same labels. -/
theorem pseudonyms_two :
    (runFrom .sample 0
        (twoNumbers "900101-1234567".toList "900101-2345678".toList)).rows.map Row.visible =
      (runFrom .sample 0
        (twoNumbers "900101-2345678".toList "900101-3456789".toList)).rows.map Row.visible := by
  refine (pseudonyms .sample 0 _ _ (twoNumbers_alike _ _ _ _) ?_ ?_ ?_).2.2
  · unfold CollisionFree
    decide +kernel
  · unfold CollisionFree
    decide +kernel
  · unfold SamePattern
    decide +kernel

end DlpServer.Vault
