import DlpServer.Vault.Agreement

/-!
# Two spellings of a session

Rows are keyed by the UUID that a wire id coerces to; the value hash and the
advisory lock are keyed by the wire id as it came. Two ids of one UUID are treated
as one session exactly when they are the same text (`one_identity_iff`).
-/

namespace DlpServer.Vault

open Ids Runs

/-! ## Transactions that spell the session their own way -/

/-- The workload when the session is given as `sid`. -/
def Workload.through {ι : Type*} (W : Workload ι) (sid : String) : Workload ι :=
  { W with sessionId := sid }

/-- The transaction that an action is for. -/
def Action.actor {ι : Type*} : Action ι → ι
  | .exec i | .commit i | .abort i => i

namespace Server

/-- A step in which transaction `i` gives the session as `ids i`. -/
def stepAs {ι : Type*} [DecidableEq ι] (W : Workload ι) (ids : ι → String) (S : Server ι)
    (a : Action ι) : Option (Server ι) := step (W.through (ids a.actor)) S a

/-- SHA-256 gives the calls one digest for one input only. -/
def NoCollision {ι : Type*} (W : Workload ι) (ids : ι → String) : Prop :=
  ∀ i j, (W.through (ids i)).vhash i = (W.through (ids j)).vhash j →
    Env.hashInput (ids i) (W.etype i) (W.call i).value =
      Env.hashInput (ids j) (W.etype j) (W.call j).value

/-- Whatever calls go through `a` or `b`, and however their statements interleave,
the committed ones satisfy `P`. -/
def Through (env : Env) (hashtextextended : Text → BitVec 64) (a b : String)
    (P : {ι : Type} → Workload ι → Server ι → Prop) : Prop :=
  ∀ (ι : Type) (_ : DecidableEq ι) (call : ι → TxCall) (ids : ι → String) (S₀ S : Server ι)
    (actions : List (Action ι)), (∀ i, ids i = a ∨ ids i = b) →
    NoCollision ⟨env, hashtextextended, a, call⟩ ids →
    Initial ⟨env, hashtextextended, a, call⟩ S₀ →
    Steps (stepAs ⟨env, hashtextextended, a, call⟩ ids) S₀ actions S →
    P ⟨env, hashtextextended, a, call⟩ S

/-- One label for one type and value. -/
def SameLabel {ι : Type} (W : Workload ι) (S : Server ι) : Prop :=
  ∀ i j l l', S.phase i = .committed l → S.phase j = .committed l' →
    W.etype i = W.etype j → (W.call i).value = (W.call j).value → l = l'

/-- Different labels for different types or values. -/
def DistinctLabels {ι : Type} (W : Workload ι) (S : Server ι) : Prop :=
  ∀ i j l l', S.phase i = .committed l → S.phase j = .committed l' →
    ¬ (W.etype i = W.etype j ∧ (W.call i).value = (W.call j).value) → l ≠ l'

/-- On some type and values neither SHA-256 nor `hashtextextended` takes `a` for
`b`. -/
def KeysApart (env : Env) (hashtextextended : Text → BitVec 64) (a b : String) : Prop :=
  ∃ (et : String) (v v' : Text), v ≠ v' ∧
    env.hash a (env.normalizeEntityType et) v ≠ env.hash b (env.normalizeEntityType et) v ∧
    env.hash a (env.normalizeEntityType et) v ≠ env.hash b (env.normalizeEntityType et) v' ∧
    hashtextextended (a.toList ++ '|' :: (env.normalizeEntityType et).toList) ≠
      hashtextextended (b.toList ++ '|' :: (env.normalizeEntityType et).toList)

/-! ## One text -/

theorem through_same {ι : Type} [DecidableEq ι] {env : Env} {hashtextextended : Text → BitVec 64}
    {a : String} {call : ι → TxCall} {ids : ι → String} {S₀ S : Server ι}
    {actions : List (Action ι)} (hids : ∀ i, ids i = a ∨ ids i = a)
    (hcf : NoCollision ⟨env, hashtextextended, a, call⟩ ids)
    (h₀ : Initial ⟨env, hashtextextended, a, call⟩ S₀)
    (hrun : Steps (stepAs ⟨env, hashtextextended, a, call⟩ ids) S₀ actions S) :
    Agreement ⟨env, hashtextextended, a, call⟩ S := by
  obtain rfl : ids = fun _ => a := funext fun i => (hids i).elim id id
  exact (Inv.run h₀ hrun).agreement hcf

/-! ## Two transactions -/

section Rows

variable {ι : Type} {W : Workload ι} {i : ι}

/-- The first two labels of a type fit their column. -/
theorem varchar_first {etype : String} (h : LabelType etype) {n : ℕ} (hn : n = 1 ∨ n = 2) :
    varchar 64 (tokenLabel etype n) = .ok (tokenLabel etype n) := by
  have hall : ("UNKNOWN" :: entityTypes).all (fun t =>
      decide (varchar 64 (tokenLabel t 1) = .ok (tokenLabel t 1)) &&
        decide (varchar 64 (tokenLabel t 2) = .ok (tokenLabel t 2))) = true := by
    decide +kernel
  have hthis := List.all_eq_true.mp hall etype (List.mem_cons.mpr h.symm)
  rw [Bool.and_eq_true, decide_eq_true_eq, decide_eq_true_eq] at hthis
  rcases hn with rfl | rfl
  · exact hthis.1
  · exact hthis.2

/-- With a key the row of a call without scope is accepted. -/
theorem newRow_accepted {aead : Aead} (hcipher : W.env.cipher = some aead)
    (hscope : (W.call i).accessScope = none) (id : ℕ) {count : ℕ} (hcount : count = 0 ∨ count = 1) :
    ∃ r, W.newRow i id count = .ok r := by
  have htype : LabelType (W.etype i) := normalizeEntityType_labelType _ _
  have hlabel : varchar 64 (tokenLabel (W.etype i) (count + 1)) =
      .ok (tokenLabel (W.etype i) (count + 1)) :=
    varchar_first htype (by rcases hcount with rfl | rfl; exacts [Or.inl rfl, Or.inr rfl])
  unfold Workload.newRow Env.encrypt
  dsimp only
  rw [hcipher, hscope]
  simp only [bind, Except.bind, Option.getD_none]
  unfold checkRow Vault.newRow
  simp only [bind, Except.bind, hlabel]
  have hdefault : jsonbScope .default = .ok .default := by decide +kernel
  rw [hdefault]
  simp only [if_pos htype.ref]
  exact ⟨_, rfl⟩

end Rows

/-- Two calls of one type, the one with `true` through `a`. -/
def pairCalls (et : String) (v v' : Text) (i : Bool) : TxCall :=
  ⟨.zero, et, if i then v else v', none, 0⟩

def pairIds (a b : String) (i : Bool) : String := if i then a else b

/-- A server between the two, with the phase of each. -/
def paired (table : List (Stored Bool)) (locks : BitVec 64 → Option Bool) (p p' : Phase)
    (nextId : ℕ) : Server Bool := ⟨table, locks, fun i => if i then p else p', nextId⟩

/-- A table without rows, and nobody has started. -/
def emptyServer : Server Bool := paired [] (fun _ => none) .lookup .lookup 1

section Pair

variable {W : Workload Bool} {a b : String} {r r' : Row}

theorem stepAs_true (S : Server Bool) (x : Action Bool) (h : x.actor = true) :
    stepAs W (pairIds a b) S x = step (W.through a) S x := by
  rw [stepAs, h, pairIds, if_pos rfl]

theorem stepAs_false (S : Server Bool) (x : Action Bool) (h : x.actor = false) :
    stepAs W (pairIds a b) S x = step (W.through b) S x := by
  rw [stepAs, h, pairIds, if_neg Bool.false_ne_true]

/-- The first transaction runs alone, from its lookup to its commit. -/
theorem first_commits (hr : (W.through a).newRow true 1 0 = .ok r) :
    ∃ actions S, Steps (stepAs W (pairIds a b)) emptyServer actions S ∧
      S.table = [⟨r, none⟩] ∧ (∀ k, S.locks k = none) ∧ S.phase true = .committed r.tokenLabel ∧
      S.phase false = .lookup ∧ S.nextId = 2 := by
  have hstart : Steps (stepAs W (pairIds a b)) emptyServer [] emptyServer := .nil
  have hrun := run_count (fun S => stepAs_true S _ rfl) hstart rfl rfl rfl (show _ = 0 from rfl)
  have hrun := run_insert (fun S => stepAs_true S _ rfl) hrun rfl hr rfl
  have hrun := run_commit (fun S => stepAs_true S _ rfl) hrun rfl
  refine ⟨_, _, hrun, rfl, fun k => ?_, rfl, rfl, rfl⟩
  show (if Function.update (fun _ => none) ((W.through a).lockKey true) (some true) k = some true
    then none else Function.update (fun _ => none) _ (some true) k) = none
  by_cases hk : k = (W.through a).lockKey true
  · rw [hk, Function.update_self, if_pos rfl]
  · rw [Function.update_of_ne hk, if_neg (by simp)]

/-- The second finds no row of its hash, and counts one of its type. -/
theorem second_commits {S₀ S : Server Bool} {actions : List (Action Bool)}
    (hrun : Steps (stepAs W (pairIds a b)) S₀ actions S) (htable : S.table = [⟨r, none⟩])
    (hlocks : ∀ k, S.locks k = none) (htrue : S.phase true = .committed r.tokenLabel)
    (hfalse : S.phase false = .lookup) (hid : S.nextId = 2)
    (hr' : (W.through b).newRow false 2 1 = .ok r')
    (hmiss : r.holds (W.through b).session ((W.through b).vhash false) = false)
    (hcounts : r.counts (W.through b).session ((W.through b).etype false) = true) :
    ∃ actions S, Steps (stepAs W (pairIds a b)) S₀ actions S ∧
      S.phase true = .committed r.tokenLabel ∧ S.phase false = .committed r'.tokenLabel := by
  obtain ⟨hs', -, hh', -⟩ := (W.through b).newRow_ok hr'
  have hvisible : S.visible false = [r] := by
    rw [visible, htable]
    rfl
  have hnone : selectActive (S.visible false) (W.through b).session
      ((W.through b).vhash false) = none := by
    rw [hvisible, selectActive, List.find?_cons_of_neg (by rw [hmiss]; simp), List.find?_nil]
  have hone : countRows (S.visible false) (W.through b).session
      ((W.through b).etype false) = 1 := by
    rw [hvisible, countRows, List.countP_singleton, if_pos hcounts]
  have hfind : S.table.find? (·.row.holds r'.sessionId r'.valueHash) = none := by
    rw [htable, hs', hh', List.find?_cons_of_neg (by rw [hmiss]; simp), List.find?_nil]
  have hrun := run_count (fun S => stepAs_false S _ rfl) hrun hfalse hnone (hlocks _) hone
  have hrun := run_insert (fun S => stepAs_false S _ rfl) hrun rfl (hid ▸ hr') hfind
  have hrun := run_commit (fun S => stepAs_false S _ rfl) hrun rfl
  exact ⟨_, _, hrun, htrue, rfl⟩

/-- Both count before either inserts: the locks of the two are not the same. -/
theorem both_commit (hr : (W.through a).newRow true 1 0 = .ok r)
    (hr' : (W.through b).newRow false 2 0 = .ok r')
    (hmiss : r.holds (W.through b).session ((W.through b).vhash false) = false)
    (hlock : (W.through a).lockKey true ≠ (W.through b).lockKey false) :
    ∃ actions S, Steps (stepAs W (pairIds a b)) emptyServer actions S ∧
      S.phase true = .committed r.tokenLabel ∧ S.phase false = .committed r'.tokenLabel := by
  obtain ⟨hs', -, hh', -⟩ := (W.through b).newRow_ok hr'
  have hfind : [(⟨r, some true⟩ : Stored Bool)].find?
      (·.row.holds r'.sessionId r'.valueHash) = none := by
    rw [hs', hh', List.find?_cons_of_neg (by rw [hmiss]; simp), List.find?_nil]
  have hstart : Steps (stepAs W (pairIds a b)) emptyServer [] emptyServer := .nil
  have hrun := run_count (fun S => stepAs_true S _ rfl) hstart rfl rfl rfl (show _ = 0 from rfl)
  have hrun := run_count (fun S => stepAs_false S _ rfl) hrun rfl rfl
    (Function.update_of_ne hlock.symm ..) rfl
  have hrun := run_insert (fun S => stepAs_true S _ rfl) hrun rfl hr rfl
  have hrun := run_insert (fun S => stepAs_false S _ rfl) hrun rfl hr' hfind
  have hrun := run_commit (fun S => stepAs_true S _ rfl) hrun rfl
  have hrun := run_commit (fun S => stepAs_false S _ rfl) hrun rfl
  exact ⟨_, _, hrun, rfl, rfl⟩

end Pair

/-! ## The law -/

section Law

variable {env : Env} {a b : String}

/-- The rows that the two calls of one type would insert. -/
theorem pair_rows {W : Workload Bool} {aead : Aead} (hcipher : W.env.cipher = some aead)
    (hscope : ∀ i, (W.call i).accessScope = none)
    (htypes : W.etype true = W.etype false) (hab : W.env.coerce a = W.env.coerce b)
    (hhash : (W.through a).vhash true ≠ (W.through b).vhash false)
    {count : ℕ} (hcount : count = 0 ∨ count = 1) :
    ∃ r r', (W.through a).newRow true 1 0 = .ok r ∧ (W.through b).newRow false 2 count = .ok r' ∧
      r.holds (W.through b).session ((W.through b).vhash false) = false ∧
      r.counts (W.through b).session ((W.through b).etype false) = true ∧
      r.tokenLabel = tokenLabel (W.etype true) 1 ∧
      r'.tokenLabel = tokenLabel (W.etype true) (count + 1) := by
  obtain ⟨r, hr⟩ : ∃ r, (W.through a).newRow true 1 0 = .ok r :=
    newRow_accepted (W := W.through a) hcipher (hscope true) 1 (Or.inl rfl)
  obtain ⟨r', hr'⟩ : ∃ r, (W.through b).newRow false 2 count = .ok r :=
    newRow_accepted (W := W.through b) hcipher (hscope false) 2 hcount
  obtain ⟨hs, ht, hh, -, hl⟩ := (W.through a).newRow_ok hr
  obtain ⟨-, -, -, -, hl'⟩ := (W.through b).newRow_ok hr'
  refine ⟨r, r', hr, hr', ?_, Row.counts_iff.mpr ⟨hs.trans hab, ht.trans htypes⟩, hl, ?_⟩
  · have hother : r.valueHash ≠ (W.through b).vhash false := fun h => hhash (hh.symm.trans h)
    rw [Row.holds, beq_eq_false_iff_ne.mpr hother, Bool.and_false, Bool.false_and]
  · rw [hl', htypes]
    rfl

theorem emptyServer_initial (W : Workload Bool) : Initial W emptyServer where
  phase i := by cases i <;> rfl
  committed st hst := by cases hst
  fresh st hst := by cases hst
  unlocked _ := rfl

theorem noCollision_pair {W : Workload Bool}
    (hhash : (W.through a).vhash true ≠ (W.through b).vhash false) :
    NoCollision W (pairIds a b) := by
  intro i j hij
  cases i <;> cases j
  · rfl
  · exact absurd hij.symm hhash
  · exact absurd hij hhash
  · rfl

theorem pairIds_mem (i : Bool) : pairIds a b i = a ∨ pairIds a b i = b := by
  cases i
  · exact Or.inr rfl
  · exact Or.inl rfl

/-- A value through the one id and then through the other gets two labels. -/
theorem two_labels (hashtextextended : Text → BitVec 64) {aead : Aead} {et : String}
    {v v' : Text} (hcipher : env.cipher = some aead)
    (hab : env.coerce a = env.coerce b) (hhash : env.hash a (env.normalizeEntityType et) v ≠
      env.hash b (env.normalizeEntityType et) v') :
    ∃ actions S, Steps (stepAs ⟨env, hashtextextended, a, pairCalls et v v'⟩ (pairIds a b))
        emptyServer actions S ∧
      S.phase true = .committed (tokenLabel (env.normalizeEntityType et) 1) ∧
      S.phase false = .committed (tokenLabel (env.normalizeEntityType et) 2) := by
  obtain ⟨r, r', hr, hr', hmiss, hcounts, hl, hl'⟩ :=
    pair_rows (W := ⟨env, hashtextextended, a, pairCalls et v v'⟩) hcipher (fun _ => rfl) rfl hab
      hhash (Or.inr rfl)
  obtain ⟨_, _, hrun, htable, hlocks, htrue, hfalse, hid⟩ := first_commits (b := b) hr
  obtain ⟨actions, S, hrun, htrue, hfalse⟩ :=
    second_commits hrun htable hlocks htrue hfalse hid hr' hmiss hcounts
  rw [hl] at htrue
  rw [hl'] at hfalse
  exact ⟨actions, S, hrun, htrue, hfalse⟩

/-- Two values at once through the two ids can get one label. -/
theorem one_label {hashtextextended : Text → BitVec 64} {aead : Aead} {et : String}
    {v v' : Text} (hcipher : env.cipher = some aead)
    (hab : env.coerce a = env.coerce b) (hhash : env.hash a (env.normalizeEntityType et) v ≠
      env.hash b (env.normalizeEntityType et) v')
    (hlock : hashtextextended (a.toList ++ '|' :: (env.normalizeEntityType et).toList) ≠
      hashtextextended (b.toList ++ '|' :: (env.normalizeEntityType et).toList)) :
    ∃ actions S, Steps (stepAs ⟨env, hashtextextended, a, pairCalls et v v'⟩ (pairIds a b))
        emptyServer actions S ∧
      S.phase true = .committed (tokenLabel (env.normalizeEntityType et) 1) ∧
      S.phase false = .committed (tokenLabel (env.normalizeEntityType et) 1) := by
  obtain ⟨r, r', hr, hr', hmiss, -, hl, hl'⟩ :=
    pair_rows (W := ⟨env, hashtextextended, a, pairCalls et v v'⟩) hcipher (fun _ => rfl) rfl hab
      hhash (Or.inl rfl)
  obtain ⟨actions, S, hrun, htrue, hfalse⟩ := both_commit hr hr' hmiss hlock
  rw [hl] at htrue
  rw [hl'] at hfalse
  exact ⟨actions, S, hrun, htrue, hfalse⟩

/-- **Two ids of one UUID are one session exactly when they are one text**: then
alone a value gets one label, and then alone different values get different ones. -/
theorem one_identity_iff (env : Env) (hashtextextended : Text → BitVec 64) (a b : String)
    (aead : Aead) (hcipher : env.cipher = some aead) (hab : env.coerce a = env.coerce b)
    (hkeys : a ≠ b → KeysApart env hashtextextended a b) :
    (Through env hashtextextended a b SameLabel ↔ a = b) ∧
      (Through env hashtextextended a b DistinctLabels ↔ a = b) := by
  constructor
  · constructor
    · intro hthrough
      by_contra hne
      obtain ⟨et, v, v', -, hhash, -, -⟩ := hkeys hne
      obtain ⟨actions, S, hrun, htrue, hfalse⟩ :=
        two_labels hashtextextended hcipher hab hhash
      have hsame : SameLabel ⟨env, hashtextextended, a, pairCalls et v v⟩ S :=
        hthrough Bool instDecidableEqBool (pairCalls et v v) (pairIds a b) emptyServer S actions
          pairIds_mem (noCollision_pair hhash) (emptyServer_initial _) hrun
      have hlabels := hsame true false _ _ htrue hfalse rfl rfl
      have hlabel := normalizeEntityType_labelType env et
      exact absurd (tokenLabel_inj hlabel hlabel hlabels).2 (by decide)
    · rintro rfl ι hdec call ids S₀ S actions hids hcf h₀ hrun
      exact (through_same hids hcf h₀ hrun).same
  · constructor
    · intro hthrough
      by_contra hne
      obtain ⟨et, v, v', hvalues, -, hhash, hlock⟩ := hkeys hne
      obtain ⟨actions, S, hrun, htrue, hfalse⟩ := one_label hcipher hab hhash hlock
      have hdistinct : DistinctLabels ⟨env, hashtextextended, a, pairCalls et v v'⟩ S :=
        hthrough Bool instDecidableEqBool (pairCalls et v v') (pairIds a b) emptyServer S actions
          pairIds_mem (noCollision_pair hhash) (emptyServer_initial _) hrun
      exact hdistinct true false _ _ htrue hfalse (fun h => hvalues h.2) rfl
    · rintro rfl ι hdec call ids S₀ S actions hids hcf h₀ hrun
      exact (through_same hids hcf h₀ hrun).distinct

/-! ### Two spellings -/

/-- A UUID as it is usually written, and without hyphens in upper case. -/
def spellingA : String := "11111111-1111-1111-1111-1111111111ab"

def spellingB : String := "111111111111111111111111111111AB"

/-- SHA-256 of two numbers under the two spellings. -/
def spellingDigest (raw : Text) : Text :=
  if raw = Env.hashInput spellingA "RRN" "900101-1234567".toList then
    "c666d350d681f07b23d6bcafa33264c3b1fe7a048e53da3d86404ed4d889e7eb".toList
  else if raw = Env.hashInput spellingA "RRN" "900101-2345678".toList then
    "ef64b3565a6be747aa427d5ae96f87cc9d7a4a0ed94bc4712c79fdf3fb13b472".toList
  else if raw = Env.hashInput spellingB "RRN" "900101-1234567".toList then
    "cbd5effbc9ec1258f8db925e6128b5730df03e1406bda438c8750bc66cecc035".toList
  else if raw = Env.hashInput spellingB "RRN" "900101-2345678".toList then
    "e5c60fb1656f9b4a39ad16168ad5bca58746f91bd3a8e72f01552ca1ea1c59cb".toList
  else []

def spellingEnv : Env := { Env.sample with sha256Hex := spellingDigest }

/-- `hashtextextended` of the two lock keys. -/
def spellingLock (key : Text) : BitVec 64 :=
  if key = spellingA.toList ++ '|' :: "RRN".toList then 0x0d2d871466b82786
  else if key = spellingB.toList ++ '|' :: "RRN".toList then 0x07094c58a9a25a20
  else 0

theorem one_identity_iff_sample :
    (Through spellingEnv spellingLock spellingA spellingB SameLabel ↔ spellingA = spellingB) ∧
      (Through spellingEnv spellingLock spellingA spellingB DistinctLabels ↔
        spellingA = spellingB) :=
  one_identity_iff spellingEnv spellingLock spellingA spellingB .plain rfl (by decide +kernel)
    fun _ => ⟨"RRN", "900101-1234567".toList, "900101-2345678".toList, by decide +kernel⟩

/-- One after the other, then with their statements in turn. -/
def turnSchedule : List (Action Bool) :=
  [.exec true, .exec true, .exec true, .exec true, .commit true,
   .exec false, .exec false, .exec false, .exec false, .commit false]

def crossSchedule : List (Action Bool) :=
  [.exec true, .exec false, .exec true, .exec false, .exec true, .exec false,
   .exec true, .exec false, .commit true, .commit false]

/-- The same number through both spellings gets two labels, and two numbers at once
get one. -/
theorem two_spellings_differ :
    spellingEnv.coerce spellingA = spellingEnv.coerce spellingB ∧
      (exec (stepAs ⟨spellingEnv, spellingLock, spellingA,
          pairCalls "RRN" "900101-1234567".toList "900101-1234567".toList⟩
          (pairIds spellingA spellingB)) emptyServer turnSchedule).map
        (fun S => (S.phase true, S.phase false)) =
        some (.committed "<PII:RRN:1>".toList, .committed "<PII:RRN:2>".toList) ∧
      (exec (stepAs ⟨spellingEnv, spellingLock, spellingA,
          pairCalls "RRN" "900101-1234567".toList "900101-2345678".toList⟩
          (pairIds spellingA spellingB)) emptyServer crossSchedule).map
        (fun S => (S.phase true, S.phase false)) =
        some (.committed "<PII:RRN:1>".toList, .committed "<PII:RRN:1>".toList) := by
  decide +kernel

end Law

end Server

end DlpServer.Vault
