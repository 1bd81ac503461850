import DlpServer.Pipeline.Alike
import DlpServer.Pipeline.Request

/-!
# Exchanges of one session

An exchange is an input and the output that carries its response. The purpose of
the last input stands in one cell of the session, and an output presents it for
all labels. Exchanges of one purpose do not disturb each other
(`interleaved_as_serial`).
-/

namespace DlpServer.Pipeline

open Adapters Context

/-! ## Requests -/

/-- A request of the session: what it meets, the clock of the database, and what
it carries. -/
structure Request where
  draws : Draws
  now : Vault.Time
  headers : Dict String String
  body : Option Body

/-- The world when the clock of the database shows `now`. -/
def World.setNow (w : World) (now : Vault.Time) : World :=
  { w with vault := { w.vault with now := now } }

section Serve

variable (S : Setup) (sessionId : String)

def serve (direction : String) (w : World) (q : Request) : Decision × World :=
  analyzeRequest S q.draws sessionId direction q.headers q.body (w.setNow q.now)

/-- The purpose of an input whose body can be read. -/
def inputPurpose (body : Option Body) : Option String :=
  (body.bind (·.extractTurns S.env.unicode)).map fun turns =>
    (Purpose.classify S.purposeRules ((Guardrail.Injection.lastUserText turns).getD [])).1

/-- What an output that meets the world `w` puts for a label, at the attempt `k`. -/
def restored (w : World) (q : Request) (label : Text) (k : ℕ) : Option Text :=
  let (purpose, w) := (w.setNow q.now).getLastPurpose S.env sessionId q.draws.purposeReadAt
  (Vault.detokenize S.env (q.draws.fetch k) w.vault sessionId label
    (Purpose.resolveRole S.env.unicode q.headers) purpose).1

end Serve

variable {S : Setup} {sessionId : String}

/-! ## The clock and the log -/

/-- Worlds that differ in the clock of the database and in the access log at most. -/
structure Same (w w' : World) : Prop where
  store : w'.store = w.store
  rows : w'.vault.rows = w.vault.rows
  nextId : w'.vault.nextId = w.vault.nextId

theorem Same.refl (w : World) : Same w w := ⟨rfl, rfl, rfl⟩

theorem Same.symm {w w' : World} (h : Same w w') : Same w' w :=
  ⟨h.store.symm, h.rows.symm, h.nextId.symm⟩

theorem Same.trans {w w' w'' : World} (h : Same w w') (h' : Same w' w'') : Same w w'' :=
  ⟨h'.store.trans h.store, h'.rows.trans h.rows, h'.nextId.trans h.nextId⟩

theorem Alike.same {w w' : World} (now : Vault.Time) (h : Alike (w.setNow now) w') : Same w w' :=
  ⟨h.store, h.vault.rows, h.vault.nextId⟩

theorem Same.setNow {w w' : World} (h : Same w w') (now : Vault.Time) :
    Alike (w.setNow now) (w'.setNow now) :=
  ⟨h.store, h.rows, h.nextId, rfl⟩

theorem serve_same {direction : String} {w w' : World} {q : Request} (h : Same w w') :
    (serve S sessionId direction w q).1 = (serve S sessionId direction w' q).1 ∧
      Same (serve S sessionId direction w q).2 (serve S sessionId direction w' q).2 := by
  obtain ⟨hdecision, hworld⟩ := analyzeRequest_alike S q.draws sessionId direction q.headers q.body
    (h.setNow q.now)
  exact ⟨hdecision, hworld.store, hworld.vault.rows, hworld.vault.nextId⟩

theorem restored_same {w w' : World} {q : Request} (h : Same w w') (label : Text) (k : ℕ) :
    restored S sessionId w q label k = restored S sessionId w' q label k := by
  obtain ⟨hpurpose, hworld⟩ := getLastPurpose_alike S.env sessionId q.draws.purposeReadAt
    (h.setNow q.now)
  unfold restored
  dsimp only
  rw [hpurpose, Vault.detokenize_congr hworld.vault.rows hworld.vault.now]

/-! ## Sessions that do not expire -/

/-- At the instants `reads` no state of the session is expired, nor would one be
that was made at one of the instants `makes`. -/
structure Unexpired (store : Store) (sessionId : String) (reads makes : List ℚ) : Prop where
  stored : ∀ st, store.session sessionId = some st → ∀ t ∈ reads, ¬ st.isExpired t
  fresh : ∀ c ∈ makes, ∀ t ∈ reads, t < c + store.defaultTtlSeconds

section Lifetime

variable {reads makes : List ℚ}

theorem getLastPurpose_live {w : World} {now : ℚ} (env : Vault.Env)
    (hlive : ∀ st, w.store.session sessionId = some st → ¬ st.isExpired now) :
    w.getLastPurpose env sessionId now =
      ((w.store.session sessionId).bind SessionState.purpose, w) := by
  have hfound := load_found w.store now sessionId
  unfold World.getLastPurpose
  cases hload : w.store.load now sessionId with
  | mk found rest =>
      rw [hload] at hfound
      cases hfound with
      | missing hnone =>
          rw [Store.session, hnone]
          rfl
      | live r hr _ =>
          rw [session_of_get? hr]
          rfl
      | expired r st hr hst hexp => exact absurd hexp (hlive st ((session_of_get? hr).trans hst))

theorem detokenizeStage_alike {D : Draws} {ctx : AnalysisContext} {w : World}
    (hlive : ∀ st, w.store.session ctx.sessionId = some st → ¬ st.isExpired D.purposeReadAt) :
    Alike w (detokenizeStage S D ctx w).2 := by
  unfold detokenizeStage
  split
  · exact .refl w
  · split
    · exact .refl w
    · rw [getLastPurpose_live S.env hlive]
      exact ⟨rfl, (Vault.detokenizeText_sub _ _ _ _ _).2⟩

/-- An output changes the log alone. -/
theorem output_same (S : Setup) (sessionId : String) (w : World) (q : Request)
    (hlive : ∀ st, w.store.session sessionId = some st → ¬ st.isExpired q.draws.purposeReadAt) :
    Same w (serve S sessionId "output" w q).2 := by
  apply Alike.same q.now
  unfold serve analyzeRequest
  rw [analyze_output, orFail_world]
  unfold analyzeOutput
  cases q.body.bind (·.parseResponse S.env.unicode) with
  | none => exact .refl _
  | some text =>
      dsimp only
      rw [conclude_world]
      cases hguard : (outputGuard S
          (outputContext S.env.unicode sessionId q.headers q.body text)).blocked with
      | true =>
          rw [outputStages, runStages_stop rfl hguard]
          exact .refl _
      | false =>
          obtain ⟨cfg, hcfg, spans, actions, hframe⟩ := Guardrail.outputGuard_open rfl rfl hguard
          have hsession : (outputGuard S (outputContext S.env.unicode sessionId q.headers q.body
              text)).sessionId = sessionId := by
            rw [outputGuard, hframe]
            rfl
          rw [outputStages, runStages_open rfl hguard]
          have halike : Alike (w.setNow q.now) (detokenizeStage S q.draws (outputGuard S
              (outputContext S.env.unicode sessionId q.headers q.body text)) (w.setNow q.now)).2 :=
            detokenizeStage_alike (by rw [hsession]; exact hlive)
          rw [runStages]
          show Alike _ (if _ then (_, _) else (_, _) : Option AnalysisContext × World).2
          split
          · exact halike
          · exact halike

/-- The session is in the store, or has no entry in it. -/
def Filed (store : Store) (sessionId : String) : Prop :=
  ∀ r, store.states.get? sessionId = some r → store.heap[r]? ≠ none

theorem filed_of_session {store : Store} {st : SessionState}
    (h : store.session sessionId = some st) : Filed store sessionId := by
  intro r hr hnone
  rw [session_of_get? hr, hnone] at h
  cases h

theorem ttl_touch (store : Store) (c : StageCall) (f : SessionState → SessionState) :
    (touch store sessionId c f).defaultTtlSeconds = store.defaultTtlSeconds := by
  have hfound := load_found store c.loadedAt sessionId
  rw [touch, ttl_save]
  unfold loadOrNew
  cases hload : store.load c.loadedAt sessionId with
  | mk found rest =>
      rw [hload] at hfound
      cases hfound with
      | missing => rfl
      | live => rfl
      | expired => rfl

/-- A stage that touches an unexpired session keeps it unexpired, and no token is
revoked. -/
theorem Unexpired.touch {w : World} {c : StageCall} {f : SessionState → SessionState}
    (h : Unexpired w.store sessionId reads makes) (hfiled : Filed w.store sessionId)
    (hid : ∀ st, (f st).sessionId = st.sessionId) (hexpires : ∀ st, (f st).expiresAt = st.expiresAt)
    (hread : c.loadedAt ∈ reads) (hmade : c.createdAt ∈ makes) :
    Unexpired (touch w.store sessionId c f) sessionId reads makes ∧
      (∃ st, (Context.touch w.store sessionId c f).session sessionId = some (f st)) ∧
      (w.loadOrNew S.env sessionId c).2.vault = w.vault := by
  have hlive : ∀ st, w.store.session sessionId = some st → ¬ st.isExpired c.loadedAt :=
    fun st hst => h.stored st hst _ hread
  have hvault : (w.loadOrNew S.env sessionId c).2.vault = w.vault := by
    rcases vault_loadOrNew S.env sessionId c w with hsame | ⟨st, hst, hexp, -⟩
    · exact hsame
    · exact absurd hexp (hlive st hst)
  have htouched := session_touch w.store sessionId c hid
  have hfresh : ∀ t ∈ makes, ∀ t' ∈ reads, t' < t +
      (Context.touch w.store sessionId c f).defaultTtlSeconds := by
    rw [ttl_touch]
    exact h.fresh
  generalize hafter : (Context.touch w.store sessionId c f).session sessionId = after at htouched
  cases htouched with
  | kept st hst _ =>
      refine ⟨⟨fun st' hst' t ht => ?_, hfresh⟩, ⟨st, rfl⟩, hvault⟩
      rw [hafter] at hst'
      cases hst'
      show ¬ (f st).expiresAt ≤ t
      rw [hexpires]
      exact h.stored st hst t ht
  | dangling r hr hnone => exact absurd hnone (hfiled r hr)
  | made hgone =>
      refine ⟨⟨fun st' hst' t ht => ?_, hfresh⟩, ⟨_, rfl⟩, hvault⟩
      rw [hafter] at hst'
      cases hst'
      show ¬ (f _).expiresAt ≤ t
      rw [hexpires]
      exact not_le.mpr (h.fresh _ hmade t ht)

/-- What an input that goes on leaves: its purpose in the session and new labels
in the vault. -/
structure Served (S : Setup) (sessionId : String) (reads makes : List ℚ) (w w' : World)
    (purpose : String) : Prop where
  purpose : ∃ st, w'.store.session sessionId = some st ∧ st.purpose = some purpose
  unexpired : Unexpired w'.store sessionId reads makes
  grown : ∃ now, Vault.Grown S.env sessionId (w.setNow now).vault w'.vault

theorem transformed_served (S : Setup) (D : Draws) (ctx : AnalysisContext) (w : World)
    (hdir : ctx.direction = "input") (h : Unexpired w.store ctx.sessionId reads makes)
    (hfiled : Filed w.store ctx.sessionId)
    (hreads : D.loadedAt ∈ reads ∧ D.rememberLoadedAt ∈ reads)
    (hmakes : D.createdAt ∈ makes ∧ D.rememberCreatedAt ∈ makes) :
    (∃ st, (transformed S D ctx w).2.store.session ctx.sessionId = some st ∧
        st.purpose = some (Purpose.classify S.purposeRules
          ((Guardrail.Injection.lastUserText ctx.turns).getD [])).1) ∧
      Unexpired (transformed S D ctx w).2.store ctx.sessionId reads makes ∧
      Vault.Grown S.env ctx.sessionId w.vault (transformed S D ctx w).2.vault := by
  have hpurpose := judged_purpose (S := S) (D := D) hdir w
  have hkept : (judged S D ctx w).direction = "input" ∧
      (judged S D ctx w).sessionId = ctx.sessionId := by
    obtain ⟨_, _, _, _, _, _, _, _, _, hframe⟩ := judged_frame (S := S) (D := D) ctx w
    rw [hframe]
    exact ⟨hdir, rfl⟩
  -- Accumulation touches the session first.
  obtain ⟨hunexpired, ⟨st, hst⟩, hvault⟩ := h.touch (S := S) hfiled (fun _ => rfl) (fun _ => rfl)
    (c := turnCall D (scanned S ctx)) (f := fun st => accumulate S.env.sha256Hex S.accumulator st
      (scanned S ctx).newTurnSpans (st.turnCount + 1) D.accumulatedAt) hreads.1 hmakes.1
  rw [← counted_store] at hunexpired hst
  rw [← counted_vault] at hvault
  -- Then the purpose is stored.
  obtain ⟨hstore₂, hvault₂⟩ := rememberPurposeStage_input (S := S) (D := D) hkept.1 hpurpose
    (counted S D ctx w)
  rw [hkept.2] at hstore₂ hvault₂
  obtain ⟨hunexpired₂, ⟨st₂, hst₂⟩, hsame⟩ := hunexpired.touch (S := S) (filed_of_session hst)
    (c := rememberCall D) (f := fun st => { st with purpose := some (Purpose.classify
      S.purposeRules ((Guardrail.Injection.lastUserText ctx.turns).getD [])).1 })
    (fun _ => rfl) (fun _ => rfl) hreads.2 hmakes.2
  rw [← hstore₂] at hunexpired₂ hst₂
  refine ⟨⟨_, hst₂, rfl⟩, hunexpired₂, ?_⟩
  have hgrown := Transform.transformStage_grown S.env D.year (judged S D ctx w) D.chance
    (remembered S D ctx w).vault
  have hbefore : (remembered S D ctx w).vault = w.vault := hvault₂.trans (hsame.trans hvault)
  rw [hkept.2, hbefore] at hgrown
  show Vault.Grown S.env ctx.sessionId w.vault (Transform.transformStage S.env D.year D.chance
    (judged S D ctx w) (remembered S D ctx w).vault).2
  rw [hbefore]
  exact hgrown

/-- An input that goes on was served, unless its body could not be read. -/
theorem input_served {w : World} {q : Request}
    (h : Unexpired w.store sessionId reads makes) (hfiled : Filed w.store sessionId)
    (hreads : q.draws.loadedAt ∈ reads ∧ q.draws.rememberLoadedAt ∈ reads)
    (hmakes : q.draws.createdAt ∈ makes ∧ q.draws.rememberCreatedAt ∈ makes)
    (hforward : (serve S sessionId "input" w q).1.action ≠ .block) :
    (inputPurpose S q.body = none ∧ Same w (serve S sessionId "input" w q).2) ∨
      ∃ p, inputPurpose S q.body = some p ∧
        Served S sessionId reads makes w (serve S sessionId "input" w q).2 p := by
  unfold serve analyzeRequest at hforward ⊢
  rw [analyze_input] at hforward ⊢
  rw [orFail_world]
  unfold analyzeInput at hforward ⊢
  cases hturns : q.body.bind (·.extractTurns S.env.unicode) with
  | none =>
      left
      exact ⟨by rw [inputPurpose, hturns]; rfl, (Alike.refl _).same q.now⟩
  | some turns =>
      right
      rw [hturns] at hforward
      dsimp only at hforward ⊢
      rw [conclude_world]
      have hrun := run_inputStages S q.draws
        (inputContext S.env.unicode sessionId q.headers q.body turns) (w.setNow q.now) rfl rfl
      generalize runStages (inputStages S q.draws)
        (inputContext S.env.unicode sessionId q.headers q.body turns) (w.setNow q.now) = out
        at hforward hrun ⊢
      cases hrun with
      | injection hblocked =>
          rw [conclude, blockCheck, if_pos hblocked] at hforward
          exact absurd rfl hforward
      | policy hblocked =>
          rw [conclude, blockCheck, if_pos hblocked] at hforward
          exact absurd rfl hforward
      | through hopen hhit =>
          obtain ⟨hpurpose, hunexpired, hgrown⟩ := transformed_served S q.draws
            (inputContext S.env.unicode sessionId q.headers q.body turns)
            (w.setNow q.now) rfl h hfiled hreads hmakes
          refine ⟨_, ?_, hpurpose, hunexpired, q.now, hgrown⟩
          rw [inputPurpose, hturns]
          rfl

end Lifetime

/-! ## Two exchanges -/

/-- The four requests of two exchanges; `A` is the one whose input comes first. -/
inductive Event where
  | inputA
  | outputA
  | inputB
  | outputB
deriving DecidableEq

def Event.direction : Event → String
  | .inputA | .inputB => "input"
  | .outputA | .outputB => "output"

/-- Each of the four once, and each input before its output. -/
structure Interleaving (es : List Event) : Prop where
  perm : es.Perm [.inputA, .outputA, .inputB, .outputB]
  exchangeA : es.idxOf .inputA < es.idxOf .outputA
  exchangeB : es.idxOf .inputB < es.idxOf .outputB
  first : es.idxOf .inputA < es.idxOf .inputB

/-- One exchange after the other. -/
def serial : List Event := [.inputA, .outputA, .inputB, .outputB]

theorem Interleaving.cases {es : List Event} (h : Interleaving es) :
    es = serial ∨ es = [.inputA, .inputB, .outputA, .outputB] ∨
      es = [.inputA, .inputB, .outputB, .outputA] := by
  have hmem := List.mem_permutations'.mpr h.perm
  have hall : ∀ es ∈ List.permutations' [Event.inputA, .outputA, .inputB, .outputB],
      es.idxOf .inputA < es.idxOf .outputA → es.idxOf .inputB < es.idxOf .outputB →
      es.idxOf .inputA < es.idxOf .inputB →
      es = serial ∨ es = [.inputA, .inputB, .outputA, .outputB] ∨
        es = [.inputA, .inputB, .outputB, .outputA] := by decide
  exact hall es hmem h.exchangeA h.exchangeB h.first

section Exchanges

variable (S : Setup) (sessionId : String) (q : Event → Request)

/-- The world that a request meets when the four are served in the order `es`. -/
def worldBefore (w : World) (es : List Event) (e : Event) : World :=
  (es.takeWhile (· ≠ e)).foldl (fun w e => (serve S sessionId e.direction w (q e)).2) w

def outcome (w : World) (es : List Event) (e : Event) : Decision × World :=
  serve S sessionId e.direction (worldBefore S sessionId q w es e) (q e)

/-- The rows that a request adds to the vault. -/
def mintedBy (w : World) (es : List Event) (e : Event) : List Vault.Row :=
  (outcome S sessionId q w es e).2.vault.rows.drop
    (worldBefore S sessionId q w es e).vault.rows.length

/-- When the four ask whether the state of the session is expired. -/
def reads : List ℚ :=
  [(q .inputA).draws.loadedAt, (q .inputA).draws.rememberLoadedAt,
   (q .inputB).draws.loadedAt, (q .inputB).draws.rememberLoadedAt,
   (q .outputA).draws.purposeReadAt, (q .outputB).draws.purposeReadAt]

/-- When the inputs would make a state. -/
def makes : List ℚ :=
  [(q .inputA).draws.createdAt, (q .inputA).draws.rememberCreatedAt,
   (q .inputB).draws.createdAt, (q .inputB).draws.rememberCreatedAt]

/-- The purpose is the same, and no label of `A` is minted again. -/
theorem restored_later {w w₁ w₂ : World} {p : String} {out : Request}
    (h₁ : Served S sessionId (reads q) (makes q) w w₁ p)
    (h₂ : Served S sessionId (reads q) (makes q) w₁ w₂ p)
    (hread : out.draws.purposeReadAt ∈ reads q) {r : Vault.Row}
    (hr : r ∈ w₁.vault.rows.drop w.vault.rows.length) (k : ℕ) :
    restored S sessionId w₂ out r.tokenLabel k = restored S sessionId w₁ out r.tokenLabel k := by
  obtain ⟨st₁, hst₁, hp₁⟩ := h₁.purpose
  obtain ⟨st₂, hst₂, hp₂⟩ := h₂.purpose
  obtain ⟨now₁, hgrown₁⟩ := h₁.grown
  obtain ⟨now₂, hgrown₂⟩ := h₂.grown
  have hlive₁ := getLastPurpose_live (w := w₁.setNow out.now) S.env fun st hst =>
    h₁.unexpired.stored st hst _ hread
  have hlive₂ := getLastPurpose_live (w := w₂.setNow out.now) S.env fun st hst =>
    h₂.unexpired.stored st hst _ hread
  have hpurpose₁ : ((w₁.setNow out.now).store.session sessionId).bind SessionState.purpose =
      some p := by
    show (w₁.store.session sessionId).bind _ = _
    rw [hst₁]
    exact hp₁
  have hpurpose₂ : ((w₂.setNow out.now).store.session sessionId).bind SessionState.purpose =
      some p := by
    show (w₂.store.session sessionId).bind _ = _
    rw [hst₂]
    exact hp₂
  have hrows : Vault.selectByLabel w₂.vault.rows (S.env.coerce sessionId) r.tokenLabel =
      Vault.selectByLabel w₁.vault.rows (S.env.coerce sessionId) r.tokenLabel := by
    obtain ⟨new₂, hnew₂, hlabels₂⟩ := hgrown₂.rows
    have hlater : Vault.Grown S.env sessionId w₁.vault
        { w₂.vault with now := w₁.vault.now } := ⟨rfl, new₂, hnew₂, hlabels₂⟩
    exact hgrown₁.selectByLabel hlater hr
  unfold restored
  rw [hlive₁, hlive₂, hpurpose₁, hpurpose₂]
  exact Vault.detokenize_of_select hrows rfl

/-- The world after the input of `A` alone. -/
def afterA (w : World) : World := (serve S sessionId "input" w (q .inputA)).2

/-- The world after the inputs alone. -/
def afterB (w : World) : World :=
  (serve S sessionId "input" (afterA S sessionId q w) (q .inputB)).2

/-- The session is not expired when the output `e` asks. -/
def Asks (w : World) (e : Event) : Prop :=
  ∀ st, w.store.session sessionId = some st → ¬ st.isExpired (q e).draws.purposeReadAt

variable {S sessionId q}

theorem worldBefore_inputA {w : World} {es : List Event} (h : Interleaving es) :
    worldBefore S sessionId q w es .inputA = w := by
  rcases h.cases with rfl | rfl | rfl <;> rfl

theorem worldBefore_inputB {w : World} {es : List Event} (h : Interleaving es)
    (hA : Asks sessionId q (afterA S sessionId q w) .outputA) :
    Same (afterA S sessionId q w) (worldBefore S sessionId q w es .inputB) := by
  rcases h.cases with rfl | rfl | rfl
  · exact output_same S sessionId _ _ hA
  · exact .refl _
  · exact .refl _

theorem worldBefore_outputB {w : World} {es : List Event} (h : Interleaving es)
    (hA : Asks sessionId q (afterA S sessionId q w) .outputA)
    (hB : Asks sessionId q (afterB S sessionId q w) .outputA) :
    Same (afterB S sessionId q w) (worldBefore S sessionId q w es .outputB) := by
  rcases h.cases with rfl | rfl | rfl
  · exact (serve_same (output_same S sessionId _ _ hA)).2
  · exact output_same S sessionId _ _ hB
  · exact .refl _

/-- The output of `A` meets the input of `B` or does not. -/
theorem worldBefore_outputA {w : World} {es : List Event} (h : Interleaving es)
    (hB : Asks sessionId q (afterB S sessionId q w) .outputB) :
    Same (afterA S sessionId q w) (worldBefore S sessionId q w es .outputA) ∨
      Same (afterB S sessionId q w) (worldBefore S sessionId q w es .outputA) := by
  rcases h.cases with rfl | rfl | rfl
  · exact Or.inl (.refl _)
  · exact Or.inr (.refl _)
  · exact Or.inr (output_same S sessionId _ _ hB)

/-- After an input that goes on, served or not read, the session is unexpired still. -/
theorem unexpired_after {w w' : World} {purpose : Option String}
    (hlive : Unexpired w.store sessionId (reads q) (makes q)) (hfiled : Filed w.store sessionId)
    (h : (purpose = none ∧ Same w w') ∨ ∃ p, purpose = some p ∧
      Served S sessionId (reads q) (makes q) w w' p) :
    Unexpired w'.store sessionId (reads q) (makes q) ∧ Filed w'.store sessionId := by
  rcases h with ⟨-, hsame⟩ | ⟨p, -, hserved⟩
  · rw [hsame.store]
    exact ⟨hlive, hfiled⟩
  · obtain ⟨st, hst, -⟩ := hserved.purpose
    exact ⟨hserved.unexpired, filed_of_session hst⟩

/-- **Interleaved exchanges of one purpose are restored as if served one after the
other.** The response of the exchange whose input ran last is decided the same in
any case. -/
theorem interleaved_as_serial (S : Setup) (sessionId : String) (q : Event → Request) (w : World)
    (es : List Event) (h : Interleaving es) (hwf : w.store.WellFormed)
    (hlive : Unexpired w.store sessionId (reads q) (makes q))
    (hforward : ∀ e, e = .inputA ∨ e = .inputB →
      (outcome S sessionId q w es e).1.action ≠ .block)
    (hpurpose : ∀ p p', inputPurpose S (q .inputA).body = some p →
      inputPurpose S (q .inputB).body = some p' → p = p') :
    (outcome S sessionId q w es .outputB).1 = (outcome S sessionId q w serial .outputB).1 ∧
      ∀ r ∈ mintedBy S sessionId q w es .inputA, ∀ k,
        restored S sessionId (worldBefore S sessionId q w es .outputA) (q .outputA)
            r.tokenLabel k =
          restored S sessionId (worldBefore S sessionId q w serial .outputA) (q .outputA)
            r.tokenLabel k := by
  have hserial : Interleaving serial := ⟨.refl _, by decide, by decide, by decide⟩
  have hfiled : Filed w.store sessionId := by
    intro r hr hnone
    obtain ⟨st, hst, -⟩ := hwf sessionId r hr
    rw [hnone] at hst
    cases hst
  -- The inputs, one after the other.
  have hforwardA : (serve S sessionId "input" w (q .inputA)).1.action ≠ .block := by
    have hA := hforward .inputA (Or.inl rfl)
    rw [outcome, worldBefore_inputA h] at hA
    exact hA
  have hservedA := input_served hlive hfiled (by simp [reads]) (by simp [makes]) hforwardA
  obtain ⟨hliveA, hfiledA⟩ := unexpired_after hlive hfiled hservedA
  have hasksA : Asks sessionId q (afterA S sessionId q w) .outputA :=
    fun st hst => hliveA.stored st hst _ (by simp [reads])
  have hforwardB : (serve S sessionId "input" (afterA S sessionId q w) (q .inputB)).1.action ≠
      .block := by
    rw [(serve_same (worldBefore_inputB h hasksA)).1]
    exact hforward .inputB (Or.inr rfl)
  have hservedB := input_served hliveA hfiledA (by simp [reads]) (by simp [makes]) hforwardB
  obtain ⟨hliveB, -⟩ := unexpired_after hliveA hfiledA hservedB
  have hasksB : ∀ e, e = .outputA ∨ e = .outputB → Asks sessionId q (afterB S sessionId q w) e := by
    rintro e (rfl | rfl) st hst
    · exact hliveB.stored st hst _ (by simp [reads])
    · exact hliveB.stored st hst _ (by simp [reads])
  constructor
  · have hworlds := (worldBefore_outputB h hasksA (hasksB _ (Or.inl rfl))).symm.trans
      (worldBefore_outputB hserial hasksA (hasksB _ (Or.inl rfl)))
    exact (serve_same hworlds).1
  · intro r hr k
    rw [mintedBy, outcome, worldBefore_inputA h] at hr
    show _ = restored S sessionId (afterA S sessionId q w) (q .outputA) r.tokenLabel k
    rcases worldBefore_outputA h (hasksB _ (Or.inr rfl)) with hsame | hsame
    · rw [restored_same hsame]
    · rw [← restored_same hsame]
      rcases hservedA with ⟨-, hsameA⟩ | ⟨p, hp, hservedA⟩
      · -- An input that is not read mints nothing.
        have hnone : (serve S sessionId "input" w (q .inputA)).2.vault.rows.drop
            w.vault.rows.length = [] := by
          rw [hsameA.rows, List.drop_length]
        rw [show Event.inputA.direction = "input" from rfl, hnone] at hr
        cases hr
      · rcases hservedB with ⟨-, hsameB⟩ | ⟨p', hp', hservedB⟩
        · exact (restored_same hsameB _ _).symm
        · obtain rfl := hpurpose p p' hp hp'
          exact restored_later S sessionId q hservedA hservedB (by simp [reads]) hr k

/-! ### Two addresses -/

/-- SHA-256 of two addresses in the session `s`. -/
def mailDigest (raw : Text) : Text :=
  if raw = "s\x1fEMAIL\x1fa@b.co".toList then
    "14410f7609ad62bef1dbd23e0673e8cec6cdbc691e70008f64d57759acd143df".toList
  else if raw = "s\x1fEMAIL\x1fc@d.co".toList then
    "b0aacb6320288a86e806db3e56c7be4efb998c7d9e002a3a9d74bc9fdffd6ed7".toList
  else []

/-- A request to summarize is known by its word. -/
def mailSetup : Setup :=
  { Setup.sample with
    env := { Setup.sample.env with sha256Hex := mailDigest }
    purposeRules := [⟨"doc_summarize", fun text => some (decide ("요약".toList <:+: text))⟩] }

/-- Two inputs and the labels they get, sent back. -/
def mailRequests (textA textB : Text) : Event → Request
  | .inputA => ⟨.sample, 0, [], some (messageBody textA)⟩
  | .outputA => ⟨.sample, 0, [], some (choicesBody ["<PII:EMAIL:1>".toList])⟩
  | .inputB => ⟨.sample, 0, [], some (messageBody textB)⟩
  | .outputB => ⟨.sample, 0, [], some (choicesBody ["<PII:EMAIL:2>".toList])⟩

/-- Both inputs before both outputs. -/
def overlapping : List Event := [.inputA, .inputB, .outputA, .outputB]

theorem overlapping_interleaving : Interleaving overlapping :=
  ⟨by decide, by decide, by decide, by decide⟩

/-- Two addresses to summarize. -/
theorem interleaved_as_serial_sample :
    (outcome mailSetup "s" (mailRequests "요약 a@b.co".toList "요약 c@d.co".toList) .empty
        overlapping .outputB).1 =
      (outcome mailSetup "s" (mailRequests "요약 a@b.co".toList "요약 c@d.co".toList) .empty
        serial .outputB).1 ∧
    ∀ r ∈ mintedBy mailSetup "s" (mailRequests "요약 a@b.co".toList "요약 c@d.co".toList) .empty
        overlapping .inputA, ∀ k,
      restored mailSetup "s" (worldBefore mailSetup "s"
          (mailRequests "요약 a@b.co".toList "요약 c@d.co".toList) .empty overlapping .outputA)
          (mailRequests "요약 a@b.co".toList "요약 c@d.co".toList .outputA) r.tokenLabel k =
        restored mailSetup "s" (worldBefore mailSetup "s"
          (mailRequests "요약 a@b.co".toList "요약 c@d.co".toList) .empty serial .outputA)
          (mailRequests "요약 a@b.co".toList "요약 c@d.co".toList .outputA) r.tokenLabel k := by
  refine interleaved_as_serial mailSetup "s"
    (mailRequests "요약 a@b.co".toList "요약 c@d.co".toList) .empty overlapping
    overlapping_interleaving ?_ ?_ ?_ ?_
  · intro sid r hr
    cases hr
  · refine ⟨fun st hst => ?_, ?_⟩
    · cases hst
    · decide +kernel
  · rintro e (rfl | rfl)
    · decide +kernel
    · decide +kernel
  · intro p p' hp hp'
    have hsame : inputPurpose mailSetup (some (messageBody "요약 a@b.co".toList)) =
        inputPurpose mailSetup (some (messageBody "요약 c@d.co".toList)) := by decide +kernel
    exact Option.some.inj (hp.symm.trans (hsame.trans hp'))

/-- Only the first is to summarize: its address is restored when the exchanges run
one after the other, and not when they overlap. -/
theorem overlapping_purposes_differ :
    (outcome mailSetup "s" (mailRequests "요약 a@b.co".toList "c@d.co".toList) .empty overlapping
        .inputA).1.action = .transform ∧
      (outcome mailSetup "s" (mailRequests "요약 a@b.co".toList "c@d.co".toList) .empty overlapping
        .inputB).1.action = .transform ∧
      (mintedBy mailSetup "s" (mailRequests "요약 a@b.co".toList "c@d.co".toList) .empty overlapping
        .inputA).map Vault.Row.tokenLabel = ["<PII:EMAIL:1>".toList] ∧
      restored mailSetup "s" (worldBefore mailSetup "s"
          (mailRequests "요약 a@b.co".toList "c@d.co".toList) .empty serial .outputA)
          (mailRequests "요약 a@b.co".toList "c@d.co".toList .outputA) "<PII:EMAIL:1>".toList 0 =
        some "a@b.co".toList ∧
      restored mailSetup "s" (worldBefore mailSetup "s"
          (mailRequests "요약 a@b.co".toList "c@d.co".toList) .empty overlapping .outputA)
          (mailRequests "요약 a@b.co".toList "c@d.co".toList .outputA) "<PII:EMAIL:1>".toList 0 =
        none := by
  decide +kernel

end Exchanges

end DlpServer.Pipeline
