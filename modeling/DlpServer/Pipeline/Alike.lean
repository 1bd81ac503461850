import DlpServer.Pipeline.Response
import DlpServer.Transform.Minted

/-!
# Worlds that a request cannot tell apart

No stage reads the access log, so a request decides the same in worlds that
differ in it and leaves worlds that differ in it (`analyzeRequest_alike`).
-/

namespace DlpServer.Pipeline

open Context

/-- The same store, and vaults that differ in the access log at most. -/
structure Alike (w w' : World) : Prop where
  store : w'.store = w.store
  vault : Vault.Alike w.vault w'.vault

theorem Alike.refl (w : World) : Alike w w := ⟨rfl, .refl _⟩

theorem Alike.symm {w w' : World} (h : Alike w w') : Alike w' w := ⟨h.store.symm, h.vault.symm⟩

theorem Alike.trans {w w' w'' : World} (h : Alike w w') (h' : Alike w' w'') : Alike w w'' :=
  ⟨h'.store.trans h.store, h.vault.trans h'.vault⟩

/-- A stage gives the same context and alike worlds in alike worlds. -/
def Respects (stage : Stage World) : Prop :=
  ∀ ctx w w', Alike w w' →
    (stage ctx w).1 = (stage ctx w').1 ∧ Alike (stage ctx w).2 (stage ctx w').2

theorem respects_pure (f : AnalysisContext → AnalysisContext) : Respects (pureStage f) :=
  fun _ _ _ h => ⟨rfl, h⟩

theorem respects_total {f : AnalysisContext → World → AnalysisContext × World}
    (hf : ∀ ctx w w', Alike w w' → (f ctx w).1 = (f ctx w').1 ∧ Alike (f ctx w).2 (f ctx w').2) :
    Respects (totalStage f) := by
  intro ctx w w' h
  obtain ⟨hctx, hw⟩ := hf ctx w w' h
  exact ⟨congrArg some hctx, hw⟩

theorem respects_runStages {stages : List (Stage World)} (h : ∀ stage ∈ stages, Respects stage) :
    Respects (runStages stages) := by
  induction stages with
  | nil => exact fun _ _ _ halike => ⟨rfl, halike⟩
  | cons stage stages ih =>
      intro ctx w w' halike
      obtain ⟨hctx, hw⟩ := h stage List.mem_cons_self ctx w w' halike
      have hrest := ih fun stage' hstage' => h stage' (List.mem_cons_of_mem _ hstage')
      rw [runStages, runStages]
      generalize stage ctx w = out at hctx hw ⊢
      generalize stage ctx w' = out' at hctx hw ⊢
      obtain ⟨found, w₁⟩ := out
      obtain ⟨found', w₁'⟩ := out'
      obtain rfl : found = found' := hctx
      cases found with
      | none => exact ⟨rfl, hw⟩
      | some ctx₁ =>
          dsimp only
          split
          · exact ⟨rfl, hw⟩
          · exact hrest ctx₁ w₁ w₁' hw

/-! ## The stages -/

section Stages

variable {S : Setup} {D : Draws}

theorem onExpire_alike (env : Vault.Env) (store : Store) (fired : List Ref) {v v' : Vault.Db}
    (h : Vault.Alike v v') :
    Vault.Alike (onExpire env store fired v) (onExpire env store fired v') := by
  induction fired generalizing v v' with
  | nil => exact h
  | cons r fired ih =>
      apply ih
      dsimp only
      cases store.heap[r]? with
      | none => exact h
      | some st => exact h.revokeSession

theorem loadOrNew_alike (env : Vault.Env) (sessionId : String) (c : StageCall) {w w' : World}
    (h : Alike w w') :
    (w.loadOrNew env sessionId c).1 = (w'.loadOrNew env sessionId c).1 ∧
      Alike (w.loadOrNew env sessionId c).2 (w'.loadOrNew env sessionId c).2 := by
  unfold World.loadOrNew
  rw [h.store]
  exact ⟨rfl, rfl, onExpire_alike env _ _ h.vault⟩

theorem getLastPurpose_alike (env : Vault.Env) (sessionId : String) (now : ℚ) {w w' : World}
    (h : Alike w w') :
    (w.getLastPurpose env sessionId now).1 = (w'.getLastPurpose env sessionId now).1 ∧
      Alike (w.getLastPurpose env sessionId now).2 (w'.getLastPurpose env sessionId now).2 := by
  unfold World.getLastPurpose
  rw [h.store]
  exact ⟨rfl, rfl, onExpire_alike env _ _ h.vault⟩

theorem respects_multiturnStage : Respects (totalStage (multiturnStage S D)) := by
  apply respects_total
  intro ctx w w' h
  obtain ⟨hr, hw⟩ := loadOrNew_alike S.env ctx.sessionId (turnCall D ctx) h
  unfold multiturnStage
  dsimp only
  rw [hr, hw.store]
  exact ⟨rfl, rfl, hw.vault⟩

theorem respects_rememberPurposeStage : Respects (totalStage (rememberPurposeStage S D)) := by
  apply respects_total
  intro ctx w w' h
  unfold rememberPurposeStage
  split
  · exact ⟨rfl, h⟩
  · obtain ⟨hr, hw⟩ := loadOrNew_alike S.env ctx.sessionId (rememberCall D) h
    dsimp only
    rw [hr, hw.store]
    exact ⟨rfl, rfl, hw.vault⟩

theorem respects_transformStage : Respects (totalStage (transformStage S D)) := by
  apply respects_total
  intro ctx w w' h
  obtain ⟨hctx, hvault⟩ := Transform.transformStage_alike S.env D.year h.vault ctx D.chance
  exact ⟨hctx, h.store, hvault⟩

theorem respects_detokenizeStage : Respects (totalStage (detokenizeStage S D)) := by
  apply respects_total
  intro ctx w w' h
  unfold detokenizeStage
  split
  · exact ⟨rfl, h⟩
  · split
    · exact ⟨rfl, h⟩
    · rename_i turn rest _
      obtain ⟨hpurpose, hw⟩ := getLastPurpose_alike S.env ctx.sessionId D.purposeReadAt h
      obtain ⟨htext, hvault⟩ := hw.vault.detokenizeText S.env ctx.sessionId
        D.fetch turn.text ctx.role (w'.getLastPurpose S.env ctx.sessionId D.purposeReadAt).1
      dsimp only
      rw [hpurpose, htext]
      exact ⟨rfl, hw.store, hvault⟩

theorem respects_inputStages : ∀ stage ∈ inputStages S D, Respects stage := by
  intro stage hstage
  simp only [inputStages, List.mem_cons, List.not_mem_nil, or_false] at hstage
  rcases hstage with rfl | rfl | rfl | rfl | rfl | rfl
  · exact respects_pure _
  · exact respects_pure _
  · exact respects_multiturnStage
  · exact respects_pure _
  · exact respects_rememberPurposeStage
  · exact respects_transformStage

theorem respects_outputStages : ∀ stage ∈ outputStages S D, Respects stage := by
  intro stage hstage
  simp only [outputStages, List.mem_cons, List.not_mem_nil, or_false] at hstage
  rcases hstage with rfl | rfl
  · exact respects_pure _
  · exact respects_detokenizeStage

end Stages

/-! ## The request -/

section Request

variable {u : Unicode} {cfg : Config}

/-- Concluding touches nothing. -/
theorem conclude_world {W : Type*} (checkRisk : Bool) (before : List Text)
    (texts : AnalysisContext → List Text) (rebuilt : AnalysisContext → Option Json)
    (out : Option AnalysisContext × W) :
    (conclude u cfg checkRisk before texts rebuilt out).2 = out.2 := by
  obtain ⟨found, w⟩ := out
  cases found with
  | none => rfl
  | some ctx =>
      rw [conclude]
      split
      · rfl
      · split <;> rfl

theorem orFail_world {W : Type*} (out : Option Decision × W) : (orFail cfg out).2 = out.2 := by
  obtain ⟨found, w⟩ := out
  cases found <;> rfl

/-- Outcomes that agree but for the log are concluded alike. -/
theorem conclude_alike (checkRisk : Bool) (before : List Text)
    (texts : AnalysisContext → List Text) (rebuilt : AnalysisContext → Option Json)
    {out out' : Option AnalysisContext × World} (hctx : out.1 = out'.1)
    (hw : Alike out.2 out'.2) :
    (orFail cfg (conclude u cfg checkRisk before texts rebuilt out)).1 =
        (orFail cfg (conclude u cfg checkRisk before texts rebuilt out')).1 ∧
      Alike (orFail cfg (conclude u cfg checkRisk before texts rebuilt out)).2
        (orFail cfg (conclude u cfg checkRisk before texts rebuilt out')).2 := by
  constructor
  · obtain ⟨found, w⟩ := out
    obtain ⟨found', w'⟩ := out'
    obtain rfl : found = found' := hctx
    cases found with
    | none => rfl
    | some ctx =>
        rw [conclude, conclude]
        cases blockCheck u cfg checkRisk ctx with
        | some decision => rfl
        | none =>
            dsimp only
            split
            · rfl
            · cases rebuilt ctx <;> rfl
  · rw [orFail_world, orFail_world, conclude_world, conclude_world]
    exact hw

/-- **A request cannot tell alike worlds apart.** -/
theorem analyzeRequest_alike (S : Setup) (D : Draws) (sessionId direction : String)
    (headers : Dict String String) (body : Option Adapters.Body) {w w' : World} (h : Alike w w') :
    (analyzeRequest S D sessionId direction headers body w).1 =
        (analyzeRequest S D sessionId direction headers body w').1 ∧
      Alike (analyzeRequest S D sessionId direction headers body w).2
        (analyzeRequest S D sessionId direction headers body w').2 := by
  unfold analyzeRequest analyze dispatch
  split
  · unfold analyzeInput
    cases body.bind (·.extractTurns S.env.unicode) with
    | none => exact ⟨rfl, h⟩
    | some turns =>
        obtain ⟨hctx, hw⟩ := respects_runStages (respects_inputStages (S := S) (D := D))
          (inputContext S.env.unicode sessionId headers body turns) w w' h
        exact conclude_alike true _ _ _ hctx hw
  · split
    · unfold analyzeOutput
      cases body.bind (·.parseResponse S.env.unicode) with
      | none => exact ⟨rfl, h⟩
      | some text =>
          obtain ⟨hctx, hw⟩ := respects_runStages (respects_outputStages (S := S) (D := D))
            (outputContext S.env.unicode sessionId headers body text) w w' h
          exact conclude_alike false _ _ _ hctx hw
    · exact ⟨rfl, h⟩

end Request

end DlpServer.Pipeline
