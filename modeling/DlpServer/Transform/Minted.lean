import DlpServer.Transform.Apply
import DlpServer.Vault.Frames

/-!
# What the transformation does to the vault

It does not read the access log, and what it mints for a session is numbered
after the labels that are there.
-/

namespace DlpServer.Transform

open Splice Vault

section Stage

variable (env : Vault.Env) (year : ℤ)

/-! ## The access log -/

section Log

variable {v v' : Vault.Db} (h : Alike v v')
include h

theorem render_alike (ctx : AnalysisContext) (chance : Chance) (action : Action) (span : Span) :
    (render env year chance action ctx span v).1 = (render env year chance action ctx span v').1 ∧
      Alike (render env year chance action ctx span v).2
        (render env year chance action ctx span v').2 := by
  cases action with
  | tokenize =>
      have hresult : AlikeResult
          (Vault.tokenize env chance.nonce v ctx.sessionId span.type span.value
            (some (accessScope ctx)))
          (Vault.tokenize env chance.nonce v' ctx.sessionId span.type span.value
            (some (accessScope ctx))) := h.tokenize _ _ _ _
      unfold render tokenize
      dsimp only
      rcases hresult with ⟨e, he, he'⟩ | ⟨label, u, u', hu, hu', halike⟩
      · rw [he, he']
        exact ⟨rfl, h⟩
      · rw [hu, hu']
        exact ⟨rfl, halike⟩
  | keep | mask | generalize | synthetic | redact | aggregate | block => exact ⟨rfl, h⟩

theorem renderAll_alike (ctx : AnalysisContext) (chance : ℕ → Chance)
    (spanActions : List (Span × Action)) :
    (renderAll env year ctx chance spanActions v).1 =
        (renderAll env year ctx chance spanActions v').1 ∧
      Alike (renderAll env year ctx chance spanActions v).2
        (renderAll env year ctx chance spanActions v').2 := by
  induction spanActions generalizing chance v v' with
  | nil => exact ⟨rfl, h⟩
  | cons p rest ih =>
      obtain ⟨span, action⟩ := p
      obtain ⟨hnew, halike⟩ := render_alike env year h ctx (chance 0) action span
      obtain ⟨hedits, hrest⟩ := ih halike (fun k => chance (k + 1))
      rw [renderAll, renderAll]
      refine ⟨?_, hrest⟩
      show _ :: _ = _ :: _
      rw [hedits, hnew]

theorem transformText_alike (ctx : AnalysisContext) (chance : ℕ → Chance) (text : Text) :
    (transformText env year chance ctx text v).1 = (transformText env year chance ctx text v').1 ∧
      Alike (transformText env year chance ctx text v).2
        (transformText env year chance ctx text v').2 := by
  obtain ⟨hedits, halike⟩ := renderAll_alike env year h ctx chance
    (ctx.spanActions.filter fun p => p.2 ≠ .aggregate)
  unfold transformText
  dsimp only
  rw [hedits]
  split
  · exact ⟨rfl, halike⟩
  · exact ⟨rfl, halike⟩

theorem transformStage_alike (ctx : AnalysisContext) (chance : ℕ → Chance) :
    (transformStage env year chance ctx v).1 = (transformStage env year chance ctx v').1 ∧
      Alike (transformStage env year chance ctx v).2 (transformStage env year chance ctx v').2 := by
  unfold transformStage
  split
  · exact ⟨rfl, h⟩
  · cases ctx.turns.getLast? with
    | none => exact ⟨rfl, h⟩
    | some turn =>
        obtain ⟨htext, halike⟩ := transformText_alike env year h ctx chance turn.text
        dsimp only
        rw [htext]
        exact ⟨rfl, halike⟩

end Log

/-! ## New labels -/

theorem render_grown (ctx : AnalysisContext) (chance : Chance) (action : Action) (span : Span)
    (v : Vault.Db) : Grown env ctx.sessionId v (render env year chance action ctx span v).2 := by
  cases action with
  | tokenize =>
      unfold render tokenize
      dsimp only
      split
      · rename_i label u hu
        exact tokenize_grown hu
      · exact .refl v
  | keep | mask | generalize | synthetic | redact | aggregate | block => exact .refl v

theorem renderAll_grown (ctx : AnalysisContext) (chance : ℕ → Chance)
    (spanActions : List (Span × Action)) (v : Vault.Db) :
    Grown env ctx.sessionId v (renderAll env year ctx chance spanActions v).2 := by
  induction spanActions generalizing chance v with
  | nil => exact .refl v
  | cons p rest ih =>
      exact (render_grown env year ctx (chance 0) p.2 p.1 v).trans (ih (fun k => chance (k + 1)) _)

theorem transformStage_grown (ctx : AnalysisContext) (chance : ℕ → Chance) (v : Vault.Db) :
    Grown env ctx.sessionId v (transformStage env year chance ctx v).2 := by
  have htext : ∀ text, Grown env ctx.sessionId v (transformText env year chance ctx text v).2 := by
    intro text
    unfold transformText
    dsimp only
    split
    · exact renderAll_grown env year ctx chance _ v
    · exact renderAll_grown env year ctx chance _ v
  unfold transformStage
  split
  · exact .refl v
  · split
    · exact .refl v
    · exact htext _

end Stage

end DlpServer.Transform
