import DlpServer.Transform.Apply
import DlpServer.Vault.Views

/-!
# What the transformation reads and leaves

What `transform_stage` puts for the spans of a session depends on what the session sees
of the vault, and the view of another session stays as it was.
-/

namespace DlpServer.Transform

open Splice Vault

section Stage

variable (env : Vault.Env) (year : ℤ) {mine : Ids.Uuid → Bool} {ctx : AnalysisContext}

section Own

variable {v v' : Vault.Db} (h : v.view mine = v'.view mine)
  (hmine : mine (env.coerce ctx.sessionId) = true)
include h hmine

theorem render_same (chance : Chance) (action : Action) (span : Span) :
    (render env year chance action ctx span v).1 = (render env year chance action ctx span v').1 ∧
      (render env year chance action ctx span v).2.view mine =
        (render env year chance action ctx span v').2.view mine := by
  cases action with
  | tokenize =>
      unfold render tokenize
      dsimp only
      rcases tokenize_same h hmine chance.nonce span.type span.value (some (accessScope ctx)) with
        ⟨e, he, he'⟩ | ⟨label, u, u', hu, hu', hsame⟩
      · rw [he, he']
        exact ⟨rfl, h⟩
      · rw [hu, hu']
        exact ⟨rfl, hsame⟩
  | keep | mask | generalize | synthetic | redact | aggregate | block => exact ⟨rfl, h⟩

theorem renderAll_same (chance : ℕ → Chance) (spanActions : List (Span × Action)) :
    (renderAll env year ctx chance spanActions v).1 =
        (renderAll env year ctx chance spanActions v').1 ∧
      (renderAll env year ctx chance spanActions v).2.view mine =
        (renderAll env year ctx chance spanActions v').2.view mine := by
  induction spanActions generalizing chance v v' with
  | nil => exact ⟨rfl, h⟩
  | cons p rest ih =>
      obtain ⟨span, action⟩ := p
      obtain ⟨hnew, hsame⟩ := render_same env year h hmine (chance 0) action span
      obtain ⟨hedits, hrest⟩ := ih hsame (fun k => chance (k + 1))
      rw [renderAll, renderAll]
      refine ⟨?_, hrest⟩
      show _ :: _ = _ :: _
      rw [hedits, hnew]

theorem transformStage_same (chance : ℕ → Chance) :
    (transformStage env year chance ctx v).1 = (transformStage env year chance ctx v').1 ∧
      (transformStage env year chance ctx v).2.view mine =
        (transformStage env year chance ctx v').2.view mine := by
  have htext : ∀ text,
      (transformText env year chance ctx text v).1 = (transformText env year chance ctx text v').1 ∧
        (transformText env year chance ctx text v).2.view mine =
          (transformText env year chance ctx text v').2.view mine := by
    intro text
    obtain ⟨hedits, hsame⟩ := renderAll_same env year h hmine chance
      (ctx.spanActions.filter fun p => p.2 ≠ .aggregate)
    unfold transformText
    dsimp only
    rw [hedits]
    split
    · exact ⟨rfl, hsame⟩
    · exact ⟨rfl, hsame⟩
  unfold transformStage
  split
  · exact ⟨rfl, h⟩
  · cases ctx.turns.getLast? with
    | none => exact ⟨rfl, h⟩
    | some turn =>
        obtain ⟨hnew, hsame⟩ := htext turn.text
        dsimp only
        rw [hnew]
        exact ⟨rfl, hsame⟩

end Own

section Foreign

variable (hforeign : mine (env.coerce ctx.sessionId) = false)
include hforeign

theorem render_foreign (chance : Chance) (action : Action) (span : Span) (v : Vault.Db) :
    (render env year chance action ctx span v).2.view mine = v.view mine := by
  cases action with
  | tokenize =>
      unfold render tokenize
      dsimp only
      split
      · rename_i label u hu
        exact tokenize_foreign hforeign hu
      · rfl
  | keep | mask | generalize | synthetic | redact | aggregate | block => rfl

theorem renderAll_foreign (chance : ℕ → Chance) (spanActions : List (Span × Action))
    (v : Vault.Db) : (renderAll env year ctx chance spanActions v).2.view mine = v.view mine := by
  induction spanActions generalizing chance v with
  | nil => rfl
  | cons p rest ih =>
      exact (ih (fun k => chance (k + 1)) _).trans
        (render_foreign env year hforeign (chance 0) p.2 p.1 v)

theorem transformStage_foreign (chance : ℕ → Chance) (v : Vault.Db) :
    (transformStage env year chance ctx v).2.view mine = v.view mine := by
  have htext : ∀ text, (transformText env year chance ctx text v).2.view mine = v.view mine := by
    intro text
    unfold transformText
    dsimp only
    split
    · exact renderAll_foreign env year hforeign chance _ v
    · exact renderAll_foreign env year hforeign chance _ v
  unfold transformStage
  split
  · rfl
  · split
    · rfl
    · exact htext _

end Foreign

end Stage

end DlpServer.Transform
