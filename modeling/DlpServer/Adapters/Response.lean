import DlpServer.Adapters.Rewrite
import DlpServer.Adapters.Selection

/-!
# The text of a response

`parse_response` reads one text of a body and `rebuild_response` writes one, in
the same place: what was written is read back (`parse_rebuild`). The texts of the
other choices and candidates stay (`alternatives_rebuild`).
-/

namespace DlpServer.Adapters

open Json

variable {u : Unicode}

/-! ## All texts of a response -/

/-- `choices[i].message.content`. -/
def choiceText (u : Unicode) (body : Json) (i : ℕ) : Option PyStr := do
  let data ← body.asObj
  match getD data "choices" null with
  | arr items => do
      let choice ← items[i]?.bind asObj
      let message ← (getD choice "message" (obj [])).asObj
      some (Gateway.contentOf u message)
  | _ => none

/-- The parts of `candidates[i].content`, joined. -/
def candidateText (u : Unicode) (body : Json) (i : ℕ) : Option PyStr := do
  let data ← body.asObj
  match getD data "candidates" null with
  | arr items => do
      let candidate ← items[i]?.bind asObj
      let content ← (getD candidate "content" (obj [])).asObj
      Gemini.partsText u content
  | _ => none

theorem choiceText_setKey {key : String} (hkey : key ≠ "choices") (data : Dict PyStr Json)
    (value : Json) (i : ℕ) :
    choiceText u (obj (setKey data key value)) i = choiceText u (obj data) i := by
  simp only [choiceText, asObj_obj, Option.bind_eq_bind, Option.bind_some, getD_setKey_ne hkey]

theorem candidateText_setKey {key : String} (hkey : key ≠ "candidates") (data : Dict PyStr Json)
    (value : Json) (i : ℕ) :
    candidateText u (obj (setKey data key value)) i = candidateText u (obj data) i := by
  simp only [candidateText, asObj_obj, Option.bind_eq_bind, Option.bind_some, getD_setKey_ne hkey]

theorem choiceText_tail {data : Dict PyStr Json} {first : Json} {rest : List Json}
    (h : getD data "choices" null = arr (first :: rest)) (new : Json) (i : ℕ) :
    choiceText u (obj (setKey data "choices" (arr (new :: rest)))) (i + 1) =
      choiceText u (obj data) (i + 1) := by
  simp only [choiceText, asObj_obj, Option.bind_eq_bind, Option.bind_some, getD_setKey, h,
    List.getElem?_cons_succ]

theorem candidateText_tail {data : Dict PyStr Json} {first : Json} {rest : List Json}
    (h : getD data "candidates" null = arr (first :: rest)) (new : Json) (i : ℕ) :
    candidateText u (obj (setKey data "candidates" (arr (new :: rest)))) (i + 1) =
      candidateText u (obj data) (i + 1) := by
  simp only [candidateText, asObj_obj, Option.bind_eq_bind, Option.bind_some, getD_setKey, h,
    List.getElem?_cons_succ]

/-- In the two bodies the choices and candidates have the same texts, but for the
first ones. -/
def SameAlternatives (u : Unicode) (body body' : Json) : Prop :=
  ∀ i, choiceText u body' (i + 1) = choiceText u body (i + 1) ∧
    candidateText u body' (i + 1) = candidateText u body (i + 1)

/-! ## The gateway -/

namespace Gateway

theorem firstChoice_some {data choice : Dict PyStr Json} {rest : List Json}
    (h : firstChoice data = some (choice, rest)) :
    getD data "choices" null = arr (obj choice :: rest) := by
  unfold firstChoice at h
  split at h
  · rename_i items hitems
    obtain ⟨choice', hfirst, heq⟩ := Option.map_eq_some_iff.mp h
    cases heq
    obtain ⟨item, hitem, hobj⟩ := Option.bind_eq_some_iff.mp hfirst
    obtain ⟨tail, rfl⟩ := List.head?_eq_some_iff.mp hitem
    rw [hitems, eq_obj_of_asObj hobj]
    rfl
  · cases h

/-- The other choices stay, and so do all candidates. -/
theorem alternatives_rebuild {body body' : Json} {new : PyStr}
    (h : rewriteResponse body new = some body') : SameAlternatives u body body' := by
  obtain ⟨data, hdata, hset⟩ := Option.bind_eq_some_iff.mp h
  obtain rfl := eq_obj_of_asObj hdata
  intro i
  split at hset
  · cases hset
    exact ⟨choiceText_setKey (by decide) _ _ _, candidateText_setKey (by decide) _ _ _⟩
  · split at hset
    · rename_i choice rest hchoice
      obtain ⟨message, -, hset⟩ := Option.bind_eq_some_iff.mp hset
      cases hset
      exact ⟨choiceText_tail (firstChoice_some hchoice) _ _,
        candidateText_setKey (by decide) _ _ _⟩
    · split at hset
      · cases hset
        exact ⟨choiceText_setKey (by decide) _ _ _, candidateText_setKey (by decide) _ _ _⟩
      · cases hset
        exact ⟨rfl, rfl⟩

end Gateway

/-! ## Gemini -/

namespace Gemini

theorem firstCandidate_some {data first : Dict PyStr Json} {rest : List Json}
    (h : firstCandidate data = some (first, rest)) :
    getD data "candidates" null = arr (obj first :: rest) := by
  unfold firstCandidate at h
  split at h
  · rename_i items hitems
    obtain ⟨first', hfirst, heq⟩ := Option.map_eq_some_iff.mp h
    cases heq
    obtain ⟨item, hitem, hobj⟩ := Option.bind_eq_some_iff.mp hfirst
    obtain ⟨tail, rfl⟩ := List.head?_eq_some_iff.mp hitem
    rw [hitems, eq_obj_of_asObj hobj]
    rfl
  · cases h

/-- The other candidates stay, and so do all choices. -/
theorem alternatives_rebuild {body body' : Json} {new : PyStr}
    (h : rewriteResponse body new = some body') : SameAlternatives u body body' := by
  obtain ⟨data, hdata, hset⟩ := Option.bind_eq_some_iff.mp h
  obtain rfl := eq_obj_of_asObj hdata
  intro i
  split at hset
  · rename_i first rest hfirst
    obtain ⟨content, -, hset⟩ := Option.bind_eq_some_iff.mp hset
    cases hset
    exact ⟨choiceText_setKey (by decide) _ _ _,
      candidateText_tail (firstCandidate_some hfirst) _ _⟩
  · cases hset
    exact ⟨rfl, rfl⟩

end Gemini

/-! ## Either adapter -/

/-- **What is written is read back** by the adapter of a body. -/
theorem parse_rebuild {body body' : Json} {text new : PyStr}
    (h : (selectAdapter u body).parseResponse body = some text) (hne : text ≠ [])
    (hrebuilt : (selectAdapter u body).rebuildResponse body new = some body') :
    (selectAdapter u body).parseResponse body' = some new := by
  have hread : ∀ A : Rewrite.Provider, (A.adapter u).parseResponse body = some text →
      (A.adapter u).rebuildResponse body new = some body' →
      (A.adapter u).parseResponse body' = some new := by
    intro A h hrebuilt
    obtain ⟨hrewrite, hback⟩ := (Rewrite.Provider.rewrite_eq_put h hne).2 new
    rw [hrewrite, encode_eq_some] at hrebuilt
    rw [hrebuilt.2]
    exact hback
  rw [selectAdapter_eq] at h hrebuilt ⊢
  by_cases hgemini : Gemini.matchesBody body = true
  · rw [if_pos hgemini] at h hrebuilt ⊢
    exact hread .gemini h hrebuilt
  · rw [if_neg hgemini] at h hrebuilt ⊢
    exact hread .gateway h hrebuilt

theorem alternatives_rebuild {body body' : Json} {new : PyStr}
    (h : (selectAdapter u body).rebuildResponse body new = some body') :
    SameAlternatives u body body' := by
  rw [selectAdapter_eq] at h
  split at h
  · obtain ⟨value, hvalue, hencode⟩ := Option.bind_eq_some_iff.mp h
    obtain ⟨-, rfl⟩ := encode_eq_some.mp hencode
    exact Gemini.alternatives_rebuild hvalue
  · obtain ⟨value, hvalue, hencode⟩ := Option.bind_eq_some_iff.mp h
    obtain ⟨-, rfl⟩ := encode_eq_some.mp hencode
    exact Gateway.alternatives_rebuild hvalue

end DlpServer.Adapters
