import DlpServer.Detect.Layers

/-!
# Particles at the end of an entity

`NEREngine.extract` takes a particle off the value of an entity and shortens the offsets by
as much. `$` also matches before a line feed at the end; there the particle is taken out of
the middle, the line feed stays in the value, and the offsets leave it out
(`in_step_iff`).
-/

namespace DlpServer.Detect

open Regex Splice

/-! ## What is trimmed -/

/-- The text ends in a particle and a line feed. -/
def ParticleBreak (text : Text) : Prop := ∃ w, ∃ p ∈ particles, text = w ++ (p ++ ['\n'])

theorem particles_no_break {p : Text} (hp : p ∈ particles) : p ≠ [] ∧ '\n' ∉ p := by
  revert p
  decide

theorem accepts_trailing {b p t : Text} :
    trailingParticles.Accepts b p t ↔ p ∈ particles ∧ (t = [] ∨ t = ['\n']) := by
  constructor
  · rintro ⟨u, v, rfl, hu, rfl, hend⟩
    rw [List.append_nil]
    refine ⟨Pattern.accepts_oneOf.mp hu, ?_⟩
    simpa using hend
  · rintro ⟨hp, hend⟩
    refine ⟨p, [], (List.append_nil p).symm, Pattern.accepts_oneOf.mpr hp, rfl, ?_⟩
    simpa using hend

/-- The scan from a place on, with the matches left out. -/
def eraseFrom (b s : Text) : Text :=
  (Pattern.refill (fun _ s => ([], s)) (trailingParticles.scan b 0 s) ()).1

theorem eraseFrom_hit {b s : Text} {m : Match Char} (h : trailingParticles.matchAt b s = some m) :
    m.text ∈ particles ∧ ∃ t, s = m.text ++ t ∧ (t = [] ∨ t = ['\n']) := by
  obtain ⟨t, hs, hacc⟩ := Pattern.matchAt_some h
  obtain ⟨hp, hend⟩ := accepts_trailing.mp hacc
  exact ⟨hp, t, hs, hend⟩

theorem eraseFrom_cons {b s : Text} {a : Char} :
    (∃ p t, p ∈ particles ∧ a :: s = p ++ t ∧ (t = [] ∨ t = ['\n']) ∧
        eraseFrom b (a :: s) = eraseFrom (p.reverse ++ b) t) ∨
      (∀ p t, a :: s = p ++ t → p ∈ particles → ¬ (t = [] ∨ t = ['\n'])) ∧
        eraseFrom b (a :: s) = a :: eraseFrom (a :: b) s := by
  unfold eraseFrom
  rw [Pattern.scan]
  split
  · rename_i i x w g hmatch
    obtain ⟨hp, t, hs, hend⟩ := eraseFrom_hit hmatch
    refine Or.inl ⟨x :: w, t, hp, hs, hend, ?_⟩
    obtain ⟨rfl, rfl⟩ : a = x ∧ s = w ++ t := List.cons.inj hs
    rw [Pattern.scan_skip, List.reverse_cons, List.append_assoc]
    rfl
  · rename_i hno
    refine Or.inr ⟨?_, rfl⟩
    intro p t hs hp hend
    obtain ⟨m, hm⟩ := Pattern.matchAt_isSome (b := b) (accepts_trailing.mpr ⟨hp, hend⟩)
    rw [← hs] at hm
    obtain ⟨x, w, htext⟩ :=
      List.exists_cons_of_ne_nil (particles_no_break (eraseFrom_hit hm).1).1
    exact hno m.start x w m.groups (by rw [hm, ← htext])

theorem eraseFrom_end {b t : Text} (h : t = [] ∨ t = ['\n']) : eraseFrom b t = t := by
  rcases h with rfl | rfl
  · rfl
  · rcases eraseFrom_cons (b := b) (s := []) (a := '\n') with ⟨p, t, hp, hs, -, -⟩ | ⟨-, heq⟩
    · obtain ⟨hne, hno⟩ := particles_no_break hp
      obtain ⟨x, w, rfl⟩ := List.exists_cons_of_ne_nil hne
      obtain ⟨rfl, -⟩ := List.cons.inj hs
      exact absurd List.mem_cons_self hno
    · exact heq

/-- A particle at the end is left out; a text without one is as it was. -/
theorem eraseFrom_cases (b s : Text) :
    (∃ w p t, p ∈ particles ∧ s = w ++ (p ++ t) ∧ (t = [] ∨ t = ['\n']) ∧
        eraseFrom b s = w ++ t) ∨
      (∀ w p t, s = w ++ (p ++ t) → p ∈ particles → ¬ (t = [] ∨ t = ['\n'])) ∧
        eraseFrom b s = s := by
  induction s generalizing b with
  | nil =>
      refine Or.inr ⟨?_, rfl⟩
      intro w p t hs hp
      have hnil := (List.append_eq_nil_iff.mp (List.append_eq_nil_iff.mp hs.symm).2).1
      exact absurd hnil (particles_no_break hp).1
  | cons a s ih =>
      rcases eraseFrom_cons (b := b) (s := s) (a := a) with ⟨p, t, hp, hs, hend, heq⟩ | ⟨hno, heq⟩
      · exact Or.inl ⟨[], p, t, hp, hs, hend, heq.trans (eraseFrom_end hend)⟩
      · rcases ih (a :: b) with ⟨w, p, t, hp, rfl, hend, hrest⟩ | ⟨hnone, hrest⟩
        · exact Or.inl ⟨a :: w, p, t, hp, rfl, hend, by rw [heq, hrest]; rfl⟩
        · refine Or.inr ⟨?_, by rw [heq, hrest]⟩
          intro w p t hs hp
          cases w with
          | nil => exact hno p t hs hp
          | cons a' w =>
              obtain ⟨-, rfl⟩ := List.cons.inj hs
              exact hnone w p t rfl hp

theorem trimTrailingParticle_eq (text : Text) :
    trimTrailingParticle text = if eraseFrom [] text = [] then text else eraseFrom [] text := rfl

/-- Before a line feed the particle goes and the line feed stays. -/
theorem trim_break {text : Text} (h : ParticleBreak text) :
    ∃ w, ∃ p ∈ particles, text = w ++ (p ++ ['\n']) ∧
      trimTrailingParticle text = w ++ ['\n'] := by
  obtain ⟨w, p, hp, rfl⟩ := h
  rcases eraseFrom_cases [] (w ++ (p ++ ['\n'])) with ⟨w', p', t, hp', hs, hend, heq⟩ | ⟨hno, -⟩
  · have ht : t = ['\n'] := by
      rcases hend with rfl | rfl
      · -- A particle does not end in a line feed.
        have hlast : '\n' ∈ p' := by
          have hrev := congrArg List.reverse hs
          simp only [List.reverse_append, List.append_nil, List.reverse_cons, List.reverse_nil,
            List.nil_append, List.singleton_append] at hrev
          obtain ⟨c, q, hq⟩ := List.exists_cons_of_ne_nil
            (List.reverse_ne_nil_iff.mpr (particles_no_break hp').1)
          rw [hq] at hrev
          obtain ⟨rfl, -⟩ := List.cons.inj hrev
          exact List.mem_reverse.mp (hq ▸ List.mem_cons_self)
        exact absurd hlast (particles_no_break hp').2
      · rfl
    subst ht
    refine ⟨w', p', hp', hs, ?_⟩
    rw [trimTrailingParticle_eq, heq, if_neg (by simp)]
  · exact absurd (Or.inr rfl) (hno w p ['\n'] rfl hp)

/-- Elsewhere what is left is the beginning. -/
theorem trim_isPrefix {text : Text} (h : ¬ ParticleBreak text) :
    trimTrailingParticle text <+: text := by
  rw [trimTrailingParticle_eq]
  split
  · exact List.prefix_refl text
  · rcases eraseFrom_cases [] text with ⟨w, p, t, hp, hs, rfl | rfl, heq⟩ | ⟨-, heq⟩
    · rw [heq, hs, List.append_nil, List.append_nil]
      exact List.prefix_append w p
    · exact absurd ⟨w, p, hp, hs⟩ h
    · rw [heq]

/-! ## Value and offsets -/

/-- The offsets are in the text, and the value stands between them. -/
def InStep (text : Text) (s : Span) : Prop :=
  s.start < s.stop ∧ s.stop ≤ text.length ∧ s.value = slice text s.start s.stop

instance (text : Text) (s : Span) : Decidable (InStep text s) :=
  inferInstanceAs (Decidable (_ ∧ _))

/-- The label is one of the map. -/
def Entity.known (e : Entity) : Bool := (labelToSpanType.get? e.label).isSome

theorem slice_take {text : Text} {i j n : ℕ} (h : i + n ≤ j) :
    slice text i (i + n) = (slice text i j).take n := by
  rw [slice, slice, List.take_drop, List.take_take, min_eq_left h]

theorem length_slice {text : Text} {i j : ℕ} (h : j ≤ text.length) :
    (slice text i j).length = j - i := by
  rw [slice, List.length_drop, List.length_take, min_eq_left h]

variable {text : Text} {e : Entity}

theorem entitySpan_known {s : Span} (h : entitySpan e = some s) : e.known = true := by
  obtain ⟨spanType, htype, -⟩ := Option.bind_eq_some_iff.mp h
  rw [Entity.known, htype]
  rfl

/-- Where no line feed follows a particle, value and offsets stay in step. -/
theorem entitySpan_inStep {s : Span}
    (he : e.start < e.stop ∧ e.stop ≤ text.length ∧ e.text = slice text e.start e.stop)
    (hno : ¬ ParticleBreak e.text) (h : entitySpan e = some s) : InStep text s := by
  obtain ⟨hlt, hle⟩ := entitySpan_within he h
  refine ⟨hlt, hle, ?_⟩
  obtain ⟨spanType, -, h⟩ := Option.bind_eq_some_iff.mp h
  dsimp only at h
  by_cases hsame : trimTrailingParticle e.text = e.text
  · rw [if_pos hsame] at h
    dsimp only at h
    split at h
    · cases h
    · cases h
      exact he.2.2
  · rw [if_neg hsame] at h
    dsimp only at h
    split at h
    · cases h
    · cases h
      have hshort := trimTrailingParticle_length e.text
      have hlen : e.text.length = e.stop - e.start := by rw [he.2.2, length_slice he.2.1]
      have hstop : e.start + (trimTrailingParticle e.text).length ≤ e.stop := by
        have hlt := he.1
        omega
      show trimTrailingParticle e.text = slice text e.start _
      rw [slice_take hstop, ← he.2.2]
      exact List.prefix_iff_eq_take.mp (trim_isPrefix hno)

/-- Where one does, the value has the line feed and the offsets end in the particle. -/
theorem entitySpan_break
    (he : e.start < e.stop ∧ e.stop ≤ text.length ∧ e.text = slice text e.start e.stop)
    (hknown : e.known = true) (hbreak : ParticleBreak e.text) :
    ∃ s, entitySpan e = some s ∧ ¬ InStep text s := by
  obtain ⟨spanType, htype⟩ := Option.isSome_iff_exists.mp hknown
  obtain ⟨w, p, hp, htext, htrim⟩ := trim_break hbreak
  obtain ⟨c, q, rfl⟩ := List.exists_cons_of_ne_nil (particles_no_break hp).1
  have hlength : e.text.length = w.length + (q.length + 2) := by
    rw [htext]
    simp
  have hsame : trimTrailingParticle e.text ≠ e.text := by
    intro heq
    have hlen := congrArg List.length (htrim.symm.trans heq)
    rw [hlength] at hlen
    simp at hlen
  have hne : w ++ ['\n'] ≠ [] := by simp
  refine ⟨⟨spanType, w ++ ['\n'], e.start, e.start + (w ++ ['\n']).length, e.score, "ner"⟩, ?_, ?_⟩
  · rw [entitySpan, htype]
    dsimp only [Option.bind_eq_bind, Option.bind_some]
    rw [if_neg hsame]
    dsimp only
    rw [htrim, if_neg hne]
  · rintro ⟨-, -, hvalue⟩
    have hlen : e.text.length = e.stop - e.start := by rw [he.2.2, length_slice he.2.1]
    have hstop : e.start + (w ++ ['\n']).length ≤ e.stop := by
      have hlt := he.1
      rw [List.length_append, List.length_singleton]
      omega
    have htake : w ++ ['\n'] = w ++ [c] := by
      calc w ++ ['\n'] = slice text e.start (e.start + (w ++ ['\n']).length) := hvalue
        _ = e.text.take (w ++ ['\n']).length := by rw [slice_take hstop, ← he.2.2]
        _ = w ++ [c] := by
          rw [htext, List.length_append, List.take_length_add_append]
          rfl
    obtain rfl : '\n' = c := List.head_eq_of_cons_eq (List.append_cancel_left htake)
    exact (particles_no_break hp).2 List.mem_cons_self

/-- **Value and offsets.** The spans of the model have them in step exactly where the text is
blank or no entity with a known label ends in a particle and a line feed. -/
theorem in_step_iff (u : Unicode) (model : Gliner) (text : Text) :
    (∀ s ∈ model.extract u text, InStep text s) ↔
      u.strip text = [] ∨ ∀ ents, model.predict text = some ents →
        ∀ e ∈ ents, e.known = true → ¬ ParticleBreak e.text := by
  unfold Gliner.extract
  constructor
  · intro hall
    by_cases hblank : u.strip text = []
    · exact Or.inl hblank
    · refine Or.inr fun ents hents e he hknown hbreak => ?_
      have htext : ¬ (text = [] ∨ u.strip text = []) := by
        rintro (rfl | hempty)
        · exact hblank rfl
        · exact hblank hempty
      obtain ⟨s, hs, hout⟩ :=
        entitySpan_break (model.predict_sound text ents hents e he) hknown hbreak
      rw [if_neg htext, hents] at hall
      exact hout (hall s (List.mem_filterMap.mpr ⟨e, he, hs⟩))
  · intro hcond s hs
    split at hs
    · cases hs
    · rename_i htext
      obtain ⟨e, he, hspan⟩ := List.mem_filterMap.mp hs
      cases hpredict : model.predict text with
      | none =>
          rw [hpredict] at he
          cases he
      | some ents =>
          rw [hpredict] at he
          have hno := (hcond.resolve_left fun hblank => htext (Or.inr hblank)) ents hpredict e he
          exact entitySpan_inStep (model.predict_sound text ents hpredict e he)
            (hno (entitySpan_known hspan)) hspan

/-- A name with its particle, and the line feed after it. -/
def nameBreak : Text := "홍길동님\n".toList

/-- A model that takes the whole line for a name. -/
def lineModel : Gliner where
  predict text := if text = nameBreak then some [⟨"사람 이름", nameBreak, 0, 5, 9 / 10⟩] else none
  predict_sound text ents hpredict e he := by
    split at hpredict
    · rename_i htext
      cases hpredict
      obtain rfl := List.mem_singleton.mp he
      rw [htext]
      decide +kernel
    · cases hpredict

theorem name_break_out_of_step :
    ¬ ∀ s ∈ lineModel.extract .ascii nameBreak, InStep nameBreak s := by
  decide +kernel

end DlpServer.Detect
