import DlpServer.Logging.Bus

/-!
# The steps of some subscribers

What happens to the subscribers of a set is what happens to them in the run of their own
steps and of the copies (`Run.restrict`): the others may come, go and fill up.
-/

namespace DlpServer.Logging

variable {ι τ α : Type*}

section Restrict

variable (K : ι → Bool)

/-- The bus as it is for the subscribers of `K`. -/
def Bus.restrict (b : Bus ι τ α) : Bus ι τ α where
  subscribers := b.subscribers.filter K
  queues q := if K q then b.queues q else none
  puts t := (b.puts t).filter fun p => K p.1

def History.restrict (h : History ι τ α) : History ι τ α where
  published := h.published
  current := h.current
  delivered := h.delivered.filter fun d => K d.1
  opened q := if K q then h.opened q else none
  closed q := if K q then h.closed q else none
  got q := if K q then h.got q else []

/-- The copies, and the steps of the subscribers of `K`. -/
def concerns : Act ι τ α → Bool
  | .subscribe q | .unsubscribe q | .get q | .put _ q => K q
  | .copy _ _ => true

end Restrict

variable [DecidableEq ι] {K : ι → Bool} {b : Bus ι τ α} {h : History ι τ α}

/-! ## Functions that are updated -/

theorem ite_update {β : Type*} {f : ι → β} {d v : β} {q : ι} (hq : K q = true) :
    (fun p => if K p then Function.update f q v p else d) =
      Function.update (fun p => if K p then f p else d) q v := by
  ext p
  by_cases hp : p = q
  · subst hp
    rw [Function.update_self, Function.update_self, if_pos hq]
  · rw [Function.update_of_ne hp, Function.update_of_ne hp]

theorem ite_update_of_not {β : Type*} {f : ι → β} {d v : β} {q : ι} (hq : K q = false) :
    (fun p => if K p then Function.update f q v p else d) = fun p => if K p then f p else d := by
  ext p
  by_cases hp : p = q
  · subst hp
    rw [hq]
    rfl
  · rw [Function.update_of_ne hp]

omit [DecidableEq ι] in
theorem filter_update [DecidableEq τ] {f : τ → List (ι × α)} {t : τ} {l : List (ι × α)} :
    (fun t' => (Function.update f t l t').filter fun p => K p.1) =
      Function.update (fun t' => (f t').filter fun p => K p.1) t
        (l.filter fun p => K p.1) := by
  ext1 t'
  by_cases ht : t' = t
  · subst ht
    rw [Function.update_self, Function.update_self]
  · rw [Function.update_of_ne ht, Function.update_of_ne ht]

/-! ## One step -/

theorem restrict_subscribe {q : ι} (hq : K q = true) :
    (b.subscribe q).restrict K = (b.restrict K).subscribe q := by
  ext1
  · show (b.subscribers ++ [q]).filter K = b.subscribers.filter K ++ [q]
    rw [List.filter_append, List.filter_cons_of_pos hq, List.filter_nil]
  · exact ite_update hq
  · rfl

theorem restrict_unsubscribe {q : ι} (hq : K q = true) :
    (b.unsubscribe q).restrict K = (b.restrict K).unsubscribe q := by
  have hmem : q ∈ (b.restrict K).subscribers ↔ q ∈ b.subscribers := by
    rw [Bus.restrict, List.mem_filter]
    exact and_iff_left hq
  unfold Bus.unsubscribe
  by_cases hin : q ∈ b.subscribers
  · rw [if_pos hin, if_pos (hmem.mpr hin)]
    ext1
    · exact List.erase_filter.symm
    · rfl
    · rfl
  · rw [if_neg hin, if_neg (mt hmem.mp hin)]

theorem restrict_get {q : ι} (hq : K q = true) :
    (b.get q).restrict K = (b.restrict K).get q := by
  have hqueue : (b.restrict K).queues q = b.queues q := if_pos hq
  unfold Bus.get
  rw [hqueue]
  split
  · ext1
    · rfl
    · exact ite_update hq
    · rfl
  · rfl

theorem restrict_putNowait {q : ι} {event : α} (hq : K q = true) :
    (b.putNowait q event).restrict K = (b.restrict K).putNowait q event := by
  have hqueue : (b.restrict K).queues q = b.queues q := if_pos hq
  unfold Bus.putNowait
  rw [hqueue]
  split
  · ext1
    · rfl
    · exact ite_update hq
    · rfl
  · rfl

omit [DecidableEq ι] in
theorem restrict_copy [DecidableEq τ] {t : τ} {event : α} :
    (b.copy t event).restrict K = (b.restrict K).copy t event := by
  ext1
  · rfl
  · rfl
  · refine filter_update.trans (congrArg (Function.update _ t) ?_)
    rw [List.filter_map]
    rfl

variable [DecidableEq τ]

/-- A step of `K` is taken in the same way where the others are not. -/
theorem restrict_step {b' : Bus ι τ α} {a : Act ι τ α} (ha : concerns K a = true)
    (hstep : b.step a = some b') : (b.restrict K).step a = some (b'.restrict K) := by
  cases a with
  | subscribe q =>
      have hq : K q = true := ha
      have hqueue : (b.restrict K).queues q = b.queues q := if_pos hq
      simp only [Bus.step] at hstep ⊢
      rw [hqueue]
      split at hstep
      · cases hstep
      · cases hstep
        rw [if_neg ‹_›, restrict_subscribe hq]
  | unsubscribe q =>
      have hq : K q = true := ha
      cases hstep
      exact congrArg some (restrict_unsubscribe hq).symm
  | get q =>
      have hq : K q = true := ha
      cases hstep
      exact congrArg some (restrict_get hq).symm
  | copy t event =>
      simp only [Bus.step] at hstep ⊢
      split at hstep
      · rename_i ht
        cases hstep
        have hnone : (b.restrict K).puts t = [] := congrArg (List.filter fun p : ι × α => K p.1) ht
        rw [if_pos hnone, restrict_copy]
      · cases hstep
  | put t q =>
      have hq : K q = true := ha
      simp only [Bus.step] at hstep
      split at hstep
      · cases hstep
      · rename_i p event rest ht
        split at hstep
        · cases hstep
          obtain rfl : p = q := ‹_›
          have hputs : (b.restrict K).puts t = (p, event) :: rest.filter fun r => K r.1 :=
            (congrArg (List.filter fun r : ι × α => K r.1) ht).trans (List.filter_cons_of_pos hq)
          simp only [Bus.step, hputs, if_true, Option.some.injEq]
          rw [← restrict_putNowait hq]
          ext1
          · rfl
          · rfl
          · exact filter_update.symm
        · cases hstep

theorem filter_erase_of_not {l : List ι} {q : ι} (hq : K q = false) :
    (l.erase q).filter K = l.filter K := by
  have hout : q ∉ l.filter K := fun hmem => by
    rw [(List.mem_filter.mp hmem).2] at hq
    cases hq
  rw [← List.erase_filter, List.erase_of_not_mem hout]

/-- A step of another leaves `K` as it is. -/
theorem restrict_step_of_not {b' : Bus ι τ α} {a : Act ι τ α} (ha : concerns K a = false)
    (hstep : b.step a = some b') : b'.restrict K = b.restrict K := by
  cases a with
  | subscribe q =>
      have hq : K q = false := ha
      simp only [Bus.step] at hstep
      split at hstep
      · cases hstep
      · cases hstep
        ext1
        · show (b.subscribers ++ [q]).filter K = b.subscribers.filter K
          rw [List.filter_append, List.filter_cons_of_neg (by rw [hq]; decide), List.filter_nil,
            List.append_nil]
        · exact ite_update_of_not hq
        · rfl
  | unsubscribe q =>
      have hq : K q = false := ha
      cases hstep
      unfold Bus.unsubscribe
      split
      · ext1
        · exact filter_erase_of_not hq
        · rfl
        · rfl
      · rfl
  | get q =>
      have hq : K q = false := ha
      cases hstep
      unfold Bus.get
      split
      · ext1
        · rfl
        · exact ite_update_of_not hq
        · rfl
      · rfl
  | copy t event => cases ha
  | put t q =>
      have hq : K q = false := ha
      simp only [Bus.step] at hstep
      split at hstep
      · cases hstep
      · rename_i p event rest ht
        split at hstep
        · cases hstep
          obtain rfl : p = q := ‹_›
          have hrest : Function.update (fun t' => (b.puts t').filter fun r => K r.1) t
              (rest.filter fun r => K r.1) = fun t' => (b.puts t').filter fun r => K r.1 := by
            refine Function.update_eq_self_iff.mpr ?_
            rw [ht, List.filter_cons_of_neg (by rw [hq]; decide)]
          have hqueues : (b.putNowait p event).restrict K = b.restrict K := by
            unfold Bus.putNowait
            split
            · ext1
              · rfl
              · exact ite_update_of_not hq
              · rfl
            · rfl
          have hsubscribers := congrArg Bus.subscribers hqueues
          have hmap := congrArg Bus.queues hqueues
          exact Bus.ext hsubscribers hmap (filter_update.trans hrest)
        · cases hstep

theorem restrict_record {a : Act ι τ α} (ha : concerns K a = true) :
    (h.record b a).restrict K = (h.restrict K).record (b.restrict K) a := by
  cases a with
  | subscribe q =>
      have hq : K q = true := ha
      exact congrArg (fun f => { h.restrict K with opened := f }) (ite_update hq)
  | unsubscribe q =>
      have hq : K q = true := ha
      have hmem : q ∈ (b.restrict K).subscribers ↔ q ∈ b.subscribers := by
        rw [Bus.restrict, List.mem_filter]
        exact and_iff_left hq
      simp only [History.record]
      by_cases hin : q ∈ b.subscribers
      · rw [if_pos hin, if_pos (hmem.mpr hin)]
        exact congrArg (fun f => { h.restrict K with closed := f }) (ite_update hq)
      · rw [if_neg hin, if_neg (mt hmem.mp hin)]
  | get q =>
      have hq : K q = true := ha
      have hqueue : (b.restrict K).queues q = b.queues q := if_pos hq
      have hgot : (h.restrict K).got q = h.got q := if_pos hq
      simp only [History.record]
      rw [hqueue, hgot]
      split
      · exact congrArg (fun f => { h.restrict K with got := f }) (ite_update hq)
      · rfl
  | copy t event => rfl
  | put t q =>
      have hq : K q = true := ha
      have hqueue : (b.restrict K).queues q = b.queues q := if_pos hq
      simp only [History.record]
      rw [hqueue]
      split
      · split
        · rfl
        · have hdelivered : (h.delivered ++ [(q, h.current t)]).filter (fun d => K d.1) =
              (h.delivered.filter fun d => K d.1) ++ [(q, h.current t)] := by
            rw [List.filter_append, List.filter_singleton, hq, cond_true]
          exact congrArg (fun l => { h.restrict K with delivered := l }) hdelivered
      · rfl

theorem restrict_record_of_not {a : Act ι τ α} (ha : concerns K a = false) :
    (h.record b a).restrict K = h.restrict K := by
  cases a with
  | subscribe q =>
      have hq : K q = false := ha
      exact congrArg (fun f => { h.restrict K with opened := f }) (ite_update_of_not hq)
  | unsubscribe q =>
      have hq : K q = false := ha
      simp only [History.record]
      split
      · exact congrArg (fun f => { h.restrict K with closed := f }) (ite_update_of_not hq)
      · rfl
  | get q =>
      have hq : K q = false := ha
      simp only [History.record]
      split
      · exact congrArg (fun f => { h.restrict K with got := f }) (ite_update_of_not hq)
      · rfl
  | copy t event => cases ha
  | put t q =>
      have hq : K q = false := ha
      simp only [History.record]
      split
      · split
        · rfl
        · have hdelivered : (h.delivered ++ [(q, h.current t)]).filter (fun d => K d.1) =
              h.delivered.filter fun d => K d.1 := by
            rw [List.filter_append, List.filter_cons_of_neg (by rw [hq]; decide),
              List.filter_nil, List.append_nil]
          exact congrArg (fun l => { h.restrict K with delivered := l }) hdelivered
      · rfl

/-! ## Every run -/

/-- **What concerns some of the subscribers**: the steps that do, on their own, are a run,
and it does to these subscribers what the whole run does. -/
theorem Run.restrict {acts : List (Act ι τ α)} {w : World ι τ α} (hrun : Run acts w) :
    Run (acts.filter (concerns K)) (w.1.restrict K, w.2.restrict K) := by
  have hinit : ((World.init : World ι τ α).1.restrict K, World.init.2.restrict K) =
      World.init := by
    refine Prod.ext ?_ ?_
    · ext1
      · rfl
      · exact funext fun q => ite_self _
      · rfl
    · ext1
      · rfl
      · rfl
      · rfl
      · exact funext fun q => ite_self _
      · exact funext fun q => ite_self _
      · exact funext fun q => ite_self _
  have himage : Runs.Steps World.step (World.init.1.restrict K, World.init.2.restrict K)
      (acts.filter (concerns K)) (w.1.restrict K, w.2.restrict K) := by
    refine Runs.Steps.project
      (fun w : World ι τ α => (w.1.restrict K, w.2.restrict K)) (concerns K) ?_ ?_ hrun
    · intro w a u ha hstep
      obtain ⟨b', hb, rfl⟩ := Option.map_eq_some_iff.mp hstep
      exact Option.map_eq_some_iff.mpr
        ⟨_, restrict_step ha hb, congrArg (Prod.mk _) (restrict_record ha).symm⟩
    · intro w a u ha hstep
      obtain ⟨b', hb, rfl⟩ := Option.map_eq_some_iff.mp hstep
      exact Prod.ext (restrict_step_of_not ha hb) (restrict_record_of_not ha)
  rwa [hinit] at himage

end DlpServer.Logging
