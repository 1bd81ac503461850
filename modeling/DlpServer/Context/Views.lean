import DlpServer.Context.LastPurpose

/-!
# The store as a map of session states

The store files references, and stages change objects in place. Seen from outside it is
a map from session ids to states: what `load`, a touch and a removal do to the state of
one session depends on that state alone, and they leave the states of the others alone.
-/

namespace DlpServer.Context

namespace Store

/-- The ids are distinct, and each has an object of its own. -/
structure Sound (S : Store) : Prop where
  keys : (Dict.keys S.states).Nodup
  own : S.WellFormed

variable {S : Store} {sid sid' : String}

theorem Sound.get? (h : S.Sound) {r : Ref} (hr : S.states.get? sid = some r) :
    ∃ st, S.heap[r]? = some st ∧ st.sessionId = sid ∧ S.session sid = some st := by
  obtain ⟨st, hst, hid⟩ := h.own sid r hr
  exact ⟨st, hst, hid, (session_of_get? hr).trans hst⟩

theorem Sound.of_session (h : S.Sound) {st : SessionState} (hst : S.session sid = some st) :
    st.sessionId = sid ∧ ∃ r, S.states.get? sid = some r ∧ S.heap[r]? = some st := by
  obtain ⟨r, hr, hget⟩ := Option.bind_eq_some_iff.mp hst
  obtain ⟨st', hst', hid⟩ := h.own sid r hr
  obtain rfl : st = st' := Option.some.inj (hget.symm.trans hst')
  exact ⟨hid, r, hr, hget⟩

theorem Sound.get?_none (h : S.Sound) : S.states.get? sid = none ↔ S.session sid = none := by
  constructor
  · intro hnone
    rw [Store.session, hnone]
    rfl
  · intro hnone
    cases hr : S.states.get? sid with
    | none => rfl
    | some r =>
        obtain ⟨st, -, -, hst⟩ := h.get? hr
        rw [hnone] at hst
        cases hst

/-! ## Taking out -/

/-- The store without the sessions for which `p` holds. -/
def without (S : Store) (p : String × Ref → Bool) : Store :=
  { S with states := S.states.filter fun item => !p item }

end Store

/-- What is filed under a key after items were taken out. -/
theorem get?_filter {κ ν : Type*} [DecidableEq κ] {d : Dict κ ν} (hd : (Dict.keys d).Nodup)
    (p : κ × ν → Bool) (k : κ) :
    Dict.get? k (d.filter p) = (Dict.get? k d).filter fun v => p (k, v) := by
  have hsub : (Dict.keys (d.filter p)).Nodup := hd.sublist (List.filter_sublist.map _)
  cases hv : Dict.get? k d with
  | none =>
      rw [Option.filter_none, Dict.get?_eq_none]
      intro hk
      exact Dict.get?_eq_none.mp hv ((List.filter_sublist.map _).subset hk)
  | some v =>
      have hmem : (k, v) ∈ d := Dict.mem_of_get? hv
      rw [Option.filter_some]
      split
      · rename_i hp
        exact (Dict.mem_iff_get? hsub).mp (List.mem_filter.mpr ⟨hmem, hp⟩)
      · rename_i hp
        cases hw : Dict.get? k (d.filter p) with
        | none => rfl
        | some w =>
            obtain ⟨hmem', hp'⟩ := List.mem_filter.mp (Dict.mem_of_get? hw)
            rw [(Dict.mem_iff_get? hd).mp hmem'] at hv
            exact absurd (Option.some.inj hv ▸ hp') hp

theorem get?_erase_ne {κ ν : Type*} [DecidableEq κ] {d : Dict κ ν} (hd : (Dict.keys d).Nodup)
    {k k' : κ} (hne : k ≠ k') : Dict.get? k (Dict.erase k' d) = Dict.get? k d := by
  refine (get?_filter hd _ k).trans ?_
  cases Dict.get? k d with
  | none => rfl
  | some v => exact if_pos (decide_eq_true hne)

namespace Store

variable {S : Store} {sid sid' : String}

theorem Sound.without (h : S.Sound) (p : String × Ref → Bool) : (S.without p).Sound where
  keys := h.keys.sublist (List.filter_sublist.map _)
  own sid r hr := by
    have hget := (get?_filter h.keys (fun item => !p item) sid).symm.trans hr
    exact h.own sid r (Option.filter_eq_some_iff.mp hget).1

theorem Sound.session_without (h : S.Sound) {p : String × Ref → Bool}
    {q : SessionState → Bool} (hpq : ∀ r st, S.states.get? sid = some r → S.heap[r]? = some st →
      p (sid, r) = q st) :
    (S.without p).session sid = (S.session sid).filter fun st => !q st := by
  have hget : (S.without p).states.get? sid = (S.states.get? sid).filter fun v => !p (sid, v) :=
    get?_filter h.keys (fun item => !p item) sid
  cases hr : S.states.get? sid with
  | none =>
      rw [h.get?_none.mp hr, Store.session, hget, hr]
      rfl
  | some r =>
      obtain ⟨st, hst, -, hsession⟩ := h.get? hr
      rw [hsession, Store.session, hget, hr, Option.filter_some, Option.filter_some,
        hpq r st hr hst]
      split
      · exact hst
      · rfl

/-! ## Touching -/

/-- The state that a stage works on: the stored one, or a new one where there is none
or it is expired. -/
def current (S : Store) (sid : String) (c : StageCall) : SessionState :=
  match S.session sid with
  | some st => if st.isExpired c.loadedAt then S.freshState c.createdAt sid else st
  | none => S.freshState c.createdAt sid

/-- `load` finds a state that is expired. -/
def expires (S : Store) (sid : String) (now : ℚ) : Prop :=
  ∃ st ∈ S.session sid, st.isExpired now

instance (S : Store) (sid : String) (now : ℚ) : Decidable (S.expires sid now) :=
  inferInstanceAs (Decidable (∃ st ∈ S.session sid, _))

theorem Sound.current_sessionId (h : S.Sound) (c : StageCall) :
    (S.current sid c).sessionId = sid := by
  unfold current
  split
  · rename_i st hst
    split
    · rfl
    · exact (h.of_session hst).1
  · rfl

/-- The object `r` has become `st` and is filed under `sid`; the rest is as it was. -/
structure Filed (S T : Store) (sid : String) (r : Ref) (st : SessionState) : Prop where
  ttl : T.defaultTtlSeconds = S.defaultTtlSeconds
  keys : (Dict.keys T.states).Nodup
  filed : T.states.get? sid = some r
  object : T.heap[r]? = some st
  others : ∀ k, k ≠ sid → T.states.get? k = S.states.get? k ∧
    ∀ r, S.states.get? k = some r → T.heap[r]? = S.heap[r]?

theorem Filed.session {T : Store} {r : Ref} {st : SessionState} (hT : Filed S T sid r st)
    (k : String) :
    T.session k = if sid = k then some st else S.session k := by
  split
  · rename_i hk
    subst hk
    exact (session_of_get? hT.filed).trans hT.object
  · rename_i hk
    obtain ⟨hget, hheap⟩ := hT.others k (Ne.symm hk)
    cases hr : S.states.get? k with
    | none =>
        rw [Store.session, Store.session, hget, hr]
        rfl
    | some r =>
        rw [session_of_get? hr, session_of_get? (hget.trans hr)]
        exact hheap r hr

theorem Filed.sound {T : Store} {r : Ref} {st : SessionState} (h : S.Sound)
    (hT : Filed S T sid r st) (hid : st.sessionId = sid) : T.Sound where
  keys := hT.keys
  own k r' hr' := by
    by_cases hk : k = sid
    · subst hk
      obtain rfl : r = r' := Option.some.inj (hT.filed.symm.trans hr')
      exact ⟨st, hT.object, hid⟩
    · obtain ⟨hget, hheap⟩ := hT.others k hk
      have hr₀ := hget.symm.trans hr'
      obtain ⟨st₀, hst₀, hid₀⟩ := h.own k r' hr₀
      exact ⟨st₀, (hheap r' hr₀).trans hst₀, hid₀⟩

theorem Filed.save {T : Store} {r : Ref} {st : SessionState} (hst : T.heap[r]? = some st)
    (hid : st.sessionId = sid) (httl : T.defaultTtlSeconds = S.defaultTtlSeconds)
    (hkeys : (Dict.keys T.states).Nodup)
    (hothers : ∀ k, k ≠ sid → T.states.get? k = S.states.get? k ∧
      ∀ r, S.states.get? k = some r → T.heap[r]? = S.heap[r]?) :
    Filed S (T.save r) sid r st where
  ttl := (ttl_save T r).trans httl
  keys := by
    rw [Store.save, hst]
    exact Dict.nodup_set hkeys
  filed := by rw [get?_save hst, if_pos hid]
  object := by rw [heap_save, hst]
  others k hk := by
    obtain ⟨hget, hheap⟩ := hothers k hk
    refine ⟨?_, fun r' hr' => by rw [heap_save, hheap r' hr']⟩
    rw [get?_save hst, if_neg (fun h => hk (h.symm.trans hid)), hget]

/-- A stage that made a state files it beside the others. -/
theorem Filed.make {states : Dict String Ref} {c : StageCall} {f : SessionState → SessionState}
    (h : S.Sound) (hf : ∀ st, (f st).sessionId = st.sessionId)
    (hkeys : (Dict.keys states).Nodup)
    (hstates : ∀ k, k ≠ sid → states.get? k = S.states.get? k) :
    Filed S ((Store.modify ⟨S.heap ++ [S.freshState c.createdAt sid], states,
        S.defaultTtlSeconds⟩ S.heap.length f).save S.heap.length) sid S.heap.length
      (f (S.freshState c.createdAt sid)) := by
  refine Filed.save (S := S) ?_ (hf _) rfl hkeys fun k hk => ⟨hstates k hk, fun r hr => ?_⟩
  · show ((S.heap ++ [S.freshState c.createdAt sid]).modify S.heap.length f)[S.heap.length]? = _
    rw [List.getElem?_modify_eq, List.getElem?_concat_length]
    rfl
  · obtain ⟨st, hst, -⟩ := h.own k r hr
    obtain ⟨hlt, -⟩ := List.getElem?_eq_some_iff.mp hst
    show ((S.heap ++ [S.freshState c.createdAt sid]).modify S.heap.length f)[r]? = _
    rw [List.getElem?_modify_ne _ _ (Nat.ne_of_gt hlt), List.getElem?_append_left hlt]

/-- **What a touch does.** The session gets the changed state, the others keep theirs. -/
theorem Sound.filed_touch (h : S.Sound) (sid : String) (c : StageCall) {f : SessionState → SessionState}
    (hf : ∀ st, (f st).sessionId = st.sessionId) :
    Filed S (touch S sid c f) sid (loadOrNew sid S c).1 (f (S.current sid c)) := by
  have hfound := load_found S c.loadedAt sid
  unfold touch loadOrNew
  cases hload : S.load c.loadedAt sid with
  | mk found rest =>
      rw [hload] at hfound
      cases hfound with
      | missing hnone =>
          have hcurrent : S.current sid c = S.freshState c.createdAt sid := by
            unfold current
            rw [h.get?_none.mp hnone]
          rw [hcurrent]
          exact Filed.make h hf h.keys fun k _ => rfl
      | expired r st hr hst hexp =>
          have hcurrent : S.current sid c = S.freshState c.createdAt sid := by
            unfold current
            rw [(session_of_get? hr).trans hst]
            exact if_pos hexp
          rw [hcurrent]
          refine Filed.make h hf (h.keys.sublist (List.filter_sublist.map _)) fun k hk => ?_
          exact get?_erase_ne h.keys hk
      | live r hr hlive =>
          obtain ⟨st, hst, hid⟩ := h.own sid r hr
          have hcurrent : S.current sid c = st := by
            unfold current
            rw [(session_of_get? hr).trans hst]
            exact if_neg (hlive st hst)
          rw [hcurrent]
          refine Filed.save (S := S) ?_ ((hf st).trans hid) rfl h.keys
            fun k hk => ⟨rfl, fun r' hr' => ?_⟩
          · show (S.heap.modify r f)[r]? = _
            rw [List.getElem?_modify_eq, hst]
            rfl
          · -- Another session has another object.
            have hne : r ≠ r' := by
              rintro rfl
              obtain ⟨st', hst', hid'⟩ := h.own k r hr'
              rw [hst] at hst'
              cases hst'
              exact hk (hid'.symm.trans hid)
            show (S.heap.modify r f)[r']? = _
            rw [List.getElem?_modify_ne _ _ hne]

theorem Sound.touch (h : S.Sound) (c : StageCall) {f : SessionState → SessionState}
    (hf : ∀ st, (f st).sessionId = st.sessionId) : (Context.touch S sid c f).Sound :=
  (h.filed_touch sid c hf).sound h ((hf _).trans (h.current_sessionId c))

/-! ## Loading -/

theorem load_heap (S : Store) (now : ℚ) (sid : String) : (S.load now sid).2.2.heap = S.heap := by
  have hfound := load_found S now sid
  cases hload : S.load now sid with
  | mk found rest =>
      rw [hload] at hfound
      cases hfound <;> rfl

/-- The store after `load`. -/
theorem Sound.load (h : S.Sound) (now : ℚ) (sid : String) :
    (S.load now sid).2.2.Sound ∧ (S.load now sid).2.2.defaultTtlSeconds = S.defaultTtlSeconds ∧
      ((S.load now sid).1.bind fun r => (S.load now sid).2.2.heap[r]?) =
        (S.session sid).filter (fun st => !decide (st.isExpired now)) ∧
      ∀ k, (S.load now sid).2.2.session k =
        if sid = k then (S.session k).filter (fun st => !decide (st.isExpired now))
        else S.session k := by
  have hfound := load_found S now sid
  cases hload : S.load now sid with
  | mk found rest =>
      rw [hload] at hfound
      cases hfound with
      | missing hnone =>
          have hsession := h.get?_none.mp hnone
          refine ⟨h, rfl, by rw [hsession]; rfl, fun k => ?_⟩
          split
          · rename_i hk
            rw [← hk, hsession]
            rfl
          · rfl
      | live r hr hlive =>
          obtain ⟨st, hst, -, hsession⟩ := h.get? hr
          have hkeep : (S.session sid).filter (fun st => !decide (st.isExpired now)) =
              some st := by
            rw [hsession, Option.filter_some, decide_eq_false (hlive st hst)]
            rfl
          refine ⟨h, rfl, by rw [hkeep]; exact hst, fun k => ?_⟩
          split
          · rename_i hk
            rw [← hk, hkeep, hsession]
          · rfl
      | expired r st hr hst hexp =>
          have hdrop : (S.session sid).filter (fun st => !decide (st.isExpired now)) = none := by
            rw [session_of_get? hr, hst, Option.filter_some, decide_eq_true hexp]
            rfl
          have herase : ({ S with states := S.states.erase sid } : Store) =
              S.without fun item => decide (item.1 = sid) := by
            unfold Dict.erase Store.without
            congr 1
            exact List.filter_congr fun item _ => decide_not
          have hsession : ∀ k, (S.without fun item => decide (item.1 = sid)).session k =
              (S.session k).filter fun st => !decide (st.sessionId = sid) := by
            refine fun k => h.session_without fun r' st' hr' hst' => ?_
            obtain ⟨st₀, hst₀, hid⟩ := h.own k r' hr'
            rw [hst'] at hst₀
            cases hst₀
            rw [hid]
          rw [herase]
          refine ⟨h.without _, rfl, hdrop.symm, fun k => ?_⟩
          show (S.without fun item => decide (item.1 = sid)).session k = _
          rw [hsession k]
          split
          · rename_i hk
            rw [← hk, hdrop, session_of_get? hr, hst, Option.filter_some,
              (h.of_session ((session_of_get? hr).trans hst)).1, decide_eq_true rfl]
            rfl
          · rename_i hk
            cases hk' : S.session k with
            | none => rfl
            | some st' =>
                have hid := (h.of_session hk').1
                rw [Option.filter_some, decide_eq_false (fun heq => hk (heq.symm.trans hid))]
                rfl

end Store

end DlpServer.Context
