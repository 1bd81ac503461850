import DlpServer.Context.Stage

/-!
# What a session remembers (`get_last_purpose`)

The purpose cell of a session, through the operations that the stages make on the
store: load or make, change in place, save.
-/

namespace DlpServer.Context

variable {S : Store} {sid : String} {now : ℚ}

/-! ## Loading -/

/-- What `load` comes back with. -/
inductive Found (S : Store) (now : ℚ) (sid : String) : Option Ref × List Ref × Store → Prop
  | missing (hnone : S.states.get? sid = none) : Found S now sid (none, [], S)
  | live (r : Ref) (hr : S.states.get? sid = some r)
      (hlive : ∀ st, S.heap[r]? = some st → ¬ st.isExpired now) : Found S now sid (some r, [], S)
  | expired (r : Ref) (st : SessionState) (hr : S.states.get? sid = some r)
      (hst : S.heap[r]? = some st) (hexp : st.isExpired now) :
      Found S now sid (none, [r], { S with states := S.states.erase sid })

theorem load_found (S : Store) (now : ℚ) (sid : String) : Found S now sid (S.load now sid) := by
  unfold Store.load
  cases hr : S.states.get? sid with
  | none => exact .missing hr
  | some r =>
      dsimp only
      split
      · rename_i hexp
        obtain ⟨st, hst, hexp⟩ := hexp
        exact .expired r st hr hst hexp
      · rename_i hexp
        exact .live r hr fun st hst hst' => hexp ⟨st, hst, hst'⟩

theorem session_of_get? {r : Ref} (hr : S.states.get? sid = some r) :
    S.session sid = S.heap[r]? := by
  rw [Store.session, hr]
  rfl

/-- `get_last_purpose` of a session that is stored and not expired. -/
theorem getLastPurpose_eq (S : Store) (now : ℚ) (sid : String) :
    getLastPurpose S now sid =
      (S.session sid).bind fun st => if st.isExpired now then none else st.purpose := by
  have hfound := load_found S now sid
  rw [getLastPurpose]
  cases hload : S.load now sid with
  | mk found rest =>
      rw [hload] at hfound
      cases hfound with
      | missing hnone =>
          rw [Store.session, hnone]
          rfl
      | live r hr hlive =>
          rw [session_of_get? hr]
          cases hst : S.heap[r]? with
          | none =>
              show (S.heap[r]?).bind SessionState.purpose = _
              rw [hst]
              rfl
          | some st =>
              show (S.heap[r]?).bind SessionState.purpose = if _ then _ else _
              rw [hst, if_neg (hlive st hst)]
              rfl
      | expired r st hr hst hexp =>
          rw [session_of_get? hr, hst]
          show none = if _ then _ else _
          rw [if_pos hexp]

/-! ## Saving -/

theorem heap_save (S : Store) (r : Ref) : (S.save r).heap = S.heap := by
  unfold Store.save
  split <;> rfl

theorem ttl_save (S : Store) (r : Ref) : (S.save r).defaultTtlSeconds = S.defaultTtlSeconds := by
  unfold Store.save
  split <;> rfl

theorem get?_save {r : Ref} {st : SessionState} (hst : S.heap[r]? = some st) (sid : String) :
    (S.save r).states.get? sid = if st.sessionId = sid then some r else S.states.get? sid := by
  rw [Store.save, hst]
  show Dict.get? sid (Dict.set st.sessionId r S.states) = _
  rw [Dict.get?_set]

/-- Saving what is stored under the id changes nothing there. -/
theorem session_save_stored {r : Ref} (hr : S.states.get? sid = some r) :
    (S.save r).session sid = S.heap[r]? := by
  have hget : (S.save r).states.get? sid = some r := by
    cases hst : S.heap[r]? with
    | none => rw [Store.save, hst, hr]
    | some st =>
        rw [get?_save hst]
        split
        · rfl
        · exact hr
  rw [session_of_get? hget, heap_save]

theorem session_save_own {r : Ref} {st : SessionState} (hst : S.heap[r]? = some st)
    (hid : st.sessionId = sid) : (S.save r).session sid = some st := by
  have hget : (S.save r).states.get? sid = some r := by
    rw [get?_save hst, if_pos hid]
  rw [session_of_get? hget, heap_save, hst]

/-! ## Load or make, change, save -/

/-- What a stage does to the state of its session: it loads it or makes one,
changes the object in place and saves it. -/
def touch (S : Store) (sid : String) (c : StageCall) (f : SessionState → SessionState) : Store :=
  ((loadOrNew sid S c).2.2.modify (loadOrNew sid S c).1 f).save (loadOrNew sid S c).1

/-- What the session holds before and after the object was changed. -/
inductive SessionTouched (S : Store) (sid : String) (c : StageCall) (f : SessionState → SessionState) :
    Option SessionState → Prop
  | kept (st : SessionState) (hst : S.session sid = some st) (hlive : ¬ st.isExpired c.loadedAt) :
      SessionTouched S sid c f (some (f st))
  | dangling (r : Ref) (hr : S.states.get? sid = some r) (hnone : S.heap[r]? = none) :
      SessionTouched S sid c f none
  | made (hgone : ∀ st, S.session sid = some st → st.isExpired c.loadedAt) :
      SessionTouched S sid c f (some (f (S.freshState c.createdAt sid)))

theorem session_touch (S : Store) (sid : String) (c : StageCall) {f : SessionState → SessionState}
    (hf : ∀ st, (f st).sessionId = st.sessionId) :
    SessionTouched S sid c f ((touch S sid c f).session sid) := by
  have hfound := load_found S c.loadedAt sid
  unfold touch loadOrNew
  -- A new object is the last of the heap and carries the id.
  have hnew : ∀ states : Dict String Ref,
      ((Store.modify ⟨S.heap ++ [S.freshState c.createdAt sid], states, S.defaultTtlSeconds⟩
        S.heap.length f).save S.heap.length).session sid =
          some (f (S.freshState c.createdAt sid)) := by
    intro states
    have hget : (Store.modify ⟨S.heap ++ [S.freshState c.createdAt sid], states,
        S.defaultTtlSeconds⟩ S.heap.length f).heap[S.heap.length]? =
          some (f (S.freshState c.createdAt sid)) := by
      show ((S.heap ++ [S.freshState c.createdAt sid]).modify S.heap.length f)[S.heap.length]? = _
      rw [List.getElem?_modify_eq, List.getElem?_concat_length]
      rfl
    exact session_save_own hget (hf _)
  cases hload : S.load c.loadedAt sid with
  | mk found rest =>
      rw [hload] at hfound
      cases hfound with
      | missing hnone =>
          dsimp only [Store.newSession]
          rw [hnew]
          refine .made fun st hst => ?_
          rw [Store.session, hnone] at hst
          cases hst
      | live r hr hlive =>
          dsimp only
          have hr' : (S.modify r f).states.get? sid = some r := hr
          rw [session_save_stored hr']
          show SessionTouched S sid c f ((S.heap.modify r f)[r]?)
          rw [List.getElem?_modify_eq]
          cases hst : S.heap[r]? with
          | none => exact .dangling r hr hst
          | some st => exact .kept st ((session_of_get? hr).trans hst) (hlive st hst)
      | expired r st hr hst hexp =>
          have hsession := (session_of_get? hr).trans hst
          dsimp only [Store.newSession]
          have hnew := hnew (S.states.erase sid)
          change _ = some (f (S.freshState c.createdAt sid)) at hnew
          refine Eq.mpr (congrArg (SessionTouched S sid c f) hnew) (.made fun st' hst' => ?_)
          rw [hsession] at hst'
          cases hst'
          exact hexp

/-- A change that keeps the purpose and the lifetime keeps what is remembered, from
the instant on at which the session was loaded. -/
theorem getLastPurpose_touch (c : StageCall) {f : SessionState → SessionState}
    (hid : ∀ st, (f st).sessionId = st.sessionId) (hexpires : ∀ st, (f st).expiresAt = st.expiresAt)
    (hpurpose : ∀ st, (f st).purpose = st.purpose) (hnow : c.loadedAt ≤ now) :
    getLastPurpose (touch S sid c f) now sid = getLastPurpose S now sid := by
  have htouched := session_touch S sid c hid
  rw [getLastPurpose_eq, getLastPurpose_eq]
  cases hafter : (touch S sid c f).session sid with
  | none =>
      rw [hafter] at htouched
      cases htouched with
      | dangling r hr hnone => rw [session_of_get? hr, hnone]
  | some st' =>
      rw [hafter] at htouched
      cases htouched with
      | kept st hst hlive =>
          rw [hst]
          have hexpired : (f st).isExpired now ↔ st.isExpired now := by
            show (f st).expiresAt ≤ now ↔ st.expiresAt ≤ now
            rw [hexpires]
          simp only [Option.bind_some, hexpired, hpurpose]
      | made hgone =>
          show (if _ then _ else _) = _
          rw [hpurpose, show (S.freshState c.createdAt sid).purpose = none from rfl, ite_self]
          cases hst : S.session sid with
          | none => rfl
          | some st =>
              show none = if _ then _ else _
              rw [if_pos (show st.isExpired now from le_trans (hgone st hst) hnow)]

end DlpServer.Context
