import DlpServer.Detect.Layers
import DlpServer.Lib.Once

/-!
# The NER engine of the process (`app/detect/ner.py`)

`get_ner_engine` makes one engine for the process, and the engine loads its model when it
is first needed; both look twice, with a lock in between. Loading may raise, and `extract`
then finds nothing. Any number of threads detect at the same time, and `main` preloads.

What they find is what one model finds, that of the engine which was made first, unless
loading raised in the call itself, which it does only before the model is there
(`detects_as_one`), and every call returns (`calls_return`). The pure `Gliner.extract` of
the detection layers rests on this.
-/

namespace DlpServer.Detect

open Once

/-! ## The engine -/

/-- `DEFAULT_MODEL_NAME`. -/
def defaultModelName : String := "urchade/gliner_multi-v2.1"

/-- `DEFAULT_THRESHOLD`. -/
def defaultThreshold : ℚ := 2 / 5

/-- An object of `NEREngine`. -/
structure NerEngine where
  id : ℕ
  modelName : String
  threshold : ℚ
deriving DecidableEq

/-- The arguments of `get_ner_engine`. -/
structure EngineArgs where
  modelName : Option String
  threshold : Option ℚ
deriving DecidableEq

/-- `NEREngine(...)` in `get_ner_engine`; `id` is that of the new object. -/
def EngineArgs.make (args : EngineArgs) (id : ℕ) : Option NerEngine :=
  some
    { id := id
      modelName := (args.modelName.filter (· ≠ "")).getD defaultModelName
      threshold := args.threshold.getD defaultThreshold }

/-- What a thread calls: `get_ner_engine(...).preload()`, or `detect(text)`. -/
inductive Job where
  | preload (args : EngineArgs)
  | detect (text : Text)
deriving DecidableEq

/-- What `get_ner_engine` is called with. -/
def Job.args : Job → EngineArgs
  | .preload args => args
  | .detect _ => ⟨none, none⟩

/-- Where a thread is. -/
inductive Pc where
  | idle
  | asking (job : Job)                    -- in `get_ner_engine`
  | loading (job : Job) (e : NerEngine)   -- in `_ensure_loaded`, and up to reading `_model`
  | failing (job : Job)                   -- loading has raised, and the lock is free again
deriving DecidableEq

/-- What a call of `detect` has returned, and whether loading raised in it. -/
structure Found (τ : Type*) where
  thread : τ
  text : Text
  raised : Bool
  spans : List Span

/-- What a call returns, where the text is looked through by `extract`. -/
def Job.found {τ : Type*} (t : τ) (raised : Bool) (extract : Text → List Span) :
    Job → List (Found τ)
  | .preload _ => []
  | .detect text => [⟨t, text, raised, extract text⟩]

/-- `_engine` with `_engine_lock`, `_model` with `_lock` of each object, and the threads;
`asked` and `found` are history. -/
structure Ner (τ : Type*) where
  engine : Cell τ EngineArgs NerEngine
  model : ℕ → Cell τ Unit Gliner
  pc : τ → Pc
  asked : List EngineArgs
  found : List (Found τ)

/-- The process has just started. -/
def Ner.init {τ : Type*} : Ner τ := ⟨.init, fun _ => .init, fun _ => .idle, [], []⟩

/-- A thread calls, or takes a step in one of the two functions; a new object gets its id,
and a model can be loaded or not. A call in which loading raised returns later. -/
inductive NerAct (τ : Type*) where
  | start (t : τ) (job : Job)
  | engine (a : Act τ EngineArgs ℕ)
  | model (a : Act τ Unit Bool)
  | giveUp (t : τ)

/-- A call begins with this step. -/
def NerAct.Starts {τ : Type*} : NerAct τ → Prop
  | .start _ _ => True
  | .engine _ | .model _ | .giveUp _ => False

def NerAct.thread {τ : Type*} : NerAct τ → τ
  | .start t _ => t
  | .engine a => a.thread
  | .model a => a.thread
  | .giveUp t => t

namespace Ner

variable {τ : Type*} [DecidableEq τ]

section Step

variable (u : Unicode) (pretrained : String → ℚ → Gliner)

/-- `GLiNER.from_pretrained`, which may raise. -/
def load (e : NerEngine) (_ : Unit) (ok : Bool) : Option Gliner :=
  if ok then some (pretrained e.modelName e.threshold) else none

/-- `not text or not text.strip()`. -/
def blank (text : Text) : Prop := text = [] ∨ u.strip text = []

instance (text : Text) : Decidable (blank u text) := inferInstanceAs (Decidable (_ ∨ _))

/-- A call returns. -/
def leave (w : Ner τ) (t : τ) (found : List (Found τ)) : Ner τ :=
  { w with pc := Function.update w.pc t .idle, found := w.found ++ found }

/-- `get_ner_engine` has returned `e`. -/
def enter (w : Ner τ) (t : τ) (job : Job) (e : NerEngine) : Option (Ner τ) :=
  ((w.model e.id).step (load pretrained e) (.call t ())).map fun c =>
    { w with
      model := Function.update w.model e.id c
      pc := Function.update w.pc t (.loading job e) }

def arrive (w : Ner τ) (t : τ) (e : NerEngine) : Job → Option (Ner τ)
  | .preload args => w.enter pretrained t (.preload args) e
  | .detect text =>
      if blank u text then some (w.leave t [⟨t, text, false, []⟩])
      else w.enter pretrained t (.detect text) e

/-- One step; `none` where it is not due. -/
def step (w : Ner τ) : NerAct τ → Option (Ner τ)
  | .start t job =>
      match w.pc t with
      | .idle =>
          (w.engine.step EngineArgs.make (.call t job.args)).map fun engine =>
            { w with
              engine := engine
              pc := Function.update w.pc t (.asking job)
              asked := w.asked ++ [job.args] }
      | _ => none
  | .engine (.call _ _) | .model (.call _ _) => none
  | .engine (.read t) =>
      match w.pc t, w.engine.value with
      | .asking job, some e =>
          (w.engine.step EngineArgs.make (.read t)).bind fun engine =>
            { w with engine := engine }.arrive u pretrained t e job
      | _, _ => none
  | .engine a =>
      match w.pc a.thread with
      | .asking _ =>
          (w.engine.step EngineArgs.make a).map fun engine => { w with engine := engine }
      | _ => none
  | .model (.read t) =>
      match w.pc t with
      | .loading job e =>
          match (w.model e.id).value with
          | some m =>
              ((w.model e.id).step (load pretrained e) (.read t)).map fun c =>
                { w with model := Function.update w.model e.id c }.leave t
                  (job.found t false (m.extract u))
          | none => none
      | _ => none
  | .model a =>
      match w.pc a.thread with
      | .loading job e =>
          ((w.model e.id).step (load pretrained e) a).map fun c =>
            -- After an exception the thread has left `_ensure_loaded`.
            { w with
              model := Function.update w.model e.id c
              pc := if (c.phase a.thread).arg = none then
                Function.update w.pc a.thread (.failing job) else w.pc }
      | _ => none
  | .giveUp t =>
      match w.pc t with
      | .failing job => some (w.leave t (job.found t true fun _ => []))
      | _ => none

end Step

/-! ## What a step can do -/

section Moves

variable {u : Unicode} {pretrained : String → ℚ → Gliner}

inductive Moves (u : Unicode) (pretrained : String → ℚ → Gliner) : Ner τ → NerAct τ → Ner τ → Prop
  | start {w : Ner τ} {t : τ} {job : Job} {engine : Cell τ EngineArgs NerEngine}
      (ht : w.pc t = .idle)
      (hstep : w.engine.step EngineArgs.make (.call t job.args) = some engine) :
      Moves u pretrained w (.start t job)
        { w with
          engine := engine
          pc := Function.update w.pc t (.asking job)
          asked := w.asked ++ [job.args] }
  | engine {w : Ner τ} {a : Act τ EngineArgs ℕ} {job : Job} {engine : Cell τ EngineArgs NerEngine}
      (ht : w.pc a.thread = .asking job) (ha : ¬ a.Calls) (hread : ∀ t, a ≠ .read t)
      (hstep : w.engine.step EngineArgs.make a = some engine) :
      Moves u pretrained w (.engine a) { w with engine := engine }
  | blank {w : Ner τ} {t : τ} {text : Text} {e : NerEngine} {engine : Cell τ EngineArgs NerEngine}
      (ht : w.pc t = .asking (.detect text)) (he : w.engine.value = some e)
      (hblank : blank u text) (hstep : w.engine.step EngineArgs.make (.read t) = some engine) :
      Moves u pretrained w (.engine (.read t))
        ({ w with engine := engine }.leave t [⟨t, text, false, []⟩])
  | enter {w : Ner τ} {t : τ} {job : Job} {e : NerEngine} {engine : Cell τ EngineArgs NerEngine}
      {c : Cell τ Unit Gliner} (ht : w.pc t = .asking job) (he : w.engine.value = some e)
      (hstep : w.engine.step EngineArgs.make (.read t) = some engine)
      (hcall : (w.model e.id).step (load pretrained e) (.call t ()) = some c) :
      Moves u pretrained w (.engine (.read t))
        { w with
          engine := engine
          model := Function.update w.model e.id c
          pc := Function.update w.pc t (.loading job e) }
  | model {w : Ner τ} {a : Act τ Unit Bool} {job : Job} {e : NerEngine} {c : Cell τ Unit Gliner}
      (ht : w.pc a.thread = .loading job e) (ha : ¬ a.Calls)
      (hstep : (w.model e.id).step (load pretrained e) a = some c)
      (hstay : (c.phase a.thread).arg ≠ none) :
      Moves u pretrained w (.model a) { w with model := Function.update w.model e.id c }
  | raised {w : Ner τ} {a : Act τ Unit Bool} {job : Job} {e : NerEngine} {c : Cell τ Unit Gliner}
      (ht : w.pc a.thread = .loading job e) (ha : ¬ a.Calls) (hread : ∀ t, a ≠ .read t)
      (hstep : (w.model e.id).step (load pretrained e) a = some c)
      (hidle : (c.phase a.thread).arg = none) :
      Moves u pretrained w (.model a)
        { w with
          model := Function.update w.model e.id c
          pc := Function.update w.pc a.thread (.failing job) }
  | gaveUp {w : Ner τ} {t : τ} {job : Job} (ht : w.pc t = .failing job) :
      Moves u pretrained w (.giveUp t) (w.leave t (job.found t true fun _ => []))
  | answered {w : Ner τ} {t : τ} {job : Job} {e : NerEngine} {m : Gliner}
      {c : Cell τ Unit Gliner} (ht : w.pc t = .loading job e)
      (hm : (w.model e.id).value = some m)
      (hstep : (w.model e.id).step (load pretrained e) (.read t) = some c) :
      Moves u pretrained w (.model (.read t))
        ({ w with model := Function.update w.model e.id c }.leave t
          (job.found t false (m.extract u)))

theorem Moves.of_arrive {w w' : Ner τ} {t : τ} {job : Job} {e : NerEngine}
    {engine : Cell τ EngineArgs NerEngine} (ht : w.pc t = .asking job)
    (he : w.engine.value = some e)
    (hstep : w.engine.step EngineArgs.make (.read t) = some engine)
    (h : { w with engine := engine }.arrive u pretrained t e job = some w') :
    Moves u pretrained w (.engine (.read t)) w' := by
  have henter : ∀ {w' : Ner τ}, { w with engine := engine }.enter pretrained t job e = some w' →
      Moves u pretrained w (.engine (.read t)) w' := by
    intro w' h
    obtain ⟨c, hc, rfl⟩ := Option.map_eq_some_iff.mp h
    exact .enter ht he hstep hc
  cases job with
  | preload args => exact henter h
  | detect text =>
      rw [arrive] at h
      split at h
      · cases h
        exact .blank ht he ‹_› hstep
      · exact henter h

theorem Moves.of_engine {w w' : Ner τ} {a : Act τ EngineArgs ℕ} (ha : ¬ a.Calls)
    (hread : ∀ t, a ≠ .read t)
    (h : (match w.pc a.thread with
      | .asking _ =>
          (w.engine.step EngineArgs.make a).map fun engine => { w with engine := engine }
      | _ => none) = some w') : Moves u pretrained w (.engine a) w' := by
  cases ht : w.pc a.thread <;> simp only [ht, reduceCtorEq] at h
  case asking job =>
    obtain ⟨engine, hstep, rfl⟩ := Option.map_eq_some_iff.mp h
    exact .engine ht ha hread hstep

theorem Moves.of_model {w w' : Ner τ} {a : Act τ Unit Bool} (ha : ¬ a.Calls)
    (hread : ∀ t, a ≠ .read t)
    (h : (match w.pc a.thread with
      | .loading job e =>
          ((w.model e.id).step (load pretrained e) a).map fun c =>
            { w with
              model := Function.update w.model e.id c
              pc := if (c.phase a.thread).arg = none then
                Function.update w.pc a.thread (.failing job) else w.pc }
      | _ => none) = some w') : Moves u pretrained w (.model a) w' := by
  cases ht : w.pc a.thread <;> simp only [ht, reduceCtorEq] at h
  case loading job e =>
    obtain ⟨c, hstep, rfl⟩ := Option.map_eq_some_iff.mp h
    split
    · exact .raised ht ha hread hstep ‹_›
    · exact .model ht ha hstep ‹_›

theorem Moves.of_step {w w' : Ner τ} {a : NerAct τ} (h : w.step u pretrained a = some w') :
    Moves u pretrained w a w' := by
  cases a with
  | start t job =>
      cases ht : w.pc t <;> simp only [step, ht, reduceCtorEq] at h
      case idle =>
        obtain ⟨engine, hstep, rfl⟩ := Option.map_eq_some_iff.mp h
        exact .start ht hstep
  | engine a =>
      cases a
      case call t r => cases h
      case read t =>
        cases ht : w.pc t <;> cases he : w.engine.value <;>
          simp only [step, ht, he, reduceCtorEq] at h
        case asking.some job e =>
          obtain ⟨engine, hstep, h⟩ := Option.bind_eq_some_iff.mp h
          exact .of_arrive ht he hstep h
      all_goals exact .of_engine id (fun _ => by simp) h
  | model a =>
      cases a
      case call t r => cases h
      case read t =>
        cases ht : w.pc t <;> simp only [step, ht, reduceCtorEq] at h
        case loading job e =>
          cases hm : (w.model e.id).value <;> simp only [hm, reduceCtorEq] at h
          case some m =>
            obtain ⟨c, hstep, rfl⟩ := Option.map_eq_some_iff.mp h
            exact .answered ht hm hstep
      all_goals exact .of_model id (fun _ => by simp) h
  | giveUp t =>
      cases ht : w.pc t <;> simp only [step, ht, reduceCtorEq, Option.some.injEq] at h
      case failing job => exact h ▸ .gaveUp ht

end Moves

/-! ## One engine and one model -/

section Inv

variable {u : Unicode} {pretrained : String → ℚ → Gliner}

omit [DecidableEq τ] in
/-- Nobody is in `_ensure_loaded` of another object. -/
def Away (w : Ner τ) (t : τ) : Prop := ∀ id, ((w.model id).phase t).arg = none

/-- Where the thread is in the two functions. -/
def At (w : Ner τ) (t : τ) : Pc → Prop
  | .idle => (w.engine.phase t).arg = none ∧ w.Away t
  | .asking job => (w.engine.phase t).arg = some job.args ∧ w.Away t
  | .loading _ e => (w.engine.phase t).arg = none ∧ w.engine.value = some e ∧
      ((w.model e.id).phase t).arg = some ()
  | .failing _ => (w.engine.phase t).arg = none ∧ w.Away t ∧ ∃ e, w.engine.value = some e

/-- What the call has found is what the model of the engine finds. -/
def Answers (u : Unicode) (pretrained : String → ℚ → Gliner) (w : Ner τ) (f : Found τ) : Prop :=
  ∃ e, w.engine.value = some e ∧
    f.spans = if f.raised then [] else (pretrained e.modelName e.threshold).extract u f.text

/-- There is one engine at most, and no other object has a model. -/
structure Inv (u : Unicode) (pretrained : String → ℚ → Gliner) (w : Ner τ) : Prop where
  engine : w.engine.Inv EngineArgs.make
  asked : w.engine.From (· ∈ w.asked)
  sure : ∀ t r, w.engine.phase t ≠ .leaving r true
  model : ∀ e, w.engine.value = some e → (w.model e.id).Inv (load pretrained e)
  fresh : ∀ id, (∀ e, w.engine.value = some e → e.id ≠ id) → w.model id = .init
  pcs : ∀ t, w.At t (w.pc t)
  found : ∀ f ∈ w.found, Answers u pretrained w f

omit [DecidableEq τ] in
theorem Inv.init : Inv u pretrained (Ner.init : Ner τ) where
  engine := Cell.Inv.init _
  asked := ⟨fun _ _ h => by (cases h), fun _ h => by (cases h)⟩
  sure _ _ h := by cases h
  model _ h := by cases h
  fresh _ _ := rfl
  pcs _ := ⟨rfl, fun _ => rfl⟩
  found _ h := by cases h

/-- The other threads stand where they stood. -/
theorem Inv.pcs_of_others {w : Ner τ} (h : Inv u pretrained w) {w' : Ner τ} {t : τ}
    (hvalue : ∀ e, w.engine.value = some e → w'.engine.value = some e)
    (hengine : ∀ t', t' ≠ t → w'.engine.phase t' = w.engine.phase t')
    (hmodel : ∀ t', t' ≠ t → ∀ id, (w'.model id).phase t' = (w.model id).phase t')
    (hpc : ∀ t', t' ≠ t → w'.pc t' = w.pc t') (ht : w'.At t (w'.pc t)) (t' : τ) :
    w'.At t' (w'.pc t') := by
  by_cases htt : t' = t
  · exact htt ▸ ht
  · have hold := h.pcs t'
    have haway : w.Away t' → w'.Away t' := fun haway id => by
      rw [hmodel t' htt id]
      exact haway id
    rw [hpc t' htt]
    cases hp : w.pc t' <;> rw [hp] at hold
    case idle => exact ⟨by rw [hengine t' htt]; exact hold.1, haway hold.2⟩
    case asking job => exact ⟨by rw [hengine t' htt]; exact hold.1, haway hold.2⟩
    case loading job e =>
      exact ⟨by rw [hengine t' htt]; exact hold.1, hvalue e hold.2.1,
        by rw [hmodel t' htt]; exact hold.2.2⟩
    case failing job =>
      obtain ⟨hidle, haway', e, he⟩ := hold
      exact ⟨by rw [hengine t' htt]; exact hidle, haway haway', e, hvalue e he⟩

/-- What a step in `get_ner_engine` keeps of the models. -/
theorem Inv.models_of_engine {w : Ner τ} (h : Inv u pretrained w) {a : Act τ EngineArgs ℕ}
    {engine : Cell τ EngineArgs NerEngine}
    (hmoves : Cell.Moves EngineArgs.make w.engine a engine) :
    (∀ e, w.engine.value = some e → engine.value = some e) ∧
      (∀ e, engine.value = some e → (w.model e.id).Inv (load pretrained e)) ∧
      ∀ id, (∀ e, engine.value = some e → e.id ≠ id) → w.model id = .init := by
  have hstays : ∀ e, w.engine.value = some e → engine.value = some e :=
    fun e he => h.engine.value_stays hmoves he
  refine ⟨hstays, fun e he => ?_, fun id hid => h.fresh id fun e he => hid e (hstays e he)⟩
  cases hold : w.engine.value with
  | none =>
      -- The object is new.
      rw [h.fresh e.id fun e' he' => by rw [hold] at he'; cases he']
      exact Cell.Inv.init _
  | some e' =>
      obtain rfl : e' = e := Option.some.inj ((hstays e' hold).symm.trans he)
      exact h.model e' hold

/-- What a step in `_ensure_loaded` keeps of the models. -/
theorem Inv.models_of_model {w : Ner τ} (h : Inv u pretrained w) {e : NerEngine}
    (he : w.engine.value = some e) {a : Act τ Unit Bool} {c : Cell τ Unit Gliner}
    (hmoves : Cell.Moves (load pretrained e) (w.model e.id) a c) :
    (∀ e', w.engine.value = some e' →
        (Function.update w.model e.id c e'.id).Inv (load pretrained e')) ∧
      ∀ id, (∀ e', w.engine.value = some e' → e'.id ≠ id) →
        Function.update w.model e.id c id = .init := by
  refine ⟨fun e' he' => ?_, fun id hid => ?_⟩
  · obtain rfl : e' = e := Option.some.inj (he'.symm.trans he)
    rw [Function.update_self]
    exact (h.model e' he).moves hmoves
  · rw [Function.update_of_ne (hid e he).symm]
    exact h.fresh id hid

theorem phase_update {w : Ner τ} {e : NerEngine} {a : Act τ Unit Bool} {c : Cell τ Unit Gliner}
    (hmoves : Cell.Moves (load pretrained e) (w.model e.id) a c) {t : τ} (ht : t ≠ a.thread)
    (id : ℕ) : (Function.update w.model e.id c id).phase t = (w.model id).phase t := by
  by_cases hid : id = e.id
  · subst hid
    rw [Function.update_self]
    exact hmoves.others ht
  · rw [Function.update_of_ne hid]

omit [DecidableEq τ] in
/-- A thread that has left the model of the engine is in no other. -/
theorem Inv.away {w : Ner τ} (h : Inv u pretrained w) {e : NerEngine} {t : τ}
    {c : Cell τ Unit Gliner} (he : w.engine.value = some e) (hidle : (c.phase t).arg = none)
    (id : ℕ) : ((Function.update w.model e.id c id).phase t).arg = none := by
  by_cases hid : id = e.id
  · subst hid
    rwa [Function.update_self]
  · rw [Function.update_of_ne hid, h.fresh id]
    · rfl
    · rintro e' he' rfl
      exact hid (congrArg NerEngine.id (Option.some.inj (he'.symm.trans he)))

omit [DecidableEq τ] in
theorem Answers.mono {w w' : Ner τ} {f : Found τ} (h : Answers u pretrained w f)
    (hstays : ∀ e, w.engine.value = some e → w'.engine.value = some e) :
    Answers u pretrained w' f := by
  obtain ⟨e, he, hspans⟩ := h
  exact ⟨e, hstays e he, hspans⟩

theorem extract_blank {text : Text} (m : Gliner) (h : blank u text) : m.extract u text = [] :=
  if_pos h

omit [DecidableEq τ] in
/-- What a call has found, once it knows the engine. -/
theorem answers_found {w : Ner τ} {e : NerEngine} (he : w.engine.value = some e) {t : τ}
    {raised : Bool} {extract : Text → List Span} {job : Job}
    (hextract : ∀ text, extract text =
      if raised then [] else (pretrained e.modelName e.threshold).extract u text) :
    ∀ f ∈ job.found t raised extract, Answers u pretrained w f := by
  intro f hf
  cases job with
  | preload args => cases hf
  | detect text =>
      obtain rfl := List.mem_singleton.mp hf
      exact ⟨e, he, hextract text⟩

/-- A step in `get_ner_engine`; what else changes with it stands with the thread. -/
theorem Inv.engine_step {w w' : Ner τ} (h : Inv u pretrained w) {a : Act τ EngineArgs ℕ}
    (hcell : Cell.Moves EngineArgs.make w.engine a w'.engine) (hmodel : w'.model = w.model)
    (hpc : ∀ t, t ≠ a.thread → w'.pc t = w.pc t) (hasked : ∀ r ∈ w.asked, r ∈ w'.asked)
    (hcall : ∀ t r, a = .call t r → r ∈ w'.asked) (hat : w'.At a.thread (w'.pc a.thread))
    (hfound : ∀ f ∈ w'.found, f ∈ w.found ∨ Answers u pretrained w' f) :
    Inv u pretrained w' := by
  obtain ⟨hstays, hmodels, hfresh⟩ := h.models_of_engine hcell
  have hall : w.engine.From (· ∈ w'.asked) := h.asked.mono hasked
  exact
    { engine := h.engine.moves hcell
      asked := hall.moves hcell hcall
      sure := hcell.sure (fun _ _ => Option.some_ne_none _) h.sure
      model := fun e he => by
        rw [hmodel]
        exact hmodels e he
      fresh := fun id hid => by
        rw [hmodel]
        exact hfresh id hid
      pcs := h.pcs_of_others (t := a.thread) hstays (fun t hne => hcell.others hne)
        (fun t _ id => by rw [hmodel]) hpc hat
      found := fun f hf => (hfound f hf).elim (fun hf => (h.found f hf).mono hstays) fun hf => hf }

/-- A step in `_ensure_loaded`, or one after it. -/
theorem Inv.model_step {w w' : Ner τ} (h : Inv u pretrained w) {e : NerEngine}
    (he : w.engine.value = some e) {a : Act τ Unit Bool} {c : Cell τ Unit Gliner}
    (hload : Cell.Moves (load pretrained e) (w.model e.id) a c) (hengine : w'.engine = w.engine)
    (hmodel : w'.model = Function.update w.model e.id c) (hasked : w'.asked = w.asked)
    (hpc : ∀ t, t ≠ a.thread → w'.pc t = w.pc t) (hat : w'.At a.thread (w'.pc a.thread))
    (hfound : ∀ f ∈ w'.found, f ∈ w.found ∨ Answers u pretrained w' f) :
    Inv u pretrained w' := by
  obtain ⟨hmodels, hfresh⟩ := h.models_of_model he hload
  have hstays : ∀ e', w.engine.value = some e' → w'.engine.value = some e' := fun e' he' => by
    rw [hengine]
    exact he'
  refine
    { engine := hengine ▸ h.engine
      asked := by
        rw [hengine, hasked]
        exact h.asked
      sure := fun t r => by
        rw [hengine]
        exact h.sure t r
      model := fun e' he' => ?_
      fresh := fun id hid => ?_
      pcs := h.pcs_of_others (t := a.thread) hstays (fun t _ => by rw [hengine])
        (fun t hne id => by rw [hmodel]; exact phase_update hload hne id) hpc hat
      found := fun f hf => (hfound f hf).elim (fun hf => (h.found f hf).mono hstays) fun hf => hf }
  · rw [hengine] at he'
    rw [hmodel]
    exact hmodels e' he'
  · rw [hengine] at hid
    rw [hmodel]
    exact hfresh id hid

section Kept

variable {w : Ner τ} {t : τ} {job : Job}

theorem Inv.of_start {engine : Cell τ EngineArgs NerEngine} (h : Inv u pretrained w)
    (ht : w.pc t = .idle)
    (hstep : w.engine.step EngineArgs.make (.call t job.args) = some engine) :
    Inv u pretrained
      { w with
        engine := engine
        pc := Function.update w.pc t (.asking job)
        asked := w.asked ++ [job.args] } := by
  have hcell := Cell.Moves.of_step hstep
  have hold := h.pcs t
  rw [ht] at hold
  refine h.engine_step hcell rfl (fun t' hne => Function.update_of_ne hne ..)
    (fun r hr => List.mem_append_left _ hr) (fun t' r hr => ?_) ?_ (fun f hf => Or.inl hf)
  · cases hr
    exact List.mem_append_right _ List.mem_cons_self
  · dsimp only [Act.thread]
    rw [Function.update_self]
    exact ⟨hcell.call_arg, hold.2⟩

theorem Inv.of_ask {a : Act τ EngineArgs ℕ} {engine : Cell τ EngineArgs NerEngine}
    (h : Inv u pretrained w) (ht : w.pc a.thread = .asking job) (ha : ¬ a.Calls)
    (hread : ∀ t, a ≠ .read t) (hstep : w.engine.step EngineArgs.make a = some engine) :
    Inv u pretrained { w with engine := engine } := by
  have hcell := Cell.Moves.of_step hstep
  have hold := h.pcs a.thread
  rw [ht] at hold
  refine h.engine_step hcell rfl (fun _ _ => rfl) (fun _ hr => hr) (fun t' r hr => ?_) ?_
    (fun f hf => Or.inl hf)
  · subst hr
    exact absurd trivial ha
  · dsimp only
    rw [ht]
    exact ⟨(hcell.arg_stays ha hread fun r => h.sure _ r).trans hold.1, hold.2⟩

theorem Inv.of_blank {text : Text} {e : NerEngine} {engine : Cell τ EngineArgs NerEngine}
    (h : Inv u pretrained w) (ht : w.pc t = .asking (.detect text))
    (he : w.engine.value = some e) (hblank : Ner.blank u text)
    (hstep : w.engine.step EngineArgs.make (.read t) = some engine) :
    Inv u pretrained ({ w with engine := engine }.leave t [⟨t, text, false, []⟩]) := by
  have hcell := Cell.Moves.of_step hstep
  have hold := h.pcs t
  rw [ht] at hold
  refine h.engine_step hcell rfl (fun t' hne => Function.update_of_ne hne ..) (fun _ hr => hr)
    (fun t' r hr => by cases hr) ?_ (fun f hf => ?_)
  · dsimp only [leave, Act.thread]
    rw [Function.update_self]
    exact ⟨hcell.read_arg, hold.2⟩
  · refine (List.mem_append.mp hf).imp_right fun hf => ?_
    obtain rfl := List.mem_singleton.mp hf
    exact ⟨e, h.engine.value_stays hcell he, (extract_blank _ hblank).symm⟩

theorem Inv.of_enter {e : NerEngine} {engine : Cell τ EngineArgs NerEngine} {c : Cell τ Unit Gliner}
    (h : Inv u pretrained w) (he : w.engine.value = some e)
    (hstep : w.engine.step EngineArgs.make (.read t) = some engine)
    (hcall : (w.model e.id).step (load pretrained e) (.call t ()) = some c) :
    Inv u pretrained
      { w with
        engine := engine
        model := Function.update w.model e.id c
        pc := Function.update w.pc t (.loading job e) } := by
  have hcell := Cell.Moves.of_step hstep
  have hload := Cell.Moves.of_step hcall
  obtain ⟨hstays, -, -⟩ := h.models_of_engine hcell
  obtain ⟨hmodel, hfresh⟩ := h.models_of_model he hload
  have hvalue : engine.value = w.engine.value := (hstays e he).trans he.symm
  refine
    { engine := h.engine.moves hcell
      asked := h.asked.moves hcell fun t' r hr => by cases hr
      sure := hcell.sure (fun _ _ => Option.some_ne_none _) h.sure
      model := fun e' he' => hmodel e' (hvalue ▸ he')
      fresh := fun id hid => hfresh id fun e' he' => hid e' (hstays e' he')
      pcs := h.pcs_of_others (t := t) hstays (fun t' hne => hcell.others hne)
        (fun t' hne id => phase_update hload hne id)
        (fun t' hne => Function.update_of_ne hne ..) ?_
      found := fun f hf => (h.found f hf).mono hstays }
  dsimp only
  rw [Function.update_self]
  refine ⟨hcell.read_arg, hstays e he, ?_⟩
  dsimp only
  rw [Function.update_self]
  exact hload.call_arg

theorem Inv.of_load {a : Act τ Unit Bool} {e : NerEngine} {c : Cell τ Unit Gliner}
    (h : Inv u pretrained w) (ht : w.pc a.thread = .loading job e)
    (hstep : (w.model e.id).step (load pretrained e) a = some c)
    (hstay : (c.phase a.thread).arg ≠ none) :
    Inv u pretrained { w with model := Function.update w.model e.id c } := by
  have hold := h.pcs a.thread
  rw [ht] at hold
  refine h.model_step hold.2.1 (.of_step hstep) rfl rfl rfl (fun _ _ => rfl) ?_
    (fun f hf => Or.inl hf)
  dsimp only
  rw [ht]
  refine ⟨hold.1, hold.2.1, ?_⟩
  dsimp only
  rw [Function.update_self]
  obtain ⟨r, hr⟩ := Option.ne_none_iff_exists'.mp hstay
  exact hr

theorem Inv.of_raise {a : Act τ Unit Bool} {e : NerEngine} {c : Cell τ Unit Gliner}
    (h : Inv u pretrained w) (ht : w.pc a.thread = .loading job e)
    (hstep : (w.model e.id).step (load pretrained e) a = some c)
    (hidle : (c.phase a.thread).arg = none) :
    Inv u pretrained
      { w with
        model := Function.update w.model e.id c
        pc := Function.update w.pc a.thread (.failing job) } := by
  have hold := h.pcs a.thread
  rw [ht] at hold
  refine h.model_step hold.2.1 (.of_step hstep) rfl rfl rfl
    (fun t' hne => Function.update_of_ne hne ..) ?_ (fun f hf => Or.inl hf)
  dsimp only
  rw [Function.update_self]
  exact ⟨hold.1, h.away hold.2.1 hidle, e, hold.2.1⟩

theorem Inv.of_giveUp (h : Inv u pretrained w) (ht : w.pc t = .failing job) :
    Inv u pretrained (w.leave t (job.found t true fun _ => [])) := by
  have hold := h.pcs t
  rw [ht] at hold
  obtain ⟨hidle, haway, e, he⟩ := hold
  refine
    { h with
      pcs := h.pcs_of_others (t := t) (fun _ he => he) (fun _ _ => rfl) (fun _ _ _ => rfl)
        (fun t' hne => Function.update_of_ne hne ..) ?_
      found := fun f hf => ?_ }
  · dsimp only [leave]
    rw [Function.update_self]
    exact ⟨hidle, haway⟩
  · rcases List.mem_append.mp hf with hf | hf
    · exact (h.found f hf).mono fun _ he => he
    · exact answers_found he (fun _ => rfl) f hf

theorem Inv.of_answer {e : NerEngine} {m : Gliner} {c : Cell τ Unit Gliner}
    (h : Inv u pretrained w) (ht : w.pc t = .loading job e) (hm : (w.model e.id).value = some m)
    (hstep : (w.model e.id).step (load pretrained e) (.read t) = some c) :
    Inv u pretrained
      ({ w with model := Function.update w.model e.id c }.leave t
        (job.found t false (m.extract u))) := by
  have hload := Cell.Moves.of_step hstep
  have hold := h.pcs t
  rw [ht] at hold
  refine h.model_step hold.2.1 hload rfl rfl rfl (fun t' hne => Function.update_of_ne hne ..) ?_
    (fun f hf => (List.mem_append.mp hf).imp_right fun hf => ?_)
  · dsimp only [leave, Act.thread]
    rw [Function.update_self]
    exact ⟨hold.1, h.away hold.2.1 hload.read_arg⟩
  · -- What is in `_model` was loaded for the name and threshold of the engine.
    obtain ⟨r, ok, -, hok⟩ := (h.model e hold.2.1).filled m hm
    have hloaded : m = pretrained e.modelName e.threshold := by
      cases ok
      case true => exact (Option.some.inj hok).symm
      case false => cases hok
    exact answers_found hold.2.1 (fun _ => by rw [hloaded]; rfl) f hf

end Kept

theorem Inv.moves {w w' : Ner τ} {a : NerAct τ} (h : Inv u pretrained w)
    (hmoves : Moves u pretrained w a w') : Inv u pretrained w' := by
  cases hmoves with
  | start ht hstep => exact h.of_start ht hstep
  | engine ht ha hread hstep => exact h.of_ask ht ha hread hstep
  | blank ht he hblank hstep => exact h.of_blank ht he hblank hstep
  | enter ht he hstep hcall => exact h.of_enter he hstep hcall
  | model ht ha hstep hstay => exact h.of_load ht hstep hstay
  | raised ht ha hread hstep hidle => exact h.of_raise ht hstep hidle
  | gaveUp ht => exact h.of_giveUp ht
  | answered ht hm hstep => exact h.of_answer ht hm hstep

theorem Inv.of_run {acts : List (NerAct τ)} {w : Ner τ}
    (hrun : Runs.Steps (step u pretrained) Ner.init acts w) : Inv u pretrained w :=
  hrun.invariant (fun _ w => Inv u pretrained w) Inv.init
    fun _ _ _ _ _ h hstep => h.moves (.of_step hstep)

/-- The engine has its model. -/
def Loaded (w : Ner τ) (e : NerEngine) : Prop := (w.model e.id).value.isSome = true

instance (w : Ner τ) (e : NerEngine) : Decidable (w.Loaded e) := inferInstanceAs (Decidable (_ = _))

/-- **What a step finds.** The engine stays, and so does its model. Once the model is there
loading raises no more: what finds nothing then had the exception before. -/
theorem Inv.finds {w w' : Ner τ} {a : NerAct τ} (h : Inv u pretrained w)
    (hmoves : Moves u pretrained w a w') {e : NerEngine} (he : w.engine.value = some e) :
    w'.engine.value = some e ∧ (w.Loaded e → w'.Loaded e) ∧
      (w.Loaded e → ∀ t job, w'.pc t = .failing job → w.pc t = .failing job) ∧
        ∃ found, w'.found = w.found ++ found ∧ found.length ≤ 1 ∧
          ∀ f ∈ found, f.raised = true →
            w.pc f.thread = .failing (.detect f.text) ∧ w'.pc f.thread = .idle := by
  -- A step in `_ensure_loaded` is one of this engine.
  have hload : ∀ {t : τ} {job : Job} {e' : NerEngine} {b : Act τ Unit Bool}
      {c : Cell τ Unit Gliner}, w.pc t = .loading job e' →
      (w.model e'.id).step (load pretrained e') b = some c →
        e' = e ∧ (w.Loaded e → (Function.update w.model e'.id c e.id).value.isSome = true) := by
    intro t job e' b c ht hstep
    have hat := h.pcs t
    rw [ht] at hat
    obtain rfl : e' = e := Option.some.inj (hat.2.1.symm.trans he)
    refine ⟨rfl, fun hloaded => ?_⟩
    obtain ⟨m, hm⟩ := Option.isSome_iff_exists.mp hloaded
    rw [Function.update_self, (h.model e' he).value_stays (.of_step hstep) hm]
    rfl
  have hnone : ∃ found, w.found = w.found ++ found ∧ found.length ≤ 1 ∧
      ∀ f ∈ found, f.raised = true →
        w.pc f.thread = .failing (.detect f.text) ∧ w'.pc f.thread = .idle :=
    ⟨[], (List.append_nil _).symm, Nat.zero_le 1, fun f hf => by cases hf⟩
  -- A thread that goes elsewhere is not failing there.
  have hgoto : ∀ {t : τ} {p : Pc}, (∀ job, p ≠ .failing job) → ∀ t' job,
      Function.update w.pc t p t' = .failing job → w.pc t' = .failing job := by
    intro t p hp t' job ht'
    by_cases htt : t' = t
    · subst htt
      rw [Function.update_self] at ht'
      exact absurd ht' (hp job)
    · rwa [Function.update_of_ne htt] at ht'
  cases hmoves with
  | start ht hstep =>
      exact ⟨h.engine.value_stays (.of_step hstep) he, id, fun _ => hgoto (by simp), hnone⟩
  | engine ht ha hread hstep =>
      exact ⟨h.engine.value_stays (.of_step hstep) he, id, fun _ _ _ => id, hnone⟩
  | blank ht he' hblank hstep =>
      refine ⟨h.engine.value_stays (.of_step hstep) he, id, fun _ => hgoto (by simp), _, rfl,
        le_rfl, fun f hf hraised => ?_⟩
      obtain rfl := List.mem_singleton.mp hf
      cases hraised
  | @enter t job e' engine c ht he' hstep hcall =>
      obtain rfl : e' = e := Option.some.inj (he'.symm.trans he)
      refine ⟨h.engine.value_stays (.of_step hstep) he, fun hloaded => ?_,
        fun _ => hgoto (by simp), hnone⟩
      obtain ⟨m, hm⟩ := Option.isSome_iff_exists.mp hloaded
      dsimp only [Loaded]
      rw [Function.update_self, (h.model e' he).value_stays (.of_step hcall) hm]
      rfl
  | model ht ha hstep hstay =>
      exact ⟨he, (hload ht hstep).2, fun _ _ _ => id, hnone⟩
  | @raised a job e' c ht ha hread hstep hidle =>
      obtain ⟨rfl, hstays⟩ := hload ht hstep
      refine ⟨he, hstays, fun hloaded => ?_, hnone⟩
      have hempty := (h.model e' he).empty_of_raised (.of_step hstep) ha hread hidle
      rw [Loaded, hempty] at hloaded
      cases hloaded
  | @gaveUp t job ht =>
      refine ⟨he, id, fun _ => hgoto (by simp), _, rfl, ?_, fun f hf _ => ?_⟩
      · cases job with
        | preload args => exact Nat.zero_le 1
        | detect text => exact le_rfl
      · cases job with
        | preload args => cases hf
        | detect text =>
            obtain rfl := List.mem_singleton.mp hf
            exact ⟨ht, Function.update_self ..⟩
  | @answered t job e' m c ht hm hstep =>
      refine ⟨he, (hload ht hstep).2, fun _ => hgoto (by simp), _, rfl, ?_, fun f hf hraised => ?_⟩
      · cases job with
        | preload args => exact Nat.zero_le 1
        | detect text => exact le_rfl
      · cases job with
        | preload args => cases hf
        | detect text =>
            obtain rfl := List.mem_singleton.mp hf
            cases hraised

/-- What has been found since `s`, where the model was there: who finds nothing had the
exception at `s`, and finds it once. -/
structure Since (s w : Ner τ) (found : List (Found τ)) : Prop where
  failing : ∀ t job, w.pc t = .failing job → s.pc t = .failing job
  raised : ∀ f ∈ found, f.raised = true →
    s.pc f.thread = .failing (.detect f.text) ∧ ∀ job, w.pc f.thread ≠ .failing job
  once : ((found.filter Found.raised).map Found.thread).Nodup

omit [DecidableEq τ] in
theorem Since.step {s v w : Ner τ} {found new : List (Found τ)} (h : Since s v found)
    (hfailing : ∀ t job, w.pc t = .failing job → v.pc t = .failing job)
    (hlength : new.length ≤ 1)
    (hnew : ∀ f ∈ new, f.raised = true →
      v.pc f.thread = .failing (.detect f.text) ∧ w.pc f.thread = .idle) :
    Since s w (found ++ new) where
  failing t job ht := h.failing t job (hfailing t job ht)
  raised f hf hraised := by
    rcases List.mem_append.mp hf with hf | hf
    · obtain ⟨hs, hv⟩ := h.raised f hf hraised
      exact ⟨hs, fun job hw => hv job (hfailing _ job hw)⟩
    · obtain ⟨hv, hw⟩ := hnew f hf hraised
      exact ⟨h.failing _ _ hv, fun job hno => by rw [hw] at hno; cases hno⟩
  once := by
    rw [List.filter_append, List.map_append]
    refine List.nodup_append.mpr ⟨h.once, ?_, ?_⟩
    · cases new with
      | nil => exact List.nodup_nil
      | cons f new =>
          obtain rfl : new = [] := List.length_eq_zero_iff.mp (by simpa using hlength)
          cases hraised : f.raised <;> simp [List.filter, hraised]
    · rintro t ht t' ht' rfl
      obtain ⟨f, hf, rfl⟩ := List.mem_map.mp ht
      obtain ⟨g, hg, heq⟩ := List.mem_map.mp ht'
      obtain ⟨hf, hfraised⟩ := List.mem_filter.mp hf
      obtain ⟨hg, hgraised⟩ := List.mem_filter.mp hg
      exact (h.raised f hf hfraised).2 _ (heq ▸ (hnew g hg hgraised).1)

end Inv

/-- **All detect as one model does.** In every run of threads that detect and preload, whatever
loading raises: one engine is made at most, with the arguments of one of the calls, and one
model is loaded, for no other object than this engine. What a call finds is what the model of
that engine finds in its text, or nothing, if loading raised in the call itself. Once the
model is there loading raises no more: the calls that return nothing after that had the
exception before, and each returns once. -/
theorem detects_as_one (u : Unicode) (pretrained : String → ℚ → Gliner)
    {before after : List (NerAct τ)} {s w : Ner τ}
    (hbefore : Runs.Steps (step u pretrained) init before s)
    (hafter : Runs.Steps (step u pretrained) s after w) :
    (∀ f ∈ w.found, ∃ e, w.engine.value = some e ∧
        f.spans = if f.raised then [] else (pretrained e.modelName e.threshold).extract u f.text) ∧
      (∀ e, w.engine.value = some e → ∃ args ∈ w.asked, args.make e.id = some e) ∧
      w.engine.built.length ≤ 1 ∧
      (∀ id, (w.model id).built.length ≤ 1 ∧
        ((w.model id).built ≠ [] → ∃ e, w.engine.value = some e ∧ e.id = id)) ∧
      ∀ e, s.engine.value = some e → w.engine.value = some e ∧
        (s.Loaded e →
          (∀ f ∈ w.found.drop s.found.length, f.raised = true →
            s.pc f.thread = .failing (.detect f.text)) ∧
          (((w.found.drop s.found.length).filter Found.raised).map Found.thread).Nodup) := by
  have hinv : Inv u pretrained w := .of_run (hbefore.append hafter)
  refine ⟨hinv.found, fun e he => ?_, hinv.engine.built_le_one, fun id => ?_, fun e he => ?_⟩
  · obtain ⟨args, id, hbuilt, hmake⟩ := hinv.engine.filled e he
    have hasked : args ∈ w.asked := hinv.asked.built (args, e) (by rw [hbuilt]; simp)
    refine ⟨args, hasked, ?_⟩
    cases hmake
    rfl
  · by_cases hid : ∃ e, w.engine.value = some e ∧ e.id = id
    · refine ⟨?_, fun _ => hid⟩
      obtain ⟨e, he, rfl⟩ := hid
      exact (hinv.model e he).built_le_one
    · rw [hinv.fresh id fun e he heq => hid ⟨e, he, heq⟩]
      exact ⟨Nat.zero_le 1, fun hne => absurd rfl hne⟩
  · have hsince : (Inv u pretrained w ∧ w.engine.value = some e ∧ (s.Loaded e → w.Loaded e)) ∧
        ∃ found, w.found = s.found ++ found ∧ (s.Loaded e → Since s w found) := by
      refine hafter.invariant (fun _ w =>
        (Inv u pretrained w ∧ w.engine.value = some e ∧ (s.Loaded e → w.Loaded e)) ∧
          ∃ found, w.found = s.found ++ found ∧ (s.Loaded e → Since s w found))
        ⟨⟨.of_run hbefore, he, id⟩, [], (List.append_nil _).symm, fun _ =>
          ⟨fun _ _ => id, fun f hf => (by cases hf), List.nodup_nil⟩⟩ ?_
      rintro _ t a t' _ ⟨⟨h, het, hloaded⟩, found, hfound, hsince⟩ hstep
      obtain ⟨het', hloaded', hfailing, new, hnew, hlength, hraised⟩ := h.finds (.of_step hstep) het
      refine ⟨⟨h.moves (.of_step hstep), het', hloaded' ∘ hloaded⟩, found ++ new, ?_, ?_⟩
      · rw [hnew, hfound, List.append_assoc]
      · intro hs
        exact (hsince hs).step (hfailing (hloaded hs)) hlength hraised
    obtain ⟨⟨-, hew, -⟩, found, hfound, hsince⟩ := hsince
    refine ⟨hew, fun hs => ?_⟩
    rw [hfound, List.drop_left]
    exact ⟨fun f hf hraised => ((hsince hs).raised f hf hraised).1, (hsince hs).once⟩

/-- A model that takes a text for a name. -/
def nameModel : Gliner where
  predict text := if 0 < text.length then some [⟨"사람 이름", text, 0, text.length, 9 / 10⟩] else none
  predict_sound text ents h e he := by
    split at h
    · cases h
      obtain rfl := List.mem_singleton.mp he
      exact ⟨‹_›, le_rfl, by simp [Splice.slice]⟩
    · cases h

/-- A thread gets the engine that is there. -/
def gets (t : Bool) : List (NerAct Bool) := [.engine (.look t), .engine (.read t)]

/-- `main` preloads while another thread detects. That one loads first, which raises; then
`main` loads. -/
def crossing : List (NerAct Bool) :=
  [.start true (.preload ⟨some "m", some (1 / 2)⟩), .start false (.detect ['a', 'b']),
    .engine (.look true), .engine (.look false), .engine (.acquire true),
    .engine (.lookAgain true), .engine (.build true 7), .engine (.release true),
    .engine (.acquire false), .engine (.lookAgain false), .engine (.release false),
    .engine (.read false), .engine (.read true), .model (.look false), .model (.look true),
    .model (.acquire false), .model (.lookAgain false), .model (.build false false),
    .model (.release false)]

def loads : List (NerAct Bool) :=
  [.model (.acquire true), .model (.lookAgain true), .model (.build true true),
    .model (.release true), .model (.read true)]

/-- Where a schedule leads. -/
def reached (acts : List (NerAct Bool)) (w : Ner Bool) : Ner Bool :=
  (Runs.exec (step .ascii fun _ _ => nameModel) w acts).getD w

theorem steps_reached (acts : List (NerAct Bool)) (w : Ner Bool)
    (h : (Runs.exec (step .ascii fun _ _ => nameModel) w acts).isSome = true) :
    Runs.Steps (step .ascii fun _ _ => nameModel) w acts (reached acts w) := by
  obtain ⟨w', hw'⟩ := Option.isSome_iff_exists.mp h
  rw [reached, hw']
  exact Runs.Steps.of_exec hw'

/-- The engine is that of `main`. The other call, which still has the exception when the model
is there, finds nothing, and its next one finds the name. -/
theorem detects_as_one_crossing :
    let s := reached (crossing ++ loads) Ner.init
    let w := reached (.giveUp false :: .start false (.detect ['a', 'b']) :: gets false ++
      [.model (.look false), .model (.read false)]) s
    w.engine.value = some ⟨7, "m", 1 / 2⟩ ∧
      w.found.map (fun f => (f.raised, f.spans.map Span.value)) =
        [(true, []), (false, [['a', 'b']])] ∧
      ∀ f ∈ w.found.drop s.found.length, f.raised = true →
        s.pc f.thread = .failing (.detect f.text) := by
  intro s w
  have hbefore := steps_reached (crossing ++ loads) Ner.init (by decide +kernel)
  have hafter : Runs.Steps (step .ascii fun _ _ => nameModel) s _ w :=
    steps_reached _ s (by decide +kernel)
  refine ⟨by decide +kernel, by decide +kernel, ?_⟩
  have hengine : s.engine.value = some ⟨7, "m", 1 / 2⟩ := by decide +kernel
  exact (((detects_as_one .ascii _ hbefore hafter).2.2.2.2 _ hengine).2 (by decide +kernel)).1

/-! ## Calls return -/

section Work

variable {u : Unicode} {pretrained : String → ℚ → Gliner} {w w' : Ner τ} {a : NerAct τ}

omit [DecidableEq τ] in
/-- How many steps of its call are left to a thread, at most. -/
def work (w : Ner τ) (t : τ) : ℕ :=
  match w.pc t with
  | .idle => 0
  | .asking _ => 7 + (w.engine.phase t).work
  | .loading _ e => ((w.model e.id).phase t).work
  | .failing _ => 1

/-- Nothing changes for the other threads. -/
theorem Moves.others (hmoves : Moves u pretrained w a w') {t : τ} (ht : t ≠ a.thread) :
    w'.pc t = w.pc t ∧ w'.work t = w.work t := by
  have hsame : ∀ {w'' : Ner τ}, w''.pc t = w.pc t → w''.engine.phase t = w.engine.phase t →
      (∀ id, (w''.model id).phase t = (w.model id).phase t) →
        w''.pc t = w.pc t ∧ w''.work t = w.work t := by
    intro w'' hpc hengine hmodel
    refine ⟨hpc, ?_⟩
    unfold work
    rw [hpc]
    cases w.pc t
    case idle => rfl
    case asking job => exact congrArg (7 + ·.work) hengine
    case loading job e => exact congrArg Phase.work (hmodel e.id)
    case failing job => rfl
  cases hmoves with
  | start ht' hstep =>
      exact hsame (Function.update_of_ne ht ..) ((Cell.Moves.of_step hstep).others ht) fun _ => rfl
  | engine ht' ha hread hstep =>
      exact hsame rfl ((Cell.Moves.of_step hstep).others ht) fun _ => rfl
  | blank ht' he hblank hstep =>
      exact hsame (Function.update_of_ne ht ..) ((Cell.Moves.of_step hstep).others ht) fun _ => rfl
  | enter ht' he hstep hcall =>
      exact hsame (Function.update_of_ne ht ..) ((Cell.Moves.of_step hstep).others ht)
        (phase_update (.of_step hcall) ht)
  | model ht' ha hstep hstay =>
      exact hsame rfl rfl (phase_update (.of_step hstep) ht)
  | raised ht' ha hread hstep hidle =>
      exact hsame (Function.update_of_ne ht ..) rfl (phase_update (.of_step hstep) ht)
  | gaveUp ht' => exact hsame (Function.update_of_ne ht ..) rfl fun _ => rfl
  | answered ht' hm hstep =>
      exact hsame (Function.update_of_ne ht ..) rfl (phase_update (.of_step hstep) ht)

/-- A step of a call is one less to go. -/
theorem Moves.work_lt (hmoves : Moves u pretrained w a w') (ha : ¬ a.Starts) :
    w'.work a.thread < w.work a.thread := by
  cases hmoves with
  | start ht hstep => exact absurd trivial ha
  | @engine a job engine ht hcalls hread hstep =>
      have hlt := (Cell.Moves.of_step hstep).work_lt hcalls
      simp only [work, NerAct.thread, ht]
      omega
  | blank ht he hblank hstep =>
      simp only [work, NerAct.thread, Act.thread, leave, ht, Function.update_self]
      omega
  | enter ht he hstep hcall =>
      have hcalled := (Cell.Moves.of_step hcall).call_work
      simp only [work, NerAct.thread, Act.thread, ht, Function.update_self, hcalled]
      omega
  | @model a job e c ht hcalls hstep hstay =>
      have hlt := (Cell.Moves.of_step hstep).work_lt hcalls
      simpa only [work, NerAct.thread, ht, Function.update_self] using hlt
  | @raised a job e c ht hcalls hread hstep hidle =>
      simp only [work, NerAct.thread, ht, Function.update_self]
      exact (Cell.Moves.of_step hstep).work_of_raised hcalls hread hidle
  | gaveUp ht =>
      simp only [work, NerAct.thread, leave, ht, Function.update_self]
      exact Nat.one_pos
  | @answered t job e m c ht hm hstep =>
      have hlt := (Cell.Moves.of_step hstep).work_lt id
      simp only [work, NerAct.thread, Act.thread, leave, ht, Function.update_self]
      exact Nat.zero_lt_of_lt hlt

/-- Who is nowhere can call. -/
theorem step_call_of_idle {ρ α β : Type*} {make : ρ → β → Option α} {c : Cell τ ρ α} {t : τ}
    (r : ρ) (ht : (c.phase t).arg = none) : (c.step make (.call t r)).isSome := by
  cases hp : c.phase t <;> rw [hp] at ht
  case idle => simp [Cell.step, hp]
  all_goals cases ht

/-- A thread in `get_ner_engine` can go on. -/
theorem Inv.step_engine (h : Inv u pretrained w) {b : Act τ EngineArgs ℕ} (hb : ¬ b.Calls)
    (harg : (w.engine.phase b.thread).arg.isSome)
    (hstep : (w.engine.step EngineArgs.make b).isSome) :
    (w.step u pretrained (.engine b)).isSome := by
  obtain ⟨engine, hengine⟩ := Option.isSome_iff_exists.mp hstep
  have hat := h.pcs b.thread
  cases hp : w.pc b.thread <;> rw [hp] at hat
  case idle =>
    rw [hat.1] at harg
    cases harg
  case loading job e =>
    rw [hat.1] at harg
    cases harg
  case failing job =>
    rw [hat.1] at harg
    cases harg
  case asking job =>
    cases b
    case call t r => exact absurd trivial hb
    case read t =>
      have hread : ∃ r, w.engine.phase t = .reading r := by
        cases Cell.Moves.of_step hengine with
        | read ht => exact ⟨_, ht⟩
      obtain ⟨r, hr⟩ := hread
      have hvalue := h.engine.stands t
      rw [hr] at hvalue
      obtain ⟨e, he⟩ := Option.isSome_iff_exists.mp hvalue
      have henter : ∀ job, ({ w with engine := engine }.enter pretrained t job e).isSome := by
        intro job
        rw [enter, Option.isSome_map]
        exact step_call_of_idle () (hat.2 e.id)
      dsimp only [Act.thread] at hp
      simp only [step, hp, he, hengine, Option.bind_some]
      cases job with
      | preload args => exact henter _
      | detect text =>
          rw [arrive]
          split
          · rfl
          · exact henter _
    all_goals
      dsimp only [Act.thread] at hp
      simp [step, Act.thread, hp, hengine]

/-- A thread in `_ensure_loaded` can go on. -/
theorem Inv.step_model (h : Inv u pretrained w) {e : NerEngine} (he : w.engine.value = some e)
    {b : Act τ Unit Bool} (hb : ¬ b.Calls) (harg : ((w.model e.id).phase b.thread).arg.isSome)
    (hstep : ((w.model e.id).step (load pretrained e) b).isSome) :
    (w.step u pretrained (.model b)).isSome := by
  obtain ⟨c, hc⟩ := Option.isSome_iff_exists.mp hstep
  have hat := h.pcs b.thread
  cases hp : w.pc b.thread <;> rw [hp] at hat
  case idle =>
    rw [hat.2 e.id] at harg
    cases harg
  case asking job =>
    rw [hat.2 e.id] at harg
    cases harg
  case failing job =>
    rw [hat.2.1 e.id] at harg
    cases harg
  case loading job e' =>
    obtain rfl : e' = e := Option.some.inj (hat.2.1.symm.trans he)
    cases b
    case call t r => exact absurd trivial hb
    case read t =>
      have hread : ∃ r, (w.model e'.id).phase t = .reading r := by
        cases Cell.Moves.of_step hc with
        | read ht => exact ⟨_, ht⟩
      obtain ⟨r, hr⟩ := hread
      have hvalue := (h.model e' he).stands t
      rw [hr] at hvalue
      obtain ⟨m, hm⟩ := Option.isSome_iff_exists.mp hvalue
      dsimp only [Act.thread] at hp
      simp [step, hp, hm, hc]
    all_goals
      dsimp only [Act.thread] at hp
      simp [step, Act.thread, hp, hc]

/-- While a call is under way, a step of a call can be taken. -/
theorem Inv.live (h : Inv u pretrained w) {t : τ} (ht : w.pc t ≠ .idle) :
    ∃ a : NerAct τ, ¬ a.Starts ∧ (w.step u pretrained a).isSome := by
  have hat := h.pcs t
  cases hp : w.pc t <;> rw [hp] at hat
  case idle => exact absurd hp ht
  case asking job =>
    obtain ⟨b, hb, harg, hstep⟩ := h.engine.live 0 (t := t) (by rw [hat.1]; rfl)
    exact ⟨.engine b, id, h.step_engine hb harg hstep⟩
  case loading job e =>
    obtain ⟨b, hb, harg, hstep⟩ := (h.model e hat.2.1).live true (t := t) (by rw [hat.2.2]; rfl)
    exact ⟨.model b, id, h.step_model hat.2.1 hb harg hstep⟩
  case failing job => exact ⟨.giveUp t, id, by simp [step, hp]⟩

omit [DecidableEq τ] in
theorem work_le (w : Ner τ) (t : τ) : w.work t ≤ 13 := by
  unfold work
  cases w.pc t with
  | idle => exact Nat.zero_le 13
  | asking job => exact Nat.add_le_add_left (Phase.work_le _) 7
  | loading job e => exact (Phase.work_le _).trans (by decide)
  | failing job => exact Nat.le_add_left 1 12

/-- **All calls return.** As long as a thread is in a call, some thread in a call can take a
step; and when no more calls are made, the calls of the threads of `S` are over after 13
steps for each of them, at most. -/
theorem calls_return (u : Unicode) (pretrained : String → ℚ → Gliner) {before : List (NerAct τ)}
    {s : Ner τ} (hbefore : Runs.Steps (step u pretrained) Ner.init before s) :
    (∀ t, s.pc t ≠ .idle → ∃ a : NerAct τ, ¬ a.Starts ∧ (s.step u pretrained a).isSome) ∧
      ∀ (S : Finset τ) (after : List (NerAct τ)) (w : Ner τ), (∀ t, t ∉ S → s.pc t = .idle) →
        (∀ a ∈ after, ¬ a.Starts) → Runs.Steps (step u pretrained) s after w →
          after.length ≤ 13 * S.card := by
  have hinv : Inv u pretrained s := .of_run hbefore
  refine ⟨fun t ht => hinv.live ht, fun S after w hS hafter hrun => ?_⟩
  have hlength : after.length + ∑ t ∈ S, w.work t ≤ ∑ t ∈ S, s.work t := by
    refine (Runs.Steps.length_le (fun w : Ner τ => ∀ t, t ∉ S → w.pc t = .idle)
      (fun a => ¬ a.Starts) (fun w => ∑ t ∈ S, w.work t) hS ?_ hrun hafter).2
    intro v a v' ha hidle hstep
    have hmoves : Moves u pretrained v a v' := .of_step hstep
    have hlt := hmoves.work_lt ha
    have hmem : a.thread ∈ S := by
      by_contra hnot
      have hzero : v.work a.thread = 0 := by rw [work, hidle _ hnot]
      exact absurd (hzero ▸ hlt) (Nat.not_lt_zero _)
    constructor
    · intro t ht
      have hne : t ≠ a.thread := by
        rintro rfl
        exact ht hmem
      rw [(hmoves.others hne).1]
      exact hidle t ht
    · apply Finset.sum_lt_sum
      · intro t ht
        by_cases heq : t = a.thread
        · exact heq ▸ hlt.le
        · exact (hmoves.others heq).2.le
      · exact ⟨a.thread, hmem, hlt⟩
  have hbound : ∑ t ∈ S, s.work t ≤ 13 * S.card := by
    rw [mul_comm, ← smul_eq_mul]
    exact Finset.sum_le_card_nsmul S _ 13 fun t _ => s.work_le t
  omega

end Work

/-- After the exception both are still in their calls, and `main` loads before the other one
returns. -/
theorem calls_return_crossing :
    (∃ a : NerAct Bool, ¬ a.Starts ∧
      ((reached crossing Ner.init).step .ascii (fun _ _ => nameModel) a).isSome) ∧
        (loads ++ [NerAct.giveUp false]).length ≤ 13 * ({true, false} : Finset Bool).card := by
  have hbefore := steps_reached crossing Ner.init (by decide +kernel)
  have hafter := steps_reached (loads ++ [NerAct.giveUp false]) (reached crossing Ner.init)
    (by decide +kernel)
  obtain ⟨hlive, hbound⟩ := calls_return .ascii _ hbefore
  refine ⟨hlive true (by decide +kernel), hbound {true, false} _ _ ?_ ?_ hafter⟩
  · decide +kernel
  · simp [loads, NerAct.Starts]

end Ner

end DlpServer.Detect
