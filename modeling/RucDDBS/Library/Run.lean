import Mathlib.Logic.Relation

/-!
Finite runs of a labelled step relation. A system is given by the relation
alone; nothing here knows what a state or a label is. Two rules carry the
developments that use this module: an invariant of the step relation is an
invariant of every run, and a property that one step makes stable holds in all
later states.
-/

namespace Lts

variable {σ ι : Type*}

/-- `Run Step s trace t`: the labels of `trace`, taken in order, lead from `s`
to `t`. -/
inductive Run (Step : σ → ι → σ → Prop) : σ → List ι → σ → Prop
  | nil (s : σ) : Run Step s [] s
  | cons {s t u : σ} {a : ι} {trace : List ι} :
      Step s a t → Run Step t trace u → Run Step s (a :: trace) u

variable {Step : σ → ι → σ → Prop} {s t u : σ}

theorem Run.single {a : ι} (h : Step s a t) : Run Step s [a] t :=
  .cons h (.nil t)

theorem Run.append {first second : List ι} (h : Run Step s first t)
    (k : Run Step t second u) : Run Step s (first ++ second) u := by
  induction h with
  | nil _ => exact k
  | cons step _ ih => exact .cons step (ih k)

theorem Run.split {first second : List ι} (h : Run Step s (first ++ second) u) :
    ∃ t, Run Step s first t ∧ Run Step t second u := by
  induction first generalizing s with
  | nil => exact ⟨s, .nil s, h⟩
  | cons a rest ih =>
      cases h with
      | cons step hrest =>
          obtain ⟨t, hfirst, hsecond⟩ := ih hrest
          exact ⟨t, .cons step hfirst, hsecond⟩

/-- What every step preserves, every run preserves. -/
theorem Run.preserves (Inv : σ → Prop)
    (hstep : ∀ s a t, Step s a t → Inv s → Inv t)
    {trace : List ι} (h : Run Step s trace t) (hs : Inv s) : Inv t := by
  induction h with
  | nil _ => exact hs
  | cons step _ ih => exact ih (hstep _ _ _ step hs)

/-- What every label of a run satisfies may be taken for a condition of its steps. -/
theorem Run.with_labels (Ok : ι → Prop) {trace : List ι} (h : Run Step s trace t)
    (hok : ∀ a ∈ trace, Ok a) : Run (fun s a t => Ok a ∧ Step s a t) s trace t := by
  induction h with
  | nil s => exact .nil s
  | cons step _ ih =>
      have hrest := ih fun b hb => hok b (by simp [hb])
      exact .cons ⟨hok _ (by simp), step⟩ hrest

/-- The same rule when the step lemma also needs a fact about the label, which
then has to hold of every label of the run. -/
theorem Run.preserves_labels (Inv : σ → Prop) (Ok : ι → Prop)
    (hstep : ∀ s a t, Step s a t → Ok a → Inv s → Inv t)
    {trace : List ι} (h : Run Step s trace t)
    (hok : ∀ a ∈ trace, Ok a) (hs : Inv s) : Inv t := by
  apply (h.with_labels Ok hok).preserves Inv _ hs
  rintro s a t ⟨ha, step⟩
  exact hstep s a t step ha

/-- The rule for invariants that also speak about the labels taken so far. -/
theorem Run.preserves_past (Inv : List ι → σ → Prop)
    (hstep : ∀ past s a t, Step s a t → Inv past s → Inv (past ++ [a]) t)
    {trace : List ι} (h : Run Step s trace t) (hs : Inv [] s) : Inv trace t := by
  have hfrom (past : List ι) (hpast : Inv past s) : Inv (past ++ trace) t := by
    clear hs
    induction h generalizing past with
    | nil _ => simpa using hpast
    | @cons _ _ _ a rest step _ ih =>
        have hnext := ih (past ++ [a]) (hstep _ _ _ _ step hpast)
        simpa using hnext
  simpa using hfrom [] hs

/-- Forgetting side conditions of a step relation keeps its runs. -/
theorem Run.mono {Step' : σ → ι → σ → Prop}
    (himp : ∀ s a t, Step s a t → Step' s a t)
    {trace : List ι} (h : Run Step s trace t) : Run Step' s trace t := by
  induction h with
  | nil s => exact .nil s
  | cons step _ ih => exact .cons (himp _ _ _ step) ih

/-- Under an invariant, the steps of a run may be replaced one by one. -/
theorem Run.replace {Step' : σ → ι → σ → Prop} (Inv : σ → Prop)
    (hstep : ∀ s a t, Inv s → Step s a t → Step' s a t ∧ Inv t)
    {trace : List ι} (h : Run Step s trace t) (hs : Inv s) : Run Step' s trace t := by
  induction h with
  | nil s => exact .nil s
  | cons step _ ih =>
      obtain ⟨step', hnext⟩ := hstep _ _ _ hs step
      exact .cons step' (ih hnext)

/-- A property that stays broken once it is broken holds at the end of a run
exactly if every step met the condition under which it keeps the property. -/
theorem Run.holds_iff (Inv Good : List ι → σ → Prop) (Ok : σ → ι → Prop)
    (hinv : ∀ past s a t, Step s a t → Inv past s → Inv (past ++ [a]) t)
    (hgood : ∀ past s a t, Step s a t → Inv past s → Good past s →
      (Good (past ++ [a]) t ↔ Ok s a))
    (hbad : ∀ past s a t, Step s a t → Inv past s → Good (past ++ [a]) t → Good past s)
    {trace : List ι} (h : Run Step s trace t) (hs : Inv [] s) (hstart : Good [] s) :
    Good trace t ↔ Run (fun s a t => Ok s a ∧ Step s a t) s trace t := by
  constructor
  · -- from the end backwards every state has the property, so every step keeps it
    intro hend
    have hfrom (past : List ι) (hpast : Inv past s) (hlast : Good (past ++ trace) t) :
        Good past s ∧ Run (fun s a t => Ok s a ∧ Step s a t) s trace t := by
      clear hs hstart hend
      induction h generalizing past with
      | nil s => exact ⟨by simpa using hlast, .nil s⟩
      | @cons s _ _ a rest step _ ih =>
          obtain ⟨hmid, hrest⟩ := ih (past ++ [a]) (hinv _ _ _ _ step hpast) (by simpa using hlast)
          have hbefore := hbad _ _ _ _ step hpast hmid
          exact ⟨hbefore, .cons ⟨(hgood _ _ _ _ step hpast hbefore).mp hmid, step⟩ hrest⟩
    exact (hfrom [] hs (by simpa using hend)).2
  · intro hrun
    have hboth := hrun.preserves_past (fun past s => Inv past s ∧ Good past s) (by
      rintro past s a t ⟨hok, step⟩ ⟨hpast, hkept⟩
      exact ⟨hinv _ _ _ _ step hpast, (hgood _ _ _ _ step hpast hkept).mpr hok⟩) ⟨hs, hstart⟩
    exact hboth.2

/-- If, under an invariant, the label of a step tells whether its side condition
was met, then the labels of a run tell whether all side conditions were. -/
theorem Run.labels_iff (Inv : σ → Prop) (Good : ι → Prop) (Ok : σ → ι → Prop)
    (hstep : ∀ s a t, Step s a t → Inv s → Inv t)
    (hgood : ∀ s a t, Inv s → Step s a t → (Ok s a ↔ Good a))
    {trace : List ι} (h : Run Step s trace t) (hs : Inv s) :
    (∀ a ∈ trace, Good a) ↔ Run (fun s a t => Ok s a ∧ Step s a t) s trace t := by
  apply h.holds_iff (fun _ s => Inv s) (fun past _ => ∀ a ∈ past, Good a) Ok
    (fun _ s a t => hstep s a t) ?_ ?_ hs (by simp)
  · intro past s a t step hs hpast
    rw [hgood s a t hs step]
    constructor
    · intro hall
      exact hall a (by simp)
    · intro ha b hb
      rcases List.mem_append.mp hb with hold | hnew
      · exact hpast b hold
      · rw [List.mem_singleton.mp hnew]
        exact ha
  · intro past s a t _ _ hall b hb
    exact hall b (by simp [hb])

section Executable

variable {α ε : Type*}

/-- The step relation of a partial step function: the label records the action
taken and the event it produced. -/
def Steps (step : σ → α → Option (σ × ε)) (s : σ) (label : α × ε) (t : σ) : Prop :=
  step s label.1 = some (t, label.2)

/-- Run a list of actions; `none` as soon as one of them is not enabled. -/
def exec (step : σ → α → Option (σ × ε)) : σ → List α → Option (σ × List ε)
  | s, [] => some (s, [])
  | s, a :: rest => do
      let (t, e) ← step s a
      let (u, es) ← exec step t rest
      pure (u, e :: es)

/-- A successful execution is a run, labelled by its actions and events. -/
theorem run_of_exec {step : σ → α → Option (σ × ε)} (actions : List α)
    (events : List ε) (h : exec step s actions = some (t, events)) :
    Run (Steps step) s (actions.zip events) t := by
  induction actions generalizing s events with
  | nil =>
      simp only [exec, Option.some.injEq, Prod.mk.injEq] at h
      obtain ⟨rfl, rfl⟩ := h
      exact .nil _
  | cons a rest ih =>
      simp only [exec, Option.bind_eq_bind, Option.bind_eq_some_iff, Option.pure_def,
        Option.some.injEq, Prod.mk.injEq, Prod.exists] at h
      obtain ⟨mid, e, hstep, last, es, hrest, rfl, rfl⟩ := h
      exact .cons hstep (ih _ hrest)

/-- The same when only the events are computed. -/
theorem run_of_exec_events {step : σ → α → Option (σ × ε)} (trace : List (α × ε))
    (h : (exec step s (trace.map Prod.fst)).map Prod.snd = some (trace.map Prod.snd)) :
    ∃ t, Run (Steps step) s trace t := by
  obtain ⟨⟨t, events⟩, hexec, rfl⟩ := Option.map_eq_some_iff.mp h
  have hrun := run_of_exec _ _ hexec
  rw [← List.unzip_fst, ← List.unzip_snd, List.zip_unzip] at hrun
  exact ⟨t, hrun⟩

/-- An execution that stops at the first action that is not allowed is a run of
the step relation with that side condition. Only a view of the last state is
computed. -/
theorem run_of_exec_view {step : σ → α → Option (σ × ε)} {Ok : σ → α → Prop}
    [∀ s a, Decidable (Ok s a)] {β : Type*} (view : σ → β) {v : β} (trace : List (α × ε))
    (h : (exec (fun s a => if Ok s a then step s a else none) s (trace.map Prod.fst)).map
      (fun last => (last.2, view last.1)) = some (trace.map Prod.snd, v)) :
    ∃ t, Run (fun s label t => Ok s label.1 ∧ Steps step s label t) s trace t ∧ view t = v := by
  obtain ⟨⟨t, events⟩, hexec, hlast⟩ := Option.map_eq_some_iff.mp h
  simp only [Prod.mk.injEq] at hlast
  obtain ⟨rfl, hview⟩ := hlast
  have hrun := run_of_exec _ _ hexec
  rw [← List.unzip_fst, ← List.unzip_snd, List.zip_unzip] at hrun
  refine ⟨t, hrun.mono ?_, hview⟩
  intro s label t hstep
  simp only [Steps] at hstep
  split at hstep
  case isTrue hok => exact ⟨hok, hstep⟩
  case isFalse => cases hstep

/-- The same when nothing of the last state is computed. -/
theorem run_of_exec_when {step : σ → α → Option (σ × ε)} {Ok : σ → α → Prop}
    [∀ s a, Decidable (Ok s a)] (trace : List (α × ε))
    (h : (exec (fun s a => if Ok s a then step s a else none) s (trace.map Prod.fst)).map
      Prod.snd = some (trace.map Prod.snd)) :
    ∃ t, Run (fun s label t => Ok s label.1 ∧ Steps step s label t) s trace t := by
  obtain ⟨last, hexec, hevents⟩ := Option.map_eq_some_iff.mp h
  obtain ⟨t, hrun, _⟩ := run_of_exec_view (fun _ => ()) trace (by rw [hexec, ← hevents]; rfl)
  exact ⟨t, hrun⟩

/-- A step function that does from related states what is asked for, and puts out what the
answer looks like, executes whatever a run asks for. -/
theorem exec_of_run {τ η : Type*} {step : σ → α → Option (σ × ε)} {Ask : τ → α → τ → Prop}
    {Answer : τ → α → η → Prop} {out : η → ε} (R : σ → τ → Prop)
    (hstep : ∀ s t a t', R s t → Ask t a t' →
      ∃ s' answer, step s a = some (s', out answer) ∧ Answer t a answer ∧ R s' t')
    {t t' : τ} {actions : List α} (hrun : Run Ask t actions t') (h : R s t) :
    ∃ s' answered, exec step s actions = some (s', answered.map fun x => out x.2) ∧
      answered.map Prod.fst = actions ∧
      Run (fun t x t' => Ask t x.1 t' ∧ Answer t x.1 x.2) t answered t' ∧ R s' t' := by
  induction hrun generalizing s with
  | nil t => exact ⟨s, [], rfl, rfl, .nil t, h⟩
  | cons hask _ ih =>
      obtain ⟨mid, answer, hfirst, hanswer, hmid⟩ := hstep _ _ _ _ h hask
      obtain ⟨s', answered, hexec, hactions, hrest, hlast⟩ := ih hmid
      refine ⟨s', (_, answer) :: answered, ?_, ?_, .cons ⟨hask, hanswer⟩ hrest, hlast⟩
      · simp [exec, hfirst, hexec]
      · rw [List.map_cons, hactions]

/-- The same for a step function that is stuck at some of the actions. -/
theorem exec_iff_of_run {τ η : Type*} {step : σ → α → Option (σ × ε)} {Ask : τ → α → τ → Prop}
    {Answer : τ → α → η → Prop} {out : η → ε} (R : σ → τ → Prop) (Ok : α → Prop)
    (hstep : ∀ s t a t', R s t → Ask t a t' → Ok a →
      ∃ s' answer, step s a = some (s', out answer) ∧ Answer t a answer ∧ R s' t')
    (hstuck : ∀ s t a t', R s t → Ask t a t' → ¬ Ok a → step s a = none)
    {t t' : τ} {actions : List α} (hrun : Run Ask t actions t') (h : R s t) :
    (∃ s' answered, exec step s actions = some (s', answered.map fun x => out x.2) ∧
        answered.map Prod.fst = actions ∧
        Run (fun t x t' => Ask t x.1 t' ∧ Answer t x.1 x.2) t answered t' ∧ R s' t') ↔
      ∀ a ∈ actions, Ok a := by
  constructor
  · rintro ⟨s', answered, hexec, -, -, -⟩
    generalize (answered.map fun x => out x.2) = events at hexec
    induction hrun generalizing s events with
    | nil t => simp
    | @cons t mid last a rest hask _ ih =>
        obtain ⟨⟨next, e⟩, hfirst, hexec⟩ := Option.bind_eq_some_iff.mp hexec
        obtain ⟨⟨_, es⟩, hrest, hlast⟩ := Option.bind_eq_some_iff.mp hexec
        cases hlast
        by_cases hok : Ok a
        · obtain ⟨s₁, answer, hs₁, _, hmid⟩ := hstep s t a mid h hask hok
          rw [hs₁] at hfirst
          cases hfirst
          intro b hb
          rcases List.mem_cons.mp hb with rfl | hb
          · exact hok
          · exact ih hmid es hrest b hb
        · rw [hstuck s t a mid h hask hok] at hfirst
          cases hfirst
  · intro hall
    have hchecked (s : σ) (t : τ) (a : α) (t' : τ) (hrel : R s t) (hask : Ok a ∧ Ask t a t') :
        ∃ s' answer, step s a = some (s', out answer) ∧ Answer t a answer ∧ R s' t' :=
      hstep s t a t' hrel hask.2 hask.1
    obtain ⟨s', answered, hexec, hactions, hanswered, hlast⟩ :=
      exec_of_run R hchecked (hrun.with_labels Ok hall) h
    refine ⟨s', answered, hexec, hactions, hanswered.mono ?_, hlast⟩
    rintro t x t' ⟨⟨_, hask⟩, hanswer⟩
    exact ⟨hask, hanswer⟩

/-- Two executions that stay related step by step, with the same events. -/
theorem exec_of_simulation {τ : Type*} {step : σ → α → Option (σ × ε)}
    {step' : τ → α → Option (τ × ε)} (R : σ → τ → Prop)
    (hstep : ∀ s t a, R s t →
      ∃ s' t' e, step s a = some (s', e) ∧ step' t a = some (t', e) ∧ R s' t')
    {s : σ} {t : τ} (h : R s t) (actions : List α) :
    ∃ s' t' events, exec step s actions = some (s', events) ∧
      exec step' t actions = some (t', events) ∧ R s' t' := by
  induction actions generalizing s t with
  | nil => exact ⟨s, t, [], rfl, rfl, h⟩
  | cons a rest ih =>
      obtain ⟨s₁, t₁, e, hs, ht, hmid⟩ := hstep s t a h
      obtain ⟨s₂, t₂, events, hs', ht', hlast⟩ := ih hmid
      refine ⟨s₂, t₂, e :: events, ?_, ?_, hlast⟩
      · simp [exec, hs, hs']
      · simp [exec, ht, ht']

end Executable

end Lts
