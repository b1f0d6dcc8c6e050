import Mathlib.Data.List.Induction

/-! # Runs of a system that takes events

A run performs a list of events in order. The step may refuse an event
(`Option`: the event cannot happen in that state) or go wrong (`Except`). The
rules below reason about the state reached together with the events that led
there, with the last event at the end of the list.
-/

namespace BBNotifier.Foundation

section

variable {m : Type → Type} [Monad m] {State Event : Type}

/-- Perform the events in order, stopping where a step has no result. -/
def run (step : State → Event → m State) (start : State) (events : List Event) : m State :=
  events.foldlM step start

theorem run_append [LawfulMonad m] (step : State → Event → m State) (start : State)
    (first second : List Event) :
    run step start (first ++ second) =
      run step start first >>= fun middle => run step middle second := by
  simp [run]

theorem run_snoc [LawfulMonad m] (step : State → Event → m State) (start : State)
    (events : List Event) (event : Event) :
    run step start (events ++ [event]) =
      run step start events >>= fun state => step state event := by
  simp [run]

end

theorem bind_eq_ok {Error α β : Type} {first : Except Error α} {rest : α → Except Error β}
    {result : β} : first >>= rest = .ok result ↔
      ∃ middle, first = .ok middle ∧ rest middle = .ok result := by
  cases first with
  | error => simp [bind, Except.bind]
  | ok => simp [bind, Except.bind]

theorem exists_ok_of_isSome {Error α : Type} {result : Except Error α}
    (h : result.toOption.isSome) : ∃ value, result = .ok value := by
  cases result with
  | error => cases h
  | ok value => exact ⟨value, rfl⟩

theorem bind_eq_error {Error α β : Type} {first : Except Error α} {rest : α → Except Error β}
    {error : Error} : first >>= rest = .error error ↔
      first = .error error ∨ ∃ middle, first = .ok middle ∧ rest middle = .error error := by
  cases first with
  | error => simp [bind, Except.bind]
  | ok => simp [bind, Except.bind]

variable {State Event Error : Type}

theorem run_snoc_eq_some {step : State → Event → Option State} {start next : State}
    {events : List Event} {event : Event} :
    run step start (events ++ [event]) = some next ↔
      ∃ state, run step start events = some state ∧ step state event = some next := by
  rw [run_snoc]
  exact Option.bind_eq_some_iff

theorem run_cons_eq_some {step : State → Event → Option State} {start next : State}
    {event : Event} {events : List Event} :
    run step start (event :: events) = some next ↔
      ∃ middle, step start event = some middle ∧ run step middle events = some next :=
  Option.bind_eq_some_iff

theorem run_append_eq_some {step : State → Event → Option State} {start next : State}
    {first second : List Event} :
    run step start (first ++ second) = some next ↔
      ∃ middle, run step start first = some middle ∧ run step middle second = some next := by
  rw [run_append]
  exact Option.bind_eq_some_iff

/-- A run through an event reaches the event, performs it and goes on. -/
theorem run_append_cons_eq_some {step : State → Event → Option State} {start next : State}
    {front back : List Event} {event : Event} :
    run step start (front ++ event :: back) = some next ↔
      ∃ before after, run step start front = some before ∧ step before event = some after ∧
        run step after back = some next := by
  rw [run_append_eq_some]
  apply exists_congr
  intro before
  rw [run_cons_eq_some]
  constructor
  · rintro ⟨hbefore, after, hstep, hafter⟩
    exact ⟨after, hbefore, hstep, hafter⟩
  · rintro ⟨after, hbefore, hstep, hafter⟩
    exact ⟨hbefore, after, hstep, hafter⟩

/-- A law of the events and the state they led to, established at the start
and kept by every step that happens, holds after every run. -/
theorem run_invariant {step : State → Event → Option State} {start : State}
    (law : List Event → State → Prop) (hstart : law [] start)
    (hstep : ∀ events state event next, run step start events = some state →
      law events state → step state event = some next → law (events ++ [event]) next)
    (events : List Event) (state : State) (hrun : run step start events = some state) :
    law events state := by
  induction events using List.reverseRecOn generalizing state with
  | nil =>
      cases hrun
      exact hstart
  | append_singleton events event ih =>
      obtain ⟨before, hbefore, hlast⟩ := run_snoc_eq_some.mp hrun
      exact hstep events before event state hbefore (ih before hbefore) hlast

/-- If a law of events and state lets every step succeed and is kept by it,
then no run goes wrong, and the law holds of what it reaches. -/
theorem run_progress {step : State → Event → Except Error State} {start : State}
    (law : List Event → State → Prop) (hstart : law [] start)
    (hstep : ∀ events state event, law events state →
      ∃ next, step state event = .ok next ∧ law (events ++ [event]) next)
    (events : List Event) :
    ∃ state, run step start events = .ok state ∧ law events state := by
  induction events using List.reverseRecOn with
  | nil => exact ⟨start, rfl, hstart⟩
  | append_singleton events event ih =>
      obtain ⟨state, hrun, hlaw⟩ := ih
      obtain ⟨next, hnext, hlaw'⟩ := hstep events state event hlaw
      refine ⟨next, ?_, hlaw'⟩
      rw [run_snoc, hrun]
      exact hnext

theorem run_snoc_eq_ok {step : State → Event → Except Error State} {start next : State}
    {events : List Event} {event : Event} :
    run step start (events ++ [event]) = .ok next ↔
      ∃ state, run step start events = .ok state ∧ step state event = .ok next := by
  rw [run_snoc]
  exact bind_eq_ok

/-- The same rule for steps that may go wrong. -/
theorem run_invariant_ok {step : State → Event → Except Error State} {start : State}
    (law : List Event → State → Prop) (hstart : law [] start)
    (hstep : ∀ events state event next, run step start events = .ok state →
      law events state → step state event = .ok next → law (events ++ [event]) next)
    (events : List Event) (state : State) (hrun : run step start events = .ok state) :
    law events state := by
  induction events using List.reverseRecOn generalizing state with
  | nil =>
      cases hrun
      exact hstart
  | append_singleton events event ih =>
      obtain ⟨before, hbefore, hlast⟩ := run_snoc_eq_ok.mp hrun
      exact hstep events before event state hbefore (ih before hbefore) hlast

/-- A step that only refuses more has no other runs. -/
theorem run_ok_of_step_ok {step step' : State → Event → Except Error State}
    (hstep : ∀ state event next, step state event = .ok next → step' state event = .ok next)
    {start final : State} {events : List Event} (hrun : run step start events = .ok final) :
    run step' start events = .ok final :=
  run_invariant_ok (fun events state => run step' start events = .ok state) rfl
    (fun _ _ _ _ _ hrun' hnext => run_snoc_eq_ok.mpr ⟨_, hrun', hstep _ _ _ hnext⟩) events final
    hrun

/-- A run goes wrong at the first event whose step does. -/
theorem run_eq_error {step : State → Event → Except Error State} {start : State}
    {events : List Event} {error : Error} :
    run step start events = .error error ↔
      ∃ front event back state, events = front ++ event :: back ∧
        run step start front = .ok state ∧ step state event = .error error := by
  constructor
  · intro hrun
    induction events using List.reverseRecOn with
    | nil => cases hrun
    | append_singleton events event ih =>
        rw [run_snoc] at hrun
        cases hbefore : run step start events with
        | error cause =>
            rw [hbefore] at hrun
            cases hrun
            obtain ⟨front, first, back, state, hevents, hfront, hfirst⟩ := ih hbefore
            exact ⟨front, first, back ++ [event], state, by simp [hevents], hfront, hfirst⟩
        | ok state =>
            rw [hbefore] at hrun
            exact ⟨events, event, [], state, rfl, hbefore, hrun⟩
  · rintro ⟨front, event, back, state, rfl, hfront, hevent⟩
    rw [run_append, hfront]
    have hback : run step state (event :: back) = .error error := by
      rw [run, List.foldlM_cons, hevent]
      rfl
    exact hback

/-- A projection that turns steps into steps turns runs into runs. -/
theorem run_project {State' : Type} {step : State → Event → Option State}
    {step' : State' → Event → Option State'} (project : State → State')
    (hstep : ∀ state event next, step state event = some next →
      step' (project state) event = some (project next))
    {start final : State} {events : List Event} (hrun : run step start events = some final) :
    run step' (project start) events = some (project final) := by
  induction events generalizing start with
  | nil =>
      cases hrun
      rfl
  | cons event rest ih =>
      obtain ⟨middle, hmiddle, hrest⟩ := run_cons_eq_some.mp hrun
      exact run_cons_eq_some.mpr ⟨project middle, hstep _ _ _ hmiddle, ih hrest⟩

section

variable {Output : Type}

/-- What events put out, each of them seen with the events before it. -/
def outputs (output : List Event → Event → Option Output) (events : List Event) : List Output :=
  go [] events
where
  go (before : List Event) : List Event → List Output
    | [] => []
    | event :: rest => (output before event).toList ++ go (before ++ [event]) rest

theorem outputs_snoc (output : List Event → Event → Option Output) (events : List Event)
    (event : Event) :
    outputs output (events ++ [event]) = outputs output events ++ (output events event).toList := by
  have hgo : ∀ before, outputs.go output before (events ++ [event]) =
      outputs.go output before events ++ (output (before ++ events) event).toList := by
    induction events with
    | nil => simp [outputs.go]
    | cons first rest ih =>
        intro before
        rw [List.cons_append, outputs.go, outputs.go, ih, List.append_assoc, List.append_assoc]
        rfl
  exact hgo []

end

end BBNotifier.Foundation
