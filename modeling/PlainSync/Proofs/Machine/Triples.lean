import PlainSync.Machine.World

/-!
# Triples for actions on a machine

The actions of a run and of a log work on a state of their own and on a machine that is a value. A
triple says what holds behind an action if something holds in front of it: a condition on the result
and the state if the action succeeds, and an invariant if it fails.
-/

namespace PlainSync

/-- An action that may fail, on a state and a machine. -/
abbrev Action (ε σ α : Type) : Type := ExceptT ε (StateT σ WorldM) α

namespace Action

variable {ε σ α β : Type}

/-- What an action makes of a state and a machine: its result, the state and the machine. -/
def eval (action : Action ε σ α) (state : σ) (world : World) : (Except ε α × σ) × World :=
  (action.run.run state).run world

section Evaluation

variable (state : σ) (world : World)

/-- The second action goes on from where the first one leaves the state and the machine. -/
theorem eval_bind (action : Action ε σ α) (next : α → Action ε σ β) :
    eval (action >>= next) state world =
      match eval action state world with
      | ((.ok value, state'), world') => eval (next value) state' world'
      | ((.error failure, state'), world') => ((.error failure, state'), world') := by
  have hnext : eval (action >>= next) state world =
      eval (ExceptT.mk (ExceptT.bindCont next (eval action state world).1.1))
        (eval action state world).1.2 (eval action state world).2 := rfl
  rw [hnext]
  cases heval : eval action state world with
  | mk outcome world' =>
    obtain ⟨result, state'⟩ := outcome
    cases result with
    | ok value => rfl
    | error failure => rfl

/-- What is returned in the end changes nothing else. -/
theorem eval_bind_pure (action : Action ε σ α) (f : α → β) :
    eval (do return f (← action)) state world =
      match eval action state world with
      | ((result, state'), world') => ((result.map f, state'), world') := by
  rw [eval_bind]
  obtain ⟨⟨result, state'⟩, world'⟩ := eval action state world
  cases result with
  | ok value => rfl
  | error failure => rfl

/-- A handler goes on from where the failure left the state and the machine. -/
theorem eval_tryCatch (action : Action ε σ α) (handler : ε → Action ε σ α) :
    eval (tryCatch action handler) state world =
      match eval action state world with
      | ((.ok value, state'), world') => ((.ok value, state'), world')
      | ((.error failure, state'), world') => eval (handler failure) state' world' := by
  have hcatch : eval (tryCatch action handler) state world =
      (((ExceptT.tryCatch action handler).run).run state).run world := rfl
  rw [hcatch, ExceptT.tryCatch, ExceptT.run_mk, StateT.run_bind, StateT.run_bind]
  cases heval : eval action state world with
  | mk outcome world' =>
    obtain ⟨result, state'⟩ := outcome
    have hrun : StateT.run (StateT.run action state) world = ((result, state'), world') := heval
    rw [hrun]
    cases result with
    | ok value => rfl
    | error failure => rfl

end Evaluation

/-- From every state with `P` the action succeeds in one with `Q` for its result, or it fails in
one with the invariant `I`. -/
structure Triple (I P : σ → World → Prop) (action : Action ε σ α) (Q : α → σ → World → Prop) :
    Prop where
  holds : ∀ state world, P state world →
    match eval action state world with
    | ((.ok value, state'), world') => Q value state' world'
    | ((.error _, state'), world') => I state' world'

namespace Triple

variable {I J P : σ → World → Prop} {Q : α → σ → World → Prop}
  {R : β → σ → World → Prop}

/-- A value that is returned changes nothing. -/
theorem pure {value : α} (hvalue : ∀ state world, P state world → Q value state world) :
    Triple I P (Pure.pure value : Action ε σ α) Q :=
  ⟨hvalue⟩

/-- A failure leaves the state in which it is raised. -/
theorem throw {failure : ε} (hfailure : ∀ state world, P state world → I state world) :
    Triple I P (MonadExcept.throw failure : Action ε σ α) Q :=
  ⟨hfailure⟩

/-- What holds behind one action holds in front of the next. -/
theorem bind {action : Action ε σ α} {next : α → Action ε σ β} (haction : Triple I P action Q)
    (hnext : ∀ value, Triple I (Q value) (next value) R) : Triple I P (action >>= next) R := by
  refine ⟨fun state world hstate => ?_⟩
  have hfirst := haction.holds state world hstate
  rw [eval_bind]
  generalize eval action state world = outcome at hfirst
  obtain ⟨⟨result, state'⟩, world'⟩ := outcome
  cases result with
  | ok value => exact (hnext value).holds state' world' hfirst
  | error failure => exact hfirst

/-- A failure is caught where the invariant holds. -/
theorem tryCatch {action : Action ε σ α} {handler : ε → Action ε σ α}
    (haction : Triple J P action Q) (hhandler : ∀ failure, Triple I J (handler failure) Q) :
    Triple I P (MonadExcept.tryCatch action handler) Q := by
  refine ⟨fun state world hstate => ?_⟩
  have hfirst := haction.holds state world hstate
  rw [eval_tryCatch]
  generalize eval action state world = outcome at hfirst
  obtain ⟨⟨result, state'⟩, world'⟩ := outcome
  cases result with
  | ok value => exact hfirst
  | error failure => exact (hhandler failure).holds state' world' hfirst

/-- An action that never fails goes where its triple says. -/
theorem exists_eval {action : Action ε σ α} {state : σ} {world : World}
    (haction : Triple (fun _ _ => False) P action Q) (hstate : P state world) :
    ∃ value state' world', eval action state world = ((.ok value, state'), world') ∧
      Q value state' world' := by
  have hresult := haction.holds state world hstate
  generalize eval action state world = outcome at hresult ⊢
  obtain ⟨⟨result, state'⟩, world'⟩ := outcome
  cases result with
  | ok value => exact ⟨value, state', world', rfl, hresult⟩
  | error failure => exact hresult.elim

/-- More may hold in front of an action, and less has to hold behind its success. -/
theorem weaken {P' : σ → World → Prop} {Q' : α → σ → World → Prop}
    {action : Action ε σ α} (haction : Triple I P action Q)
    (hbefore : ∀ state world, P' state world → P state world)
    (hbehind : ∀ value state world, Q value state world → Q' value state world) :
    Triple I P' action Q' := by
  refine ⟨fun state world hstate => ?_⟩
  have hresult := haction.holds state world (hbefore state world hstate)
  generalize eval action state world = outcome at hresult ⊢
  obtain ⟨⟨result, state'⟩, world'⟩ := outcome
  cases result with
  | ok value => exact hbehind value state' world' hresult
  | error failure => exact hresult

/-- Less has to hold behind a failure. -/
theorem relax {action : Action ε σ α} (haction : Triple I P action Q)
    (hfailed : ∀ state world, I state world → J state world) : Triple J P action Q := by
  refine ⟨fun state world hstate => ?_⟩
  have hresult := haction.holds state world hstate
  generalize eval action state world = outcome at hresult ⊢
  obtain ⟨⟨result, state'⟩, world'⟩ := outcome
  cases result with
  | ok value => exact hresult
  | error failure => exact hfailed state' world' hresult

/-- What is kept by success and failure alike holds behind an action. -/
theorem keeps {action : Action ε σ α} (haction : Triple P P action fun _ => P)
    {state : σ} {world : World} (hstate : P state world) :
    P (eval action state world).1.2 (eval action state world).2 := by
  have hresult := haction.holds state world hstate
  generalize eval action state world = outcome at hresult ⊢
  obtain ⟨⟨result, state'⟩, world'⟩ := outcome
  cases result with
  | ok value => exact hresult
  | error failure => exact hresult

/-- What holds whatever the state is can be assumed. -/
theorem assume {known : Prop} {action : Action ε σ α} (haction : known → Triple I P action Q) :
    Triple I (fun state world => known ∧ P state world) action Q :=
  ⟨fun state world hstate => (haction hstate.1).holds state world hstate.2⟩

/-- What exists in front of an action can be given a name. -/
theorem ofExists {ι : Type} {P : ι → σ → World → Prop} {action : Action ε σ α}
    (haction : ∀ known, Triple I (P known) action Q) :
    Triple I (fun state world => ∃ known, P known state world) action Q :=
  ⟨fun state world hstate => hstate.elim fun known hknown =>
    (haction known).holds state world hknown⟩

/-- From a state where nothing holds anything may be done. -/
theorem of_false {action : Action ε σ α} : Triple I (fun _ _ => False) action Q :=
  ⟨fun _ _ hstate => hstate.elim⟩

/-- The state that an action reads is the one it is in. -/
theorem get : Triple I P (MonadState.get : Action ε σ σ)
    fun value state world => value = state ∧ P state world :=
  ⟨fun _ _ hstate => ⟨rfl, hstate⟩⟩

/-- An action that reads the state goes on with the one that is known. -/
theorem get_bind {state : σ} {world : World} {next : σ → Action ε σ β}
    (hnext : Triple I (fun state' world' => state' = state ∧ world' = world) (next state) R) :
    Triple I (fun state' world' => state' = state ∧ world' = world)
      (MonadState.get >>= next) R := by
  refine .bind (Q := fun known state' world' => known = state ∧ state' = state ∧ world' = world)
    ⟨fun state' world' hsame => ⟨hsame.1, hsame⟩⟩ fun known => .assume ?_
  rintro rfl
  exact hnext

/-- A state that is set is the one behind that. -/
theorem set {state' : σ} {Q : PUnit → σ → World → Prop}
    (hset : ∀ state world, P state world → Q ⟨⟩ state' world) :
    Triple I P (MonadStateOf.set state' : Action ε σ PUnit) Q :=
  ⟨hset⟩

/-- A state that is changed is what the change makes of it. -/
theorem modify {change : σ → σ} {Q : PUnit → σ → World → Prop}
    (hchange : ∀ state world, P state world → Q ⟨⟩ (change state) world) :
    Triple I P (MonadStateOf.modifyGet fun state => (⟨⟩, change state) : Action ε σ PUnit) Q :=
  ⟨hchange⟩

end Triple

end Action

end PlainSync
