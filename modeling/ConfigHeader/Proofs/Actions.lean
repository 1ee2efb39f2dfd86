/-! Actions over a state that may fail, run step by step. A failed action leaves the state that it
got to, and one that handles a fault goes on from there. -/
namespace ConfigHeader

variable {σ ε α β : Type}

/-- What comes out of two steps came out of the second one, from what came out of the first. -/
theorem exists_of_bind {first : Except ε α} {second : α → Except ε β} {result : β}
    (found : first >>= second = .ok result) :
    ∃ between, first = .ok between ∧ second between = .ok result := by
  cases first with
  | error fault => cases found
  | ok between => exact ⟨between, rfl, found⟩

@[simp] theorem run_pure (result : α) (state : σ) :
    (pure result : ExceptT ε (StateM σ) α).run state = (.ok result, state) := rfl

@[simp] theorem run_throw (fault : ε) (state : σ) :
    (throw fault : ExceptT ε (StateM σ) α).run state = (.error fault, state) := rfl

@[simp] theorem run_get (state : σ) :
    (get : ExceptT ε (StateM σ) σ).run state = (.ok state, state) := rfl

/-- Another word for the fault changes nothing else. -/
theorem run_adapt {ε' : Type} (change : ε → ε') (action : ExceptT ε (StateM σ) α) (state : σ) :
    (ExceptT.adapt change action).run state =
      ((action.run state).1.mapError change, (action.run state).2) := rfl

section Steps

variable {action : ExceptT ε (StateM σ) α} {result : α} {fault : ε} {before after : σ}

theorem run_bind_of_ok (ran : action.run before = (.ok result, after))
    (next : α → ExceptT ε (StateM σ) β) :
    (action >>= next).run before = (next result).run after := by
  rw [ExceptT.run_bind]
  simp only [bind, StateT.bind, ran]

theorem run_bind_of_error (ran : action.run before = (.error fault, after))
    (next : α → ExceptT ε (StateM σ) β) :
    (action >>= next).run before = (.error fault, after) := by
  rw [ExceptT.run_bind]
  simp only [bind, StateT.bind, ran]
  rfl

private theorem run_tryCatch (action : ExceptT ε (StateM σ) α)
    (handle : ε → ExceptT ε (StateM σ) α) :
    (tryCatch action handle).run =
      action.run.bind fun outcome => (tryCatch (ExceptT.mk (pure outcome)) handle).run :=
  rfl

theorem run_tryCatch_of_ok (ran : action.run before = (.ok result, after))
    (handle : ε → ExceptT ε (StateM σ) α) :
    (tryCatch action handle).run before = (.ok result, after) := by
  rw [run_tryCatch, StateT.bind, ran]
  rfl

theorem run_tryCatch_of_error (ran : action.run before = (.error fault, after))
    (handle : ε → ExceptT ε (StateM σ) α) :
    (tryCatch action handle).run before = (handle fault).run after := by
  rw [run_tryCatch, StateT.bind, ran]
  rfl

end Steps

end ConfigHeader
