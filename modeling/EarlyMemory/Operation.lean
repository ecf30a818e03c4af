import EarlyMemory.Fault
import EarlyMemory.Trace.Record

/-!
# Operations

An operation reads and changes a state, reports records on the way, and ends in
one of three ways: it is done with a value, it is refused for a documented
cause, or it faults. A refusal keeps every change made before it.

`Operation.run` leaves the records out. What an operation does to its state never
depends on them, so runs compose: `run_bind` is the only law that reasoning
about a sequence of operations needs.
-/

namespace EarlyMemory

inductive Outcome (ε α : Type) where
  | done (value : α)
  | refused (cause : ε)
  | fault (cause : Fault)
deriving DecidableEq

/-- An operation over states `σ` with refusals `ε` and values `α`. -/
def Operation (σ ε α : Type) : Type :=
  σ → (Outcome ε α × σ) × List Record

namespace Operation

variable {σ ε δ α β γ : Type}

def run (operation : Operation σ ε α) (state : σ) : Outcome ε α × σ :=
  (operation state).1

def records (operation : Operation σ ε α) (state : σ) : List Record :=
  (operation state).2

@[ext] theorem ext {left right : Operation σ ε α}
    (same : ∀ state, (left state : (Outcome ε α × σ) × List Record) = right state) :
    left = right :=
  funext same

@[always_inline, inline] protected def pure (value : α) : Operation σ ε α :=
  fun state => ((.done value, state), [])

@[always_inline, inline] protected def bind (first : Operation σ ε α)
    (next : α → Operation σ ε β) : Operation σ ε β :=
  fun state =>
    match first state with
    | ((.done value, after), early) =>
        match next value after with
        | (ending, late) => (ending, early ++ late)
    | ((.refused cause, after), early) => ((.refused cause, after), early)
    | ((.fault cause, after), early) => ((.fault cause, after), early)

@[always_inline] instance : Monad (Operation σ ε) where
  pure := Operation.pure
  bind := Operation.bind

/-! ## Basic operations -/

@[always_inline, inline] def state : Operation σ ε σ :=
  fun state => ((.done state, state), [])

@[always_inline, inline] def update (change : σ → σ) : Operation σ ε Unit :=
  fun state => ((.done (), change state), [])

@[always_inline, inline] def refuse (cause : ε) : Operation σ ε α :=
  fun state => ((.refused cause, state), [])

@[always_inline, inline] def report (severity : Severity) (component : Component)
    (message : String) : Operation σ ε Unit :=
  fun state => ((.done (), state), [⟨severity, component.label, message⟩])

/-- The value of a computation that may fault. -/
@[always_inline, inline] def check (computed : Except Fault α) : Operation σ ε α :=
  fun state =>
    match computed with
    | .ok value => ((.done value, state), [])
    | .error cause => ((.fault cause, state), [])

/-- Turns a refusal into a value. -/
@[always_inline, inline] def attempt (operation : Operation σ ε α) :
    Operation σ δ (Except ε α) :=
  fun state =>
    match operation state with
    | ((.done value, after), made) => ((.done (.ok value), after), made)
    | ((.refused cause, after), made) => ((.done (.error cause), after), made)
    | ((.fault cause, after), made) => ((.fault cause, after), made)

/-- The same operation under another name for its refusals. -/
@[always_inline, inline] def mapRefusal (rename : ε → δ) (operation : Operation σ ε α) :
    Operation σ δ α :=
  fun state =>
    match operation state with
    | ((.done value, after), made) => ((.done value, after), made)
    | ((.refused cause, after), made) => ((.refused (rename cause), after), made)
    | ((.fault cause, after), made) => ((.fault cause, after), made)

@[always_inline, inline] def reportRefusal (severity : Severity) (component : Component)
    (message : ε → String) (operation : Operation σ ε α) : Operation σ ε α := do
  match ← attempt operation with
  | .ok value => pure value
  | .error cause =>
      report severity component (message cause)
      refuse cause

/-- The same operation over and over, with its values in order. -/
def times : Nat → Operation σ ε α → Operation σ ε (List α)
  | 0, _ => return []
  | count + 1, operation => do
      let first ← operation
      let rest ← times count operation
      return first :: rest

/-! ## Runs -/

@[simp] theorem run_pure (value : α) (state : σ) :
    (pure value : Operation σ ε α).run state = (.done value, state) :=
  rfl

theorem run_bind (first : Operation σ ε α) (next : α → Operation σ ε β) (state : σ) :
    (first >>= next).run state =
      match first.run state with
      | (.done value, after) => (next value).run after
      | (.refused cause, after) => (.refused cause, after)
      | (.fault cause, after) => (.fault cause, after) := by
  show (Operation.bind first next state).1 = _
  unfold Operation.bind run
  rcases first state with ⟨⟨value | cause | cause, after⟩, early⟩ <;> rfl

theorem run_bind_of_done {first : Operation σ ε α} {next : α → Operation σ ε β}
    {state after : σ} {value : α} (done : first.run state = (.done value, after)) :
    (first >>= next).run state = (next value).run after := by
  rw [run_bind, done]

theorem run_bind_of_refused {first : Operation σ ε α} {next : α → Operation σ ε β}
    {state after : σ} {cause : ε} (refused : first.run state = (.refused cause, after)) :
    (first >>= next).run state = (.refused cause, after) := by
  rw [run_bind, refused]

theorem run_bind_of_fault {first : Operation σ ε α} {next : α → Operation σ ε β}
    {state after : σ} {cause : Fault} (fault : first.run state = (.fault cause, after)) :
    (first >>= next).run state = (.fault cause, after) := by
  rw [run_bind, fault]

@[simp] theorem run_state (state : σ) :
    (Operation.state : Operation σ ε σ).run state = (.done state, state) :=
  rfl

@[simp] theorem run_update (change : σ → σ) (state : σ) :
    (update change : Operation σ ε Unit).run state = (.done (), change state) :=
  rfl

@[simp] theorem run_refuse (cause : ε) (state : σ) :
    (refuse cause : Operation σ ε α).run state = (.refused cause, state) :=
  rfl

@[simp] theorem run_report (severity : Severity) (component : Component)
    (message : String) (state : σ) :
    (report severity component message : Operation σ ε Unit).run state = (.done (), state) :=
  rfl

@[simp] theorem run_check_ok (value : α) (state : σ) :
    (check (.ok value) : Operation σ ε α).run state = (.done value, state) :=
  rfl

theorem run_attempt (operation : Operation σ ε α) (state : σ) :
    (attempt operation : Operation σ δ (Except ε α)).run state =
      match operation.run state with
      | (.done value, after) => (.done (.ok value), after)
      | (.refused cause, after) => (.done (.error cause), after)
      | (.fault cause, after) => (.fault cause, after) := by
  rcases ending : operation state with ⟨⟨value | cause | cause, after⟩, made⟩ <;>
    simp only [attempt, run, ending]

theorem run_mapRefusal (rename : ε → δ) (operation : Operation σ ε α) (state : σ) :
    (mapRefusal rename operation).run state =
      match operation.run state with
      | (.done value, after) => (.done value, after)
      | (.refused cause, after) => (.refused (rename cause), after)
      | (.fault cause, after) => (.fault cause, after) := by
  rcases ending : operation state with ⟨⟨value | cause | cause, after⟩, made⟩ <;>
    simp only [mapRefusal, run, ending]

@[simp] theorem run_reportRefusal (severity : Severity) (component : Component)
    (message : ε → String) (operation : Operation σ ε α) (state : σ) :
    (reportRefusal severity component message operation).run state = operation.run state := by
  unfold reportRefusal
  rw [run_bind, run_attempt]
  rcases operation.run state with ⟨value | cause | cause, after⟩
  · rfl
  · simp only [run_bind, run_report, run_refuse]
  · rfl

protected theorem map_id (operation : Operation σ ε α) : id <$> operation = operation := by
  funext state
  show Operation.bind operation _ state = _
  unfold Operation.bind
  rcases operation state with ⟨⟨value | cause | cause, after⟩, made⟩ <;>
    simp [Operation.pure]

protected theorem bind_assoc (first : Operation σ ε α) (second : α → Operation σ ε β)
    (third : β → Operation σ ε γ) :
    first >>= second >>= third = first >>= fun value => second value >>= third := by
  funext state
  show Operation.bind (Operation.bind first second) third state =
    Operation.bind first (fun value => Operation.bind (second value) third) state
  unfold Operation.bind
  rcases first state with ⟨⟨value | cause | cause, after⟩, early⟩
  · simp only
    rcases second value after with ⟨⟨value | cause | cause, after⟩, middle⟩
    · simp only [List.append_assoc]
    · rfl
    · rfl
  · rfl
  · rfl

instance : LawfulMonad (Operation σ ε) :=
  .mk' _ (fun operation => operation.map_id) (fun _ _ => rfl) Operation.bind_assoc

end Operation

end EarlyMemory
