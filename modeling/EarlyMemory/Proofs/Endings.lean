import EarlyMemory.Machine.Paged

/-!
# How operations end

What the parts of an operation must have done for the whole to end as it did.
-/

namespace EarlyMemory

theorem ok_of_toOption {ε α : Type} {computed : Except ε α} {value : α}
    (answer : computed.toOption = some value) : computed = .ok value := by
  cases computed with
  | error cause => cases answer
  | ok result =>
      cases answer
      rfl

theorem mapM_eq_ok {ε α β : Type} {list : List α} {compute : α → Except ε β} {result : α → β}
    (each : ∀ member ∈ list, compute member = .ok (result member)) :
    list.mapM compute = .ok (list.map result) := by
  induction list with
  | nil => rfl
  | cons first rest induction =>
      rw [List.forall_mem_cons] at each
      rw [List.mapM_cons, each.1, induction each.2]
      rfl

end EarlyMemory

namespace EarlyMemory.Operation

variable {σ ε δ α β : Type} {state after : σ} {value : α}

theorem run_eq_of_outcome {operation : Operation σ ε α} {outcome : Outcome ε α}
    (ends : (operation.run state).1 = outcome) :
    operation.run state = (outcome, (operation.run state).2) := by
  rw [← ends]

theorem of_run_pure {answer : α}
    (done : (pure value : Operation σ ε α).run state = (.done answer, after)) :
    value = answer ∧ state = after := by
  cases done
  exact ⟨rfl, rfl⟩

theorem of_run_bind {first : Operation σ ε α} {next : α → Operation σ ε β} {answer : β}
    (done : (first >>= next).run state = (.done answer, after)) :
    ∃ value between, first.run state = (.done value, between) ∧
      (next value).run between = (.done answer, after) := by
  rw [run_bind] at done
  rcases ending : first.run state with ⟨value | cause | cause, between⟩
  · rw [ending] at done
    exact ⟨value, between, rfl, done⟩
  · rw [ending] at done
    cases done
  · rw [ending] at done
    cases done

/-- What follows an operation matters only where the operation was done. -/
theorem run_bind_congr {first : Operation σ ε α} {left right : α → Operation σ ε β}
    (same : ∀ value after, first.run state = (.done value, after) →
      (left value).run after = (right value).run after) :
    (first >>= left).run state = (first >>= right).run state := by
  rw [run_bind, run_bind]
  split
  next value between ending => exact same value between ending
  next => rfl
  next => rfl

theorem of_run_check {computed : Except Fault α}
    (done : (check computed : Operation σ ε α).run state = (.done value, after)) :
    computed = .ok value ∧ state = after := by
  cases computed with
  | error cause => cases done
  | ok result =>
      cases done
      exact ⟨rfl, rfl⟩

theorem of_run_mapRefusal {rename : ε → δ} {operation : Operation σ ε α}
    (done : (mapRefusal rename operation).run state = (.done value, after)) :
    operation.run state = (.done value, after) := by
  rw [run_mapRefusal] at done
  rcases ending : operation.run state with ⟨result | cause | cause, between⟩
  · rw [ending] at done
    cases done
    rfl
  · rw [ending] at done
    cases done
  · rw [ending] at done
    cases done

/-! ## Ending without a fault -/

/-- Whether an operation that starts in a state is done or refused in the end. -/
def FaultlessAt (operation : Operation σ ε α) (state : σ) : Prop :=
  ∀ cause, (operation.run state).1 ≠ .fault cause

namespace FaultlessAt

theorem done_or_refused {operation : Operation σ ε α} (faultless : operation.FaultlessAt state) :
    (∃ value, (operation.run state).1 = .done value) ∨
      ∃ cause, (operation.run state).1 = .refused cause := by
  cases ending : (operation.run state).1 with
  | done value => exact .inl ⟨value, rfl⟩
  | refused cause => exact .inr ⟨cause, rfl⟩
  | fault cause => exact absurd ending (faultless cause)

theorem of_done {operation : Operation σ ε α} (done : operation.run state = (.done value, after)) :
    operation.FaultlessAt state := by
  intro cause faults
  rw [done] at faults
  cases faults

theorem pure : (Pure.pure value : Operation σ ε α).FaultlessAt state :=
  of_done (run_pure ..)

theorem report {severity : Severity} {component : Component} {message : String} :
    (Operation.report severity component message : Operation σ ε Unit).FaultlessAt state :=
  of_done (run_report ..)

theorem refuse {cause : ε} : (Operation.refuse cause : Operation σ ε α).FaultlessAt state :=
  fun _ faults => by cases faults

theorem bind {first : Operation σ ε α} {next : α → Operation σ ε β}
    (faultless : first.FaultlessAt state)
    (further : ∀ value between, first.run state = (.done value, between) →
      (next value).FaultlessAt between) : (first >>= next).FaultlessAt state := by
  intro cause faults
  rw [run_bind] at faults
  rcases ending : first.run state with ⟨value | early | early, between⟩
  · rw [ending] at faults
    exact further value between ending cause faults
  · rw [ending] at faults
    cases faults
  · exact faultless early (congrArg Prod.fst ending)

theorem mapRefusal {rename : ε → δ} {operation : Operation σ ε α}
    (faultless : operation.FaultlessAt state) :
    (Operation.mapRefusal rename operation).FaultlessAt state := by
  intro cause faults
  rw [run_mapRefusal] at faults
  rcases ending : operation.run state with ⟨value | early | early, between⟩
  · rw [ending] at faults
    cases faults
  · rw [ending] at faults
    cases faults
  · exact faultless early (congrArg Prod.fst ending)

theorem reportRefusal {severity : Severity} {component : Component} {message : ε → String}
    {operation : Operation σ ε α} (faultless : operation.FaultlessAt state) :
    (Operation.reportRefusal severity component message operation).FaultlessAt state := by
  intro cause
  rw [run_reportRefusal]
  exact faultless cause

end FaultlessAt

end EarlyMemory.Operation

namespace EarlyMemory.Paged

variable {F ε α : Type} {paged after : Paged F} {value : α}

theorem of_run_inspect {read : Memory → Except Fault α}
    (done : (inspect read : Operation (Paged F) ε α).run paged = (.done value, after)) :
    read paged.memory = .ok value ∧ paged = after := by
  rw [run_inspect] at done
  cases answer : read paged.memory with
  | error cause =>
      rw [answer] at done
      cases done
  | ok result =>
      rw [answer] at done
      cases done
      exact ⟨rfl, rfl⟩

theorem run_onSource_of_run {operation : Operation F ε α}
    {outcome : Outcome ε α} {source : F} (ran : operation.run paged.source = (outcome, source)) :
    (onSource operation).run paged = (outcome, ⟨paged.machine, source⟩) := by
  rw [run_onSource, ran]

theorem of_run_onSource {operation : Operation F ε α}
    (done : (onSource operation).run paged = (.done value, after)) :
    operation.run paged.source = (.done value, after.source) ∧ after.machine = paged.machine := by
  rcases Prod.mk.inj (run_onSource operation paged ▸ done) with ⟨outcome, rfl⟩
  exact ⟨Prod.ext outcome rfl, rfl⟩

theorem of_run_alter {change : Memory → Except Fault Memory} {paged after : Paged F}
    (done : (alter change : Operation (Paged F) ε Unit).run paged = (.done (), after)) :
    change paged.memory = .ok after.memory ∧ after.source = paged.source := by
  rw [run_alter] at done
  cases answer : change paged.memory with
  | error cause =>
      rw [answer] at done
      cases done
  | ok changed =>
      rw [answer] at done
      cases done
      exact ⟨rfl, rfl⟩

theorem exists_run_changeMemory (change : Memory → Memory) (paged : Paged F) :
    ∃ after, (changeMemory change : Operation (Paged F) ε Unit).run paged = (.done (), after) ∧
      after.memory = change paged.memory ∧ after.source = paged.source :=
  ⟨_, run_changeMemory .., rfl, rfl⟩

theorem of_run_changeMemory {change : Memory → Memory} {paged after : Paged F}
    (done : (changeMemory change : Operation (Paged F) ε Unit).run paged = (.done (), after)) :
    after.memory = change paged.memory ∧ after.source = paged.source := by
  rcases exists_run_changeMemory (ε := ε) change paged with ⟨changed, ran, memory, source⟩
  rw [done] at ran
  cases ran
  exact ⟨memory, source⟩

def second {G : Type} (paged : Paged (F × G)) : Paged G :=
  ⟨paged.machine, paged.source.2⟩

@[simp] theorem memory_second {G : Type} (paged : Paged (F × G)) :
    paged.second.memory = paged.memory :=
  rfl

theorem of_run_onSecond {G : Type} {operation : Operation (Paged G) ε α}
    {before after : Paged (F × G)} {outcome : Outcome ε α}
    (ran : (onSecond operation).run before = (outcome, after)) :
    operation.run before.second = (outcome, after.second) ∧
      after.source.1 = before.source.1 := by
  rcases before with ⟨machine, first, second⟩
  rw [run_onSecond] at ran
  cases ran
  exact ⟨rfl, rfl⟩

theorem of_run_lending {G : Type} {second rest : G} {operation : Operation (Paged (F × G)) ε α}
    (done : (lending second operation).run paged = (.done (value, rest), after)) :
    operation.run ⟨paged.machine, (paged.source, second)⟩ =
      (.done value, ⟨after.machine, (after.source, rest)⟩) := by
  rw [run_lending] at done
  rcases ending : operation.run ⟨paged.machine, (paged.source, second)⟩ with
    ⟨result | cause | cause, machine, first, left⟩
  · rw [ending] at done
    cases done
    rfl
  · rw [ending] at done
    cases done
  · rw [ending] at done
    cases done

theorem run_lending_of_done {G : Type} {machine : Machine} {first : F} {second rest : G}
    {operation : Operation (Paged (F × G)) ε α}
    (done : operation.run ⟨paged.machine, (paged.source, second)⟩ =
      (.done value, ⟨machine, (first, rest)⟩)) :
    (lending second operation).run paged = (.done (value, rest), ⟨machine, first⟩) := by
  rw [run_lending, done]

theorem run_lending_of_refused {G : Type} {machine : Machine} {first : F} {second rest : G}
    {operation : Operation (Paged (F × G)) ε α} {cause : ε}
    (refused : operation.run ⟨paged.machine, (paged.source, second)⟩ =
      (.refused cause, ⟨machine, (first, rest)⟩)) :
    (lending second operation).run paged = (.refused cause, ⟨machine, first⟩) := by
  rw [run_lending, refused]

end EarlyMemory.Paged
