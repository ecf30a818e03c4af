import EarlyMemory.Proofs.Endings

/-!
# What operations maintain

An operation maintains what holds after it whenever it held before, however it ends: a
refusal and a fault keep every change made before them. What a sequence of operations
maintains follows from its parts, and so do the causes that it is refused for.
-/

namespace EarlyMemory.Operation

variable {σ ε δ α β : Type} {holds : σ → Prop} {allowed : ε → Prop}

/-- A sequence ends where its first part stops it or where the rest ends. -/
theorem holds_run_bind {first : Operation σ ε α} {next : α → Operation σ ε β} {state : σ}
    (stopped : holds (first.run state).2)
    (continued : ∀ value between, first.run state = (.done value, between) →
      holds ((next value).run between).2) : holds ((first >>= next).run state).2 := by
  rw [run_bind]
  rcases ending : first.run state with ⟨value | cause | cause, between⟩
  · exact continued value between ending
  · rwa [ending] at stopped
  · rwa [ending] at stopped

theorem holds_run_check {computed : Except Fault α} {next : α → Operation σ ε β} {state : σ}
    (held : holds state)
    (continued : ∀ value, computed = .ok value → holds ((next value).run state).2) :
    holds ((check computed >>= next).run state).2 := by
  cases computed with
  | ok value => exact continued value rfl
  | error cause => exact held

/-- However the operation ends, what holds before it holds after it. -/
def Maintains (holds : σ → Prop) (operation : Operation σ ε α) : Prop :=
  ∀ state, holds state → holds (operation.run state).2

namespace Maintains

theorem of_run {operation : Operation σ ε α} {state after : σ} {outcome : Outcome ε α}
    (maintains : operation.Maintains holds) (before : holds state)
    (ran : operation.run state = (outcome, after)) : holds after := by
  have kept := maintains state before
  rwa [ran] at kept

theorem pure {value : α} : (Pure.pure value : Operation σ ε α).Maintains holds :=
  fun _ before => before

theorem refuse {cause : ε} : (Operation.refuse cause : Operation σ ε α).Maintains holds :=
  fun _ before => before

theorem report {severity : Severity} {component : Component} {message : String} :
    (Operation.report severity component message : Operation σ ε Unit).Maintains holds :=
  fun _ before => before

theorem check {computed : Except Fault α} :
    (Operation.check computed : Operation σ ε α).Maintains holds := by
  intro state before
  cases computed with
  | ok value => exact before
  | error cause => exact before

theorem state : (Operation.state : Operation σ ε σ).Maintains holds :=
  fun _ before => before

theorem bind {first : Operation σ ε α} {next : α → Operation σ ε β}
    (maintains : first.Maintains holds) (further : ∀ value, (next value).Maintains holds) :
    (first >>= next).Maintains holds :=
  fun state before => holds_run_bind (maintains state before) fun value between ran =>
    further value between (maintains.of_run before ran)

theorem mapRefusal {operation : Operation σ ε α} {rename : ε → δ}
    (maintains : operation.Maintains holds) :
    (Operation.mapRefusal rename operation).Maintains holds := by
  intro state before
  rw [run_mapRefusal]
  rcases ending : operation.run state with ⟨value | cause | cause, after⟩ <;>
    exact maintains.of_run before ending

theorem reportRefusal {operation : Operation σ ε α} {severity : Severity} {component : Component}
    {message : ε → String} (maintains : operation.Maintains holds) :
    (Operation.reportRefusal severity component message operation).Maintains holds := by
  intro state before
  rw [run_reportRefusal]
  exact maintains state before

end Maintains

/-! ## Causes of refusals -/

/-- Every cause that the operation is refused for is among the allowed ones. -/
def RefusesOnly (allowed : ε → Prop) (operation : Operation σ ε α) : Prop :=
  ∀ state cause, (operation.run state).1 = .refused cause → allowed cause

namespace RefusesOnly

theorem pure {value : α} : (Pure.pure value : Operation σ ε α).RefusesOnly allowed := by
  intro state cause refused
  cases refused

theorem refuse {cause : ε} (isAllowed : allowed cause) :
    (Operation.refuse cause : Operation σ ε α).RefusesOnly allowed := by
  intro state cause refused
  cases refused
  exact isAllowed

theorem report {severity : Severity} {component : Component} {message : String} :
    (Operation.report severity component message : Operation σ ε Unit).RefusesOnly allowed := by
  intro state cause refused
  cases refused

theorem check {computed : Except Fault α} :
    (Operation.check computed : Operation σ ε α).RefusesOnly allowed := by
  intro state cause refused
  cases computed <;> cases refused

theorem state : (Operation.state : Operation σ ε σ).RefusesOnly allowed := by
  intro state cause refused
  cases refused

theorem update {change : σ → σ} :
    (Operation.update change : Operation σ ε Unit).RefusesOnly allowed := by
  intro state cause refused
  cases refused

theorem bind {first : Operation σ ε α} {next : α → Operation σ ε β}
    (refuses : first.RefusesOnly allowed) (further : ∀ value, (next value).RefusesOnly allowed) :
    (first >>= next).RefusesOnly allowed := by
  intro state cause refused
  rw [run_bind] at refused
  rcases ending : first.run state with ⟨value | early | early, between⟩
  · rw [ending] at refused
    exact further value between cause refused
  · rw [ending] at refused
    cases refused
    exact refuses state cause (congrArg Prod.fst ending)
  · rw [ending] at refused
    cases refused

theorem rename {renamed : δ → Prop} {rename : ε → δ} {operation : Operation σ ε α}
    (refuses : operation.RefusesOnly allowed)
    (carries : ∀ cause, allowed cause → renamed (rename cause)) :
    (Operation.mapRefusal rename operation).RefusesOnly renamed := by
  intro state cause refused
  rw [run_mapRefusal] at refused
  rcases ending : operation.run state with ⟨value | early | early, after⟩
  · rw [ending] at refused
    cases refused
  · rw [ending] at refused
    cases refused
    exact carries early (refuses state early (congrArg Prod.fst ending))
  · rw [ending] at refused
    cases refused

theorem mapRefusal {renamed : δ → Prop} {rename : ε → δ} {operation : Operation σ ε α}
    (allows : ∀ cause, renamed (rename cause)) :
    (Operation.mapRefusal rename operation).RefusesOnly renamed :=
  have anything : operation.RefusesOnly fun _ => True := fun _ _ _ => trivial
  anything.rename fun cause _ => allows cause

theorem reportRefusal {operation : Operation σ ε α} {severity : Severity} {component : Component}
    {message : ε → String} (refuses : operation.RefusesOnly allowed) :
    (Operation.reportRefusal severity component message operation).RefusesOnly allowed := by
  intro state cause refused
  rw [run_reportRefusal] at refused
  exact refuses state cause refused

end RefusesOnly

/-! ## Refusals that change nothing -/

/-- Being refused for such a cause changed nothing. -/
def Spares (causes : ε → Prop) (operation : Operation σ ε α) : Prop :=
  ∀ state cause after, operation.run state = (.refused cause, after) → causes cause → after = state

namespace Spares

variable {causes : ε → Prop}

theorem of_refusesOnly {operation : Operation σ ε α}
    (refuses : operation.RefusesOnly fun cause => ¬ causes cause) : operation.Spares causes := by
  intro state cause after ran isCause
  exact absurd isCause (refuses state cause (congrArg Prod.fst ran))

theorem bind_reading {first : Operation σ ε α} {next : α → Operation σ ε β}
    (reads : ∀ holds : σ → Prop, first.Maintains holds)
    (spares : ∀ value, (next value).Spares causes) : (first >>= next).Spares causes := by
  intro state cause after ran isCause
  have unchanged := reads (· = state) state rfl
  rw [run_bind] at ran
  rcases ending : first.run state with ⟨value | early | early, between⟩
  · rw [ending] at ran unchanged
    cases unchanged
    exact spares value _ cause after ran isCause
  · rw [ending] at ran unchanged
    cases unchanged
    cases ran
    rfl
  · rw [ending] at ran
    cases ran

theorem bind_refusing {first : Operation σ ε α} {next : α → Operation σ ε β}
    (spares : first.Spares causes)
    (refuses : ∀ value, (next value).RefusesOnly fun cause => ¬ causes cause) :
    (first >>= next).Spares causes := by
  intro state cause after ran isCause
  rw [run_bind] at ran
  rcases ending : first.run state with ⟨value | early | early, between⟩
  · rw [ending] at ran
    exact absurd isCause (refuses value between cause (congrArg Prod.fst ran))
  · rw [ending] at ran
    cases ran
    exact spares state cause after ending isCause
  · rw [ending] at ran
    cases ran

end Spares

end EarlyMemory.Operation

namespace EarlyMemory.Paged

open Operation (Maintains RefusesOnly)

variable {F G ε α : Type} {holds : Paged F → Prop} {allowed : ε → Prop}

/-! ## Machines and their sources -/

abbrev AtSource (holds : F → Prop) : Paged F → Prop :=
  fun paged => holds paged.source

theorem maintains_inspect {read : Memory → Except Fault α} :
    (inspect read : Operation (Paged F) ε α).Maintains holds := by
  intro paged before
  rw [run_inspect]
  cases read paged.memory with
  | ok value => exact before
  | error cause => exact before

theorem refusesOnly_inspect {read : Memory → Except Fault α} :
    (inspect read : Operation (Paged F) ε α).RefusesOnly allowed := by
  intro paged cause refused
  rw [run_inspect] at refused
  cases answer : read paged.memory <;> rw [answer] at refused <;> cases refused

/-- Whether a property stays true whatever is written to the memory. -/
def StandsWrites (holds : Paged F → Prop) : Prop :=
  ∀ paged memory, holds paged → holds ⟨⟨memory, paged.machine.history⟩, paged.source⟩

theorem standsWrites_atSource (holds : F → Prop) : StandsWrites (AtSource holds) :=
  fun _ _ before => before

theorem standsWrites_history (history : List VirtualAddress) :
    StandsWrites fun paged : Paged F => paged.machine.history = history :=
  fun _ _ before => before

theorem maintains_changeMemory (stands : StandsWrites holds) {change : Memory → Memory} :
    (changeMemory change : Operation (Paged F) ε Unit).Maintains holds :=
  fun paged before => stands paged (change paged.memory) before

theorem maintains_flush {addresses : List VirtualAddress} {holds : F → Prop} :
    (flush addresses : Operation (Paged F) ε Unit).Maintains (AtSource holds) :=
  fun _ before => before

theorem maintains_alter (stands : StandsWrites holds) {change : Memory → Except Fault Memory} :
    (alter change : Operation (Paged F) ε Unit).Maintains holds := by
  intro paged before
  rw [run_alter]
  cases change paged.memory with
  | ok changed => exact stands paged changed before
  | error cause => exact before

theorem refusesOnly_changeMemory {change : Memory → Memory} :
    (changeMemory change : Operation (Paged F) ε Unit).RefusesOnly allowed := by
  intro paged cause refused
  cases refused

theorem refusesOnly_alter {change : Memory → Except Fault Memory} :
    (alter change : Operation (Paged F) ε Unit).RefusesOnly allowed := by
  intro paged cause refused
  rw [run_alter] at refused
  cases answer : change paged.memory <;> rw [answer] at refused <;> cases refused

theorem maintains_onSource {operation : Operation F ε α} {holds : F → Prop}
    (maintains : operation.Maintains holds) : (onSource operation).Maintains (AtSource holds) :=
  fun paged before => maintains paged.source before

theorem refusesOnly_onSource {operation : Operation F ε α}
    (refuses : operation.RefusesOnly allowed) : (onSource operation).RefusesOnly allowed :=
  fun paged cause refused => refuses paged.source cause refused

theorem refusesOnly_onSecond {operation : Operation (Paged G) ε α}
    (refuses : operation.RefusesOnly allowed) :
    (onSecond operation : Operation (Paged (F × G)) ε α).RefusesOnly allowed :=
  fun paged cause refused => refuses paged.second cause refused

theorem maintains_lending {operation : Operation (Paged (F × G)) ε α} {second : G}
    (maintains : operation.Maintains fun paged => holds ⟨paged.machine, paged.source.1⟩) :
    (lending second operation).Maintains holds := by
  intro paged before
  rw [run_lending]
  rcases ending : operation.run ⟨paged.machine, (paged.source, second)⟩ with
    ⟨value | cause | cause, after⟩ <;>
    exact maintains.of_run before ending

theorem spares_lending {causes : ε → Prop} {operation : Operation (Paged (F × G)) ε α} {second : G}
    (spares : operation.Spares causes) : (lending second operation).Spares causes := by
  intro paged cause after ran isCause
  rw [run_lending] at ran
  rcases ending : operation.run ⟨paged.machine, (paged.source, second)⟩ with
    ⟨value | early | early, between⟩
  · rw [ending] at ran
    cases ran
  · rw [ending] at ran
    cases ran
    cases spares _ cause between ending isCause
    rfl
  · rw [ending] at ran
    cases ran

end EarlyMemory.Paged
