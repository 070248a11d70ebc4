/-! Programs that ask an environment.

The environment answers each request by everything asked and answered before, so
it may be any stateful or unreliable thing. A program gives back its result
together with its own exchanges. `Ensures` states what holds when it is done;
its rules follow the program.
-/

set_option autoImplicit false

namespace Simuless.Foundation

/-- Requests with their answers, oldest first. -/
abbrev Exchanges (Request Answer : Type) := List (Request × Answer)

abbrev Environment (Request Answer : Type) := Exchanges Request Answer → Request → Answer

def Dialogue (Request Answer Result : Type) :=
  Exchanges Request Answer → Result × Exchanges Request Answer

variable {Request Answer Result Next : Type}

namespace Dialogue

instance : Monad (Dialogue Request Answer) where
  pure result _ := (result, [])
  bind first next history :=
    let (result, asked) := first history
    let (final, more) := next result (history ++ asked)
    (final, asked ++ more)

def ask (environment : Environment Request Answer) (request : Request) :
    Dialogue Request Answer Answer := fun history =>
  (environment history request, [(request, environment history request)])

/-- The result after a history of exchanges. -/
def result (program : Dialogue Request Answer Result) (history : Exchanges Request Answer) : Result :=
  (program history).1

/-- The program's own exchanges. -/
def asked (program : Dialogue Request Answer Result) (history : Exchanges Request Answer) :
    Exchanges Request Answer := (program history).2

/-- The history when the program is done. -/
def after (program : Dialogue Request Answer Result) (history : Exchanges Request Answer) :
    Exchanges Request Answer := history ++ (program history).2

def Ensures (program : Dialogue Request Answer Result) (history : Exchanges Request Answer)
    (post : Result → Exchanges Request Answer → Prop) : Prop :=
  post (program.result history) (program.after history)

variable {program : Dialogue Request Answer Result} {history : Exchanges Request Answer}

section
variable (result : Result) (environment : Environment Request Answer) (request : Request)
  (next : Result → Dialogue Request Answer Next)

@[simp] theorem result_pure :
    (pure result : Dialogue Request Answer Result).result history = result := rfl

@[simp] theorem after_pure :
    (pure result : Dialogue Request Answer Result).after history = history := List.append_nil _

@[simp] theorem asked_pure :
    (pure result : Dialogue Request Answer Result).asked history = [] := rfl

@[simp] theorem result_ask : (ask environment request).result history = environment history request :=
  rfl

@[simp] theorem asked_ask :
    (ask environment request).asked history = [(request, environment history request)] := rfl

@[simp] theorem after_ask :
    (ask environment request).after history = history ++ [(request, environment history request)] :=
  rfl

@[simp] theorem result_bind : (program >>= next).result history =
    (next (program.result history)).result (program.after history) := rfl

@[simp] theorem asked_bind : (program >>= next).asked history =
    program.asked history ++ (next (program.result history)).asked (program.after history) := rfl

@[simp] theorem after_bind : (program >>= next).after history =
    (next (program.result history)).after (program.after history) :=
  (List.append_assoc _ _ _).symm

variable (change : Result → Next)

@[simp] theorem result_map : (change <$> program).result history = change (program.result history) := rfl

@[simp] theorem asked_map : (change <$> program).asked history = program.asked history :=
  List.append_nil _

@[simp] theorem after_map : (change <$> program).after history = program.after history :=
  congrArg (history ++ ·) (asked_map change)

end

/-- Programs are the same if they always agree on the result and the exchanges. -/
theorem ext {other : Dialogue Request Answer Result}
    (results : ∀ history, program.result history = other.result history)
    (exchanges : ∀ history, program.asked history = other.asked history) : program = other :=
  funext fun history => Prod.ext (results history) (exchanges history)

instance : LawfulMonad (Dialogue Request Answer) := by
  refine LawfulMonad.mk' _ ?id_map ?pure_bind ?bind_assoc
  case id_map =>
    intro _ program
    apply ext
    · intro history
      rfl
    · intro history
      exact List.append_nil _
  case pure_bind =>
    intro _ _ result next
    apply ext <;> intro history <;> simp
  case bind_assoc =>
    intro _ _ _ program next last
    apply ext <;> intro history <;> simp

namespace Ensures

variable {post : Result → Exchanges Request Answer → Prop}

theorem done {result : Result} (holds : post result history) :
    Ensures (pure result : Dialogue Request Answer Result) history post := by
  rw [Ensures, after_pure]
  exact holds

theorem next {rest : Result → Dialogue Request Answer Next}
    {goal : Next → Exchanges Request Answer → Prop}
    (first : Ensures program history fun result later => Ensures (rest result) later goal) :
    Ensures (program >>= rest) history goal := by
  rw [Ensures, after_bind]
  exact first

/-- What the first part ensures is what the rest starts from. -/
theorem follow {rest : Result → Dialogue Request Answer Next}
    {goal : Next → Exchanges Request Answer → Prop} (first : Ensures program history post)
    (then_rest : ∀ result later, post result later → Ensures (rest result) later goal) :
    Ensures (program >>= rest) history goal :=
  next (then_rest _ _ first)

theorem check {condition : Prop} [Decidable condition] {early rest : Dialogue Request Answer Result}
    (fails : condition → Ensures early history post)
    (passes : ¬ condition → Ensures rest history post) :
    Ensures (if condition then early else rest) history post := by
  by_cases held : condition
  · rw [if_pos held]
    exact fails held
  · rw [if_neg held]
    exact passes held

theorem imp {weaker : Result → Exchanges Request Answer → Prop}
    (ensures : Ensures program history post)
    (weaken : ∀ result later, post result later → weaker result later) :
    Ensures program history weaker :=
  weaken _ _ ensures

end Ensures

end Dialogue

end Simuless.Foundation
