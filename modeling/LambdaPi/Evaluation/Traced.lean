import LambdaPi.Evaluation.Event

/-!
# Traced computations

Reduction need not end, so it is given a budget, and it leaves a trace of events behind. A traced
computation is its value, which is missing when the budget did not suffice, together with its trace.
The value of a composed computation depends on the values of its parts alone: `Traced.value_bind`.
-/

namespace LambdaPi

/-- Events in the order in which they happened. -/
inductive Trace where
  | nothing
  | event (e : Event)
  | andThen (first second : Trace)

namespace Trace

/-- One trace after another. -/
def append : Trace → Trace → Trace
  | nothing, t => t
  | t, nothing => t
  | t, u => andThen t u

/-- Go through the events in order. -/
def foldl {α : Type} (f : α → Event → α) (a : α) : Trace → α
  | nothing => a
  | event e => f a e
  | andThen t u => foldl f (foldl f a t) u

end Trace

/-- The outcome of a computation on a budget, and what happened. -/
structure Traced (α : Type) where
  value : Option α
  trace : Trace

namespace Traced

variable {α β : Type}

/-- Nothing happens. -/
def done (a : α) : Traced α :=
  ⟨some a, .nothing⟩

/-- One computation, then another that may use its value. -/
@[inline]
def andThen (x : Traced α) (f : α → Traced β) : Traced β :=
  match x.value with
  | none => ⟨none, x.trace⟩
  | some a =>
    let y := f a
    ⟨y.value, x.trace.append y.trace⟩

instance : Monad Traced where
  pure := done
  bind := andThen

/-- The budget is used up. -/
def exhausted : Traced α :=
  ⟨none, .nothing⟩

/-- An event happens. -/
def emit (e : Event) : Traced Unit :=
  ⟨some (), .event e⟩

@[simp] theorem value_pure (a : α) : (pure a : Traced α).value = some a := rfl

@[simp] theorem value_bind (x : Traced α) (f : α → Traced β) :
    (x >>= f).value = x.value.bind fun a => (f a).value := by
  show (andThen x f).value = _
  unfold andThen
  cases x.value <;> rfl

@[simp] theorem value_exhausted : (exhausted : Traced α).value = none := rfl

@[simp] theorem value_emit (e : Event) : (emit e).value = some () := rfl

end Traced

end LambdaPi
