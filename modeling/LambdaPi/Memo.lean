/-!
# Values worked out once

A memo holds the values of a function at consecutive numbers. Each value, and each further entry, is
worked out when it is first asked for and then kept, so a memo costs nothing where it is not used.
What is found in a memo is what the function would have answered: `Memo.get?_ofFn_getD`.
-/

namespace LambdaPi

/-- Values at consecutive numbers. -/
inductive Memo (α : Type) where
  | stop
  | entry (value : Thunk α) (rest : Thunk (Memo α))

namespace Memo

variable {α : Type}

/-- The values of a function at `size` numbers, from `start` on. -/
def ofFn (f : Nat → α) (start : Nat) : (size : Nat) → Memo α
  | 0 => stop
  | size + 1 => entry (.mk fun _ => f start) (.mk fun _ => ofFn f (start + 1) size)

/-- The value `i` places after the start. -/
def get? : Memo α → (i : Nat) → Option α
  | stop, _ => none
  | entry value _, 0 => some value.get
  | entry _ rest, i + 1 => rest.get.get? i

theorem get?_ofFn_getD (f : Nat → α) (start size i : Nat) :
    ((ofFn f start size).get? i).getD (f (start + i)) = f (start + i) := by
  induction size generalizing start i with
  | zero => rw [ofFn, get?]; rfl
  | succ size ih =>
    cases i with
    | zero => rfl
    | succ i =>
      have := ih (start + 1) i
      rwa [show start + 1 + i = start + (i + 1) by omega] at this

end Memo

end LambdaPi
