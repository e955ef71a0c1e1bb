import Mathlib.Init

/-!
# Lazy coroutines (`infra/task.h`)

The call of a coroutine returns a `folly::coro::Task` that holds the arguments. The body runs when
the `Task` is awaited; a `Task` that nobody awaits is destroyed before its body has begun.
-/

namespace QStorage.Infra

/-- The body runs to its `co_return` on the state it works on, or gives `none` while it has to
wait. -/
structure Task (σ : Type) where
  body : σ → Option σ

namespace Task

variable {σ : Type}

def co_await (task : Task σ) (s : σ) : Option σ := task.body s

/-- The `Task` is a temporary that the caller drops. -/
def discard (_ : Task σ) (s : σ) : σ := s

end Task

end QStorage.Infra
