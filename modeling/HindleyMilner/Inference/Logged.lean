import HindleyMilner.Inference.Event

/-! Computations that report events and may fail. What was reported before a
failure is kept. -/
namespace HindleyMilner

/-- A result with the events on the way to it. -/
structure Logged (L : Language) (α : Type) where
  events : List (Event L)
  result : Except TypeError α

namespace Logged

variable {L : Language} {α β : Type}

/-- Go on with a result, or stop at a failure. -/
def bind (m : Logged L α) (f : α → Logged L β) : Logged L β :=
  match m.result with
  | .ok a => ⟨m.events ++ (f a).events, (f a).result⟩
  | .error e => ⟨m.events, .error e⟩

instance : Monad (Logged L) where
  pure a := ⟨[], .ok a⟩
  bind := bind

def report (e : Event L) : Logged L Unit := ⟨[e], .ok ()⟩

def ofExcept (r : Except TypeError α) : Logged L α := ⟨[], r⟩

@[simp]
theorem result_pure (a : α) : (pure a : Logged L α).result = .ok a := rfl

@[simp]
theorem result_report (e : Event L) : (report e).result = .ok () := rfl

@[simp]
theorem result_ofExcept (r : Except TypeError α) : (ofExcept r : Logged L α).result = r := rfl

/-- Results do not depend on events. -/
@[simp]
theorem result_bind (m : Logged L α) (f : α → Logged L β) :
    (m >>= f).result = m.result >>= fun a => (f a).result := by
  show (m.bind f).result = _
  unfold bind
  cases m.result <;> rfl

end Logged

end HindleyMilner
