import Mathlib.Data.List.Basic

/-!
# State computations that keep their state on failure

`EStateM ε σ` is the monad of code that mutates an object in place and may return early with an
error: what was written before the failure stays written. `EStateM.Result.state` is the state on either
exit, and each way of composing such code has an equation for what it does to a state.
-/

universe u

namespace EStateM

variable {ε σ α β : Type u}

/-- The state a run ends in, on either exit. -/
@[simp] def Result.state : EStateM.Result ε σ α → σ
  | .ok _ s => s
  | .error _ s => s

/-- Whether a run returns without an error. -/
@[simp] def Result.isOk : EStateM.Result ε σ α → Bool
  | .ok _ _ => true
  | .error _ _ => false

theorem Result.eq_ok_of_isOk {r : EStateM.Result ε σ PUnit} (h : r.isOk = true) :
    r = .ok ⟨⟩ r.state := by
  cases r with
  | ok u s => rfl
  | error e s => cases h

theorem bind_apply (m : EStateM ε σ α) (f : α → EStateM ε σ β) (s : σ) :
    (m >>= f) s = match m s with
      | .ok a s' => f a s'
      | .error e s' => .error e s' := rfl

@[simp] theorem get_apply (s : σ) : (get : EStateM ε σ σ) s = .ok s s := rfl

@[simp] theorem set_apply (s s' : σ) : (set s' : EStateM ε σ PUnit) s = .ok ⟨⟩ s' := rfl

theorem bind_of_ok {m : EStateM ε σ α} {f : α → EStateM ε σ β} {s s' : σ} {a : α}
    (h : m s = .ok a s') : (m >>= f) s = f a s' := by
  rw [bind_apply, h]

theorem bind_of_error {m : EStateM ε σ α} {f : α → EStateM ε σ β} {s s' : σ} {e : ε}
    (h : m s = .error e s') : (m >>= f) s = .error e s' := by
  rw [bind_apply, h]

theorem forM_cons_apply {ι : Type u} (x : ι) (l : List ι) (f : ι → EStateM ε σ PUnit) (s : σ) :
    (x :: l).forM f s = (f x >>= fun _ => l.forM f) s := rfl

end EStateM
