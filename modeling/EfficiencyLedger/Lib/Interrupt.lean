import Mathlib.Logic.Function.Basic

/-!
# Programs that can be cut short

A program makes calls to the outside, and goes on with what each of them reports. `run` lets at most
`n` of its calls complete: every `n` is one point at which the program can be cut. Where all calls
leave something alone, so does every cut run (`run_keeps`), and a cut of one program after another
falls in the one or the other (`run_bind`).
-/

universe u

namespace Interrupt

/-- A program that makes calls `ο`, is told `ε` by each, and returns a `ρ`. -/
inductive Program (ο ε ρ : Type u) where
  | done (r : ρ)
  | call (o : ο) (next : ε → Program ο ε ρ)

namespace Program

variable {ο ε ρ ρ' σ : Type u}

/-- One program after another. -/
def bind : Program ο ε ρ → (ρ → Program ο ε ρ') → Program ο ε ρ'
  | .done r, f => f r
  | .call o next, f => .call o fun e => (next e).bind f

/-- The run of a program of which at most `n` calls complete: what it returns and how many more calls
could have completed, unless it was cut, and the state it leaves. -/
def run (exec : ο → σ → ε × σ) : Nat → Program ο ε ρ → σ → Option (ρ × Nat) × σ
  | n, .done r, s => (some (r, n), s)
  | 0, .call _ _, s => (none, s)
  | n + 1, .call o next, s => run exec n (next (exec o s).1) (exec o s).2

variable {exec : ο → σ → ε × σ}

theorem run_done (n : Nat) (r : ρ) (s : σ) :
    run exec n (.done r : Program ο ε ρ) s = (some (r, n), s) := by
  cases n <;> rfl

theorem run_bind (p : Program ο ε ρ) (f : ρ → Program ο ε ρ') :
    ∀ (n : Nat) (s : σ), run exec n (p.bind f) s =
      match run exec n p s with
      | (none, s') => (none, s')
      | (some (r, m), s') => run exec m (f r) s' := by
  induction p with
  | done r =>
    intro n s
    rw [run_done]
    rfl
  | call o next ih =>
    intro n s
    cases n with
    | zero => rfl
    | succ n => exact ih (exec o s).1 n (exec o s).2

/-- Every call that the program can make has the property. -/
def OnlyCalls (P : ο → Prop) : Program ο ε ρ → Prop
  | .done _ => True
  | .call o next => P o ∧ ∀ e, (next e).OnlyCalls P

theorem run_keeps {α : Type u} (obs : σ → α) {P : ο → Prop}
    (hexec : ∀ o s, P o → obs (exec o s).2 = obs s) {p : Program ο ε ρ} (hp : p.OnlyCalls P) :
    ∀ (n : Nat) (s : σ), obs (run exec n p s).2 = obs s := by
  induction p with
  | done r =>
    intro n s
    rw [run_done]
  | call o next ih =>
    intro n s
    cases n with
    | zero => rfl
    | succ n => exact (ih (exec o s).1 (hp.2 _) n (exec o s).2).trans (hexec o s hp.1)

end Program

end Interrupt
