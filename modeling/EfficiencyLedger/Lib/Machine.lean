import EfficiencyLedger.Lib.Effect

/-!
# Runs with a condition on every step

A machine takes one step for each input. `RunMeets C` says of a run that each of its steps meets the
condition `C` in the state it starts from; an invariant that every such step keeps holds after the
run (`run_invariant`). Where the steps have an output, a simulation keeps it (`trace_simulates`).
`CallsMeet` and `forM_invariant` are the same for the calls of a loop that stops at the first error.
-/

universe u

namespace Machine

variable {σ ι : Type u} (step : σ → ι → σ)

/-- The state after a list of inputs. -/
def run (s : σ) (is : List ι) : σ := is.foldl step s

/-- Every step of the run meets the condition. -/
def RunMeets (C : σ → ι → Prop) : σ → List ι → Prop
  | _, [] => True
  | s, i :: is => C s i ∧ RunMeets C (step s i) is

theorem run_append (s : σ) (is js : List ι) :
    run step s (is ++ js) = run step (run step s is) js := by
  unfold run
  rw [List.foldl_append]

variable {step}

theorem run_invariant {P : σ → Prop} {C : σ → ι → Prop}
    (hstep : ∀ s i, P s → C s i → P (step s i)) {is : List ι} :
    ∀ {s : σ}, P s → RunMeets step C s is → P (run step s is) := by
  induction is with
  | nil => exact fun hs _ => hs
  | cons i is ih =>
    intro s hs hC
    exact ih (hstep s i hs hC.1) hC.2

theorem RunMeets.of_invariant {P : σ → Prop} {C D : σ → ι → Prop}
    (hstep : ∀ s i, P s → C s i → P (step s i)) (h : ∀ s i, P s → C s i → D s i) {is : List ι} :
    ∀ {s : σ}, P s → RunMeets step C s is → RunMeets step D s is := by
  induction is with
  | nil => exact fun _ _ => trivial
  | cons i is ih =>
    intro s hs hC
    exact ⟨h s i hs hC.1, ih (hstep s i hs hC.1) hC.2⟩

/-- What the steps of a run put out, and the state after it. -/
def trace {α : Type u} (step : σ → ι → α × σ) : σ → List ι → List α × σ
  | s, [] => ([], s)
  | s, i :: is =>
    let rest := trace step (step s i).2 is
    ((step s i).1 :: rest.1, rest.2)

/-- **Simulation**: a machine that does to the image of a state what another does to the state, puts out
the same in every run and ends in the image. -/
theorem trace_simulates {τ α : Type u} {step : σ → ι → α × σ} {step' : τ → ι → α × τ} {f : σ → τ}
    (h : ∀ s i, step' (f s) i = ((step s i).1, f (step s i).2)) (is : List ι) :
    ∀ s, trace step' (f s) is = ((trace step s is).1, f (trace step s is).2) := by
  induction is with
  | nil => exact fun _ => rfl
  | cons i is ih =>
    intro s
    simp only [trace, h, ih]

theorem runMeets_of_all {C : σ → ι → Prop} (h : ∀ s i, C s i) (is : List ι) :
    ∀ s, RunMeets step C s is := by
  induction is with
  | nil => exact fun _ => trivial
  | cons i is ih => exact fun s => ⟨h s i, ih _⟩

end Machine

namespace EStateM

variable {ε σ ι : Type u} {f : ι → EStateM ε σ PUnit}

/-- Every call that the loop over `l` makes meets the condition in the state it starts from. -/
def CallsMeet (f : ι → EStateM ε σ PUnit) (C : σ → ι → Prop) : List ι → σ → Prop
  | [], _ => True
  | x :: l, s => C s x ∧ ∀ s', f x s = .ok ⟨⟩ s' → CallsMeet f C l s'

theorem forM_invariant {P : σ → Prop} {C : σ → ι → Prop}
    (hcall : ∀ s x, P s → C s x → P (f x s).state) {l : List ι} :
    ∀ {s : σ}, P s → CallsMeet f C l s → P (l.forM f s).state := by
  induction l with
  | nil => exact fun hs _ => hs
  | cons x l ih =>
    intro s hs hC
    have hx := hcall s x hs hC.1
    rw [forM_cons_apply, bind_apply]
    cases hr : f x s with
    | ok u s' =>
      rw [hr] at hx
      exact ih hx (hC.2 s' hr)
    | error e s' =>
      rw [hr] at hx
      exact hx

theorem callsMeet_of_all {C : σ → ι → Prop} (h : ∀ s x, C s x) (l : List ι) :
    ∀ s, CallsMeet f C l s := by
  induction l with
  | nil => exact fun _ => trivial
  | cons x l ih => exact fun s => ⟨h s x, fun s' _ => ih s'⟩

theorem callsMeet_of_forall_mem {C : ι → Prop} {l : List ι} (h : ∀ x ∈ l, C x) :
    ∀ s, CallsMeet f (fun _ x => C x) l s := by
  induction l with
  | nil => exact fun _ => trivial
  | cons x l ih =>
    exact fun s => ⟨h x List.mem_cons_self, fun s' _ => ih (fun y hy => h y (by simp [hy])) s'⟩

theorem CallsMeet.of_invariant {P : σ → Prop} {C D : σ → ι → Prop}
    (hcall : ∀ s x, P s → C s x → P (f x s).state) (h : ∀ s x, P s → C s x → D s x) {l : List ι} :
    ∀ {s : σ}, P s → CallsMeet f C l s → CallsMeet f D l s := by
  induction l with
  | nil => exact fun _ _ => trivial
  | cons x l ih =>
    intro s hs hC
    refine ⟨h s x hs hC.1, fun s' hs' => ih ?_ (hC.2 s' hs')⟩
    have hnext := hcall s x hs hC.1
    rwa [hs'] at hnext

theorem forM_ok_cons {x : ι} {l : List ι} {s t : σ} :
    (x :: l).forM f s = .ok ⟨⟩ t ↔ ∃ s', f x s = .ok ⟨⟩ s' ∧ l.forM f s' = .ok ⟨⟩ t := by
  rw [forM_cons_apply, bind_apply]
  cases f x s with
  | ok u s' =>
    constructor
    · exact fun h => ⟨s', rfl, h⟩
    · rintro ⟨s'', hs, h⟩
      cases hs
      exact h
  | error e s' =>
    constructor
    · intro h
      cases h
    · rintro ⟨s'', hs, h⟩
      cases hs

theorem forM_ok_append {l l' : List ι} : ∀ {s t : σ},
    (l ++ l').forM f s = .ok ⟨⟩ t ↔ ∃ s', l.forM f s = .ok ⟨⟩ s' ∧ l'.forM f s' = .ok ⟨⟩ t := by
  induction l with
  | nil =>
    intro s t
    constructor
    · exact fun h => ⟨s, rfl, h⟩
    · rintro ⟨s', hs, h⟩
      cases hs
      exact h
  | cons x l ih =>
    intro s t
    rw [List.cons_append, forM_ok_cons]
    constructor
    · rintro ⟨s₁, hx, h⟩
      obtain ⟨s₂, hl, h⟩ := ih.mp h
      exact ⟨s₂, forM_ok_cons.mpr ⟨s₁, hx, hl⟩, h⟩
    · rintro ⟨s₂, hl, h⟩
      obtain ⟨s₁, hx, hl⟩ := forM_ok_cons.mp hl
      exact ⟨s₁, hx, ih.mpr ⟨s₂, hl, h⟩⟩

end EStateM
