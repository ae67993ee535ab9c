import Mathlib.Logic.Function.Basic
import Mathlib.Tactic.SplitIfs

/-!
# Runs of labelled transition systems

A system is a set of initial states and a labelled step relation. The labels name who moves and
how, so a condition on steps (`guard`) can speak about them.

* `Reachable.invariant`: what holds initially and is kept by every step holds in every reachable
  state.
* `guard`: the system with the steps that meet a condition only. Its reachable states are the
  ends of the runs all of whose steps meet it.
* `ReachedWith`: the state after a run with the number of its steps that are bad. What a run
  conserves up to that number is an invariant of both (`ReachedWith.invariant`); no bad step is the
  guarded system (`reachedWith_zero_iff`).
* `Run.of_foldlM`, `System.run_followed`: a run by execution, for concrete ones.
* `ofFun`: a deterministic system, whose runs are left folds.
-/

namespace Lts

universe u v

/-- Initial states and labelled steps. -/
structure System (σ : Type u) (ι : Type v) where
  init : σ → Prop
  step : σ → ι → σ → Prop

variable {σ : Type u} {ι : Type v}

/-- `Run step s ls t`: the labels `ls` lead from `s` to `t`. -/
inductive Run (step : σ → ι → σ → Prop) : σ → List ι → σ → Prop
  | nil (s : σ) : Run step s [] s
  | cons {s t u : σ} {l : ι} {ls : List ι} : step s l t → Run step t ls u → Run step s (l :: ls) u

theorem Run.invariant {step : σ → ι → σ → Prop} {I : σ → Prop}
    (hstep : ∀ s l t, I s → step s l t → I t) {s t : σ} {ls : List ι} (h : Run step s ls t)
    (hs : I s) : I t := by
  induction h with
  | nil => exact hs
  | cons hl _ ih => exact ih (hstep _ _ _ hs hl)

theorem Run.append {step : σ → ι → σ → Prop} {s t u : σ} {ls ms : List ι}
    (h : Run step s ls t) (h' : Run step t ms u) : Run step s (ls ++ ms) u := by
  induction h with
  | nil => exact h'
  | cons hl _ ih => exact .cons hl (ih h')

theorem Run.imp {step step' : σ → ι → σ → Prop} (hstep : ∀ s l t, step s l t → step' s l t)
    {s t : σ} {ls : List ι} (h : Run step s ls t) : Run step' s ls t := by
  induction h with
  | nil s => exact .nil s
  | cons hl _ ih => exact .cons (hstep _ _ _ hl) ih

/-- A run found by executing: each step the function takes is one of the relation's. -/
theorem Run.of_foldlM {step : σ → ι → σ → Prop} {f : σ → ι → Option σ}
    (hf : ∀ s l t, f s l = some t → step s l t) {s t : σ} {ls : List ι}
    (h : ls.foldlM f s = some t) : Run step s ls t := by
  induction ls generalizing s with
  | nil =>
    obtain rfl := Option.some.inj h
    exact .nil s
  | cons l ls ih =>
    rw [List.foldlM_cons] at h
    obtain ⟨u, hu, hrest⟩ := Option.bind_eq_some_iff.1 h
    exact .cons (hf s l u hu) (ih hrest)

namespace System

/-- The states a run leads to from an initial one. -/
def Reachable (S : System σ ι) (t : σ) : Prop := ∃ s ls, S.init s ∧ Run S.step s ls t

variable {S : System σ ι}

theorem Reachable.of_init {s : σ} (h : S.init s) : S.Reachable s := ⟨s, [], h, .nil s⟩

theorem Reachable.step {s t : σ} {l : ι} (h : S.Reachable s) (hl : S.step s l t) :
    S.Reachable t := by
  obtain ⟨s₀, ls, hinit, hrun⟩ := h
  exact ⟨s₀, ls ++ [l], hinit, hrun.append (.cons hl (.nil t))⟩

/-- **The invariant rule.** -/
theorem Reachable.invariant {I : σ → Prop} (hinit : ∀ s, S.init s → I s)
    (hstep : ∀ s l t, I s → S.step s l t → I t) {s : σ} (h : S.Reachable s) : I s := by
  obtain ⟨s₀, ls, h₀, hrun⟩ := h
  exact hrun.invariant hstep (hinit s₀ h₀)

/-- The system that takes only the steps that meet `ok`. -/
def guard (S : System σ ι) (ok : σ → ι → Prop) : System σ ι where
  init := S.init
  step s l t := S.step s l t ∧ ok s l

/-- The states a run leads to from an initial one, with the number of steps in it that are bad. -/
inductive ReachedWith (S : System σ ι) (bad : σ → ι → Prop) : Nat → σ → Prop
  | init {s : σ} : S.init s → ReachedWith S bad 0 s
  | good {n : Nat} {s t : σ} {l : ι} :
      ReachedWith S bad n s → S.step s l t → ¬ bad s l → ReachedWith S bad n t
  | bad {n : Nat} {s t : σ} {l : ι} :
      ReachedWith S bad n s → S.step s l t → bad s l → ReachedWith S bad (n + 1) t

section Bad

variable {bad : σ → ι → Prop}

/-- **The conservation rule.** -/
theorem ReachedWith.invariant {I : Nat → σ → Prop} (hinit : ∀ s, S.init s → I 0 s)
    (hgood : ∀ n s l t, I n s → S.step s l t → ¬ bad s l → I n t)
    (hbad : ∀ n s l t, I n s → S.step s l t → bad s l → I (n + 1) t) {n : Nat} {s : σ}
    (h : S.ReachedWith bad n s) : I n s := by
  induction h with
  | init hs => exact hinit _ hs
  | good _ hl hok ih => exact hgood _ _ _ _ ih hl hok
  | bad _ hl hno ih => exact hbad _ _ _ _ ih hl hno

/-- Every reachable state is reached with some number of bad steps. -/
theorem reachable_iff_reachedWith {s : σ} : S.Reachable s ↔ ∃ n, S.ReachedWith bad n s := by
  constructor
  · intro h
    apply h.invariant (I := fun t => ∃ n, S.ReachedWith bad n t)
    · exact fun s hs => ⟨0, .init hs⟩
    · intro s l t hs hl
      obtain ⟨n, hn⟩ := hs
      by_cases hb : bad s l
      · exact ⟨n + 1, .bad hn hl hb⟩
      · exact ⟨n, .good hn hl hb⟩
  · intro h
    obtain ⟨n, hn⟩ := h
    exact hn.invariant (I := fun _ t => S.Reachable t) (fun s hs => .of_init hs)
      (fun _ s l t hs hl _ => hs.step hl) (fun _ s l t hs hl _ => hs.step hl)

/-- No bad step: a run of the guarded system. -/
theorem reachedWith_zero_iff {s : σ} :
    S.ReachedWith bad 0 s ↔ (S.guard fun s l => ¬ bad s l).Reachable s := by
  constructor
  · intro h
    refine h.invariant (I := fun n t => n = 0 → (S.guard fun s l => ¬ bad s l).Reachable t)
      ?_ ?_ ?_ rfl
    · exact fun s hs _ => .of_init hs
    · exact fun n s l t hs hl hok hn => (hs hn).step ⟨hl, hok⟩
    · exact fun n s l t _ _ _ hn => absurd hn (Nat.succ_ne_zero n)
  · intro h
    refine Reachable.invariant (S := S.guard fun s l => ¬ bad s l)
      (I := fun t => S.ReachedWith bad 0 t) (fun s hs => .init hs) ?_ h
    intro s l t hs hl
    exact .good hs hl.1 hl.2

end Bad

/-- Take the steps of a function that meet a condition. -/
def follow (f : σ → ι → Option σ) (ok : σ → ι → Bool) (s : σ) (ls : List ι) : Option σ :=
  ls.foldlM (fun s l => if ok s l then f s l else none) s

/-- Where that leads. -/
def followed (f : σ → ι → Option σ) (ok : σ → ι → Bool) (s : σ) (ls : List ι) : σ :=
  (follow f ok s ls).getD s

/-- What is followed is a run, with all its steps meeting what the condition checks. -/
theorem run_followed {f : σ → ι → Option σ} {ok : σ → ι → Bool} {P : σ → ι → Prop}
    (hf : ∀ s l t, f s l = some t → S.step s l t) (hP : ∀ s l, ok s l → P s l) {s : σ}
    {ls : List ι} (h : (follow f ok s ls).isSome) :
    Run (S.guard P).step s ls (followed f ok s ls) := by
  refine .of_foldlM (f := fun s l => if ok s l then f s l else none) (?_) ?_
  · intro s₁ l s₂ hstep
    split_ifs at hstep with hok
    exact ⟨hf s₁ l s₂ hstep, hP s₁ l hok⟩
  · obtain ⟨t, ht⟩ := Option.isSome_iff_exists.1 h
    rw [followed, ht]
    exact ht

/-- The same without a condition. -/
theorem run_followed_all {f : σ → ι → Option σ} (hf : ∀ s l t, f s l = some t → S.step s l t)
    {s : σ} {ls : List ι} (h : (follow f (fun _ _ => true) s ls).isSome) :
    Run S.step s ls (followed f (fun _ _ => true) s ls) :=
  (run_followed (P := fun _ _ => True) hf (fun _ _ _ => trivial) h).imp fun _ _ _ hstep => hstep.1

/-- The deterministic system of a transition function. -/
def ofFun (init : σ → Prop) (f : σ → ι → σ) : System σ ι where
  init := init
  step s l t := f s l = t

end System

end Lts
