import Mathlib.Data.List.Basic

/-!
# Calls that interleave

Methods that read and write fields of a shared struct under no lock, called on several goroutines
at once. A call is at a program point; any call may take its next step, as `step` says, which may
depend on an answer from outside (what a collaborator returns), chosen by the schedule:

* `Calls` : the shared fields and the program point of each call in progress;
* `Calls.next`, `Calls.run` : one step of call `i`, and the steps of a schedule in order;
  `Calls.run_append`, `Calls.run_append_of` : a schedule run in two parts;
* `Calls.Keeps`, `Calls.run_holds` : a property `G` of the shared fields and `L` of each call's
  program point that every step keeps (for the call stepping, and for the others as they were)
  holds after every run;
* `Calls.next_eq`, `Calls.exists_violation` : what a step does, and the first step of a run that
  breaks a property the run began with;
* `Calls.alone`, `Calls.run_alone` : a call stepped with no other call between its steps.
-/

namespace Ethcore

/-- The shared fields and the program point of each call in progress. -/
structure Calls (σ π : Type) where
  shared : σ
  calls : List π

namespace Calls

variable {σ π α : Type} (step : σ → π → α → Option (σ × π))

/-- Call `i` takes its step, `ans` answering what it asks outside. -/
def next (s : Calls σ π) (i : Nat) (ans : α) : Option (Calls σ π) :=
  match s.calls[i]? with
  | some pc => (step s.shared pc ans).map fun (e, pc') => ⟨e, s.calls.set i pc'⟩
  | none => none

/-- The steps of `sched` one after another: which call steps, and the answer it gets. -/
def run (s : Calls σ π) : List (Nat × α) → Option (Calls σ π)
  | [] => some s
  | (i, ans) :: sched => (next step s i ans).bind (run · sched)

theorem run_append (s : Calls σ π) (l₁ l₂ : List (Nat × α)) :
    run step s (l₁ ++ l₂) = (run step s l₁).bind (run step · l₂) := by
  induction l₁ generalizing s with
  | nil => rfl
  | cons st l₁ ih =>
    obtain ⟨i, ans⟩ := st
    show (next step s i ans).bind _ = ((next step s i ans).bind _).bind _
    cases next step s i ans with
    | none => rfl
    | some t => exact ih t

theorem run_append_of {s t : Calls σ π} {l₁ : List (Nat × α)} (h : run step s l₁ = some t)
    (l₂ : List (Nat × α)) : run step s (l₁ ++ l₂) = run step t l₂ := by
  rw [run_append, h, Option.some_bind]

theorem next_eq {s s' : Calls σ π} {i : Nat} {a : α} (h : next step s i a = some s') :
    ∃ pc e' pc', s.calls[i]? = some pc ∧ step s.shared pc a = some (e', pc') ∧
      s' = ⟨e', s.calls.set i pc'⟩ := by
  unfold next at h
  cases hi : s.calls[i]? with
  | none => rw [hi] at h; cases h
  | some pc =>
    rw [hi] at h
    obtain ⟨⟨e', pc'⟩, hst, rfl⟩ := Option.map_eq_some'.1 h
    exact ⟨pc, e', pc', rfl, hst, rfl⟩

theorem getElem?_set_cases {l : List π} {i j : Nat} {a b : π} (h : (l.set j a)[i]? = some b) :
    (i = j ∧ a = b) ∨ (i ≠ j ∧ l[i]? = some b) := by
  rw [List.getElem?_set] at h
  split_ifs at h with h₁ h₂
  · exact .inl ⟨h₁.symm, Option.some.inj h⟩
  · exact .inr ⟨Ne.symm h₁, h⟩

theorem getElem?_of_set {l : List π} {i j : Nat} {a b : π} (h : (l.set j a)[i]? = some b)
    (hab : a ≠ b) : l[i]? = some b :=
  (getElem?_set_cases h).elim (fun h => absurd h.2 hab) And.right

/-- The first step of a run that breaks a property of the calls. -/
theorem exists_violation (Q : Calls σ π → Prop) : ∀ {s s' : Calls σ π} {sched : List (Nat × α)},
    run step s sched = some s' → Q s → ¬Q s' →
    ∃ pre j a post t t', sched = pre ++ (j, a) :: post ∧ run step s pre = some t ∧ Q t ∧
      next step t j a = some t' ∧ ¬Q t'
  | s, s', [], h, hs, hs' => by cases h; exact absurd hs hs'
  | s, s', (j, a) :: sched, h, hs, hs' => by
    obtain ⟨t₁, h₁, h₂⟩ := Option.bind_eq_some.1 h
    by_cases hq : Q t₁
    · obtain ⟨pre, j', a', post, t, t', rfl, hpre, hQ, hn, hQ'⟩ := exists_violation Q h₂ hq hs'
      exact ⟨(j, a) :: pre, j', a', post, t, t', rfl, by rw [run, h₁, Option.some_bind, hpre], hQ,
        hn, hQ'⟩
    · exact ⟨[], j, a, sched, s, t₁, rfl, rfl, hs, h₁, hq⟩

/-- The steps of one call, answered by `as`, with no other call stepping. -/
def alone (e : σ) (pc : π) : List α → Option (σ × π)
  | [] => some (e, pc)
  | a :: as => (step e pc a).bind fun (e', pc') => alone e' pc' as

/-- A call stepped with no other between its steps takes them `alone`, wherever it sits. -/
theorem run_alone (pre post : List π) : ∀ (e : σ) (pc : π) (as : List α),
    run step ⟨e, pre ++ pc :: post⟩ (as.map (pre.length, ·)) =
      (alone step e pc as).map fun (e', pc') => ⟨e', pre ++ pc' :: post⟩
  | e, pc, [] => rfl
  | e, pc, a :: as => by
    have hnext : next step ⟨e, pre ++ pc :: post⟩ pre.length a =
        (step e pc a).map fun (e', pc') => ⟨e', pre ++ pc' :: post⟩ := by
      simp only [next, List.getElem?_append_right (le_refl _), Nat.sub_self, List.getElem?_cons_zero,
        List.set_append_right _ _ (le_refl _), List.set_cons_zero]
    simp only [List.map_cons, run, hnext, alone]
    cases step e pc a with
    | none => rfl
    | some r => exact run_alone pre post r.1 r.2 as

section Keeps

variable (G : σ → Prop) (L : σ → π → Prop)

/-- Every step keeps `G` of the shared fields and `L` of every call. -/
def Keeps : Prop :=
  ∀ e pc ans e' pc', G e → L e pc → step e pc ans = some (e', pc') →
    G e' ∧ L e' pc' ∧ ∀ q, L e q → L e' q

structure Holds (s : Calls σ π) : Prop where
  shared_ok : G s.shared
  calls_ok : ∀ q ∈ s.calls, L s.shared q

variable {step G L}

theorem next_holds (hk : Keeps step G L) {s s' : Calls σ π} {i : Nat} {ans : α}
    (hs : Holds G L s) (h : next step s i ans = some s') : Holds G L s' := by
  unfold next at h
  cases hi : s.calls[i]? with
  | none => rw [hi] at h; cases h
  | some pc =>
    rw [hi] at h
    dsimp only at h
    cases hst : step s.shared pc ans with
    | none => rw [hst] at h; cases h
    | some r =>
      obtain ⟨e', pc'⟩ := r
      rw [hst] at h; cases h
      obtain ⟨hG, hL, hothers⟩ := hk _ _ _ _ _ hs.shared_ok (hs.calls_ok pc (List.getElem?_mem hi)) hst
      refine ⟨hG, fun q hq => ?_⟩
      rcases List.mem_or_eq_of_mem_set hq with hq | rfl
      · exact hothers q (hs.calls_ok q hq)
      · exact hL

theorem run_holds (hk : Keeps step G L) {s s' : Calls σ π} {sched : List (Nat × α)}
    (hs : Holds G L s) (h : run step s sched = some s') : Holds G L s' := by
  induction sched generalizing s with
  | nil => cases h; exact hs
  | cons st sched ih =>
    obtain ⟨i, ans⟩ := st
    cases hn : next step s i ans with
    | none => rw [run, hn] at h; cases h
    | some t => rw [run, hn] at h; exact ih (next_holds hk hs hn) h

end Keeps

end Calls

end Ethcore
