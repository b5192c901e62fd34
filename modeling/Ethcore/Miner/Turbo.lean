import Ethcore.Interleaving

/-!
# `ToggleTurbo`: the miner's effort flag

`Miner.ToggleTurbo` (lines 261-265) flips `turbo` and passes the field, read again, to the
proof-of-work engine's `Turbo`. Nothing locks `turbo`, and `ToggleTurbo` is exposed to callers
outside the miner, so calls on different goroutines interleave their reads and writes:

* `TurboState.toggleTurbo` : a call as the code reads, alone;
* `TurboPc`, `TurboState.step` : a call as its reads and writes of the field and its call of the
  engine, run as `Calls`; `run_toggleTurbo_alone`, `run_serialSched` : calls stepped one at a time
  compute `toggleTurbo`;
* `Flips`, `FreshArg` : every write so far has flipped `turbo`, and every argument read for the
  engine is still `turbo`; each is kept by every step but a write inside another call's window;
* `toggleTurbo_race` : over any number of calls and any schedule, `turbo` ends other than flipped
  once per call only if a call's write fell between another call's read and write, and the engine
  ends in the other mode only if a write fell between another call's read of its argument and its
  call of the engine.

`pow.Turbo` is `chain.EasyPow`'s, outside this repository. It is kept at its interface: it sets
the engine's mode to its argument.
-/

namespace Ethcore.Miner

/-- The miner's `turbo`, and the mode `pow.Turbo` last set the engine to. -/
structure TurboState where
  turbo : Bool
  powTurbo : Bool
  deriving DecidableEq, Repr

/-- `ToggleTurbo()` (lines 261-265) with no other call between its steps. -/
def TurboState.toggleTurbo (s : TurboState) : TurboState := ⟨!s.turbo, !s.turbo⟩

/-- Where a call is: before line 262's read, its write, line 264's read, `pow.Turbo`, or returned.
-/
inductive TurboPc
  | read
  | write (v : Bool)
  | readArg
  | call (v : Bool)
  | done
  deriving DecidableEq, Repr

def TurboPc.written : TurboPc → Bool
  | .readArg | .call _ | .done => true
  | _ => false

/-- One step of a call at `pc`; nothing outside answers. -/
def TurboState.step (s : TurboState) (pc : TurboPc) (_ : Unit) : Option (TurboState × TurboPc) :=
  match pc with
  | .read => some (s, .write !s.turbo)
  | .write v => some ({ s with turbo := v }, .readArg)
  | .readArg => some (s, .call s.turbo)
  | .call v => some ({ s with powTurbo := v }, .done)
  | .done => none

theorem TurboState.step_cases {e e' : TurboState} {pc pc' : TurboPc} (h : e.step pc () = some (e', pc')) :
    (pc = .read ∧ e' = e ∧ pc' = .write !e.turbo) ∨
      (∃ v, pc = .write v ∧ e' = { e with turbo := v } ∧ pc' = .readArg) ∨
      (pc = .readArg ∧ e' = e ∧ pc' = .call e.turbo) ∨
      (∃ v, pc = .call v ∧ e' = { e with powTurbo := v } ∧ pc' = .done) := by
  cases pc <;> cases h <;> simp

/-! ## One call at a time -/

/-- A call stepped with no other between its steps computes `toggleTurbo`. -/
theorem run_toggleTurbo_alone (s : TurboState) (pre post : List TurboPc) :
    Calls.run TurboState.step ⟨s, pre ++ .read :: post⟩ (List.replicate 4 (pre.length, ())) =
      some ⟨s.toggleTurbo, pre ++ .done :: post⟩ := by
  have h := Calls.run_alone TurboState.step pre post s .read (List.replicate 4 ())
  rw [List.map_replicate] at h
  exact h.trans rfl

def serialSched (n : Nat) : List (Nat × Unit) :=
  (List.range n).flatMap fun i => List.replicate 4 (i, ())

theorem run_serialSched (s : TurboState) (n : Nat) :
    Calls.run TurboState.step ⟨s, List.replicate n .read⟩ (serialSched n) =
      some ⟨TurboState.toggleTurbo^[n] s, List.replicate n .done⟩ := by
  suffices h : ∀ k ≤ n, Calls.run TurboState.step ⟨s, List.replicate n .read⟩ (serialSched k) =
      some ⟨TurboState.toggleTurbo^[k] s, List.replicate k .done ++ List.replicate (n - k) .read⟩ by
    simpa using h n le_rfl
  intro k hk
  induction k with
  | zero => rfl
  | succ k ih =>
    have hsplit : List.replicate (n - k) TurboPc.read = .read :: List.replicate (n - (k + 1)) .read := by
      rw [← List.replicate_succ]; congr 1; omega
    rw [serialSched, List.range_succ, List.flatMap_append, ← serialSched,
      Calls.run_append_of _ (ih (by omega)), hsplit, List.flatMap_singleton]
    have := run_toggleTurbo_alone (TurboState.toggleTurbo^[k] s) (List.replicate k .done)
      (List.replicate (n - (k + 1)) .read)
    rw [List.length_replicate] at this
    rw [this, Function.iterate_succ_apply', List.replicate_succ', List.append_assoc]
    rfl

theorem toggleTurbo_iterate_turbo (s : TurboState) (n : Nat) :
    (TurboState.toggleTurbo^[n] s).turbo = (!·)^[n] s.turbo := by
  induction n with
  | zero => rfl
  | succ n ih => rw [Function.iterate_succ_apply', Function.iterate_succ_apply', ← ih]; rfl

/-! ## Calls at the same time -/

theorem countP_set_of_eq {p : TurboPc → Bool} {l : List TurboPc} {j : Nat} {a b : TurboPc}
    (hj : l[j]? = some b) (hp : p a = p b) : (l.set j a).countP p = l.countP p := by
  obtain ⟨hlt, rfl⟩ := List.getElem?_eq_some_iff.1 hj
  rw [List.countP_set _ _ _ _ hlt, hp]
  split_ifs with h
  · exact Nat.sub_add_cancel (List.countP_pos_iff.2 ⟨_, List.getElem_mem hlt, h⟩)
  · rfl

theorem countP_set_write {l : List TurboPc} {j : Nat} {v : Bool} (hj : l[j]? = some (.write v)) :
    (l.set j .readArg).countP TurboPc.written = l.countP TurboPc.written + 1 := by
  obtain ⟨hlt, hget⟩ := List.getElem?_eq_some_iff.1 hj
  rw [List.countP_set _ _ _ _ hlt, hget]
  rfl

variable {t₀ : Bool} {c c' : Calls TurboState TurboPc} {j : Nat}

/-- Every pending write negates `turbo`, and `turbo` is `t₀` flipped once per write done. -/
structure Flips (t₀ : Bool) (c : Calls TurboState TurboPc) : Prop where
  writes : ∀ (i : Nat) (v : Bool), c.calls[i]? = some (.write v) → v = !c.shared.turbo
  turbo_eq : c.shared.turbo = (!·)^[c.calls.countP TurboPc.written] t₀

theorem Flips.next (hc : Flips t₀ c) (h : Calls.next TurboState.step c j () = some c')
    (hw : ∀ (i : Nat) (v w : Bool), i ≠ j → c.calls[i]? = some (.write v) →
      c.calls[j]? ≠ some (.write w)) :
    Flips t₀ c' := by
  obtain ⟨pc, e', pc', hj, hst, rfl⟩ := Calls.next_eq _ h
  rcases TurboState.step_cases hst with ⟨rfl, rfl, rfl⟩ | ⟨v, rfl, rfl, rfl⟩ | ⟨rfl, rfl, rfl⟩ |
    ⟨v, rfl, rfl, rfl⟩
  · refine ⟨fun i v hi => ?_, by rw [countP_set_of_eq (p := TurboPc.written) (a := .write _) hj rfl]; exact hc.turbo_eq⟩
    rcases Calls.getElem?_set_cases hi with ⟨-, h⟩ | ⟨-, hi⟩
    · cases h; rfl
    · exact hc.writes i v hi
  · refine ⟨fun i w hi => ?_, ?_⟩
    · rcases Calls.getElem?_set_cases hi with ⟨-, h⟩ | ⟨hij, hi⟩
      · cases h
      · exact absurd hj (hw i w v hij hi)
    · show v = _
      rw [countP_set_write hj, Function.iterate_succ_apply', ← hc.turbo_eq, hc.writes j v hj]
  · refine ⟨fun i v hi => hc.writes i v (Calls.getElem?_of_set hi nofun), ?_⟩
    rw [countP_set_of_eq (p := TurboPc.written) (a := .call _) hj rfl]
    exact hc.turbo_eq
  · refine ⟨fun i w hi => hc.writes i w (Calls.getElem?_of_set hi nofun), ?_⟩
    rw [countP_set_of_eq (p := TurboPc.written) (a := .done) hj rfl]
    exact hc.turbo_eq

/-- Every argument read for the engine is still `turbo`. -/
structure FreshArg (c : Calls TurboState TurboPc) : Prop where
  args : ∀ (i : Nat) (v : Bool), c.calls[i]? = some (.call v) → v = c.shared.turbo
  engine : c.shared.powTurbo = c.shared.turbo ∨ ∃ pc ∈ c.calls, pc ≠ .done

theorem FreshArg.next (hc : FreshArg c) (h : Calls.next TurboState.step c j () = some c')
    (hw : ∀ (i : Nat) (v w : Bool), i ≠ j → c.calls[i]? = some (.call v) →
      c.calls[j]? ≠ some (.write w)) :
    FreshArg c' := by
  obtain ⟨pc, e', pc', hj, hst, rfl⟩ := Calls.next_eq _ h
  have hmem : pc' ∈ c.calls.set j pc' :=
    List.getElem?_mem (by rw [List.getElem?_set_self', hj]; rfl)
  rcases TurboState.step_cases hst with ⟨rfl, rfl, rfl⟩ | ⟨v, rfl, rfl, rfl⟩ | ⟨rfl, rfl, rfl⟩ |
    ⟨v, rfl, rfl, rfl⟩
  · exact ⟨fun i v hi => hc.args i v (Calls.getElem?_of_set hi nofun), .inr ⟨_, hmem, nofun⟩⟩
  · refine ⟨fun i w hi => ?_, .inr ⟨_, hmem, nofun⟩⟩
    rcases Calls.getElem?_set_cases hi with ⟨-, h⟩ | ⟨hij, hi⟩
    · cases h
    · exact absurd hj (hw i w v hij hi)
  · refine ⟨fun i v hi => ?_, .inr ⟨_, hmem, nofun⟩⟩
    rcases Calls.getElem?_set_cases hi with ⟨-, h⟩ | ⟨-, hi⟩
    · cases h; rfl
    · exact hc.args i v hi
  · exact ⟨fun i w hi => hc.args i w (Calls.getElem?_of_set hi nofun), .inl (hc.args j v hj)⟩

/-- Calls made one at a time flip `turbo` once each; concurrent ones end otherwise only if a write
fell inside another call's window. -/
theorem toggleTurbo_race (s : TurboState) (n : Nat) {sched : List (Nat × Unit)}
    {s' : Calls TurboState TurboPc}
    (h : Calls.run TurboState.step ⟨s, List.replicate n .read⟩ sched = some s')
    (hdone : s'.calls = List.replicate n .done) :
    Calls.run TurboState.step ⟨s, List.replicate n .read⟩ (serialSched n) =
        some ⟨TurboState.toggleTurbo^[n] s, List.replicate n .done⟩ ∧
      (s'.shared.turbo ≠ (TurboState.toggleTurbo^[n] s).turbo →
        ∃ pre j post t i v w, sched = pre ++ (j, ()) :: post ∧ i ≠ j ∧
          Calls.run TurboState.step ⟨s, List.replicate n .read⟩ pre = some t ∧
          t.calls[i]? = some (.write v) ∧ t.calls[j]? = some (.write w)) ∧
      (0 < n → s'.shared.powTurbo ≠ s'.shared.turbo →
        ∃ pre j post t i v w, sched = pre ++ (j, ()) :: post ∧ i ≠ j ∧
          Calls.run TurboState.step ⟨s, List.replicate n .read⟩ pre = some t ∧
          t.calls[i]? = some (.call v) ∧ t.calls[j]? = some (.write w)) := by
  have hread : ∀ (i : Nat) (pc : TurboPc), (List.replicate n TurboPc.read)[i]? = some pc →
      pc = .read := fun i pc hi =>
    (List.mem_replicate.1 (List.getElem?_mem hi)).2
  refine ⟨run_serialSched s n, fun hne => ?_, fun hpos hne => ?_⟩
  · have h₀ : Flips s.turbo ⟨s, List.replicate n .read⟩ :=
      ⟨fun i v hi => (by cases hread i _ hi), by rw [List.countP_replicate]; rfl⟩
    have h₁ : ¬Flips s.turbo s' := fun hf => hne <| by
      rw [hf.turbo_eq, hdone, toggleTurbo_iterate_turbo, List.countP_replicate]; rfl
    obtain ⟨pre, j, _, post, t, t', rfl, hpre, hQ, hstep, hQ'⟩ := Calls.exists_violation _ _ h h₀ h₁
    by_contra hno
    refine hQ' (hQ.next hstep fun i v w hij hi hj => hno ⟨pre, j, post, t, i, v, w, rfl, hij, hpre, hi, hj⟩)
  · have h₀ : FreshArg ⟨s, List.replicate n .read⟩ :=
      ⟨fun i v hi => (by cases hread i _ hi), .inr ⟨.read, List.mem_replicate.2 ⟨by omega, rfl⟩, nofun⟩⟩
    have h₁ : ¬FreshArg s' := fun hf =>
      hne (hf.engine.resolve_right fun ⟨pc, hpc, hd⟩ => hd (List.mem_replicate.1 (hdone ▸ hpc)).2)
    obtain ⟨pre, j, _, post, t, t', rfl, hpre, hQ, hstep, hQ'⟩ := Calls.exists_violation _ _ h h₀ h₁
    by_contra hno
    refine hQ' (hQ.next hstep fun i v w hij hi hj => hno ⟨pre, j, post, t, i, v, w, rfl, hij, hpre, hi, hj⟩)

def lostSched : List (Nat × Unit) :=
  [(0, ()), (1, ())] ++ List.replicate 3 (0, ()) ++ List.replicate 3 (1, ())

def splitSched : List (Nat × Unit) :=
  List.replicate 3 (0, ()) ++ List.replicate 4 (1, ()) ++ [(0, ())]

theorem two_calls_race :
    (∃ pre j post t i v w, lostSched = pre ++ (j, ()) :: post ∧ i ≠ j ∧
      Calls.run TurboState.step ⟨⟨false, false⟩, List.replicate 2 .read⟩ pre = some t ∧
      t.calls[i]? = some (.write v) ∧ t.calls[j]? = some (.write w)) ∧
    (∃ pre j post t i v w, splitSched = pre ++ (j, ()) :: post ∧ i ≠ j ∧
      Calls.run TurboState.step ⟨⟨false, false⟩, List.replicate 2 .read⟩ pre = some t ∧
      t.calls[i]? = some (.call v) ∧ t.calls[j]? = some (.write w)) :=
  ⟨(@toggleTurbo_race ⟨false, false⟩ 2 lostSched ⟨⟨true, true⟩, [.done, .done]⟩ rfl rfl).2.1 (by decide),
    (@toggleTurbo_race ⟨false, false⟩ 2 splitSched ⟨⟨false, true⟩, [.done, .done]⟩ rfl rfl).2.2
      (by decide) (by decide)⟩

end Ethcore.Miner
