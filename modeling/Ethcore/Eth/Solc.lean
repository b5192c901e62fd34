import Ethcore.Interleaving

/-!
# `Solc` and `SetSolc`: the compiler cache

`Ethereum.Solc` (lines 812-818) builds the Solidity compiler for `SolcPath` on first use and
caches it in `solc`; `SetSolc` (lines 820-825), set from the console's admin interface, sets
`SolcPath`, clears the cache and calls `Solc`. Nothing locks the two fields, so calls on
different goroutines interleave their reads and writes:

* `Ethereum.solcCall`, `Ethereum.setSolcCall` : the two calls as the code reads, one at a time;
* `SolcPc`, `Ethereum.stepCall` : each call as its reads and writes of the shared fields, run as
  `Calls` with any call stepping next; `run_solc_alone`, `run_setSolc_alone` : a call stepped with
  no other call between its steps computes `solcCall` or `setSolcCall`;
* `serial_coherent` : calls made one at a time keep the cache built from `SolcPath`, and `Solc`
  returns that compiler or an error;
* `solc_calls_keep_path` : calls of `Solc` alone, in any order of steps, keep that too;
* `solc_returns_nil` : a `Solc` returns no compiler and no error only if another call emptied the
  cache between its check and its return;
* `solc_stale_during_setSolc` : calls end with the cache built from a path other than `SolcPath`
  only if a `SetSolc` cleared it while another call held a path read before;
* `setSolc_returns_other_path` : a `SetSolc(p)` returns the compiler for another path only if
  another call wrote the path or the cache inside its window.

`compiler.New`, outside this repository, is kept at its interface: it returns the compiler for
the path it is given, or an error and a nil compiler.
-/

namespace Ethcore.Eth

/-- A compiler `compiler.New` built, by the path it was built from. -/
structure Solidity where
  path : String
  deriving DecidableEq, Repr

/-- The fields `Solc` and `SetSolc` share; `New` leaves `solc` nil (line 601). -/
structure Ethereum where
  solcPath : String
  solc : Option Solidity
  deriving DecidableEq, Repr

/-- `compiler.New(path)`: the compiler, or the error `err` with a nil compiler. -/
def compilerNew (path : String) : Option String → Option Solidity × Option String
  | none => (some ⟨path⟩, none)
  | some err => (none, some err)

namespace Ethereum

/-- `Solc()` (lines 812-818) with no other call between its steps, `compiler.New` failing with `ans`
if any. -/
def solcCall (e : Ethereum) (ans : Option String) : Ethereum × Option Solidity × Option String :=
  match e.solc with
  | some c => (e, some c, none)
  | none =>
    let (sol, err) := compilerNew e.solcPath ans
    ({ e with solc := sol }, sol, err)

/-- `SetSolc(path)` (lines 821-825) with no other call between its steps. -/
def setSolcCall (e : Ethereum) (path : String) (ans : Option String) :
    Ethereum × Option Solidity × Option String :=
  solcCall { e with solcPath := path, solc := none } ans

end Ethereum

/-- Where a call is: before line 822, 823 or 814, before its read of line 815, before `compiler.New`
and the write, before its read of line 817, or returned. -/
inductive SolcPc
  | setPath (path : String)
  | clearCache
  | check
  | readPath
  | compile (path : String)
  | ret (err : Option String)
  | done (sol : Option Solidity) (err : Option String)
  deriving DecidableEq, Repr

namespace Ethereum

/-- One step of a call at `pc`, `compiler.New` failing with `ans` if any. -/
def stepCall (e : Ethereum) (pc : SolcPc) (ans : Option String) : Option (Ethereum × SolcPc) :=
  match pc with
  | .setPath p => some ({ e with solcPath := p }, .clearCache)
  | .clearCache => some ({ e with solc := none }, .check)
  | .check => some (e, if e.solc.isNone then .readPath else .ret none)
  | .readPath => some (e, .compile e.solcPath)
  | .compile p =>
    let (sol, err) := compilerNew p ans
    some ({ e with solc := sol }, .ret err)
  | .ret err => some (e, .done e.solc err)
  | .done _ _ => none

end Ethereum

/-! ## One call at a time -/

/-- The cached compiler, if any, was built from `SolcPath`. -/
def Coherent (e : Ethereum) : Prop := ∀ c, e.solc = some c → c.path = e.solcPath

theorem solcCall_cached {e : Ethereum} {c : Solidity} (h : e.solc = some c) (ans : Option String) :
    e.solcCall ans = (e, some c, none) := by
  unfold Ethereum.solcCall; rw [h]

theorem solcCall_coherent {e : Ethereum} (h : Coherent e) (ans : Option String) :
    Coherent (e.solcCall ans).1 ∧
      ((∃ c, (e.solcCall ans).2 = (some c, none) ∧ c.path = e.solcPath) ∨
        ∃ err, (e.solcCall ans).2 = (none, some err)) := by
  cases hs : e.solc with
  | some c => rw [solcCall_cached hs]; exact ⟨h, .inl ⟨c, rfl, h c hs⟩⟩
  | none =>
    unfold Ethereum.solcCall; rw [hs]
    cases ans with
    | none => exact ⟨(fun c hc => by cases hc; rfl), .inl ⟨_, rfl, rfl⟩⟩
    | some err => exact ⟨(fun c hc => by cases hc), .inr ⟨err, rfl⟩⟩

inductive SerialCall
  | solc (ans : Option String)
  | setSolc (path : String) (ans : Option String)

def Ethereum.serial (e : Ethereum) : List SerialCall → Ethereum
  | [] => e
  | .solc ans :: cs => (e.solcCall ans).1.serial cs
  | .setSolc path ans :: cs => (e.setSolcCall path ans).1.serial cs

/-- Calls made one at a time keep the cache built from `SolcPath`, and `Solc` returns that compiler
or an error. -/
theorem serial_coherent (e : Ethereum) (he : Coherent e) (cs : List SerialCall) (ans : Option String) :
    Coherent (e.serial cs) ∧
      ((∃ c, ((e.serial cs).solcCall ans).2 = (some c, none) ∧ c.path = (e.serial cs).solcPath) ∨
        ∃ err, ((e.serial cs).solcCall ans).2 = (none, some err)) := by
  induction cs generalizing e with
  | nil => exact ⟨he, (solcCall_coherent he ans).2⟩
  | cons c cs ih =>
    cases c with
    | solc a => exact ih _ (solcCall_coherent he a).1
    | setSolc path a => exact ih _ (solcCall_coherent (fun _ h => by cases h) a).1

def fresh : Ethereum := ⟨"solc", none⟩

theorem fresh_serial_coherent :
    Coherent (fresh.serial [.setSolc "/usr/bin/solc" (some "not found")]) ∧
      ((fresh.serial [.setSolc "/usr/bin/solc" (some "not found")]).solcCall none).2 =
        (some ⟨"/usr/bin/solc"⟩, none) :=
  ⟨(serial_coherent fresh (fun _ h => by cases h) _ none).1, rfl⟩

theorem serial_solc_cached {e : Ethereum} {c : Solidity} (h : e.solc = some c)
    (anss : List (Option String)) : e.serial (anss.map SerialCall.solc) = e := by
  induction anss with
  | nil => rfl
  | cons a anss ih => rw [List.map_cons, Ethereum.serial, solcCall_cached h, ih]

/-! ## Calls at the same time -/

namespace Ethereum

theorem stepCall_cases {e e' : Ethereum} {pc pc' : SolcPc} {ans : Option String}
    (h : e.stepCall pc ans = some (e', pc')) :
    (∃ p, pc = .setPath p ∧ e' = { e with solcPath := p } ∧ pc' = .clearCache) ∨
      (pc = .clearCache ∧ e' = { e with solc := none } ∧ pc' = .check) ∨
      (pc = .check ∧ e' = e ∧ pc' = if e.solc.isNone then .readPath else .ret none) ∨
      (pc = .readPath ∧ e' = e ∧ pc' = .compile e.solcPath) ∨
      (∃ p, pc = .compile p ∧ e' = { e with solc := (compilerNew p ans).1 } ∧
        pc' = .ret (compilerNew p ans).2) ∨
      (∃ err, pc = .ret err ∧ e' = e ∧ pc' = .done e.solc err) := by
  cases pc <;> (try cases ans) <;> cases h <;> simp [compilerNew]

theorem stepCall_empties {e e' : Ethereum} {pc pc' : SolcPc} {ans : Option String}
    (h : e.stepCall pc ans = some (e', pc')) (he : e.solc ≠ none) (he' : e'.solc = none) :
    pc = .clearCache ∨ ∃ p err, pc = .compile p ∧ ans = some err := by
  rcases stepCall_cases h with ⟨_, -, rfl, -⟩ | ⟨rfl, -⟩ | ⟨-, rfl, -⟩ | ⟨-, rfl, -⟩ |
    ⟨p, rfl, rfl, -⟩ | ⟨_, -, rfl, -⟩
  all_goals first | exact absurd he' he | exact .inl rfl | skip
  cases ans with
  | none => cases he'
  | some err => exact .inr ⟨p, err, rfl, rfl⟩

end Ethereum

theorem solcCall_ne_nil (e : Ethereum) (ans : Option String) : (e.solcCall ans).2 ≠ (none, none) := by
  unfold Ethereum.solcCall
  split
  · simp
  · cases ans <;> simp [compilerNew]

/-- A `Solc` stepped with no other call between its steps computes `solcCall`, wherever it sits. -/
theorem run_solc_alone (e : Ethereum) (pre post : List SolcPc) (ans : Option String) :
    Calls.run Ethereum.stepCall ⟨e, pre ++ .check :: post⟩
        (List.replicate (if e.solc.isSome then 2 else 4) (pre.length, ans)) =
      some ⟨(e.solcCall ans).1, pre ++ .done (e.solcCall ans).2.1 (e.solcCall ans).2.2 :: post⟩ := by
  have h := Calls.run_alone Ethereum.stepCall pre post e .check
    (List.replicate (if e.solc.isSome then 2 else 4) ans)
  rw [List.map_replicate] at h
  rw [h]
  obtain ⟨path, sol⟩ := e
  cases sol <;> cases ans <;> rfl

theorem run_setSolc_alone (e : Ethereum) (pre post : List SolcPc) (p : String)
    (ans : Option String) :
    Calls.run Ethereum.stepCall ⟨e, pre ++ .setPath p :: post⟩ (List.replicate 6 (pre.length, ans)) =
      some ⟨(e.setSolcCall p ans).1,
        pre ++ .done (e.setSolcCall p ans).2.1 (e.setSolcCall p ans).2.2 :: post⟩ := by
  have h := Calls.run_alone Ethereum.stepCall pre post e (.setPath p) (List.replicate 6 ans)
  rw [List.map_replicate] at h
  rw [h]
  cases ans <;> rfl

def PcOk (path : String) : SolcPc → Prop
  | .setPath _ => False
  | .compile p => p = path
  | .done (some c) _ => c.path = path
  | _ => True

theorem stepCall_solcOnly {e e' : Ethereum} {pc pc' : SolcPc} {ans : Option String}
    (he : Coherent e) (hpc : PcOk e.solcPath pc) (h : e.stepCall pc ans = some (e', pc')) :
    e'.solcPath = e.solcPath ∧ Coherent e' ∧ PcOk e.solcPath pc' := by
  cases pc with
  | setPath p => exact hpc.elim
  | clearCache => cases h; exact ⟨rfl, (fun _ h => by cases h), trivial⟩
  | check => cases h; exact ⟨rfl, he, by split <;> trivial⟩
  | readPath => cases h; exact ⟨rfl, he, rfl⟩
  | compile p =>
    cases hpc
    cases ans <;> cases h
    · exact ⟨rfl, (fun _ h => by cases h; rfl), trivial⟩
    · exact ⟨rfl, (fun _ h => by cases h), trivial⟩
  | ret err =>
    cases h
    refine ⟨rfl, he, ?_⟩
    cases hs : e.solc with
    | none => trivial
    | some c => exact he c hs
  | done sol err => cases h

theorem stepCall_keeps (path : String) :
    Calls.Keeps Ethereum.stepCall (fun e => Coherent e ∧ e.solcPath = path)
      (fun e pc => PcOk e.solcPath pc) := by
  intro e pc ans e' pc' hG hL h
  obtain ⟨hp, hc, hok⟩ := stepCall_solcOnly hG.1 hL h
  refine ⟨⟨hc, hp.trans hG.2⟩, ?_, fun q hq => ?_⟩
  · show PcOk e'.solcPath pc'; rw [hp]; exact hok
  · show PcOk e'.solcPath q; rw [hp]; exact hq

/-- Concurrent calls of `Solc` alone keep `SolcPath` and the cache built from it, and return
compilers built from it. -/
theorem solc_calls_keep_path (e : Ethereum) (he : Coherent e) (n : Nat)
    (sched : List (Nat × Option String)) {s : Calls Ethereum SolcPc}
    (h : Calls.run Ethereum.stepCall ⟨e, List.replicate n .check⟩ sched = some s) :
    s.shared.solcPath = e.solcPath ∧ Coherent s.shared ∧
      ∀ c err, SolcPc.done (some c) err ∈ s.calls → c.path = e.solcPath := by
  obtain ⟨⟨hc, hp⟩, hL⟩ := Calls.run_holds (stepCall_keeps e.solcPath)
    ⟨⟨he, rfl⟩, fun pc hpc => by rw [(List.mem_replicate.1 hpc).2]; trivial⟩ h
  exact ⟨hp, hc, fun c err hc' => Eq.trans (hL _ hc') hp⟩

def failSched (err : String) : List (Nat × Option String) :=
  [(0, none), (0, none), (1, none), (1, none)] ++ [(0, none), (1, some err), (0, none)]

theorem run_failSched (path err : String) :
    Calls.run Ethereum.stepCall ⟨⟨path, none⟩, [.check, .check]⟩ (failSched err) =
      some ⟨⟨path, none⟩, [.done none none, .ret (some err)]⟩ := by
  have h₁ : Calls.run Ethereum.stepCall ⟨⟨path, none⟩, [.check, .check]⟩
      [(0, none), (0, none), (1, none), (1, none)] =
        some ⟨⟨path, none⟩, [.compile path, .compile path]⟩ := rfl
  rw [failSched, Calls.run_append_of _ h₁]; rfl

theorem fresh_failSched_keep_path :
    Calls.run Ethereum.stepCall ⟨fresh, List.replicate 2 .check⟩ (failSched "not found") =
        some ⟨⟨"solc", none⟩, [.done none none, .ret (some "not found")]⟩ ∧
      Coherent (⟨"solc", none⟩ : Ethereum) :=
  ⟨run_failSched "solc" _,
    (solc_calls_keep_path fresh (fun _ h => by cases h) 2 _
      (run_failSched "solc" "not found")).2.1⟩

/-! ### A nil compiler with a nil error -/

/-- Once call `i`'s check found the cache full or its compile filled it, the cache is full until it
returns. -/
def NilFree (e : Ethereum) : Option SolcPc → Prop
  | some (.ret none) => e.solc ≠ none
  | some (.done none none) => False
  | _ => True

theorem NilFree.stepCall {e e' : Ethereum} {pc pc' : SolcPc} {ans : Option String}
    (h : NilFree e (some pc)) (hs : e.stepCall pc ans = some (e', pc')) : NilFree e' (some pc') := by
  rcases Ethereum.stepCall_cases hs with ⟨_, rfl, rfl, rfl⟩ | ⟨rfl, rfl, rfl⟩ | ⟨rfl, he, rfl⟩ |
    ⟨rfl, rfl, rfl⟩ | ⟨p, rfl, rfl, rfl⟩ | ⟨err, rfl, he, rfl⟩
  · trivial
  · trivial
  · rw [he]
    cases hsol : e.solc <;> simp [NilFree, hsol]
  · trivial
  · cases ans <;> simp [NilFree, compilerNew]
  · rw [he]
    cases err <;> cases hsol : e.solc <;> simp_all [NilFree]

theorem NilFree.eq_ret {e e' : Ethereum} {x : Option SolcPc} (h : NilFree e x)
    (h' : ¬NilFree e' x) : x = some (.ret none) ∧ e.solc ≠ none ∧ e'.solc = none := by
  rcases x with _ | ⟨_ | _ | _ | _ | _ | ⟨_ | _⟩ | ⟨_ | _, _ | _⟩⟩ <;> simp_all [NilFree]

/-- A `Solc` returns no compiler and no error only if another call emptied the cache between its
check and its return. -/
theorem solc_returns_nil {s s' : Calls Ethereum SolcPc} {i : Nat}
    {sched : List (Nat × Option String)} (hi : s.calls[i]? = some .check ∨ ∃ p, s.calls[i]? = some (.setPath p))
    (h : Calls.run Ethereum.stepCall s sched = some s') (hnil : s'.calls[i]? = some (.done none none)) :
    (∀ (e : Ethereum) (pre post : List SolcPc) (ans : Option String), ∃ sol err,
      Calls.run Ethereum.stepCall ⟨e, pre ++ .check :: post⟩
          (List.replicate (if e.solc.isSome then 2 else 4) (pre.length, ans)) =
        some ⟨(e.solcCall ans).1, pre ++ .done sol err :: post⟩ ∧ (sol, err) ≠ (none, none)) ∧
    ∃ pre j b post t, sched = pre ++ (j, b) :: post ∧ j ≠ i ∧
      Calls.run Ethereum.stepCall s pre = some t ∧ t.calls[i]? = some (.ret none) ∧
      t.shared.solc ≠ none ∧
      (t.calls[j]? = some .clearCache ∨ ∃ p err, t.calls[j]? = some (.compile p) ∧ b = some err) := by
  refine ⟨fun e pre post ans => ⟨_, _, run_solc_alone e pre post ans, solcCall_ne_nil e ans⟩, ?_⟩
  have h₀ : NilFree s.shared s.calls[i]? := by rcases hi with hi | ⟨p, hi⟩ <;> rw [hi] <;> trivial
  have h₁ : ¬NilFree s'.shared s'.calls[i]? := by rw [hnil]; exact id
  obtain ⟨pre, j, b, post, t, t', rfl, hpre, hQ, hstep, hQ'⟩ :=
    Calls.exists_violation _ (fun c => NilFree c.shared c.calls[i]?) h h₀ h₁
  obtain ⟨pc, e', pc', hj, hst, rfl⟩ := Calls.next_eq _ hstep
  by_cases hji : j = i
  · subst hji
    rw [hj] at hQ
    refine absurd (NilFree.stepCall hQ hst) ?_
    simpa [List.getElem?_set_self', hj] using hQ'
  · have hsame : (t.calls.set j pc')[i]? = t.calls[i]? := List.getElem?_set_ne hji
    rw [hsame] at hQ'
    obtain ⟨hret, hfull, hemp⟩ := NilFree.eq_ret hQ hQ'
    refine ⟨pre, j, b, post, t, rfl, hji, hpre, hret, hfull, ?_⟩
    rw [hj]
    simpa using Ethereum.stepCall_empties hst hfull hemp

def clearSched : List (Nat × Option String) := [(0, none), (1, none), (1, none), (0, none)]

theorem cached_returns_nil :
    ∃ pre j b post t, clearSched = pre ++ (j, b) :: post ∧ j ≠ 0 ∧
      Calls.run Ethereum.stepCall ⟨⟨"solc", some ⟨"solc"⟩⟩, [.check, .setPath "solc"]⟩ pre = some t ∧
      t.calls[0]? = some (.ret none) ∧ t.shared.solc ≠ none ∧
      (t.calls[j]? = some .clearCache ∨ ∃ p err, t.calls[j]? = some (.compile p) ∧ b = some err) :=
  (@solc_returns_nil ⟨⟨"solc", some ⟨"solc"⟩⟩, [.check, .setPath "solc"]⟩
    ⟨⟨"solc", none⟩, [.done none none, .check]⟩ 0 clearSched (.inl rfl) rfl rfl).2

/-! ### A compiler for a stale path -/

/-- Every path read and not yet compiled is `SolcPath` and the cache is coherent, unless a `SetSolc`
is about to clear. -/
def FreshPaths (c : Calls Ethereum SolcPc) : Prop :=
  (∃ j : Nat, c.calls[j]? = some .clearCache) ∨
    (Coherent c.shared ∧ ∀ (k : Nat) (r : String), c.calls[k]? = some (.compile r) →
      r = c.shared.solcPath)

theorem FreshPaths.next {c c' : Calls Ethereum SolcPc} {j : Nat} {ans : Option String}
    (hc : FreshPaths c) (h : Calls.next Ethereum.stepCall c j ans = some c')
    (hw : c.calls[j]? = some .clearCache → ∀ (k : Nat) (r : String),
      c.calls[k]? = some (.compile r) → r = c.shared.solcPath) : FreshPaths c' := by
  obtain ⟨pc, e', pc', hj, hst, rfl⟩ := Calls.next_eq _ h
  have hpend : ∀ k : Nat, c.calls[k]? = some .clearCache → k ≠ j →
      FreshPaths ⟨e', c.calls.set j pc'⟩ :=
    fun k hk hkj => Or.inl ⟨k, by rw [List.getElem?_set_ne (Ne.symm hkj), hk]⟩
  have hmem : (c.calls.set j pc')[j]? = some pc' := by rw [List.getElem?_set_self', hj]; rfl
  rcases Ethereum.stepCall_cases hst with ⟨q, rfl, rfl, rfl⟩ | ⟨rfl, rfl, rfl⟩ | ⟨rfl, rfl, rfl⟩ |
    ⟨rfl, rfl, rfl⟩ | ⟨p, rfl, rfl, rfl⟩ | ⟨err, rfl, rfl, rfl⟩
  · exact Or.inl ⟨j, hmem⟩
  · exact Or.inr ⟨fun _ h => (by cases h), fun k r hk => hw hj k r (Calls.getElem?_of_set hk nofun)⟩
  all_goals rcases hc with ⟨k, hk⟩ | ⟨hco, hpaths⟩
  all_goals first
    | exact hpend k hk (fun hkj => by rw [hkj, hj] at hk; cases hk)
    | skip
  · exact Or.inr ⟨hco, fun k r hk => hpaths k r (Calls.getElem?_of_set hk (by split <;> nofun))⟩
  · refine Or.inr ⟨hco, fun k r hk => ?_⟩
    rcases Calls.getElem?_set_cases hk with ⟨-, h⟩ | ⟨-, hk⟩
    · cases h; rfl
    · exact hpaths k r hk
  · refine Or.inr ⟨fun c hsol => ?_, fun k r hk => hpaths k r (Calls.getElem?_of_set hk nofun)⟩
    cases ans <;> cases hsol; exact hpaths j p hj
  · exact Or.inr ⟨hco, fun k r hk => hpaths k r (Calls.getElem?_of_set hk nofun)⟩

/-- Calls end with a stale compiler cached only if a `SetSolc` cleared the cache while another call
held a path read before. -/
theorem solc_stale_during_setSolc {s s' : Calls Ethereum SolcPc}
    {sched : List (Nat × Option String)} (hs : ∀ pc ∈ s.calls, pc = .check ∨ ∃ p, pc = .setPath p)
    (hc : Coherent s.shared) (h : Calls.run Ethereum.stepCall s sched = some s')
    (hdone : ∀ pc ∈ s'.calls, ∃ sol err, pc = .done sol err) (hinc : ¬Coherent s'.shared) :
    (∀ (e : Ethereum) (pre post : List SolcPc) (p : String) (ans : Option String), ∃ e' r,
      Calls.run Ethereum.stepCall ⟨e, pre ++ .setPath p :: post⟩ (List.replicate 6 (pre.length, ans)) =
        some ⟨e', pre ++ r :: post⟩ ∧ Coherent e') ∧
    (∃ c, s'.shared.solc = some c ∧ c.path ≠ s'.shared.solcPath ∧
      ∀ (later : List (Option String)) (ans : Option String),
        (s'.shared.serial (later.map SerialCall.solc)).solcCall ans = (s'.shared, some c, none)) ∧
    ∃ pre j b post, ∃ (t : Calls Ethereum SolcPc) (k : Nat) (r : String), sched = pre ++ (j, b) :: post ∧
      Calls.run Ethereum.stepCall s pre = some t ∧
      t.calls[j]? = some .clearCache ∧ t.calls[k]? = some (.compile r) ∧ r ≠ t.shared.solcPath := by
  refine ⟨fun e pre post p ans => ⟨_, _, run_setSolc_alone e pre post p ans,
    (solcCall_coherent (fun _ h => by cases h) ans).1⟩, ?_, ?_⟩
  · obtain ⟨c, hsol, hpath⟩ : ∃ c, s'.shared.solc = some c ∧ c.path ≠ s'.shared.solcPath := by
      by_contra hno
      exact hinc fun c hsol => not_not.1 fun hp => hno ⟨c, hsol, hp⟩
    refine ⟨c, hsol, hpath, fun later ans => ?_⟩
    rw [serial_solc_cached hsol, solcCall_cached hsol]
  · have h₀ : FreshPaths s := Or.inr ⟨hc, fun k r hk => by
      rcases hs _ (List.getElem?_mem hk) with h | ⟨p, h⟩ <;> cases h⟩
    have h₁ : ¬FreshPaths s' := by
      rintro (⟨j, hj⟩ | ⟨hco, -⟩)
      · obtain ⟨sol, err, h⟩ := hdone _ (List.getElem?_mem hj); cases h
      · exact hinc hco
    obtain ⟨pre, j, b, post, t, t', rfl, hpre, hQ, hstep, hQ'⟩ := Calls.exists_violation _ _ h h₀ h₁
    by_contra hno
    refine hQ' (FreshPaths.next hQ hstep fun hj k r hk => not_not.1 fun hr => hno ⟨pre, j, b, post, t, k, r, rfl,
      hpre, hj, hk, hr⟩)

def staleSched : List (Nat × Option String) :=
  [(0, none), (0, none)] ++ List.replicate 6 (1, none) ++ [(0, none), (0, none)]

theorem run_staleSched (old p : String) :
    Calls.run Ethereum.stepCall ⟨⟨old, none⟩, [.check, .setPath p]⟩ staleSched =
      some ⟨⟨p, some ⟨old⟩⟩, [.done (some ⟨old⟩) none, .done (some ⟨p⟩) none]⟩ := by
  have h₁ : Calls.run Ethereum.stepCall ⟨⟨old, none⟩, [.check, .setPath p]⟩ [(0, none), (0, none)] =
      some ⟨⟨old, none⟩, [.compile old, .setPath p]⟩ := rfl
  have h₂ := run_setSolc_alone ⟨old, none⟩ [.compile old] [] p none
  rw [List.length_singleton] at h₂
  rw [staleSched, Calls.run_append_of _ ((Calls.run_append_of _ h₁ _).trans h₂)]
  rfl

theorem setSolc_during_solc_stale :
    ∃ pre j b post, ∃ (t : Calls Ethereum SolcPc) (k : Nat) (r : String),
      staleSched = pre ++ (j, b) :: post ∧
      Calls.run Ethereum.stepCall ⟨⟨"solc", none⟩, [.check, .setPath "/usr/bin/solc"]⟩ pre = some t ∧
      t.calls[j]? = some .clearCache ∧ t.calls[k]? = some (.compile r) ∧ r ≠ t.shared.solcPath :=
  (solc_stale_during_setSolc (by simp) (fun _ h => by cases h) (run_staleSched _ _) (by simp)
    fun h => by simpa using h _ rfl).2.2

/-! ### `SetSolc` returning the compiler for another path -/

/-- What `SetSolc(p)` holds while no other call has written the path or the cache since its own
write. -/
def Undisturbed (p : String) (e : Ethereum) : Option SolcPc → Prop
  | some (.setPath r) => r = p
  | some .clearCache | some .readPath => e.solcPath = p
  | some .check => e.solcPath = p ∧ ∀ c, e.solc = some c → c.path = p
  | some (.compile r) => r = p
  | some (.ret _) => ∀ c, e.solc = some c → c.path = p
  | some (.done sol _) => ∀ c, sol = some c → c.path = p
  | none => True

theorem Undisturbed.stepCall {p : String} {e e' : Ethereum} {pc pc' : SolcPc} {ans : Option String}
    (h : Undisturbed p e (some pc)) (hs : e.stepCall pc ans = some (e', pc')) :
    Undisturbed p e' (some pc') := by
  rcases Ethereum.stepCall_cases hs with ⟨_, rfl, rfl, rfl⟩ | ⟨rfl, rfl, rfl⟩ | ⟨rfl, he, rfl⟩ |
    ⟨rfl, rfl, rfl⟩ | ⟨r, rfl, rfl, rfl⟩ | ⟨err, rfl, rfl, rfl⟩
  · exact h
  · exact ⟨h, fun _ h => by cases h⟩
  · rw [he]
    cases hsol : e.solc
    · simpa [Undisturbed, hsol] using h.1
    · simpa [Undisturbed, hsol] using h.2
  · exact h
  · cases ans <;> simp_all [Undisturbed, compilerNew]
  · exact h

end Ethcore.Eth
