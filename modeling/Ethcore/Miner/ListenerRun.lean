import Ethcore.Miner.Invariant

/-!
# The listener's branches, stepped alone, compute `handleEvent`

Once `stopMining` has returned, the listener's branch of an event is a sequence of its own steps in
`Sys.listenerNext`. Run without other goroutines interleaving, it ends back in the `select` with
the fields `handleEvent` gives, having spawned one session per `startMining` call it counts:

* `run_listener_succ` : one listener step at the front of a run;
* `scan_alone` : the loop of lines 332-338 and what follows it, by induction on the list scanned;
* `handle_alone` : both branches of lines 297-344;
* `handleEvent_eq_reconcile` : the listener alone reconciles as the spec states;
* `handleEvent_txPre_nil_starts` : a transaction event on an empty `miner.txs` spawns no session.
-/

namespace Ethcore.Miner

def listenerAlone (n : Nat) : List Act := List.replicate n (.listener .nil)

theorem run_listener_succ (s : Sys) (n : Nat) :
    s.run Env.any (listenerAlone (n + 1)) = (s.listenerNext .nil).bind (·.run Env.any (listenerAlone n)) := by
  simp [listenerAlone, List.replicate_succ, Sys.run, Env.admits, next]

theorem scan_alone (tx : Tx) : ∀ (ctxs : List Tx) (s : Sys), s.listener = .scan tx ctxs →
    ∃ n s', s.run Env.any (listenerAlone n) = some s' ∧ s'.listener = .select ∧
      s'.txs = (if ctxs.any (fun c => c.hash = tx.hash) then s.txs else s.txs ++ [tx]) ∧
      s'.uncles = s.uncles ∧
      s'.sessions.length = s.sessions.length + ctxs.findIdx (fun c => c.hash = tx.hash)
  | [], s, hl => by
    refine ⟨4, { s.touch id with txs := s.txs ++ [tx], listener := .select }, ?_, rfl, by simp, rfl,
      by simp⟩
    rw [run_listener_succ]
    unfold Sys.listenerNext
    rw [hl]
    rfl
  | c :: cs, s, hl => by
    by_cases hc : c.hash = tx.hash
    · refine ⟨1, { s with listener := .select }, ?_, rfl, by simp [hc], rfl,
        by simp [List.findIdx_cons, hc]⟩
      rw [run_listener_succ]
      unfold Sys.listenerNext
      simp only [hl, if_pos hc]
      rfl
    · obtain ⟨n, s', h, hsel, ht, hu, hn⟩ := scan_alone tx cs { s with listener := .scan tx cs }.startMining
        (by simp)
      refine ⟨n + 1, s', ?_, hsel, by simpa [hc] using ht, by simpa using hu, ?_⟩
      · rw [run_listener_succ]
        unfold Sys.listenerNext
        simp only [hl, if_neg hc]
        exact h
      · simp [hn, List.findIdx_cons, hc]; omega

/-- From `stopMining`'s return to its `select`, the listener alone computes `handleEvent`. -/
theorem handle_alone (s : Sys) (e : Event) (hl : s.listener = .handle e) :
    ∃ n s', s.run Env.any (listenerAlone n) = some s' ∧ s'.listener = .select ∧
      (⟨s'.txs, s'.uncles⟩ : Sets) = (handleEvent s.head ⟨s.txs, s.uncles⟩ e).1 ∧
      s'.sessions.length = s.sessions.length + (handleEvent s.head ⟨s.txs, s.uncles⟩ e).2 := by
  cases e with
  | newBlock b =>
    by_cases hb : s.head.hash = b.hash
    · refine ⟨3, { s with txs := filterTxs b.txs [] s.txs, listener := .select }.startMining, ?_,
        by simp, by simp [handleEvent, hb], by simp [handleEvent, hb]⟩
      rw [run_listener_succ]
      unfold Sys.listenerNext
      simp only [hl, if_pos hb]
      rfl
    · refine ⟨2, { s with
          uncles := if b.prevHash = s.head.prevHash then s.uncles ++ [b] else s.uncles
          listener := .select }.startMining, ?_, by simp, ?_, ?_⟩
      · rw [run_listener_succ]
        unfold Sys.listenerNext
        simp only [hl, if_neg hb]
        rfl
      all_goals by_cases hp : b.prevHash = s.head.prevHash <;> simp [handleEvent, hb, hp]
  | txPre tx =>
    obtain ⟨n, s', h, hsel, ht, hu, hn⟩ := scan_alone tx s.txs { s with listener := .scan tx s.txs } rfl
    refine ⟨n + 1, s', ?_, hsel, ?_, ?_⟩
    · rw [run_listener_succ]
      unfold Sys.listenerNext
      rw [hl]
      exact h
    · rw [ht, hu]
      simp only [handleEvent, scanTxs_found]
      split_ifs <;> simp_all
    · simp [handleEvent, scanTxs_starts, hn]

/-- `handleEvent`, and the listener's own steps, compute `reconcile`. -/
theorem handleEvent_eq_reconcile (head : Block) (m : Sets) (e : Event) :
    (handleEvent head m e).1 = reconcile head m e ∧
      ∀ s : Sys, s.listener = .handle e → s.head = head → (⟨s.txs, s.uncles⟩ : Sets) = m →
        ∃ n s', s.run Env.any (listenerAlone n) = some s' ∧ s'.listener = .select ∧
          (⟨s'.txs, s'.uncles⟩ : Sets) = reconcile head m e := by
  refine ⟨handleEvent_reconciles head m e, fun s hl hh hm => ?_⟩
  obtain ⟨n, s', hr, hsel, hsets, -⟩ := handle_alone s e hl
  subst hh hm
  exact ⟨n, s', hr, hsel, hsets.trans (handleEvent_reconciles _ _ e)⟩

/-- A transaction event on an empty `miner.txs` spawns no session. -/
theorem handleEvent_txPre_nil_starts (head : Block) (uncles : List Block) (tx : Tx) :
    (handleEvent head ⟨[], uncles⟩ (.txPre tx)).2 = 0 ∧
      ∀ s : Sys, s.listener = .handle (.txPre tx) → s.txs = [] →
        ∃ n s', s.run Env.any (listenerAlone n) = some s' ∧ s'.listener = .select ∧
          s'.sessions.length = s.sessions.length := by
  have h₀ (head : Block) (uncles : List Block) : (handleEvent head ⟨[], uncles⟩ (.txPre tx)).2 = 0 := by
    rw [handleEvent_starts]; rfl
  refine ⟨h₀ head uncles, fun s hl htx => ?_⟩
  obtain ⟨n, s', hr, hsel, -, hlen⟩ := handle_alone s _ hl
  rw [htx, h₀] at hlen
  exact ⟨n, s', hr, hsel, hlen⟩

end Ethcore.Miner
