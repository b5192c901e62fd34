import Ethcore.Miner.Deadlock

/-!
# `miner.txs` across rounds

Only the running round writes `miner.txs` (the listener never gets past `stopMining`), so each
write is made on the list the round read:

* `sessionStep_txs` : a session changes `miner.txs` only by its sort (line 381), its write-back
  (line 393) and its refresh (line 417);
* `Session.Round`, `Reachable.rounds` : from its write-back to its refresh, `miner.txs` is what the
  round kept of its `ProcessTransactions` input;
* `txs_nodup_hash` : under collaborators that keep lists unique, `miner.txs` stays unique by hash;
* `refresh_drops_deferred_tx` : the refresh drops a transaction that `Flush` took and the round
  deferred, which is neither in the mined block nor in the pool;
* `txs_leave_by_error_or_refresh` : a transaction leaves `miner.txs` only by the write-back of a
  round that read it and reported it erroneous, or by the refresh of a round that read it.
-/

namespace Ethcore.Miner

section SessionStep

variable {s s₁ : Sys} {sess sess' : Session} {ans : Answer}

theorem sessionStep_txs (h : s.sessionStep sess ans = some (s₁, sess')) :
    s₁.txs = s.txs ∨ (sess.pc = .sort ∧ SortedByNonce s.txs s₁.txs) ∨
      (∃ acc unh err, sess.pc = .writeBack acc unh err ∧ s₁.txs = acc ++ unh) ∨
      (sess.pc = .refresh ∧ ans = .pool s₁.txs) := by
  unfold Sys.sessionStep at h
  split at h <;> (try split at h) <;> simp only [Option.some.injEq, Prod.mk.injEq, reduceCtorEq] at h <;>
    obtain ⟨rfl, rfl⟩ := h
  all_goals first
    | exact .inl rfl
    | exact .inr (.inl ⟨‹_›, ‹_›⟩)
    | exact .inr (.inr (.inl ⟨_, _, _, ‹_›, rfl⟩))
    | exact .inr (.inr (.inr ⟨‹_›, rfl⟩))

end SessionStep

theorem next_txs {s s' : Sys} {a : Act} (hI : Inv s) (h : next s a = some s') :
    s'.txs = s.txs ∨ ∃ i ans, a = .session i ans := by
  cases a with
  | listener r => exact .inl (hI.listenerNext_frame h).1
  | session i ans => exact .inr ⟨i, ans, rfl⟩
  | setHead b => cases h; exact .inl rfl
  | stop => cases h; exact .inl rfl

/-- What round `sess` did to `miner.txs`: from its write-back to its refresh, the kept part of an
answer of `E`. -/
def Session.Round (E : Env) (s : Sys) (sess : Session) : Prop :=
  match sess.pc with
  | .writeBack acc unh err => E.process sess.input acc unh err = true
  | .fill _ | .search | .searching _ | .setNonce _ | .processBlock | .broadcast | .refresh =>
    ∃ acc unh err, E.process sess.input acc unh err = true ∧ s.txs = acc ++ unh
  | _ => True

theorem sessionStep_round {E : Env} {s s₁ : Sys} {sess sess' : Session} {ans : Answer} {i : Nat}
    (h : s.sessionStep sess ans = some (s₁, sess')) (hadm : E.admits s (.session i ans) = true)
    (hr : sess.Round E s) : sess'.Round E s₁ := by
  unfold Sys.sessionStep at h
  split at h <;> (try split at h) <;> simp only [Option.some.injEq, Prod.mk.injEq, reduceCtorEq] at h <;>
    obtain ⟨rfl, rfl⟩ := h <;> unfold Session.Round at hr ⊢ <;> simp only [*] at hr ⊢
  -- the write-back holds the answer the step was admitted with; the steps after it keep `miner.txs`
  all_goals first | exact hadm | exact hr | exact ⟨_, _, _, hr, rfl⟩

theorem Session.Round.of_txs {E : Env} {s s' : Sys} {sess : Session} (h : s'.txs = s.txs)
    (hr : sess.Round E s) : sess.Round E s' := by
  unfold Session.Round at *; rw [h]; exact hr

theorem Reachable.rounds {E : Env} {flushed : List Tx} {head : Block} {s : Sys}
    (hs : Reachable E flushed head s) : ∀ sess ∈ s.sessions, sess.Round E s := by
  induction hs with
  | started => simp [Sys.started]
  | @step s s' a hs hadm h ih =>
    have hI := hs.inv
    cases a with
    | listener r =>
      obtain ⟨ht, -, -, -, hss⟩ := hI.listenerNext_frame h
      intro sess hm
      rcases hss with hss | hss <;> rw [hss] at hm
      · exact (ih sess hm).of_txs ht
      · rcases List.mem_append.1 hm with hm | hm
        · exact (ih sess hm).of_txs ht
        · rw [List.mem_singleton.1 hm]; trivial
    | session i ans =>
      obtain ⟨ds, cur, s₁, sess', l, he, hd, -, -, h₁, rfl, hl⟩ := hI.sessionNext_split h
      have hcur : sess'.Round E s₁ := sessionStep_round h₁ hadm (ih cur (by simp [he]))
      intro sess hm
      have hm' : sess ∈ ds ∨ sess = sess' ∨ sess = Session.fresh := by
        rcases hl with rfl | ⟨rfl, -⟩ <;> simp only [List.mem_append, List.mem_cons,
          List.mem_singleton, List.not_mem_nil, or_false] at hm <;> tauto
      rcases hm' with hm' | rfl | rfl
      · simp [Session.Round, hd sess hm']
      · exact hcur
      · trivial
    | setHead b => cases h; exact ih
    | stop => cases h; exact ih

theorem Reachable.writeBack_answer {E : Env} {flushed : List Tx} {head : Block} {s : Sys}
    {cur : Session} {acc unh err : List Tx} (hs : Reachable E flushed head s) (hm : cur ∈ s.sessions)
    (hok : cur.Ok s) (hpc : cur.pc = .writeBack acc unh err) :
    cur.input = s.txs ∧ E.process s.txs acc unh err = true := by
  have hr := hs.rounds cur hm
  simp only [Session.Round, hpc] at hr
  simp only [Session.Ok, hpc] at hok
  exact ⟨hok.2.symm, hok.2 ▸ hr⟩

/-! ## Unique by hash -/

/-- Under answers unique by hash, `miner.txs` never holds two transactions of one hash. -/
theorem txs_nodup_hash {E : Env} {flushed : List Tx} {head : Block} {s : Sys}
    (hproc : ∀ input acc unh err, E.process input acc unh err = true →
      acc.Sublist input ∧ unh.Sublist input ∧ acc.Disjoint unh)
    (hpool : ∀ l, E.pool l = true → NodupHash l) (hflush : NodupHash flushed)
    (hs : Reachable E flushed head s) : NodupHash s.txs := by
  induction hs with
  | started => exact hflush
  | @step s s' a hs hadm h ih =>
    have hI := hs.inv
    rcases next_txs hI h with ht | ⟨i, ans, rfl⟩
    · exact ht ▸ ih
    obtain ⟨ds, cur, s₁, sess', l, he, -, hok, -, h₁, rfl, -⟩ := hI.sessionNext_split h
    show NodupHash s₁.txs
    rcases sessionStep_txs h₁ with ht | ⟨-, hp⟩ | ⟨acc, unh, err, hpc, ht⟩ | ⟨-, rfl⟩
    · exact ht ▸ ih
    · exact ih.perm hp.1
    · obtain ⟨ha, hu, hdisj⟩ := hproc _ _ _ _ (hs.writeBack_answer (by simp [he]) hok hpc).2
      exact ht ▸ ih.append_of_sublist ha hu hdisj
    · exact hpool _ hadm

/-- Answers that keep lists unique by hash. -/
def Env.unique : Env :=
  ⟨fun input acc unh _ => decide (acc.Sublist input ∧ unh.Sublist input ∧ ∀ x ∈ acc, x ∉ unh),
    fun l => decide (NodupHash l)⟩

theorem broadcasting_txs_nodup_hash : NodupHash broadcasting.txs :=
  txs_nodup_hash (fun _ _ _ _ h => by
      obtain ⟨ha, hu, hd⟩ := of_decide_eq_true h
      exact ⟨ha, hu, fun x hx hx' => hd x hx hx'⟩)
    (fun _ h => of_decide_eq_true h) (by decide)
    (Reachable.run firstRound Reachable.started rfl : Reachable Env.unique [tx1] genesis broadcasting)

/-! ## Leaving `miner.txs` -/

/-- Answers of `ProcessTransactions` that partition its input. -/
def Env.partition : Env := ⟨fun input acc unh err => decide ((acc ++ unh ++ err).Perm input), fun _ => true⟩

def refreshing : Sys :=
  ((Sys.started [tx1] genesis).run Env.partition (firstRound ++ [.session 0 .none])).getD
    (Sys.started [tx1] genesis)

def refreshed : Sys := (next refreshing (.session 0 (.pool []))).getD refreshing

theorem refreshing_reachable : Reachable Env.partition [tx1] genesis refreshing :=
  Reachable.run (firstRound ++ [Act.session 0 .none]) Reachable.started rfl

/-- The refresh drops `tx1`, deferred by the round, though it is in neither the block nor the pool.
-/
theorem refresh_drops_deferred_tx :
    Reachable Env.partition [tx1] genesis refreshing ∧
      (∃ sess, refreshing.sessions[0]? = some sess ∧ sess.pc = .refresh) ∧
      next refreshing (.session 0 (.pool [])) = some refreshed ∧ tx1 ∈ refreshing.txs ∧
      tx1 ∉ refreshed.txs ∧
      (∃ t, refreshing.objs[refreshing.block]? = some t ∧ t.nonce = some 5 ∧ tx1 ∉ t.txs) ∧
      tx1 ∉ ([] : List Tx) :=
  ⟨refreshing_reachable, by decide, rfl, by decide, by decide, by decide, by decide⟩

/-- A transaction leaves `miner.txs` only at the write-back of a round that reported it erroneous,
or at a refresh. -/
theorem txs_leave_by_error_or_refresh {E : Env} {flushed : List Tx} {head : Block} {s s' : Sys}
    {a : Act} {tx : Tx}
    (hE : ∀ input acc unh err, E.process input acc unh err = true → (acc ++ unh ++ err).Perm input)
    (hs : Reachable E flushed head s) (hadm : E.admits s a = true) (h : next s a = some s')
    (hin : tx ∈ s.txs) (hout : tx ∉ s'.txs) :
    ∃ i ans sess, a = .session i ans ∧ s.sessions[i]? = some sess ∧ tx ∈ sess.input ∧
      ((∃ acc unh err, sess.pc = .writeBack acc unh err ∧ tx ∈ err) ∨ sess.pc = .refresh) := by
  have hI := hs.inv
  rcases next_txs hI h with ht | ⟨i, ans, rfl⟩
  · exact absurd (ht ▸ hin) hout
  obtain ⟨ds, cur, s₁, sess', l, he, -, hok, hi, h₁, rfl, -⟩ := hI.sessionNext_split h
  have hcur : cur ∈ s.sessions := by simp [he]
  refine ⟨i, ans, cur, rfl, hi, ?_⟩
  rcases sessionStep_txs h₁ with ht | ⟨-, hp⟩ | ⟨acc, unh, err, hpc, ht⟩ | ⟨hpc, -⟩
  · exact absurd (ht ▸ hin) hout
  · exact absurd (hp.1.mem_iff.2 hin) hout
  · obtain ⟨hinput, hr⟩ := hs.writeBack_answer hcur hok hpc
    have hm := (hE _ _ _ _ hr).mem_iff.2 hin
    have hn : tx ∉ acc ++ unh := ht ▸ hout
    refine ⟨hinput ▸ hin, .inl ⟨acc, unh, err, hpc, ?_⟩⟩
    simp only [List.mem_append] at hm hn
    tauto
  · have hr := hs.rounds cur hcur
    simp only [Session.Round, hpc] at hr
    obtain ⟨acc, unh, err, hr, ht⟩ := hr
    exact ⟨(hE _ _ _ _ hr).subset (List.mem_append_left _ (ht ▸ hin)), .inr hpc⟩

theorem refreshed_drop_by_refresh :
    ∃ i ans sess, Act.session 0 (.pool []) = .session i ans ∧ refreshing.sessions[i]? = some sess ∧
      tx1 ∈ sess.input ∧
      ((∃ acc unh err, sess.pc = .writeBack acc unh err ∧ tx1 ∈ err) ∨ sess.pc = .refresh) :=
  txs_leave_by_error_or_refresh (fun _ _ _ _ h => of_decide_eq_true h) refreshing_reachable rfl rfl
    (by decide) (by decide)

end Ethcore.Miner
