import Ethcore.Miner.Invariant

/-!
# `stopMining` blocks forever, and `Stop` does not stop the session

`stopMining` receives on `miner.powQuitChan` before it closes it, and no goroutine sends on or
closes that channel, so the listener's first event leaves it blocked in `stopMining` for good:

* `Steps` : every continuation of a run, with any answers of the collaborators;
* `next_listener_stopRecv`, `Steps.stopRecv` : once in `stopMining`, the listener stays there and
  no channel gets closed;
* `stopMining_blocks_on_first_event` : the first event after `Start` already does it;
* `HeadPhase`, `Tracked`, `head_txs_filtered` : the reachable states with how far the listener is
  with the head's `NewBlockEvent`; it never gets past `stopMining`, so no state has it handled;
* `stop_then_finish_round` : in every state where a session is inside `pow.Search`, `Stop` leaves
  it free to broadcast and post its block and start the next session;
* `stop_leaves_session_mining` : a run from `Start` that does so.
-/

namespace Ethcore.Miner

def Steps : Sys → Sys → Prop := Relation.ReflTransGen fun s s' => ∃ a, next s a = some s'

theorem next_listener_stopRecv {s s' : Sys} {a : Act} {e : Event} {quit : Option Nat} (hI : Inv s)
    (hl : s.listener = .stopRecv e quit) (h : next s a = some s') : s'.listener = .stopRecv e quit := by
  cases a with
  | listener r => simp [next, listenerNext_stopRecv hI hl] at h
  | session i ans =>
    obtain ⟨sess, s₁, sess', -, h₁, rfl⟩ := sessionNext_eq h
    exact (sessionStep_frame h₁).2.2.1.trans hl
  | setHead b => cases h; exact hl
  | stop => cases h; exact hl

theorem Steps.stopRecv {s s' : Sys} {e : Event} {quit : Option Nat} (hI : Inv s)
    (hl : s.listener = .stopRecv e quit) (hr : Steps s s') :
    s'.listener = .stopRecv e quit ∧ Inv s' := by
  induction hr with
  | refl => exact ⟨hl, hI⟩
  | tail _ h ih =>
    obtain ⟨a, h⟩ := h
    exact ⟨next_listener_stopRecv ih.2 ih.1 h, ih.2.next h⟩

/-- After `Start` and one transaction event the listener is in `stopMining`, and stays there in
every continuation. -/
theorem stopMining_blocks_on_first_event :
    ∃ s, Reachable Env.any [] genesis s ∧ s.listener = .stopRecv (.txPre tx1) (some 1) ∧
      ∀ s', Steps s s' → s'.listener = .stopRecv (.txPre tx1) (some 1) ∧ 1 ∉ s'.closed := by
  have h : (Sys.started [] genesis).run Env.any [.listener .nil, .listener (.event (.txPre tx1))] =
      some { Sys.started [] genesis with
        listener := .stopRecv (.txPre tx1) (some 1), powDone := some 0, powQuitChan := some 1,
        nextChan := 2, sessions := [Session.fresh] } := rfl
  have hs := Reachable.run _ Reachable.started h
  refine ⟨_, hs, rfl, fun s' hr => ?_⟩
  obtain ⟨hl, hI⟩ := hr.stopRecv hs.inv rfl
  exact ⟨hl, by simp [hI.closed]⟩

/-! ## The head's transactions after its `NewBlockEvent` -/

/-- How far the listener is with the current head's `NewBlockEvent`: in the filter branch, or past
its `startMining`. -/
inductive HeadPhase
  | idle
  | filtering (b : Block)
  | handled (b : Block)
  deriving DecidableEq, Repr

def HeadPhase.next (p : HeadPhase) (s : Sys) : Act → HeadPhase
  | .listener _ =>
    match s.listener, p with
    | .handle (.newBlock b), _ => if s.head.hash = b.hash then .filtering b else p
    | .restart, .filtering b => .handled b
    | _, _ => p
  | _ => p

/-- The reachable states with the phase of the current head's event. -/
inductive Tracked (E : Env) (flushed : List Tx) (head : Block) : HeadPhase → Sys → Prop
  | started : Tracked E flushed head .idle (Sys.started flushed head)
  | step {p : HeadPhase} {s s' : Sys} {a : Act} : Tracked E flushed head p s → E.admits s a = true →
      next s a = some s' → Tracked E flushed head (p.next s a) s'

/-- Once the head's event is handled, no transaction of `miner.txs` has a hash of the head's. -/
def HeadFiltered (p : HeadPhase) (s : Sys) : Prop :=
  ∀ b, p = .handled b → ∀ tx ∈ s.txs, tx.hash ∉ b.txs.map Tx.hash

theorem HeadPhase.next_of_inv {s : Sys} (hI : Inv s) (p : HeadPhase) (a : Act) : p.next s a = p := by
  cases a with
  | listener r =>
    unfold HeadPhase.next
    rcases hI.listener with ⟨hl, -⟩ | hl | ⟨e, q, hl⟩ <;> rw [hl]
  | _ => rfl

/-- The listener never returns from `stopMining`, so no phase ever begins. -/
theorem Tracked.idle {E : Env} {flushed : List Tx} {head : Block} {p : HeadPhase} {s : Sys}
    (hs : Tracked E flushed head p s) : p = .idle ∧ Reachable E flushed head s := by
  induction hs with
  | started => exact ⟨rfl, .started⟩
  | step _ ha h ih => exact ⟨(HeadPhase.next_of_inv ih.2.inv _ _).trans ih.1, ih.2.step ha h⟩

/-- Once the listener has handled the current head's `NewBlockEvent`, `miner.txs` holds none of its
transactions. -/
theorem head_txs_filtered {E : Env} {flushed : List Tx} {head : Block} {p : HeadPhase} {s : Sys}
    (hs : Tracked E flushed head p s) : HeadFiltered p s := by
  obtain ⟨rfl, -⟩ := hs.idle
  intro b hb
  cases hb

theorem started_head_filtered : HeadFiltered .idle (Sys.started [tx1] genesis) :=
  @head_txs_filtered Env.any [tx1] genesis _ _ .started

theorem Sys.run_any_session_cons {s s₁ s' : Sys} {i : Nat} {ans : Answer} {as : List Act}
    {sess sess' : Session} (hi : s.sessions[i]? = some sess) (h : s.sessionStep sess ans = some (s₁, sess'))
    (hr : { s₁ with sessions := s₁.sessions.set i sess' }.run Env.any as = some s') :
    s.run Env.any (.session i ans :: as) = some s' := by
  simp only [Sys.run, Env.any_admits, if_true, next, Sys.sessionNext, hi, h, Option.map_some',
    Option.some_bind, hr]

def finishRound (i n : Nat) (pool : List Tx) : List Act :=
  [.session i (.nonce (some n)), .session i .none, .session i (.valid true), .session i .none,
   .session i (.pool pool), .session i .none, .session i .none]

/-- `Stop` leaves a session inside `pow.Search` free to broadcast, post and call `startMining`
(lines 413-422). -/
theorem stop_then_finish_round {s : Sys} {i : Nat} {sess : Session} {q : Option Nat}
    (hi : s.sessions[i]? = some sess) (hpc : sess.pc = .searching q) (n : Nat) (pool : List Tx) :
    ∃ s', s.stop.run Env.any (finishRound i n pool) = some s' ∧ s'.stopCalled = true ∧
      s'.broadcasts = s.broadcasts ++ [s.block] ∧ s'.posts = s.posts ++ [s.block] ∧
      s'.sessions = s.sessions.set i { sess with pc := .done } ++ [Session.fresh] := by
  -- the session's slot stays filled as each step sets it
  have hset {l : List Session} {a b : Session} (h : l[i]? = some b) : (l.set i a)[i]? = some a := by
    rw [List.getElem?_set_self', h]; rfl
  have h₀ : s.stop.sessionStep sess (.nonce (some n)) = some (s.stop, { sess with pc := .setNonce n }) := by
    unfold Sys.sessionStep; rw [hpc]
  refine ⟨_, Sys.run_any_session_cons hi h₀ <| Sys.run_any_session_cons (hset hi) rfl <|
    Sys.run_any_session_cons (hset (hset hi)) rfl <|
    Sys.run_any_session_cons (hset (hset (hset hi))) rfl <|
    Sys.run_any_session_cons (hset (hset (hset (hset hi)))) rfl <|
    Sys.run_any_session_cons (hset (hset (hset (hset (hset hi))))) rfl <|
    Sys.run_any_session_cons (hset (hset (hset (hset (hset (hset hi)))))) rfl rfl, rfl, rfl, rfl, ?_⟩
  have hlt : i < s.sessions.length := (List.getElem?_eq_some_iff.1 hi).1
  simp only [Sys.startMining_sessions, Sys.touch_sessions, Sys.stop, List.set_set, List.set_append_left,
    List.length_set, hlt]

def afterStop : List Act := .stop :: finishRound 0 5 []

/-- After `Stop`, the searching session broadcasts and posts its block and starts a new session. -/
theorem stop_leaves_session_mining :
    ∃ s', Reachable Env.any [tx1] genesis searching ∧
      (searching.sessions.filter Session.active).length = 1 ∧
      searching.run Env.any afterStop = some s' ∧ s'.stopCalled = true ∧ s'.broadcasts = [1] ∧
      s'.posts = [1] ∧ (s'.sessions.filter Session.active).length = 1 := by
  obtain ⟨s', h, hstop, hb, hp, hs⟩ := @stop_then_finish_round searching 0 _ _ rfl rfl 5 []
  refine ⟨s', searching_reachable, by decide, h, hstop, hb, hp, ?_⟩
  rw [hs]
  decide

end Ethcore.Miner
