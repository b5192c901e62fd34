import Ethcore.Miner.System

/-!
# The listener never gets past `stopMining`, and the sessions run one after another

No goroutine of the miner closes or sends on a channel before `stopMining` does, and `stopMining`
closes only after its receive returns, so every quit channel stays open and the receive of line
363 never returns. From that, over every reachable state:

* `Inv` : no channel is closed; the listener is at its start, in its `select`, or blocked in
  `stopMining`; `miner.uncles` is empty; and every `mineNewBlock` goroutine but the last has
  returned, the last one `Ok` at its line (`Serial`);
* `Inv.next` : every step keeps `Inv`; `Reachable.inv` : every reachable state has it;
* `listenerNext_stopRecv` : a listener in `stopMining` has no step;
* `sessions_active_le_one` : at most one session is between its start and the return of its search;
* `mined_block_is_searched_template` : a session broadcasts the object it built and searched,
  untouched since the search but for its nonce;
* `uncles_unique_capped_siblings` : `miner.uncles` and the uncles of every block object are unique,
  at most two, and siblings (they are empty).
-/

namespace Ethcore.Miner

namespace Sys

variable (s : Sys) (f : Template → Template)

@[simp] theorem startMining_closed : s.startMining.closed = s.closed := rfl
@[simp] theorem startMining_uncles : s.startMining.uncles = s.uncles := rfl
@[simp] theorem startMining_listener : s.startMining.listener = s.listener := rfl
@[simp] theorem startMining_block : s.startMining.block = s.block := rfl
@[simp] theorem startMining_objs : s.startMining.objs = s.objs := rfl
@[simp] theorem startMining_txs : s.startMining.txs = s.txs := rfl
@[simp] theorem startMining_broadcasts : s.startMining.broadcasts = s.broadcasts := rfl
@[simp] theorem startMining_posts : s.startMining.posts = s.posts := rfl
@[simp] theorem startMining_sessions : s.startMining.sessions = s.sessions ++ [Session.fresh] := rfl

@[simp] theorem touch_closed : (s.touch f).closed = s.closed := rfl
@[simp] theorem touch_uncles : (s.touch f).uncles = s.uncles := rfl
@[simp] theorem touch_listener : (s.touch f).listener = s.listener := rfl
@[simp] theorem touch_block : (s.touch f).block = s.block := rfl
@[simp] theorem touch_txs : (s.touch f).txs = s.txs := rfl
@[simp] theorem touch_broadcasts : (s.touch f).broadcasts = s.broadcasts := rfl
@[simp] theorem touch_sessions : (s.touch f).sessions = s.sessions := rfl
@[simp] theorem touch_objs_length : (s.touch f).objs.length = s.objs.length := List.length_modify ..

@[simp] theorem touch_objs : (s.touch f).objs = s.objs.modify (Template.mutate f) s.block := rfl

end Sys

@[simp] theorem writesAt_modify_mutate (objs : List Template) (f : Template → Template) (b id : Nat) :
    writesAt (objs.modify (Template.mutate f) b) id =
      writesAt objs id + if b = id ∧ id < objs.length then 1 else 0 := by
  unfold writesAt
  rw [List.getElem?_modify]
  by_cases hb : b = id
  · subst hb
    by_cases hl : b < objs.length
    · simp [hl, List.getElem?_eq_getElem hl, Template.mutate]
    · simp [hl, List.getElem?_eq_none (Nat.le_of_not_lt hl)]
  · cases objs[id]? <;> simp [hb]

/-! ## The invariant -/

/-- What holds of the running goroutine at its line: the object it built, the list it handed on, and
the object it searched. -/
def Session.Ok (s : Sys) (sess : Session) : Prop :=
  match sess.pc with
  | .build | .done => True
  | .uncles | .sort | .process | .fill _ | .search => s.block = sess.own
  | .writeBack .. => s.block = sess.own ∧ s.txs = sess.input
  | .searching _ | .setNonce _ =>
    s.block = sess.own ∧ sess.searched = sess.own ∧ writesAt s.objs sess.own = sess.mark
  | .processBlock | .broadcast | .refresh | .post | .restart =>
    s.block = sess.own ∧ sess.searched = sess.own ∧ writesAt s.objs sess.own = sess.mark + 1

theorem Session.Ok.of_eq {s s' : Sys} {sess : Session} (hb : s'.block = s.block)
    (ht : s'.txs = s.txs) (ho : s'.objs = s.objs) (h : sess.Ok s) : sess.Ok s' := by
  unfold Session.Ok at *
  rw [hb, ht, ho]; exact h

/-- Every goroutine but the last has returned, and the last is `Ok`. -/
def Serial (s : Sys) : Prop :=
  s.sessions = [] ∨ ∃ ds cur, s.sessions = ds ++ [cur] ∧ (∀ d ∈ ds, d.pc = .done) ∧ cur.Ok s

/-- The listener is at line 291, in its `select`, or blocked in `stopMining`. -/
def ListenerOk (s : Sys) : Prop :=
  (s.listener = .start ∧ s.sessions = []) ∨ s.listener = .select ∨
    ∃ e quit, s.listener = .stopRecv e quit

structure Inv (s : Sys) : Prop where
  closed : s.closed = []
  listener : ListenerOk s
  uncles : s.uncles = []
  block_lt : s.block < s.objs.length
  serial : Serial s

theorem Inv.isClosed {s : Sys} (hI : Inv s) (quit : Option Nat) : s.isClosed quit = false := by
  cases quit <;> simp [Sys.isClosed, hI.closed]

theorem inv_started (flushed : List Tx) (head : Block) : Inv (Sys.started flushed head) :=
  ⟨rfl, .inl ⟨rfl, rfl⟩, rfl, Nat.zero_lt_one, .inl rfl⟩

theorem Inv.of_frame {s s' : Sys} (hI : Inv s) (hc : s'.closed = s.closed)
    (hl : s'.listener = s.listener) (hu : s'.uncles = s.uncles) (hb : s'.block = s.block)
    (ht : s'.txs = s.txs) (ho : s'.objs = s.objs) (hs : s'.sessions = s.sessions) : Inv s' := by
  obtain ⟨h1, h2, h3, h4, h5⟩ := hI
  refine ⟨hc ▸ h1, ?_, hu ▸ h3, hb ▸ ho ▸ h4, ?_⟩
  · unfold ListenerOk at *; rw [hl, hs]; exact h2
  · rcases h5 with h5 | ⟨ds, cur, he, hd, hok⟩
    · exact .inl (hs ▸ h5)
    · exact .inr ⟨ds, cur, hs ▸ he, hd, hok.of_eq hb ht ho⟩

/-- A listener in `stopMining` has no step: its quit channel is never closed. -/
theorem listenerNext_stopRecv {s : Sys} (hI : Inv s) {e : Event} {quit : Option Nat}
    (hl : s.listener = .stopRecv e quit) (r : Recv) : s.listenerNext r = none := by
  unfold Sys.listenerNext
  rw [hl]
  simp only [hI.isClosed, Bool.false_eq_true, if_false]

theorem Inv.setListener {s : Sys} (hI : Inv s) {l : LPc} (hl : l = .select ∨ ∃ e quit, l = .stopRecv e quit) :
    Inv { s with listener := l } :=
  ⟨hI.closed, .inr hl, hI.uncles, hI.block_lt, hI.serial⟩

theorem Inv.listenerNext_cases {s s' : Sys} {r : Recv} (hI : Inv s) (h : s.listenerNext r = some s') :
    (s.sessions = [] ∧ s' = { s with listener := .select }.startMining) ∨
      (∃ e, s' = { s with listener := .stopRecv e s.powQuitChan }) ∨ s' = s := by
  rcases hI.listener with ⟨hl, hs⟩ | hl | ⟨e, quit, hl⟩
  · unfold Sys.listenerNext at h
    rw [hl] at h
    exact .inl ⟨hs, (Option.some.inj h).symm⟩
  · cases r with
    | event e =>
      unfold Sys.listenerNext at h
      rw [hl] at h
      simp only [Option.ite_none_right_eq_some, Option.some.injEq] at h
      exact .inr (.inl ⟨e, h.2.symm⟩)
    | nil =>
      unfold Sys.listenerNext at h
      rw [hl] at h
      simp only [Option.ite_none_left_eq_some, Option.some.injEq] at h
      exact .inr (.inr h.2.symm)
    | powDone =>
      unfold Sys.listenerNext at h
      rw [hl] at h
      simp only [hI.isClosed, Bool.false_eq_true, if_false, reduceCtorEq] at h
  · simp only [listenerNext_stopRecv hI hl, reduceCtorEq] at h

theorem Inv.listenerNext {s s' : Sys} {r : Recv} (hI : Inv s) (h : s.listenerNext r = some s') :
    Inv s' := by
  rcases hI.listenerNext_cases h with ⟨hs, rfl⟩ | ⟨e, rfl⟩ | rfl
  · exact ⟨by simp [hI.closed], .inr (.inl rfl), by simp [hI.uncles], by simpa using hI.block_lt,
      .inr ⟨[], Session.fresh, by simp [hs], by simp, trivial⟩⟩
  · exact hI.setListener (.inr ⟨e, _, rfl⟩)
  · exact hI

/-! ## A step of a `mineNewBlock` goroutine -/

section SessionStep

variable {s s₁ : Sys} {sess sess' : Session} {ans : Answer}

theorem sessionStep_frame (h : s.sessionStep sess ans = some (s₁, sess')) :
    s₁.closed = s.closed ∧ s₁.uncles = s.uncles ∧ s₁.listener = s.listener ∧
      (s.block < s.objs.length → s₁.block < s₁.objs.length) := by
  unfold Sys.sessionStep at h
  split at h <;> (try split at h) <;> simp only [Option.some.injEq, Prod.mk.injEq, reduceCtorEq] at h <;>
    obtain ⟨rfl, rfl⟩ := h <;> simp

theorem sessionStep_sessions (h : s.sessionStep sess ans = some (s₁, sess')) :
    s₁.sessions = s.sessions ∨ s₁.sessions = s.sessions ++ [Session.fresh] ∧ sess'.pc = .done := by
  unfold Sys.sessionStep at h
  split at h <;> (try split at h) <;> simp only [Option.some.injEq, Prod.mk.injEq, reduceCtorEq] at h <;>
    obtain ⟨rfl, rfl⟩ := h <;> simp

theorem sessionStep_not_done (h : s.sessionStep sess ans = some (s₁, sess')) : sess.pc ≠ .done := by
  intro hd
  unfold Sys.sessionStep at h
  rw [hd] at h
  cases h

theorem sessionStep_ok (h : s.sessionStep sess ans = some (s₁, sess')) (hb : s.block < s.objs.length)
    (hok : sess.Ok s) : sess'.Ok s₁ := by
  unfold Sys.sessionStep at h
  split at h <;> (try split at h) <;> simp only [Option.some.injEq, Prod.mk.injEq, reduceCtorEq] at h <;>
    obtain ⟨rfl, rfl⟩ := h <;> simp_all [Session.Ok]

end SessionStep

theorem Serial.index {ds : List Session} {cur sess : Session} {i : Nat} (hd : ∀ d ∈ ds, d.pc = .done)
    (hi : (ds ++ [cur])[i]? = some sess) (hn : sess.pc ≠ .done) : i = ds.length ∧ sess = cur := by
  rcases Nat.lt_trichotomy i ds.length with h | rfl | h
  · rw [List.getElem?_append_left h] at hi
    exact absurd (hd _ (List.getElem?_mem hi)) hn
  · simp only [List.getElem?_concat_length, Option.some.injEq] at hi
    exact ⟨rfl, hi.symm⟩
  · have hl : (ds ++ [cur]).length ≤ i := by simp; omega
    simp [List.getElem?_eq_none hl] at hi

theorem sessionNext_eq {s s' : Sys} {i : Nat} {ans : Answer} (h : s.sessionNext i ans = some s') :
    ∃ sess s₁ sess', s.sessions[i]? = some sess ∧ s.sessionStep sess ans = some (s₁, sess') ∧
      s' = { s₁ with sessions := s₁.sessions.set i sess' } := by
  unfold Sys.sessionNext at h
  split at h
  · obtain ⟨⟨s₁, sess'⟩, h₁, rfl⟩ := Option.map_eq_some'.1 h
    exact ⟨_, s₁, sess', ‹_›, h₁, rfl⟩
  · cases h

theorem Inv.sessionNext_split {s s' : Sys} {i : Nat} {ans : Answer} (hI : Inv s)
    (h : s.sessionNext i ans = some s') :
    ∃ ds cur s₁ sess' l, s.sessions = ds ++ [cur] ∧ (∀ d ∈ ds, d.pc = .done) ∧ cur.Ok s ∧
      s.sessions[i]? = some cur ∧ s.sessionStep cur ans = some (s₁, sess') ∧ s' = { s₁ with sessions := l } ∧
      (l = ds ++ [sess'] ∨ l = ds ++ [sess', Session.fresh] ∧ sess'.pc = .done) := by
  obtain ⟨sess, s₁, sess', hsess, h₁, rfl⟩ := sessionNext_eq h
  rcases hI.serial with hs | ⟨ds, cur, he, hd, hok⟩
  · simp [hs] at hsess
  obtain ⟨rfl, rfl⟩ := Serial.index hd (he ▸ hsess) (sessionStep_not_done h₁)
  refine ⟨ds, sess, s₁, sess', _, he, hd, hok, hsess, h₁, rfl, ?_⟩
  rcases sessionStep_sessions h₁ with h2 | ⟨h2, hdone⟩
  · exact .inl (by simp [h2, he])
  · exact .inr ⟨by simp [h2, he], hdone⟩

theorem Inv.sessionNext {s s' : Sys} {i : Nat} {ans : Answer} (hI : Inv s)
    (h : s.sessionNext i ans = some s') : Inv s' := by
  obtain ⟨ds, cur, s₁, sess', l, he, hd, hok, -, h₁, rfl, hl⟩ := hI.sessionNext_split h
  obtain ⟨hc, hu, hlis, hb⟩ := sessionStep_frame h₁
  have hok' : sess'.Ok { s₁ with sessions := l } := (sessionStep_ok h₁ hI.block_lt hok).of_eq rfl rfl rfl
  refine ⟨hc ▸ hI.closed, ?_, hu ▸ hI.uncles, hb hI.block_lt, ?_⟩
  · rcases hI.listener with ⟨-, h0⟩ | h0 | h0
    · simp [h0] at he
    · exact .inr (.inl (hlis ▸ h0))
    · exact .inr (.inr (hlis ▸ h0))
  · rcases hl with rfl | ⟨rfl, hdone⟩
    · exact .inr ⟨ds, sess', rfl, hd, hok'⟩
    · refine .inr ⟨ds ++ [sess'], Session.fresh, by simp, ?_, trivial⟩
      simpa [or_imp, forall_and, hdone] using hd

theorem Inv.next {s s' : Sys} {a : Act} (hI : Inv s) (h : next s a = some s') : Inv s' := by
  cases a with
  | listener r => exact hI.listenerNext h
  | session i ans => exact hI.sessionNext h
  | setHead b =>
    cases h
    exact hI.of_frame rfl rfl rfl rfl rfl rfl rfl
  | stop =>
    cases h
    exact hI.of_frame rfl rfl rfl rfl rfl rfl rfl

theorem Inv.listenerNext_frame {s s' : Sys} {r : Recv} (hI : Inv s) (h : s.listenerNext r = some s') :
    s'.txs = s.txs ∧ s'.objs = s.objs ∧ s'.block = s.block ∧ s'.broadcasts = s.broadcasts ∧
      (s'.sessions = s.sessions ∨ s'.sessions = s.sessions ++ [Session.fresh]) := by
  rcases hI.listenerNext_cases h with ⟨-, rfl⟩ | ⟨e, rfl⟩ | rfl <;> simp

theorem Reachable.inv {E : Env} {flushed : List Tx} {head : Block} {s : Sys}
    (hs : Reachable E flushed head s) : Inv s := by
  induction hs with
  | started => exact inv_started flushed head
  | step _ _ h ih => exact ih.next h

/-! ## A first round -/

def genesis : Block := ⟨0, 0, []⟩

def tx1 : Tx := ⟨1, 0⟩

/-- From `Start` on `[tx1]`: the first session defers `tx1`, finds nonce `5` and has its block
accepted. -/
def firstRound : List Act :=
  [.listener .nil, .session 0 .none, .session 0 .none, .session 0 (.sorted [tx1]),
   .session 0 (.processed [] [tx1] []), .session 0 .none, .session 0 .none, .session 0 .none,
   .session 0 (.nonce (some 5)), .session 0 .none, .session 0 (.valid true)]

def searching : Sys :=
  ((Sys.started [tx1] genesis).run Env.any (firstRound.take 8)).getD (Sys.started [tx1] genesis)

def broadcasting : Sys :=
  ((Sys.started [tx1] genesis).run Env.any firstRound).getD (Sys.started [tx1] genesis)

theorem searching_reachable : Reachable Env.any [tx1] genesis searching :=
  Reachable.run (firstRound.take 8) Reachable.started rfl

theorem broadcasting_reachable : Reachable Env.any [tx1] genesis broadcasting :=
  Reachable.run firstRound Reachable.started rfl

/-! ## One search at a time -/

/-- At most one `mineNewBlock` goroutine is between its start and the return of its search. -/
theorem sessions_active_le_one {E : Env} {flushed : List Tx} {head : Block} {s : Sys}
    (hs : Reachable E flushed head s) : (s.sessions.filter Session.active).length ≤ 1 := by
  rcases hs.inv.serial with h | ⟨ds, cur, h, hd, -⟩
  · simp [h]
  · have : ds.filter Session.active = [] :=
      List.filter_eq_nil_iff.2 fun d hd' => by simp [Session.active, hd d hd']
    rw [h, List.filter_append, this, List.nil_append]
    exact (List.length_filter_le _ _).trans (by simp)

theorem searching_active_le_one : (searching.sessions.filter Session.active).length ≤ 1 :=
  sessions_active_le_one searching_reachable

/-- After its search, a session works on the object it built and searched, written since only by its
nonce. -/
def MinesSearched (s : Sys) (sess : Session) : Prop :=
  match sess.pc with
  | .setNonce _ => s.block = sess.own ∧ sess.searched = sess.own ∧ writesAt s.objs sess.own = sess.mark
  | .processBlock | .broadcast | .refresh | .post =>
    s.block = sess.own ∧ sess.searched = sess.own ∧ writesAt s.objs sess.own = sess.mark + 1
  | _ => True

theorem mined_block_is_searched_template {E : Env} {flushed : List Tx} {head : Block} {s : Sys}
    {sess : Session} (hs : Reachable E flushed head s) (hm : sess ∈ s.sessions) :
    MinesSearched s sess := by
  rcases hs.inv.serial with h | ⟨ds, cur, h, hd, hok⟩
  · simp [h] at hm
  rw [h, List.mem_append, List.mem_singleton] at hm
  rcases hm with hm | rfl
  · simp [MinesSearched, hd sess hm]
  · unfold MinesSearched; unfold Session.Ok at hok
    split <;> simp_all

theorem broadcasting_mines_searched : MinesSearched broadcasting ⟨.broadcast, 1, [tx1], 1, 1⟩ :=
  mined_block_is_searched_template broadcasting_reachable (by decide)

/-! ## Uncles -/

theorem forall_mem_modify {α : Type} {P : α → Prop} {g : α → α} {l : List α} {n : Nat}
    (h : ∀ t ∈ l, P t) (hg : ∀ t, P t → P (g t)) : ∀ t ∈ l.modify g n, P t := by
  intro t ht
  obtain ⟨i, hi, rfl⟩ := List.mem_iff_getElem.1 ht
  rw [List.getElem_modify]
  split
  · exact hg _ (h _ (List.getElem_mem _))
  · exact h _ (List.getElem_mem _)

theorem sessionStep_objs_uncles {s s₁ : Sys} {sess sess' : Session} {ans : Answer}
    (h : s.sessionStep sess ans = some (s₁, sess')) (hu : s.uncles = [])
    (ho : ∀ t ∈ s.objs, t.uncles = []) : ∀ t ∈ s₁.objs, t.uncles = [] := by
  have hm : ∀ f : Template → Template, (∀ t, (f t).uncles = t.uncles) →
      ∀ t ∈ (s.touch f).objs, t.uncles = [] := fun f hf =>
    forall_mem_modify ho fun t ht => by simpa [Template.mutate, hf] using ht
  unfold Sys.sessionStep at h
  split at h <;> (try split at h) <;> simp only [Option.some.injEq, Prod.mk.injEq, reduceCtorEq] at h <;>
    obtain ⟨rfl, rfl⟩ := h
  all_goals first
    | exact ho
    | exact hm _ fun _ => rfl
    | exact absurd ‹0 < s.uncles.length› (by simp [hu])
    | simpa [or_imp, forall_and, Template.new] using ho

theorem Reachable.objs_uncles {E : Env} {flushed : List Tx} {head : Block} {s : Sys}
    (hs : Reachable E flushed head s) : ∀ t ∈ s.objs, t.uncles = [] := by
  induction hs with
  | started => simp [Sys.started, Template.new]
  | @step s s' a hs _ h ih =>
    have hI := hs.inv
    cases a with
    | listener r => exact (hI.listenerNext_frame h).2.1 ▸ ih
    | session i ans =>
      obtain ⟨sess, s₁, sess', -, h₁, rfl⟩ := sessionNext_eq h
      exact (sessionStep_objs_uncles h₁ hI.uncles ih : ∀ t ∈ s₁.objs, t.uncles = [])
    | setHead b => cases h; exact ih
    | stop => cases h; exact ih

/-- `miner.uncles` and the uncles of every block object are unique by hash, at most two, and
siblings. -/
theorem uncles_unique_capped_siblings {E : Env} {flushed : List Tx} {head : Block} {s : Sys}
    (hs : Reachable E flushed head s) :
    ((s.uncles.map Block.hash).Nodup ∧ s.uncles.length ≤ 2 ∧
        ∀ u ∈ s.uncles, u.prevHash = s.head.prevHash) ∧
      ∀ t ∈ s.objs, (t.uncles.map Block.hash).Nodup ∧ t.uncles.length ≤ 2 ∧
        ∀ u ∈ t.uncles, u.prevHash = t.parent.prevHash := by
  refine ⟨by simp [hs.inv.uncles], fun t ht => ?_⟩
  simp [hs.objs_uncles t ht]

theorem broadcasting_uncles :
    ((broadcasting.uncles.map Block.hash).Nodup ∧ broadcasting.uncles.length ≤ 2 ∧
        ∀ u ∈ broadcasting.uncles, u.prevHash = broadcasting.head.prevHash) ∧
      ∀ t ∈ broadcasting.objs, (t.uncles.map Block.hash).Nodup ∧ t.uncles.length ≤ 2 ∧
        ∀ u ∈ t.uncles, u.prevHash = t.parent.prevHash :=
  uncles_unique_capped_siblings broadcasting_reachable

end Ethcore.Miner
