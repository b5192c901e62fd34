import Mathlib.Data.List.Nodup
import Mathlib.Logic.Function.Basic
import Mathlib.Logic.Relation

/-!
# The downloader's `eth_syncing` subscriptions

`PublicDownloaderAPI` keeps its `eth_syncing` subscriptions in the map `syncSubscriptions`, shared
under `muSyncSubscriptions` by three parties: the goroutine `run`, which turns each downloader event
into a notification and sends it to every stored subscription; the `Syncing` calls, which get a
subscription from the client's notifier and store it; and the notifier, whose unsubscribe callback
deletes it. Any party may step next:

* `notification` : the switch of `run`, what each event becomes;
* `notifyAll`, `notifyAll_fst`, `notifyAll_snd` : the locked loop of `run`: every stored
  subscription the notifier still knows is sent the notification, the others are deleted;
* `Api`, `Act`, `next`, `Reachable` : the parties' steps. The notifier is `rpc`'s, outside this
  repository; it is kept at its interface: the IDs it hands out are fresh, `Notify` fails with
  `ErrNotificationNotFound` exactly for an ID no longer subscribed, and an unsubscription runs the
  callback;
* `Inv`, `Reachable.inv` : what holds in every reachable state;
* `received_eq_processed_drop` : a stored subscription whose client is still subscribed has been
  sent the notification of every event `run` processed since it was stored, each once and in
  order, and every subscription has been sent a prefix of those;
* `unsubscribed_entry_dropped` : the map may keep an ID whose client unsubscribed before the
  store of line 203 (`racedStore`); such an ID has been sent nothing, and `run`'s next event
  deletes it, but once `run` has exited nothing ever does.

The locked loop is one step: while `run` holds the lock only `run` changes the map, and an
unsubscription that runs meanwhile comes either before or after the `Notify` of its ID. Receiving
an event and processing it are one step too, since nothing shared is touched between them.
-/

namespace Ethcore.Downloader

/-- `Progress` (lines 171-177), as `Downloader.Progress()` reports it. -/
structure Progress where
  origin : UInt64
  current : UInt64
  height : UInt64
  pulled : UInt64
  known : UInt64
  deriving DecidableEq, Repr

/-- `SyncingResult` (lines 180-183). -/
structure SyncingResult where
  syncing : Bool
  status : Progress
  deriving DecidableEq, Repr

/-- The events `run` subscribes to: `StartEvent`, `DoneEvent`, `FailedEvent`. -/
inductive Event
  | start
  | done
  | failed
  deriving DecidableEq, Repr

/-- What `run` hands to `Notify`: a `*SyncingResult`, or the JSON `false`. -/
inductive Notification
  | result (r : SyncingResult)
  | notSyncing
  deriving DecidableEq, Repr

/-- The switch of `run` (lines 151-158); `progress` is what `api.d.Progress()` returns then. -/
def notification (progress : Progress) : Event → Notification
  | .start => .result ⟨true, progress⟩
  | .done | .failed => .notSyncing

abbrev SubId := Nat

/-- The locked loop of `run` (lines 160-166): `Notify` sends `n` to each ID the notifier still has,
and deletes every other on `ErrNotificationNotFound`. -/
def notifyAll (active : List SubId) (n : Notification) :
    List SubId → (SubId → List Notification) → List SubId × (SubId → List Notification)
  | [], received => ([], received)
  | id :: ids, received =>
    if id ∈ active then
      let r := notifyAll active n ids (Function.update received id (received id ++ [n]))
      (id :: r.1, r.2)
    else notifyAll active n ids received

theorem notifyAll_fst (active : List SubId) (n : Notification) :
    ∀ (ids : List SubId) (received : SubId → List Notification),
      (notifyAll active n ids received).1 = ids.filter (· ∈ active)
  | [], _ => rfl
  | id :: ids, received => by
    by_cases h : id ∈ active <;> simp [notifyAll, h, notifyAll_fst active n ids]

theorem notifyAll_snd (active : List SubId) (n : Notification) :
    ∀ (ids : List SubId), ids.Nodup → ∀ (received : SubId → List Notification) (x : SubId),
      (notifyAll active n ids received).2 x =
        if x ∈ ids ∧ x ∈ active then received x ++ [n] else received x
  | [], _, _, _ => by simp [notifyAll]
  | id :: ids, hnd, received, x => by
    obtain ⟨hid, hnd⟩ := List.nodup_cons.1 hnd
    by_cases h : id ∈ active
    · simp only [notifyAll, h, if_true, notifyAll_snd active n ids hnd]
      by_cases hx : x = id
      · subst hx; simp [hid, h]
      · simp [Function.update_noteq hx, hx]
    · simp only [notifyAll, h, if_false, notifyAll_snd active n ids hnd]
      by_cases hx : x = id
      · subst hx; simp [hid, h]
      · simp [hx]

/-- Where `run` is: before its `mux.Subscribe`, in its loop, or returned. -/
inductive RunPc
  | subscribing
  | receiving
  | exited
  deriving DecidableEq, Repr

/-- The shared state: the map's keys in loop order, the `Syncing` calls not yet stored and the
notifier's IDs; then ghosts of what each client was sent and what `run` processed. -/
structure Api where
  run : RunPc
  syncSubscriptions : List SubId
  nodup : syncSubscriptions.Nodup
  calls : List SubId
  active : List SubId
  issued : List SubId
  received : SubId → List Notification
  processed : List Notification
  joined : SubId → Nat

inductive SyncError
  | notificationsUnsupported
  | newSubscription (err : String)
  deriving DecidableEq, Repr

namespace Api

/-- `NewPublicDownloaderAPI` (lines 137-143): an empty map, and `run` spawned. -/
def new : Api :=
  ⟨.subscribing, [], List.nodup_nil, [], [], [], fun _ => [], [], fun _ => 0⟩

/-- One event through the body of `run`'s loop (lines 148-167). -/
def process (a : Api) (n : Notification) : Api :=
  { a with
    syncSubscriptions := (notifyAll a.active n a.syncSubscriptions a.received).1
    nodup := by rw [notifyAll_fst]; exact a.nodup.filter _
    received := (notifyAll a.active n a.syncSubscriptions a.received).2
    processed := a.processed ++ [n] }

def newSubscription (a : Api) (id : SubId) : Api :=
  { a with issued := a.issued ++ [id], active := a.active ++ [id], calls := a.calls ++ [id] }

/-- `Syncing` up to its subscription (lines 187-200): it fails without a notifier or when
`NewSubscription` fails. -/
def syncing (a : Api) (supported : Bool) (sub : Except String SubId) : Except SyncError Api :=
  if supported then
    match sub with
    | .error err => .error (.newSubscription err)
    | .ok id => .ok (a.newSubscription id)
  else .error .notificationsUnsupported

/-- The end of `Syncing` (lines 202-206): store the subscription under its ID and return it. -/
def store (a : Api) (id : SubId) : Api :=
  { a with
    syncSubscriptions := a.syncSubscriptions.insert id
    nodup := a.nodup.insert
    calls := a.calls.erase id
    joined := Function.update a.joined id a.processed.length }

/-- The client unsubscribes `id`; the callback of lines 192-196 deletes it from the map. -/
def unsubscribe (a : Api) (id : SubId) : Api :=
  { a with
    active := a.active.erase id
    syncSubscriptions := a.syncSubscriptions.erase id
    nodup := a.nodup.erase id }

end Api

/-- A step of one party: `run`, the downloader, the mux, a `Syncing` call, or a client. -/
inductive Act
  | subscribe
  | post (e : Event) (progress : Progress)
  | stop
  | newSubscription (id : SubId)
  | store (id : SubId)
  | unsubscribe (id : SubId)
  deriving DecidableEq, Repr

/-- One step. An event posted while `run` is not in its loop reaches no one. -/
def next (a : Api) : Act → Option Api
  | .subscribe => if a.run = .subscribing then some { a with run := .receiving } else none
  | .post e p => some (if a.run = .receiving then a.process (notification p e) else a)
  | .stop => some { a with run := .exited }
  | .newSubscription id => if id ∈ a.issued then none else (a.syncing true (.ok id)).toOption
  | .store id => if id ∈ a.calls then some (a.store id) else none
  | .unsubscribe id => if id ∈ a.active then some (a.unsubscribe id) else none

inductive Reachable : Api → Prop
  | new : Reachable Api.new
  | step {a a' : Api} {act : Act} : Reachable a → next a act = some a' → Reachable a'

def Steps : Api → Api → Prop := Relation.ReflTransGen fun a a' => ∃ act, next a act = some a'

def Api.runAll (a : Api) : List Act → Option Api
  | [] => some a
  | act :: acts => (next a act).bind (·.runAll acts)

theorem Reachable.runAll {a a' : Api} : ∀ (acts : List Act), Reachable a → a.runAll acts = some a' →
    Reachable a'
  | [], h, hr => by cases hr; exact h
  | act :: acts, h, hr => by
    obtain ⟨a₁, h₁, h₂⟩ := Option.bind_eq_some.1 hr
    exact Reachable.runAll acts (h.step h₁) h₂

/-! ## What each step does -/

section Steps

variable {a a' : Api} {id x : SubId}

@[simp] theorem process_active (n : Notification) : (a.process n).active = a.active := rfl
@[simp] theorem process_issued (n : Notification) : (a.process n).issued = a.issued := rfl
@[simp] theorem process_calls (n : Notification) : (a.process n).calls = a.calls := rfl
@[simp] theorem process_joined (n : Notification) : (a.process n).joined = a.joined := rfl
@[simp] theorem process_processed (n : Notification) :
    (a.process n).processed = a.processed ++ [n] := rfl

@[simp] theorem newSubscription_issued : (a.newSubscription id).issued = a.issued ++ [id] := rfl
@[simp] theorem newSubscription_active : (a.newSubscription id).active = a.active ++ [id] := rfl
@[simp] theorem newSubscription_received : (a.newSubscription id).received = a.received := rfl
@[simp] theorem store_issued : (a.store id).issued = a.issued := rfl
@[simp] theorem store_active : (a.store id).active = a.active := rfl
@[simp] theorem store_received : (a.store id).received = a.received := rfl
@[simp] theorem store_processed : (a.store id).processed = a.processed := rfl
@[simp] theorem store_joined :
    (a.store id).joined = Function.update a.joined id a.processed.length := rfl
@[simp] theorem unsubscribe_issued : (a.unsubscribe id).issued = a.issued := rfl
@[simp] theorem unsubscribe_active : (a.unsubscribe id).active = a.active.erase id := rfl
@[simp] theorem unsubscribe_received : (a.unsubscribe id).received = a.received := rfl

theorem process_received (n : Notification) (x : SubId) :
    (a.process n).received x =
      if x ∈ a.syncSubscriptions ∧ x ∈ a.active then a.received x ++ [n] else a.received x :=
  notifyAll_snd _ _ _ a.nodup _ _

theorem mem_process {n : Notification} :
    x ∈ (a.process n).syncSubscriptions ↔ x ∈ a.syncSubscriptions ∧ x ∈ a.active := by
  simp [Api.process, notifyAll_fst]

theorem next_cases {act : Act} (h : next a act = some a') :
    (a'.syncSubscriptions = a.syncSubscriptions ∧ a'.calls = a.calls ∧ a'.active = a.active ∧
        a'.issued = a.issued ∧ a'.received = a.received ∧ a'.processed = a.processed ∧
        a'.joined = a.joined) ∨
      (∃ n, a' = a.process n) ∨
      (∃ i, i ∉ a.issued ∧ a' = a.newSubscription i) ∨ (∃ i, i ∈ a.calls ∧ a' = a.store i) ∨
      (∃ i, i ∈ a.active ∧ a' = a.unsubscribe i) := by
  cases act with
  | subscribe =>
    simp only [next, Option.ite_none_right_eq_some, Option.some.injEq] at h
    obtain ⟨-, rfl⟩ := h
    exact .inl (by simp)
  | post e p =>
    simp only [next, Option.some.injEq] at h
    subst h
    split
    · exact .inr (.inl ⟨_, rfl⟩)
    · exact .inl (by simp)
  | stop => cases h; exact .inl (by simp)
  | newSubscription id =>
    simp only [next, Api.syncing, if_true, Except.toOption, Option.ite_none_left_eq_some,
      Option.some.injEq] at h
    exact .inr (.inr (.inl ⟨id, h.1, h.2.symm⟩))
  | store id =>
    simp only [next, Option.ite_none_right_eq_some, Option.some.injEq] at h
    exact .inr (.inr (.inr (.inl ⟨id, h.1, h.2.symm⟩)))
  | unsubscribe id =>
    simp only [next, Option.ite_none_right_eq_some, Option.some.injEq] at h
    exact .inr (.inr (.inr (.inr ⟨id, h.1, h.2.symm⟩)))

end Steps

/-! ## The invariant -/

/-- What holds in every reachable state: what each client was sent against what `run` processed
since its ID was stored. -/
structure Inv (a : Api) : Prop where
  active_issued : ∀ x ∈ a.active, x ∈ a.issued
  subs_issued : ∀ x ∈ a.syncSubscriptions, x ∈ a.issued
  calls_issued : ∀ x ∈ a.calls, x ∈ a.issued
  calls_nodup : a.calls.Nodup
  calls_fresh : ∀ x ∈ a.calls, x ∉ a.syncSubscriptions ∧ a.received x = []
  fresh_received : ∀ x, x ∉ a.issued → a.received x = []
  joined_le : ∀ x, a.joined x ≤ a.processed.length
  segment : ∀ x, a.received x <+: a.processed.drop (a.joined x)
  complete : ∀ x ∈ a.syncSubscriptions, x ∈ a.active → a.received x = a.processed.drop (a.joined x)

theorem inv_new : Inv Api.new where
  active_issued := by simp [Api.new]
  subs_issued := by simp [Api.new]
  calls_issued := by simp [Api.new]
  calls_nodup := List.nodup_nil
  calls_fresh := by simp [Api.new]
  fresh_received _ _ := rfl
  joined_le _ := Nat.zero_le _
  segment _ := List.nil_prefix
  complete := by simp [Api.new]

section Preservation

variable {a : Api} (hI : Inv a)
include hI

theorem Inv.process (n : Notification) : Inv (a.process n) where
  active_issued := hI.active_issued
  subs_issued x hx := hI.subs_issued x (mem_process.1 hx).1
  calls_issued := hI.calls_issued
  calls_nodup := hI.calls_nodup
  calls_fresh x hx := by
    have hs := (hI.calls_fresh x hx).1
    exact ⟨fun h => hs (mem_process.1 h).1, by simp [process_received, hs, hI.calls_fresh x hx]⟩
  fresh_received x hx := by
    have hs : x ∉ a.syncSubscriptions := fun h => hx (hI.subs_issued x h)
    simp [process_received, hs, hI.fresh_received x hx]
  joined_le x := (hI.joined_le x).trans (by simp)
  segment x := by
    rw [process_received, process_processed, process_joined,
      List.drop_append_of_le_length (hI.joined_le x)]
    split_ifs with h
    · exact hI.complete x h.1 h.2 ▸ List.prefix_refl _
    · exact (hI.segment x).trans (List.prefix_append _ _)
  complete x hx ha := by
    obtain ⟨hs, -⟩ := mem_process.1 hx
    rw [process_received, if_pos ⟨hs, ha⟩, process_processed, process_joined,
      List.drop_append_of_le_length (hI.joined_le x), hI.complete x hs ha]

theorem Inv.newSubscription {id : SubId} (hid : id ∉ a.issued) : Inv (a.newSubscription id) where
  active_issued x hx := by
    rcases List.mem_append.1 hx with hx | hx
    · exact List.mem_append_left _ (hI.active_issued x hx)
    · exact List.mem_append_right _ hx
  subs_issued x hx := List.mem_append_left _ (hI.subs_issued x hx)
  calls_issued x hx := by
    rcases List.mem_append.1 hx with hx | hx
    · exact List.mem_append_left _ (hI.calls_issued x hx)
    · exact List.mem_append_right _ hx
  calls_nodup := hI.calls_nodup.append (List.nodup_singleton _)
    (List.disjoint_singleton.2 fun h => hid (hI.calls_issued _ h))
  calls_fresh x hx := by
    rcases List.mem_append.1 hx with hx | hx
    · exact hI.calls_fresh x hx
    · rw [List.mem_singleton.1 hx]
      exact ⟨fun h => hid (hI.subs_issued _ h), hI.fresh_received _ hid⟩
  fresh_received x hx := hI.fresh_received x fun h => hx (List.mem_append_left _ h)
  joined_le := hI.joined_le
  segment := hI.segment
  complete x hx ha := by
    refine hI.complete x hx ?_
    rcases List.mem_append.1 ha with ha | ha
    · exact ha
    · exact absurd (hI.subs_issued x hx) (List.mem_singleton.1 ha ▸ hid)

theorem Inv.store {id : SubId} (hid : id ∈ a.calls) : Inv (a.store id) where
  active_issued := hI.active_issued
  subs_issued x hx := by
    rcases List.mem_insert_iff.1 hx with rfl | hx
    · exact hI.calls_issued x hid
    · exact hI.subs_issued x hx
  calls_issued x hx := hI.calls_issued x (List.mem_of_mem_erase hx)
  calls_nodup := hI.calls_nodup.erase id
  calls_fresh x hx := by
    obtain ⟨hne, hx⟩ := (hI.calls_nodup.mem_erase_iff).1 hx
    refine ⟨fun h => ?_, (hI.calls_fresh x hx).2⟩
    rcases List.mem_insert_iff.1 h with h | h
    · exact hne h
    · exact (hI.calls_fresh x hx).1 h
  fresh_received := hI.fresh_received
  joined_le x := by
    rw [store_joined, store_processed]
    by_cases hx : x = id
    · subst hx; exact (Function.update_same _ _ _).le
    · rw [Function.update_noteq hx]; exact hI.joined_le x
  segment x := by
    rw [store_received, store_joined, store_processed]
    by_cases hx : x = id
    · subst hx; rw [(hI.calls_fresh x hid).2]; exact List.nil_prefix
    · rw [Function.update_noteq hx]; exact hI.segment x
  complete x hx ha := by
    rw [store_received, store_joined, store_processed]
    by_cases hxi : x = id
    · subst hxi; rw [(hI.calls_fresh x hid).2, Function.update_same, List.drop_length]
    · rw [Function.update_noteq hxi]
      exact hI.complete x ((List.mem_insert_iff.1 hx).resolve_left hxi) ha

theorem Inv.unsubscribe (id : SubId) : Inv (a.unsubscribe id) where
  active_issued x hx := hI.active_issued x (List.mem_of_mem_erase hx)
  subs_issued x hx := hI.subs_issued x (List.mem_of_mem_erase hx)
  calls_issued := hI.calls_issued
  calls_nodup := hI.calls_nodup
  calls_fresh x hx := ⟨fun h => (hI.calls_fresh x hx).1 (List.mem_of_mem_erase h),
    (hI.calls_fresh x hx).2⟩
  fresh_received := hI.fresh_received
  joined_le := hI.joined_le
  segment := hI.segment
  complete x hx ha := hI.complete x (List.mem_of_mem_erase hx) (List.mem_of_mem_erase ha)

theorem Inv.next {a' : Api} {act : Act} (h : next a act = some a') : Inv a' := by
  rcases next_cases h with ⟨hs, hc, ha, hi, hr, hp, hj⟩ | ⟨n, rfl⟩ | ⟨i, hi, rfl⟩ | ⟨i, hi, rfl⟩ |
    ⟨i, -, rfl⟩
  · exact ⟨hi ▸ ha ▸ hI.active_issued, hi ▸ hs ▸ hI.subs_issued, hi ▸ hc ▸ hI.calls_issued,
      hc ▸ hI.calls_nodup, hr ▸ hs ▸ hc ▸ hI.calls_fresh, hr ▸ hi ▸ hI.fresh_received,
      hp ▸ hj ▸ hI.joined_le, hr ▸ hp ▸ hj ▸ hI.segment, hr ▸ hp ▸ hj ▸ ha ▸ hs ▸ hI.complete⟩
  · exact hI.process n
  · exact hI.newSubscription hi
  · exact hI.store hi
  · exact hI.unsubscribe i

end Preservation

theorem Reachable.inv {a : Api} (h : Reachable a) : Inv a := by
  induction h with
  | new => exact inv_new
  | step _ h ih => exact ih.next h

/-- Each client has been sent, once each and in order, a prefix of the notifications processed since
its store, and all of them while stored and subscribed. -/
theorem received_eq_processed_drop {a : Api} (h : Reachable a) :
    (∀ id, a.received id <+: a.processed.drop (a.joined id)) ∧
      ∀ id ∈ a.syncSubscriptions, id ∈ a.active → a.received id = a.processed.drop (a.joined id) :=
  ⟨h.inv.segment, h.inv.complete⟩

def progress₀ : Progress := ⟨0, 5, 10, 0, 0⟩

def syncedActs : List Act :=
  [.subscribe, .newSubscription 7, .store 7, .post .start progress₀, .post .done progress₀]

def synced : Api := (Api.new.runAll syncedActs).getD Api.new

theorem synced_reachable : Reachable synced := Reachable.runAll syncedActs Reachable.new rfl

theorem synced_received :
    synced.received 7 = [.result ⟨true, progress₀⟩, .notSyncing] ∧
      synced.received 7 = synced.processed.drop (synced.joined 7) :=
  ⟨by decide, (received_eq_processed_drop synced_reachable).2 7 (by decide) (by decide)⟩

/-! ## Subscriptions stored after their client left

The callback of `Syncing` may run before line 203 stores the subscription: the client unsubscribes
between `NewSubscription` and the store. The callback then deletes nothing, and the map keeps an
ID its client has left. -/

def StaleFresh (a : Api) : Prop :=
  ∀ x ∈ a.syncSubscriptions, x ∉ a.active → a.joined x = a.processed.length

theorem staleFresh_next {a a' : Api} {act : Act} (hs : StaleFresh a) (h : next a act = some a') :
    StaleFresh a' := by
  rcases next_cases h with ⟨hS, -, hA, -, -, hP, hJ⟩ | ⟨n, rfl⟩ | ⟨i, -, rfl⟩ | ⟨i, -, rfl⟩ |
    ⟨i, -, rfl⟩
  · intro x hx ha
    rw [hS] at hx; rw [hA] at ha; rw [hJ, hP]
    exact hs x hx ha
  · intro x hx ha
    exact absurd (mem_process.1 hx).2 ha
  · intro x hx ha
    exact hs x hx fun h => ha (List.mem_append_left _ h)
  · intro x hx ha
    by_cases hxi : x = i
    · subst hxi; exact Function.update_same _ _ _
    · rw [store_joined, Function.update_noteq hxi]
      exact hs x ((List.mem_insert_iff.1 hx).resolve_left hxi) ha
  · intro x hx ha
    obtain ⟨hxi, hx'⟩ := (a.nodup.mem_erase_iff).1 hx
    exact hs x hx' fun h => ha (List.mem_erase_of_ne hxi |>.2 h)

theorem Reachable.staleFresh {a : Api} (h : Reachable a) : StaleFresh a := by
  induction h with
  | new => intro x hx; simp [Api.new] at hx
  | step _ h ih => exact staleFresh_next ih h

theorem next_keeps_stale {a a' : Api} {act : Act} {x : SubId} (hI : Inv a)
    (h : next a act = some a') (hrun : a.run = .exited) (hx : x ∈ a.syncSubscriptions)
    (ha : x ∉ a.active) : a'.run = .exited ∧ x ∈ a'.syncSubscriptions ∧ x ∉ a'.active := by
  cases act with
  | subscribe => simp [next, hrun] at h
  | post e p =>
    simp only [next, hrun, reduceCtorEq, if_false, Option.some.injEq] at h
    subst h
    exact ⟨hrun, hx, ha⟩
  | stop => cases h; exact ⟨rfl, hx, ha⟩
  | newSubscription id =>
    simp only [next, Api.syncing, if_true, Except.toOption, Option.ite_none_left_eq_some,
      Option.some.injEq] at h
    obtain ⟨hid, rfl⟩ := h
    refine ⟨hrun, hx, ?_⟩
    simp only [newSubscription_active, List.mem_append, List.mem_singleton, not_or]
    exact ⟨ha, fun e => hid (e ▸ hI.subs_issued x hx)⟩
  | store id =>
    simp only [next, Option.ite_none_right_eq_some, Option.some.injEq] at h
    obtain ⟨-, rfl⟩ := h
    exact ⟨hrun, List.mem_insert_of_mem hx, ha⟩
  | unsubscribe id =>
    simp only [next, Option.ite_none_right_eq_some, Option.some.injEq] at h
    obtain ⟨hid, rfl⟩ := h
    exact ⟨hrun, (List.mem_erase_of_ne fun (e : x = id) => ha (e ▸ hid)).2 hx,
      fun h' => ha (List.mem_of_mem_erase h')⟩

theorem Steps.keeps_stale {a a' : Api} {x : SubId} (hR : Reachable a) (hs : Steps a a')
    (hrun : a.run = .exited) (hx : x ∈ a.syncSubscriptions) (ha : x ∉ a.active) :
    x ∈ a'.syncSubscriptions := by
  have key : Reachable a' ∧ a'.run = .exited ∧ x ∈ a'.syncSubscriptions ∧ x ∉ a'.active := by
    induction hs with
    | refl => exact ⟨hR, hrun, hx, ha⟩
    | tail _ h ih =>
      obtain ⟨act, h⟩ := h
      exact ⟨ih.1.step h, next_keeps_stale ih.1.inv h ih.2.1 ih.2.2.1 ih.2.2.2⟩
  exact key.2.2.1

/-- An ID stored after its client left has been sent nothing; `run`'s next event deletes it, but
once `run` has exited it stays. -/
theorem unsubscribed_entry_dropped {a : Api} (h : Reachable a) :
    ∀ x ∈ a.syncSubscriptions, x ∉ a.active →
      a.joined x = a.processed.length ∧ a.received x = [] ∧
        (∀ n, x ∉ (a.process n).syncSubscriptions) ∧
        (a.run = .exited → ∀ a', Steps a a' → x ∈ a'.syncSubscriptions) := by
  intro x hx ha
  have hj := h.staleFresh x hx ha
  have hr := h.inv.segment x
  rw [hj, List.drop_length, List.prefix_nil] at hr
  exact ⟨hj, hr, fun _ hp => ha (mem_process.1 hp).2, fun hrun _ hs => hs.keeps_stale h hrun hx ha⟩

/-- `run` subscribes; a `Syncing` call gets ID `7`; its client unsubscribes; the call stores `7`. -/
def racedStore : Api :=
  (Api.new.runAll [.subscribe, .newSubscription 7, .unsubscribe 7, .store 7]).getD Api.new

theorem racedStore_stale :
    7 ∈ racedStore.syncSubscriptions ∧ 7 ∉ racedStore.active ∧ racedStore.received 7 = [] :=
  have hr : Reachable racedStore :=
    Reachable.runAll [.subscribe, .newSubscription 7, .unsubscribe 7, .store 7] Reachable.new rfl
  ⟨by decide, by decide, (unsubscribed_entry_dropped hr 7 (by decide) (by decide)).2.1⟩

end Ethcore.Downloader
