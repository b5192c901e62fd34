import Ethcore.Miner.Listener

/-!
# The miner as goroutines: the listener and the `mineNewBlock` sessions

The `Miner` of `bind.go` after `Start`, as a system of goroutines over its shared fields. Each
goroutine takes atomic steps, one per read or write of a shared field, and any goroutine may step
next:

* `LPc` : where the listener is, in its `select`, in `stopMining`, or in the branch of an event;
* `SPc`, `Session` : where a `mineNewBlock` goroutine is, with the block object it built and the
  one it passed to `pow.Search`;
* `Sys` : the fields of `Miner`, the channels `make` created and which are closed, the chain head,
  the goroutines, and the blocks broadcast and posted;
* `Act`, `next` : a step of the listener, of session `i` (with what the collaborator it calls
  answers), a new chain head, or a call of `Miner.Stop`;
* `Env`, `Reachable` : the answers the collaborators may give, and every state reachable from
  `Sys.started` with them.

The proof-of-work engine receives from the quit channel only (its parameter is `<-chan struct{}`)
and may return a nonce or `nil` at any time; no goroutine of the model sends on a channel.
-/

namespace Ethcore.Miner

inductive LPc
  | start
  | select
  | stopRecv (e : Event) (quit : Option Nat)
  | handle (e : Event)
  | scan (tx : Tx) (ctxs : List Tx)
  | undo (tx : Tx)
  | append (tx : Tx)
  | writeTxs (txs : List Tx) (restart : Bool)
  | restart
  deriving DecidableEq, Repr

/-- Where a `mineNewBlock` goroutine is: before line 373, 376, 381, 385, 392, 395, 406, inside
`pow.Search`, before line 408, 409, 413, 417, 418, 422, or returned. -/
inductive SPc
  | build
  | uncles
  | sort
  | process
  | writeBack (acc unh err : List Tx)
  | fill (acc : List Tx)
  | search
  | searching (quit : Option Nat)
  | setNonce (nonce : Nat)
  | processBlock
  | broadcast
  | refresh
  | post
  | restart
  | done
  deriving DecidableEq, Repr

/-- A `mineNewBlock` goroutine: the object it built, the list it handed on, the object it searched
and its count then. -/
structure Session where
  pc : SPc
  own : Nat
  input : List Tx
  searched : Nat
  mark : Nat
  deriving DecidableEq, Repr

/-- `go miner.mineNewBlock()`. -/
def Session.fresh : Session := { pc := .build, own := 0, input := [], searched := 0, mark := 0 }

/-- Between its start and the return of its `pow.Search` call. -/
def Session.active (sess : Session) : Bool :=
  match sess.pc with
  | .build | .uncles | .sort | .process | .writeBack .. | .fill _ | .search | .searching _ => true
  | _ => false

/-- The miner's fields, its channels, the chain head, its goroutines, and what it broadcast and
posted. -/
structure Sys where
  txs : List Tx
  uncles : List Block
  block : Nat
  objs : List Template
  powQuitChan : Option Nat
  powDone : Option Nat
  nextChan : Nat
  closed : List Nat
  subscribed : Bool
  head : Block
  listener : LPc
  sessions : List Session
  broadcasts : List Nat
  posts : List Nat
  stopCalled : Bool
  deriving DecidableEq, Repr

def Template.mutate (f : Template → Template) (t : Template) : Template :=
  { f t with writes := t.writes + 1 }

def writesAt (objs : List Template) (id : Nat) : Nat := ((objs[id]?).map Template.writes).getD 0

namespace Sys

/-- A receive from `quit` can proceed: `quit` is a closed channel (a nil channel blocks forever). -/
def isClosed (s : Sys) (quit : Option Nat) : Bool :=
  match quit with
  | some c => decide (c ∈ s.closed)
  | none => false

/-- `miner.startMining()` (lines 354-358). -/
def startMining (s : Sys) : Sys :=
  let quit := if s.powDone = none then s.nextChan + 1 else s.nextChan
  { s with powDone := if s.powDone = none then some s.nextChan else s.powDone,
           powQuitChan := some quit, nextChan := quit + 1, sessions := s.sessions ++ [Session.fresh] }

def touch (s : Sys) (f : Template → Template) : Sys :=
  { s with objs := s.objs.modify (Template.mutate f) s.block }

/-- The state `Miner.Start` leaves (lines 267-281). -/
def started (flushed : List Tx) (head : Block) : Sys :=
  { txs := flushed, uncles := [], block := 0, objs := [Template.new head], powQuitChan := none,
    powDone := none, nextChan := 0, closed := [], subscribed := true, head := head,
    listener := .start, sessions := [], broadcasts := [], posts := [], stopCalled := false }

end Sys

/-! ## Steps -/

inductive Recv
  | event (e : Event)
  | nil
  | powDone
  deriving DecidableEq, Repr

inductive Answer
  | none
  | sorted (txs : List Tx)
  | processed (acc unh err : List Tx)
  | nonce (n : Option Nat)
  | valid (ok : Bool)
  | pool (txs : List Tx)
  deriving DecidableEq, Repr

/-- A step of the listener, of session `i`, of the chain manager, or of `Stop`. -/
inductive Act
  | listener (r : Recv)
  | session (i : Nat) (ans : Answer)
  | setHead (b : Block)
  | stop
  deriving DecidableEq, Repr

namespace Sys

/-- One step of the listener (lines 291-349). -/
def listenerNext (s : Sys) (r : Recv) : Option Sys :=
  match s.listener, r with
  | .start, _ => some { s with listener := .select }.startMining
  | .select, .event e => if s.subscribed then some { s with listener := .stopRecv e s.powQuitChan } else none
  | .select, .nil => if s.subscribed then none else some s
  | .select, .powDone => if s.isClosed s.powDone then some { s with listener := .select }.startMining else none
  | .stopRecv e quit, _ => if s.isClosed quit then some { s with listener := .handle e } else none
  | .handle (.newBlock b), _ =>
    if s.head.hash = b.hash then some { s with listener := .writeTxs (filterTxs b.txs [] s.txs) true }
    else some { s with uncles := if b.prevHash = s.head.prevHash then s.uncles ++ [b] else s.uncles,
                       listener := .restart }
  | .handle (.txPre tx), _ => some { s with listener := .scan tx s.txs }
  | .scan tx [], _ => some { s with listener := .undo tx }
  | .scan tx (ctx :: ctxs), _ =>
    if ctx.hash = tx.hash then some { s with listener := .select }
    else some { s with listener := .scan tx ctxs }.startMining
  | .undo tx, _ => some { s.touch id with listener := .append tx }
  | .append tx, _ => some { s with listener := .writeTxs (s.txs ++ [tx]) false }
  | .writeTxs l r, _ => some { s with txs := l, listener := if r then .restart else .select }
  | .restart, _ => some { s with listener := .select }.startMining

/-- One step of a `mineNewBlock` goroutine (lines 371-423). -/
def sessionStep (s : Sys) (sess : Session) (ans : Answer) : Option (Sys × Session) :=
  match sess.pc, ans with
  | .build, _ =>
    some ({ s with objs := s.objs ++ [Template.new s.head], block := s.objs.length },
      { sess with pc := .uncles, own := s.objs.length })
  | .uncles, _ =>
    some (if 0 < s.uncles.length then s.touch (fun t => { t with uncles := s.uncles }) else s,
      { sess with pc := .sort })
  | .sort, .sorted l =>
    if SortedByNonce s.txs l then some ({ s with txs := l }, { sess with pc := .process }) else none
  | .process, .processed acc unh err => some (s, { sess with pc := .writeBack acc unh err, input := s.txs })
  | .writeBack acc unh _, _ => some ({ s with txs := acc ++ unh }, { sess with pc := .fill acc })
  | .fill acc, _ => some (s.touch (fun t => { t with txs := acc }), { sess with pc := .search })
  | .search, _ =>
    some (s, { sess with pc := .searching s.powQuitChan, searched := s.block, mark := writesAt s.objs s.block })
  | .searching _, .nonce none => some (s, { sess with pc := .done })
  | .searching _, .nonce (some n) => some (s, { sess with pc := .setNonce n })
  | .setNonce n, _ => some (s.touch (fun t => { t with nonce := some n }), { sess with pc := .processBlock })
  | .processBlock, .valid ok => some (s, { sess with pc := if ok then .broadcast else .restart })
  | .broadcast, _ => some ({ s with broadcasts := s.broadcasts ++ [s.block] }, { sess with pc := .refresh })
  | .refresh, .pool l => some ({ s with txs := l }, { sess with pc := .post })
  | .post, _ => some ({ s with posts := s.posts ++ [s.block] }, { sess with pc := .restart })
  | .restart, _ => some (s.startMining, { sess with pc := .done })
  | _, _ => none

def sessionNext (s : Sys) (i : Nat) (ans : Answer) : Option Sys :=
  match s.sessions[i]? with
  | some sess => (s.sessionStep sess ans).map fun p => { p.1 with sessions := p.1.sessions.set i p.2 }
  | none => none

/-- `Miner.Stop()` (lines 284-288): unsubscribe and post `Stopped`. -/
def stop (s : Sys) : Sys := { s with subscribed := false, stopCalled := true }

end Sys

def next (s : Sys) : Act → Option Sys
  | .listener r => s.listenerNext r
  | .session i ans => s.sessionNext i ans
  | .setHead b => some { s with head := b }
  | .stop => some s.stop

/-! ## Reachable states -/

/-- The answers `ProcessTransactions` and `CurrentTransactions` may give. -/
structure Env where
  process : List Tx → List Tx → List Tx → List Tx → Bool
  pool : List Tx → Bool

def Env.any : Env := ⟨fun _ _ _ _ => true, fun _ => true⟩

def Env.admits (E : Env) (s : Sys) : Act → Bool
  | .session _ (.processed acc unh err) => E.process s.txs acc unh err
  | .session _ (.pool l) => E.pool l
  | _ => true

theorem Env.any_admits (s : Sys) (a : Act) : Env.any.admits s a = true := by
  unfold Env.admits; split <;> rfl

/-- The states reachable from `Sys.started flushed head` under the answers of `E`. -/
inductive Reachable (E : Env) (flushed : List Tx) (head : Block) : Sys → Prop
  | started : Reachable E flushed head (Sys.started flushed head)
  | step {s s' : Sys} {a : Act} : Reachable E flushed head s → E.admits s a = true →
      next s a = some s' → Reachable E flushed head s'

def Sys.run (E : Env) (s : Sys) : List Act → Option Sys
  | [] => some s
  | a :: as => if E.admits s a then (next s a).bind (·.run E as) else none

theorem Reachable.run {E : Env} {flushed : List Tx} {head : Block} {s s' : Sys} :
    ∀ (as : List Act), Reachable E flushed head s → s.run E as = some s' →
      Reachable E flushed head s'
  | [], hs, h => by cases h; exact hs
  | a :: as, hs, h => by
    simp only [Sys.run] at h
    split at h
    · obtain ⟨s₁, h₁, h₂⟩ := Option.bind_eq_some.1 h
      exact Reachable.run as (hs.step ‹_› h₁) h₂
    · cases h

end Ethcore.Miner
