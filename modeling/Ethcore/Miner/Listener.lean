import Ethcore.Miner.Types

/-!
# The listener's reconciliation (`Miner.listener`, lines 296-345)

What the listener does with an event after `stopMining` has returned, as the loops of the source
compute it, and the same as the spec states it:

* `foundIn`, `filterTxs` : the nested loop of lines 307-318 with its `found` flag and its
  accumulator `newtxs`; `filterTxs_eq` : it keeps, in order, the transactions whose hash is not a
  hash of the block;
* `scanTxs` : the loop of lines 332-338 with its `break` and the `startMining` call in its body;
  `scanTxs_found`, `scanTxs_starts` : it ends with `found` iff a hash matches, after as many calls
  as transactions before the first match;
* `handleEvent` : the new `txs` and `uncles` and the number of `startMining` calls;
  `reconcile` : the reference reconciliation; `handleEvent_reconciles`;
  `handleEvent_starts` : one restart for a block, one per unmatched transaction for a transaction.
-/

namespace Ethcore.Miner

/-! ## The loops -/

/-- The inner loop of lines 310-314 for `tx`: `found` after it. -/
def foundIn (tx : Tx) (blockTxs : List Tx) : Bool :=
  blockTxs.foldl (fun found othertx => if tx.hash = othertx.hash then true else found) false

/-- The outer loop of lines 308-318 over `txs`, `newtxs` its accumulator. -/
def filterTxs (blockTxs : List Tx) (newtxs : List Tx) : List Tx → List Tx
  | [] => newtxs
  | tx :: txs => filterTxs blockTxs (if foundIn tx blockTxs = false then newtxs ++ [tx] else newtxs) txs

/-- The loop of lines 332-338 for `tx`: `found` at its exit and the `startMining` calls made. -/
def scanTxs (tx : Tx) (found : Bool) (starts : Nat) : List Tx → Bool × Nat
  | [] => (found, starts)
  | ctx :: ctxs =>
    let found := decide (ctx.hash = tx.hash)
    if found then (found, starts) else scanTxs tx found (starts + 1) ctxs

theorem foldl_found (tx : Tx) (blockTxs : List Tx) (b : Bool) :
    blockTxs.foldl (fun found othertx => if tx.hash = othertx.hash then true else found) b =
      (b || decide (tx.hash ∈ blockTxs.map Tx.hash)) := by
  induction blockTxs generalizing b with
  | nil => simp
  | cons o os ih =>
    rw [List.foldl_cons, ih]
    by_cases h : tx.hash = o.hash <;> simp [h]

theorem foundIn_eq (tx : Tx) (blockTxs : List Tx) :
    foundIn tx blockTxs = decide (tx.hash ∈ blockTxs.map Tx.hash) := by
  rw [foundIn, foldl_found, Bool.false_or]

theorem filterTxs_eq (blockTxs newtxs txs : List Tx) :
    filterTxs blockTxs newtxs txs =
      newtxs ++ txs.filter (fun tx => tx.hash ∉ blockTxs.map Tx.hash) := by
  induction txs generalizing newtxs with
  | nil => simp [filterTxs]
  | cons tx txs ih =>
    rw [filterTxs, ih, List.filter_cons, foundIn_eq]
    by_cases h : tx.hash ∈ blockTxs.map Tx.hash <;> simp [h]

theorem scanTxs_found (tx : Tx) (starts : Nat) (ctxs : List Tx) :
    (scanTxs tx false starts ctxs).1 = ctxs.any (fun c => c.hash = tx.hash) := by
  induction ctxs generalizing starts with
  | nil => rfl
  | cons c cs ih =>
    by_cases h : c.hash = tx.hash
    · simp [scanTxs, h]
    · simpa [scanTxs, h] using ih (starts + 1)

theorem scanTxs_starts (tx : Tx) (found : Bool) (starts : Nat) (ctxs : List Tx) :
    (scanTxs tx found starts ctxs).2 = starts + ctxs.findIdx (fun c => c.hash = tx.hash) := by
  induction ctxs generalizing found starts with
  | nil => rfl
  | cons c cs ih =>
    by_cases h : c.hash = tx.hash
    · simp [scanTxs, h, List.findIdx_cons]
    · simp [scanTxs, h, List.findIdx_cons, ih]; omega

/-! ## One event -/

structure Sets where
  txs : List Tx
  uncles : List Block
  deriving DecidableEq, Repr

/-- Lines 297-344 after `stopMining` returns: the new fields and the number of `startMining` calls.
-/
def handleEvent (head : Block) (m : Sets) : Event → Sets × Nat
  | .newBlock block =>
    if head.hash = block.hash then ({ m with txs := filterTxs block.txs [] m.txs }, 1)
    else if block.prevHash = head.prevHash then ({ m with uncles := m.uncles ++ [block] }, 1)
    else (m, 1)
  | .txPre tx =>
    let r := scanTxs tx false 0 m.txs
    (if r.1 = false then { m with txs := m.txs ++ [tx] } else m, r.2)

/-- The reconciliation the spec states. -/
def reconcile (head : Block) (m : Sets) : Event → Sets
  | .newBlock block =>
    if block.hash = head.hash then
      { m with txs := m.txs.filter (fun tx => tx.hash ∉ block.txHashes) }
    else if block.prevHash = head.prevHash then { m with uncles := m.uncles ++ [block] }
    else m
  | .txPre tx => if ∃ c ∈ m.txs, c.hash = tx.hash then m else { m with txs := m.txs ++ [tx] }

theorem handleEvent_reconciles (head : Block) (m : Sets) (e : Event) :
    (handleEvent head m e).1 = reconcile head m e := by
  cases e with
  | newBlock block =>
    simp only [handleEvent, reconcile, filterTxs_eq, List.nil_append, Block.txHashes, eq_comm]
    split_ifs <;> rfl
  | txPre tx =>
    simp only [handleEvent, reconcile, scanTxs_found]
    by_cases h : ∃ c ∈ m.txs, c.hash = tx.hash <;> simp [h]

theorem handleEvent_starts (head : Block) (m : Sets) (e : Event) :
    (handleEvent head m e).2 = match e with
      | .newBlock _ => 1
      | .txPre tx => m.txs.findIdx (fun c => c.hash = tx.hash) := by
  cases e with
  | newBlock block => simp only [handleEvent]; split_ifs <;> rfl
  | txPre tx => simp [handleEvent, scanTxs_starts]

end Ethcore.Miner
