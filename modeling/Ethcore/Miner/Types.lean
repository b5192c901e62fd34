import Mathlib.Data.List.Sort

/-!
# The miner's values: transactions, blocks, events and block objects

The data the `ethminer` package of `bind.go` works on:

* `Tx` : a transaction as the miner reads it, its hash (the key of every comparison the listener
  makes) and its nonce (the key of `chain.TxByNonce`);
* `Block` : a block of the chain as an event or the chain manager hands it over;
* `Event` : what the subscription of `Miner.Start` delivers;
* `Template` : a block object made by `ChainManager().NewBlock`, which `mineNewBlock` fills,
  searches and broadcasts; `writes` counts the mutations applied to it;
* `NodupHash` : no two transactions of a list share a hash; `NodupHash.perm`,
  `NodupHash.append_of_sublist`;
* `SortedByNonce` : what `sort.Sort(chain.TxByNonce{txs})` may leave.
-/

namespace Ethcore.Miner

/-- A hash, compared with `bytes.Compare`. -/
abbrev Hash := Nat

structure Tx where
  hash : Hash
  nonce : Nat
  deriving DecidableEq, Repr

/-- A block of the chain: its hash, its parent's hash, its transactions. -/
structure Block where
  hash : Hash
  prevHash : Hash
  txs : List Tx
  deriving DecidableEq, Repr

def Block.txHashes (b : Block) : List Hash := b.txs.map Tx.hash

/-- `chain.NewBlockEvent` and `chain.TxPreEvent`. -/
inductive Event
  | newBlock (block : Block)
  | txPre (tx : Tx)
  deriving DecidableEq, Repr

/-- A block object of `*chain.Block`, built on `parent`. -/
structure Template where
  parent : Block
  uncles : List Block
  txs : List Tx
  nonce : Option Nat
  writes : Nat
  deriving DecidableEq, Repr

/-- `ChainManager().NewBlock(coinbase)` on top of `head`. -/
def Template.new (head : Block) : Template :=
  { parent := head, uncles := [], txs := [], nonce := none, writes := 0 }

/-! ## Lists unique by hash -/

/-- No two transactions of `l` share a hash. -/
def NodupHash (l : List Tx) : Prop := (l.map Tx.hash).Nodup

instance : DecidablePred NodupHash := fun l => inferInstanceAs (Decidable (l.map Tx.hash).Nodup)

theorem NodupHash.perm {l l' : List Tx} (hp : l'.Perm l) (h : NodupHash l) : NodupHash l' :=
  ((hp.map Tx.hash).nodup_iff).2 h

theorem NodupHash.sublist {l l' : List Tx} (hs : l'.Sublist l) (h : NodupHash l) : NodupHash l' :=
  (hs.map Tx.hash).nodup h

theorem NodupHash.append_of_sublist {input acc unh : List Tx} (h : NodupHash input)
    (ha : acc.Sublist input) (hu : unh.Sublist input) (hd : acc.Disjoint unh) :
    NodupHash (acc ++ unh) := by
  unfold NodupHash
  rw [List.map_append, List.nodup_append]
  refine ⟨(h.sublist ha), (h.sublist hu), ?_⟩
  simp only [List.Disjoint, List.mem_map]
  rintro _ ⟨x, hx, rfl⟩ ⟨y, hy, hxy⟩
  have : y = x := List.inj_on_of_nodup_map h (hu.subset hy) (ha.subset hx) hxy
  exact hd hx (this ▸ hy)

/-! ## `chain.TxByNonce` -/

/-- `sort.Sort(chain.TxByNonce{l})` may leave `l'`: a permutation in nonce order, not stable. -/
def SortedByNonce (l l' : List Tx) : Prop := l'.Perm l ∧ l'.Sorted (fun a b => a.nonce ≤ b.nonce)

instance (l l' : List Tx) : Decidable (SortedByNonce l l') :=
  inferInstanceAs (Decidable (_ ∧ _))

end Ethcore.Miner
