import Mathlib.Data.List.Nodup
import Mathlib.Logic.Function.Basic

/-!
# The chain database, as the start-up upgrades of `bind.go` see it

`upgradeChainDatabase` and `addMipmapBloomBins` reach the chain database through `ethdb` and the
accessors of `core`, which are not in this repository; they are modelled at their interface, one
field of `Db` per class of keys:

* `Db` : `LastBlock`, the keys under `block-hash-` in the iterator's order with the old combined
  block each loads, if any, the split entries `core.WriteTd`, `WriteBody` and `WriteHeader` write,
  the canonical hashes, the receipts, the mipmap bloom bins and `setting-mipmap-version`;
* `Op`, `Db.apply`, `Db.applyAll` : a write or delete, and what it does when it succeeds;
* `Run`, `Run.writeAll`, `writeAll_eq` : the writes of one call in order. The call's `n`-th
  attempt fails iff the fault pattern says so; a failed attempt changes nothing and the call
  returns its error.
-/

namespace Ethcore.ChainDb

/-- A 32-byte hash; `0` is `common.Hash{}`. -/
abbrev Hash := Nat

structure Header where
  hash : Hash
  number : Nat
  deriving DecidableEq, Repr

/-- A block stored whole under `block-hash-<hash>`: its header, `DeprecatedTd()` and `Body()`, kept
opaque. -/
structure OldBlock where
  header : Header
  td : Nat
  body : Nat
  deriving DecidableEq, Repr

def OldBlock.hash (b : OldBlock) : Hash := b.header.hash

/-- What `setting-mipmap-version` holds as `rlp.DecodeBytes` reads it: no bytes, bytes that do not
decode, or a `uint`. -/
inductive VersionData
  | empty
  | undecodable
  | uint (v : Nat)
  deriving DecidableEq, Repr

/-- The chain database. `old` lists the keys under `block-hash-` in the iterator's order, each with
the block `GetBlockByHashOld` loads there, if any. -/
@[ext] structure Db where
  leveldb : Bool
  lastBlock : Option Hash
  old : List (Hash × Option OldBlock)
  old_nodup : (old.map Prod.fst).Nodup
  td : Hash → Option Nat
  body : Hash → Option Nat
  header : Hash → Option Header
  canonical : Nat → Option Hash
  receipts : Hash → Nat
  mipmaps : List (Nat × Nat)
  version : VersionData

/-- A write or delete issued by the upgrades. -/
inductive Op
  | writeTd (hash : Hash) (td : Nat)
  | writeBody (hash : Hash) (body : Nat)
  | writeHeader (header : Header)
  | delete (key : Hash)
  | writeMipmapBloom (number : Nat) (receipts : Nat)
  | putVersion (v : Nat)
  deriving DecidableEq, Repr

namespace Db

def keys (db : Db) : List Hash := db.old.map Prod.fst

/-- `core.GetBlockByHashOld(db, hash)`: the block under `block-hash-<hash>`, or nil. -/
def getBlockByHashOld (db : Db) (hash : Hash) : Option OldBlock :=
  (db.old.find? fun e => e.1 == hash).bind Prod.snd

/-- `core.GetHeadBlockHash(db)`: `LastBlock`, or the zero hash. -/
def getHeadBlockHash (db : Db) : Hash := db.lastBlock.getD 0

/-- `core.GetBlock(db, hash)`: nil unless both the header and the body are stored. -/
def getBlock (db : Db) (hash : Hash) : Option Header :=
  match db.header hash, db.body hash with
  | some h, some _ => some h
  | _, _ => none

/-- `core.GetCanonicalHash(db, number)`, the zero hash when there is none. -/
def getCanonicalHash (db : Db) (number : Nat) : Hash := (db.canonical number).getD 0

/-- A write or delete that succeeds; `Delete` removes `block-hash-<key>`. -/
def apply (db : Db) : Op → Db
  | .writeTd h v => { db with td := Function.update db.td h (some v) }
  | .writeBody h v => { db with body := Function.update db.body h (some v) }
  | .writeHeader hd => { db with header := Function.update db.header hd.hash (some hd) }
  | .delete k =>
    { db with old := db.old.filter (·.1 != k),
              old_nodup := db.old_nodup.sublist ((List.filter_sublist _).map _) }
  | .writeMipmapBloom n r => { db with mipmaps := db.mipmaps ++ [(n, r)] }
  | .putVersion v => { db with version := .uint v }

def applyAll (db : Db) (ops : List Op) : Db := ops.foldl apply db

variable (db : Db)

@[simp] theorem applyAll_nil : db.applyAll [] = db := rfl

@[simp] theorem applyAll_cons (op : Op) (ops : List Op) :
    db.applyAll (op :: ops) = (db.apply op).applyAll ops := rfl

@[simp] theorem applyAll_append (ops ops' : List Op) :
    db.applyAll (ops ++ ops') = (db.applyAll ops).applyAll ops' := List.foldl_append ..

@[simp] theorem apply_leveldb (op : Op) : (db.apply op).leveldb = db.leveldb := by cases op <;> rfl
@[simp] theorem apply_lastBlock (op : Op) : (db.apply op).lastBlock = db.lastBlock := by
  cases op <;> rfl
@[simp] theorem apply_canonical (op : Op) : (db.apply op).canonical = db.canonical := by
  cases op <;> rfl
@[simp] theorem apply_receipts (op : Op) : (db.apply op).receipts = db.receipts := by
  cases op <;> rfl

@[simp] theorem applyAll_leveldb (ops : List Op) : (db.applyAll ops).leveldb = db.leveldb := by
  induction ops generalizing db <;> simp [*]
@[simp] theorem applyAll_lastBlock (ops : List Op) :
    (db.applyAll ops).lastBlock = db.lastBlock := by
  induction ops generalizing db <;> simp [*]
@[simp] theorem applyAll_canonical (ops : List Op) :
    (db.applyAll ops).canonical = db.canonical := by
  induction ops generalizing db <;> simp [*]
@[simp] theorem applyAll_receipts (ops : List Op) : (db.applyAll ops).receipts = db.receipts := by
  induction ops generalizing db <;> simp [*]

theorem getBlockByHashOld_of_not_mem {h : Hash} (hh : h ∉ db.keys) : db.getBlockByHashOld h = none := by
  have : db.old.find? (fun e => e.1 == h) = none :=
    List.find?_eq_none.2 fun e he hb => hh (List.mem_map.2 ⟨e, he, beq_iff_eq.1 hb⟩)
  rw [getBlockByHashOld, this, Option.none_bind]

theorem mem_keys_of_getBlockByHashOld {h : Hash} {b : OldBlock}
    (hb : db.getBlockByHashOld h = some b) : h ∈ db.keys :=
  not_not.1 fun hn => by simp [getBlockByHashOld_of_not_mem db hn] at hb

theorem keys_apply_delete (k : Hash) : (db.apply (.delete k)).keys = db.keys.filter (· != k) := by
  simp [keys, apply, List.filter_map]; rfl

theorem getBlockByHashOld_apply_delete {k h : Hash} (hne : h ≠ k) :
    (db.apply (.delete k)).getBlockByHashOld h = db.getBlockByHashOld h := by
  simp only [getBlockByHashOld, apply, List.find?_filter]
  congr 2
  funext e
  by_cases he : e.1 = h <;> simp [he, hne]

end Db

structure Run where
  db : Db
  log : List Op

/-- Attempt `ops` in order: attempt `n` fails iff `fails n`, changes nothing, and ends the call with
its error. -/
def Run.writeAll (fails : Nat → Bool) : Run → List Op → Run × Option Op
  | r, [] => (r, none)
  | r, op :: ops =>
    if fails r.log.length then (⟨r.db, r.log ++ [op]⟩, some op)
    else Run.writeAll fails ⟨r.db.apply op, r.log ++ [op]⟩ ops

def noFaults : Nat → Bool := fun _ => false

theorem writeAll_eq (fails : Nat → Bool) : ∀ (r : Run) (ops : List Op),
    r.writeAll fails ops = (⟨r.db.applyAll ops, r.log ++ ops⟩, none) ∨
      ∃ pre op post, ops = pre ++ op :: post ∧ fails (r.log.length + pre.length) = true ∧
        r.writeAll fails ops = (⟨r.db.applyAll pre, r.log ++ pre ++ [op]⟩, some op)
  | ⟨db, log⟩, [] => .inl (by simp [Run.writeAll])
  | r, op :: ops => by
    unfold Run.writeAll
    split
    · exact .inr ⟨[], op, ops, rfl, ‹_›, by simp⟩
    · rcases writeAll_eq fails ⟨r.db.apply op, r.log ++ [op]⟩ ops with
        h | ⟨pre, op', post, rfl, hf, h⟩
      · exact .inl (by simp [h])
      · refine .inr ⟨op :: pre, op', post, rfl, ?_, by simp [h]⟩
        simpa [Nat.add_assoc, Nat.add_comm 1] using hf

theorem writeAll_noFaults (r : Run) (ops : List Op) :
    r.writeAll noFaults ops = (⟨r.db.applyAll ops, r.log ++ ops⟩, none) := by
  induction ops generalizing r with
  | nil => simp [Run.writeAll]
  | cons op ops ih => simp [Run.writeAll, noFaults, ih]

end Ethcore.ChainDb
