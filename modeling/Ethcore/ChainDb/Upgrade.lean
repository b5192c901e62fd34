import Ethcore.ChainDb.Store

/-!
# `upgradeChainDatabase`: splitting the old combined blocks

`upgradeChainDatabase` (lines 837-892) splits every block stored whole under `block-hash-<hash>`
into its total difficulty, body and header, deleting the old key; the head's block is split last
and its old key kept. A key whose block does not load makes line 865 dereference nil: the call
panics.

* `upgradeLoop`, `upgradeChainDatabase` : the code, under a fault pattern for its writes; `none`
  is the panic;
* `Db.LoadsAll` : every key but the head's loads its block;
* `Db.splitKey`, `Db.splitAll`, `Db.upgraded` : what it does when no write fails;
* `upgradeLoop_eq`, `upgradeChainDatabase_eq` : a call either leaves `Db.upgraded`, or stops at a
  `Cut`, part way through the writes of one block, or panics at a key that loads nothing;
  `upgradeChainDatabase_isSome` : it returns when every key loads;
* `Cut.upgraded` : finishing from a cut gives what finishing from the start gives;
* `upgrade_resumes_after_failure` : a call after a failed one leaves what one call with no
  failure leaves;
* `upgrade_reruns_after_success` : the head's old key survives a call that returns nil, so the
  next call runs again instead of returning at its first check.
-/

namespace Ethcore.ChainDb

/-- How a call of `upgradeChainDatabase` ends. -/
inductive UpgradeExit
  /-- Line 841: `LastBlock` cannot be read; nil. -/
  | noLastBlock
  /-- Line 846: the head block is not stored whole; nil. -/
  | notOld
  /-- Line 851: not an `*ethdb.LDBDatabase`; nil. -/
  | notLevelDb
  /-- Line 891: nil. -/
  | done
  /-- A write or delete failed; its error. -/
  | failed (op : Op)
  deriving DecidableEq, Repr

def UpgradeExit.returnsNil : UpgradeExit → Bool
  | .noLastBlock | .notOld | .notLevelDb | .done => true
  | .failed _ => false

/-- `WriteTd`, `WriteBody` and `WriteHeader` of a block's parts (lines 865-873 and 881-889). -/
def writeParts (b : OldBlock) : List Op :=
  [.writeTd b.hash b.td, .writeBody b.hash b.body, .writeHeader b.header]

def Op.writesBins : Op → Bool
  | .writeMipmapBloom _ _ | .putVersion _ => true
  | _ => false

theorem writeParts_writesBins (b : OldBlock) (key : Hash) :
    ∀ op ∈ writeParts b ++ [.delete key], op.writesBins = false := by
  simp [writeParts, Op.writesBins]

/-- The loop of lines 853-877 over the iterator's keys: the head's skipped, every other block split
and its key deleted; `none` at the nil dereference of line 865. -/
def upgradeLoop (fails : Nat → Bool) (head : Hash) :
    List Hash → Run → Option (Run × Option UpgradeExit)
  | [], r => some (r, none)
  | key :: keys, r =>
    if key = head then upgradeLoop fails head keys r
    else
      match r.db.getBlockByHashOld key with
      | none => none
      | some b =>
        match r.writeAll fails (writeParts b ++ [.delete key]) with
        | (r', some op) => some (r', some (.failed op))
        | (r', none) => upgradeLoop fails head keys r'

/-- `upgradeChainDatabase(db)` (lines 837-892), the writes failing as `fails` says; `none` when it
panics. -/
def upgradeChainDatabase (fails : Nat → Bool) (db : Db) : Option (Run × UpgradeExit) :=
  match db.lastBlock with
  | none => some (⟨db, []⟩, .noLastBlock)
  | some head =>
    match db.getBlockByHashOld head with
    | none => some (⟨db, []⟩, .notOld)
    | some _ =>
      if db.leveldb then
        match upgradeLoop fails head db.keys ⟨db, []⟩ with
        | none => none
        | some (r, some e) => some (r, e)
        | some (r, none) =>
          match r.db.getBlockByHashOld head with
          | none => none
          | some cur =>
            match r.writeAll fails (writeParts cur) with
            | (r', some op) => some (r', .failed op)
            | (r', none) => some (r', .done)
      else some (⟨db, []⟩, .notLevelDb)

/-! ## With no failing write -/

namespace Db

def splitKey (db : Db) (head key : Hash) : Db :=
  if key = head then db
  else
    match db.getBlockByHashOld key with
    | some b => db.applyAll (writeParts b ++ [.delete key])
    | none => db

def splitAll (db : Db) (head : Hash) (keys : List Hash) : Db :=
  keys.foldl (fun d key => d.splitKey head key) db

/-- What a call on an old database leaves when nothing fails. -/
def upgraded (db : Db) (head : Hash) : Db :=
  match (db.splitAll head db.keys).getBlockByHashOld head with
  | some cur => (db.splitAll head db.keys).applyAll (writeParts cur)
  | none => db.splitAll head db.keys

/-- Every key of `keys` but `head` that is still stored loads its block. -/
def LoadsAll (db : Db) (head : Hash) (keys : List Hash) : Prop :=
  ∀ k ∈ keys, k ≠ head → k ∈ db.keys → (db.getBlockByHashOld k).isSome

instance (db : Db) (head : Hash) (keys : List Hash) : Decidable (db.LoadsAll head keys) :=
  List.decidableBAll _ _

variable (db : Db) (head : Hash)

theorem old_applyAll_writeParts_take (b : OldBlock) :
    ∀ t, (db.applyAll ((writeParts b).take t)).old = db.old
  | 0 | 1 | 2 | 3 | _ + 4 => rfl

theorem keys_applyAll_writeParts_take (b : OldBlock) (t : Nat) :
    (db.applyAll ((writeParts b).take t)).keys = db.keys := by
  simp only [keys, old_applyAll_writeParts_take]

theorem getBlockByHashOld_applyAll_writeParts_take (b : OldBlock) (t : Nat) (x : Hash) :
    (db.applyAll ((writeParts b).take t)).getBlockByHashOld x = db.getBlockByHashOld x := by
  simp only [getBlockByHashOld, old_applyAll_writeParts_take]

theorem apply_mipmaps_version {op : Op} (h : op.writesBins = false) :
    (db.apply op).mipmaps = db.mipmaps ∧ (db.apply op).version = db.version := by
  cases op <;> first | exact ⟨rfl, rfl⟩ | cases h

theorem applyAll_mipmaps_version {ops : List Op} (h : ∀ op ∈ ops, op.writesBins = false) :
    (db.applyAll ops).mipmaps = db.mipmaps ∧ (db.applyAll ops).version = db.version := by
  induction ops generalizing db with
  | nil => exact ⟨rfl, rfl⟩
  | cons op ops ih =>
    obtain ⟨h₁, h₂⟩ := db.apply_mipmaps_version (h op (.head _))
    obtain ⟨h₃, h₄⟩ := ih (db.apply op) fun o ho => h o (.tail _ ho)
    exact ⟨h₃.trans h₁, h₄.trans h₂⟩

theorem mipmaps_version_applyAll_writeParts_take (b : OldBlock) (t : Nat) :
    (db.applyAll ((writeParts b).take t)).mipmaps = db.mipmaps ∧
      (db.applyAll ((writeParts b).take t)).version = db.version :=
  db.applyAll_mipmaps_version fun op hop =>
    writeParts_writesBins b 0 op (List.mem_append_left _ (List.mem_of_mem_take hop))

theorem keys_applyAll_writeParts (b : OldBlock) : (db.applyAll (writeParts b)).keys = db.keys :=
  db.keys_applyAll_writeParts_take b 3

theorem getBlockByHashOld_applyAll_writeParts (b : OldBlock) (x : Hash) :
    (db.applyAll (writeParts b)).getBlockByHashOld x = db.getBlockByHashOld x :=
  db.getBlockByHashOld_applyAll_writeParts_take b 3 x

theorem applyAll_writeParts_take (b : OldBlock) {t : Nat} (ht : t ≤ 3) :
    (db.applyAll ((writeParts b).take t)).applyAll (writeParts b) = db.applyAll (writeParts b) := by
  match t, ht with
  | 0, _ => rfl
  | 1, _ | 2, _ | 3, _ =>
    simp only [writeParts, List.take, applyAll_cons, applyAll_nil, apply, Function.update_idem]

theorem splitKey_self : db.splitKey head head = db := by simp [splitKey]

theorem splitKey_of_ne {key : Hash} {b : OldBlock} (hk : key ≠ head)
    (hb : db.getBlockByHashOld key = some b) :
    db.splitKey head key = db.applyAll (writeParts b ++ [.delete key]) := by
  simp [splitKey, hk, hb]

theorem splitKey_eq_applyAll (key : Hash) : ∃ ops, db.splitKey head key = db.applyAll ops := by
  unfold splitKey
  split
  · exact ⟨[], rfl⟩
  · split
    · exact ⟨_, rfl⟩
    · exact ⟨[], rfl⟩

theorem splitAll_eq_applyAll (keys : List Hash) : ∃ ops, db.splitAll head keys = db.applyAll ops := by
  induction keys generalizing db with
  | nil => exact ⟨[], rfl⟩
  | cons key keys ih =>
    obtain ⟨ops, h⟩ := db.splitKey_eq_applyAll head key
    obtain ⟨ops', h'⟩ := ih (db.splitKey head key)
    exact ⟨ops ++ ops', by rw [applyAll_append, ← h, ← h']; rfl⟩

@[simp] theorem splitAll_nil : db.splitAll head [] = db := rfl

@[simp] theorem splitAll_cons (key : Hash) (keys : List Hash) :
    db.splitAll head (key :: keys) = (db.splitKey head key).splitAll head keys := rfl

@[simp] theorem splitAll_append (keys keys' : List Hash) :
    db.splitAll head (keys ++ keys') = (db.splitAll head keys).splitAll head keys' :=
  List.foldl_append ..

@[simp] theorem splitAll_lastBlock (keys : List Hash) :
    (db.splitAll head keys).lastBlock = db.lastBlock := by
  obtain ⟨ops, h⟩ := db.splitAll_eq_applyAll head keys
  rw [h, applyAll_lastBlock]

@[simp] theorem splitAll_leveldb (keys : List Hash) :
    (db.splitAll head keys).leveldb = db.leveldb := by
  obtain ⟨ops, h⟩ := db.splitAll_eq_applyAll head keys
  rw [h, applyAll_leveldb]

@[simp] theorem splitAll_canonical (keys : List Hash) :
    (db.splitAll head keys).canonical = db.canonical := by
  obtain ⟨ops, h⟩ := db.splitAll_eq_applyAll head keys
  rw [h, applyAll_canonical]

@[simp] theorem splitAll_receipts (keys : List Hash) :
    (db.splitAll head keys).receipts = db.receipts := by
  obtain ⟨ops, h⟩ := db.splitAll_eq_applyAll head keys
  rw [h, applyAll_receipts]

theorem splitKey_mipmaps_version (key : Hash) :
    (db.splitKey head key).mipmaps = db.mipmaps ∧ (db.splitKey head key).version = db.version := by
  unfold splitKey
  split_ifs
  · exact ⟨rfl, rfl⟩
  · split
    · exact db.applyAll_mipmaps_version (writeParts_writesBins _ _)
    · exact ⟨rfl, rfl⟩

theorem splitAll_mipmaps_version (keys : List Hash) :
    (db.splitAll head keys).mipmaps = db.mipmaps ∧ (db.splitAll head keys).version = db.version := by
  induction keys generalizing db with
  | nil => exact ⟨rfl, rfl⟩
  | cons key keys ih =>
    obtain ⟨h₁, h₂⟩ := db.splitKey_mipmaps_version head key
    rw [splitAll_cons, (ih _).1, (ih _).2, h₁, h₂]
    exact ⟨rfl, rfl⟩

theorem splitAll_of_forall_eq {keys : List Hash} (h : ∀ x ∈ keys, x = head) :
    db.splitAll head keys = db := by
  induction keys with
  | nil => rfl
  | cons key keys ih =>
    rw [splitAll_cons, h key (.head _), splitKey_self]
    exact ih fun x hx => h x (.tail _ hx)

theorem keys_splitKey (key : Hash) (hl : db.LoadsAll head [key]) :
    (db.splitKey head key).keys = db.keys.filter fun x => x = head ∨ x ≠ key := by
  unfold splitKey
  split_ifs with hk
  · subst hk
    exact (List.filter_eq_self.2 fun x _ => by simp [em]).symm
  · cases hb : db.getBlockByHashOld key with
    | none =>
      refine (List.filter_eq_self.2 fun x hx => ?_).symm
      have : key ∉ db.keys := fun hm => by simpa [hb] using hl key (.head _) hk hm
      simp only [decide_eq_true_eq]
      exact .inr (ne_of_mem_of_not_mem hx this)
    | some b =>
      dsimp only
      rw [applyAll_append, applyAll_cons, applyAll_nil, keys_apply_delete, keys_applyAll_writeParts]
      refine List.filter_congr fun x _ => ?_
      by_cases hx : x = key <;> simp [hx, hk]

theorem getBlockByHashOld_splitKey {key x : Hash} (hx : x = head ∨ x ≠ key) :
    (db.splitKey head key).getBlockByHashOld x = db.getBlockByHashOld x := by
  unfold splitKey
  split_ifs with hk
  · rfl
  · split
    · have hne : x ≠ key := hx.elim (fun h => h ▸ Ne.symm hk) id
      rw [applyAll_append, applyAll_cons, applyAll_nil, getBlockByHashOld_apply_delete _ hne,
        getBlockByHashOld_applyAll_writeParts]
    · rfl

theorem getBlockByHashOld_splitAll {keys : List Hash} {x : Hash} (hx : x = head ∨ x ∉ keys) :
    (db.splitAll head keys).getBlockByHashOld x = db.getBlockByHashOld x := by
  induction keys generalizing db with
  | nil => rfl
  | cons key keys ih =>
    rw [splitAll_cons, ih _ (hx.imp_right fun h hm => h (.tail _ hm)), getBlockByHashOld_splitKey]
    exact hx.imp_right fun h he => h (he ▸ .head _)

theorem keys_splitKey_subset (key : Hash) : ∀ x ∈ (db.splitKey head key).keys, x ∈ db.keys := by
  unfold splitKey
  split_ifs
  · exact fun _ h => h
  · split
    · intro x hx
      rw [applyAll_append, applyAll_cons, applyAll_nil, keys_apply_delete,
        keys_applyAll_writeParts] at hx
      exact (List.mem_filter.1 hx).1
    · exact fun _ h => h

theorem LoadsAll.mono {ks ks' : List Hash} (hl : db.LoadsAll head ks) (h : ks' ⊆ ks) :
    db.LoadsAll head ks' := fun x hx => hl x (h hx)

theorem LoadsAll.splitKey {ks : List Hash} (hl : db.LoadsAll head ks) (key : Hash) :
    (db.splitKey head key).LoadsAll head ks := fun x hx hxh hxm => by
  by_cases hxk : x = key
  · subst hxk
    unfold Db.splitKey at hxm ⊢
    rw [if_neg hxh] at hxm ⊢
    cases hb : db.getBlockByHashOld x with
    | none => simp only [hb] at hxm ⊢; simpa [hb] using hl x hx hxh hxm
    | some b =>
      simp only [hb, applyAll_append, applyAll_cons, applyAll_nil, keys_apply_delete,
        keys_applyAll_writeParts, List.mem_filter, bne_self_eq_false] at hxm
      exact absurd hxm.2 Bool.false_ne_true
  · rw [getBlockByHashOld_splitKey _ _ (.inr hxk)]
    exact hl x hx hxh (db.keys_splitKey_subset head key x hxm)

theorem LoadsAll.of_splitKey {key : Hash} {ks : List Hash} (hks : key ∉ ks)
    (hb : (db.getBlockByHashOld key).isSome) (h : (db.splitKey head key).LoadsAll head ks) :
    db.LoadsAll head (key :: ks) := fun x hx hxh hxm => by
  rcases List.mem_cons.1 hx with rfl | hx
  · exact hb
  have hxk : x ≠ key := ne_of_mem_of_not_mem hx hks
  rw [← getBlockByHashOld_splitKey _ _ (.inr hxk)]
  refine h x hx hxh ?_
  rw [keys_splitKey _ _ _ fun k hk _ _ => List.mem_singleton.1 hk ▸ hb]
  exact List.mem_filter.2 ⟨hxm, by simp [hxk]⟩

theorem keys_splitAll (keys : List Hash) (hl : db.LoadsAll head keys) :
    (db.splitAll head keys).keys = db.keys.filter fun x => x = head ∨ x ∉ keys := by
  induction keys generalizing db with
  | nil => simp
  | cons key keys ih =>
    rw [splitAll_cons, ih _ ((hl.splitKey _ _ key).mono _ _ (List.subset_cons_self _ _)),
      keys_splitKey _ _ _ (fun k hk => hl k (List.mem_singleton.1 hk ▸ .head _)), List.filter_filter]
    refine List.filter_congr fun x _ => ?_
    by_cases hx : x = head <;> simp [hx, not_or, Bool.and_comm]

theorem keys_splitAll_keys (hl : db.LoadsAll head db.keys) :
    ∀ x ∈ (db.splitAll head db.keys).keys, x = head := fun x hx => by
  rw [keys_splitAll _ _ _ hl] at hx
  simpa [(List.mem_filter.1 hx).1] using (List.mem_filter.1 hx).2

theorem upgraded_eq {cur : OldBlock}
    (hcur : (db.splitAll head db.keys).getBlockByHashOld head = some cur) :
    db.upgraded head = (db.splitAll head db.keys).applyAll (writeParts cur) := by
  simp [upgraded, hcur]

theorem getBlock_upgraded {b : OldBlock} (hl : db.lastBlock = some head)
    (hb : db.getBlockByHashOld head = some b) (hh : b.hash = head) :
    (db.upgraded head).getBlock (db.upgraded head).getHeadBlockHash = some b.header := by
  have hcur : (db.splitAll head db.keys).getBlockByHashOld head = some b := by
    rw [db.getBlockByHashOld_splitAll head (.inl rfl), hb]
  have hh' : b.header.hash = head := hh
  rw [db.upgraded_eq head hcur]
  simp [getBlock, getHeadBlockHash, hl, writeParts, apply, OldBlock.hash, hh']

theorem upgraded_fields :
    (db.upgraded head).mipmaps = db.mipmaps ∧ (db.upgraded head).version = db.version ∧
      (db.upgraded head).canonical = db.canonical ∧ (db.upgraded head).receipts = db.receipts := by
  obtain ⟨h₁, h₂⟩ := db.splitAll_mipmaps_version head db.keys
  unfold upgraded
  split
  · obtain ⟨h₃, h₄⟩ := (db.splitAll head db.keys).mipmaps_version_applyAll_writeParts_take _ 3
    exact ⟨h₃.trans h₁, h₄.trans h₂, by simp, by simp⟩
  · exact ⟨h₁, h₂, by simp, by simp⟩

end Db

/-! ## A call -/

theorem take_length_of_eq_append {l pre post : List Op} {op : Op} (h : l = pre ++ op :: post) :
    pre.length < l.length ∧ l.take pre.length = pre := by
  subst h; simp

theorem take_writeParts_of_eq {b : OldBlock} {key : Hash} {pre post : List Op} {op : Op}
    (h : writeParts b ++ [.delete key] = pre ++ op :: post) :
    pre.length ≤ 3 ∧ pre = (writeParts b).take pre.length := by
  obtain ⟨hlt, htake⟩ := take_length_of_eq_append h
  have hle : pre.length ≤ 3 := by simp [writeParts] at hlt; omega
  rw [List.take_append_of_le_length (by simpa [writeParts] using hle)] at htake
  exact ⟨hle, htake.symm⟩

theorem upgradeLoop_eq (fails : Nat → Bool) (head : Hash) : ∀ (keys : List Hash) (r : Run),
    keys.Nodup → (∀ k ∈ keys, k ∈ r.db.keys) →
    (r.db.LoadsAll head keys ∧
        ∃ log, upgradeLoop fails head keys r = some (⟨r.db.splitAll head keys, log⟩, none)) ∨
      (∃ ks₁ k ks₂ b t op log, keys = ks₁ ++ k :: ks₂ ∧ r.db.LoadsAll head ks₁ ∧ k ≠ head ∧
        (r.db.splitAll head ks₁).getBlockByHashOld k = some b ∧ t ≤ 3 ∧ (∃ n, fails n = true) ∧
        upgradeLoop fails head keys r =
          some (⟨(r.db.splitAll head ks₁).applyAll ((writeParts b).take t), log⟩, some (.failed op))) ∨
      (¬r.db.LoadsAll head keys ∧ upgradeLoop fails head keys r = none)
  | [], ⟨db, log⟩, _, _ => .inl ⟨nofun, log, rfl⟩
  | k :: ks, r, hnd, hin => by
    obtain ⟨hk, hnd⟩ := List.nodup_cons.1 hnd
    have hin' : ∀ x ∈ ks, x ∈ r.db.keys := fun x hx => hin x (.tail _ hx)
    by_cases hkh : k = head
    · subst hkh
      have hcons : ∀ {d : Db} {l : List Hash}, d.LoadsAll k l → d.LoadsAll k (k :: l) :=
        fun h x hx hxk => (List.mem_cons.1 hx).elim (fun e => absurd e hxk) fun hx' => h x hx' hxk
      rcases upgradeLoop_eq fails k ks r hnd hin' with
        ⟨hl, log, h⟩ | ⟨ks₁, k', ks₂, b, t, op, log, rfl, hl, hne, hb, ht, hf, h⟩ | ⟨hl, h⟩
      · exact .inl ⟨hcons hl, log, by simp [upgradeLoop, h, Db.splitKey_self]⟩
      · refine .inr (.inl ⟨k :: ks₁, k', ks₂, b, t, op, log, rfl, hcons hl, hne, ?_, ht, hf, ?_⟩)
        · simpa [Db.splitKey_self] using hb
        · simp [upgradeLoop, h, Db.splitKey_self]
      · exact .inr (.inr ⟨fun h' => hl (h'.mono _ _ (List.subset_cons_self _ _)),
          by simp [upgradeLoop, h]⟩)
    · cases hb : r.db.getBlockByHashOld k with
      | none =>
        refine .inr (.inr ⟨fun hl => ?_, by simp [upgradeLoop, hkh, hb]⟩)
        simpa [hb] using hl k (.head _) hkh (hin k (.head _))
      | some b =>
        have hsplit := r.db.splitKey_of_ne head hkh hb
        have hbk : (r.db.getBlockByHashOld k).isSome := by rw [hb]; rfl
        rcases writeAll_eq fails r (writeParts b ++ [.delete k]) with
          hw | ⟨pre, op, post, hpre, hf, hw⟩
        · have hin'' : ∀ x ∈ ks, x ∈ (r.db.splitKey head k).keys := fun x hx => by
            rw [Db.keys_splitKey _ _ _ fun k' hk' _ _ => List.mem_singleton.1 hk' ▸ hbk]
            exact List.mem_filter.2 ⟨hin' x hx, by simp [ne_of_mem_of_not_mem hx hk]⟩
          rcases upgradeLoop_eq fails head ks
            ⟨r.db.splitKey head k, r.log ++ (writeParts b ++ [.delete k])⟩ hnd hin'' with
            ⟨hl, log, h⟩ | ⟨ks₁, k', ks₂, b', t, op, log, rfl, hl, hne, hb', ht, hf, h⟩ | ⟨hl, h⟩
          · exact .inl ⟨hl.of_splitKey _ _ hk hbk, log, by simp [upgradeLoop, hkh, hb, hw, ← hsplit, h]⟩
          · refine .inr (.inl ⟨k :: ks₁, k', ks₂, b', t, op, log, rfl,
              hl.of_splitKey _ _ (fun h => hk (List.mem_append_left _ h)) hbk, hne, hb', ht, hf, ?_⟩)
            simp [upgradeLoop, hkh, hb, hw, ← hsplit, h]
          · refine .inr (.inr ⟨fun h' => hl ((h'.mono _ _ (List.subset_cons_self _ _)).splitKey _ _ k),
              by simp [upgradeLoop, hkh, hb, hw, ← hsplit, h]⟩)
        · obtain ⟨hle, hpre'⟩ := take_writeParts_of_eq hpre
          refine .inr (.inl ⟨[], k, ks, b, pre.length, op, r.log ++ pre ++ [op], rfl, nofun, hkh, hb, hle,
            ⟨_, hf⟩, ?_⟩)
          rw [Db.splitAll_nil, ← hpre']
          simp [upgradeLoop, hkh, hb, hw]

/-- Where a call stops when a write fails: some old keys split, then a prefix of one block's writes.
-/
def Cut (head : Hash) (db y : Db) : Prop :=
  (∃ ks₁ k ks₂ b t, db.keys = ks₁ ++ k :: ks₂ ∧ db.LoadsAll head ks₁ ∧ k ≠ head ∧
      (db.splitAll head ks₁).getBlockByHashOld k = some b ∧ t ≤ 3 ∧
      y = (db.splitAll head ks₁).applyAll ((writeParts b).take t)) ∨
    ∃ cur t, db.LoadsAll head db.keys ∧
      (db.splitAll head db.keys).getBlockByHashOld head = some cur ∧ t < 3 ∧
      y = (db.splitAll head db.keys).applyAll ((writeParts cur).take t)

theorem upgradeChainDatabase_checks (fails : Nat → Bool) (db : Db) :
    (∃ head b, db.lastBlock = some head ∧ db.getBlockByHashOld head = some b ∧ db.leveldb = true) ∨
      ∃ e, e.returnsNil = true ∧ e ≠ .done ∧ upgradeChainDatabase fails db = some (⟨db, []⟩, e) := by
  cases hl : db.lastBlock with
  | none => exact .inr ⟨.noLastBlock, rfl, nofun, by simp [upgradeChainDatabase, hl]⟩
  | some head =>
    cases hb : db.getBlockByHashOld head with
    | none => exact .inr ⟨.notOld, rfl, nofun, by simp [upgradeChainDatabase, hl, hb]⟩
    | some b =>
      cases hldb : db.leveldb
      · exact .inr ⟨.notLevelDb, rfl, nofun, by simp [upgradeChainDatabase, hl, hb, hldb]⟩
      · exact .inl ⟨head, b, rfl, hb, rfl⟩

/-- On a LevelDB whose head loads, a call returns nil at `Db.upgraded`, returns a failed write's
error at a `Cut`, or panics. -/
theorem upgradeChainDatabase_eq (fails : Nat → Bool) {db : Db} {head : Hash} {b : OldBlock}
    (hl : db.lastBlock = some head) (hb : db.getBlockByHashOld head = some b)
    (hldb : db.leveldb = true) :
    (db.LoadsAll head db.keys ∧
        ∃ log, upgradeChainDatabase fails db = some (⟨db.upgraded head, log⟩, .done)) ∨
      (∃ y log op, Cut head db y ∧ (∃ n, fails n = true) ∧
        upgradeChainDatabase fails db = some (⟨y, log⟩, .failed op)) ∨
      (¬db.LoadsAll head db.keys ∧ upgradeChainDatabase fails db = none) := by
  have hcur : (db.splitAll head db.keys).getBlockByHashOld head = some b := by
    rw [db.getBlockByHashOld_splitAll head (.inl rfl), hb]
  rcases upgradeLoop_eq fails head db.keys ⟨db, []⟩ db.old_nodup (fun _ h => h) with
    ⟨hload, log, h⟩ | ⟨ks₁, k, ks₂, b', t, op, log, hks, hl₁, hne, hb', ht, hf, h⟩ | ⟨hload, h⟩
  · rcases writeAll_eq fails ⟨db.splitAll head db.keys, log⟩ (writeParts b) with
      hw | ⟨pre, op, post, hpre, hf, hw⟩
    · refine .inl ⟨hload, log ++ writeParts b, ?_⟩
      simp [upgradeChainDatabase, hl, hb, hldb, h, hcur, hw, db.upgraded_eq head hcur]
    · obtain ⟨hlt, htake⟩ := take_length_of_eq_append hpre
      refine .inr (.inl ⟨(db.splitAll head db.keys).applyAll pre, log ++ pre ++ [op], op,
        .inr ⟨b, pre.length, hload, hcur, by simpa [writeParts] using hlt, by rw [htake]⟩, ⟨_, hf⟩,
        by simp [upgradeChainDatabase, hl, hb, hldb, h, hcur, hw]⟩)
  · exact .inr (.inl ⟨_, log, op, .inl ⟨ks₁, k, ks₂, b', t, hks, hl₁, hne, hb', ht, rfl⟩, hf,
      by simp [upgradeChainDatabase, hl, hb, hldb, h]⟩)
  · exact .inr (.inr ⟨hload, by simp [upgradeChainDatabase, hl, hb, hldb, h]⟩)

theorem upgradeChainDatabase_noFaults {db : Db} {head : Hash} {b : OldBlock}
    (hl : db.lastBlock = some head) (hb : db.getBlockByHashOld head = some b)
    (hldb : db.leveldb = true) (hload : db.LoadsAll head db.keys) :
    ∃ log, upgradeChainDatabase noFaults db = some (⟨db.upgraded head, log⟩, .done) := by
  rcases upgradeChainDatabase_eq noFaults hl hb hldb with h | ⟨_, _, _, -, ⟨n, hn⟩, -⟩ | ⟨hn, -⟩
  · exact h.2
  · exact absurd hn (by simp [noFaults])
  · exact absurd hload hn

theorem upgradeChainDatabase_isSome (fails : Nat → Bool) {db : Db}
    (hload : ∀ head, db.lastBlock = some head → db.LoadsAll head db.keys) :
    (upgradeChainDatabase fails db).isSome := by
  rcases upgradeChainDatabase_checks fails db with ⟨head, b, hl, hb, hldb⟩ | ⟨e, -, -, h⟩
  · rcases upgradeChainDatabase_eq fails hl hb hldb with ⟨-, _, h⟩ | ⟨_, _, _, _, _, h⟩ | ⟨hn, -⟩
    · rw [h]; rfl
    · rw [h]; rfl
    · exact absurd (hload head hl) hn
  · rw [h]; rfl

/-! ## Finishing from a cut -/

section Cut

variable {head : Hash} {db y : Db}

theorem Cut.exists_applyAll (hc : Cut head db y) :
    ∃ ks t b, y = (db.splitAll head ks).applyAll ((writeParts b).take t) := by
  rcases hc with ⟨ks₁, -, -, b, t, -, -, -, -, -, rfl⟩ | ⟨cur, t, -, -, -, rfl⟩
  · exact ⟨ks₁, t, b, rfl⟩
  · exact ⟨db.keys, t, cur, rfl⟩

theorem Cut.checks (hc : Cut head db y) :
    y.lastBlock = db.lastBlock ∧ y.leveldb = db.leveldb ∧
      y.getBlockByHashOld head = db.getBlockByHashOld head := by
  obtain ⟨ks, t, b, rfl⟩ := hc.exists_applyAll
  refine ⟨by simp, by simp, ?_⟩
  rw [Db.getBlockByHashOld_applyAll_writeParts_take, Db.getBlockByHashOld_splitAll _ _ (.inl rfl)]

theorem Cut.mipmaps_version (hc : Cut head db y) : y.mipmaps = db.mipmaps ∧ y.version = db.version := by
  obtain ⟨ks, t, b, rfl⟩ := hc.exists_applyAll
  obtain ⟨h₁, h₂⟩ := (db.splitAll head ks).mipmaps_version_applyAll_writeParts_take b t
  obtain ⟨h₃, h₄⟩ := db.splitAll_mipmaps_version head ks
  exact ⟨h₁.trans h₃, h₂.trans h₄⟩

theorem keys_of_cut {ks₁ ks₂ : List Hash} {k : Hash} {b : OldBlock} {t : Nat}
    (hks : db.keys = ks₁ ++ k :: ks₂) (hl : db.LoadsAll head ks₁) :
    ((db.splitAll head ks₁).applyAll ((writeParts b).take t)).keys =
      ks₁.filter (· = head) ++ k :: ks₂ := by
  have hdisj := (List.nodup_append.1 (hks ▸ db.old_nodup : (ks₁ ++ k :: ks₂).Nodup)).2.2
  rw [Db.keys_applyAll_writeParts_take, Db.keys_splitAll _ _ _ hl, hks, List.filter_append]
  congr 1
  · exact List.filter_congr fun x hx => by simp [hx]
  · exact List.filter_eq_self.2 fun x hx => decide_eq_true (.inr fun h => hdisj h hx)

theorem Cut.loadsAll (hc : Cut head db y) (hy : y.LoadsAll head y.keys) :
    db.LoadsAll head db.keys := by
  rcases hc with ⟨ks₁, k, ks₂, b, t, hks, hl₁, -, -, -, rfl⟩ | ⟨-, -, hl, -, -, -⟩
  · intro x hx hxh hxm
    rw [hks] at hx
    rcases List.mem_append.1 hx with hx | hx
    · exact hl₁ x hx hxh hxm
    have hxn : x ∉ ks₁ := fun h =>
      (List.nodup_append.1 (hks ▸ db.old_nodup : (ks₁ ++ k :: ks₂).Nodup)).2.2 h hx
    have hxy : x ∈ ((db.splitAll head ks₁).applyAll ((writeParts b).take t)).keys := by
      rw [keys_of_cut hks hl₁]; exact List.mem_append_right _ hx
    have := hy x hxy hxh hxy
    rwa [Db.getBlockByHashOld_applyAll_writeParts_take, Db.getBlockByHashOld_splitAll _ _ (.inr hxn)]
      at this
  · exact hl

/-- Finishing from a cut leaves what a fault-free call leaves: the interrupted block is split again
from the start. -/
theorem Cut.upgraded (hc : Cut head db y) : y.upgraded head = db.upgraded head := by
  rcases hc with ⟨ks₁, k, ks₂, b, t, hks, hl₁, hne, hb, ht, rfl⟩ | ⟨cur, t, hl, hcur, ht, rfl⟩
  · have hsplit : ((db.splitAll head ks₁).applyAll ((writeParts b).take t)).splitAll head
        (ks₁.filter (· = head) ++ k :: ks₂) = db.splitAll head db.keys := by
      have hheads : ∀ x ∈ ks₁.filter (· = head), x = head := fun x hx => by
        simpa using (List.mem_filter.1 hx).2
      rw [Db.splitAll_append, Db.splitAll_of_forall_eq _ _ hheads, Db.splitAll_cons,
        Db.splitKey_of_ne _ _ hne (by rw [Db.getBlockByHashOld_applyAll_writeParts_take, hb]),
        Db.applyAll_append, Db.applyAll_writeParts_take _ _ ht, ← Db.applyAll_append,
        ← Db.splitKey_of_ne _ _ hne hb, ← Db.splitAll_cons, ← Db.splitAll_append, hks]
    simp only [Db.upgraded, keys_of_cut hks hl₁, hsplit]
  · have hall : ∀ x ∈ ((db.splitAll head db.keys).applyAll ((writeParts cur).take t)).keys,
        x = head := by
      rw [Db.keys_applyAll_writeParts_take]; exact db.keys_splitAll_keys head hl
    have hcur' : (((db.splitAll head db.keys).applyAll ((writeParts cur).take t)).splitAll head
        (((db.splitAll head db.keys).applyAll ((writeParts cur).take t)).keys)).getBlockByHashOld
          head = some cur := by
      rw [Db.splitAll_of_forall_eq _ _ hall, Db.getBlockByHashOld_applyAll_writeParts_take, hcur]
    rw [Db.upgraded_eq _ _ hcur', Db.splitAll_of_forall_eq _ _ hall,
      Db.applyAll_writeParts_take _ _ (by omega), Db.upgraded_eq _ _ hcur]

end Cut

theorem upgradeChainDatabase_mipmaps_version (fails : Nat → Bool) (db : Db) {r : Run}
    {e : UpgradeExit} (h : upgradeChainDatabase fails db = some (r, e)) :
    r.db.mipmaps = db.mipmaps ∧ r.db.version = db.version := by
  rcases upgradeChainDatabase_checks fails db with ⟨head, b, hl, hb, hldb⟩ | ⟨e', -, -, h'⟩
  · rcases upgradeChainDatabase_eq fails hl hb hldb with ⟨-, log, h'⟩ | ⟨y, log, op, hc, -, h'⟩ | ⟨-, h'⟩
    · rw [h'] at h; cases h; exact ⟨(db.upgraded_fields head).1, (db.upgraded_fields head).2.1⟩
    · rw [h'] at h; cases h; exact hc.mipmaps_version
    · rw [h'] at h; cases h
  · rw [h'] at h; cases h; exact ⟨rfl, rfl⟩

/-! ## Resuming after a failed write -/

/-- A nil call after one a failing write ended leaves what one fault-free call leaves. -/
theorem upgrade_resumes_after_failure {fails₁ fails₂ : Nat → Bool} {db : Db} {r₁ r₂ : Run}
    {op : Op} {e₂ : UpgradeExit} (h₁ : upgradeChainDatabase fails₁ db = some (r₁, .failed op))
    (h₂ : upgradeChainDatabase fails₂ r₁.db = some (r₂, e₂)) (hnil : e₂.returnsNil = true) :
    ∃ r, upgradeChainDatabase noFaults db = some (r, .done) ∧ r₂.db = r.db := by
  rcases upgradeChainDatabase_checks fails₁ db with ⟨head, b, hl, hb, hldb⟩ | ⟨e, he, -, h⟩
  swap
  · rw [h] at h₁; cases h₁; cases he
  obtain ⟨y, hc, rfl⟩ : ∃ y, Cut head db y ∧ y = r₁.db := by
    rcases upgradeChainDatabase_eq fails₁ hl hb hldb with ⟨-, _, h⟩ | ⟨y, _, _, hc, -, h⟩ | ⟨-, h⟩
    · rw [h] at h₁; cases h₁
    · rw [h] at h₁; cases h₁; exact ⟨y, hc, rfl⟩
    · rw [h] at h₁; cases h₁
  obtain ⟨hl', hldb', hb'⟩ := hc.checks
  obtain ⟨hy, hsecond⟩ : r₁.db.LoadsAll head r₁.db.keys ∧ r₂.db = r₁.db.upgraded head := by
    rcases upgradeChainDatabase_eq fails₂ (hl'.trans hl) (hb'.trans hb) (hldb'.trans hldb) with
      ⟨hy, _, h⟩ | ⟨_, _, _, _, _, h⟩ | ⟨-, h⟩
    · rw [h] at h₂; cases h₂; exact ⟨hy, rfl⟩
    · rw [h] at h₂; cases h₂; cases hnil
    · rw [h] at h₂; cases h₂
  obtain ⟨_, hfirst⟩ := upgradeChainDatabase_noFaults hl hb hldb (hc.loadsAll hy)
  exact ⟨_, hfirst, hsecond.trans hc.upgraded⟩

def oldBlockAt (n : Nat) : OldBlock := ⟨⟨n, n⟩, n + 10, n + 20⟩

/-- A LevelDB in the old format: blocks `0` and `1` stored whole, `LastBlock` naming `1`. -/
def oldDb : Db where
  leveldb := true
  lastBlock := some 1
  old := [(0, some (oldBlockAt 0)), (1, some (oldBlockAt 1))]
  old_nodup := by decide
  td := fun _ => none
  body := fun _ => none
  header := fun _ => none
  canonical := fun _ => none
  receipts := fun _ => 0
  mipmaps := []
  version := .empty

theorem oldDb_resumes :
    ∃ r₁ r₂, upgradeChainDatabase (· == 1) oldDb = some (r₁, .failed (.writeBody 0 20)) ∧
      upgradeChainDatabase noFaults r₁.db = some (r₂, .done) ∧ UpgradeExit.done.returnsNil = true ∧
      ∃ r, upgradeChainDatabase noFaults oldDb = some (r, .done) ∧ r₂.db = r.db :=
  ⟨_, _, rfl, rfl, rfl,
    @upgrade_resumes_after_failure (· == 1) noFaults oldDb _ _ _ _ rfl rfl rfl⟩

/-! ## The head's old key is kept -/

theorem upgradeLoop_of_forall_eq (fails : Nat → Bool) (head : Hash) (r : Run) :
    ∀ {keys : List Hash}, (∀ x ∈ keys, x = head) → upgradeLoop fails head keys r = some (r, none)
  | [], _ => rfl
  | key :: keys, h => by
    rw [upgradeLoop, if_pos (h key (.head _))]
    exact upgradeLoop_of_forall_eq fails head r fun x hx => h x (.tail _ hx)

theorem upgradeChainDatabase_of_head_only (fails : Nat → Bool) {db : Db} {head : Hash}
    {cur : OldBlock} (hl : db.lastBlock = some head) (hldb : db.leveldb = true)
    (hk : ∀ x ∈ db.keys, x = head) (hcur : db.getBlockByHashOld head = some cur) :
    ∃ r e, upgradeChainDatabase fails db = some (r, e) ∧ e ≠ .notOld ∧ r.log ≠ [] ∧
      r.log <+: writeParts cur := by
  have hloop := upgradeLoop_of_forall_eq fails head ⟨db, []⟩ hk
  rcases writeAll_eq fails ⟨db, []⟩ (writeParts cur) with hw | ⟨pre, op, post, hpre, -, hw⟩
  · refine ⟨_, .done, by simp only [upgradeChainDatabase, hl, hcur, hldb, hloop, hw, if_true]; rfl,
      nofun, by simp [writeParts], by simp⟩
  · refine ⟨_, .failed op, by simp only [upgradeChainDatabase, hl, hcur, hldb, hloop, hw, if_true]; rfl,
      nofun, by simp, ?_⟩
    rw [hpre]
    exact ⟨post, by simp⟩

/-- After a nil call on an old LevelDB the head's old key is still stored, so the next call attempts
the head's writes again. -/
theorem upgrade_reruns_after_success {fails₁ fails₂ : Nat → Bool} {db : Db} {head : Hash}
    {cur : OldBlock} {r₁ : Run} {e₁ : UpgradeExit} (hldb : db.leveldb = true)
    (hl : db.lastBlock = some head) (hcur : db.getBlockByHashOld head = some cur)
    (h₁ : upgradeChainDatabase fails₁ db = some (r₁, e₁)) (hnil : e₁.returnsNil = true) :
    ∃ r₂ e₂, upgradeChainDatabase fails₂ r₁.db = some (r₂, e₂) ∧ e₂ ≠ .notOld ∧ r₂.log ≠ [] ∧
      r₂.log <+: writeParts cur := by
  have hZ : (db.splitAll head db.keys).getBlockByHashOld head = some cur := by
    rw [db.getBlockByHashOld_splitAll head (.inl rfl), hcur]
  obtain ⟨hload, hfirst⟩ : db.LoadsAll head db.keys ∧ r₁.db = db.upgraded head := by
    rcases upgradeChainDatabase_eq fails₁ hl hcur hldb with ⟨hload, _, h⟩ | ⟨_, _, _, _, _, h⟩ | ⟨-, h⟩
    · rw [h] at h₁; cases h₁; exact ⟨hload, rfl⟩
    · rw [h] at h₁; cases h₁; cases hnil
    · rw [h] at h₁; cases h₁
  rw [hfirst, db.upgraded_eq head hZ]
  have hl' : ((db.splitAll head db.keys).applyAll (writeParts cur)).lastBlock = some head := by
    simp [hl]
  refine upgradeChainDatabase_of_head_only fails₂ hl' (by simp [hldb]) ?_ ?_
  · rw [Db.keys_applyAll_writeParts]; exact db.keys_splitAll_keys head hload
  · rw [Db.getBlockByHashOld_applyAll_writeParts, hZ]

theorem oldDb_reruns :
    ∃ r₁, oldDb.leveldb = true ∧ oldDb.lastBlock = some 1 ∧
      oldDb.getBlockByHashOld 1 = some (oldBlockAt 1) ∧
      upgradeChainDatabase noFaults oldDb = some (r₁, .done) ∧ UpgradeExit.done.returnsNil = true ∧
      ∃ r₂ e₂, upgradeChainDatabase noFaults r₁.db = some (r₂, e₂) ∧ e₂ ≠ .notOld ∧ r₂.log ≠ [] ∧
        r₂.log <+: writeParts (oldBlockAt 1) :=
  ⟨_, rfl, rfl, rfl, rfl, rfl,
    @upgrade_reruns_after_success noFaults noFaults oldDb 1 (oldBlockAt 1) _ _ rfl rfl rfl rfl rfl⟩

end Ethcore.ChainDb
