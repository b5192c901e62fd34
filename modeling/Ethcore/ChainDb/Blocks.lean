import Ethcore.ChainDb.Upgrade

/-!
# No block is lost by `upgradeChainDatabase`

A block stored whole under `block-hash-<hash>` is split by lines 865-876: its total difficulty,
body and header are written under `block.Hash()`, then its old key is deleted. Whatever write or
delete fails, every block stored whole when the call began is afterwards still stored whole under
its key, or stored split:

* `Db.HasSplit d b` : `b`'s header, body and total difficulty are stored under its hash;
* `Db.WellKeyed d` : every block stored whole is stored under its own hash, the key
  `block-hash-<hash>` naming it;
* `Op.partHash`, `Db.HasSplit.applyAll` : a write of another hash's parts, or a delete, keeps
  `HasSplit`;
* `Db.hasSplit_splitAll` : with nothing failing, every block whose key the loop has passed is
  split, and stays split through the rest of the loop;
* `Cut.kept` : at every cut, each block is stored whole or split;
* `upgrade_keeps_blocks` : whatever fails, after a call that returns each block is stored whole
  or split, and split when the call returns nil after upgrading.
-/

namespace Ethcore.ChainDb

def Op.partHash : Op → Option Hash
  | .writeTd h _ | .writeBody h _ => some h
  | .writeHeader hd => some hd.hash
  | _ => none

theorem partHash_writeParts (b : OldBlock) : ∀ op ∈ writeParts b, op.partHash = some b.hash := by
  simp [writeParts, Op.partHash, OldBlock.hash]

namespace Db

/-- Block `b` stored split: its header, body and total difficulty under its hash. -/
def HasSplit (d : Db) (b : OldBlock) : Prop :=
  d.header b.hash = some b.header ∧ d.body b.hash = some b.body ∧ d.td b.hash = some b.td

/-- Every block stored whole is stored under its own hash. -/
def WellKeyed (d : Db) : Prop := ∀ e ∈ d.old, ∀ b ∈ e.2, b.hash = e.1

instance (d : Db) : Decidable d.WellKeyed := List.decidableBAll _ _

variable {d : Db} {b : OldBlock} {head : Hash}

theorem WellKeyed.hash_eq (hw : d.WellKeyed) {x : Hash} (hb : d.getBlockByHashOld x = some b) :
    b.hash = x := by
  obtain ⟨e, he, hbe⟩ := Option.bind_eq_some.1 hb
  have hx := List.find?_some he
  exact (hw e (List.mem_of_find?_eq_some he) b hbe).trans (beq_iff_eq.1 hx)

theorem WellKeyed.splitKey (hw : d.WellKeyed) (key : Hash) : (d.splitKey head key).WellKeyed := by
  unfold Db.splitKey
  split_ifs
  · exact hw
  · split
    · intro e he
      rw [applyAll_append, applyAll_cons, applyAll_nil] at he
      exact hw e (List.mem_filter.1 he).1
    · exact hw

theorem WellKeyed.splitAll (hw : d.WellKeyed) (keys : List Hash) :
    (d.splitAll head keys).WellKeyed := by
  induction keys generalizing d with
  | nil => exact hw
  | cons key keys ih => exact ih (hw.splitKey key)

theorem HasSplit.apply (h : d.HasSplit b) {op : Op} (hop : op.partHash ≠ some b.hash) :
    (d.apply op).HasSplit b := by
  have hne : ∀ {x}, op.partHash = some x → b.hash ≠ x := fun hx he => hop (he ▸ hx)
  cases op with
  | writeTd x v => exact ⟨h.1, h.2.1, (Function.update_noteq (hne rfl) _ _).trans h.2.2⟩
  | writeBody x v => exact ⟨h.1, (Function.update_noteq (hne rfl) _ _).trans h.2.1, h.2.2⟩
  | writeHeader hd => exact ⟨(Function.update_noteq (hne rfl) _ _).trans h.1, h.2.1, h.2.2⟩
  | delete _ | writeMipmapBloom _ _ | putVersion _ => exact h

theorem HasSplit.applyAll (h : d.HasSplit b) {ops : List Op}
    (hops : ∀ op ∈ ops, op.partHash ≠ some b.hash) : (d.applyAll ops).HasSplit b := by
  induction ops generalizing d with
  | nil => exact h
  | cons op ops ih => exact ih (h.apply (hops op (.head _))) fun o ho => hops o (.tail _ ho)

theorem HasSplit.applyAll_writeParts_take (h : d.HasSplit b) {b' : OldBlock}
    (hne : b'.hash ≠ b.hash) (t : Nat) : (d.applyAll ((writeParts b').take t)).HasSplit b :=
  h.applyAll fun op hop => by
    rw [partHash_writeParts b' op (List.mem_of_mem_take hop)]
    exact fun he => hne (Option.some.inj he)

theorem hasSplit_applyAll_writeParts (d : Db) (b : OldBlock) :
    (d.applyAll (writeParts b)).HasSplit b := by
  simp [HasSplit, writeParts, apply, OldBlock.hash]

theorem HasSplit.splitKey (hw : d.WellKeyed) (h : d.HasSplit b) {key : Hash} (hne : key ≠ b.hash) :
    (d.splitKey head key).HasSplit b := by
  unfold Db.splitKey
  split_ifs
  · exact h
  · split
    · rename_i b' hb'
      rw [applyAll_append, applyAll_cons, applyAll_nil]
      exact (h.applyAll_writeParts_take (hw.hash_eq hb' ▸ hne) 3).apply (Option.some_ne_none _).symm
    · exact h

theorem HasSplit.splitAll (hw : d.WellKeyed) (h : d.HasSplit b) {keys : List Hash}
    (hk : b.hash ∉ keys) : (d.splitAll head keys).HasSplit b := by
  induction keys generalizing d with
  | nil => exact h
  | cons key keys ih =>
    exact ih (hw.splitKey key) (h.splitKey hw fun he => hk (he ▸ .head _))
      fun hm => hk (.tail _ hm)

theorem hasSplit_splitKey {key : Hash} (hk : key ≠ head) (hb : d.getBlockByHashOld key = some b) :
    (d.splitKey head key).HasSplit b := by
  rw [splitKey_of_ne _ _ hk hb, applyAll_append, applyAll_cons, applyAll_nil]
  exact (hasSplit_applyAll_writeParts d b).apply (Option.some_ne_none _).symm

theorem hasSplit_splitAll (hw : d.WellKeyed) {keys : List Hash} (hnd : keys.Nodup) {x : Hash}
    (hx : x ∈ keys) (hxh : x ≠ head) (hb : d.getBlockByHashOld x = some b) :
    (d.splitAll head keys).HasSplit b := by
  induction keys generalizing d with
  | nil => cases hx
  | cons key keys ih =>
    obtain ⟨hkey, hnd⟩ := List.nodup_cons.1 hnd
    rw [splitAll_cons]
    by_cases hxk : x = key
    · subst hxk
      exact (hasSplit_splitKey hxh hb).splitAll (hw.splitKey x) (hw.hash_eq hb ▸ hkey)
    · refine ih (hw.splitKey key) hnd (List.mem_of_ne_of_mem hxk hx) ?_
      rw [getBlockByHashOld_splitKey _ _ (.inr hxk), hb]

theorem splitAll_keys_hasSplit (hw : d.WellKeyed) {x : Hash} (hb : d.getBlockByHashOld x = some b)
    (hxh : x ≠ head) {cur : OldBlock}
    (hcur : (d.splitAll head d.keys).getBlockByHashOld head = some cur) (t : Nat) :
    ((d.splitAll head d.keys).applyAll ((writeParts cur).take t)).HasSplit b := by
  refine (hasSplit_splitAll hw d.old_nodup (d.mem_keys_of_getBlockByHashOld hb) hxh hb)
    |>.applyAll_writeParts_take ?_ t
  rw [(hw.splitAll _).hash_eq hcur, hw.hash_eq hb]
  exact Ne.symm hxh

theorem upgraded_hasSplit (hw : d.WellKeyed) {x : Hash} (hb : d.getBlockByHashOld x = some b) :
    (d.upgraded head).HasSplit b := by
  have hhead : (d.splitAll head d.keys).getBlockByHashOld head = d.getBlockByHashOld head :=
    getBlockByHashOld_splitAll _ _ (.inl rfl)
  unfold upgraded
  split
  · rename_i cur hcur
    by_cases hxh : x = head
    · subst hxh
      rw [hhead, hb, Option.some.injEq] at hcur
      exact hcur ▸ hasSplit_applyAll_writeParts _ b
    · exact splitAll_keys_hasSplit hw hb hxh hcur 3
  · rename_i hnone
    refine hasSplit_splitAll hw d.old_nodup (d.mem_keys_of_getBlockByHashOld hb) (fun hxh => ?_) hb
    rw [hhead, ← hxh, hb] at hnone
    cases hnone

end Db

/-- At a cut every block stored whole is still whole, or split: the loop deletes a key only after
its block's writes. -/
theorem Cut.kept {head : Hash} {db y : Db} (hc : Cut head db y) (hw : db.WellKeyed) {x : Hash}
    {b : OldBlock} (hb : db.getBlockByHashOld x = some b) :
    y.getBlockByHashOld x = some b ∨ y.HasSplit b := by
  rcases hc with ⟨ks₁, k, ks₂, b', t, hks, -, -, hb', -, rfl⟩ | ⟨cur, t, -, hcur, -, rfl⟩
  · have hnd : (ks₁ ++ k :: ks₂).Nodup := hks ▸ db.old_nodup
    by_cases hx : x ∈ ks₁ ∧ x ≠ head
    · refine .inr ((db.hasSplit_splitAll hw (hnd.sublist (List.sublist_append_left _ _)) hx.1 hx.2
        hb).applyAll_writeParts_take ?_ t)
      rw [(hw.splitAll ks₁).hash_eq hb', hw.hash_eq hb]
      rintro rfl
      exact (List.nodup_append.1 hnd).2.2 hx.1 (.head _)
    · left
      rw [Db.getBlockByHashOld_applyAll_writeParts_take, Db.getBlockByHashOld_splitAll _ _
        ((not_and_or.1 hx).symm.imp_left not_not.1), hb]
  · by_cases hxh : x = head
    · left
      rw [Db.getBlockByHashOld_applyAll_writeParts_take,
        Db.getBlockByHashOld_splitAll _ _ (.inl hxh), hb]
    · exact .inr (Db.splitAll_keys_hasSplit hw hb hxh hcur t)

/-- Whatever fails, a call that returns loses no block: each one stays whole or is split, and all
are split once it returns after its last write. -/
theorem upgrade_keeps_blocks {fails : Nat → Bool} {db : Db} {r : Run} {e : UpgradeExit}
    (h : upgradeChainDatabase fails db = some (r, e)) (hw : db.WellKeyed) {x : Hash}
    {b : OldBlock} (hb : db.getBlockByHashOld x = some b) :
    (r.db.getBlockByHashOld x = some b ∨ r.db.HasSplit b) ∧ (e = .done → r.db.HasSplit b) := by
  rcases upgradeChainDatabase_checks fails db with ⟨head, _, hl, hh, hldb⟩ | ⟨e', -, hne, h'⟩
  · rcases upgradeChainDatabase_eq fails hl hh hldb with ⟨-, _, h'⟩ | ⟨_, _, _, hc, -, h'⟩ | ⟨-, h'⟩
    · rw [h'] at h; cases h
      exact ⟨.inr (db.upgraded_hasSplit hw hb), fun _ => db.upgraded_hasSplit hw hb⟩
    · rw [h'] at h; cases h
      exact ⟨hc.kept hw hb, nofun⟩
    · rw [h'] at h; cases h
  · rw [h'] at h; cases h
    exact ⟨.inl hb, fun hd => absurd hd hne⟩

theorem oldDb_keeps_blocks :
    ∃ r, upgradeChainDatabase (· == 1) oldDb = some (r, .failed (.writeBody 0 20)) ∧
      oldDb.WellKeyed ∧ oldDb.getBlockByHashOld 0 = some (oldBlockAt 0) ∧
      (r.db.getBlockByHashOld 0 = some (oldBlockAt 0) ∨ r.db.HasSplit (oldBlockAt 0)) ∧
        (UpgradeExit.failed (.writeBody 0 20) = .done → r.db.HasSplit (oldBlockAt 0)) :=
  ⟨_, rfl, by decide, rfl, @upgrade_keeps_blocks (· == 1) oldDb _ _ rfl (by decide) 0 _ rfl⟩

end Ethcore.ChainDb
