import Ethcore.ChainDb.Store

/-!
# `addMipmapBloomBins`: the bloom bins and their version marker

`addMipmapBloomBins` (lines 894-937) returns at once when `setting-mipmap-version` already holds
version 2; otherwise it merges every canonical block's receipts into the mipmap bloom bins, and a
deferred function writes the version when the named result `err` is nil:

* `bloomLoop`, `mipmapBody`, `addMipmapBloomBins` : the code. The loop variable is a `uint64`,
  and `fuel` bounds its iterations;
* `bloomCalls` : one `WriteMipmapBloom` per canonical block from `0` to the head's number;
* `bloomLoop_done`, `bloomLoop_version` : a loop that ends makes those calls, and no loop
  writes the version;
* `bloomLoop_max` : with a head numbered `2^64 - 1`, `i <= n` always holds, `i++` wraps, and the
  loop ends only by an error;
* `bloomLoop_isSome` : otherwise enough fuel ends it;
* `mipmap_version_marks_upgrade` : nil means the version is 2, because it already was or because
  this call wrote it after every bloom; an error means it was not written;
* `mipmap_nil_without_blooms` : nil with no bloom written, when the version was already set;
* `bloomLoop_bins`, `addMipmapBloomBins_failed` : whatever fails, a call only adds merges of
  blocks up to the head, and changes nothing else;
* `mipmap_retry_bins` : after a failed call, a call that returns nil leaves the bins one clean
  pass leaves, the merge being an OR.
-/

namespace Ethcore.ChainDb

def mipmapVersion : Nat := 2

inductive MipmapError
  /-- Line 928: block `n` has no canonical hash. -/
  | corrupted (n : Nat)
  /-- `WriteMipmapBloom` or the deferred `Put` failed. -/
  | failed (op : Op)
  deriving DecidableEq, Repr

/-- The loop of lines 925-934 from `i` to `n`: the run and its error, if any; `none` when `fuel`
runs out. -/
def bloomLoop (fails : Nat → Bool) (n : UInt64) :
    Nat → UInt64 → Run → Option (Run × Option MipmapError)
  | 0, _, _ => none
  | fuel + 1, i, r =>
    if i ≤ n then
      let hash := r.db.getCanonicalHash i.toNat
      if hash = 0 then some (r, some (.corrupted i.toNat))
      else
        match r.writeAll fails [.writeMipmapBloom i.toNat (r.db.receipts hash)] with
        | (r', some op) => some (r', some (.failed op))
        | (r', none) => bloomLoop fails n fuel (i + 1) r'
    else some (r, none)

/-- Lines 918-936: nil on a database without a head block (line 920), else the loop. -/
def mipmapBody (fails : Nat → Bool) (fuel : Nat) (r : Run) : Option (Run × Option MipmapError) :=
  match r.db.getBlock r.db.getHeadBlockHash with
  | none => some (r, none)
  | some latest => bloomLoop fails (UInt64.ofNat latest.number) fuel 0 r

/-- `addMipmapBloomBins(db)` (lines 894-937): the run and the error returned; the deferred write of
the version runs when the body returns nil. -/
def addMipmapBloomBins (fails : Nat → Bool) (fuel : Nat) (db : Db) :
    Option (Run × Option MipmapError) :=
  if db.version = .uint mipmapVersion then some (⟨db, []⟩, none)
  else
    (mipmapBody fails fuel ⟨db, []⟩).map fun (r, err) =>
      match err with
      | some e => (r, some e)
      | none =>
        match r.writeAll fails [.putVersion mipmapVersion] with
        | (r', some op) => (r', some (.failed op))
        | (r', none) => (r', none)

/-- `WriteMipmapBloom` of block `j` with the receipts of its canonical hash. -/
def bloomWrite (db : Db) (j : Nat) : Op :=
  .writeMipmapBloom j (db.receipts (db.getCanonicalHash j))

/-- One `WriteMipmapBloom` per canonical block up to the head's number. -/
def bloomCalls (db : Db) : List Op :=
  match db.getBlock db.getHeadBlockHash with
  | none => []
  | some latest => (List.range (latest.number % UInt64.size + 1)).map (bloomWrite db)

/-! ## The loop -/

theorem UInt64.le_iff_toNat_le {i n : UInt64} : i ≤ n ↔ i.toNat ≤ n.toNat := by
  rw [UInt64.le_def, BitVec.le_def]; rfl

theorem UInt64.toNat_add_one {i : UInt64} (h : i.toNat + 1 < UInt64.size) :
    (i + 1).toNat = i.toNat + 1 := by
  show (i.toBitVec + 1#64).toNat = i.toBitVec.toNat + 1
  rw [BitVec.toNat_add, BitVec.toNat_ofNat]
  exact Nat.mod_eq_of_lt h

theorem UInt64.toNat_ofNat' (n : Nat) : (UInt64.ofNat n).toNat = n % UInt64.size :=
  BitVec.toNat_ofNat n 64

variable (fails : Nat → Bool) (n : UInt64)

@[simp] theorem bloomWrite_apply (db : Db) (op : Op) : bloomWrite (db.apply op) = bloomWrite db := by
  funext j; simp [bloomWrite, Db.getCanonicalHash]

theorem bloomLoop_succ {fuel : Nat} {i : UInt64} {r : Run} (hi : i ≤ n)
    (hz : r.db.getCanonicalHash i.toNat ≠ 0) (hw : fails r.log.length = false) :
    bloomLoop fails n (fuel + 1) i r =
      bloomLoop fails n fuel (i + 1)
        ⟨r.db.apply (bloomWrite r.db i.toNat), r.log ++ [bloomWrite r.db i.toNat]⟩ := by
  simp [bloomLoop, hi, hz, Run.writeAll, hw, bloomWrite]

theorem bloomLoop_version : ∀ (fuel : Nat) (i : UInt64) (r r' : Run) (e : Option MipmapError),
    bloomLoop fails n fuel i r = some (r', e) → r'.db.version = r.db.version
  | 0, _, _, _, _, h => by simp [bloomLoop] at h
  | fuel + 1, i, r, r', e, h => by
    unfold bloomLoop at h
    dsimp only at h
    split_ifs at h with hi hz
    · cases h; rfl
    · cases hf : fails r.log.length
      · simp only [Run.writeAll, hf] at h
        simpa [Db.apply] using bloomLoop_version fuel _ _ r' e h
      · simp only [Run.writeAll, hf, if_true, Option.some.injEq] at h
        cases h; rfl
    · cases h; rfl

theorem bloomLoop_max (hn : n.toNat + 1 = UInt64.size) :
    ∀ (fuel : Nat) (i : UInt64) (r r' : Run), bloomLoop fails n fuel i r ≠ some (r', none)
  | 0, _, _, _ => by simp [bloomLoop]
  | fuel + 1, i, r, r' => by
    have hi : i ≤ n := UInt64.le_iff_toNat_le.2 (by have := i.toNat_lt_size; omega)
    unfold bloomLoop
    dsimp only
    rw [if_pos hi]
    split_ifs
    · simp
    · split
      · simp
      · exact bloomLoop_max hn fuel _ _ r'

theorem bloomLoop_done (hn : n.toNat + 1 < UInt64.size) :
    ∀ (fuel : Nat) (i : UInt64) (r r' : Run), i.toNat ≤ n.toNat + 1 →
      bloomLoop fails n fuel i r = some (r', none) →
      r' = ⟨r.db.applyAll ((List.range' i.toNat (n.toNat + 1 - i.toNat)).map (bloomWrite r.db)),
        r.log ++ (List.range' i.toNat (n.toNat + 1 - i.toNat)).map (bloomWrite r.db)⟩
  | 0, _, _, _, _, h => by simp [bloomLoop] at h
  | fuel + 1, i, r, r', hi, h => by
    by_cases hle : i ≤ n
    · have hle' := UInt64.le_iff_toNat_le.1 hle
      by_cases hz : r.db.getCanonicalHash i.toNat = 0
      · simp [bloomLoop, hle, hz] at h
      cases hf : fails r.log.length
      · rw [bloomLoop_succ fails n hle hz hf] at h
        have hsucc := UInt64.toNat_add_one (i := i) (by omega)
        rw [bloomLoop_done hn fuel _ _ r' (by omega) h, hsucc,
          show n.toNat + 1 - i.toNat = (n.toNat + 1 - (i.toNat + 1)) + 1 by omega, List.range'_succ]
        simp [bloomWrite]
      · simp [bloomLoop, hle, hz, Run.writeAll, hf] at h
    · have : n.toNat + 1 - i.toNat = 0 := by
        have := UInt64.le_iff_toNat_le.not.1 hle
        omega
      simp only [bloomLoop, if_neg hle, Option.some.injEq, Prod.mk.injEq] at h
      rw [← h.1, this]
      simp

theorem bloomLoop_isSome (hn : n.toNat + 1 < UInt64.size) :
    ∀ (fuel : Nat) (i : UInt64) (r : Run), n.toNat + 1 - i.toNat < fuel →
      (bloomLoop fails n fuel i r).isSome
  | 0, _, _, h => absurd h (Nat.not_lt_zero _)
  | fuel + 1, i, r, h => by
    unfold bloomLoop
    dsimp only
    split_ifs with hle hz
    · rfl
    · split
      · rfl
      · have hle' := UInt64.le_iff_toNat_le.1 hle
        exact bloomLoop_isSome hn fuel _ _ (by rw [UInt64.toNat_add_one (by omega)]; omega)
    · rfl

theorem bloomLoop_noFaults : ∀ (fuel : Nat) (i : UInt64) (r r' : Run) (e : Option MipmapError),
    (∀ j ≤ n.toNat, r.db.getCanonicalHash j ≠ 0) → bloomLoop noFaults n fuel i r = some (r', e) →
      e = none
  | 0, _, _, _, _, _, h => by simp [bloomLoop] at h
  | fuel + 1, i, r, r', e, hc, h => by
    by_cases hle : i ≤ n
    · have hz := hc _ (UInt64.le_iff_toNat_le.1 hle)
      rw [bloomLoop_succ noFaults n hle hz rfl] at h
      exact bloomLoop_noFaults fuel _ _ r' e (by simpa [Db.getCanonicalHash] using hc) h
    · simp only [bloomLoop, if_neg hle, Option.some.injEq, Prod.mk.injEq] at h
      exact h.2.symm

theorem mipmaps_applyAll_bloomWrite : ∀ (db : Db) (js : List Nat),
    (db.applyAll (js.map (bloomWrite db))).mipmaps =
      db.mipmaps ++ js.map fun j => (j, db.receipts (db.getCanonicalHash j))
  | _, [] => by simp
  | db, j :: js => by
    have ih := mipmaps_applyAll_bloomWrite (db.apply (bloomWrite db j)) js
    simp only [bloomWrite_apply] at ih
    simp only [List.map_cons, Db.applyAll_cons, ih]
    simp [bloomWrite, Db.apply, Db.getCanonicalHash]

/-! ## The version marker -/

theorem mipmapBody_version {fuel : Nat} {r r' : Run} {e : Option MipmapError}
    (h : mipmapBody fails fuel r = some (r', e)) : r'.db.version = r.db.version := by
  unfold mipmapBody at h
  split at h
  · cases h; rfl
  · exact bloomLoop_version fails _ fuel 0 r r' e h

theorem mipmapBody_done {fuel : Nat} {db : Db} {r' : Run}
    (h : mipmapBody fails fuel ⟨db, []⟩ = some (r', none)) :
    r' = ⟨db.applyAll (bloomCalls db), bloomCalls db⟩ := by
  unfold mipmapBody at h
  unfold bloomCalls
  split at h
  · rename_i hb
    cases h
    simp only [hb]
    rfl
  · rename_i latest hb
    simp only [hb]
    have hn := UInt64.toNat_ofNat' latest.number
    have hlt : latest.number % UInt64.size < UInt64.size := Nat.mod_lt _ (by decide)
    rcases Nat.lt_or_ge (latest.number % UInt64.size + 1) UInt64.size with hlt' | hge
    · have := bloomLoop_done fails _ (by omega) fuel 0 _ r' (by simp) h
      simpa [hn, List.range_eq_range'] using this
    · exact absurd h (bloomLoop_max fails _ (by omega) fuel 0 _ r')

theorem addMipmapBloomBins_noFaults {fuel : Nat} {db : Db} {latest : Header}
    (hb : db.getBlock db.getHeadBlockHash = some latest) (hn : latest.number + 1 < UInt64.size)
    (hfuel : latest.number + 1 < fuel) (hc : ∀ j ≤ latest.number, db.getCanonicalHash j ≠ 0)
    (hv : db.version ≠ .uint mipmapVersion) :
    addMipmapBloomBins noFaults fuel db =
      some (⟨db.applyAll (bloomCalls db ++ [.putVersion mipmapVersion]),
        bloomCalls db ++ [.putVersion mipmapVersion]⟩, none) := by
  have hnat : (UInt64.ofNat latest.number).toNat = latest.number := by
    rw [UInt64.toNat_ofNat', Nat.mod_eq_of_lt (by omega)]
  obtain ⟨⟨r, e⟩, hloop⟩ := Option.isSome_iff_exists.1 (bloomLoop_isSome noFaults _
    (by rw [hnat]; exact hn) fuel 0 ⟨db, []⟩ (by simpa [hnat] using hfuel))
  obtain rfl : e = none :=
    bloomLoop_noFaults _ fuel 0 ⟨db, []⟩ r e (fun j hj => hc j (by rwa [hnat] at hj)) hloop
  have hbody : mipmapBody noFaults fuel ⟨db, []⟩ = some (r, none) := by
    simp only [mipmapBody, hb, hloop]
  rw [addMipmapBloomBins, if_neg hv, hbody, Option.map_some', mipmapBody_done noFaults hbody]
  simp only [writeAll_noFaults, Db.applyAll_append]

theorem mipmaps_version_bloomCalls {db : Db} {latest : Header}
    (hb : db.getBlock db.getHeadBlockHash = some latest) (hn : latest.number < UInt64.size) :
    (db.applyAll (bloomCalls db ++ [.putVersion mipmapVersion])).mipmaps = db.mipmaps ++
        (List.range (latest.number + 1)).map (fun j => (j, db.receipts (db.getCanonicalHash j))) ∧
      (db.applyAll (bloomCalls db ++ [.putVersion mipmapVersion])).version = .uint mipmapVersion := by
  have hcalls : bloomCalls db = (List.range (latest.number + 1)).map (bloomWrite db) := by
    simp only [bloomCalls, hb, Nat.mod_eq_of_lt hn]
  rw [Db.applyAll_append, Db.applyAll_cons, Db.applyAll_nil, hcalls]
  exact ⟨mipmaps_applyAll_bloomWrite db _, rfl⟩

/-- A nil return leaves version 2, held already or written last after one bloom write per canonical
block; an error return leaves it unwritten and not 2. -/
theorem mipmap_version_marks_upgrade {fuel : Nat} {db : Db} {r : Run}
    {err : Option MipmapError} (h : addMipmapBloomBins fails fuel db = some (r, err)) :
    (err = none → r.db.version = .uint mipmapVersion ∧
      ((db.version = .uint mipmapVersion ∧ r = ⟨db, []⟩) ∨
        (r.log = bloomCalls db ++ [.putVersion mipmapVersion] ∧ r.db = db.applyAll r.log))) ∧
    (err ≠ none → r.db.version = db.version ∧ db.version ≠ .uint mipmapVersion) := by
  unfold addMipmapBloomBins at h
  split_ifs at h with hv
  · obtain ⟨rfl, rfl⟩ := Prod.mk.inj (Option.some.inj h)
    exact ⟨fun _ => ⟨hv, .inl ⟨hv, rfl⟩⟩, fun h => absurd rfl h⟩
  obtain ⟨⟨r₀, e₀⟩, hbody, hdef⟩ := Option.map_eq_some'.1 h
  have hbv := mipmapBody_version fails hbody
  cases e₀ with
  | some e =>
    obtain ⟨rfl, rfl⟩ := Prod.mk.inj hdef
    exact ⟨fun h => (Option.some_ne_none e h).elim, fun _ => ⟨hbv, hv⟩⟩
  | none =>
    have hr₀ := mipmapBody_done fails hbody
    rcases writeAll_eq fails r₀ [.putVersion mipmapVersion] with hw | ⟨pre, op, post, hpre, -, hw⟩
    · simp only [hw] at hdef
      obtain ⟨rfl, rfl⟩ := Prod.mk.inj hdef
      subst hr₀
      exact ⟨fun _ => ⟨by simp [Db.apply], .inr ⟨rfl, by simp⟩⟩, fun h => absurd rfl h⟩
    · simp only [hw] at hdef
      obtain ⟨rfl, rfl⟩ := Prod.mk.inj hdef
      obtain rfl : pre = [] := by
        cases pre with
        | nil => rfl
        | cons _ pre => cases pre <;> simp at hpre
      exact ⟨fun h => (Option.some_ne_none _ h).elim, fun _ => ⟨hbv, hv⟩⟩

/-- A database whose head, block `7`, is number `1`; blocks `0` and `1` have canonical hashes `6`
and `7`. -/
def chainDb : Db where
  leveldb := true
  lastBlock := some 7
  old := []
  old_nodup := List.nodup_nil
  td := fun _ => none
  body := fun h => if h = 7 then some 0 else none
  header := fun h => if h = 7 then some ⟨7, 1⟩ else none
  canonical := fun n => if n = 0 then some 6 else if n = 1 then some 7 else none
  receipts := fun h => h + 100
  mipmaps := []
  version := .empty

/-- On `chainDb` with the version set, the call returns nil with no bloom of block `0` written. -/
theorem mipmap_nil_without_blooms :
    addMipmapBloomBins noFaults 3 { chainDb with version := .uint 2 } =
        some (⟨{ chainDb with version := .uint 2 }, []⟩, none) ∧
      chainDb.getBlock chainDb.getHeadBlockHash = some ⟨7, 1⟩ ∧ chainDb.mipmaps = [] :=
  ⟨rfl, rfl, rfl⟩

def chainDbWrites : List Op := [.writeMipmapBloom 0 106, .writeMipmapBloom 1 107, .putVersion 2]

theorem chainDb_mipmap_upgrade :
    addMipmapBloomBins noFaults 3 chainDb =
        some (⟨chainDb.applyAll chainDbWrites, chainDbWrites⟩, none) ∧
      ((none : Option MipmapError) = none →
        (chainDb.applyAll chainDbWrites).version = .uint mipmapVersion ∧
        ((chainDb.version = .uint mipmapVersion ∧
            (⟨chainDb.applyAll chainDbWrites, chainDbWrites⟩ : Run) = ⟨chainDb, []⟩) ∨
          (chainDbWrites = bloomCalls chainDb ++ [.putVersion mipmapVersion] ∧
            chainDb.applyAll chainDbWrites = chainDb.applyAll chainDbWrites))) ∧
      ((none : Option MipmapError) ≠ none →
        (chainDb.applyAll chainDbWrites).version = chainDb.version ∧
          chainDb.version ≠ .uint mipmapVersion) :=
  (fun h => ⟨h, mipmap_version_marks_upgrade noFaults h⟩) rfl

/-! ## A failed call, then a retry

`WriteMipmapBloom` ORs a block's receipt blooms into its bins, so a bin holds the union of what was
merged into it: merging a block twice is merging it once. A call that fails merges some blocks up
to the head and does not write the version; the next start merges every block again from `0`. -/

section Retry

variable {fails}

theorem applyAll_bloomWrite_bins (db : Db) :
    ∀ (js : List Nat) (ms : List (Nat × Nat)),
      { db with mipmaps := ms }.applyAll (js.map (bloomWrite db)) =
        { db with mipmaps := ms ++ js.map fun j => (j, db.receipts (db.getCanonicalHash j)) }
  | [], ms => by simp
  | j :: js, ms => by
    rw [List.map_cons, Db.applyAll_cons]
    exact (applyAll_bloomWrite_bins db js _).trans (by simp)

theorem exists_applyAll_bloomCalls (db : Db) :
    ∃ M : List (Nat × Nat), ∀ ms, { db with mipmaps := ms }.applyAll (bloomCalls db) =
      { db with mipmaps := ms ++ M } := by
  unfold bloomCalls
  split
  · exact ⟨[], fun ms => by simp⟩
  · exact ⟨_, applyAll_bloomWrite_bins db _⟩

theorem bloomLoop_bins {db : Db} {P : Nat × Nat → Prop}
    (hP : ∀ j ≤ n.toNat, P (j, db.receipts (db.getCanonicalHash j))) :
    ∀ (fuel : Nat) (i : UInt64) (ms : List (Nat × Nat)) (log : List Op) (r' : Run)
      (e : Option MipmapError),
      bloomLoop fails n fuel i ⟨{ db with mipmaps := ms }, log⟩ = some (r', e) →
      ∃ L, r'.db = { db with mipmaps := ms ++ L } ∧ ∀ m ∈ L, P m
  | 0, _, _, _, _, _, h => by simp [bloomLoop] at h
  | fuel + 1, i, ms, log, r', e, h => by
    have hstop : ∀ log', ∃ L, (⟨{ db with mipmaps := ms }, log'⟩ : Run).db =
        { db with mipmaps := ms ++ L } ∧ ∀ m ∈ L, P m :=
      fun _ => ⟨[], by rw [List.append_nil], nofun⟩
    by_cases hle : i ≤ n
    · by_cases hz : ({ db with mipmaps := ms } : Db).getCanonicalHash i.toNat = 0
      · simp only [bloomLoop, if_pos hle, if_pos hz] at h
        obtain ⟨rfl, -⟩ := Prod.mk.inj (Option.some.inj h)
        exact hstop _
      cases hf : fails log.length
      · rw [bloomLoop_succ fails n hle hz hf] at h
        obtain ⟨L, hr, hL⟩ := bloomLoop_bins hP fuel (i + 1)
          (ms ++ [(i.toNat, db.receipts (db.getCanonicalHash i.toNat))]) _ r' e h
        refine ⟨_ :: L, by rw [hr, List.append_assoc]; rfl, ?_⟩
        exact List.forall_mem_cons.2 ⟨hP _ (UInt64.le_iff_toNat_le.1 hle), hL⟩
      · simp only [bloomLoop, if_pos hle, if_neg hz, Run.writeAll, hf, if_true] at h
        obtain ⟨rfl, -⟩ := Prod.mk.inj (Option.some.inj h)
        exact hstop _
    · simp only [bloomLoop, if_neg hle] at h
      obtain ⟨rfl, -⟩ := Prod.mk.inj (Option.some.inj h)
      exact hstop _

theorem mipmapBody_bins {fuel : Nat} {db : Db} {ms : List (Nat × Nat)} {log : List Op} {r' : Run}
    {e : Option MipmapError} (h : mipmapBody fails fuel ⟨{ db with mipmaps := ms }, log⟩ = some (r', e)) :
    ∃ L, r'.db = { db with mipmaps := ms ++ L } ∧
      ∀ m ∈ L, m ∈ (db.applyAll (bloomCalls db)).mipmaps := by
  unfold mipmapBody at h
  split at h
  · obtain ⟨rfl, -⟩ := Prod.mk.inj (Option.some.inj h)
    exact ⟨[], by rw [List.append_nil], nofun⟩
  · rename_i latest hb
    refine bloomLoop_bins _ (fun j hj => ?_) fuel 0 ms log r' e h
    have hcalls : bloomCalls db = (List.range (latest.number % UInt64.size + 1)).map (bloomWrite db) := by
      simp only [bloomCalls, show db.getBlock db.getHeadBlockHash = some latest from hb]
    rw [hcalls, mipmaps_applyAll_bloomWrite]
    refine List.mem_append_right _ (List.mem_map.2 ⟨j, List.mem_range.2 ?_, rfl⟩)
    rw [UInt64.toNat_ofNat'] at hj
    omega

theorem addMipmapBloomBins_failed {fuel : Nat} {db : Db} {r : Run} {e : MipmapError}
    (h : addMipmapBloomBins fails fuel db = some (r, some e)) :
    db.version ≠ .uint mipmapVersion ∧ ∃ L, r.db = { db with mipmaps := db.mipmaps ++ L } ∧
      ∀ m ∈ L, m ∈ (db.applyAll (bloomCalls db)).mipmaps := by
  unfold addMipmapBloomBins at h
  split_ifs at h with hv
  · simp at h
  obtain ⟨⟨r₀, e₀⟩, hbody, hdef⟩ := Option.map_eq_some'.1 h
  obtain ⟨L, hr₀, hL⟩ := mipmapBody_bins hbody
  refine ⟨hv, L, ?_, hL⟩
  cases e₀ with
  | some e => rw [← (Prod.mk.inj hdef).1, hr₀]
  | none =>
    rcases writeAll_eq fails r₀ [.putVersion mipmapVersion] with hw | ⟨pre, op, post, hpre, -, hw⟩
    · simp [hw] at hdef
    · obtain rfl : pre = [] := by
        cases pre with
        | nil => rfl
        | cons _ pre => cases pre <;> simp at hpre
      simp only [hw] at hdef
      rw [← (Prod.mk.inj hdef).1]
      exact hr₀

/-- A nil call after a failed one leaves the version set and the bins of one clean pass over the
database the failed call began on. -/
theorem mipmap_retry_bins {fails₁ fails₂ : Nat → Bool} {fuel₁ fuel₂ : Nat} {db : Db}
    {r₁ r₂ : Run} {e : MipmapError} (h₁ : addMipmapBloomBins fails₁ fuel₁ db = some (r₁, some e))
    (h₂ : addMipmapBloomBins fails₂ fuel₂ r₁.db = some (r₂, none)) :
    r₂.db = { db with mipmaps := r₂.db.mipmaps, version := .uint mipmapVersion } ∧
      ∀ m, m ∈ r₂.db.mipmaps ↔ m ∈ (db.applyAll (bloomCalls db)).mipmaps := by
  obtain ⟨hv, L, hr₁, hL⟩ := addMipmapBloomBins_failed h₁
  obtain ⟨M, hM⟩ := exists_applyAll_bloomCalls db
  have hT : (db.applyAll (bloomCalls db)).mipmaps = db.mipmaps ++ M :=
    congrArg Db.mipmaps (hM db.mipmaps)
  have hr₂ : r₂.db = { db with mipmaps := db.mipmaps ++ L ++ M, version := .uint mipmapVersion } := by
    rw [hr₁, addMipmapBloomBins, if_neg hv] at h₂
    obtain ⟨⟨r₀, e₀⟩, hbody, hdef⟩ := Option.map_eq_some'.1 h₂
    cases e₀ with
    | some _ => simp at hdef
    | none =>
      rcases writeAll_eq fails₂ r₀ [.putVersion mipmapVersion] with hw | ⟨pre, op, post, -, -, hw⟩
      · simp only [hw] at hdef
        rw [← (Prod.mk.inj hdef).1, mipmapBody_done fails₂ hbody]
        show ({ db with mipmaps := db.mipmaps ++ L }.applyAll (bloomCalls db)).apply
          (.putVersion mipmapVersion) = _
        rw [hM]
        rfl
      · simp [hw] at hdef
  refine ⟨by rw [hr₂], fun m => ?_⟩
  have hL' : ∀ m ∈ L, m ∈ db.mipmaps ∨ m ∈ M := fun m hm => List.mem_append.1 (hT ▸ hL m hm)
  rw [hr₂, hT]
  simp only [List.mem_append]
  constructor
  · rintro ((h | h) | h)
    · exact .inl h
    · exact hL' m h
    · exact .inr h
  · exact fun h => h.imp_left .inl

theorem chainDb_retry_bins :
    ∃ r₁ r₂ e, addMipmapBloomBins (· == 1) 3 chainDb = some (r₁, some e) ∧
      addMipmapBloomBins noFaults 3 r₁.db = some (r₂, none) ∧
      (r₂.db = { chainDb with mipmaps := r₂.db.mipmaps, version := .uint mipmapVersion } ∧
        ∀ m, m ∈ r₂.db.mipmaps ↔ m ∈ (chainDb.applyAll (bloomCalls chainDb)).mipmaps) :=
  ⟨_, _, _, rfl, rfl, @mipmap_retry_bins (· == 1) noFaults 3 3 chainDb _ _ _ rfl rfl⟩

end Retry

end Ethcore.ChainDb
