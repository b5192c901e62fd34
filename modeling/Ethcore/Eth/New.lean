import Ethcore.ChainDb.Upgrade
import Ethcore.ChainDb.Mipmap

/-!
# `New`: the chain database at start-up

`New` (lines 537-683) opens `chaindata`, runs `upgradeChainDatabase` and then
`addMipmapBloomBins` on it, logs the chain id, writes the configured genesis block, checks the
blockchain version, makes sure a genesis block is stored, and only then opens the chain. Each
stage returns its error, with what the stages before it wrote left on the database, goes on, or
panics (`none`):

* `ChainStore`, `Dbs`, `Config`, `Services` : the databases `New` writes, what it reads of its
  configuration, and what its collaborators outside this repository answer;
* `openDapp`, `writeConfigGenesis`, `injectTest`, `checkVersion`, `afterVersionCheck`,
  `newTail`, `newEthereum` : the code, one stage per block of it;
* `newTail_isSome` : past the upgrades, `New` returns unless line 555 panics;
* `newEthereum_ne_noChain` : the error of `ErrNoGenesis` is never returned;
* `newEthereum_version` : `New` gets past the version check, after both upgrades, only with a
  version that is unset or the configured one;
* `newEthereum_blooms_old_database`, `newEthereum_keeps_blooms` : the bloom bins at a first start
  and at every later one.
-/

namespace Ethcore.Eth

open Ethcore.ChainDb

/-- The chain database and its `BlockchainVersion`, `0` when unset. -/
structure ChainStore where
  db : Db
  blockChainVersion : Nat

def writeBlockAt (db : Db) (b : OldBlock) (number : Nat) : Db :=
  { db.applyAll (writeParts b) with
    canonical := Function.update db.canonical number (some b.hash)
    lastBlock := some b.hash }

def writeGenesisBlock (g : OldBlock) (c : ChainStore) : ChainStore :=
  { c with db := writeBlockAt c.db g 0 }

/-- What `New` reads of its `Config`; `hasChainConfig` is `config.ChainConfig != nil`. -/
structure Config where
  genesis : Option OldBlock
  testGenesisState : Option ChainStore
  testGenesisBlock : Option OldBlock
  blockChainVersion : Nat
  skipBcVersionCheck : Bool
  useAddrTxIndex : Bool
  hasChainConfig : Bool

/-- What the collaborators of `New` outside this repository answer; `chainIdNilSafe` says
`GetChainID` returns on a nil `ChainConfig`. -/
structure Services where
  openChaindata : Bool
  openDapp : Bool
  openIndexes : Bool
  chainIdNilSafe : Bool
  writesGenesis : OldBlock → Bool
  writesBlockChainVersion : Bool
  blockChainError : Option String
  protocolManagerError : Option String
  mainnet : OldBlock

/-- An error `New` returns, by the line that returns it. -/
inductive NewError
  | openDatabase (name : String)
  | upgrade (e : UpgradeExit)
  | mipmap (e : MipmapError)
  /-- Line 568: writing `config.Genesis` failed. -/
  | writeGenesis
  /-- Line 635: writing mainnet's genesis block failed. -/
  | writeDefaultGenesis
  | versionMismatch (stored configured : Nat)
  | missingChainConfig
  /-- Line 662: `core.NewBlockChain` returned `ErrNoGenesis`. -/
  | noChain
  | blockChain (err : String)
  | protocolManager (err : String)
  deriving DecidableEq, Repr

def NewError.text : NewError → Option String
  | .versionMismatch stored configured =>
    some s!"Blockchain DB version mismatch ({stored} / {configured}). Run geth upgradedb.\n"
  | .missingChainConfig => some "missing chain config"
  | .noChain => some "No chain found. Please initialise a new chain using the \"init\" subcommand."
  | _ => none

def NewError.afterCheck : NewError → Bool
  | .openDatabase name => name == "indexes"
  | .writeDefaultGenesis | .missingChainConfig | .noChain | .blockChain _ | .protocolManager _ => true
  | _ => false

/-- The databases `New` writes: `chaindata`, and the test state injected in its place at line 574.
-/
structure Dbs where
  chaindata : ChainStore
  injected : Option ChainStore

namespace Dbs

def chainDb (d : Dbs) : ChainStore := d.injected.getD d.chaindata

def modify (d : Dbs) (f : ChainStore → ChainStore) : Dbs :=
  match d.injected with
  | some s => { d with injected := some (f s) }
  | none => { d with chaindata := f d.chaindata }

@[simp] theorem chainDb_modify (d : Dbs) (f : ChainStore → ChainStore) :
    (d.modify f).chainDb = f d.chainDb := by
  unfold modify chainDb; split <;> simp_all

end Dbs

def andThen (r : Dbs × Option NewError) (g : Dbs → Dbs × Option NewError) : Dbs × Option NewError :=
  match r with
  | (d, some e) => (d, some e)
  | (d, none) => g d

/-! ## The stages -/

/-- Lines 550-562: open `dapp`, then log `config.ChainConfig.GetChainID()`. -/
def openDapp (svc : Services) (config : Config) (d : Dbs) : Option (Dbs × Option NewError) :=
  if svc.openDapp then
    if config.hasChainConfig || svc.chainIdNilSafe then some (d, none) else none
  else some (d, some (.openDatabase "dapp"))

/-- Lines 564-570. -/
def writeConfigGenesis (svc : Services) (config : Config) (d : Dbs) : Dbs × Option NewError :=
  match config.genesis with
  | none => (d, none)
  | some g => if svc.writesGenesis g then (d.modify (writeGenesisBlock g), none) else (d, some .writeGenesis)

/-- Lines 572-581: the injected test state, then the test genesis block written into `chainDb`. -/
def injectTest (config : Config) (d : Dbs) : Dbs :=
  let d := match config.testGenesisState with
    | some s => { d with injected := some s }
    | none => d
  match config.testGenesisBlock with
  | some b => d.modify fun c => { c with db := writeBlockAt c.db b b.header.number }
  | none => d

/-- Lines 583-589. -/
def checkVersion (svc : Services) (config : Config) (d : Dbs) : Dbs × Option NewError :=
  if config.skipBcVersionCheck then (d, none)
  else
    let bcVersion := d.chainDb.blockChainVersion
    if bcVersion ≠ config.blockChainVersion ∧ bcVersion ≠ 0 then
      (d, some (.versionMismatch bcVersion config.blockChainVersion))
    else if svc.writesBlockChainVersion then
      (d.modify fun c => { c with blockChainVersion := config.blockChainVersion }, none)
    else (d, none)

/-- Lines 612-627: open `indexes` when the address-transaction index is on. -/
def openIndexes (svc : Services) (config : Config) (d : Dbs) : Dbs × Option NewError :=
  if config.useAddrTxIndex ∧ svc.openIndexes = false then (d, some (.openDatabase "indexes"))
  else (d, none)

/-- Lines 629-639. -/
def loadGenesis (svc : Services) (d : Dbs) : Dbs × Option NewError :=
  match d.chainDb.db.getBlock (d.chainDb.db.getCanonicalHash 0) with
  | some _ => (d, none)
  | none =>
    if svc.writesGenesis svc.mainnet then (d.modify (writeGenesisBlock svc.mainnet), none)
    else (d, some .writeDefaultGenesis)

/-- Lines 653-680; `core.NewBlockChain` fails with `ErrNoGenesis` when no block is at number `0`. -/
def openChain (svc : Services) (config : Config) (d : Dbs) : Dbs × Option NewError :=
  if config.hasChainConfig then
    match d.chainDb.db.getBlock (d.chainDb.db.getCanonicalHash 0) with
    | none => (d, some .noChain)
    | some _ =>
      match svc.blockChainError, svc.protocolManagerError with
      | some err, _ => (d, some (.blockChain err))
      | none, some err => (d, some (.protocolManager err))
      | none, none => (d, none)
  else (d, some .missingChainConfig)

/-- Lines 591-683. -/
def afterVersionCheck (svc : Services) (config : Config) (d : Dbs) : Dbs × Option NewError :=
  andThen (openIndexes svc config d) fun d =>
  andThen (loadGenesis svc d) (openChain svc config)

/-- Lines 550-683, after the upgrades. -/
def newTail (svc : Services) (config : Config) (d : Dbs) : Option (Dbs × Option NewError) :=
  (openDapp svc config d).map fun r =>
  andThen r fun d =>
  andThen (writeConfigGenesis svc config d) fun d =>
  andThen (checkVersion svc config (injectTest config d)) (afterVersionCheck svc config)

/-- `New(ctx, config)` (lines 537-683) on `chaindata`; `none` when it panics, or when the bloom loop
runs out of `fuel`. -/
def newEthereum (fails₁ fails₂ : Nat → Bool) (fuel : Nat) (svc : Services) (config : Config)
    (chaindata : ChainStore) : Option (Dbs × Option NewError) :=
  if svc.openChaindata then
    (upgradeChainDatabase fails₁ chaindata.db).bind fun (r, e) =>
    if e.returnsNil then
      (addMipmapBloomBins fails₂ fuel r.db).bind fun (r', err) =>
        let d : Dbs := ⟨{ chaindata with db := r'.db }, none⟩
        match err with
        | some e => some (d, some (.mipmap e))
        | none => newTail svc config d
    else some (⟨{ chaindata with db := r.db }, none⟩, some (.upgrade e))
  else some (⟨chaindata, none⟩, some (.openDatabase "chaindata"))

/-- Both upgrades of lines 543-548 return nil on `db`. -/
def Upgraded (fails₁ fails₂ : Nat → Bool) (fuel : Nat) (db : Db) : Prop :=
  ∃ r e r', upgradeChainDatabase fails₁ db = some (r, e) ∧ e.returnsNil = true ∧
    addMipmapBloomBins fails₂ fuel r.db = some (r', none)

/-! ## How the stages end -/

theorem andThen_eq {r : Dbs × Option NewError} {g : Dbs → Dbs × Option NewError} {d : Dbs}
    {e : Option NewError} (h : andThen r g = (d, e)) :
    (r = (d, e) ∧ e ≠ none) ∨ ∃ d', r = (d', none) ∧ g d' = (d, e) := by
  obtain ⟨d₀, _ | e₀⟩ := r
  · exact .inr ⟨d₀, rfl, h⟩
  · simp only [andThen, Prod.mk.injEq] at h
    obtain ⟨rfl, rfl⟩ := h
    exact .inl ⟨rfl, Option.some_ne_none _⟩

theorem newTail_eq {svc : Services} {config : Config} {d₀ d : Dbs} {err : Option NewError}
    (h : newTail svc config d₀ = some (d, err)) :
    (d = d₀ ∧ err = some (.openDatabase "dapp")) ∨
      andThen (writeConfigGenesis svc config d₀) (fun d =>
        andThen (checkVersion svc config (injectTest config d)) (afterVersionCheck svc config)) =
        (d, err) := by
  unfold newTail openDapp at h
  split_ifs at h
  · exact .inr (Option.some.inj h)
  · cases h
  · cases h
    exact .inl ⟨rfl, rfl⟩

theorem newTail_isSome (svc : Services) {config : Config} (d : Dbs)
    (hcid : config.hasChainConfig = true ∨ svc.chainIdNilSafe = true) :
    (newTail svc config d).isSome := by
  unfold newTail openDapp
  split_ifs with h₁ h₂ <;> simp_all

theorem newEthereum_eq {fails₁ fails₂ : Nat → Bool} {fuel : Nat} {svc : Services} {config : Config}
    {chaindata : ChainStore} {d : Dbs} {err : Option NewError}
    (h : newEthereum fails₁ fails₂ fuel svc config chaindata = some (d, err)) :
    (∃ e, err = some e ∧ e.afterCheck = false ∧ ∀ s c, e ≠ .versionMismatch s c) ∨
      ∃ db, Upgraded fails₁ fails₂ fuel chaindata.db ∧
        newTail svc config ⟨{ chaindata with db }, none⟩ = some (d, err) := by
  unfold newEthereum at h
  split_ifs at h
  · obtain ⟨⟨r, e⟩, hup, h⟩ := Option.bind_eq_some.1 h
    dsimp only at h
    split_ifs at h with hnil
    · obtain ⟨⟨r', e'⟩, hmip, h⟩ := Option.bind_eq_some.1 h
      cases e' with
      | some e' => cases h; exact .inl ⟨_, rfl, rfl, nofun⟩
      | none => exact .inr ⟨_, ⟨r, e, r', hup, hnil, hmip⟩, h⟩
    · cases h; exact .inl ⟨_, rfl, rfl, nofun⟩
  · cases h; exact .inl ⟨_, rfl, rfl, nofun⟩

theorem getBlock_writeBlockAt (db : Db) (b : OldBlock) (number : Nat) :
    (writeBlockAt db b number).getBlock ((writeBlockAt db b number).getCanonicalHash number) =
      some b.header := by
  simp [writeBlockAt, Db.getBlock, Db.getCanonicalHash, writeParts, Db.apply, OldBlock.hash]

theorem writeConfigGenesis_eq (svc : Services) (config : Config) (d : Dbs) :
    ((writeConfigGenesis svc config d).1 = d ∨
        ∃ g, (writeConfigGenesis svc config d).1 = d.modify (writeGenesisBlock g)) ∧
      ((writeConfigGenesis svc config d).2 = none ∨
        (writeConfigGenesis svc config d).2 = some .writeGenesis) := by
  unfold writeConfigGenesis
  split
  · exact ⟨.inl rfl, .inl rfl⟩
  · split_ifs
    · exact ⟨.inr ⟨_, rfl⟩, .inl rfl⟩
    · exact ⟨.inl rfl, .inr rfl⟩

theorem injectTest_blockChainVersion (config : Config) (d : Dbs) :
    (injectTest config d).chainDb.blockChainVersion =
      (config.testGenesisState.getD d.chainDb).blockChainVersion := by
  unfold injectTest
  split <;> split <;> simp only [Dbs.chainDb_modify] <;> simp_all [Dbs.chainDb]

theorem checkVersion_error {svc : Services} {config : Config} {d d' : Dbs} {e : NewError}
    (h : checkVersion svc config d = (d', some e)) :
    d' = d ∧ config.skipBcVersionCheck = false ∧ d.chainDb.blockChainVersion ≠ 0 ∧
      d.chainDb.blockChainVersion ≠ config.blockChainVersion ∧
      e = .versionMismatch d.chainDb.blockChainVersion config.blockChainVersion := by
  unfold checkVersion at h
  dsimp only at h
  split_ifs at h with hs hv
  · cases h
  · simp only [Prod.mk.injEq, Option.some.injEq] at h
    exact ⟨h.1.symm, by simpa using hs, hv.2, hv.1, h.2.symm⟩
  all_goals simp at h

theorem checkVersion_ok {svc : Services} {config : Config} {d d' : Dbs}
    (h : checkVersion svc config d = (d', none)) (hs : config.skipBcVersionCheck = false) :
    d'.chainDb.blockChainVersion = config.blockChainVersion ∨
      d'.chainDb.blockChainVersion = 0 ∧ svc.writesBlockChainVersion = false := by
  unfold checkVersion at h
  simp only [hs, Bool.false_eq_true, if_false] at h
  split_ifs at h with hv hw
  · simp only [Prod.mk.injEq, Option.some_ne_none, and_false] at h
  · rw [← (Prod.mk.inj h).1, Dbs.chainDb_modify]
    exact .inl rfl
  · rw [← (Prod.mk.inj h).1]
    by_cases h0 : d.chainDb.blockChainVersion = 0
    · exact .inr ⟨h0, by simpa using hw⟩
    · exact .inl (not_not.1 fun hne => hv ⟨hne, h0⟩)

theorem openIndexes_eq (svc : Services) (config : Config) (d : Dbs) :
    (openIndexes svc config d).1 = d ∧
      ((openIndexes svc config d).2 = none ∨
        (openIndexes svc config d).2 = some (.openDatabase "indexes")) := by
  unfold openIndexes
  split_ifs <;> simp

theorem loadGenesis_eq (svc : Services) (d : Dbs) :
    ((loadGenesis svc d).1 = d ∨ (loadGenesis svc d).1 = d.modify (writeGenesisBlock svc.mainnet)) ∧
      ((loadGenesis svc d).2 = none ∨ (loadGenesis svc d).2 = some .writeDefaultGenesis) ∧
      ((loadGenesis svc d).2 = none →
        ((loadGenesis svc d).1.chainDb.db.getBlock
          ((loadGenesis svc d).1.chainDb.db.getCanonicalHash 0)).isSome) := by
  unfold loadGenesis
  split
  · rename_i hb
    exact ⟨.inl rfl, .inl rfl, fun _ => by simp [hb]⟩
  · split_ifs
    · exact ⟨.inr rfl, .inl rfl, fun _ => by simp [writeGenesisBlock, getBlock_writeBlockAt]⟩
    · exact ⟨.inl rfl, .inr rfl, fun h => by simp at h⟩

theorem openChain_eq (svc : Services) (config : Config) (d : Dbs) :
    (openChain svc config d).1 = d ∧
      (openChain svc config d).2.all NewError.afterCheck = true ∧
      ((openChain svc config d).2 = some .noChain →
        d.chainDb.db.getBlock (d.chainDb.db.getCanonicalHash 0) = none) := by
  unfold openChain
  split_ifs
  · split
    · rename_i hb
      exact ⟨rfl, rfl, fun _ => hb⟩
    · split <;> simp [NewError.afterCheck]
  · simp [NewError.afterCheck]

theorem afterVersionCheck_eq (svc : Services) (config : Config) {d d' : Dbs}
    {err : Option NewError} (h : afterVersionCheck svc config d = (d', err)) :
    (d' = d ∨ d' = d.modify (writeGenesisBlock svc.mainnet)) ∧
      err.all NewError.afterCheck = true ∧ err ≠ some .noChain := by
  obtain ⟨hi₁, hi₂⟩ := openIndexes_eq svc config d
  rcases andThen_eq h with ⟨h₁, -⟩ | ⟨d₁, h₁, h₂⟩
  · rw [h₁] at hi₁ hi₂
    obtain rfl := hi₁
    rcases hi₂ with rfl | rfl
    · exact ⟨.inl rfl, rfl, nofun⟩
    · exact ⟨.inl rfl, rfl, by simp⟩
  rw [h₁] at hi₁
  obtain rfl := hi₁
  obtain ⟨hg₁, hg₂, hg₃⟩ := loadGenesis_eq svc d₁
  rcases andThen_eq h₂ with ⟨h₃, -⟩ | ⟨d₂, h₃, h₄⟩
  · rw [h₃] at hg₁ hg₂
    rcases hg₂ with rfl | rfl
    · exact ⟨hg₁, rfl, nofun⟩
    · exact ⟨hg₁, rfl, by simp⟩
  rw [h₃] at hg₁ hg₃
  obtain ⟨hc₁, hc₂, hc₃⟩ := openChain_eq svc config d₂
  rw [h₄] at hc₁ hc₂ hc₃
  obtain rfl : d' = d₂ := hc₁
  refine ⟨hg₁, hc₂, fun hn => ?_⟩
  simp [hc₃ hn] at hg₃

/-! ## What `New` never returns, and the version it accepts -/

theorem newTail_ne_noChain (svc : Services) (config : Config) (d₀ d : Dbs) :
    newTail svc config d₀ ≠ some (d, some .noChain) := by
  intro h
  rcases newTail_eq h with ⟨-, h⟩ | h
  · cases h
  rcases andThen_eq h with ⟨h₁, -⟩ | ⟨d₁, -, h₁⟩
  · simpa [h₁] using (writeConfigGenesis_eq svc config d₀).2
  rcases andThen_eq h₁ with ⟨h₂, -⟩ | ⟨d₂, -, h₂⟩
  · simpa using (checkVersion_error h₂).2.2.2.2
  exact (afterVersionCheck_eq svc config h₂).2.2 rfl

/-- `New` never returns the "No chain found" error of line 662. -/
theorem newEthereum_ne_noChain (fails₁ fails₂ : Nat → Bool) (fuel : Nat) (svc : Services)
    (config : Config) (chaindata : ChainStore) (d : Dbs) :
    newEthereum fails₁ fails₂ fuel svc config chaindata ≠ some (d, some .noChain) := by
  intro h
  rcases newEthereum_eq h with ⟨e, he, ha, -⟩ | ⟨db, -, h⟩
  · cases Option.some.inj he
    cases ha
  · exact newTail_ne_noChain svc config _ d h

theorem newTail_version {svc : Services} {config : Config} {c : ChainStore} {d : Dbs}
    {err : Option NewError} (h : newTail svc config ⟨c, none⟩ = some (d, err))
    (hcheck : config.skipBcVersionCheck = false) :
    (err.all NewError.afterCheck = true →
      d.chainDb.blockChainVersion = config.blockChainVersion ∨
        d.chainDb.blockChainVersion = 0 ∧ svc.writesBlockChainVersion = false) ∧
      ∀ stored configured, err = some (.versionMismatch stored configured) →
        stored = d.chainDb.blockChainVersion ∧
          stored = (config.testGenesisState.getD c).blockChainVersion ∧ stored ≠ 0 ∧
          stored ≠ configured ∧ configured = config.blockChainVersion := by
  rcases newTail_eq h with ⟨-, rfl⟩ | h
  · exact ⟨fun ha => absurd ha (by decide), fun _ _ hc => by cases hc⟩
  obtain ⟨hw₁, hw₂⟩ := writeConfigGenesis_eq svc config ⟨c, none⟩
  rcases andThen_eq h with ⟨h₁, hne⟩ | ⟨d₁, h₁, h₂⟩
  · rw [h₁] at hw₂
    obtain rfl := hw₂.resolve_left hne
    exact ⟨fun ha => absurd ha (by decide), fun _ _ hc => by cases hc⟩
  have hv₁ : d₁.chainDb.blockChainVersion = c.blockChainVersion := by
    rw [h₁] at hw₁
    rcases hw₁ with rfl | ⟨g, rfl⟩ <;> simp [Dbs.chainDb, Dbs.modify, writeGenesisBlock]
  rcases andThen_eq h₂ with ⟨h₃, hne⟩ | ⟨d₂, h₃, h₄⟩
  · obtain ⟨e, rfl⟩ := Option.ne_none_iff_exists'.1 hne
    obtain ⟨rfl, -, h0, hdiff, rfl⟩ := checkVersion_error h₃
    refine ⟨fun ha => absurd ha (by simp [NewError.afterCheck]), fun s c' hc => ?_⟩
    cases hc
    refine ⟨rfl, ?_, h0, hdiff, rfl⟩
    rw [injectTest_blockChainVersion]
    cases config.testGenesisState <;> simp [hv₁]
  · obtain ⟨hd, ha, -⟩ := afterVersionCheck_eq svc config h₄
    refine ⟨fun _ => ?_, fun s c' hc => by simp [hc, NewError.afterCheck] at ha⟩
    have hv := checkVersion_ok h₃ hcheck
    rcases hd with rfl | rfl
    · exact hv
    · simpa [writeGenesisBlock] using hv

/-- With the version check on, `New` gets past it, or fails it, only after both upgrades returned
nil; past it, the configured version is recorded unless the write of line 588 fails. -/
theorem newEthereum_version {fails₁ fails₂ : Nat → Bool} {fuel : Nat} {svc : Services}
    {config : Config} {chaindata : ChainStore} {d : Dbs} {err : Option NewError}
    (h : newEthereum fails₁ fails₂ fuel svc config chaindata = some (d, err))
    (hcheck : config.skipBcVersionCheck = false) :
    (err.all NewError.afterCheck = true → Upgraded fails₁ fails₂ fuel chaindata.db ∧
      (d.chainDb.blockChainVersion = config.blockChainVersion ∨
        d.chainDb.blockChainVersion = 0 ∧ svc.writesBlockChainVersion = false)) ∧
      ∀ stored configured, err = some (.versionMismatch stored configured) →
        Upgraded fails₁ fails₂ fuel chaindata.db ∧ stored = d.chainDb.blockChainVersion ∧
          stored = (config.testGenesisState.getD chaindata).blockChainVersion ∧ stored ≠ 0 ∧
          stored ≠ configured ∧ configured = config.blockChainVersion := by
  rcases newEthereum_eq h with ⟨e, rfl, he, hne⟩ | ⟨db, hup, h⟩
  · exact ⟨fun ha => by simp [he] at ha, fun s c hc => absurd (Option.some.inj hc) (hne s c)⟩
  obtain ⟨hv, hm⟩ := newTail_version h hcheck
  refine ⟨fun ha => ⟨hup, hv ha⟩, fun s c hc => ?_⟩
  obtain ⟨h₁, h₂, h₃⟩ := hm s c hc
  refine ⟨hup, h₁, ?_, h₃⟩
  rw [h₂]
  cases config.testGenesisState <;> rfl

/-- A LevelDB in the old format: blocks `5` and `6`, numbers `0` and `1`, stored whole; `6` the
head. -/
def legacyDb : Db where
  leveldb := true
  lastBlock := some 6
  old := [(5, some ⟨⟨5, 0⟩, 1, 2⟩), (6, some ⟨⟨6, 1⟩, 3, 4⟩)]
  old_nodup := by decide
  td := fun _ => none
  body := fun _ => none
  header := fun _ => none
  canonical := fun n => if n = 0 then some 5 else if n = 1 then some 6 else none
  receipts := fun h => h + 100
  mipmaps := []
  version := .empty

def allOk : Services := ⟨true, true, true, true, fun _ => true, true, none, none, ⟨⟨9, 0⟩, 0, 0⟩⟩

def versionThree : Config := ⟨none, none, none, 3, false, false, true⟩

theorem legacy_version_rejected :
    ∃ d, newEthereum noFaults noFaults 3 allOk versionThree ⟨legacyDb, 2⟩ =
        some (d, some (.versionMismatch 2 3)) ∧
      Upgraded noFaults noFaults 3 legacyDb ∧ 2 = d.chainDb.blockChainVersion ∧
      2 = (versionThree.testGenesisState.getD ⟨legacyDb, 2⟩).blockChainVersion ∧ 2 ≠ 0 ∧ 2 ≠ 3 ∧
      3 = versionThree.blockChainVersion :=
  have ⟨d, h⟩ : ∃ d, newEthereum noFaults noFaults 3 allOk versionThree ⟨legacyDb, 2⟩ =
      some (d, some (.versionMismatch 2 3)) := ⟨_, rfl⟩
  ⟨d, h, (newEthereum_version h rfl).2 2 3 rfl⟩

/-! ## The bloom bins at start-up -/

def Keeps (d d' : Dbs) : Prop :=
  d'.chaindata.db.mipmaps = d.chaindata.db.mipmaps ∧ d'.chaindata.db.version = d.chaindata.db.version

theorem Keeps.refl (d : Dbs) : Keeps d d := ⟨rfl, rfl⟩

theorem Keeps.trans {d₁ d₂ d₃ : Dbs} (h₁ : Keeps d₁ d₂) (h₂ : Keeps d₂ d₃) : Keeps d₁ d₃ :=
  ⟨h₂.1.trans h₁.1, h₂.2.trans h₁.2⟩

theorem keeps_modify (d : Dbs) {f : ChainStore → ChainStore}
    (hf : ∀ c, (f c).db.mipmaps = c.db.mipmaps ∧ (f c).db.version = c.db.version) :
    Keeps d (d.modify f) := by
  unfold Dbs.modify
  split
  · exact Keeps.refl _
  · exact hf _

theorem keeps_andThen {d : Dbs} {r : Dbs × Option NewError} {g : Dbs → Dbs × Option NewError}
    (hr : Keeps d r.1) (hg : ∀ d', Keeps d' (g d').1) : Keeps d (andThen r g).1 := by
  obtain ⟨d₀, _ | e⟩ := r
  · exact hr.trans (hg d₀)
  · exact hr

theorem writeBlockAt_mipmaps_version (db : Db) (b : OldBlock) (number : Nat) :
    (writeBlockAt db b number).mipmaps = db.mipmaps ∧ (writeBlockAt db b number).version = db.version := by
  simp [writeBlockAt, writeParts, Db.apply]

theorem keeps_writeGenesisBlock (d : Dbs) (g : OldBlock) : Keeps d (d.modify (writeGenesisBlock g)) :=
  keeps_modify _ fun c => writeBlockAt_mipmaps_version c.db g 0

theorem injectTest_keeps (config : Config) (d : Dbs) : Keeps d (injectTest config d) := by
  unfold injectTest
  split <;> split
  all_goals first
    | exact Keeps.refl _
    | exact keeps_modify _ fun c => writeBlockAt_mipmaps_version c.db _ _

theorem checkVersion_keeps (svc : Services) (config : Config) (d : Dbs) :
    Keeps d (checkVersion svc config d).1 := by
  unfold checkVersion
  dsimp only
  split_ifs
  · exact Keeps.refl _
  · exact Keeps.refl _
  · exact keeps_modify _ fun _ => ⟨rfl, rfl⟩
  · exact Keeps.refl _

theorem newTail_keeps {svc : Services} {config : Config} {d d' : Dbs} {err : Option NewError}
    (h : newTail svc config d = some (d', err)) : Keeps d d' := by
  rcases newTail_eq h with ⟨rfl, -⟩ | h
  · exact Keeps.refl _
  have hk : Keeps d (andThen (writeConfigGenesis svc config d) fun d =>
      andThen (checkVersion svc config (injectTest config d)) (afterVersionCheck svc config)).1 := by
    refine keeps_andThen ?_ fun d₁ =>
      keeps_andThen ((injectTest_keeps config d₁).trans (checkVersion_keeps svc config _)) fun d₂ => ?_
    · rcases (writeConfigGenesis_eq svc config d).1 with h | ⟨g, h⟩ <;> rw [h]
      · exact Keeps.refl _
      · exact keeps_writeGenesisBlock _ _
    · rcases (afterVersionCheck_eq svc config (Prod.mk.eta (p := afterVersionCheck svc config d₂)).symm).1
        with h | h <;> rw [h]
      · exact Keeps.refl _
      · exact keeps_writeGenesisBlock _ _
  rwa [h] at hk

/-- On an old LevelDB with no failing write, `New` returns unless line 555 panics, and leaves the
mipmap version and one bloom merge per canonical block. -/
theorem newEthereum_blooms_old_database {fuel : Nat} {svc : Services} {config : Config}
    {chaindata : ChainStore} {head : Hash} {b : OldBlock} (hopen : svc.openChaindata = true)
    (hldb : chaindata.db.leveldb = true) (hl : chaindata.db.lastBlock = some head)
    (hb : chaindata.db.getBlockByHashOld head = some b) (hhash : b.hash = head)
    (hload : chaindata.db.LoadsAll head chaindata.db.keys)
    (hv : chaindata.db.version ≠ .uint mipmapVersion) (hn : b.header.number + 1 < UInt64.size)
    (hfuel : b.header.number + 1 < fuel)
    (hc : ∀ j ≤ b.header.number, chaindata.db.getCanonicalHash j ≠ 0) :
    ((config.hasChainConfig = true ∨ svc.chainIdNilSafe = true) →
        (newEthereum noFaults noFaults fuel svc config chaindata).isSome) ∧
      ∀ d err, newEthereum noFaults noFaults fuel svc config chaindata = some (d, err) →
        d.chaindata.db.version = .uint mipmapVersion ∧
        d.chaindata.db.mipmaps = chaindata.db.mipmaps ++
          (List.range (b.header.number + 1)).map fun j =>
            (j, chaindata.db.receipts (chaindata.db.getCanonicalHash j)) := by
  -- the upgrade returns nil, having left `Db.upgraded`, which `addMipmapBloomBins` completes
  obtain ⟨log, hup⟩ := upgradeChainDatabase_noFaults hl hb hldb hload
  obtain ⟨hUm, hUv, hUc, hUr⟩ := chaindata.db.upgraded_fields head
  have hUh : ∀ j, (chaindata.db.upgraded head).getCanonicalHash j =
      chaindata.db.getCanonicalHash j := fun j => by
    simp only [Db.getCanonicalHash, hUc]
  have hUb := chaindata.db.getBlock_upgraded head hl hb hhash
  have hadd := addMipmapBloomBins_noFaults hUb hn hfuel (fun j hj => by rw [hUh]; exact hc j hj)
    (hUv ▸ hv)
  obtain ⟨hm, hver⟩ := mipmaps_version_bloomCalls hUb (by omega)
  set U := chaindata.db.upgraded head
  -- `New` goes on from there, and no stage after writes the bins or the version
  set D : Dbs :=
    ⟨{ chaindata with db := U.applyAll (bloomCalls U ++ [.putVersion mipmapVersion]) }, none⟩
  have hnew : newEthereum noFaults noFaults fuel svc config chaindata = newTail svc config D := by
    simp only [newEthereum, hopen, if_true, hup, Option.some_bind, UpgradeExit.returnsNil, hadd]
  refine ⟨fun hcid => hnew ▸ newTail_isSome svc D hcid, fun d err h => ?_⟩
  obtain ⟨hkm, hkv⟩ := newTail_keeps (hnew ▸ h)
  refine ⟨hkv.trans hver, hkm.trans (hm.trans ?_)⟩
  rw [hUm]; simp only [hUh, hUr]

theorem legacy_start_blooms :
    ∃ d err, newEthereum noFaults noFaults 3 allOk versionThree ⟨legacyDb, 3⟩ = some (d, err) ∧
      d.chaindata.db.version = .uint mipmapVersion ∧
      d.chaindata.db.mipmaps = legacyDb.mipmaps ++
        (List.range (1 + 1)).map fun j => (j, legacyDb.receipts (legacyDb.getCanonicalHash j)) :=
  have ⟨d, err, h⟩ : ∃ d err,
      newEthereum noFaults noFaults 3 allOk versionThree ⟨legacyDb, 3⟩ = some (d, err) := ⟨_, _, rfl⟩
  ⟨d, err, h, (@newEthereum_blooms_old_database 3 allOk versionThree ⟨legacyDb, 3⟩ 6 ⟨⟨6, 1⟩, 3, 4⟩
    rfl rfl rfl rfl rfl (by decide) (by decide) (by decide) (by decide) (by decide)).2 d err h⟩

/-- Once the mipmap version is `2`, a start of `New` that returns writes no bloom bin and keeps the
version. -/
theorem newEthereum_keeps_blooms (fails₁ fails₂ : Nat → Bool) (fuel : Nat) (svc : Services)
    (config : Config) (chaindata : ChainStore) (hv : chaindata.db.version = .uint mipmapVersion) :
    ((∀ head, chaindata.db.lastBlock = some head → chaindata.db.LoadsAll head chaindata.db.keys) →
        (config.hasChainConfig = true ∨ svc.chainIdNilSafe = true) →
        (newEthereum fails₁ fails₂ fuel svc config chaindata).isSome) ∧
      ∀ d err, newEthereum fails₁ fails₂ fuel svc config chaindata = some (d, err) →
        d.chaindata.db.mipmaps = chaindata.db.mipmaps ∧
          d.chaindata.db.version = .uint mipmapVersion := by
  unfold newEthereum
  split_ifs with hopen
  · cases hup : upgradeChainDatabase fails₁ chaindata.db with
    | none =>
      refine ⟨fun hload _ => ?_, fun _ _ h => by cases h⟩
      simpa [hup] using upgradeChainDatabase_isSome fails₁ hload
    | some p =>
      obtain ⟨r, e⟩ := p
      obtain ⟨hm, hver⟩ := upgradeChainDatabase_mipmaps_version fails₁ chaindata.db hup
      simp only [Option.some_bind]
      split_ifs
      · rw [addMipmapBloomBins, if_pos (hver.trans hv), Option.some_bind]
        refine ⟨fun _ hcid => newTail_isSome svc _ hcid, fun d err h => ?_⟩
        obtain ⟨h₁, h₂⟩ := newTail_keeps h
        exact ⟨h₁.trans hm, h₂.trans (hver.trans hv)⟩
      · refine ⟨fun _ _ => rfl, fun d err h => ?_⟩
        cases h
        exact ⟨hm, hver.trans hv⟩
  · refine ⟨fun _ _ => rfl, fun d err h => ?_⟩
    cases h
    exact ⟨rfl, hv⟩

theorem legacy_restart_keeps_blooms :
    ∃ d err, newEthereum (fun _ => true) noFaults 0 allOk versionThree
        ⟨{ legacyDb with version := .uint mipmapVersion }, 0⟩ = some (d, err) ∧
      d.chaindata.db.mipmaps = [] ∧ d.chaindata.db.version = .uint mipmapVersion :=
  have ⟨d, err, h⟩ : ∃ d err, newEthereum (fun _ => true) noFaults 0 allOk versionThree
      ⟨{ legacyDb with version := .uint mipmapVersion }, 0⟩ = some (d, err) := ⟨_, _, rfl⟩
  ⟨d, err, h, (newEthereum_keeps_blooms _ _ _ _ _ _ rfl).2 d err h⟩

end Ethcore.Eth
