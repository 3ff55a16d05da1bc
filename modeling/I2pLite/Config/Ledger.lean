import I2pLite.Core.Blocks
import I2pLite.Config.Lines

/-!
# The storage of the configuration

`mnet_config_load` and `mnet_config_free` with the blocks that they allocate and
free: a configuration, its entries, and their strings.  Without the blocks they
are the functions of the configuration file.
-/

namespace I2pLite.ConfigLedger

open I2pLite.CRun
open I2pLite.CBytes
open I2pLite.Stdio
open I2pLite.Blocks
open I2pLite.Config (MnetConfigEntry LineRead readLine)

/-- `struct mnet_config_entry`, its block and those of its strings. -/
structure HeapEntry where
  block : ℕ
  nameBlock : ℕ
  valueBlock : ℕ
  entry : MnetConfigEntry

/-- `struct mnet_config` and its block. -/
structure HeapConfig where
  block : ℕ
  list : List HeapEntry
  size : ℕ

def mnetConfigAlloc (heap : Heap) : HeapConfig × Heap :=
  let (block, heap) := alloc heap
  ({ block := block, list := [], size := 0 }, heap)

def mnetConfigAppendEntry (cfg : HeapConfig) (name value : CString) (heap : Heap) :
    HeapConfig × Heap :=
  let (block, heap) := alloc heap
  let (nameBlock, heap) := alloc heap
  let (valueBlock, heap) := alloc heap
  let entry : HeapEntry :=
    { block := block, nameBlock := nameBlock, valueBlock := valueBlock
      entry := { name := name, value := value } }
  ({ cfg with list := entry :: cfg.list, size := cfg.size + 1 }, heap)

/-- The loop of `mnet_config_load`. -/
def loadLoop : ℕ → InFile → HeapConfig → Heap → Run (ℤ × HeapConfig × Heap)
  | 0, _, _, _ => .error .outOfFuel
  | fuel + 1, f, cfg, heap =>
      match fgets 1024 f with
      | (none, _) => .ok (1, cfg, heap)
      | (some line, f') =>
          match readLine line with
          | .skipped => loadLoop fuel f' cfg heap
          | .bad =>
              -- `k` has been duplicated before the equals sign is looked for
              let (_, heap) := alloc heap
              .ok (0, cfg, heap)
          | .entry k v => do
              let (kBlock, heap) := alloc heap
              let (vBlock, heap) := alloc heap
              let (cfg, heap) := mnetConfigAppendEntry cfg k v heap
              let heap ← free kBlock heap
              let heap ← free vBlock heap
              loadLoop fuel f' cfg heap

def mnetConfigLoad (file : Option InFile) (heap : Heap) : Run (ℤ × HeapConfig × Heap) :=
  let (cfg, heap) := mnetConfigAlloc heap
  match file with
  | none => .ok (0, cfg, heap)
  | some f => loadLoop (f.length + 1) f cfg heap

def mnetConfigFree (cfg : HeapConfig) (heap : Heap) : Run Heap := do
  let heap ← cfg.list.foldlM (fun heap entry => do
    let heap ← free entry.nameBlock heap
    let heap ← free entry.valueBlock heap
    free entry.block heap) heap
  free cfg.block heap

/-! ## The blocks of a configuration -/

section Blocks

variable {before heap : Heap} {cfg : HeapConfig} {name value : CString} {lost : List ℕ}

def HeapEntry.blocks (entry : HeapEntry) : List ℕ :=
  [entry.nameBlock, entry.valueBlock, entry.block]

def HeapConfig.blocks (cfg : HeapConfig) : List ℕ :=
  cfg.list.flatMap HeapEntry.blocks ++ [cfg.block]

/-- The configuration without its blocks. -/
def HeapConfig.erase (cfg : HeapConfig) : Config.MnetConfig where
  list := cfg.list.map HeapEntry.entry
  size := cfg.size

theorem freeAll_entry (entry : HeapEntry) (heap : Heap) :
    freeAll entry.blocks heap = (do
      let heap ← free entry.nameBlock heap
      let heap ← free entry.valueBlock heap
      free entry.block heap) := by
  rw [HeapEntry.blocks, freeAll_cons]
  apply congrArg
  funext heap
  rw [freeAll_cons, freeAll_singleton]

/-- The blocks of a configuration are freed entry by entry, its own at last. -/
theorem mnetConfigFree_eq (cfg : HeapConfig) (heap : Heap) :
    mnetConfigFree cfg heap = freeAll cfg.blocks heap := by
  have hentries : ∀ entries : List HeapEntry, ∀ heap,
      entries.foldlM (fun heap entry => do
        let heap ← free entry.nameBlock heap
        let heap ← free entry.valueBlock heap
        free entry.block heap) heap = freeAll (entries.flatMap HeapEntry.blocks) heap := by
    intro entries
    induction entries with
    | nil => exact fun _ => rfl
    | cons entry entries ih =>
        intro heap
        rw [List.foldlM_cons, List.flatMap_cons, freeAll_append, freeAll_entry]
        apply congrArg
        funext heap
        exact ih heap
  rw [mnetConfigFree, hentries, HeapConfig.blocks, freeAll_append, freeAll_singleton]

/-- What is freed first comes first. -/
theorem perm_appended (k v block name value : ℕ) (blocks : List ℕ) :
    (value :: name :: block :: v :: k :: blocks).Perm
      (k :: v :: name :: value :: block :: blocks) := by
  have hswap : ([block] ++ [name, value]).Perm ([name, value] ++ [block]) := List.perm_append_comm
  have hprefix : [value, name, block, v, k].Perm [k, v, name, value, block] :=
    (List.reverse_perm _).symm.trans ((hswap.cons v).cons k)
  exact hprefix.append_right blocks

/-- An entry is added, and the strings that it was made from are gone. -/
theorem exists_appended (hadds : Adds before cfg.blocks heap) (name value : CString) :
    ∃ cfg' heap' heap'' freed,
      mnetConfigAppendEntry cfg name value (alloc (alloc heap).2).2 = (cfg', heap') ∧
      free (alloc heap).1 heap' = .ok heap'' ∧
      free (alloc (alloc heap).2).1 heap'' = .ok freed ∧
      cfg'.erase = Config.mnetConfigAppendEntry cfg.erase name value ∧
      Adds before cfg'.blocks freed := by
  have hall := hadds.alloc.alloc.alloc.alloc.alloc.perm (perm_appended _ _ _ _ _ _)
  obtain ⟨heap'', hname, hadds'⟩ := hall.free
  obtain ⟨freed, hvalue, hadds''⟩ := hadds'.free
  exact ⟨_, _, heap'', freed, rfl, hname, hvalue, rfl, hadds''⟩

end Blocks

/-! ## Loads -/

section Load

variable {before heap : Heap} {cfg : HeapConfig} {ret : ℤ} {plain : Config.MnetConfig}
variable {f : InFile} {fuel : ℕ}

/-- The loop keeps to the blocks of its configuration, but for the name on the
line that it stops at. -/
theorem loadLoop_adds (hadds : Adds before cfg.blocks heap)
    (hplain : Config.loadLoop fuel f cfg.erase = .ok (ret, plain)) :
    ∃ cfg' heap' lost, loadLoop fuel f cfg heap = .ok (ret, cfg', heap') ∧ cfg'.erase = plain ∧
      Adds before (cfg'.blocks ++ lost) heap' ∧ lost.length = if ret = 0 then 1 else 0 := by
  induction fuel generalizing f cfg heap with
  | zero => cases hplain
  | succ fuel ih =>
      rw [Config.loadLoop] at hplain
      rw [loadLoop]
      rcases hline : fgets 1024 f with ⟨_ | line, f'⟩
      · rw [hline] at hplain
        obtain ⟨rfl, rfl⟩ := ok_pair_inj hplain
        exact ⟨cfg, heap, [], rfl, rfl, by rwa [List.append_nil], rfl⟩
      · rw [hline] at hplain
        dsimp only at hplain ⊢
        cases hread : readLine line with
        | skipped =>
            rw [hread] at hplain
            exact ih hadds hplain
        | bad =>
            rw [hread] at hplain
            obtain ⟨rfl, rfl⟩ := ok_pair_inj hplain
            exact ⟨cfg, _, [_], rfl, rfl, hadds.alloc.perm (List.perm_append_singleton _ _).symm,
              rfl⟩
        | entry k v =>
            rw [hread] at hplain
            obtain ⟨cfg', heap', heap'', freed, happend, hname, hvalue, herase, hadds'⟩ :=
              exists_appended hadds k v
            dsimp only at hplain ⊢
            rw [← herase] at hplain
            rw [happend, hname, ok_bind, hvalue, ok_bind]
            exact ih hadds' hplain

/-- What a load has allocated is freed, each block once; only the name on the
line that the load gives up at is lost. -/
theorem mnetConfigLoad_free (file : Option InFile) (heap : Heap) :
    ∃ ret cfg heap' heap'' lost, mnetConfigLoad file heap = .ok (ret, cfg, heap') ∧
      Config.mnetConfigLoad file = .ok (ret, cfg.erase) ∧
      mnetConfigFree cfg heap' = .ok heap'' ∧ Adds heap lost heap'' ∧
      lost.length = if file.isSome ∧ ret = 0 then 1 else 0 := by
  have halloc : Adds heap (mnetConfigAlloc heap).1.blocks (mnetConfigAlloc heap).2 :=
    (Adds.refl heap).alloc
  cases file with
  | none =>
      obtain ⟨heap'', hfree, hadds⟩ := (halloc.perm (by rw [List.append_nil])).freeAll
      rw [← mnetConfigFree_eq] at hfree
      exact ⟨0, _, _, heap'', [], rfl, rfl, hfree, hadds, rfl⟩
  | some f =>
      have hplain := ConfigLines.mnetConfigLoad_eq f
      obtain ⟨cfg, heap', lost, hload, herase, hadds, hlost⟩ := loadLoop_adds halloc hplain
      obtain ⟨heap'', hfree, hadds'⟩ := hadds.freeAll
      rw [← mnetConfigFree_eq] at hfree
      refine ⟨_, cfg, heap', heap'', lost, hload, ?_, hfree, hadds', ?_⟩
      · rw [hplain, herase]
        rfl
      · simpa using hlost

end Load

end I2pLite.ConfigLedger
