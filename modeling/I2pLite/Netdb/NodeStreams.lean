import I2pLite.Netdb.LoadAll
import I2pLite.RouterInfo.InfoStreams

/-!
# The netdb from files as they are read

`mnet_netdb_load_all` over `bencode_read_file` itself.  A router info that was
loaded has no identity to be hashed, and one that was not has no link to be
released, so the load stops at the first file that it opens.
-/

namespace I2pLite.NodeStreams

open I2pLite.CRun
open I2pLite.CBytes
open I2pLite.FileSystem
open I2pLite.BencodeObject
open I2pLite.Ri
open I2pLite.Hashmap
open I2pLite.Netdb
open I2pLite.VisitedFiles
open I2pLite.LoadAll
open I2pLite.InfoStreams

section Code

variable (fuel : ℕ) (digest : List Byte → IdentHash) (tree : Tree)
  (readdir : CString → List CString)

/-- Files as they are. -/
def streamCode : RouterInfoCode RouterInfo :=
  routerInfoCode (routerInfoLoad fuel routerInfoNew) digest

def netdbReadFile (filename : CString) (ctx : NetdbReadCtx RouterInfo) :
    Run (NetdbReadCtx RouterInfo) :=
  Netdb.netdbReadFile (streamCode fuel digest) tree filename ctx

/-- The returned count, and the context behind the walk. -/
def mnetNetdbLoadAll (db : MnetNetdb RouterInfo) : Run (ℕ × NetdbReadCtx RouterInfo) :=
  Netdb.mnetNetdbLoadAll (streamCode fuel digest) tree readdir db

/-- A file is read as it is by a reader that loads the same router info. -/
theorem netdbReadFile_eq {read : List Byte → Option BencodeObj} {file : CString}
    (hload : ∀ bytes, tree.fopenRead file = some bytes →
      routerInfoLoad fuel routerInfoNew bytes = Ri.routerInfoLoad read routerInfoNew bytes)
    (ctx : NetdbReadCtx RouterInfo) :
    netdbReadFile fuel digest tree file ctx = LoadAll.netdbReadFile read digest tree file ctx := by
  rw [netdbReadFile, LoadAll.netdbReadFile, Netdb.netdbReadFile, Netdb.netdbReadFile]
  cases hopen : tree.fopenRead file with
  | none => rfl
  | some bytes => simp only [streamCode, decodedCode, routerInfoCode, hload bytes hopen]

end Code

/-! ## Loads that end -/

section Load

variable {fuel : ℕ} {digest : List Byte → IdentHash} {tree : Tree}
variable {readdir : CString → List CString} {ctx ctx' : NetdbReadCtx RouterInfo}

/-- A file that is opened is not read to the end. -/
theorem netdbReadFile_ne_ok {file : CString} {bytes : List Byte}
    (hopen : tree.fopenRead file = some bytes) :
    netdbReadFile fuel digest tree file ctx ≠ .ok ctx' := by
  intro hread
  simp only [netdbReadFile, Netdb.netdbReadFile, hopen] at hread
  obtain ⟨⟨ret, ri⟩, hload, hread⟩ := bind_eq_ok.mp hread
  obtain ⟨rfl, _⟩ := loadsFrame_of_load hload
  dsimp only at hread
  split_ifs at hread with hret
  · cases hread
  · cases hread

theorem foldlM_netdbReadFile_iff {files : List CString}
    (hfiles : ∀ file ∈ files, tree.isFile file = true) :
    files.foldlM (fun ctx file => netdbReadFile fuel digest tree file ctx) ctx = .ok ctx' ↔
      files = [] ∧ ctx' = ctx := by
  cases files with
  | nil => simp [eq_comm]
  | cons file files =>
      refine iff_of_false (fun hreads => ?_) (by simp)
      rw [List.foldlM_cons] at hreads
      obtain ⟨middle, hread, _⟩ := bind_eq_ok.mp hreads
      obtain ⟨bytes, hopen⟩ := Tree.exists_fopenRead (hfiles file (by simp))
      exact netdbReadFile_ne_ok hopen hread

theorem mnetNetdbLoadAll_eq {db : MnetNetdb RouterInfo}
    (hfits : RootFits tree readdir db.rootdir) :
    mnetNetdbLoadAll fuel digest tree readdir db =
      (visitedFiles tree readdir db.rootdir).foldlM
          (fun ctx file => netdbReadFile fuel digest tree file ctx) (startCtx db) >>=
        fun ctx => .ok (ctx.loaded, ctx) :=
  VisitedFiles.load_eq_foldlM hfits

/-- No fuel is too small where there is no file, and none is enough where there
is one. -/
theorem mnetNetdbLoadAll_eq_ok_iff {db : MnetNetdb RouterInfo} {loaded : ℕ} :
    mnetNetdbLoadAll fuel digest tree readdir db = .ok (loaded, ctx) ↔
      RootFits tree readdir db.rootdir ∧ visitedFiles tree readdir db.rootdir = [] ∧
        loaded = 0 ∧ ctx = startCtx db := by
  have hfiles : ∀ file ∈ visitedFiles tree readdir db.rootdir, tree.isFile file = true :=
    fun file => isFile_of_mem_visitedFiles
  constructor
  · intro hload
    have hfits := rootFits_of_load hload
    rw [mnetNetdbLoadAll_eq hfits] at hload
    obtain ⟨middle, hreads, hresult⟩ := bind_eq_ok.mp hload
    obtain ⟨hnone, rfl⟩ := (foldlM_netdbReadFile_iff hfiles).mp hreads
    obtain ⟨rfl, rfl⟩ := ok_pair_inj hresult
    exact ⟨hfits, hnone, rfl, rfl⟩
  · rintro ⟨hfits, hnone, rfl, rfl⟩
    rw [mnetNetdbLoadAll_eq hfits, (foldlM_netdbReadFile_iff hfiles).mpr ⟨hnone, rfl⟩]
    rfl

end Load

end I2pLite.NodeStreams
