import I2pLite.Identity.KeyStreams
import I2pLite.RouterInfo.Ri

/-!
# Router info files as they are read

`router_info_load` over `bencode_read_file` itself.  What is delivered has none
of the names of a router info, so whatever the file, a load leaves the router
info as empty as it was, also where it counts as a success.
-/

namespace I2pLite.InfoStreams

open I2pLite.CRun
open I2pLite.CBytes
open I2pLite.Stdio
open I2pLite.BencodeObject
open I2pLite.Read
open I2pLite.Framing
open I2pLite.ReadFrame
open I2pLite.ShortStrings
open I2pLite.Deliveries
open I2pLite.KeyStreams
open I2pLite.Identity
open I2pLite.Ri

section Code

variable (fuel : ℕ)

/-- The load of a file as it is. -/
def routerInfoLoad (ri : RouterInfo) (f : InFile) : Run (ℤ × RouterInfo) :=
  routerInfoLoadBy (streamFiles fuel) ri f

/-- Where the walk along a dict and its release end, the router info is the one
that is loaded from the dict. -/
theorem routerInfoLoad_eq {f rest : InFile} {count : ℤ} {dict : BencodeObj}
    (hread : bencodeReadFile fuel f = .ok (count, some dict, rest)) (hcount : 0 < count)
    (hdict : bencodeObjIsDict dict = true)
    (hwalk : ∀ user, bencodeObjIterDict fuel dict routerInfoProcess user =
      Decoded.iterDict dict routerInfoProcess user)
    (hfree : bencodeObjFree fuel dict = .ok ()) (ri : RouterInfo) :
    routerInfoLoad fuel ri f = Ri.routerInfoLoad (fun _ : InFile => some dict) ri f := by
  have hrelease : ∀ released, releaseRead fuel released dict =
      Decoded.releaseDecoded released := by
    intro released
    rw [releaseRead, Decoded.releaseDecoded, hfree]
  have hdecoded := @routerInfoLoad_of_isDict _ (fun _ : InFile => some dict) ri f dict rfl hdict
  rw [routerInfoLoad, routerInfoLoadBy, streamFiles_readFile_eq_ok.mpr ⟨rest, hread⟩, ok_bind,
    hdecoded]
  dsimp only
  rw [processRead, if_pos hcount, deref_some, ok_bind, if_pos hdict]
  simp only [streamFiles, hwalk, hrelease]

end Code

/-! ## What comes of a file -/

theorem strcmp_ne_zero_of_short {key name : CString} (hkey : strlen key ≤ 1)
    (hname : 1 < strlen name) : strcmp key name ≠ 0 := by
  rw [ne_eq, strcmp_eq_zero_iff]
  rintro rfl
  omega

theorem routerInfoProcess_short (key : CString) (v : BencodeObj) (ctx : RiReadCtx)
    (hkey : strlen key ≤ 1) : routerInfoProcess key v ctx = .ok ctx := by
  rw [routerInfoProcess, if_neg (strcmp_ne_zero_of_short hkey (by decide)),
    if_neg (strcmp_ne_zero_of_short hkey (by decide)),
    if_neg (strcmp_ne_zero_of_short hkey (by decide))]

/-- There was a dict, and the count was positive. -/
def loadFlag (frame : Frame) : ℤ :=
  if frame.sign .positive = .positive ∧ isDictFrame frame = true then 1 else 0

/-- The flag of a load, by the frame of the file; nothing where what was read
cannot be released. -/
def loadsFrame (frame : Frame) : Option ℤ :=
  if frame.releasable then some (loadFlag frame) else none

section Outcome

variable {fuel : ℕ} {f : InFile} {ret : ℤ} {ri : RouterInfo} {frame : Frame} {count : ℤ}
variable {benc : Option BencodeObj}

/-- A context whose router info has not been filled. -/
def emptyCtx (success : ℤ) : RiReadCtx :=
  { ri := routerInfoNew, success := success, released := false }

theorem processRead_eq_ok {rest : InFile} {ctx : RiReadCtx}
    (hframed : Framed f (.value frame) rest) (hfile : DeliveredFile frame count benc)
    (hprocess : processRead (streamFiles fuel) count benc (emptyCtx 0) = .ok ctx) :
    ctx = emptyCtx (loadFlag frame) := by
  rw [processRead] at hprocess
  by_cases hcount : 0 < count
  · rw [if_pos hcount] at hprocess
    obtain ⟨obj, hobj, hwalk⟩ := bind_eq_ok.mp hprocess
    obtain rfl := deref_eq_ok.mp hobj
    have hdict := isDict_of_represents hfile.represents (ne_skip_of_framed hframed)
    have hsign := hfile.count_pos_iff.mp hcount
    by_cases hisDict : bencodeObjIsDict obj = true
    · rw [if_pos hisDict] at hwalk
      obtain rfl := (hfile.short obj rfl).iterDict_eq routerInfoProcess_short hwalk
      rw [loadFlag, if_pos ⟨hsign, hdict ▸ hisDict⟩]
      rfl
    · rw [if_neg hisDict] at hwalk
      obtain rfl := Except.ok.inj hwalk
      rw [loadFlag, if_neg fun hboth => hisDict (hdict ▸ hboth.2)]
  · rw [if_neg hcount] at hprocess
    obtain rfl := Except.ok.inj hprocess
    rw [loadFlag, if_neg fun hboth => hcount (hfile.count_pos_iff.mpr hboth.1)]

theorem loadsFrame_of_load (hload : routerInfoLoad fuel routerInfoNew f = .ok (ret, ri)) :
    ri = routerInfoNew ∧ ∃ frame rest, Framed f (.value frame) rest ∧ frame.safe = true ∧
      loadsFrame frame = some ret := by
  obtain ⟨⟨count, benc⟩, hfile, hload⟩ := bind_eq_ok.mp hload
  obtain ⟨rest, hread⟩ := streamFiles_readFile_eq_ok.mp hfile
  obtain ⟨frame, hframed, hfile⟩ := exists_frame_of_read hread
  obtain ⟨ctx, hprocess, hload⟩ := bind_eq_ok.mp hload
  obtain rfl := processRead_eq_ok hframed hfile hprocess
  have hreleasable : frame.releasable = true ∧ (ret, ri) =
      (loadFlag frame, routerInfoNew) := by
    cases benc with
    | none =>
        exact ⟨hfile.represents.frees_iff.mp ⟨fuel, rfl⟩, (Except.ok.inj hload).symm⟩
    | some obj =>
        obtain ⟨_, hfree, hresult⟩ := bind_eq_ok.mp hload
        exact ⟨hfile.represents.frees_iff.mp ⟨fuel, hfree⟩, (Except.ok.inj hresult).symm⟩
  obtain ⟨hret, hri⟩ := Prod.mk.inj hreleasable.2
  refine ⟨hri, frame, rest, hframed, hfile.safe, ?_⟩
  rw [loadsFrame, if_pos hreleasable.1, hret]

end Outcome

end I2pLite.InfoStreams
