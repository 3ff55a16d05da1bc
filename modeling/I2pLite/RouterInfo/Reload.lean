import I2pLite.Identity.Base64Form
import I2pLite.RouterInfo.Ri

/-!
# Router infos behind a restart

Writing a router info builds a dict that is never written, and never reports
success.
-/

namespace I2pLite.Reload

open I2pLite.CRun
open I2pLite.CBytes
open I2pLite.BencodeObject
open I2pLite.Decoded
open I2pLite.Cert
open I2pLite.Identity
open I2pLite.Base64Form
open I2pLite.Keys
open I2pLite.Ri

variable {File Hash : Type} {ri : RouterInfo}

/-- A call that returns has reported a failure, and written nothing. -/
theorem routerInfoWrite_eq_ok {f f' : File} {ret : ℤ}
    (hwrite : routerInfoWrite ri f = .ok (ret, f')) : ret = 0 ∧ f' = f := by
  rw [routerInfoWrite] at hwrite
  obtain ⟨identity, _, hwrite⟩ := bind_eq_ok.mp hwrite
  obtain ⟨str, _, hwrite⟩ := bind_eq_ok.mp hwrite
  obtain ⟨text, _, hwrite⟩ := bind_eq_ok.mp hwrite
  obtain ⟨benc, _, hwrite⟩ := bind_eq_ok.mp hwrite
  obtain ⟨rfl, rfl⟩ := ok_pair_inj hwrite
  exact ⟨rfl, rfl⟩

/-- Where the identity has a base64 form, the call returns. -/
theorem routerInfoWrite_identityOf {key : EddsaPubkey} {certdata : List Byte} (f : File)
    (hidentity : ri.identity = some (identityOf key (.filled certdata)))
    (hfits : certdata.length % 65536 + 32 ≤ 128) : routerInfoWrite ri f = .ok (0, f) := by
  rw [routerInfoWrite, hidentity, deref_some, ok_bind, mnetIdentityToBase64_eq, if_pos hfits,
    ok_bind, deref_some, ok_bind]
  rfl

/-- The router info is written to an empty file, which is loaded as one with the
same hash and the same capabilities. -/
def ReloadsSame (digest : List Byte → Hash) (files : BencodeFiles File) (empty : File)
    (ri : RouterInfo) : Prop :=
  ∃ file, routerInfoWrite ri empty = .ok (1, file) ∧
    ∃ loaded, routerInfoLoad files.read routerInfoNew file = .ok (1, loaded) ∧
      (∃ hash, routerInfoHash digest ri = .ok hash ∧ routerInfoHash digest loaded = .ok hash) ∧
      ∃ caps, routerInfoGetCaps ri = .ok caps ∧ routerInfoGetCaps loaded = .ok caps

/-- No router info is reloaded. -/
theorem not_reloadsSame (digest : List Byte → Hash) (files : BencodeFiles File) (empty : File)
    (ri : RouterInfo) : ¬ ReloadsSame digest files empty ri := by
  rintro ⟨file, hwrite, _⟩
  exact one_ne_zero (routerInfoWrite_eq_ok hwrite).1

/-- A router info with the zero key, an empty certificate and no capabilities. -/
def zeroRouterInfo : RouterInfo where
  data := none
  len := 0
  identity := some (identityOf (.replicate 32 0) (.filled [0, 0, 0]))
  link := none
  caps := none

/-- Its identity has a base64 form, and what is written is nothing. -/
theorem not_reloadsSame_zeroRouterInfo :
    objectFiles.Lossless ∧
      routerInfoWrite zeroRouterInfo (none : Option BencodeObj) = .ok (0, none) ∧
      ¬ ReloadsSame id objectFiles none zeroRouterInfo := by
  have hwrite : routerInfoWrite zeroRouterInfo (none : Option BencodeObj) = .ok (0, none) :=
    routerInfoWrite_identityOf none rfl (by decide)
  refine ⟨objectFiles_lossless, hwrite, ?_⟩
  rintro ⟨file, hsuccess, _⟩
  rw [hwrite] at hsuccess
  have hret : (0 : ℤ) = 1 := congrArg Prod.fst (Except.ok.inj hsuccess)
  exact zero_ne_one hret

end I2pLite.Reload
