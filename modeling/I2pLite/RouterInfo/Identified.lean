import I2pLite.Bencode.Clone
import I2pLite.RouterInfo.Load

/-!
# Loads that report success

A load reports success for every dict, whatever identity it finds there, or
none at all.
-/

namespace I2pLite.Identified

open I2pLite.CRun
open I2pLite.CBytes
open I2pLite.BencodeObject
open I2pLite.Denotation
open I2pLite.Clone
open I2pLite.Decoded
open I2pLite.Identity
open I2pLite.Ri
open I2pLite.Load

section Files

variable {File : Type}

/-- One of the entries for an identity is accepted. -/
def HasIdent (read : File → Option BencodeObj) (f : File) : Prop :=
  ∃ dict entries v, read f = some dict ∧ DictHolds dict entries ∧ (identName, v) ∈ entries ∧
    acceptedIdent v ≠ none

/-- Success means that the identity has been accepted with its key and all of
its certificate, so that it has a hash; without an identity there is none. -/
def LoadsIdentified (read : File → Option BencodeObj) (f : File) : Prop :=
  ∃ ret ri, routerInfoLoad read routerInfoNew f = .ok (ret, ri) ∧
    (ret ≠ 0 → ∃ key bytes, ri.identity = some (identityOf key (.filled bytes)) ∧
      usableIdentity read f = some (identityOf key (.filled bytes)) ∧
      ∀ digest : List Byte → List.Vector Byte 32, ∃ hash, routerInfoHash digest ri = .ok hash) ∧
    (¬ HasIdent read f → ret = 0)

variable {f : File}

theorem hasIdent_of_loadable {read : File → Option BencodeObj} (hloadable : Loadable read f) :
    HasIdent read f := by
  obtain ⟨dict, entries, hread, hholds, _, v, identity, hlast, hident⟩ := hloadable
  refine ⟨dict, entries, v, hread, hholds, ?_, ?_⟩
  · obtain ⟨entry, hfind, rfl⟩ := Option.map_eq_some_iff.mp hlast
    have hname : entry.1 = identName := by simpa using List.find?_some hfind
    rw [← hname]
    exact List.mem_reverse.mp (List.mem_of_find?_eq_some hfind)
  · rw [acceptedIdent_eq_some_iff.mpr hident]
    exact Option.some_ne_none identity

/-- A load does what it reports exactly for what is no dict, and for dicts with
safe entries whose last identity is accepted. -/
theorem loadsIdentified_iff (reader : BencodeReader File) (f : File) :
    LoadsIdentified reader.read f ↔
      (∀ obj, reader.read f = some obj → bencodeObjIsDict obj = false) ∨
        Loadable reader.read f := by
  constructor
  · rintro ⟨ret, ri, hload, hsuccess, _⟩
    by_cases hret : ret = 0
    · left
      intro obj hread
      by_contra hdict
      rw [Bool.not_eq_false] at hdict
      obtain ⟨value, hvalue⟩ := reader.decoded f obj hread
      obtain ⟨entries, hholds, hdenotes⟩ := exists_dictHolds hvalue hdict
      rcases routerInfoLoad_dict hread hholds hdenotes with ⟨_, other, hone, _⟩ | ⟨_, fault, hfault⟩
      · have hcalls : ret = 1 := (ok_pair_inj (hload.symm.trans hone)).1
        omega
      · rw [hfault] at hload
        cases hload
    · right
      obtain ⟨key, bytes, _, husable, _⟩ := hsuccess hret
      exact loadable_of_load hload hret (by rw [husable]; exact Option.some_ne_none _)
  · rintro (hdict | hloadable)
    · refine ⟨0, routerInfoNew, routerInfoLoad_of_not_dict hdict, fun hret => absurd rfl hret,
        fun _ => rfl⟩
    · obtain ⟨ri, key, bytes, hload, hidentity, husable⟩ := hloadable.load
      refine ⟨1, ri, hload, fun _ => ⟨key, bytes, hidentity, husable, fun digest => ?_⟩,
        fun hnone => absurd (hasIdent_of_loadable hloadable) hnone⟩
      rw [routerInfoHash, hidentity]
      exact exists_mnetIdentityHash digest key bytes

end Files

/-- Every file is an empty dict. -/
def emptyDictReader : BencodeReader Unit where
  read := fun _ => some bencodeObjDict
  decoded := fun _ _ hread => by
    obtain rfl := Option.some.inj hread
    exact ⟨.dict [], [], dictHolds_bencodeObjDict, rfl⟩

/-- An empty dict is loaded with success, and has no identity. -/
theorem not_loadsIdentified_emptyDict :
    routerInfoLoad emptyDictReader.read routerInfoNew () = .ok (1, routerInfoNew) ∧
      ¬ LoadsIdentified emptyDictReader.read () := by
  have hload : routerInfoLoad emptyDictReader.read routerInfoNew () = .ok (1, routerInfoNew) := rfl
  refine ⟨hload, ?_⟩
  rintro ⟨ret, ri, hother, hsuccess, _⟩
  obtain ⟨rfl, rfl⟩ := ok_pair_inj (hload.symm.trans hother)
  obtain ⟨key, bytes, hidentity, _⟩ := hsuccess one_ne_zero
  cases hidentity

end I2pLite.Identified
