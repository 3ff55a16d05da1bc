import I2pLite.Bencode.Denotation

/-!
# Decoded bencode files

A reader of bencode files fails or delivers an object that denotes a value.
The walk along a dict of such an object ends.
-/

namespace I2pLite.Decoded

open I2pLite.CRun
open I2pLite.CBytes
open I2pLite.LinkedChain
open I2pLite.Bencoding
open I2pLite.BencodeObject
open I2pLite.Denotation

/-- `bencode_read_file` as far as its callers rely on it: it fails, or what it
delivers is an object. -/
structure BencodeReader (File : Type) where
  read : File → Option BencodeObj
  decoded : ∀ file obj, read file = some obj → ∃ value, Denotes value obj

/-- `bencode_write_file` and `bencode_read_file`, each of which may fail. -/
structure BencodeFiles (File : Type) where
  write : BencodeObj → Option File
  read : File → Option BencodeObj

/-- Every object is written, and what was written is read. -/
def BencodeFiles.Lossless {File : Type} (files : BencodeFiles File) : Prop :=
  ∀ obj, ∃ file, files.write obj = some file ∧ files.read file = some obj

/-- Files that hold an object as it is, or nothing. -/
def objectFiles : BencodeFiles (Option BencodeObj) where
  write := fun obj => some (some obj)
  read := id

theorem objectFiles_lossless : objectFiles.Lossless := fun obj => ⟨some obj, rfl, rfl⟩

/-- The buffer of a string object: there is none for the empty string. -/
def bufferOf (data : List Byte) : Option (List Byte) := if data = [] then none else some data

/-- `bencode_obj_free` on a decoded object, given whether a caller has released
one of its strings already.  Each part of the object has no other owner. -/
def releaseDecoded (released : Bool) : Run Unit :=
  if released then .error .useAfterFree else .ok ()

/-- The bencode code as its callers with a file use it: `bencode_read_file`,
which returns the count and the object, the walk along a dict, and
`bencode_obj_free`, given whether a string of the object has been released
already. -/
structure BencodeCode (File : Type) where
  readFile : File → Run (ℤ × Option BencodeObj)
  iterDict : {S : Type} → BencodeObj → (CString → BencodeObj → S → Run S) → S → Run S
  objFree : Bool → BencodeObj → Run Unit

/-! ## Walking a dict -/

/-- More turns than a chain of nodes of the store can take. -/
def walkBound : BencodeObj → ℕ
  | .dict nodes => nodes.length + 1
  | _ => 0

section Walk

variable {S : Type} {visit : CString → BencodeObj → S → Run S} {user : S}

def iterDict (obj : BencodeObj) (visit : CString → BencodeObj → S → Run S) (user : S) : Run S :=
  bencodeObjIterDict (walkBound obj) obj visit user

theorem length_lt_walkBound {dict : BencodeObj} {entries : List (CString × BencodeObj)}
    (hholds : DictHolds dict entries) : entries.length < walkBound dict := by
  obtain ⟨nodes, head, cells, rfl, _, _, hchain, hentries⟩ := hholds
  have hcount : ∀ cell, (links nodes cell).isSome → cell < nodes.length := by
    intro cell hlink
    simpa [links] using hlink
  have hlength := hchain.chain_length_le hcount
  rw [hentries.length_eq] at hlength
  exact Nat.lt_succ_of_le hlength

/-- The walk visits the entries in order. -/
theorem iterDict_eq {dict : BencodeObj} {entries : List (CString × BencodeObj)}
    (hholds : DictHolds dict entries) :
    iterDict dict visit user =
      entries.foldlM (fun user entry => visit entry.1 entry.2 user) user :=
  bencodeObjIterDict_holds hholds (length_lt_walkBound hholds)

theorem iterDict_collect {dict : BencodeObj} {entries : List (CString × BencodeObj)}
    (hholds : DictHolds dict entries) :
    iterDict dict (fun key val entries => .ok (entries ++ [(key, val)])) [] = .ok entries := by
  rw [iterDict_eq hholds]
  clear hholds
  induction entries using List.reverseRecOn with
  | nil => rfl
  | append_singleton entries entry ih =>
      rw [List.foldlM_append, ih]
      rfl

/-- A dict has one sequence of entries. -/
theorem dictHolds_unique {dict : BencodeObj} {entries others : List (CString × BencodeObj)}
    (hholds : DictHolds dict entries) (hothers : DictHolds dict others) : others = entries :=
  Except.ok.inj ((iterDict_collect hothers).symm.trans (iterDict_collect hholds))

theorem iterDict_of_not_dict {obj : BencodeObj} (hdict : bencodeObjIsDict obj = false) :
    iterDict obj visit user = .ok user := by
  cases obj with
  | dict nodes => cases hdict
  | list vals => rfl
  | str data => rfl
  | integer value => rfl

/-- What every call of the visitor keeps, the walk keeps, on any object. -/
theorem iterDict_invariant {kept : S → Prop} {obj : BencodeObj} {user' : S}
    (hvisit : ∀ key val before after, kept before → visit key val before = .ok after → kept after)
    (hwalk : iterDict obj visit user = .ok user') (huser : kept user) : kept user' :=
  bencodeObjIterDict_invariant hvisit hwalk huser

end Walk

/-- Files that are decoded, or fail. -/
def decodedFiles {File : Type} (read : File → Option BencodeObj) : BencodeCode File where
  readFile f := .ok (if (read f).isSome then 1 else -1, read f)
  iterDict := iterDict
  objFree released _ := releaseDecoded released

theorem isDict_of_dictHolds {dict : BencodeObj} {entries : List (CString × BencodeObj)}
    (hholds : DictHolds dict entries) : bencodeObjIsDict dict = true := by
  obtain ⟨nodes, head, cells, rfl, _⟩ := hholds
  rfl

/-- A decoded dict holds decoded objects. -/
theorem exists_dictHolds {value : BencodeValue} {obj : BencodeObj} (hdenotes : Denotes value obj)
    (hdict : bencodeObjIsDict obj = true) :
    ∃ entries, DictHolds obj entries ∧ ∀ entry ∈ entries, ∃ value, Denotes value entry.2 := by
  cases value with
  | str data =>
      obtain rfl : obj = .str data := hdenotes
      cases hdict
  | int value =>
      obtain ⟨stored, rfl, _⟩ := hdenotes
      cases hdict
  | list items =>
      obtain ⟨vals, rfl, _⟩ := hdenotes
      cases hdict
  | dict entries =>
      obtain ⟨held, hholds, hheld⟩ := hdenotes
      refine ⟨held, hholds, ?_⟩
      clear hholds
      induction entries generalizing held with
      | nil =>
          obtain rfl : held = [] := hheld
          simp
      | cons entry entries ih =>
          obtain ⟨name, obj, rest, rfl, _, hobj, hrest⟩ := hheld
          rintro held hmem
          rcases List.mem_cons.mp hmem with rfl | hmem
          · exact ⟨_, hobj⟩
          · exact ih rest hrest held hmem

end I2pLite.Decoded
