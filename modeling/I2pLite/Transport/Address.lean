import I2pLite.Config.Lines
import I2pLite.Core.Numeral
import I2pLite.Encoding.DecodeBounds

/-!
# Addresses

The entries of an address are read one after the other: a host, a port that is
kept in the order of the network, and a key that is kept only where its text is
that of 32 bytes.
-/

namespace I2pLite.Address

open I2pLite.CRun
open I2pLite.CBytes
open I2pLite.Decimal
open I2pLite.Numeral
open I2pLite.Memory
open I2pLite.Base64
open I2pLite.ConfigLines (ofBuffer_of_noNul)
open I2pLite.DecodeBounds (base64Decode_eq_ok base64Decode_of_refused)

/-- `crypto_box_curve25519xsalsa20poly1305_PUBLICKEYBYTES` bytes. -/
abbrev PubEncKey := List.Vector Byte 32

/-- `struct mnet_addr`. -/
structure MnetAddr where
  style : Option CString
  host : Option CString
  port : UInt16
  cost : Byte
  date : UInt64
  key : PubEncKey

/-- `htons` and `ntohs` swap the bytes of a number. -/
def htons (value : UInt16) : UInt16 :=
  be16toh (UInt8.ofNat (value.toNat % 256)) (UInt8.ofNat (value.toNat / 256))

def hostName : CString := ofBuffer ("host".toList.map ch)

def portName : CString := ofBuffer ("port".toList.map ch)

def keyName : CString := ofBuffer ("key".toList.map ch)

def mnetAddrProcessDict (k v : CString) (a : MnetAddr) : Run MnetAddr :=
  if strcmp k hostName = 0 then .ok { a with host := some v }
  else if strcmp k portName = 0 then do
    let port ← atoi (v.bytes ++ [0])
    .ok { a with port := htons (UInt16.ofInt port) }
  else if strcmp k keyName = 0 then do
    let (len, key) ← base64DecodeStr v
    if len = 32 then do
      let key ← load (← deref key) 0 32
      .ok { a with key := key }
    else .ok a
  else .ok a

/-- The text of the port, in a buffer of ten bytes. -/
def mnetAddrPortStr (addr : MnetAddr) : Run CString := do
  let (_, buf) ← snprintf (List.replicate 10 0) 0 10 (signedDecimal (htons addr.port).toNat)
  .ok (ofBuffer buf)

/-! ## The port -/

theorem toNat_htons (value : UInt16) :
    (htons value).toNat = 256 * (value.toNat % 256) + value.toNat / 256 := by
  have hvalue := value.toNat_lt
  rw [htons, be16toh_toNat, UInt8.toNat_ofNat', UInt8.toNat_ofNat']
  omega

theorem htons_htons (value : UInt16) : htons (htons value) = value := by
  have hvalue := value.toNat_lt
  rw [← UInt16.toNat_inj, toNat_htons, toNat_htons]
  omega

theorem toNat_ofInt (value : ℤ) : (UInt16.ofInt value).toNat = (value % 2 ^ 16).toNat := by
  rw [UInt16.ofInt, UInt16.toNat_ofNat', Nat.mod_eq_of_lt (by omega)]

theorem length_decimal_le {value : ℕ} (hvalue : value < 65536) : (decimal value).length ≤ 9 := by
  rw [decimal]
  split_ifs
  · simp
  · rw [List.length_map, List.length_reverse, Nat.digits_length_le_iff (by omega)]
    omega

theorem noNul_decimal (value : ℕ) : ∀ byte ∈ decimal value, byte ≠ 0 := by
  rintro byte hbyte rfl
  exact absurd (isDigit_of_mem_decimal hbyte) (by decide)

/-- A port is printed whole. -/
theorem mnetAddrPortStr_eq (addr : MnetAddr) :
    mnetAddrPortStr addr = .ok (ofBuffer (decimal (htons addr.port).toNat)) := by
  obtain ⟨rest, hprint, _⟩ := @snprintf_eq (List.replicate 10 0) 0 10
    (signedDecimal (htons addr.port).toNat) (by simp) (by decide)
  have hnumeral : signedDecimal (htons addr.port).toNat = decimal (htons addr.port).toNat := by
    rw [signedDecimal, if_neg (by omega), Int.natAbs_natCast]
  have htext := ofBuffer_of_noNul (noNul_decimal (htons addr.port).toNat)
  rw [mnetAddrPortStr, hprint, ok_bind, hnumeral, List.take_zero, List.nil_append,
    List.take_of_length_le (length_decimal_le (htons addr.port).toNat_lt)]
  dsimp only
  conv_lhs => rw [← htext, ofBuffer_append_nul]

/-! ## The key -/

section Key

variable {v : CString}

/-- The key in a text, if it is that of 32 bytes. -/
def keyOf (v : CString) : Option PubEncKey :=
  match base64DecodeStr v with
  | .ok (32, some buffer) => (load buffer 0 32).toOption
  | _ => none

/-- What is decoded is in a buffer that is large enough. -/
theorem exists_buffer_of_base64DecodeStr {r : ℕ} {data : Option (List Byte)}
    (hdecode : base64DecodeStr v = .ok (r, data)) (hr : r ≠ 0) (hsize : r < 2 ^ 64 - 1) :
    ∃ buffer, data = some buffer ∧ r ≤ buffer.length := by
  obtain ⟨⟨outlen, temp⟩, hbytes, hrest⟩ := bind_eq_ok.mp hdecode
  dsimp only at hrest
  split_ifs at hrest with hzero
  · obtain ⟨rfl, rfl⟩ := ok_pair_inj hrest
    refine ⟨temp, rfl, ?_⟩
    have hgroups : ¬(v.bytes.length = 0 ∨ v.bytes.length % 4 ≠ 0) := by
      intro hrefused
      have hnothing := hbytes.symm.trans (base64Decode_of_refused hrefused _)
      exact hzero (ok_pair_inj hnothing).1
    obtain ⟨_, _, ⟨hcount, _⟩ | ⟨_, hfits, hstore⟩⟩ := base64Decode_eq_ok hgroups hbytes
    · omega
    · have hlength := (store_eq_ok hstore).2
      rw [List.length_replicate] at hlength
      omega
  · obtain ⟨rfl, rfl⟩ := ok_pair_inj hrest
    exact absurd rfl hr

end Key

/-! ## Entries -/

section Entries

variable {addr addr' : MnetAddr} {entries : List (CString × CString)}

/-- What an entry of the name sets. -/
def setBy {V : Type} (name : CString) (value : CString → Option V) (entry : CString × CString) :
    Option V :=
  if entry.1 = name then value entry.2 else none

/-- The last entry that sets something decides. -/
def lastSet {V : Type} (name : CString) (value : CString → Option V)
    (entries : List (CString × CString)) (default : V) : V :=
  (entries.reverse.findSome? (setBy name value)).getD default

theorem lastSet_cons {V : Type} (name : CString) (value : CString → Option V)
    (entry : CString × CString) (default : V) :
    lastSet name value (entry :: entries) default =
      lastSet name value entries ((setBy name value entry).getD default) := by
  rw [lastSet, List.reverse_cons, List.findSome?_append, List.findSome?_singleton, lastSet]
  cases entries.reverse.findSome? (setBy name value) with
  | some found => rfl
  | none => rfl

def portOf (v : CString) : UInt16 := htons (UInt16.ofInt (numberOf v))

/-- The address with what the entries set. -/
def addrWith (entries : List (CString × CString)) (addr : MnetAddr) : MnetAddr :=
  { addr with
    host := lastSet hostName (fun v => some (some v)) entries addr.host
    port := lastSet portName (fun v => some (portOf v)) entries addr.port
    key := lastSet keyName keyOf entries addr.key }

/-- The text of a key can be decoded. -/
def Decodable (entry : CString × CString) : Prop :=
  entry.1 = keyName → ∃ result, base64DecodeStr entry.2 = .ok result

/-- The key is stored if its text is that of 32 bytes, and the text has to be
one that can be decoded. -/
theorem processKey_eq_ok_iff {v : CString} :
    (base64DecodeStr v >>= fun (len, key) =>
        if len = 32 then do
          let key ← load (← deref key) 0 32
          .ok { addr with key := key }
        else .ok addr) = .ok addr' ↔
      (∃ result, base64DecodeStr v = .ok result) ∧
        addr' = { addr with key := (keyOf v).getD addr.key } := by
  cases hdecode : base64DecodeStr v with
  | error fault => simp
  | ok result =>
      obtain ⟨len, data⟩ := result
      rw [ok_bind, keyOf, hdecode]
      dsimp only
      split_ifs with hlen
      · subst hlen
        obtain ⟨buffer, rfl, hlength⟩ :=
          exists_buffer_of_base64DecodeStr hdecode (by decide) (by decide)
        obtain ⟨key, hload, _⟩ := exists_load buffer (show 0 + 32 ≤ buffer.length by omega)
        rw [deref_some, ok_bind, hload, ok_bind]
        simp [Except.toOption, hload, eq_comm]
      · simpa [hlen] using (eq_comm : addr = addr' ↔ addr' = addr)

theorem mnetAddrProcessDict_eq_ok_iff {entry : CString × CString} :
    mnetAddrProcessDict entry.1 entry.2 addr = .ok addr' ↔
      Decodable entry ∧ addr' = addrWith [entry] addr := by
  have hhostPort : hostName ≠ portName := by decide
  have hhostKey : hostName ≠ keyName := by decide
  have hportKey : portName ≠ keyName := by decide
  rw [mnetAddrProcessDict, Decodable]
  simp only [strcmp_eq_zero_iff, addrWith, lastSet, List.reverse_singleton,
    List.findSome?_singleton, setBy]
  by_cases hhost : entry.1 = hostName
  · simp [hhost, hhostPort, hhostKey, eq_comm]
  · by_cases hport : entry.1 = portName
    · simp [hport, hhostPort.symm, hportKey, atoi_string, portOf, eq_comm]
    · by_cases hkey : entry.1 = keyName
      · have hiff := @processKey_eq_ok_iff addr addr' entry.2
        simpa [hkey, hhostKey.symm, hportKey.symm] using hiff
      · simpa [hhost, hport, hkey] using (eq_comm : addr = addr' ↔ addr' = addr)

theorem addrWith_cons (entry : CString × CString) :
    addrWith (entry :: entries) addr = addrWith entries (addrWith [entry] addr) := by
  simp only [addrWith, lastSet_cons]
  rfl

theorem foldlM_mnetAddrProcessDict :
    entries.foldlM (fun addr entry => mnetAddrProcessDict entry.1 entry.2 addr) addr =
        .ok addr' ↔
      (∀ entry ∈ entries, Decodable entry) ∧ addr' = addrWith entries addr := by
  induction entries generalizing addr with
  | nil => simp [addrWith, lastSet, eq_comm]
  | cons entry entries ih =>
      rw [List.foldlM_cons, bind_eq_ok, addrWith_cons, List.forall_mem_cons]
      simp only [mnetAddrProcessDict_eq_ok_iff, ih]
      constructor
      · rintro ⟨middle, ⟨hfirst, rfl⟩, hrest, haddr⟩
        exact ⟨⟨hfirst, hrest⟩, haddr⟩
      · rintro ⟨⟨hfirst, hrest⟩, haddr⟩
        exact ⟨_, ⟨hfirst, rfl⟩, hrest, haddr⟩

theorem map_lastSet {V W : Type} (name : CString) (value : CString → Option V) (map : V → W)
    (default : V) :
    map (lastSet name value entries default) =
      lastSet name (fun v => (value v).map map) entries (map default) := by
  induction entries generalizing default with
  | nil => rfl
  | cons entry entries ih =>
      rw [lastSet_cons, lastSet_cons, ih, setBy, setBy]
      split_ifs
      · cases value entry.2 <;> rfl
      · rfl

/-- A run over the entries of an address comes to its end where the texts of the
keys can be decoded, and the last host, the last port and the last key of 32
bytes are what the address then has.  The port that is printed is the number of
the last port, without what does not fit into 16 bits. -/
theorem foldlM_mnetAddrProcessDict_iff (entries : List (CString × CString))
    (addr addr' : MnetAddr) (port : CString) :
    (entries.foldlM (fun addr entry => mnetAddrProcessDict entry.1 entry.2 addr) addr =
        .ok addr' ∧ mnetAddrPortStr addr' = .ok port) ↔
      (∀ entry ∈ entries, Decodable entry) ∧ addr' = addrWith entries addr ∧
        port = ofBuffer (decimal (lastSet portName
          (fun v => some (numberOf v % 2 ^ 16).toNat) entries (htons addr.port).toNat)) := by
  have hport : (htons (addrWith entries addr).port).toNat = lastSet portName
      (fun v => some (numberOf v % 2 ^ 16).toNat) entries (htons addr.port).toNat := by
    rw [addrWith]
    dsimp only
    rw [@map_lastSet entries _ _ portName _ fun port => (htons port).toNat]
    simp only [Option.map_some, portOf, htons_htons, toNat_ofInt]
  rw [foldlM_mnetAddrProcessDict, and_assoc]
  refine and_congr_right fun _ => and_congr_right fun haddr => ?_
  rw [haddr, mnetAddrPortStr_eq, hport, Except.ok.injEq, eq_comm]

end Entries

end I2pLite.Address
