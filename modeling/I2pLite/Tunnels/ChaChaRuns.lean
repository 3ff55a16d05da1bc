import I2pLite.Tunnels.ChaCha

/-!
# Runs of tunnel calls

Encryptions and decryptions of any tunnels, in any order, over one AEAD.  Who
decrypts may be handed any message: what was encrypted before, in whatever order
and however often, or anything else.
-/

namespace I2pLite.ChaChaRuns

open I2pLite.CRun
open I2pLite.CBytes
open I2pLite.Aead
open I2pLite.TunnelChaCha

/-- A call of `encrypt` or of `decrypt`, with the tunnel's key and what the two
buffers hold. -/
inductive TunnelCall
  | encrypt (key : TunnelKey) (block : TunnelDataBlockV2) (msg : List.Vector Byte tdmV2Size)
  | decrypt (key : TunnelKey) (msg : List.Vector Byte tdmV2Size) (block : TunnelDataBlockV2)

/-- What a call has done: an encryption has written the message, and a
decryption has returned, and left this block. -/
inductive TunnelEvent
  | encrypted (key : TunnelKey) (block : TunnelDataBlockV2) (msg : List Byte)
  | decrypted (key : TunnelKey) (msg : List Byte) (returned : ℤ) (block : TunnelDataBlockV2)

section Code

variable {State : Type} (aead : ChaCha20Poly1305 State)

def runCall (call : TunnelCall) (state : State) : Run (State × TunnelEvent) :=
  match call with
  | .encrypt key block msg => do
      let (_, state, msg) ← i2pTunnelV2Encrypt aead state key block msg.toList
      .ok (state, .encrypted key block msg)
  | .decrypt key msg block => do
      let (returned, block) ← i2pTunnelV2Decrypt aead state key msg.toList block
      .ok (state, .decrypted key msg.toList returned block)

def runCalls : List TunnelCall → State → Run (State × List TunnelEvent)
  | [], state => .ok (state, [])
  | call :: calls, state => do
      let (state, event) ← runCall aead call state
      let (state, events) ← runCalls calls state
      .ok (state, event :: events)

end Code

/-! ## What has been produced -/

section Produced

variable {State : Type} {aead : ChaCha20Poly1305 State} {start state : State}
variable {before : List TunnelEvent}

/-- The encryption under the key that makes these regions of a message. -/
def boxOf (key : TunnelKey) (regions : Regions) (plain : TunnelDataBlockV2) :
    Sealed TunnelKey TunnelNonce TunnelIdBytes TunnelDataBlockV2 TunnelDataBlockV2 TunnelMac :=
  ⟨key, regions.nonce, regions.tunid, plain, regions.cipher, regions.mac⟩

theorem encrypted_eq_iff {key key' : TunnelKey} {regions regions' : Regions}
    {plain plain' : TunnelDataBlockV2} :
    TunnelEvent.encrypted key plain regions.bytes = .encrypted key' plain' regions'.bytes ↔
      boxOf key regions plain = boxOf key' regions' plain' := by
  rw [TunnelEvent.encrypted.injEq, Regions.bytes_injective.eq_iff, boxOf, boxOf, Sealed.mk.injEq]
  constructor
  · rintro ⟨rfl, rfl, rfl⟩
    exact ⟨rfl, rfl, rfl, rfl, rfl, rfl⟩
  · rintro ⟨rfl, hnonce, htunid, rfl, hcipher, hmac⟩
    obtain ⟨mac, nonce, tunid, cipher⟩ := regions
    obtain rfl : mac = regions'.mac := hmac
    obtain rfl : nonce = regions'.nonce := hnonce
    obtain rfl : tunid = regions'.tunid := htunid
    obtain rfl : cipher = regions'.cipher := hcipher
    exact ⟨rfl, rfl, rfl⟩

/-- What was produced is what was produced at the start, or encrypted since. -/
def Logged (aead : ChaCha20Poly1305 State) (start state : State) (before : List TunnelEvent) :
    Prop :=
  ∀ key regions plain, aead.produced state (boxOf key regions plain) ↔
    aead.produced start (boxOf key regions plain) ∨ .encrypted key plain regions.bytes ∈ before

theorem Logged.refl (aead : ChaCha20Poly1305 State) (start : State) :
    Logged aead start start [] := by
  intro key regions plain
  simp

/-- The block was sealed in the message, at the start or by an encryption since. -/
def SealedIn (aead : ChaCha20Poly1305 State) (start : State) (before : List TunnelEvent)
    (key : TunnelKey) (msg : List Byte) (plain : TunnelDataBlockV2) : Prop :=
  (∃ regions : Regions, msg = regions.bytes ∧ aead.produced start (boxOf key regions plain)) ∨
    .encrypted key plain msg ∈ before

/-- What holds of a decryption in a run from the start, behind these events. -/
structure Authentic (aead : ChaCha20Poly1305 State) (start : State) (before : List TunnelEvent)
    (key : TunnelKey) (msg : List Byte) (returned : ℤ) (block : TunnelDataBlockV2) : Prop where
  returns : returned = 0 ∨ returned = -1
  accepts : returned = 0 ↔ ∃ plain, SealedIn aead start before key msg plain
  delivers : ∀ plain, SealedIn aead start before key msg plain → block = plain

/-- What is sealed in a message is what the AEAD has produced by now. -/
theorem Logged.sealedIn_iff (hlogged : Logged aead start state before) (key : TunnelKey)
    (regions : Regions) (plain : TunnelDataBlockV2) :
    SealedIn aead start before key regions.bytes plain ↔
      aead.produced state (boxOf key regions plain) := by
  rw [hlogged key regions plain, SealedIn]
  refine or_congr_left ⟨?_, fun hproduced => ⟨regions, rfl, hproduced⟩⟩
  rintro ⟨other, hbytes, hproduced⟩
  rwa [Regions.bytes_injective hbytes]

/-- An encryption is one more that is logged. -/
theorem Logged.encrypt (hlogged : Logged aead start state before) (key : TunnelKey)
    (block : TunnelDataBlockV2) (msg : List.Vector Byte tdmV2Size) :
    ∃ state' msg', runCall aead (.encrypt key block msg) state =
        .ok (state', .encrypted key block msg') ∧
      Logged aead start state' (before ++ [.encrypted key block msg']) := by
  obtain ⟨regions, hregions⟩ := exists_regions msg.toList_length
  rcases hencrypt : aead.encrypt state key regions.nonce regions.tunid block with
    ⟨state', cipher, mac⟩
  refine ⟨state', { regions with mac := mac, cipher := cipher }.bytes, ?_, ?_⟩
  · rw [runCall, ← hregions, i2pTunnelV2Encrypt_bytes hencrypt, ok_bind]
  · intro other regions' plain
    have hproduced := aead.produced_encrypt _ _ _ _ _ _ _ _ hencrypt (boxOf other regions' plain)
    rw [hproduced, hlogged other regions' plain, List.mem_append, List.mem_singleton,
      encrypted_eq_iff, or_comm, or_assoc]
    rfl

/-- A decryption is logged as what it has returned, and that is authentic. -/
theorem Logged.decrypt (hlogged : Logged aead start state before) (key : TunnelKey)
    (msg : List.Vector Byte tdmV2Size) (block : TunnelDataBlockV2) :
    ∃ returned block', runCall aead (.decrypt key msg block) state =
        .ok (state, .decrypted key msg.toList returned block') ∧
      Logged aead start state (before ++ [.decrypted key msg.toList returned block']) ∧
      Authentic aead start before key msg.toList returned block' := by
  obtain ⟨regions, hregions⟩ := exists_regions msg.toList_length
  rw [← hregions]
  obtain ⟨hreturned, hiff⟩ := @decrypt_returned _ _ _ _ _ _ _ aead state key regions.nonce
    regions.tunid regions.cipher regions.mac block
  rcases hdecrypt : aead.decrypt state key regions.nonce regions.tunid regions.cipher regions.mac
    block with ⟨returned, block'⟩
  rw [hdecrypt] at hreturned hiff
  refine ⟨returned, block', ?_, ?_, hreturned, ?_, ?_⟩
  · rw [runCall, ← hregions, i2pTunnelV2Decrypt_bytes, hdecrypt, ok_bind]
  · intro other regions' plain
    rw [hlogged other regions' plain, List.mem_append, List.mem_singleton]
    simp
  · rw [hiff]
    exact exists_congr fun plain => (hlogged.sealedIn_iff key regions plain).symm
  · intro plain hsealed
    have hproduced := (hlogged.sealedIn_iff key regions plain).mp hsealed
    have hsame := hdecrypt.symm.trans (aead.decrypt_of_produced state _ block hproduced)
    exact (Prod.mk.inj hsame).2

end Produced

/-! ## Whole runs -/

section Runs

variable {State : Type} {aead : ChaCha20Poly1305 State} {start state : State}

/-- Every decryption among the events is authentic, behind what was before it. -/
def AllAuthentic (aead : ChaCha20Poly1305 State) (start : State) (first events : List TunnelEvent) :
    Prop :=
  ∀ before key msg returned block after,
    events = before ++ .decrypted key msg returned block :: after →
      Authentic aead start (first ++ before) key msg returned block

theorem AllAuthentic.cons {first events : List TunnelEvent} {event : TunnelEvent}
    (hevent : ∀ key msg returned block, event = .decrypted key msg returned block →
      Authentic aead start first key msg returned block)
    (hevents : AllAuthentic aead start (first ++ [event]) events) :
    AllAuthentic aead start first (event :: events) := by
  intro before key msg returned block after heq
  cases before with
  | nil =>
      obtain ⟨rfl, _⟩ := List.cons.inj heq
      rw [List.append_nil]
      exact hevent key msg returned block rfl
  | cons head before =>
      obtain ⟨rfl, htail⟩ := List.cons.inj heq
      have hauthentic := hevents before key msg returned block after htail
      rwa [List.append_assoc, List.singleton_append] at hauthentic

theorem exists_runCalls {first : List TunnelEvent} (hlogged : Logged aead start state first)
    (calls : List TunnelCall) :
    ∃ state' events, runCalls aead calls state = .ok (state', events) ∧
      Logged aead start state' (first ++ events) ∧ AllAuthentic aead start first events := by
  induction calls generalizing state first with
  | nil =>
      refine ⟨state, [], rfl, by rwa [List.append_nil], ?_⟩
      intro before key msg returned block after heq
      cases before <;> cases heq
  | cons call calls ih =>
      have hstep : ∃ state' event, runCall aead call state = .ok (state', event) ∧
          Logged aead start state' (first ++ [event]) ∧
          ∀ key msg returned block, event = .decrypted key msg returned block →
            Authentic aead start first key msg returned block := by
        cases call with
        | encrypt key block msg =>
            obtain ⟨state', msg', hrun, hlogged'⟩ := hlogged.encrypt key block msg
            exact ⟨state', _, hrun, hlogged', fun _ _ _ _ heq => by cases heq⟩
        | decrypt key msg block =>
            obtain ⟨returned, block', hrun, hlogged', hauthentic⟩ := hlogged.decrypt key msg block
            refine ⟨state, _, hrun, hlogged', fun _ _ _ _ heq => ?_⟩
            cases heq
            exact hauthentic
      obtain ⟨next, event, hrun, hlogged', hevent⟩ := hstep
      obtain ⟨state', events, hruns, hend, hevents⟩ := ih hlogged'
      refine ⟨state', event :: events, ?_, ?_, AllAuthentic.cons hevent hevents⟩
      · rw [runCalls, hrun, ok_bind]
        dsimp only
        rw [hruns, ok_bind]
      · rwa [List.append_assoc, List.singleton_append] at hend

/-- Every run of calls comes to its end.  A decryption in it succeeds exactly on a
message that an encryption before it has written under the same key, or that was
produced before the run; and it delivers the block that was sealed in it. -/
theorem runCalls_authentic (aead : ChaCha20Poly1305 State) (calls : List TunnelCall)
    (start : State) :
    ∃ state events, runCalls aead calls start = .ok (state, events) ∧
      ∀ before key msg returned block after,
        events = before ++ .decrypted key msg returned block :: after →
          Authentic aead start before key msg returned block := by
  obtain ⟨state, events, hrun, _, hauthentic⟩ := exists_runCalls (Logged.refl aead start) calls
  exact ⟨state, events, hrun, hauthentic⟩

end Runs

end I2pLite.ChaChaRuns
