import I2pLite.Identity.IdentTexts
import I2pLite.RouterInfo.Ri

/-!
# What a router info is loaded from

A dict is walked without a fault where its capabilities are no empty string and
occur once, and where its identities are decoded without a fault.  The identity
that stays is that of the last entry for one.
-/

namespace I2pLite.Load

open I2pLite.CRun
open I2pLite.CBytes
open I2pLite.Memory
open I2pLite.Bencoding
open I2pLite.BencodeObject
open I2pLite.Denotation
open I2pLite.Decoded
open I2pLite.Cert
open I2pLite.Identity
open I2pLite.IdentTexts
open I2pLite.Ri

abbrev Entry := CString × BencodeObj

/-! ## Identities -/

/-- What the value of an entry for an identity is read as, and whether it is
one. -/
def readIdent (v : BencodeObj) : Run (MnetIdentity × ℤ) :=
  match stringBuffer v with
  | none => .ok (mnetIdentityNew, 0)
  | some str => mnetIdentityFromBase64 mnetIdentityNew (ofBuffer str)

theorem exists_readIdent_iff {v : BencodeObj} :
    (∃ result, readIdent v = .ok result) ↔
      ∀ str, stringBuffer v = some str → Readable (ofBuffer str) := by
  rw [readIdent]
  cases stringBuffer v with
  | none => exact iff_of_true ⟨_, rfl⟩ (by simp)
  | some str =>
      dsimp only
      rw [exists_mnetIdentityFromBase64_iff]
      simp

theorem processIdent_eq (v : BencodeObj) (ctx : RiReadCtx) :
    processIdent v ctx = (do
      let (identity, _) ← readIdent v
      .ok { ctx with ri := { ctx.ri with identity := some identity } }) := by
  rw [processIdent, readIdent]
  cases stringBuffer v with
  | none => rfl
  | some str => rfl

section Hashes

variable {Hash : Type}

theorem exists_filled_of_mnetCertReadBuffer {c cert : MnetCert} {d : List Byte} {len : ℕ}
    {stop : Option ℕ} (hlen : 3 ≤ len) (hread : mnetCertReadBuffer c d len = .ok (cert, stop)) :
    ∃ bytes, cert = .filled bytes := by
  rw [mnetCertReadBuffer, if_neg (by omega)] at hread
  obtain ⟨value, _, hread⟩ := bind_eq_ok.mp hread
  obtain ⟨type, _, hread⟩ := bind_eq_ok.mp hread
  obtain ⟨data, _, hread⟩ := bind_eq_ok.mp hread
  split_ifs at hread
  · exact ⟨data, (ok_pair_inj hread).1.symm⟩
  · obtain ⟨body, _, hread⟩ := bind_eq_ok.mp hread
    obtain ⟨whole, _, hread⟩ := bind_eq_ok.mp hread
    exact ⟨whole, (ok_pair_inj hread).1.symm⟩
  · exact ⟨data, (ok_pair_inj hread).1.symm⟩

/-- An identity that has been filled from a buffer has both of its parts. -/
theorem exists_filled_of_mnetIdentityReadBuffer {i i' : MnetIdentity} {input : List Byte} {len : ℕ}
    {stop : Option ℕ} (hlen : 35 ≤ len)
    (hread : mnetIdentityReadBuffer i input len = .ok (i', stop)) :
    ∃ key bytes, i' = identityOf key (.filled bytes) := by
  rw [mnetIdentityReadBuffer, if_neg (by omega)] at hread
  obtain ⟨key, _, hread⟩ := bind_eq_ok.mp hread
  obtain ⟨⟨cert, stop'⟩, hcert, hread⟩ := bind_eq_ok.mp hread
  obtain ⟨bytes, rfl⟩ := exists_filled_of_mnetCertReadBuffer (by omega) hcert
  exact ⟨key, bytes, (ok_pair_inj hread).1.symm⟩

/-- What is accepted has both of its parts. -/
theorem exists_filled_of_readIdent {v : BencodeObj} {ident : MnetIdentity}
    (hread : readIdent v = .ok (ident, 1)) :
    ∃ key bytes, ident = identityOf key (.filled bytes) := by
  rw [readIdent] at hread
  split at hread
  · cases hread
  · rw [mnetIdentityFromBase64] at hread
    obtain ⟨⟨sz, data⟩, _, hread⟩ := bind_eq_ok.mp hread
    dsimp only at hread
    split_ifs at hread
    · obtain ⟨buffer, _, hread⟩ := bind_eq_ok.mp hread
      obtain ⟨⟨i', stop⟩, hbuffer, hread⟩ := bind_eq_ok.mp hread
      obtain ⟨rfl, hstop⟩ := ok_pair_inj hread
      by_cases hlen : sz < 35
      · rw [mnetIdentityReadBuffer_short hlen] at hbuffer
        obtain ⟨_, rfl⟩ := ok_pair_inj hbuffer
        cases hstop
      · exact exists_filled_of_mnetIdentityReadBuffer (by omega) hbuffer
    · cases hread

theorem exists_mnetIdentityHash (digest : List Byte → Hash) (key : EddsaPubkey)
    (bytes : List Byte) :
    ∃ hash, mnetIdentityHash digest (identityOf key (.filled bytes)) = .ok hash := by
  have hsize : (mnetCertBufferLength (.filled bytes)).toNat ≤ bytes.length := by
    rw [mnetCertBufferLength, UInt16.toNat_ofNat']
    exact Nat.mod_le _ _
  obtain ⟨data, hload, _⟩ := exists_load bytes
    (show 0 + (mnetCertBufferLength (.filled bytes)).toNat ≤ bytes.length by omega)
  have hhashed : mnetIdentityHashed (identityOf key (.filled bytes)) =
      load bytes 0 (mnetCertBufferLength (.filled bytes)).toNat >>= fun data =>
        .ok (key.toList ++ data.toList) := rfl
  rw [mnetIdentityHash, hhashed, hload]
  exact ⟨_, rfl⟩

end Hashes

/-! ## Link configurations -/

/-- The configuration of a decoded object is read without a fault. -/
theorem exists_iwpConfigLoadDict {v : BencodeObj} {value : BencodeValue}
    (hdenotes : Denotes value v) (cfg : IwpConfig) :
    ∃ result, iwpConfigLoadDict cfg v = .ok result := by
  have hwalk : ∃ cfg', iterDict v iwpConfigIterDict cfg = .ok cfg' := by
    cases hdict : bencodeObjIsDict v with
    | false => exact ⟨cfg, iterDict_of_not_dict hdict⟩
    | true =>
        obtain ⟨entries, hholds, -⟩ := exists_dictHolds hdenotes hdict
        rw [iterDict_eq hholds]
        clear hholds
        induction entries generalizing cfg with
        | nil => exact ⟨cfg, rfl⟩
        | cons entry entries ih =>
            have hstep : ∃ middle, iwpConfigIterDict entry.1 entry.2 cfg = .ok middle := by
              rw [iwpConfigIterDict]
              split_ifs
              · split <;> exact ⟨_, rfl⟩
              · split <;> exact ⟨_, rfl⟩
              · exact ⟨_, rfl⟩
            obtain ⟨middle, hvisit⟩ := hstep
            rw [List.foldlM_cons, hvisit, ok_bind]
            exact ih middle
  obtain ⟨cfg', hwalk⟩ := hwalk
  rw [iwpConfigLoadDict, hwalk]
  exact ⟨_, rfl⟩

/-- A link configuration is kept or dropped. -/
theorem exists_processIwp {v : BencodeObj} {value : BencodeValue} (hdenotes : Denotes value v)
    (ctx : RiReadCtx) :
    ∃ link, processIwp v ctx = .ok { ctx with ri := { ctx.ri with link := link } } := by
  obtain ⟨loaded, hload⟩ := exists_iwpConfigLoadDict hdenotes iwpConfigNew
  have hdrop : dropLink ctx.ri.link = .ok none := by
    cases ctx.ri.link with
    | none => rfl
    | some cfg => rfl
  obtain ⟨link, hkeep⟩ : ∃ link, keepLink loaded = .ok link := by
    rw [keepLink]
    split_ifs
    · exact ⟨_, rfl⟩
    · exact ⟨_, rfl⟩
  rw [processIwp, hdrop, ok_bind, hload, ok_bind, hkeep]
  exact ⟨link, rfl⟩

/-! ## Single entries -/

section Entries

variable {ctx ctx' : RiReadCtx} {v : BencodeObj}

theorem capsName_ne_identName : capsName ≠ identName := by decide

theorem routerInfoProcess_caps (v : BencodeObj) (ctx : RiReadCtx) :
    routerInfoProcess capsName v ctx = processCaps v ctx :=
  if_pos (strcmp_eq_zero_iff.mpr rfl)

theorem routerInfoProcess_iwp (v : BencodeObj) (ctx : RiReadCtx) :
    routerInfoProcess iwpName v ctx = processIwp v ctx := by
  have hcaps : ¬ strcmp iwpName capsName = 0 := by decide
  rw [routerInfoProcess, if_neg hcaps, if_pos (strcmp_eq_zero_iff.mpr rfl)]

theorem routerInfoProcess_ident (v : BencodeObj) (ctx : RiReadCtx) :
    routerInfoProcess identName v ctx = processIdent v ctx := by
  have hcaps : ¬ strcmp identName capsName = 0 := by decide
  have hiwp : ¬ strcmp identName iwpName = 0 := by decide
  rw [routerInfoProcess, if_neg hcaps, if_neg hiwp, if_pos (strcmp_eq_zero_iff.mpr rfl)]

theorem routerInfoProcess_other {k : CString} (hcaps : k ≠ capsName) (hiwp : k ≠ iwpName)
    (hident : k ≠ identName) (v : BencodeObj) (ctx : RiReadCtx) :
    routerInfoProcess k v ctx = .ok ctx := by
  rw [routerInfoProcess, if_neg fun hcmp => hcaps (strcmp_eq_zero_iff.mp hcmp),
    if_neg fun hcmp => hiwp (strcmp_eq_zero_iff.mp hcmp),
    if_neg fun hcmp => hident (strcmp_eq_zero_iff.mp hcmp)]

/-- A null byte is stored through the null pointer of an empty string. -/
theorem processCaps_empty (hstr : bencodeObjGetstr v = some []) :
    ∃ fault, processCaps v ctx = .error fault := by
  rw [processCaps]
  cases hdrop : dropCaps ctx with
  | error fault => exact ⟨fault, rfl⟩
  | ok dropped =>
      rw [ok_bind, hstr]
      exact ⟨.nullDeref, rfl⟩

/-- Capabilities for which no string has been kept before. -/
theorem processCaps_first (hcaps : ctx.ri.caps = none) (hstr : bencodeObjGetstr v ≠ some []) :
    bencodeObjGetstr v = none ∧ processCaps v ctx = .ok ctx ∨
      (∃ data, bencodeObjGetstr v = some data) ∧ ∃ text, processCaps v ctx =
        .ok { ctx with ri := { ctx.ri with caps := some (.shared text) } } := by
  rw [processCaps, dropCaps, hcaps]
  dsimp only
  rw [ok_bind]
  cases hget : bencodeObjGetstr v with
  | none => exact Or.inl ⟨rfl, rfl⟩
  | some data =>
      have hne : data ≠ [] := fun hnil => hstr (by rw [hget, hnil])
      refine Or.inr ⟨⟨data, rfl⟩, ofBuffer data, ?_⟩
      have hbuffer : bufferOf data = some data := if_neg hne
      dsimp only
      rw [hbuffer]
      rfl

/-- The string that was kept before is released. -/
theorem released_of_processCaps {text : CString} (hcaps : ctx.ri.caps = some (.shared text))
    (hstep : processCaps v ctx = .ok ctx') : ctx'.released = true := by
  rw [processCaps, dropCaps, hcaps] at hstep
  dsimp only at hstep
  rw [ok_bind] at hstep
  split at hstep
  · obtain rfl := Except.ok.inj hstep
    rfl
  · obtain ⟨buffer, _, hstep⟩ := bind_eq_ok.mp hstep
    obtain rfl := Except.ok.inj hstep
    rfl

theorem dropCaps_keeps_released {dropped : RiReadCtx} (hdrop : dropCaps ctx = .ok dropped)
    (hreleased : ctx.released = true) : dropped.released = true := by
  rw [dropCaps] at hdrop
  split at hdrop
  · exact Except.ok.inj hdrop ▸ hreleased
  · exact Except.ok.inj hdrop ▸ hreleased
  · exact Except.ok.inj hdrop ▸ rfl
  · cases hdrop

/-- What has been released stays so. -/
theorem routerInfoProcess_keeps_released {k : CString}
    (hstep : routerInfoProcess k v ctx = .ok ctx') (hreleased : ctx.released = true) :
    ctx'.released = true := by
  rw [routerInfoProcess] at hstep
  split_ifs at hstep
  · obtain ⟨dropped, hdrop, hstep⟩ := bind_eq_ok.mp hstep
    have hdropped := dropCaps_keeps_released hdrop hreleased
    split at hstep
    · exact Except.ok.inj hstep ▸ hdropped
    · obtain ⟨buffer, _, hstep⟩ := bind_eq_ok.mp hstep
      exact Except.ok.inj hstep ▸ hdropped
  · rw [processIwp] at hstep
    obtain ⟨_, _, hstep⟩ := bind_eq_ok.mp hstep
    obtain ⟨_, _, hstep⟩ := bind_eq_ok.mp hstep
    obtain ⟨_, _, hstep⟩ := bind_eq_ok.mp hstep
    exact Except.ok.inj hstep ▸ hreleased
  · rw [processIdent_eq] at hstep
    obtain ⟨_, _, hstep⟩ := bind_eq_ok.mp hstep
    exact Except.ok.inj hstep ▸ hreleased
  · exact Except.ok.inj hstep ▸ hreleased

end Entries

/-! ## Whole dicts -/

/-- The value of the last entry for an identity. -/
def lastIdent (entries : List Entry) : Option BencodeObj :=
  (entries.reverse.find? fun entry => entry.1 = identName).map Prod.snd

/-- No capabilities are the empty string, none follow capabilities that are a
string, and the texts of identities are readable. -/
structure Safe (entries : List Entry) : Prop where
  filled : ∀ entry ∈ entries, entry.1 = capsName → bencodeObjGetstr entry.2 ≠ some []
  once : entries.Pairwise fun earlier later =>
    earlier.1 = capsName → later.1 = capsName → bencodeObjGetstr earlier.2 = none
  texts : ∀ entry ∈ entries, entry.1 = identName →
    ∀ str, stringBuffer entry.2 = some str → Readable (ofBuffer str)

/-- An entry behind safe entries. -/
structure SafeNext (entries : List Entry) (entry : Entry) : Prop where
  filled : entry.1 = capsName → bencodeObjGetstr entry.2 ≠ some []
  first : entry.1 = capsName →
    ∀ earlier ∈ entries, earlier.1 = capsName → bencodeObjGetstr earlier.2 = none
  texts : entry.1 = identName → ∀ str, stringBuffer entry.2 = some str → Readable (ofBuffer str)

theorem safe_append_iff {entries : List Entry} {entry : Entry} :
    Safe (entries ++ [entry]) ↔ Safe entries ∧ SafeNext entries entry := by
  constructor
  · rintro ⟨hfilled, honce, htexts⟩
    rw [List.pairwise_append] at honce
    refine ⟨⟨fun other hother => hfilled other (by simp [hother]), honce.1,
      fun other hother => htexts other (by simp [hother])⟩, hfilled entry (by simp), ?_,
      htexts entry (by simp)⟩
    intro hcaps earlier hearlier hname
    exact honce.2.2 earlier hearlier entry (by simp) hname hcaps
  · rintro ⟨⟨hfilled, honce, htexts⟩, hfilled', hfirst, htexts'⟩
    refine ⟨?_, ?_, ?_⟩
    · intro other hother
      rcases List.mem_append.mp hother with hother | hother
      · exact hfilled other hother
      · rw [List.mem_singleton.mp hother]
        exact hfilled'
    · rw [List.pairwise_append]
      refine ⟨honce, List.pairwise_singleton _ _, ?_⟩
      intro earlier hearlier later hlater hname hcaps
      rw [List.mem_singleton.mp hlater] at hcaps
      exact hfirst hcaps earlier hearlier hname
    · intro other hother
      rcases List.mem_append.mp hother with hother | hother
      · exact htexts other hother
      · rw [List.mem_singleton.mp hother]
        exact htexts'

theorem lastIdent_append (entries : List Entry) (entry : Entry) :
    lastIdent (entries ++ [entry]) =
      if entry.1 = identName then some entry.2 else lastIdent entries := by
  rw [lastIdent, List.reverse_append, List.reverse_singleton, List.singleton_append,
    List.find?_cons]
  by_cases hident : entry.1 = identName
  · simp [hident]
  · simp [hident, lastIdent]

/-- The context behind safe entries. -/
structure ReadBehind (entries : List Entry) (ctx : RiReadCtx) : Prop where
  success : ctx.success = 1
  released : ctx.released = false
  caps : (ctx.ri.caps = none ∧
      ∀ entry ∈ entries, entry.1 = capsName → bencodeObjGetstr entry.2 = none) ∨
    ∃ text, ctx.ri.caps = some (.shared text) ∧
      ∃ entry ∈ entries, entry.1 = capsName ∧ bencodeObjGetstr entry.2 ≠ none
  noIdent : lastIdent entries = none → ctx.ri.identity = none
  ident : ∀ v, lastIdent entries = some v →
    ∃ identity ret, readIdent v = .ok (identity, ret) ∧ ctx.ri.identity = some identity

theorem ReadBehind.caps_step {entries : List Entry} {ctx : RiReadCtx}
    (hctx : ReadBehind entries ctx) (v : BencodeObj) :
    (SafeNext entries (capsName, v) ∧ ∃ ctx', processCaps v ctx = .ok ctx' ∧
        ReadBehind (entries ++ [(capsName, v)]) ctx') ∨
      ¬ SafeNext entries (capsName, v) ∧
        ∀ ctx', processCaps v ctx = .ok ctx' → ctx'.released = true := by
  have hlast : lastIdent (entries ++ [(capsName, v)]) = lastIdent entries := by
    rw [lastIdent_append, if_neg capsName_ne_identName]
  by_cases hstr : bencodeObjGetstr v = some []
  · obtain ⟨fault, hfault⟩ := @processCaps_empty ctx v hstr
    refine Or.inr ⟨fun hsafe => hsafe.filled rfl hstr, fun ctx' hstep => ?_⟩
    rw [hfault] at hstep
    cases hstep
  rcases hctx.caps with ⟨hnone, hearlier⟩ | ⟨text, htext, entry, hentry, hname, hsome⟩
  · have hsafe : SafeNext entries (capsName, v) :=
      ⟨fun _ => hstr, fun _ => hearlier, fun hident => absurd hident capsName_ne_identName⟩
    rcases processCaps_first hnone hstr with ⟨hget, hstep⟩ | ⟨⟨data, hget⟩, text, hstep⟩
    · refine Or.inl ⟨hsafe, ctx, hstep, hctx.success, hctx.released, Or.inl ⟨hnone, ?_⟩,
        hlast ▸ hctx.noIdent, hlast ▸ hctx.ident⟩
      intro entry hentry hname
      rcases List.mem_append.mp hentry with hentry | hentry
      · exact hearlier entry hentry hname
      · rw [List.mem_singleton.mp hentry]
        exact hget
    · refine Or.inl ⟨hsafe, _, hstep, hctx.success, hctx.released, Or.inr ⟨text, rfl, ?_⟩,
        hlast ▸ hctx.noIdent, hlast ▸ hctx.ident⟩
      exact ⟨(capsName, v), by simp, rfl, by simp [hget]⟩
  · exact Or.inr ⟨fun hsafe => hsome (hsafe.first rfl entry hentry hname),
      fun ctx' hstep => released_of_processCaps htext hstep⟩

/-- Entries other than capabilities leave those alone. -/
theorem ReadBehind.caps_append {entries : List Entry} {ctx ctx' : RiReadCtx} {entry : Entry}
    (hctx : ReadBehind entries ctx) (hname : entry.1 ≠ capsName)
    (hcaps : ctx'.ri.caps = ctx.ri.caps) :
    (ctx'.ri.caps = none ∧
        ∀ other ∈ entries ++ [entry], other.1 = capsName → bencodeObjGetstr other.2 = none) ∨
      ∃ text, ctx'.ri.caps = some (.shared text) ∧
        ∃ other ∈ entries ++ [entry], other.1 = capsName ∧ bencodeObjGetstr other.2 ≠ none := by
  rw [hcaps]
  rcases hctx.caps with ⟨hnone, hearlier⟩ | ⟨text, htext, other, hother, hcapsName⟩
  · refine Or.inl ⟨hnone, fun other hother hcapsName => ?_⟩
    rcases List.mem_append.mp hother with hother | hother
    · exact hearlier other hother hcapsName
    · rw [List.mem_singleton.mp hother] at hcapsName
      exact absurd hcapsName hname
  · exact Or.inr ⟨text, htext, other, by simp [hother], hcapsName⟩

/-- One more entry: it is safe, or a fault or a second release is to come. -/
theorem ReadBehind.step {entries : List Entry} {ctx : RiReadCtx} (hctx : ReadBehind entries ctx)
    (entry : Entry) {value : BencodeValue} (hdenotes : Denotes value entry.2) :
    (SafeNext entries entry ∧ ∃ ctx', routerInfoProcess entry.1 entry.2 ctx = .ok ctx' ∧
        ReadBehind (entries ++ [entry]) ctx') ∨
      ¬ SafeNext entries entry ∧
        ∀ ctx', routerInfoProcess entry.1 entry.2 ctx = .ok ctx' → ctx'.released = true := by
  obtain ⟨name, v⟩ := entry
  by_cases hcaps : name = capsName
  · subst hcaps
    simp only [routerInfoProcess_caps]
    exact hctx.caps_step v
  by_cases hident : name = identName
  · subst hident
    simp only [routerInfoProcess_ident, processIdent_eq]
    cases hread : readIdent v with
    | error fault =>
        refine Or.inr ⟨fun hsafe => ?_, fun ctx' hstep => by cases hstep⟩
        obtain ⟨result, hresult⟩ := exists_readIdent_iff.mpr (hsafe.texts rfl)
        rw [hread] at hresult
        cases hresult
    | ok result =>
        obtain ⟨identity, ret⟩ := result
        have hlast : lastIdent (entries ++ [(identName, v)]) = some v := by
          rw [lastIdent_append, if_pos rfl]
        refine Or.inl ⟨⟨fun hname => absurd hname hcaps, fun hname => absurd hname hcaps,
          fun _ => exists_readIdent_iff.mp ⟨_, hread⟩⟩, _, rfl, hctx.success, hctx.released,
          hctx.caps_append hcaps rfl, fun hnone => ?_, fun other hother => ?_⟩
        · rw [hlast] at hnone
          cases hnone
        · obtain rfl := Option.some.inj (hlast.symm.trans hother)
          exact ⟨identity, ret, hread, rfl⟩
  have hsafe : SafeNext entries (name, v) :=
    ⟨fun hname => absurd hname hcaps, fun hname => absurd hname hcaps,
      fun hname => absurd hname hident⟩
  have hlast : lastIdent (entries ++ [(name, v)]) = lastIdent entries := by
    rw [lastIdent_append, if_neg hident]
  by_cases hiwp : name = iwpName
  · subst hiwp
    obtain ⟨link, hstep⟩ := exists_processIwp hdenotes ctx
    refine Or.inl ⟨hsafe, _, (routerInfoProcess_iwp v ctx).trans hstep, hctx.success,
      hctx.released, hctx.caps_append hcaps rfl, ?_, ?_⟩
    · rw [hlast]
      exact hctx.noIdent
    · rw [hlast]
      exact hctx.ident
  · refine Or.inl ⟨hsafe, ctx, routerInfoProcess_other hcaps hiwp hident v ctx, hctx.success,
      hctx.released, hctx.caps_append hcaps rfl, ?_, ?_⟩
    · rw [hlast]
      exact hctx.noIdent
    · rw [hlast]
      exact hctx.ident

def riReadCtxNew : RiReadCtx := { ri := routerInfoNew, success := 1, released := false }

theorem readBehind_nil : ReadBehind [] riReadCtxNew where
  success := rfl
  released := rfl
  caps := Or.inl ⟨rfl, by simp⟩
  noIdent := fun _ => rfl
  ident := fun v hlast => by cases hlast

/-- A walk over safe entries returns; one over others faults, or has released a
string. -/
theorem foldlM_routerInfoProcess {entries : List Entry}
    (hdenotes : ∀ entry ∈ entries, ∃ value, Denotes value entry.2) :
    (Safe entries ∧ ∃ ctx, entries.foldlM (fun ctx entry =>
        routerInfoProcess entry.1 entry.2 ctx) riReadCtxNew = .ok ctx ∧ ReadBehind entries ctx) ∨
      ¬ Safe entries ∧ ∀ ctx, entries.foldlM (fun ctx entry =>
        routerInfoProcess entry.1 entry.2 ctx) riReadCtxNew = .ok ctx → ctx.released = true := by
  induction entries using List.reverseRecOn with
  | nil => exact Or.inl ⟨⟨by simp, .nil, by simp⟩, riReadCtxNew, rfl, readBehind_nil⟩
  | append_singleton entries entry ih =>
      obtain ⟨value, hvalue⟩ := hdenotes entry (by simp)
      simp only [safe_append_iff, List.foldlM_append, List.foldlM_cons, List.foldlM_nil]
      rcases ih fun other hother => hdenotes other (by simp [hother]) with
        ⟨hsafe, ctx, hwalk, hctx⟩ | ⟨hnot, hreleased⟩
      · simp only [hwalk, ok_bind]
        rcases hctx.step entry hvalue with ⟨hnext, ctx', hstep, hctx'⟩ | ⟨hnext, hfaults⟩
        · exact Or.inl ⟨⟨hsafe, hnext⟩, ctx', by rw [hstep]; rfl, hctx'⟩
        · refine Or.inr ⟨fun hboth => hnext hboth.2, fun ctx' hrest => ?_⟩
          obtain ⟨after, hstep, hend⟩ := bind_eq_ok.mp hrest
          exact Except.ok.inj hend ▸ hfaults after hstep
      · refine Or.inr ⟨fun hboth => hnot hboth.1, fun ctx' hrun => ?_⟩
        obtain ⟨ctx, hwalk, hrest⟩ := bind_eq_ok.mp hrun
        obtain ⟨after, hstep, hend⟩ := bind_eq_ok.mp hrest
        exact Except.ok.inj hend ▸ routerInfoProcess_keeps_released hstep (hreleased ctx hwalk)

/-! ## Loading -/

section Files

variable {File : Type} {read : File → Option BencodeObj} {f : File}

theorem routerInfoLoad_walk {dict : BencodeObj} {entries : List Entry}
    (hread : read f = some dict) (hholds : DictHolds dict entries) :
    routerInfoLoad read routerInfoNew f =
      entries.foldlM (fun ctx entry => routerInfoProcess entry.1 entry.2 ctx) riReadCtxNew >>=
        fun ctx => releaseDecoded ctx.released >>= fun _ => .ok (ctx.success, outlive ctx.ri) := by
  rw [routerInfoLoad_of_isDict hread (isDict_of_dictHolds hholds), ← riReadCtxNew,
    iterDict_eq hholds]

/-- The router info that a dict is loaded as. -/
theorem routerInfoLoad_dict {dict : BencodeObj} {entries : List Entry}
    (hread : read f = some dict) (hholds : DictHolds dict entries)
    (hdenotes : ∀ entry ∈ entries, ∃ value, Denotes value entry.2) :
    (Safe entries ∧ ∃ ri, routerInfoLoad read routerInfoNew f = .ok (1, ri) ∧
        (lastIdent entries = none → ri.identity = none) ∧
        ∀ v, lastIdent entries = some v →
          ∃ identity ret, readIdent v = .ok (identity, ret) ∧ ri.identity = some identity) ∨
      ¬ Safe entries ∧ ∃ fault, routerInfoLoad read routerInfoNew f = .error fault := by
  have hidentity : ∀ ri, (outlive ri).identity = ri.identity := by
    intro ri
    rw [outlive]
    split <;> rfl
  rw [routerInfoLoad_walk hread hholds]
  rcases foldlM_routerInfoProcess hdenotes with ⟨hsafe, ctx, hwalk, hctx⟩ | ⟨hnot, hreleased⟩
  · refine Or.inl ⟨hsafe, outlive ctx.ri, ?_, ?_, ?_⟩
    · rw [hwalk, ok_bind, hctx.released, hctx.success]
      rfl
    · rw [hidentity]
      exact hctx.noIdent
    · rw [hidentity]
      exact hctx.ident
  · refine Or.inr ⟨hnot, ?_⟩
    cases hwalk : entries.foldlM (fun ctx entry =>
        routerInfoProcess entry.1 entry.2 ctx) riReadCtxNew with
    | error fault => exact ⟨fault, rfl⟩
    | ok ctx =>
        rw [ok_bind, hreleased ctx hwalk]
        exact ⟨.useAfterFree, rfl⟩

theorem routerInfoLoad_of_not_dict
    (hread : ∀ obj, read f = some obj → bencodeObjIsDict obj = false) :
    routerInfoLoad read routerInfoNew f = .ok (0, routerInfoNew) := by
  cases hobj : read f with
  | none => exact routerInfoLoad_of_none hobj
  | some obj => exact routerInfoLoad_of_not_isDict hobj (hread obj hobj)

/-! ## Usable files -/

/-- The entries of a dict, in the order of the walk. -/
def entriesOf (obj : BencodeObj) : Run (List Entry) :=
  iterDict obj (fun key val entries => .ok (entries ++ [(key, val)])) []

theorem entriesOf_eq {dict : BencodeObj} {entries : List Entry} (hholds : DictHolds dict entries) :
    entriesOf dict = .ok entries :=
  iterDict_collect hholds

def acceptedIdent (v : BencodeObj) : Option MnetIdentity :=
  match readIdent v with
  | .ok (identity, ret) => if ret = 1 then some identity else none
  | .error _ => none

/-- The identity of a file that is a usable router info: a dict, whose last
entry for an identity is accepted. -/
def usableIdentity (read : File → Option BencodeObj) (f : File) : Option MnetIdentity :=
  match read f with
  | none => none
  | some obj =>
      if bencodeObjIsDict obj then
        match entriesOf obj with
        | .ok entries => (lastIdent entries).bind acceptedIdent
        | .error _ => none
      else none

/-- A usable router info with safe entries. -/
def Loadable (read : File → Option BencodeObj) (f : File) : Prop :=
  ∃ dict entries, read f = some dict ∧ DictHolds dict entries ∧ Safe entries ∧
    ∃ v identity, lastIdent entries = some v ∧ readIdent v = .ok (identity, 1)

theorem acceptedIdent_eq_some_iff {v : BencodeObj} {identity : MnetIdentity} :
    acceptedIdent v = some identity ↔ readIdent v = .ok (identity, 1) := by
  rw [acceptedIdent]
  cases hread : readIdent v with
  | error fault => simp
  | ok result =>
      obtain ⟨other, ret⟩ := result
      dsimp only
      by_cases hret : ret = 1
      · simp [hret]
      · simp [hret]

theorem usableIdentity_dict {dict : BencodeObj} {entries : List Entry} (hread : read f = some dict)
    (hholds : DictHolds dict entries) :
    usableIdentity read f = (lastIdent entries).bind acceptedIdent := by
  rw [usableIdentity, hread]
  dsimp only
  rw [if_pos (isDict_of_dictHolds hholds), entriesOf_eq hholds]

theorem denotes_of_decoded {value : BencodeValue} {dict : BencodeObj} {entries : List Entry}
    (hdenotes : Denotes value dict) (hholds : DictHolds dict entries) :
    ∀ entry ∈ entries, ∃ value, Denotes value entry.2 := by
  obtain ⟨others, hothers, hall⟩ := exists_dictHolds hdenotes (isDict_of_dictHolds hholds)
  obtain rfl := dictHolds_unique hholds hothers
  exact hall

/-- What is loaded from a loadable file has the usable identity. -/
theorem Loadable.load {reader : BencodeReader File} (hloadable : Loadable reader.read f) :
    ∃ ri key bytes, routerInfoLoad reader.read routerInfoNew f = .ok (1, ri) ∧
      ri.identity = some (identityOf key (.filled bytes)) ∧
      usableIdentity reader.read f = some (identityOf key (.filled bytes)) := by
  obtain ⟨dict, entries, hread, hholds, hsafe, v, identity, hlast, hident⟩ := hloadable
  obtain ⟨value, hvalue⟩ := reader.decoded f dict hread
  obtain ⟨key, bytes, rfl⟩ := exists_filled_of_readIdent hident
  rcases routerInfoLoad_dict hread hholds (denotes_of_decoded hvalue hholds) with
    ⟨_, ri, hload, _, hidentity⟩ | ⟨hnot, _⟩
  · obtain ⟨other, ret, hother, hri⟩ := hidentity v hlast
    obtain ⟨rfl, _⟩ := ok_pair_inj (hident.symm.trans hother)
    refine ⟨ri, key, bytes, hload, hri, ?_⟩
    rw [usableIdentity_dict hread hholds, hlast]
    exact acceptedIdent_eq_some_iff.mpr hident
  · exact absurd hsafe hnot

/-- A load rejects a file that is no dict, loads a dict of safe entries, or
faults. -/
theorem routerInfoLoad_cases (reader : BencodeReader File) (f : File) :
    routerInfoLoad reader.read routerInfoNew f = .ok (0, routerInfoNew) ∨
      (∃ dict entries ri, reader.read f = some dict ∧ DictHolds dict entries ∧ Safe entries ∧
        routerInfoLoad reader.read routerInfoNew f = .ok (1, ri)) ∨
      ∃ fault, routerInfoLoad reader.read routerInfoNew f = .error fault := by
  by_cases hdict : ∀ obj, reader.read f = some obj → bencodeObjIsDict obj = false
  · exact Or.inl (routerInfoLoad_of_not_dict hdict)
  · push Not at hdict
    obtain ⟨dict, hread, hdict⟩ := hdict
    rw [ne_eq, Bool.not_eq_false] at hdict
    obtain ⟨value, hvalue⟩ := reader.decoded f dict hread
    obtain ⟨entries, hholds, hdenotes⟩ := exists_dictHolds hvalue hdict
    rcases routerInfoLoad_dict hread hholds hdenotes with ⟨hsafe, ri, hload, _⟩ | ⟨_, hfault⟩
    · exact Or.inr (Or.inl ⟨dict, entries, ri, hread, hholds, hsafe, hload⟩)
    · exact Or.inr (Or.inr hfault)

/-- A file that is loaded has safe entries. -/
theorem exists_safe_of_load {reader : BencodeReader File} {ret : ℤ} {ri : RouterInfo}
    (hload : routerInfoLoad reader.read routerInfoNew f = .ok (ret, ri)) (hret : ret ≠ 0) :
    ∃ dict entries, reader.read f = some dict ∧ DictHolds dict entries ∧ Safe entries := by
  rcases routerInfoLoad_cases reader f with
    hzero | ⟨dict, entries, _, hread, hholds, hsafe, _⟩ | ⟨fault, hfault⟩
  · rw [hzero] at hload
    exact absurd (ok_pair_inj hload).1.symm hret
  · exact ⟨dict, entries, hread, hholds, hsafe⟩
  · rw [hfault] at hload
    cases hload

/-- What is rejected has not been filled. -/
theorem eq_new_of_load_zero {reader : BencodeReader File} {ri : RouterInfo}
    (hload : routerInfoLoad reader.read routerInfoNew f = .ok (0, ri)) : ri = routerInfoNew := by
  rcases routerInfoLoad_cases reader f with
    hzero | ⟨_, _, other, _, _, _, hone⟩ | ⟨fault, hfault⟩
  · rw [hzero] at hload
    exact (ok_pair_inj hload).2.symm
  · have hret : (0 : ℤ) = 1 := (ok_pair_inj (hload.symm.trans hone)).1
    cases hret
  · rw [hfault] at hload
    cases hload

/-- A usable file that is loaded is loadable. -/
theorem loadable_of_load {reader : BencodeReader File} {ret : ℤ} {ri : RouterInfo}
    (hload : routerInfoLoad reader.read routerInfoNew f = .ok (ret, ri)) (hret : ret ≠ 0)
    (husable : usableIdentity reader.read f ≠ none) : Loadable reader.read f := by
  obtain ⟨dict, entries, hread, hholds, hsafe⟩ := exists_safe_of_load hload hret
  obtain ⟨identity, hidentity⟩ := Option.ne_none_iff_exists'.mp husable
  rw [usableIdentity_dict hread hholds, Option.bind_eq_some_iff] at hidentity
  obtain ⟨v, hlast, haccepted⟩ := hidentity
  exact ⟨dict, entries, hread, hholds, hsafe, v, identity, hlast,
    acceptedIdent_eq_some_iff.mp haccepted⟩

end Files

end I2pLite.Load
