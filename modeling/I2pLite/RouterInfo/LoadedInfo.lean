import I2pLite.RouterInfo.Load

/-!
# What a router info is loaded as

Each part of a loaded router info comes from the last entry for it.  A link is
kept where it has both of its texts, which are the last ones as well, and
capabilities are lost with the dict.
-/

namespace I2pLite.LoadedInfo

open I2pLite.CRun
open I2pLite.CBytes
open I2pLite.Base64
open I2pLite.Bencoding
open I2pLite.BencodeObject
open I2pLite.Denotation
open I2pLite.Decoded
open I2pLite.Cert
open I2pLite.Identity
open I2pLite.Ri
open I2pLite.Load

/-! ## Links -/

/-- The text of an entry for a name. -/
def textOf (name : CString) (entry : Entry) : Option CString :=
  if entry.1 = name then (stringBuffer entry.2).map ofBuffer else none

/-- The text of the last entry for a name that has one. -/
def lastText (name : CString) (entries : List Entry) : Option CString :=
  entries.reverse.findSome? (textOf name)

/-- There is no link without both of its texts. -/
def linkOf (entries : List Entry) : Option IwpConfig := do
  let pubkey ← lastText pubkeyName entries
  let addr ← lastText addrName entries
  some { pubkey := some pubkey, addr := some addr }

/-- The link that the value of an entry holds, if any. -/
def linkRead (v : BencodeObj) : Option IwpConfig :=
  match entriesOf v with
  | .ok entries => linkOf entries
  | .error _ => none

theorem lastText_cons (name : CString) (entry : Entry) (entries : List Entry) :
    lastText name (entry :: entries) = (lastText name entries).or (textOf name entry) := by
  rw [lastText, List.reverse_cons, List.findSome?_append, List.findSome?_singleton, lastText]

theorem iwpConfigIterDict_eq (entry : Entry) (cfg : IwpConfig) :
    iwpConfigIterDict entry.1 entry.2 cfg = .ok {
      pubkey := (textOf pubkeyName entry).or cfg.pubkey
      addr := (textOf addrName entry).or cfg.addr } := by
  have hnames : pubkeyName ≠ addrName := by decide
  rw [iwpConfigIterDict, textOf, textOf]
  simp only [strcmp_eq_zero_iff]
  by_cases hpubkey : entry.1 = pubkeyName
  · rw [if_pos hpubkey, if_pos hpubkey, if_neg (hpubkey ▸ hnames)]
    cases stringBuffer entry.2 <;> rfl
  · rw [if_neg hpubkey, if_neg hpubkey]
    by_cases haddr : entry.1 = addrName
    · rw [if_pos haddr, if_pos haddr]
      cases stringBuffer entry.2 <;> rfl
    · rw [if_neg haddr, if_neg haddr]
      rfl

theorem foldlM_iwpConfigIterDict (entries : List Entry) (cfg : IwpConfig) :
    entries.foldlM (fun cfg entry => iwpConfigIterDict entry.1 entry.2 cfg) cfg = .ok {
      pubkey := (lastText pubkeyName entries).or cfg.pubkey
      addr := (lastText addrName entries).or cfg.addr } := by
  induction entries generalizing cfg with
  | nil => rfl
  | cons entry entries ih =>
      rw [List.foldlM_cons, iwpConfigIterDict_eq, ok_bind, ih, lastText_cons, lastText_cons,
        Option.or_assoc, Option.or_assoc]

/-- A configuration is kept where it has both texts, and is released otherwise. -/
theorem keepLink_eq (entries : List Entry) :
    keepLink (⟨lastText pubkeyName entries, lastText addrName entries⟩,
        (lastText addrName entries).isSome && (lastText pubkeyName entries).isSome) =
      .ok (linkOf entries) := by
  rw [linkOf]
  cases lastText pubkeyName entries with
  | none =>
      rw [Option.isSome_none, Bool.and_false]
      rfl
  | some pubkey => cases lastText addrName entries <;> rfl

theorem linkRead_dict {v : BencodeObj} {entries : List Entry} (hholds : DictHolds v entries) :
    linkRead v = linkOf entries := by
  rw [linkRead, entriesOf_eq hholds]

theorem linkRead_of_not_dict {v : BencodeObj} (hdict : bencodeObjIsDict v = false) :
    linkRead v = none := by
  rw [linkRead, entriesOf, iterDict_of_not_dict hdict]
  rfl

theorem processIwp_eq {v : BencodeObj} {value : BencodeValue} (hdenotes : Denotes value v)
    (ctx : RiReadCtx) :
    processIwp v ctx = .ok { ctx with ri := { ctx.ri with link := linkRead v } } := by
  have hdrop : dropLink ctx.ri.link = .ok none := by
    cases ctx.ri.link with
    | none => rfl
    | some cfg => rfl
  rw [processIwp, hdrop, ok_bind, iwpConfigLoadDict]
  cases hdict : bencodeObjIsDict v with
  | false =>
      rw [iterDict_of_not_dict hdict, linkRead_of_not_dict hdict]
      rfl
  | true =>
      obtain ⟨entries, hholds, _⟩ := exists_dictHolds hdenotes hdict
      rw [iterDict_eq hholds, foldlM_iwpConfigIterDict, iwpConfigNew, linkRead_dict hholds]
      simp only [Option.or_none, ok_bind, keepLink_eq]

/-! ## Single entries -/

section Entries

variable {ctx ctx' : RiReadCtx} {v : BencodeObj} {k : CString}

theorem exists_of_processCaps (hstep : processCaps v ctx = .ok ctx') :
    ∃ caps released,
      ctx' = { ctx with ri := { ctx.ri with caps := caps }, released := released } := by
  obtain ⟨dropped, hdrop, hrest⟩ := bind_eq_ok.mp hstep
  obtain ⟨caps, released, rfl⟩ : ∃ caps released,
      dropped = { ctx with ri := { ctx.ri with caps := caps }, released := released } := by
    rw [dropCaps] at hdrop
    split at hdrop
    · exact ⟨ctx.ri.caps, ctx.released, (Except.ok.inj hdrop).symm⟩
    · exact ⟨_, _, (Except.ok.inj hdrop).symm⟩
    · exact ⟨_, _, (Except.ok.inj hdrop).symm⟩
    · cases hdrop
  split at hrest
  · exact ⟨caps, released, (Except.ok.inj hrest).symm⟩
  · obtain ⟨buffer, _, hresult⟩ := bind_eq_ok.mp hrest
    exact ⟨_, _, (Except.ok.inj hresult).symm⟩

theorem exists_of_processIdent (hstep : processIdent v ctx = .ok ctx') :
    ∃ identity, ctx' = { ctx with ri := { ctx.ri with identity := identity } } := by
  rw [processIdent] at hstep
  split at hstep
  · exact ⟨_, (Except.ok.inj hstep).symm⟩
  · obtain ⟨_, _, hresult⟩ := bind_eq_ok.mp hstep
    exact ⟨_, (Except.ok.inj hresult).symm⟩

/-- The link that an entry sets, if it is one for a link. -/
def setsLink (entry : Entry) : Option (Option IwpConfig) :=
  if entry.1 = iwpName then some (linkRead entry.2) else none

theorem capsName_ne_iwpName : capsName ≠ iwpName := by decide

/-- The parts that no entry fills. -/
def Unfilled (ctx : RiReadCtx) : Prop := ctx.ri.data = none ∧ ctx.ri.len = 0

/-- Every entry sets one part at most, and none that `Unfilled` is about. -/
theorem parts_of_routerInfoProcess {value : BencodeValue} (hdenotes : Denotes value v)
    (hstep : routerInfoProcess k v ctx = .ok ctx') :
    (ctx'.ri.data = ctx.ri.data ∧ ctx'.ri.len = ctx.ri.len) ∧
      ctx'.ri.link = (setsLink (k, v)).getD ctx.ri.link := by
  rw [setsLink]
  by_cases hcaps : k = capsName
  · subst hcaps
    rw [routerInfoProcess_caps] at hstep
    obtain ⟨caps, released, rfl⟩ := exists_of_processCaps hstep
    rw [if_neg capsName_ne_iwpName]
    exact ⟨⟨rfl, rfl⟩, rfl⟩
  by_cases hiwp : k = iwpName
  · subst hiwp
    rw [routerInfoProcess_iwp, processIwp_eq hdenotes] at hstep
    obtain rfl := Except.ok.inj hstep
    rw [if_pos rfl]
    exact ⟨⟨rfl, rfl⟩, rfl⟩
  rw [if_neg hiwp]
  by_cases hident : k = identName
  · subst hident
    rw [routerInfoProcess_ident] at hstep
    obtain ⟨identity, rfl⟩ := exists_of_processIdent hstep
    exact ⟨⟨rfl, rfl⟩, rfl⟩
  · rw [routerInfoProcess_other hcaps hiwp hident] at hstep
    obtain rfl := Except.ok.inj hstep
    exact ⟨⟨rfl, rfl⟩, rfl⟩

end Entries

/-! ## Whole dicts -/

/-- What the value of an entry for an identity is read as, accepted or not. -/
def identityRead (v : BencodeObj) : Option MnetIdentity :=
  match readIdent v with
  | .ok (identity, _) => some identity
  | .error _ => none

/-- The value of the last entry for a link. -/
def lastLink (entries : List Entry) : Option IwpConfig :=
  (entries.reverse.findSome? setsLink).getD none

/-- There is a text of capabilities. -/
def hasCaps (entries : List Entry) : Bool :=
  entries.any fun entry => decide (entry.1 = capsName) && (bencodeObjGetstr entry.2).isSome

/-- The router info that the entries of a dict make. -/
def loadedInfo (entries : List Entry) : RouterInfo where
  data := none
  len := 0
  identity := (lastIdent entries).bind identityRead
  link := lastLink entries
  caps := if hasCaps entries then some .dangling else none

theorem caps_of_readBehind {entries : List Entry} {ctx : RiReadCtx}
    (hctx : ReadBehind entries ctx) :
    (outlive ctx.ri).caps = if hasCaps entries then some .dangling else none := by
  rcases hctx.caps with ⟨hnone, hearlier⟩ | ⟨text, htext, entry, hentry, hname, hsome⟩
  · have hcaps : hasCaps entries = false := by
      rw [hasCaps, List.any_eq_false]
      intro entry hentry
      by_cases hname : entry.1 = capsName
      · simp [hearlier entry hentry hname]
      · simp [hname]
    rw [hcaps, outlive, hnone]
    exact hnone
  · have hcaps : hasCaps entries = true := by
      refine List.any_eq_true.mpr ⟨entry, hentry, ?_⟩
      simp [hname, Option.isSome_iff_ne_none, hsome]
    rw [hcaps, outlive, htext]
    rfl

theorem identity_of_readBehind {entries : List Entry} {ctx : RiReadCtx}
    (hctx : ReadBehind entries ctx) : ctx.ri.identity = (lastIdent entries).bind identityRead := by
  cases hlast : lastIdent entries with
  | none => exact hctx.noIdent hlast
  | some v =>
      obtain ⟨identity, ret, hread, hidentity⟩ := hctx.ident v hlast
      rw [Option.bind_some, identityRead, hread, hidentity]

theorem outlive_eq (ri : RouterInfo) : outlive ri = { ri with caps := (outlive ri).caps } := by
  rw [outlive]
  split <;> rfl

/-- The router info behind a walk along the entries. -/
theorem outlive_eq_loadedInfo {entries : List Entry} {ctx : RiReadCtx}
    (hdenotes : ∀ entry ∈ entries, ∃ value, Denotes value entry.2)
    (hwalk : entries.foldlM (fun ctx entry => routerInfoProcess entry.1 entry.2 ctx) riReadCtxNew =
      .ok ctx) (hctx : ReadBehind entries ctx) :
    outlive ctx.ri = loadedInfo entries := by
  have hunfilled : Unfilled ctx := by
    refine foldlM_invariant (fun entry hentry before after hbefore hstep => ?_) hwalk ⟨rfl, rfl⟩
    obtain ⟨value, hvalue⟩ := hdenotes entry hentry
    obtain ⟨⟨hdata, hlen⟩, _⟩ := parts_of_routerInfoProcess hvalue hstep
    exact ⟨hdata.trans hbefore.1, hlen.trans hbefore.2⟩
  have hlink : ctx.ri.link = lastLink entries := by
    refine @observe_of_foldlM _ _ _ entries _ (fun ctx : RiReadCtx => ctx.ri.link) setsLink _ _
      (fun entry hentry before after hstep => ?_) hwalk
    obtain ⟨value, hvalue⟩ := hdenotes entry hentry
    exact (parts_of_routerInfoProcess hvalue hstep).2
  rw [outlive_eq, caps_of_readBehind hctx, loadedInfo, ← hlink, ← identity_of_readBehind hctx,
    ← hunfilled.1, ← hunfilled.2]

section Files

variable {File : Type} {read : File → Option BencodeObj} {f : File} {ret : ℤ} {ri : RouterInfo}

/-- A dict is loaded exactly where its entries are safe. -/
theorem routerInfoLoad_dict_iff {dict : BencodeObj} {entries : List Entry}
    (hread : read f = some dict) (hholds : DictHolds dict entries)
    (hdenotes : ∀ entry ∈ entries, ∃ value, Denotes value entry.2) :
    routerInfoLoad read routerInfoNew f = .ok (ret, ri) ↔
      ret = 1 ∧ Safe entries ∧ ri = loadedInfo entries := by
  rw [routerInfoLoad_walk hread hholds]
  rcases foldlM_routerInfoProcess hdenotes with ⟨hsafe, ctx, hwalk, hctx⟩ | ⟨hnot, hreleased⟩
  · rw [hwalk, ok_bind, hctx.released, hctx.success, outlive_eq_loadedInfo hdenotes hwalk hctx]
    constructor
    · intro hload
      obtain ⟨rfl, rfl⟩ := ok_pair_inj hload
      exact ⟨rfl, hsafe, rfl⟩
    · rintro ⟨rfl, _, rfl⟩
      rfl
  · refine iff_of_false (fun hload => ?_) fun hboth => hnot hboth.2.1
    obtain ⟨ctx, hwalk, hrest⟩ := bind_eq_ok.mp hload
    rw [hreleased ctx hwalk] at hrest
    cases hrest

theorem dict_or_not (reader : BencodeReader File) (f : File) :
    (∀ obj, reader.read f = some obj → bencodeObjIsDict obj = false) ∨
      ∃ dict entries, reader.read f = some dict ∧ DictHolds dict entries ∧
        ∀ entry ∈ entries, ∃ value, Denotes value entry.2 := by
  by_cases hdict : ∀ obj, reader.read f = some obj → bencodeObjIsDict obj = false
  · exact Or.inl hdict
  · push Not at hdict
    obtain ⟨dict, hread, hdict⟩ := hdict
    obtain ⟨value, hvalue⟩ := reader.decoded f dict hread
    obtain ⟨entries, hholds, hdenotes⟩ := exists_dictHolds hvalue (Bool.not_eq_false _ ▸ hdict)
    exact Or.inr ⟨dict, entries, hread, hholds, hdenotes⟩

/-- Where there is a dict, its entries are the only ones. -/
theorem exists_dict_iff {dict : BencodeObj} {entries : List Entry} {holds : List Entry → Prop}
    (hread : read f = some dict) (hholds : DictHolds dict entries) :
    (∃ dict entries, read f = some dict ∧ DictHolds dict entries ∧ holds entries) ↔
      holds entries := by
  constructor
  · rintro ⟨other, others, hother, hothers, hentries⟩
    obtain rfl := Option.some.inj (hread.symm.trans hother)
    rwa [dictHolds_unique hholds hothers] at hentries
  · exact fun hentries => ⟨dict, entries, hread, hholds, hentries⟩

theorem not_exists_dict {holds : List Entry → Prop}
    (hdict : ∀ obj, read f = some obj → bencodeObjIsDict obj = false) :
    ¬ ∃ dict entries, read f = some dict ∧ DictHolds dict entries ∧ holds entries := by
  rintro ⟨dict, entries, hread, hholds, _⟩
  exact absurd ((isDict_of_dictHolds hholds).symm.trans (hdict dict hread)) (by simp)

/-- A load returns exactly for what is no dict, which is rejected, and for dicts
with safe entries, whose last identity, last link and capabilities make the
router info. -/
theorem routerInfoLoad_eq_ok_iff (reader : BencodeReader File) (f : File) (ret : ℤ)
    (ri : RouterInfo) :
    routerInfoLoad reader.read routerInfoNew f = .ok (ret, ri) ↔
      (ret = 0 ∧ ri = routerInfoNew ∧
        ∀ obj, reader.read f = some obj → bencodeObjIsDict obj = false) ∨
      (ret = 1 ∧ ∃ dict entries, reader.read f = some dict ∧ DictHolds dict entries ∧
        Safe entries ∧ ri = loadedInfo entries) := by
  rcases dict_or_not reader f with hdict | ⟨dict, entries, hread, hholds, hdenotes⟩
  · rw [routerInfoLoad_of_not_dict hdict,
      or_iff_left fun hboth => not_exists_dict hdict hboth.2]
    constructor
    · intro hload
      obtain ⟨rfl, rfl⟩ := ok_pair_inj hload
      exact ⟨rfl, rfl, hdict⟩
    · rintro ⟨rfl, rfl, _⟩
      rfl
  · have hdict : ¬ ∀ obj, reader.read f = some obj → bencodeObjIsDict obj = false := by
      intro hall
      exact absurd ((isDict_of_dictHolds hholds).symm.trans (hall dict hread)) (by simp)
    rw [routerInfoLoad_dict_iff hread hholds hdenotes, or_iff_right fun hboth => hdict hboth.2.2,
      exists_dict_iff hread hholds]

end Files

/-! ## Names -/

section Names

variable {ri : RouterInfo}

theorem exists_routerInfoHash_iff {Hash : Type} (digest : List Byte → Hash) :
    (∃ hash, routerInfoHash digest ri = .ok hash) ↔
      ∃ key bytes, ri.identity = some (identityOf key (.filled bytes)) := by
  constructor
  · rintro ⟨hash, hhash⟩
    obtain ⟨identity, hidentity, hhash⟩ := bind_eq_ok.mp hhash
    obtain ⟨hashed, hhashed, _⟩ := bind_eq_ok.mp hhash
    obtain ⟨key, hkey, hhashed⟩ := bind_eq_ok.mp hhashed
    obtain ⟨cert, hcert, hhashed⟩ := bind_eq_ok.mp hhashed
    obtain ⟨bytes, hbytes, _⟩ := bind_eq_ok.mp hhashed
    refine ⟨key, bytes, (deref_eq_ok.mp hidentity).trans (congrArg some ?_)⟩
    have hfilled : cert = .filled bytes := by
      have hallocated := cert.allocated bytes (deref_eq_ok.mp hbytes)
      exact MnetCert.ext (deref_eq_ok.mp hbytes) hallocated.symm
    obtain ⟨identityCert, eddsa⟩ := identity
    obtain rfl : eddsa = some key := deref_eq_ok.mp hkey
    obtain rfl : identityCert = some cert := deref_eq_ok.mp hcert
    rw [hfilled]
    rfl
  · rintro ⟨key, bytes, hidentity⟩
    rw [routerInfoHash, hidentity]
    exact exists_mnetIdentityHash digest key bytes

/-- A router info has a name where it has a hash. -/
theorem exists_routerInfoBase64Ident_iff (digest : List Byte → List.Vector Byte 32) :
    (∃ ident, routerInfoBase64Ident digest ri = .ok ident) ↔
      ∃ key bytes, ri.identity = some (identityOf key (.filled bytes)) := by
  rw [← exists_routerInfoHash_iff digest]
  constructor
  · rintro ⟨ident, hident⟩
    obtain ⟨hash, hhash, _⟩ := bind_eq_ok.mp hident
    exact ⟨hash, hhash⟩
  · rintro ⟨hash, hhash⟩
    have hencode := @base64Encode_eq hash.toList (List.replicate 128 0) 32 128
      (by rw [hash.toList_length]) (by omega) (by rw [List.length_replicate]) (by omega)
    rw [routerInfoBase64Ident, hhash, ok_bind, hencode]
    exact ⟨_, rfl⟩

end Names

end I2pLite.LoadedInfo
