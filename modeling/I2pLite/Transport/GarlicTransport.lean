import I2pLite.Core.CRun
import I2pLite.Core.CBytes
import I2pLite.Core.SlotTable

/-!
# The transports of the muxer

A transport is registered in the first slot without a name and found by its
name.  The table keeps the pointer to a name, and names are compared by the
strings that `text` says they point to; no call writes these strings.
-/

namespace I2pLite.GarlicTransport

open I2pLite.CRun
open I2pLite.CBytes
open I2pLite.SlotTable

section Muxer

variable {Address Sendto Impl : Type}

/-- `struct mnet_garlic_transport_impl`. -/
structure TransportImpl (Address Sendto Impl : Type) where
  impl : Option Impl
  sendto : Option Sendto
  name : Option Address

/-- A slot of zero bytes. -/
def nullImpl : TransportImpl Address Sendto Impl where
  impl := none
  sendto := none
  name := none

/-- `struct mnet_garlic_transport`; the fields `loop` and `router` are not read. -/
structure Transport (Address Sendto Impl : Type) where
  links : List (TransportImpl Address Sendto Impl)

/-- Allocated storage is zero. -/
def transportNew (maxGarlicTransports : ℕ) : Transport Address Sendto Impl where
  links := List.replicate maxGarlicTransports nullImpl

variable (text : Address → CString)

def isRegisteredLoop (name : Option Address) : List (TransportImpl Address Sendto Impl) → Run ℤ
  | [] => .ok 0
  | link :: links =>
      match link.name with
      | none => isRegisteredLoop name links
      | some linkName => do
          let name' ← deref name
          if strcmp (text linkName) (text name') = 0 then .ok 1
          else isRegisteredLoop name links

def transportImplIsRegistered (t : Transport Address Sendto Impl) (name : Option Address) :
    Run ℤ :=
  isRegisteredLoop text name t.links

/-- The loop of `mnet_garlic_transport_register`: the returned flag, and the slots. -/
def registerLoop (i : TransportImpl Address Sendto Impl) :
    List (TransportImpl Address Sendto Impl) → ℤ × List (TransportImpl Address Sendto Impl)
  | [] => (0, [])
  | link :: links =>
      match link.name with
      | none => (1, { name := i.name, sendto := i.sendto, impl := i.impl } :: links)
      | some _ => ((registerLoop i links).1, link :: (registerLoop i links).2)

def transportRegister (t : Transport Address Sendto Impl) (i : TransportImpl Address Sendto Impl) :
    Run (ℤ × Transport Address Sendto Impl) := do
  if (← transportImplIsRegistered text t i.name) ≠ 0 then .ok (0, t)
  else
    let (registered, links) := registerLoop i t.links
    .ok (registered, { links := links })

/-- The loop of `mnet_garlic_transport_deregister`. -/
def deregisterLoop (i : TransportImpl Address Sendto Impl) :
    List (TransportImpl Address Sendto Impl) → Run (List (TransportImpl Address Sendto Impl))
  | [] => .ok []
  | link :: links =>
      match link.name with
      | none => do
          let links' ← deregisterLoop i links
          .ok (link :: links')
      | some linkName => do
          let name ← deref i.name
          if strcmp (text name) (text linkName) = 0 then
            .ok ({ name := none, sendto := none, impl := none } :: links)
          else do
            let links' ← deregisterLoop i links
            .ok (link :: links')

def transportDeregister (t : Transport Address Sendto Impl)
    (i : TransportImpl Address Sendto Impl) : Run (Transport Address Sendto Impl) := do
  let links ← deregisterLoop text i t.links
  .ok { links := links }

/-! ## The table of a muxer -/

/-- The name that occupies a slot. -/
def nameOf (link : TransportImpl Address Sendto Impl) : Option CString := link.name.map text

/-- The registered names. -/
def namesOf (t : Transport Address Sendto Impl) : List CString := keysOf (nameOf text) t.links

variable {text} {t : Transport Address Sendto Impl} {i : TransportImpl Address Sendto Impl}
variable {links before after : List (TransportImpl Address Sendto Impl)}
variable {link : TransportImpl Address Sendto Impl} {name : Address}

theorem nameOf_eq_none_iff : nameOf text link = none ↔ link.name = none := Option.map_eq_none_iff

theorem nameOf_of_name (hname : link.name = some name) : nameOf text link = some (text name) := by
  rw [nameOf, hname, Option.map_some]

theorem isRegisteredLoop_eq (name : Address) (links : List (TransportImpl Address Sendto Impl)) :
    isRegisteredLoop text (some name) links =
      .ok (if text name ∈ keysOf (nameOf text) links then 1 else 0) := by
  induction links with
  | nil => rfl
  | cons link links ih =>
      cases hname : link.name with
      | none =>
          have hkeys : keysOf (nameOf text) (link :: links) = keysOf (nameOf text) links :=
            List.filterMap_cons_none (nameOf_eq_none_iff.mpr hname)
          simp only [isRegisteredLoop, hname]
          rw [ih, hkeys]
      | some linkName =>
          have hkeys : keysOf (nameOf text) (link :: links) =
              text linkName :: keysOf (nameOf text) links :=
            List.filterMap_cons_some (nameOf_of_name hname)
          simp only [isRegisteredLoop, hname, deref_some, ok_bind, strcmp_eq_zero_iff]
          rw [ih, hkeys]
          by_cases hsame : text linkName = text name
          · rw [if_pos hsame, if_pos (by simp [hsame])]
          · simp only [if_neg hsame, List.mem_cons, Ne.symm hsame, false_or]

theorem registerLoop_first (hlink : link.name = none)
    (hbefore : ∀ other ∈ before, other.name ≠ none) :
    registerLoop i (before ++ link :: after) = (1, before ++ i :: after) := by
  induction before with
  | nil => simp only [List.nil_append, registerLoop, hlink]
  | cons other before ih =>
      obtain ⟨otherName, hother⟩ := Option.ne_none_iff_exists'.mp (hbefore other (by simp))
      simp only [List.cons_append, registerLoop, hother,
        ih fun other hmem => hbefore other (by simp [hmem])]

theorem registerLoop_full (hfull : ∀ link ∈ links, link.name ≠ none) :
    registerLoop i links = (0, links) := by
  induction links with
  | nil => rfl
  | cons link links ih =>
      obtain ⟨linkName, hlink⟩ := Option.ne_none_iff_exists'.mp (hfull link (by simp))
      simp only [registerLoop, hlink, ih fun other hmem => hfull other (by simp [hmem])]

section Deregister

variable (hi : i.name = some name)
include hi

/-- A slot of another name is passed. -/
theorem deregisterLoop_cons_of_ne (hlink : nameOf text link ≠ some (text name)) :
    deregisterLoop text i (link :: links) = (do
      let links' ← deregisterLoop text i links
      .ok (link :: links')) := by
  cases hname : link.name with
  | none => simp only [deregisterLoop, hname]
  | some linkName =>
      have hne : text name ≠ text linkName := by
        intro heq
        exact hlink (by rw [nameOf_of_name hname, heq])
      simp only [deregisterLoop, hname, hi, deref_some, ok_bind, strcmp_eq_zero_iff, if_neg hne]

theorem deregisterLoop_first (hlink : nameOf text link = some (text name))
    (hbefore : ∀ other ∈ before, nameOf text other ≠ some (text name)) :
    deregisterLoop text i (before ++ link :: after) = .ok (before ++ nullImpl :: after) := by
  induction before with
  | nil =>
      obtain ⟨linkName, hname, hsame⟩ := Option.map_eq_some_iff.mp hlink
      simp only [List.nil_append, deregisterLoop, hname, hi, deref_some, ok_bind,
        strcmp_eq_zero_iff, if_pos hsame.symm]
      rfl
  | cons other before ih =>
      rw [List.cons_append, deregisterLoop_cons_of_ne hi (hbefore other (by simp)),
        ih fun other hmem => hbefore other (by simp [hmem])]
      rfl

theorem deregisterLoop_unknown (hlinks : ∀ link ∈ links, nameOf text link ≠ some (text name)) :
    deregisterLoop text i links = .ok links := by
  induction links with
  | nil => rfl
  | cons link links ih =>
      rw [deregisterLoop_cons_of_ne hi (hlinks link (by simp)),
        ih fun other hmem => hlinks other (by simp [hmem])]
      rfl

end Deregister

/-! ## One call -/

section Calls

variable (text) (t) (i) (name)

/-- A registration succeeds exactly for a new name while a slot is free, and
puts the pointers of the transport into one free slot. -/
def Registers : Prop :=
  if text name ∉ namesOf text t ∧ ∃ link ∈ t.links, link.name = none then
    ∃ before link after, t.links = before ++ link :: after ∧ link.name = none ∧
      transportRegister text t i = .ok (1, { links := before ++ i :: after })
  else transportRegister text t i = .ok (0, t)

/-- A deregistration clears the one slot of the name, and no slot where the name
is not registered. -/
def Deregisters : Prop :=
  if text name ∈ namesOf text t then
    ∃ before link after, t.links = before ++ link :: after ∧
      nameOf text link = some (text name) ∧
      transportDeregister text t i = .ok { links := before ++ nullImpl :: after } ∧
      text name ∉ keysOf (nameOf text) (before ++ nullImpl :: after)
  else transportDeregister text t i = .ok t

end Calls

theorem transportImplIsRegistered_eq (name : Address) :
    transportImplIsRegistered text t (some name) =
      .ok (if text name ∈ namesOf text t then 1 else 0) :=
  isRegisteredLoop_eq name t.links

theorem registers (hi : i.name = some name) : Registers text t i name := by
  rw [Registers]
  split_ifs with hnew
  · obtain ⟨hknown, hfree⟩ := hnew
    obtain ⟨before, link, after, hsplit, hlink, hbefore⟩ := exists_first hfree
    refine ⟨before, link, after, hsplit, hlink, ?_⟩
    rw [transportRegister, hi, transportImplIsRegistered_eq, if_neg hknown, ok_bind,
      if_neg (by simp), hsplit, registerLoop_first hlink hbefore]
  · rw [transportRegister, hi, transportImplIsRegistered_eq, ok_bind]
    by_cases hknown : text name ∈ namesOf text t
    · rw [if_pos hknown, if_pos (by decide)]
    · have hfull : ∀ link ∈ t.links, link.name ≠ none :=
        fun link hlink hname => hnew ⟨hknown, link, hlink, hname⟩
      rw [if_neg hknown, if_neg (by simp), registerLoop_full hfull]

theorem deregisters (hi : i.name = some name) (hdistinct : (namesOf text t).Nodup) :
    Deregisters text t i name := by
  rw [Deregisters]
  split_ifs with hknown
  · obtain ⟨before, link, after, hsplit, hlink, hbefore⟩ := exists_first (mem_keysOf.mp hknown)
    refine ⟨before, link, after, hsplit, hlink, ?_, ?_⟩
    · rw [transportDeregister, hsplit, deregisterLoop_first hi hlink hbefore, ok_bind]
    · rw [namesOf, hsplit] at hdistinct
      exact notMem_clear hlink rfl hdistinct
  · have hlinks : ∀ link ∈ t.links, nameOf text link ≠ some (text name) :=
      fun link hlink hname => hknown (mem_keysOf.mpr ⟨link, hlink, hname⟩)
    rw [transportDeregister, deregisterLoop_unknown hi hlinks, ok_bind]

/-! ## Sequences of calls -/

inductive Call (Address Sendto Impl : Type)
  | register (i : TransportImpl Address Sendto Impl)
  | deregister (i : TransportImpl Address Sendto Impl)

/-- The transport that a call is given. -/
def Call.transport : Call Address Sendto Impl → TransportImpl Address Sendto Impl
  | .register i => i
  | .deregister i => i

variable (text) in
def runCall (t : Transport Address Sendto Impl) :
    Call Address Sendto Impl → Run (Transport Address Sendto Impl)
  | .register i => do
      let (_, t') ← transportRegister text t i
      .ok t'
  | .deregister i => transportDeregister text t i

variable (text) in
def runCalls (t : Transport Address Sendto Impl) (calls : List (Call Address Sendto Impl)) :
    Run (Transport Address Sendto Impl) :=
  calls.foldlM (runCall text) t

/-- The slots of a new muxer stay its slots, and no name has two of them. -/
structure Inv (text : Address → CString) (maxGarlicTransports : ℕ)
    (t : Transport Address Sendto Impl) : Prop where
  slots : t.links.length = maxGarlicTransports
  distinct : (namesOf text t).Nodup

variable {maxGarlicTransports : ℕ} {call : Call Address Sendto Impl}

theorem inv_new (maxGarlicTransports : ℕ) :
    Inv text maxGarlicTransports (transportNew maxGarlicTransports :
      Transport Address Sendto Impl) where
  slots := List.length_replicate
  distinct := by
    have hnone : namesOf text (transportNew maxGarlicTransports :
        Transport Address Sendto Impl) = [] := by
      apply List.filterMap_eq_nil_iff.mpr
      intro link hlink
      rw [List.eq_of_mem_replicate hlink]
      rfl
    rw [hnone]
    exact List.nodup_nil

theorem Inv.replace (hinv : Inv text maxGarlicTransports t)
    (hsplit : t.links = before ++ link :: after)
    (hdistinct : (keysOf (nameOf text) (before ++ i :: after)).Nodup) :
    Inv text maxGarlicTransports { links := before ++ i :: after } where
  slots := by
    rw [← hinv.slots, hsplit]
    simp
  distinct := hdistinct

theorem inv_register (hinv : Inv text maxGarlicTransports t) (hi : i.name = some name) :
    ∃ registered t', transportRegister text t i = .ok (registered, t') ∧
      Inv text maxGarlicTransports t' := by
  have hspec : Registers text t i name := registers hi
  rw [Registers] at hspec
  split_ifs at hspec with hnew
  · obtain ⟨before, link, after, hsplit, hlink, hrun⟩ := hspec
    have hdistinct := hinv.distinct
    have hunknown := hnew.1
    rw [namesOf, hsplit] at hdistinct hunknown
    exact ⟨1, _, hrun, hinv.replace hsplit
      (nodup_fill (nameOf_eq_none_iff.mpr hlink) (nameOf_of_name hi) hunknown hdistinct)⟩
  · exact ⟨0, t, hspec, hinv⟩

theorem inv_deregister (hinv : Inv text maxGarlicTransports t) (hi : i.name = some name) :
    ∃ t', transportDeregister text t i = .ok t' ∧ Inv text maxGarlicTransports t' := by
  have hspec := deregisters hi hinv.distinct
  rw [Deregisters] at hspec
  split_ifs at hspec with hknown
  · obtain ⟨before, link, after, hsplit, hlink, hrun, _⟩ := hspec
    have hdistinct := hinv.distinct
    rw [namesOf, hsplit] at hdistinct
    exact ⟨_, hrun, hinv.replace hsplit (nodup_clear hlink rfl hdistinct)⟩
  · exact ⟨t, hspec, hinv⟩

theorem inv_call (hinv : Inv text maxGarlicTransports t) (hname : call.transport.name ≠ none) :
    ∃ t', runCall text t call = .ok t' ∧ Inv text maxGarlicTransports t' := by
  obtain ⟨name, hi⟩ := Option.ne_none_iff_exists'.mp hname
  cases call with
  | register i =>
      obtain ⟨registered, t', hrun, hinv'⟩ := @inv_register _ _ _ text t i _ _ hinv hi
      refine ⟨t', ?_, hinv'⟩
      rw [runCall, hrun]
      rfl
  | deregister i => exact inv_deregister hinv hi

theorem inv_calls {calls : List (Call Address Sendto Impl)}
    (hinv : Inv text maxGarlicTransports t)
    (hnames : ∀ call ∈ calls, call.transport.name ≠ none) :
    ∃ t', runCalls text t calls = .ok t' ∧ Inv text maxGarlicTransports t' := by
  induction calls generalizing t with
  | nil => exact ⟨t, rfl, hinv⟩
  | cons call calls ih =>
      obtain ⟨middle, hcall, hmiddle⟩ := inv_call hinv (hnames call (by simp))
      obtain ⟨t', hcalls, hinv'⟩ := ih hmiddle fun other hmem => hnames other (by simp [hmem])
      refine ⟨t', ?_, hinv'⟩
      rw [runCalls, List.foldlM_cons, hcall]
      exact hcalls

/-- Any calls on a new muxer lead to slots with distinct names, where every
registration and every deregistration does what it should. -/
theorem runCalls_new (text : Address → CString) (maxGarlicTransports : ℕ)
    (calls : List (Call Address Sendto Impl))
    (hnames : ∀ call ∈ calls, call.transport.name ≠ none) :
    ∃ t : Transport Address Sendto Impl,
      runCalls text (transportNew maxGarlicTransports) calls = .ok t ∧
      t.links.length = maxGarlicTransports ∧ (namesOf text t).Nodup ∧
      ∀ i name, i.name = some name → Registers text t i name ∧ Deregisters text t i name := by
  obtain ⟨t, hrun, hinv⟩ := inv_calls (inv_new maxGarlicTransports) hnames
  exact ⟨t, hrun, hinv.slots, hinv.distinct,
    fun i name hi => ⟨registers hi, deregisters hi hinv.distinct⟩⟩

/-! ## The transports as a finite map -/

/-- What a muxer is for: a transport for each registered name, and the number of
transports that it can still take. -/
structure Registry (Address Sendto Impl : Type) where
  transports : CString → Option (TransportImpl Address Sendto Impl)
  free : ℕ

def registryNew (maxGarlicTransports : ℕ) : Registry Address Sendto Impl where
  transports := fun _ => none
  free := maxGarlicTransports

def Registry.register (registry : Registry Address Sendto Impl) (string : CString)
    (i : TransportImpl Address Sendto Impl) : Registry Address Sendto Impl :=
  if registry.transports string = none ∧ registry.free ≠ 0 then
    { transports := Function.update registry.transports string (some i)
      free := registry.free - 1 }
  else registry

def Registry.deregister (registry : Registry Address Sendto Impl) (string : CString) :
    Registry Address Sendto Impl :=
  if registry.transports string = none then registry
  else
    { transports := Function.update registry.transports string none
      free := registry.free + 1 }

variable (text) in
def Registry.afterCall (registry : Registry Address Sendto Impl) :
    Call Address Sendto Impl → Registry Address Sendto Impl
  | .register i => i.name.elim registry fun name => registry.register (text name) i
  | .deregister i => i.name.elim registry fun name => registry.deregister (text name)

variable (text) in
/-- The registry that a table stands for. -/
def registryOf (t : Transport Address Sendto Impl) : Registry Address Sendto Impl where
  transports := lookup (nameOf text) t.links
  free := t.links.countP fun link => link.name.isNone

theorem registryOf_new (maxGarlicTransports : ℕ) :
    registryOf text (transportNew maxGarlicTransports : Transport Address Sendto Impl) =
      registryNew maxGarlicTransports := by
  have hlookup : lookup (nameOf text) (List.replicate maxGarlicTransports
      (nullImpl : TransportImpl Address Sendto Impl)) = fun _ => none := by
    funext string
    apply lookup_eq_none_iff.mpr
    intro hstring
    obtain ⟨link, hlink, hname⟩ := mem_keysOf.mp hstring
    rw [List.eq_of_mem_replicate hlink] at hname
    cases hname
  have hfree : (List.replicate maxGarlicTransports
      (nullImpl : TransportImpl Address Sendto Impl)).countP (fun link => link.name.isNone) =
        maxGarlicTransports := by
    rw [List.countP_replicate]
    rfl
  rw [registryOf, registryNew, transportNew, hlookup, hfree]

theorem free_ne_zero_iff :
    (registryOf text t).free ≠ 0 ↔ ∃ link ∈ t.links, link.name = none := by
  rw [registryOf, ← Nat.pos_iff_ne_zero, List.countP_pos_iff]
  simp only [Option.isNone_iff_eq_none]

theorem registryOf_register {registered : ℤ} {t' : Transport Address Sendto Impl}
    (hi : i.name = some name) (hrun : transportRegister text t i = .ok (registered, t')) :
    registryOf text t' = (registryOf text t).register (text name) i := by
  have hspec : Registers text t i name := registers hi
  rw [Registers] at hspec
  have haccepts : ((registryOf text t).transports (text name) = none ∧
      (registryOf text t).free ≠ 0) ↔
        (text name ∉ namesOf text t ∧ ∃ link ∈ t.links, link.name = none) :=
    and_congr lookup_eq_none_iff free_ne_zero_iff
  split_ifs at hspec with hnew
  · rw [Registry.register, if_pos (haccepts.mpr hnew)]
    obtain ⟨before, link, after, hsplit, hlink, hok⟩ := hspec
    obtain rfl := (ok_pair_inj (hrun.symm.trans hok)).2
    have hkey := hnew.1
    rw [namesOf, hsplit] at hkey
    have hlookup := lookup_fill (nameOf_eq_none_iff.mpr hlink) (nameOf_of_name hi) hkey
    rw [← hsplit] at hlookup
    simp only [registryOf, hlookup, hsplit, List.countP_append, List.countP_cons, hlink, hi]
    simp
  · rw [Registry.register, if_neg (haccepts.not.mpr hnew)]
    obtain rfl := (ok_pair_inj (hrun.symm.trans hspec)).2
    rfl

theorem registryOf_deregister {t' : Transport Address Sendto Impl} (hi : i.name = some name)
    (hdistinct : (namesOf text t).Nodup) (hrun : transportDeregister text t i = .ok t') :
    registryOf text t' = (registryOf text t).deregister (text name) := by
  have hspec : Deregisters text t i name := deregisters hi hdistinct
  rw [Deregisters] at hspec
  have hunknown : (registryOf text t).transports (text name) = none ↔
      text name ∉ namesOf text t := lookup_eq_none_iff
  split_ifs at hspec with hknown
  · obtain ⟨before, link, after, hsplit, hlink, hok, _⟩ := hspec
    obtain rfl := Except.ok.inj (hrun.symm.trans hok)
    rw [Registry.deregister, if_neg (hunknown.not.mpr (not_not_intro hknown))]
    rw [namesOf, hsplit] at hdistinct
    have hlookup := lookup_clear hlink (rfl : nameOf text nullImpl = none) hdistinct
    rw [← hsplit] at hlookup
    obtain ⟨linkName, hlinkName, _⟩ := Option.map_eq_some_iff.mp hlink
    simp only [registryOf, hlookup, hsplit, List.countP_append, List.countP_cons, hlinkName]
    simp [nullImpl, Nat.add_assoc]
  · obtain rfl := Except.ok.inj (hrun.symm.trans hspec)
    rw [Registry.deregister, if_pos (hunknown.mpr hknown)]

theorem registryOf_runCalls {calls : List (Call Address Sendto Impl)}
    {t' : Transport Address Sendto Impl} (hinv : Inv text maxGarlicTransports t)
    (hnames : ∀ call ∈ calls, call.transport.name ≠ none)
    (hrun : runCalls text t calls = .ok t') :
    registryOf text t' = calls.foldl (Registry.afterCall text) (registryOf text t) := by
  induction calls generalizing t with
  | nil =>
      obtain rfl := Except.ok.inj hrun
      rfl
  | cons call calls ih =>
      have hname := hnames call (by simp)
      obtain ⟨middle, hcall, hmiddle⟩ := inv_call hinv hname
      rw [runCalls, List.foldlM_cons, hcall] at hrun
      rw [List.foldl_cons, ih hmiddle (fun other hmem => hnames other (by simp [hmem])) hrun]
      congr 1
      obtain ⟨name, hi⟩ := Option.ne_none_iff_exists'.mp hname
      cases call with
      | register i =>
          obtain ⟨⟨registered, t''⟩, hregister, hok⟩ := bind_eq_ok.mp hcall
          obtain rfl := Except.ok.inj hok
          rw [Call.transport] at hi
          rw [registryOf_register hi hregister, Registry.afterCall, hi, Option.elim_some]
      | deregister i =>
          rw [Call.transport] at hi
          rw [registryOf_deregister hi hinv.distinct hcall, Registry.afterCall, hi,
            Option.elim_some]

/-- The slots are one way to keep a registry: any calls on a new muxer do to them
what they do to an empty registry. -/
theorem registryOf_runCalls_new (text : Address → CString) (maxGarlicTransports : ℕ)
    (calls : List (Call Address Sendto Impl))
    (hnames : ∀ call ∈ calls, call.transport.name ≠ none) :
    ∃ t : Transport Address Sendto Impl,
      runCalls text (transportNew maxGarlicTransports) calls = .ok t ∧
      registryOf text t =
        calls.foldl (Registry.afterCall text) (registryNew maxGarlicTransports) := by
  obtain ⟨t, hrun, _⟩ := inv_calls (inv_new maxGarlicTransports) hnames
  refine ⟨t, hrun, ?_⟩
  rw [registryOf_runCalls (inv_new maxGarlicTransports) hnames hrun, registryOf_new]

end Muxer

/-- Two names at three addresses: the hole of the first is taken by the third. -/
theorem runCalls_new_hole :
    ∃ t : Transport ℕ Unit Unit,
      runCalls (fun address => ofBuffer [UInt8.ofNat (1 + address % 2)]) (transportNew 3)
        [.register ⟨none, none, some 0⟩, .register ⟨none, none, some 1⟩,
          .deregister ⟨none, none, some 2⟩, .register ⟨none, none, some 4⟩] = .ok t ∧
      t.links.length = 3 ∧
      (namesOf (fun address => ofBuffer [UInt8.ofNat (1 + address % 2)]) t).Nodup ∧
      ∀ i name, i.name = some name →
        Registers (fun address => ofBuffer [UInt8.ofNat (1 + address % 2)]) t i name ∧
        Deregisters (fun address => ofBuffer [UInt8.ofNat (1 + address % 2)]) t i name :=
  runCalls_new _ _ _ (by simp [Call.transport])

/-- A second registration under one name, which is refused, and then the name is
free again. -/
theorem registryOf_runCalls_new_twice :
    ∃ t : Transport ℕ Unit Unit,
      runCalls (fun address => ofBuffer [UInt8.ofNat (1 + address % 2)]) (transportNew 2)
        [.register ⟨none, none, some 0⟩, .register ⟨none, none, some 2⟩,
          .deregister ⟨none, none, some 2⟩] = .ok t ∧
      registryOf (fun address => ofBuffer [UInt8.ofNat (1 + address % 2)]) t =
        [Call.register ⟨none, none, some 0⟩, .register ⟨none, none, some 2⟩,
          .deregister ⟨none, none, some 2⟩].foldl
            (Registry.afterCall fun address => ofBuffer [UInt8.ofNat (1 + address % 2)])
            (registryNew 2) :=
  registryOf_runCalls_new _ _ _ (by simp [Call.transport])

end I2pLite.GarlicTransport
