import I2pLite.Netdb.Free
import I2pLite.Netdb.Remove

/-!
# Releasing a netdb after a removal

A removal that meets its key leaves a released node linked, or it leaves the
node of the key to nobody: the first if another node follows that of the key or
none precedes it, the second if it is the last of several.  In the first case a
release of the map works on a node that has been released.
-/

namespace I2pLite.FreeRemoved

open I2pLite.CRun
open I2pLite.LinkedChain
open I2pLite.ChainedTable
open I2pLite.Releasing
open I2pLite.Hashmap
open I2pLite.FirstWins
open I2pLite.NetdbFree

section Map

variable {Ri S : Type} {map map' : NetdbHashmap Ri} {routerInfoFree : Ri → Run Unit}
variable {k : IdentHash}

/-! ## What a removal does -/

/-- The walk of a removal ends at the node of the key, and leaves the cursors
behind the nodes in front of it. -/
theorem removeLoop_split {start : Option ℕ} {cells : List ℕ} {node : Link} {prev : Option Link}
    {fuel : ℕ} {here : NetdbHashNode Ri} (routerInfoFree : Ri → Run Unit) (hlive : Live map.nodes)
    (hchain : Chain (links map.nodes) start cells) (hload : loadLink map node = .ok start)
    (hcursor : Cursor map node prev) (hfuel : cells.length < fuel)
    (hfound : (cells.filterMap (map.nodes[·]?)).find? (·.h = k) = some here) :
    ∃ before index after prev', cells = before ++ index :: after ∧
      map.nodes[index]? = some here ∧ Cursor map (linkAfter node before) prev' ∧
      loadLink map (linkAfter node before) = .ok (some index) ∧
      removeLoop routerInfoFree map k fuel node prev =
        removeAt routerInfoFree map (linkAfter node before) prev' := by
  induction cells generalizing start node prev fuel with
  | nil => cases hfound
  | cons cell cells ih =>
      obtain ⟨rfl, next, hlink, hcells⟩ := segment_cons_iff.mp hchain
      obtain ⟨first, hfirst, rfl⟩ := exists_node_of_link hlink
      obtain ⟨fuel, rfl⟩ := Nat.exists_eq_add_of_le' (show 1 ≤ fuel by omega)
      rw [List.filterMap_cons_some hfirst, List.find?_cons] at hfound
      rw [removeLoop, hload, ok_bind]
      simp only [nodeAt_of_getElem? hlive hfirst, ok_bind, netdbHashmapCmpIdent]
      by_cases hkey : first.h = k
      · simp only [hkey, decide_true, Option.some.injEq] at hfound
        subst hfound
        exact ⟨[], cell, cells, prev, rfl, hfirst, hcursor, hload, by simp [hkey, linkAfter]⟩
      · simp only [hkey, decide_false] at hfound
        obtain ⟨before, index, after, prev', rfl, hindex, hcursor', hload', hloop⟩ :=
          ih hcells (loadLink_next hlive hfirst) (.behind hload) (by simpa using hfuel) hfound
        exact ⟨cell :: before, index, after, prev', rfl, hindex, hcursor', hload',
          by simpa [hkey, linkAfter] using hloop⟩

/-- What `removeAt` leaves behind at the first node of a chain. -/
theorem removeAt_anchor {slot : Fin 128} {index : ℕ} {here : NetdbHashNode Ri} {ret : ℤ}
    (hhere : map.nodes[index]? = some here) (hslot : map.table slot = some index)
    (hcall : removeAt routerInfoFree map (.slot slot) none = .ok (ret, map')) :
    map'.table = map.table ∧ map'.nodes = map.nodes.set index (released here) := by
  obtain ⟨unlinked, hunlink, hcall⟩ := bind_eq_ok.mp hcall
  obtain rfl := Except.ok.inj hunlink
  rw [loadLink, hslot, ok_bind] at hcall
  obtain ⟨⟨freed, next⟩, hfree, hresult⟩ := bind_eq_ok.mp hcall
  obtain ⟨_, rfl⟩ := ok_pair_inj hresult
  obtain ⟨node, hnode, hrest⟩ := bind_eq_ok.mp hfree
  obtain ⟨_, _, hfreed⟩ := bind_eq_ok.mp hrest
  obtain ⟨rfl, _⟩ := ok_pair_inj hfreed
  obtain rfl := Option.some.inj (hhere.symm.trans (nodeAt_eq_ok hnode))
  exact ⟨rfl, rfl⟩

/-- The link of a node leads past the node of the key. -/
def unlinked (map : NetdbHashmap Ri) (last : ℕ) (lastNode : NetdbHashNode Ri)
    (next : Option ℕ) : List (NetdbHashNode Ri) :=
  map.nodes.set last { lastNode with next := next }

theorem links_unlinked_self {last : ℕ} {lastNode : NetdbHashNode Ri}
    (hlast : map.nodes[last]? = some lastNode) (next : Option ℕ) :
    links (unlinked map last lastNode next) last = some next := by
  rw [links, List.getElem?_map, unlinked,
    List.getElem?_set_self (List.getElem?_eq_some_iff.mp hlast).1]
  rfl

theorem links_unlinked_of_ne {last other : ℕ} {lastNode : NetdbHashNode Ri} (hne : other ≠ last)
    (next : Option ℕ) : links (unlinked map last lastNode next) other = links map.nodes other := by
  rw [links, List.getElem?_map, unlinked, List.getElem?_set_ne hne.symm, links,
    List.getElem?_map]

/-- What it leaves behind at another node: the one that follows is released. -/
theorem removeAt_behind {prev : Link} {last index : ℕ} {lastNode here : NetdbHashNode Ri} {ret : ℤ}
    (hlive : Live map.nodes) (hlast : map.nodes[last]? = some lastNode)
    (hhere : map.nodes[index]? = some here) (hnext : lastNode.next = some index)
    (hprev : loadLink map prev = .ok (some last))
    (hcall : removeAt routerInfoFree map (.next last) (some prev) = .ok (ret, map')) :
    map'.table = map.table ∧
      match here.next with
      | none => map'.nodes = unlinked map last lastNode none
      | some after => ∃ follower,
          (unlinked map last lastNode (some after))[after]? = some follower ∧
          map'.nodes = (unlinked map last lastNode (some after)).set after (released follower) := by
  have hload : loadLink map (.next last) = .ok (some index) := by
    rw [loadLink_next hlive hlast, hnext]
  obtain ⟨middle, hunlink, hcall⟩ := bind_eq_ok.mp hcall
  obtain rfl : { map with nodes := unlinked map last lastNode here.next } = middle := by
    simpa [unlinkBehind, hprev, hload, nodeAt_of_getElem? hlive hhere, storeLink, unlinked,
      nodeAt_of_getElem? hlive hlast] using hunlink
  obtain ⟨target, htarget, hcall⟩ := bind_eq_ok.mp hcall
  obtain ⟨node, hnode, hnodeNext⟩ := bind_eq_ok.mp htarget
  have hset : (unlinked map last lastNode here.next)[last]? =
      some { lastNode with next := here.next } :=
    List.getElem?_set_self (List.getElem?_eq_some_iff.mp hlast).1
  obtain rfl := Option.some.inj ((nodeAt_eq_ok hnode).symm.trans hset)
  obtain rfl := Except.ok.inj hnodeNext
  obtain ⟨⟨freed, next⟩, hfree, hresult⟩ := bind_eq_ok.mp hcall
  obtain ⟨_, rfl⟩ := ok_pair_inj hresult
  cases hafter : here.next with
  | none =>
      dsimp only at hfree
      rw [hafter] at hfree
      obtain ⟨rfl, _⟩ := ok_pair_inj hfree
      exact ⟨rfl, rfl⟩
  | some after =>
      dsimp only at hfree
      rw [hafter] at hfree
      obtain ⟨follower, hfollower, hrest⟩ := bind_eq_ok.mp hfree
      obtain ⟨_, _, hfreed⟩ := bind_eq_ok.mp hrest
      obtain ⟨rfl, _⟩ := ok_pair_inj hfreed
      exact ⟨rfl, follower, nodeAt_eq_ok hfollower, rfl⟩

/-! ## How a release ends -/

/-- Anchors and links lead to nodes. -/
structure LeadsToNodes (map : NetdbHashmap Ri) : Prop where
  anchored : ∀ slot index, map.table slot = some index → index < map.nodes.length
  linked : ∀ cell index, links map.nodes cell = some (some index) → index < map.nodes.length

theorem LeadsToNodes.congr (hleads : LeadsToNodes map) (htable : map'.table = map.table)
    (hlinks : links map'.nodes = links map.nodes) (hlength : map'.nodes.length = map.nodes.length) :
    LeadsToNodes map' where
  anchored := by
    rw [htable, hlength]
    exact hleads.anchored
  linked := by
    rw [hlinks, hlength]
    exact hleads.linked

/-- The nodes that have not been released. -/
def liveCount (map : NetdbHashmap Ri) : ℕ := map.nodes.countP fun node => !node.released

theorem liveCount_set_released {nodes : List (NetdbHashNode Ri)} {index : ℕ}
    {node : NetdbHashNode Ri} (hnode : nodes[index]? = some node) (hlive : node.released = false) :
    (nodes.set index (released node)).countP (fun node => !node.released) + 1 =
      nodes.countP fun node => !node.released := by
  obtain ⟨hlt, rfl⟩ := List.getElem?_eq_some_iff.mp hnode
  have hpos : 0 < nodes.countP fun node => !node.released :=
    List.countP_pos_iff.mpr ⟨nodes[index], List.getElem_mem hlt, by simp [hlive]⟩
  rw [List.countP_set hlt]
  simp only [hlive, released, Bool.not_false, Bool.not_true, if_true, Bool.false_eq_true, if_false]
  omega

section Ends

variable {free : Ri → S → Run S} {memory : Freeing Ri S}

/-- Where releases of router infos succeed, a node is released, or had been
released before. -/
theorem netdbHashNodeFree_cases (hfree : ∀ ri user, ∃ user', free ri user = .ok user')
    (hleads : LeadsToNodes memory.map) {index : ℕ} (hindex : index < memory.map.nodes.length) :
    netdbHashNodeFree free (some index) memory = .error .useAfterFree ∨
      ∃ memory' next, netdbHashNodeFree free (some index) memory = .ok (memory', next) ∧
        LeadsToNodes memory'.map ∧ (∀ follow, next = some follow →
          follow < memory'.map.nodes.length) ∧
        liveCount memory'.map + 1 = liveCount memory.map := by
  have hnode := List.getElem?_eq_getElem hindex
  rw [netdbHashNodeFree, nodeAt, hnode]
  cases hreleased : memory.map.nodes[index].released with
  | true =>
      dsimp only
      rw [hreleased]
      exact Or.inl rfl
  | false =>
      obtain ⟨user', huser'⟩ := hfree memory.map.nodes[index].ri memory.user
      refine Or.inr ⟨{ map := { memory.map with
        nodes := memory.map.nodes.set index (released memory.map.nodes[index]) }, user := user' },
        memory.map.nodes[index].next, ?_, ?_, fun follow hnext => ?_,
        liveCount_set_released hnode hreleased⟩
      · dsimp only
        rw [hreleased, if_neg Bool.false_ne_true, ok_bind, huser', ok_bind]
      · exact hleads.congr rfl (links_set_released hnode) List.length_set
      · rw [List.length_set]
        refine hleads.linked index follow ?_
        rw [links, List.getElem?_map, hnode, Option.map_some, hnext]

/-- A chain is released to its end, or up to a node that had been released: each
step leaves one live node less. -/
theorem freeChain_cases (hfree : ∀ ri user, ∃ user', free ri user = .ok user')
    (hleads : LeadsToNodes memory.map) {start : Option ℕ}
    (hstart : ∀ index, start = some index → index < memory.map.nodes.length) {fuel : ℕ}
    (hfuel : liveCount memory.map < fuel) :
    freeChain (netdbHashNodeFree free) fuel start memory = .error .useAfterFree ∨
      ∃ memory', freeChain (netdbHashNodeFree free) fuel start memory = .ok memory' ∧
        LeadsToNodes memory'.map ∧ liveCount memory'.map ≤ liveCount memory.map := by
  induction fuel generalizing start memory with
  | zero => exact absurd hfuel (Nat.not_lt_zero _)
  | succ fuel ih =>
      rw [freeChain]
      cases start with
      | none => exact Or.inr ⟨memory, rfl, hleads, Nat.le_refl _⟩
      | some index =>
          rcases netdbHashNodeFree_cases hfree hleads (hstart index rfl) with
            hfault | ⟨middle, next, hstep, hmiddle, hnext, hcount⟩
          · rw [hfault]
            exact Or.inl rfl
          · rw [hstep, ok_bind]
            cases next with
            | none => exact Or.inr ⟨middle, rfl, hmiddle, by omega⟩
            | some follow =>
                rcases ih hmiddle hnext (by omega) with
                  hrest | ⟨memory', hrest, hleads', hcount'⟩
                · exact Or.inl hrest
                · exact Or.inr ⟨memory', hrest, hleads', by omega⟩

/-- So are all chains, one after the other. -/
theorem freeTable_cases (hfree : ∀ ri user, ∃ user', free ri user = .ok user')
    (hleads : LeadsToNodes memory.map) {fuel : ℕ} (hfuel : liveCount memory.map < fuel)
    (slots : List (Fin 128)) :
    freeTable (netdbHashNodeFree free) (fun memory slot => memory.map.table slot) fuel slots
        memory = .error .useAfterFree ∨
      ∃ memory', freeTable (netdbHashNodeFree free) (fun memory slot => memory.map.table slot)
        fuel slots memory = .ok memory' := by
  induction slots generalizing memory with
  | nil => exact Or.inr ⟨memory, rfl⟩
  | cons slot slots ih =>
      rw [freeTable, List.foldlM_cons]
      rcases freeChain_cases hfree hleads (hleads.anchored slot) hfuel with
        hfault | ⟨middle, hchain, hmiddle, hcount⟩
      · rw [hfault]
        exact Or.inl rfl
      · rw [hchain, ok_bind]
        exact ih hmiddle (by omega)

/-- No release of a map leaves its nodes, or goes on for ever. -/
theorem netdbHashmapFree_cases (hfree : ∀ ri user, ∃ user', free ri user = .ok user')
    (hleads : LeadsToNodes map) (user : S) :
    netdbHashmapFree free map user = .error .useAfterFree ∨
      ∃ memory, netdbHashmapFree free map user = .ok memory := by
  have hmemory : LeadsToNodes (Freeing.map ⟨map, user⟩) := hleads
  exact freeTable_cases hfree hmemory (Nat.lt_succ_of_le List.countP_le_length) _

end Ends

/-! ### The map behind a removal -/

/-- The links of a chain lead to its nodes. -/
theorem isSome_link_of_chain {Cell : Type} {link : Cell → Option (Option Cell)}
    {start : Option Cell} {cells : List Cell} (hchain : Chain link start cells) :
    (∀ first, start = some first → (link first).isSome) ∧
      ∀ cell ∈ cells, ∀ next, link cell = some (some next) → (link next).isSome := by
  induction cells generalizing start with
  | nil =>
      obtain rfl := segment_nil_iff.mp hchain
      simp
  | cons cell cells ih =>
      obtain ⟨rfl, follow, hlink, hcells⟩ := segment_cons_iff.mp hchain
      obtain ⟨hfollow, hothers⟩ := ih hcells
      refine ⟨fun first hfirst => ?_, fun other hother next hnext => ?_⟩
      · rw [← Option.some.inj hfirst, hlink]
        rfl
      · rcases List.mem_cons.mp hother with rfl | hother
        · exact hfollow next (Option.some.inj (hlink.symm.trans hnext))
        · exact hothers other hother next hnext

theorem lt_length_of_isSome_link {nodes : List (NetdbHashNode Ri)} {index : ℕ}
    (hlink : (links nodes index).isSome) : index < nodes.length := by
  obtain ⟨next, hlink⟩ := Option.isSome_iff_exists.mp hlink
  obtain ⟨node, hnode, _⟩ := exists_node_of_link hlink
  exact (List.getElem?_eq_some_iff.mp hnode).1

theorem leadsToNodes_of_inv {routerInfoHash : Ri → IdentHash} (hinv : Inv routerInfoHash map) :
    LeadsToNodes map where
  anchored := fun slot index hanchor =>
    lt_length_of_isSome_link ((isSome_link_of_chain (hinv.chain slot)).1 index hanchor)
  linked := by
    intro cell index hlink
    obtain ⟨node, hnode, _⟩ := exists_node_of_link hlink
    have hmem : cell ∈ bucketOf netdbHashmapHashIdent (hashesOf map)
        (netdbHashmapHashIdent node.h) :=
      mem_bucketOf.mpr ⟨node.h, by rw [hashesOf, List.getElem?_map, hnode]; rfl, rfl⟩
    exact lt_length_of_isSome_link
      ((isSome_link_of_chain (hinv.chain _)).2 cell hmem index hlink)

/-- A node is taken out of its chain. -/
theorem leadsToNodes_unlinked {last : ℕ} {lastNode : NetdbHashNode Ri} {next : Option ℕ}
    (hleads : LeadsToNodes map) (hlast : map.nodes[last]? = some lastNode)
    (hnext : ∀ follow, next = some follow → follow < map.nodes.length)
    (htable : map'.table = map.table) (hnodes : map'.nodes = unlinked map last lastNode next) :
    LeadsToNodes map' where
  anchored := by
    rw [htable, hnodes, unlinked, List.length_set]
    exact hleads.anchored
  linked := by
    intro cell index hlink
    rw [hnodes] at hlink ⊢
    rw [unlinked, List.length_set]
    by_cases hcell : cell = last
    · subst hcell
      rw [links_unlinked_self hlast] at hlink
      exact hnext index (Option.some.inj hlink)
    · rw [links_unlinked_of_ne hcell] at hlink
      exact hleads.linked cell index hlink

/-! ## What a release finds -/

/-- A node that is released is still linked. -/
def ReleasedLinked (map : NetdbHashmap Ri) : Prop :=
  ∃ slot cells stop index node, Segment (links map.nodes) (map.table slot) cells stop ∧
    index ∈ cells ∧ map.nodes[index]? = some node ∧ node.released = true

/-- Such a node is met. -/
theorem netdbHashmapFree_ne_ok {free : Ri → S → Run S} {user : S} {memory : Freeing Ri S}
    (hlinked : ReleasedLinked map) : netdbHashmapFree free map user ≠ .ok memory := by
  intro hfree
  obtain ⟨slot, cells, stop, index, node, hsegment, hmem, hnode, hreleased⟩ := hlinked
  have hsegment' : Segment (links (Freeing.mk map user).map.nodes)
      ((Freeing.mk map user).map.table slot) cells stop := hsegment
  obtain ⟨other, hother, hlive⟩ := (frees_netdbHashNodeFree free).live_of_freeTable hfree
    (List.mem_finRange slot) hsegment' index hmem
  dsimp only at hother
  rw [hnode] at hother
  rw [← Option.some.inj hother, hreleased] at hlive
  cases hlive

/-- Behind its removal the first node of a chain is such a one: the anchor still
leads to it. -/
theorem releasedLinked_anchor {slot : Fin 128} {index : ℕ} {here : NetdbHashNode Ri} {ret : ℤ}
    (hhere : map.nodes[index]? = some here) (hslot : map.table slot = some index)
    (hcall : removeAt routerInfoFree map (.slot slot) none = .ok (ret, map')) :
    ReleasedLinked map' := by
  obtain ⟨htable, hnodes⟩ := removeAt_anchor hhere hslot hcall
  refine ⟨slot, [index], here.next, index, released here, ?_, List.mem_singleton_self _, ?_, rfl⟩
  · rw [hnodes, htable, hslot, links_set_released hhere]
    exact .cons (by rw [links, List.getElem?_map, hhere]; rfl) .nil
  · rw [hnodes, List.getElem?_set_self (List.getElem?_eq_some_iff.mp hhere).1]

theorem live_unlinked {last : ℕ} {lastNode : NetdbHashNode Ri} (hlive : Live map.nodes)
    (hlast : map.nodes[last]? = some lastNode) (next : Option ℕ) :
    Live (unlinked map last lastNode next) := by
  intro node hnode
  rcases List.mem_or_eq_of_mem_set hnode with hnode | rfl
  · exact hlive node hnode
  · exact hlive lastNode (List.mem_of_getElem? hlast)

/-- The node of the key is the last one of its chain, and not the first. -/
def LastOfSeveral (map : NetdbHashmap Ri) (k : IdentHash) : Prop :=
  ∃ before last index, bucketOf netdbHashmapHashIdent (hashesOf map) (netdbHashmapHashIdent k) =
    before ++ [last, index] ∧ (hashesOf map)[index]? = some k

/-- Releases that succeed one by one succeed one after the other. -/
theorem exists_freeInfos {free : Ri → S → Run S}
    (hfree : ∀ ri user, ∃ user', free ri user = .ok user') (nodes : List (NetdbHashNode Ri))
    (user : S) : ∃ user', freeInfos free nodes user = .ok user' := by
  induction nodes generalizing user with
  | nil => exact ⟨user, rfl⟩
  | cons node nodes ih =>
      obtain ⟨middle, hmiddle⟩ := hfree node.ri user
      obtain ⟨user', huser'⟩ := ih middle
      refine ⟨user', ?_⟩
      rw [freeInfos, List.foldlM_cons, hmiddle, ok_bind]
      exact huser'

section LastNode

variable {routerInfoHash : Ri → IdentHash} {before : List ℕ} {last index : ℕ}
variable {lastNode here : NetdbHashNode Ri}

/-- The chains without the node of the key. -/
def chainsWithout (map : NetdbHashmap Ri) (index : ℕ) (slot : Fin 128) : List ℕ :=
  (bucketOf netdbHashmapHashIdent (hashesOf map) slot).filter (· ≠ index)

theorem chain_without (hinv : Inv routerInfoHash map) (hlast : map.nodes[last]? = some lastNode)
    (hbucket : bucketOf netdbHashmapHashIdent (hashesOf map) (netdbHashmapHashIdent k) =
      before ++ [last, index]) (slot : Fin 128) :
    Chain (links (unlinked map last lastNode none)) (map.table slot)
      (chainsWithout map index slot) := by
  have hchain := hinv.chain slot
  by_cases hslot : slot = netdbHashmapHashIdent k
  · subst hslot
    have hnodup := hchain.chain_nodup
    rw [hbucket, List.append_cons] at hchain hnodup
    obtain ⟨hbefore, _, hdisjoint⟩ := List.nodup_append.mp hnodup
    have hwithout : chainsWithout map index (netdbHashmapHashIdent k) = before ++ [last] := by
      rw [chainsWithout, hbucket, List.append_cons, List.filter_append,
        List.filter_eq_self.mpr fun cell hcell => ?_]
      · simp
      · simpa using hdisjoint cell hcell index (by simp)
    obtain ⟨_, hfront, _⟩ := segment_append_iff.mp hchain
    rw [hwithout]
    refine hfront.relink (fun cell hcell => links_unlinked_of_ne ?_ none)
      (links_unlinked_self hlast none)
    rintro rfl
    rw [List.nodup_append] at hbefore
    exact hbefore.2.2 cell hcell cell (by simp) rfl
  · have hother : ∀ cell ∈ bucketOf netdbHashmapHashIdent (hashesOf map) slot,
        cell ∉ before ++ [last, index] := by
      intro cell hcell hmem
      rw [← hbucket] at hmem
      obtain ⟨key, hkey, hhash⟩ := mem_bucketOf.mp hcell
      obtain ⟨key', hkey', hhash'⟩ := mem_bucketOf.mp hmem
      obtain rfl := Option.some.inj (hkey.symm.trans hkey')
      exact hslot (hhash.symm.trans hhash')
    have hwithout : chainsWithout map index slot =
        bucketOf netdbHashmapHashIdent (hashesOf map) slot := by
      rw [chainsWithout, List.filter_eq_self]
      intro cell hcell
      rw [decide_eq_true_iff]
      rintro rfl
      exact hother cell hcell (by simp)
    rw [hwithout]
    refine hchain.congr fun cell hcell => links_unlinked_of_ne ?_ none
    rintro rfl
    exact hother cell hcell (by simp)

/-- Where nothing follows the node of the key, all chains can be released, and
that node is in none of them. -/
theorem exists_netdbHashmapFree {free : Ri → S → Run S} (hinv : Inv routerInfoHash map)
    (hlast : map.nodes[last]? = some lastNode) (hhere : map.nodes[index]? = some here)
    (hbucket : bucketOf netdbHashmapHashIdent (hashesOf map) (netdbHashmapHashIdent k) =
      before ++ [last, index])
    (htable : map'.table = map.table) (hnodes : map'.nodes = unlinked map last lastNode none)
    (hfree : ∀ ri user, ∃ user', free ri user = .ok user') (user : S) :
    ∃ memory, netdbHashmapFree free map' user = .ok memory ∧
      memory.map.nodes[index]? = some here := by
  have hcells : (List.finRange 128).flatMap (chainsWithout map index) =
      (bucketCells map).filter (· ≠ index) := by
    rw [bucketCells, List.filter_flatMap]
    rfl
  have hnodup : ((List.finRange 128).flatMap (chainsWithout map index)).Nodup := by
    rw [hcells]
    exact (nodup_flatMap_bucketOf _ _ (List.nodup_finRange 128)).filter _
  have hlength : map'.nodes.length = map.nodes.length := by
    rw [hnodes, unlinked, List.length_set]
  have hlive : ∀ cell ∈ (List.finRange 128).flatMap (chainsWithout map index),
      ∃ node, map'.nodes[cell]? = some node ∧ node.released = false := by
    intro cell hcell
    rw [hcells, List.mem_filter, (bucketCells_perm map).mem_iff, List.mem_range, ← hlength] at hcell
    refine ⟨map'.nodes[cell], List.getElem?_eq_getElem hcell.1, ?_⟩
    refine live_unlinked hinv.live hlast none _ ?_
    rw [← hnodes]
    exact List.getElem_mem hcell.1
  have hchains : ∀ slot, Chain (links map'.nodes) (map'.table slot)
      (chainsWithout map index slot) := by
    intro slot
    rw [hnodes, htable]
    exact chain_without hinv hlast hbucket slot
  have hshort : ∀ slot, (chainsWithout map index slot).length ≤ map'.nodes.length := fun slot =>
    (List.length_filter_le _ _).trans ((length_chain_le map slot).trans hlength.ge)
  have hrun := @netdbHashmapFree_of_chains _ _ free map' _ hchains hshort hnodup hlive user
  obtain ⟨user', huser'⟩ := exists_freeInfos hfree
    (((List.finRange 128).flatMap (chainsWithout map index)).filterMap (map'.nodes[·]?)) user
  rw [huser', ok_bind] at hrun
  refine ⟨_, hrun, ?_⟩
  have habsent : index ∉ (List.finRange 128).flatMap (chainsWithout map index) := by
    rw [hcells]
    simp
  have hne : last ≠ index := by
    rintro rfl
    have hchainNodup := (hinv.chain (netdbHashmapHashIdent k)).chain_nodup
    rw [hbucket, List.nodup_append] at hchainNodup
    simp at hchainNodup
  dsimp only
  rw [releasedAt, List.getElem?_mapIdx, hnodes, unlinked, List.getElem?_set_ne hne, hhere]
  simp only [Option.map_some, if_neg habsent]

end LastNode

theorem lt_length_unlinked {last follow : ℕ} {lastNode : NetdbHashNode Ri}
    {link next : Option ℕ} (hlink : links map.nodes follow = some link) :
    follow < (unlinked map last lastNode next).length := by
  obtain ⟨node, hnode, _⟩ := exists_node_of_link hlink
  rw [unlinked, List.length_set]
  exact (List.getElem?_eq_some_iff.mp hnode).1

/-- The node that follows is met behind the nodes in front of the key. -/
theorem segment_followed {start link : Option ℕ} {before after : List ℕ}
    {last index follow : ℕ} {lastNode follower : NetdbHashNode Ri}
    (hlast : map.nodes[last]? = some lastNode)
    (hchain : Chain (links map.nodes) start (before ++ [last] ++ index :: follow :: after))
    (hlink : links map.nodes follow = some link)
    (hnodes : map'.nodes =
      (unlinked map last lastNode (some follow)).set follow (released follower)) :
    Segment (links map'.nodes) start (before ++ [last] ++ [follow]) follower.next := by
  have hnodup := hchain.chain_nodup
  obtain ⟨hfrontNodup, _, hdisjoint⟩ := List.nodup_append.mp hnodup
  rw [List.nodup_append] at hfrontNodup
  have hne : ∀ cell ∈ before ++ [last], cell ≠ follow := fun cell hcell =>
    hdisjoint cell hcell follow (by simp)
  have hsame : ∀ cell, cell ≠ follow →
      links map'.nodes cell = links (unlinked map last lastNode (some follow)) cell := by
    intro cell hcell
    rw [hnodes, links, links, List.getElem?_map, List.getElem?_map,
      List.getElem?_set_ne (Ne.symm hcell)]
  obtain ⟨_, hfront, _⟩ := segment_append_iff.mp hchain
  refine segment_append_iff.mpr ⟨some follow, hfront.relink (fun cell hcell => ?_) ?_,
    .cons ?_ .nil⟩
  · rw [hsame cell (hne cell (by simp [hcell]))]
    refine links_unlinked_of_ne ?_ _
    rintro rfl
    exact hfrontNodup.2.2 cell hcell cell (by simp) rfl
  · rw [hsame last (hne last (by simp))]
    exact links_unlinked_self hlast _
  · rw [hnodes, links, List.getElem?_map, List.getElem?_set_self (lt_length_unlinked hlink)]
    rfl

/-- So is the node that follows the node of the key. -/
theorem releasedLinked_followed {slot : Fin 128} {link : Option ℕ} {before after : List ℕ}
    {last index follow : ℕ} {lastNode follower : NetdbHashNode Ri}
    (hlast : map.nodes[last]? = some lastNode)
    (hchain : Chain (links map.nodes) (map.table slot)
      (before ++ [last] ++ index :: follow :: after))
    (hlink : links map.nodes follow = some link) (htable : map'.table = map.table)
    (hnodes : map'.nodes =
      (unlinked map last lastNode (some follow)).set follow (released follower)) :
    ReleasedLinked map' := by
  refine ⟨slot, before ++ [last] ++ [follow], follower.next, follow, released follower, ?_,
    by simp, ?_, rfl⟩
  · rw [htable]
    exact segment_followed hlast hchain hlink hnodes
  · rw [hnodes]
    exact List.getElem?_set_self (lt_length_unlinked hlink)

theorem leadsToNodes_followed {link : Option ℕ} {last follow : ℕ}
    {lastNode follower : NetdbHashNode Ri} (hleads : LeadsToNodes map)
    (hlast : map.nodes[last]? = some lastNode) (hlink : links map.nodes follow = some link)
    (hfollower : (unlinked map last lastNode (some follow))[follow]? = some follower)
    (htable : map'.table = map.table)
    (hnodes : map'.nodes =
      (unlinked map last lastNode (some follow)).set follow (released follower)) :
    LeadsToNodes map' := by
  have hfollow : ∀ cell, some follow = some cell → cell < map.nodes.length := by
    rintro cell hcell
    obtain rfl := Option.some.inj hcell
    exact lt_length_of_isSome_link (by rw [hlink]; rfl)
  have hunlinked : LeadsToNodes { map with nodes := unlinked map last lastNode (some follow) } :=
    leadsToNodes_unlinked hleads hlast hfollow rfl rfl
  exact hunlinked.congr htable (by rw [hnodes, links_set_released hfollower])
    (by rw [hnodes, List.length_set])

theorem index_of_lastOfSeveral {routerInfoHash : Ri → IdentHash} {index : ℕ} {front after : List ℕ}
    (hinv : Inv routerInfoHash map) (hindex : (hashesOf map)[index]? = some k)
    (hbucket : bucketOf netdbHashmapHashIdent (hashesOf map) (netdbHashmapHashIdent k) =
      front ++ index :: after) (hlast : LastOfSeveral map k) : front ≠ [] ∧ after = [] := by
  obtain ⟨before, last, index', hbucket', hindex'⟩ := hlast
  have hlt := (List.getElem?_eq_some_iff.mp hindex).1
  obtain rfl := (List.getElem?_inj hlt hinv.distinct).mp (hindex.trans hindex'.symm)
  have hnodup := (hinv.chain (netdbHashmapHashIdent k)).chain_nodup
  have hsame := hbucket.symm.trans hbucket'
  rw [hbucket] at hnodup
  rw [List.append_cons before last [index]] at hsame
  rcases List.eq_nil_or_concat' after with rfl | ⟨after, other, rfl⟩
  · obtain ⟨rfl, _⟩ := List.append_inj' hsame rfl
    exact ⟨by simp, rfl⟩
  · -- the last of the bucket would be in it twice
    rw [← List.cons_append, ← List.append_assoc] at hsame
    obtain ⟨_, hother⟩ := List.append_inj' hsame rfl
    rw [List.singleton_inj] at hother
    subst hother
    rw [List.nodup_append, List.nodup_cons] at hnodup
    exact absurd (by simp) hnodup.2.1.1

/-- Behind another node: what follows the node of the key is released and still
linked, or else that node was the last, and has been unlinked. -/
theorem removed_behind {routerInfoHash : Ri → IdentHash} {ret : ℤ} {before after : List ℕ}
    {last index : ℕ} {lastNode here : NetdbHashNode Ri} {prev : Link}
    (hinv : Inv routerInfoHash map) (hhash : (hashesOf map)[index]? = some k)
    (hbucket : bucketOf netdbHashmapHashIdent (hashesOf map) (netdbHashmapHashIdent k) =
      before ++ [last] ++ index :: after)
    (hlastNode : map.nodes[last]? = some lastNode) (hhere : map.nodes[index]? = some here)
    (hlastNext : lastNode.next = some index) (hprev : loadLink map prev = .ok (some last))
    (hcall : removeAt routerInfoFree map (.next last) (some prev) = .ok (ret, map')) :
    (¬LastOfSeveral map k ∧ ReleasedLinked map' ∧ LeadsToNodes map') ∨
      after = [] ∧ map'.table = map.table ∧ map'.nodes = unlinked map last lastNode none := by
  have hchain := hinv.chain (netdbHashmapHashIdent k)
  rw [hbucket] at hchain
  obtain ⟨_, _, hrest⟩ := segment_append_iff.mp hchain
  obtain ⟨_, next, hlink, hafter⟩ := segment_cons_iff.mp hrest
  obtain ⟨other, hother, rfl⟩ := exists_node_of_link hlink
  obtain rfl := Option.some.inj (hhere.symm.trans hother)
  obtain ⟨htable, hnodes⟩ := removeAt_behind hinv.live hlastNode hhere hlastNext hprev hcall
  cases hhereNext : here.next with
  | none =>
      rw [hhereNext] at hnodes hafter
      exact .inr ⟨hafter.chain_unique .nil, htable, hnodes⟩
  | some follow =>
      rw [hhereNext] at hnodes hafter
      obtain ⟨follower, hfollower, hnodes⟩ := hnodes
      cases after with
      | nil => cases segment_nil_iff.mp hafter
      | cons first after =>
          obtain ⟨hfirst, _, hfirstLink, _⟩ := segment_cons_iff.mp hafter
          obtain rfl := Option.some.inj hfirst
          have hleads : LeadsToNodes map' := leadsToNodes_followed (leadsToNodes_of_inv hinv)
            hlastNode hfirstLink hfollower htable hnodes
          refine .inl ⟨fun hlast => ?_,
            releasedLinked_followed hlastNode hchain hfirstLink htable hnodes, hleads⟩
          cases (index_of_lastOfSeveral hinv hhash hbucket hlast).2

/-- What a removal that has met its key leaves to a release: a node that is both
released and linked, or the node of the key, at the end of a chain. -/
theorem removed_cases {routerInfoHash : Ri → IdentHash} {ret : ℤ} (hinv : Inv routerInfoHash map)
    (hpresent : k ∈ hashesOf map)
    (hremove : netdbHashmapRemove routerInfoFree map k = .ok (ret, map')) :
    (¬LastOfSeveral map k ∧ ReleasedLinked map' ∧ LeadsToNodes map') ∨
      LastOfSeveral map k ∧ ∃ before last index lastNode here,
        map.nodes[last]? = some lastNode ∧ map.nodes[index]? = some here ∧ here.h = k ∧
          bucketOf netdbHashmapHashIdent (hashesOf map) (netdbHashmapHashIdent k) =
            before ++ [last, index] ∧
          map'.table = map.table ∧ map'.nodes = unlinked map last lastNode none := by
  obtain ⟨here, hhere⟩ := Option.isSome_iff_exists.mp (mem_hashesOf_iff_nodeOf.mp hpresent)
  have hkey : here.h = k := by simpa using List.find?_some hhere
  have hfound := hhere
  rw [nodeOf, ← @find?_bucketOf _ _ _ _ netdbHashmapHashIdent, ← hashesOf] at hfound
  have hchain := hinv.chain (netdbHashmapHashIdent k)
  obtain ⟨before, index, after, prev, hbucket, hindex, hcursor, hload, hloop⟩ :=
    removeLoop_split routerInfoFree hinv.live hchain rfl (.anchor _)
      (Nat.lt_succ_of_le (length_chain_le map _)) hfound
  have hcall := hloop.symm.trans hremove
  rw [hbucket] at hchain
  obtain ⟨middle, hbefore, hrest⟩ := segment_append_iff.mp hchain
  obtain ⟨rfl, _⟩ := segment_cons_iff.mp hrest
  have hhash : (hashesOf map)[index]? = some k := by
    rw [hashesOf, List.getElem?_map, hindex, Option.map_some, hkey]
  rcases List.eq_nil_or_concat' before with rfl | ⟨before, last, rfl⟩
  · -- the anchor still leads to the node
    cases hcursor
    have hslot : map.table (netdbHashmapHashIdent k) = some index :=
      segment_nil_iff.mp hbefore
    obtain ⟨htable, hnodes⟩ := removeAt_anchor hindex hslot hcall
    have hleads : LeadsToNodes map' := (leadsToNodes_of_inv hinv).congr htable
      (by rw [hnodes, links_set_released hindex]) (by rw [hnodes, List.length_set])
    exact .inl ⟨fun hlast => (index_of_lastOfSeveral hinv hhash hbucket hlast).1 rfl,
      releasedLinked_anchor hindex hslot hcall, hleads⟩
  · rw [linkAfter_append] at hcursor hcall
    obtain ⟨_, _, hlastSegment⟩ := segment_append_iff.mp hbefore
    obtain ⟨rfl, next, hlastLink, hnext⟩ := segment_cons_iff.mp hlastSegment
    obtain ⟨lastNode, hlastNode, rfl⟩ := exists_node_of_link hlastLink
    cases hcursor with
    | behind hprev =>
        rcases removed_behind hinv hhash hbucket hlastNode hindex (segment_nil_iff.mp hnext) hprev
          hcall with hreleased | ⟨rfl, htable, hnodes⟩
        · exact .inl hreleased
        · rw [List.append_assoc, List.singleton_append] at hbucket
          exact .inr ⟨⟨before, last, index, hbucket, hhash⟩, before, last, index, lastNode, here,
            hlastNode, hindex, hkey, hbucket, htable, hnodes⟩

end Map

/-- After inserts and a removal that has met its key, the map can be released
exactly where the node of the key is the last of several in its chain; and then
that node keeps its storage.  Everywhere else the release works on a node that
has been released before. -/
theorem netdbHashmapFree_removed_iff {Ri S : Type} {routerInfoHash : Ri → IdentHash}
    {routerInfoFree : Ri → Run Unit} {free : Ri → S → Run S} {ris : List Ri} {k : IdentHash}
    {map map' : NetdbHashmap Ri} {ret : ℤ} (hcalls : insertCalls routerInfoHash ris = .ok map)
    (hpresent : ∃ ri ∈ ris, routerInfoHash ri = k)
    (hremove : netdbHashmapRemove routerInfoFree map k = .ok (ret, map'))
    (hfree : ∀ ri user, ∃ user', free ri user = .ok user') (user : S) :
    ((∃ memory, netdbHashmapFree free map' user = .ok memory) ↔ LastOfSeveral map k) ∧
      (¬LastOfSeveral map k → netdbHashmapFree free map' user = .error .useAfterFree) ∧
      ∀ memory, netdbHashmapFree free map' user = .ok memory →
        ∃ node ∈ memory.map.nodes, node.h = k ∧ node.released = false := by
  obtain ⟨built, hbuiltCalls, hbuilt⟩ := exists_built routerInfoHash ris
  obtain rfl := Except.ok.inj (hcalls.symm.trans hbuiltCalls)
  have hinv := hbuilt.inv
  rcases removed_cases hinv (hbuilt.mem_hashesOf_iff.mpr hpresent) hremove with
    ⟨hnot, hlinked, hleads⟩ |
    ⟨hlast, before, last, index, lastNode, here, hlastNode, hhere, hkey, hbucket, htable, hnodes⟩
  · have hne : ∀ memory, netdbHashmapFree free map' user ≠ .ok memory := fun memory =>
      netdbHashmapFree_ne_ok hlinked
    refine ⟨iff_of_false (fun ⟨memory, hmemory⟩ => hne memory hmemory) hnot, fun _ => ?_,
      fun memory hmemory => absurd hmemory (hne memory)⟩
    exact (netdbHashmapFree_cases hfree hleads user).resolve_right fun ⟨memory, hmemory⟩ =>
      hne memory hmemory
  · obtain ⟨left, hleft, hkept⟩ := exists_netdbHashmapFree hinv hlastNode hhere hbucket htable
      hnodes hfree user
    refine ⟨iff_of_true ⟨left, hleft⟩ hlast, fun hnot => absurd hlast hnot,
      fun memory hmemory => ?_⟩
    obtain rfl := Except.ok.inj (hleft.symm.trans hmemory)
    exact ⟨here, List.mem_of_getElem? hkept, hkey, hinv.live _ (List.mem_of_getElem? hhere)⟩

def zeros : IdentHash := List.Vector.replicate 32 0

/-- A hash in the bucket of `zeros`. -/
def zerosThenOne : IdentHash :=
  ⟨List.replicate 31 0 ++ [1], by rw [List.length_append, List.length_replicate]; rfl⟩

/-- Either of two nodes in a chain is removed. -/
theorem netdbHashmapFree_removed_iff_zeros :
    netdbHashmapHashIdent zeros = netdbHashmapHashIdent zerosThenOne ∧
      ∀ k ∈ [zeros, zerosThenOne], ∃ map ret map',
        insertCalls id [zeros, zerosThenOne] = .ok map ∧
        netdbHashmapRemove (fun _ => .ok ()) map k = .ok (ret, map') ∧
        ((∃ memory, netdbHashmapFree (fun _ user => .ok user) map' () = .ok memory) ↔
          LastOfSeveral map k) := by
  have hruns : ∀ k ∈ [zeros, zerosThenOne], ∃ map ret map',
      insertCalls id [zeros, zerosThenOne] = .ok map ∧
        netdbHashmapRemove (fun _ => .ok ()) map k = .ok (ret, map') := by
    intro k hk
    rcases List.mem_pair.mp hk with rfl | rfl
    · exact ⟨_, _, _, rfl, rfl⟩
    · exact ⟨_, _, _, rfl, rfl⟩
  refine ⟨by decide, fun k hk => ?_⟩
  obtain ⟨map, ret, map', hcalls, hremove⟩ := hruns k hk
  exact ⟨map, ret, map', hcalls, hremove, (netdbHashmapFree_removed_iff hcalls
    ⟨k, hk, rfl⟩ hremove (fun _ user => ⟨user, rfl⟩) ()).1⟩

end I2pLite.FreeRemoved
