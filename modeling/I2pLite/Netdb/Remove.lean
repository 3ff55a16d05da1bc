import I2pLite.Netdb.FirstWins

/-!
# Removals

Where `netdb_hashmap_remove` meets the key it releases the node that `*node`
then is.  For the first node of a chain that is the node of the key, which
stays linked; for any other node the link in `*node` has been written over, and
the node of the key is never released.
-/

namespace I2pLite.Remove

open I2pLite.CRun
open I2pLite.LinkedChain
open I2pLite.ChainedTable
open I2pLite.Hashmap
open I2pLite.FirstWins

section Map

variable {Ri : Type} {map map' : NetdbHashmap Ri} {routerInfoFree : Ri → Run Unit} {k : IdentHash}

/-! ## What a removal is to do -/

def Released (map : NetdbHashmap Ri) (index : ℕ) : Prop :=
  ∃ node, map.nodes[index]? = some node ∧ node.released = true

/-- A walk from an anchor meets the node. -/
def Linked (map : NetdbHashmap Ri) (index : ℕ) : Prop :=
  ∃ slot cells stop, Segment (links map.nodes) (map.table slot) cells stop ∧ index ∈ cells

def HoldsKey (map : NetdbHashmap Ri) (k : IdentHash) (index : ℕ) : Prop :=
  ∃ node, map.nodes[index]? = some node ∧ node.h = k

/-- A lookup finds the key. -/
def Present (map : NetdbHashmap Ri) (k : IdentHash) : Prop :=
  ∃ ri, netdbHashmapGet map k = .ok (1, some ri)

/-- The map behind the removal of a key that was present: the key is gone, the
lookups of other keys are what they were, the size has dropped by one, the node
that held the key is released and no other, and no node that is still linked
has been released. -/
structure Removed (map : NetdbHashmap Ri) (k : IdentHash) (map' : NetdbHashmap Ri) : Prop where
  gone : netdbHashmapGet map' k = .ok (0, none)
  others : ∀ key, key ≠ k → netdbHashmapGet map' key = netdbHashmapGet map key
  size : netdbHashmapSize map = netdbHashmapSize map' + 1
  released : ∀ index, Released map' index ↔ Released map index ∨ HoldsKey map k index
  linked : ∀ index, Linked map' index → ¬ Released map' index

/-- A removal returns 1 exactly if the key is present, and is then as it is to
be; else it leaves the map unchanged. -/
def RemovesRightly (routerInfoFree : Ri → Run Unit) (map : NetdbHashmap Ri) (k : IdentHash) :
    Prop :=
  ∃ ret map', netdbHashmapRemove routerInfoFree map k = .ok (ret, map') ∧
    (ret = 1 ↔ Present map k) ∧ (Present map k → Removed map k map') ∧
    (¬ Present map k → ret = 0 ∧ map' = map)

/-! ## The walk to the key -/

/-- The walk ends behind the last node, or at a node with the key and the
cursors that lead there. -/
theorem removeLoop_cases {start : Option ℕ} {cells : List ℕ} {node : Link} {prev : Option Link}
    {fuel : ℕ} (routerInfoFree : Ri → Run Unit) (hlive : Live map.nodes)
    (hchain : Chain (links map.nodes) start cells) (hload : loadLink map node = .ok start)
    (hcursor : Cursor map node prev) (hfuel : cells.length < fuel) :
    ((cells.filterMap (map.nodes[·]?)).find? (·.h = k) = none ∧
        removeLoop routerInfoFree map k fuel node prev = .ok (0, map)) ∨
      ∃ index here after node' prev', map.nodes[index]? = some here ∧ here.h = k ∧
        Chain (links map.nodes) (some index) (index :: after) ∧
        loadLink map node' = .ok (some index) ∧ Cursor map node' prev' ∧
        removeLoop routerInfoFree map k fuel node prev =
          removeAt routerInfoFree map node' prev' := by
  induction cells generalizing start node prev fuel with
  | nil =>
      obtain ⟨fuel, rfl⟩ := Nat.exists_eq_add_of_le' (show 1 ≤ fuel by omega)
      rw [segment_nil_iff.mp hchain] at hload
      refine Or.inl ⟨rfl, ?_⟩
      rw [removeLoop, hload]
      rfl
  | cons cell cells ih =>
      obtain ⟨rfl, next, hlink, hcells⟩ := segment_cons_iff.mp hchain
      obtain ⟨here, hhere, rfl⟩ := exists_node_of_link hlink
      obtain ⟨fuel, rfl⟩ := Nat.exists_eq_add_of_le' (show 1 ≤ fuel by omega)
      rw [removeLoop, hload, ok_bind, List.filterMap_cons_some hhere, List.find?_cons]
      simp only [nodeAt_of_getElem? hlive hhere, ok_bind, netdbHashmapCmpIdent]
      by_cases hkey : here.h = k
      · exact Or.inr ⟨cell, here, cells, node, prev, hhere, hkey, hchain, hload, hcursor,
          by simp [hkey]⟩
      · have hrest := ih hcells (loadLink_next hlive hhere) (.behind hload) (by simpa using hfuel)
        simpa [hkey] using hrest

/-- No node leads to itself. -/
theorem next_ne_self {index : ℕ} {here : NetdbHashNode Ri} {after : List ℕ}
    (hhere : map.nodes[index]? = some here)
    (hchain : Chain (links map.nodes) (some index) (index :: after)) :
    here.next ≠ some index := by
  intro hself
  obtain ⟨_, next, hlink, hafter⟩ := segment_cons_iff.mp hchain
  have hnext : next = here.next := by simpa [links, hhere] using hlink.symm
  rw [hnext, hself] at hafter
  have hlength := congrArg List.length (hchain.chain_unique hafter)
  rw [List.length_cons] at hlength
  omega

theorem not_released_of_getElem? {index : ℕ} {here : NetdbHashNode Ri} (hlive : Live map.nodes)
    (hhere : map.nodes[index]? = some here) (hsame : map'.nodes[index]? = map.nodes[index]?) :
    ¬ Released map' index := by
  rintro ⟨node, hnode, hreleased⟩
  rw [hsame, hhere] at hnode
  obtain rfl := Option.some.inj hnode
  simp [hlive here (List.mem_of_getElem? hhere)] at hreleased

section Free

variable {S : Type} {free : Ri → S → Run S} {memory memory' : Freeing Ri S}

/-- What a release leaves alone. -/
theorem netdbHashNodeFree_eq_ok {n next : Option ℕ}
    (hfree : netdbHashNodeFree free n memory = .ok (memory', next)) :
    memory'.map.table = memory.map.table ∧
      ∀ index, n ≠ some index → memory'.map.nodes[index]? = memory.map.nodes[index]? := by
  cases n with
  | none =>
      obtain ⟨rfl, _⟩ := ok_pair_inj hfree
      exact ⟨rfl, fun _ _ => rfl⟩
  | some freed =>
      obtain ⟨node, _, hrest⟩ := bind_eq_ok.mp hfree
      obtain ⟨_, _, hresult⟩ := bind_eq_ok.mp hrest
      obtain ⟨rfl, _⟩ := ok_pair_inj hresult
      refine ⟨rfl, fun index hne => List.getElem?_set_ne fun heq => hne ?_⟩
      rw [heq]

theorem released_of_free {index : ℕ} {next : Option ℕ}
    (hfree : netdbHashNodeFree free (some index) memory = .ok (memory', next)) :
    Released memory'.map index ∧ links memory'.map.nodes index = some next := by
  obtain ⟨node, hnode, hrest⟩ := bind_eq_ok.mp hfree
  obtain ⟨_, _, hresult⟩ := bind_eq_ok.mp hrest
  obtain ⟨rfl, rfl⟩ := ok_pair_inj hresult
  have hset : (memory.map.nodes.set index (released node))[index]? = some (released node) :=
    List.getElem?_set_self (List.getElem?_eq_some_iff.mp (nodeAt_eq_ok hnode)).1
  exact ⟨⟨_, hset, rfl⟩, by rw [links, List.getElem?_map, hset]; rfl⟩

end Free

/-- The node of the key is released and still linked, or not released. -/
theorem removeAt_eq_ok {index : ℕ} {here : NetdbHashNode Ri} {after : List ℕ} {node : Link}
    {prev : Option Link} {ret : ℤ} (hlive : Live map.nodes)
    (hhere : map.nodes[index]? = some here)
    (hchain : Chain (links map.nodes) (some index) (index :: after))
    (hload : loadLink map node = .ok (some index)) (hcursor : Cursor map node prev)
    (hcall : removeAt routerInfoFree map node prev = .ok (ret, map')) :
    Linked map' index ∧ Released map' index ∨ ¬ Released map' index := by
  obtain ⟨unlinked, hunlink, hcall⟩ := bind_eq_ok.mp hcall
  obtain ⟨target, htarget, hcall⟩ := bind_eq_ok.mp hcall
  obtain ⟨⟨freed, next⟩, hfree, hresult⟩ := bind_eq_ok.mp hcall
  obtain ⟨_, rfl⟩ := ok_pair_inj hresult
  cases hcursor with
  | anchor slot =>
      -- the anchor leads to the node as before
      obtain rfl := Except.ok.inj hunlink
      obtain rfl := Except.ok.inj (htarget.symm.trans hload)
      obtain ⟨hreleased, hlink⟩ := released_of_free hfree
      have htable : freed.map.table slot = some index := by
        rw [(netdbHashNodeFree_eq_ok hfree).1]
        exact Except.ok.inj hload
      exact Or.inl ⟨⟨slot, [index], next, htable ▸ .cons hlink .nil, by simp⟩, hreleased⟩
  | @behind prev last hprev =>
      -- what is released, if anything, is the node behind it
      obtain ⟨lastNode, hlastAt, hnext⟩ := bind_eq_ok.mp hload
      have hlast := nodeAt_eq_ok hlastAt
      have hne : here.next ≠ some index := next_ne_self hhere hchain
      have hlastNe : last ≠ index := by
        rintro rfl
        obtain rfl := Option.some.inj (hhere.symm.trans hlast)
        exact hne (Except.ok.inj hnext)
      have hstore : unlinked =
          { map with nodes := map.nodes.set last { lastNode with next := here.next } } := by
        simpa [unlinkBehind, hprev, hload, nodeAt_of_getElem? hlive hhere, storeLink,
          hlastAt] using hunlink.symm
      subst hstore
      have hsetLast : (map.nodes.set last { lastNode with next := here.next })[last]? =
          some { lastNode with next := here.next } :=
        List.getElem?_set_self (List.getElem?_eq_some_iff.mp hlast).1
      obtain ⟨node, hnode, hresult⟩ := bind_eq_ok.mp htarget
      obtain rfl := Option.some.inj ((nodeAt_eq_ok hnode).symm.trans hsetLast)
      obtain rfl := Except.ok.inj hresult
      have hsame := (netdbHashNodeFree_eq_ok hfree).2 index hne
      refine Or.inr (not_released_of_getElem? hlive hhere (hsame.trans ?_))
      exact List.getElem?_set_ne hlastNe

/-! ## Removals from a map of inserts -/

variable {routerInfoHash : Ri → IdentHash}

theorem present_iff (hinv : Inv routerInfoHash map) : Present map k ↔ k ∈ hashesOf map := by
  rw [Present, mem_hashesOf_iff_nodeOf, netdbHashmapGet_eq hinv]
  cases nodeOf map k with
  | none => simp
  | some node => simp

/-- A removal is right exactly where there is nothing to remove. -/
theorem removesRightly_iff (hinv : Inv routerInfoHash map) :
    RemovesRightly routerInfoFree map k ↔ k ∉ hashesOf map := by
  have hlength := length_chain_le map (netdbHashmapHashIdent k)
  have hcases := removeLoop_cases (k := k) routerInfoFree hinv.live
    (hinv.chain (netdbHashmapHashIdent k)) rfl (.anchor _) (Nat.lt_succ_of_le hlength)
  rw [hashesOf, find?_bucketOf] at hcases
  rcases hcases with ⟨hnone, hremove⟩ | ⟨index, here, after, node, prev, hhere, hkey, hchain, hload,
      hcursor, hremove⟩
  · have habsent : k ∉ hashesOf map := by
      intro hmem
      obtain ⟨node, hnode, hh⟩ := List.mem_map.mp hmem
      simpa [hh] using List.find?_eq_none.mp hnone node hnode
    have hpresent : ¬ Present map k := fun hpresent => habsent ((present_iff hinv).mp hpresent)
    refine iff_of_true ⟨0, map, hremove, ?_, fun hmem => absurd hmem hpresent,
      fun _ => ⟨rfl, rfl⟩⟩ habsent
    exact iff_of_false (by decide) hpresent
  · have hmem : k ∈ hashesOf map :=
      List.mem_map.mpr ⟨here, List.mem_of_getElem? hhere, hkey⟩
    refine iff_of_false ?_ (not_not_intro hmem)
    rintro ⟨ret, map', hcall, _, hremoved, _⟩
    obtain ⟨_, _, _, hreleased, hlinked⟩ := hremoved ((present_iff hinv).mpr hmem)
    have hgiven : Released map' index := (hreleased index).mpr (Or.inr ⟨here, hhere, hkey⟩)
    rcases removeAt_eq_ok hinv.live hhere hchain hload hcursor (hremove.symm.trans hcall) with
      ⟨hstill, _⟩ | hkept
    · exact hlinked index hstill hgiven
    · exact hkept hgiven

end Map

/-! ## Runs of inserts and removals -/

inductive Operation (Ri : Type)
  | insert (ri : Ri)
  | remove (k : IdentHash)

section Runs

variable {Ri : Type} {routerInfoHash : Ri → IdentHash} {routerInfoFree : Ri → Run Unit}

def operate (routerInfoHash : Ri → IdentHash) (routerInfoFree : Ri → Run Unit)
    (map : NetdbHashmap Ri) : Operation Ri → Run (NetdbHashmap Ri)
  | .insert ri => do
      let (_, map) ← netdbHashmapInsert routerInfoHash map ri
      .ok map
  | .remove k => do
      let (_, map) ← netdbHashmapRemove routerInfoFree map k
      .ok map

/-- One call after the other, on a fresh map. -/
def operations (routerInfoHash : Ri → IdentHash) (routerInfoFree : Ri → Run Unit)
    (calls : List (Operation Ri)) : Run (NetdbHashmap Ri) :=
  calls.foldlM (operate routerInfoHash routerInfoFree) netdbHashmapInit

/-- Every removal of the run is of a map that the run has reached, and right. -/
def RunsRightly (routerInfoHash : Ri → IdentHash) (routerInfoFree : Ri → Run Unit)
    (calls : List (Operation Ri)) : Prop :=
  ∀ before k after, calls = before ++ .remove k :: after →
    ∃ map, operations routerInfoHash routerInfoFree before = .ok map ∧
      RemovesRightly routerInfoFree map k

/-- No removal of the run is of a hash that has been inserted before. -/
def RemovesNothing (routerInfoHash : Ri → IdentHash) (calls : List (Operation Ri)) : Prop :=
  ∀ before k after, calls = before ++ .remove k :: after →
    ∀ ri, .insert ri ∈ before → routerInfoHash ri ≠ k

/-- The router infos that are inserted. -/
def inserted (calls : List (Operation Ri)) : List Ri :=
  calls.filterMap fun
    | .insert ri => some ri
    | .remove _ => none

theorem RemovesNothing.of_append {before after : List (Operation Ri)}
    (hnothing : RemovesNothing routerInfoHash (before ++ after)) :
    RemovesNothing routerInfoHash before := by
  rintro front k back rfl ri hri
  exact hnothing front k (back ++ after) (by simp) ri hri

theorem mem_inserted {calls : List (Operation Ri)} {ri : Ri} :
    ri ∈ inserted calls ↔ .insert ri ∈ calls := by
  rw [inserted, List.mem_filterMap]
  constructor
  · rintro ⟨call, hcall, heq⟩
    cases call with
    | insert other =>
        obtain rfl := Option.some.inj heq
        exact hcall
    | remove k => cases heq
  · intro hmem
    exact ⟨.insert ri, hmem, rfl⟩

/-- A removal of an absent key leaves the map as it is. -/
theorem Built.remove_absent {ris : List Ri} {map : NetdbHashmap Ri} {k : IdentHash}
    (hbuilt : Built routerInfoHash ris map) (habsent : ∀ ri ∈ ris, routerInfoHash ri ≠ k) :
    operate routerInfoHash routerInfoFree map (.remove k) = .ok map := by
  have hkey : k ∉ hashesOf map := by
    rw [hbuilt.mem_hashesOf_iff]
    rintro ⟨ri, hri, hh⟩
    exact habsent ri hri hh
  obtain ⟨ret, map', hcall, _, _, hunchanged⟩ := (removesRightly_iff hbuilt.inv).mpr hkey
  obtain ⟨_, rfl⟩ := hunchanged fun hpresent => hkey ((present_iff hbuilt.inv).mp hpresent)
  rw [operate, hcall]
  rfl

theorem RemovesNothing.exists_built {calls : List (Operation Ri)}
    (hnothing : RemovesNothing routerInfoHash calls) :
    ∃ map, operations routerInfoHash routerInfoFree calls = .ok map ∧
      Built routerInfoHash (inserted calls) map := by
  induction calls using List.reverseRecOn with
  | nil => exact ⟨netdbHashmapInit, rfl, inv_init routerInfoHash, fun _ => rfl⟩
  | append_singleton calls call ih =>
      obtain ⟨map, hrun, hbuilt⟩ := ih hnothing.of_append
      have hstep : operations routerInfoHash routerInfoFree (calls ++ [call]) =
          operate routerInfoHash routerInfoFree map call := by
        rw [operations, List.foldlM_append, ← operations, hrun, ok_bind, List.foldlM_cons]
        exact bind_pure (operate routerInfoHash routerInfoFree map call)
      cases call with
      | insert ri =>
          obtain ⟨ret, map', hinsert, hbuilt', _⟩ := hbuilt.insert ri
          refine ⟨map', ?_, ?_⟩
          · rw [hstep, operate, hinsert]
            rfl
          · simpa [inserted] using hbuilt'
      | remove k =>
          refine ⟨map, ?_, ?_⟩
          · rw [hstep]
            refine Built.remove_absent hbuilt fun ri hri => ?_
            exact hnothing calls k [] rfl ri (mem_inserted.mp hri)
          · simpa [inserted] using hbuilt

/-- In a run of inserts and removals on a fresh map every removal is right
exactly where every removal is of a hash that no insert before it had. -/
theorem runsRightly_iff (routerInfoHash : Ri → IdentHash) (routerInfoFree : Ri → Run Unit)
    (calls : List (Operation Ri)) :
    RunsRightly routerInfoHash routerInfoFree calls ↔ RemovesNothing routerInfoHash calls := by
  constructor
  · intro hright
    induction calls using List.reverseRecOn with
    | nil =>
        intro before k after hsplit
        simp at hsplit
    | append_singleton calls call ih =>
        have hnothing : RemovesNothing routerInfoHash calls := by
          refine ih fun before k after hsplit => hright before k (after ++ [call]) ?_
          rw [hsplit, List.append_assoc, List.cons_append]
        intro before k after hsplit ri hri
        rcases List.eq_nil_or_concat' after with rfl | ⟨after, last, rfl⟩
        · -- the last call: the map is that of the inserts before it
          obtain ⟨rfl, hlast⟩ := List.append_inj' hsplit rfl
          obtain ⟨map, hrun, hbuilt⟩ := @RemovesNothing.exists_built Ri routerInfoHash
            routerInfoFree calls hnothing
          obtain ⟨other, hother, hremoves⟩ := hright calls k [] (by rw [hlast])
          obtain rfl := Except.ok.inj (hrun.symm.trans hother)
          rw [removesRightly_iff hbuilt.inv, hbuilt.mem_hashesOf_iff] at hremoves
          exact fun hh => hremoves ⟨ri, mem_inserted.mpr hri, hh⟩
        · rw [← List.cons_append, ← List.append_assoc] at hsplit
          exact hnothing before k after (List.append_inj' hsplit rfl).1 ri hri
  · intro hnothing before k after hsplit
    subst hsplit
    obtain ⟨map, hrun, hbuilt⟩ := hnothing.of_append.exists_built
    refine ⟨map, hrun, (removesRightly_iff hbuilt.inv).mpr ?_⟩
    rw [hbuilt.mem_hashesOf_iff]
    rintro ⟨ri, hri, hh⟩
    exact hnothing before k after rfl ri (mem_inserted.mp hri) hh

end Runs

/-- The only node of a map is released, and stays linked. -/
theorem not_removesRightly_zeros :
    ∃ map, operations id (fun _ => .ok ()) [.insert (List.Vector.replicate 32 0)] = .ok map ∧
      ¬ RemovesRightly (fun _ => .ok ()) map (List.Vector.replicate 32 0) := by
  have hnothing : RemovesNothing id [.insert (List.Vector.replicate 32 (0 : UInt8))] := by
    intro before k after hsplit
    rcases before with _ | ⟨first, _ | ⟨second, before⟩⟩
    · cases hsplit
    · cases hsplit
    · cases hsplit
  obtain ⟨map, hrun, hbuilt⟩ := @RemovesNothing.exists_built _ id (fun _ => .ok ()) _ hnothing
  refine ⟨map, hrun, fun hright => (removesRightly_iff hbuilt.inv).mp hright ?_⟩
  exact hbuilt.mem_hashesOf_iff.mpr ⟨_, List.mem_singleton_self _, rfl⟩

end I2pLite.Remove
