import Mathlib.Data.List.Nodup
import Mathlib.Data.Finset.Card
import Mathlib.Data.Set.Basic

/-!
# Singly linked chains

A store of cells is seen through its links: `link cell` is `none` where there
is no such cell, `some none` where the cell's link is null, and
`some (some other)` where it leads to `other`.  A segment is the list of the
cells met on the way from one pointer to another; a chain is a segment that
ends in null.  A pointer that never meets null is endless.
-/

namespace I2pLite.LinkedChain

variable {Cell : Type*} {link link' : Cell → Option (Option Cell)}

/-- Following links from `start` visits `cells` and arrives at `stop`. -/
inductive Segment (link : Cell → Option (Option Cell)) :
    Option Cell → List Cell → Option Cell → Prop
  | nil {stop} : Segment link stop [] stop
  | cons {cell next cells stop} : link cell = some next →
      Segment link next cells stop → Segment link (some cell) (cell :: cells) stop

/-- The cells from `start` up to the null link. -/
abbrev Chain (link : Cell → Option (Option Cell)) (start : Option Cell)
    (cells : List Cell) : Prop :=
  Segment link start cells none

@[simp]
theorem segment_nil_iff {start stop : Option Cell} :
    Segment link start [] stop ↔ start = stop := by
  constructor
  · intro hsegment
    cases hsegment
    rfl
  · rintro rfl
    exact .nil

theorem segment_cons_iff {start stop : Option Cell} {cell : Cell}
    {cells : List Cell} :
    Segment link start (cell :: cells) stop ↔
      start = some cell ∧ ∃ next, link cell = some next ∧
        Segment link next cells stop := by
  constructor
  · intro hsegment
    cases hsegment with
    | cons hlink hrest => exact ⟨rfl, _, hlink, hrest⟩
  · rintro ⟨rfl, next, hlink, hrest⟩
    exact .cons hlink hrest

theorem segment_append_iff {start stop : Option Cell} {left right : List Cell} :
    Segment link start (left ++ right) stop ↔
      ∃ middle, Segment link start left middle ∧ Segment link middle right stop := by
  induction left generalizing start with
  | nil => simp
  | cons cell cells ih =>
      simp only [List.cons_append, segment_cons_iff, ih]
      constructor
      · rintro ⟨rfl, next, hlink, middle, hleft, hright⟩
        exact ⟨middle, ⟨rfl, next, hlink, hleft⟩, hright⟩
      · rintro ⟨middle, ⟨rfl, next, hlink, hleft⟩, hright⟩
        exact ⟨rfl, next, hlink, middle, hleft, hright⟩

/-- A segment only depends on the links of the cells it visits. -/
theorem Segment.congr {start stop : Option Cell} {cells : List Cell}
    (hsegment : Segment link start cells stop)
    (hsame : ∀ cell ∈ cells, link' cell = link cell) :
    Segment link' start cells stop := by
  induction hsegment with
  | nil => exact .nil
  | cons hlink _ ih =>
      refine .cons ((hsame _ (by simp)).trans hlink) (ih ?_)
      intro cell hcell
      exact hsame cell (List.mem_cons_of_mem _ hcell)

/-- The last link of a segment can be led elsewhere. -/
theorem Segment.relink {start stop stop' : Option Cell} {cells : List Cell} {last : Cell}
    (hsegment : Segment link start (cells ++ [last]) stop)
    (hsame : ∀ cell ∈ cells, link' cell = link cell) (hlink : link' last = some stop') :
    Segment link' start (cells ++ [last]) stop' := by
  obtain ⟨middle, hcells, hlast⟩ := segment_append_iff.mp hsegment
  obtain ⟨rfl, _⟩ := segment_cons_iff.mp hlast
  exact segment_append_iff.mpr ⟨some last, hcells.congr hsame, .cons hlink .nil⟩

/-- Every visited cell is in the store. -/
theorem Segment.link_isSome {start stop : Option Cell} {cells : List Cell}
    (hsegment : Segment link start cells stop) :
    ∀ cell ∈ cells, (link cell).isSome := by
  induction hsegment with
  | nil => simp
  | cons hlink _ ih =>
      intro cell hcell
      rcases List.mem_cons.mp hcell with rfl | hcell
      · simp [hlink]
      · exact ih cell hcell

/-- The link of a visited cell leads to a visited cell or to the stop. -/
theorem Segment.next_eq {start stop : Option Cell} {cells : List Cell}
    (hsegment : Segment link start cells stop) :
    ∀ cell ∈ cells, ∀ next, link cell = some next →
      (∃ other ∈ cells, next = some other) ∨ next = stop := by
  induction hsegment with
  | nil => simp
  | @cons first second cells stop hlink hrest ih =>
      intro cell hcell next hnext
      rcases List.mem_cons.mp hcell with rfl | hcell
      · obtain rfl := Option.some.inj (hlink.symm.trans hnext)
        cases hrest with
        | nil => exact Or.inr rfl
        | cons => exact Or.inl ⟨_, by simp, rfl⟩
      · rcases ih cell hcell next hnext with ⟨other, hother, heq⟩ | hstop
        · exact Or.inl ⟨other, List.mem_cons_of_mem _ hother, heq⟩
        · exact Or.inr hstop

/-- A set of cells that the links never leave holds the end of every segment
from it. -/
theorem Segment.stop_mem {start stop : Option Cell} {cells : List Cell} {region : Set Cell}
    (hsegment : Segment link start cells stop)
    (hclosed : ∀ cell ∈ region, ∀ next, link cell = some (some next) → next ∈ region)
    (hstart : ∀ first, start = some first → first ∈ region) :
    ∀ last, stop = some last → last ∈ region := by
  induction hsegment with
  | nil => exact hstart
  | cons hlink _ ih =>
      refine ih fun first hfirst => ?_
      rw [hfirst] at hlink
      exact hclosed _ (hstart _ rfl) first hlink

/-- The chain from a pointer is unique. -/
theorem Segment.chain_unique {start : Option Cell} {left right : List Cell}
    (hleft : Chain link start left) (hright : Chain link start right) :
    left = right := by
  induction left generalizing start right with
  | nil =>
      obtain rfl := segment_nil_iff.mp hleft
      cases right with
      | nil => rfl
      | cons cell cells => simp [segment_cons_iff] at hright
  | cons cell cells ih =>
      obtain ⟨rfl, next, hlink, hcells⟩ := segment_cons_iff.mp hleft
      cases right with
      | nil => simp at hright
      | cons other others =>
          obtain ⟨hsame, next', hlink', hothers⟩ := segment_cons_iff.mp hright
          obtain rfl := Option.some.inj hsame
          obtain rfl := Option.some.inj (hlink.symm.trans hlink')
          rw [ih hcells hothers]

/-- A chain that ends visits no cell twice. -/
theorem Segment.chain_nodup {start : Option Cell} {cells : List Cell}
    (hchain : Chain link start cells) : cells.Nodup := by
  induction cells generalizing start with
  | nil => exact List.nodup_nil
  | cons cell cells ih =>
      obtain ⟨rfl, next, hlink, hcells⟩ := segment_cons_iff.mp hchain
      refine List.nodup_cons.mpr ⟨?_, ih hcells⟩
      -- a second visit would start a shorter chain at the same cell
      intro hagain
      obtain ⟨before, after, rfl⟩ := List.append_of_mem hagain
      obtain ⟨middle, _, hafter⟩ := segment_append_iff.mp hcells
      obtain ⟨rfl, _⟩ := segment_cons_iff.mp hafter
      have hlength := congrArg List.length (chain_unique hchain hafter)
      simp at hlength
      omega

/-- `start` leads into a set of cells that the links never leave. -/
def Endless (link : Cell → Option (Option Cell)) (start : Option Cell) : Prop :=
  ∃ region : Set Cell, (∃ cell ∈ region, start = some cell) ∧
    ∀ cell ∈ region, ∃ next ∈ region, link cell = some (some next)

/-- A segment that arrives back at one of its own cells is endless. -/
theorem Segment.endless {start : Option Cell} {cells : List Cell} {back : Cell}
    (hsegment : Segment link start cells (some back)) (hback : back ∈ cells) :
    Endless link start := by
  have hregion : ∀ {start : Option Cell} {cells : List Cell},
      Segment link start cells (some back) → ∀ cell ∈ cells,
        ∃ next, (next ∈ cells ∨ next = back) ∧ link cell = some (some next) := by
    intro start cells hsegment
    induction cells generalizing start with
    | nil => simp
    | cons first cells ih =>
        obtain ⟨_, next, hlink, hcells⟩ := segment_cons_iff.mp hsegment
        intro cell hcell
        rcases List.mem_cons.mp hcell with hfirst | hcell
        · rw [hfirst]
          cases cells with
          | nil =>
              rw [segment_nil_iff] at hcells
              exact ⟨back, Or.inr rfl, hlink.trans (congrArg some hcells)⟩
          | cons second cells =>
              rw [(segment_cons_iff.mp hcells).1] at hlink
              exact ⟨second, Or.inl (by simp), hlink⟩
        · obtain ⟨next, hnext, hlink⟩ := ih hcells cell hcell
          exact ⟨next, hnext.imp_left (List.mem_cons_of_mem _), hlink⟩
  refine ⟨{cell | cell ∈ cells}, ?_, ?_⟩
  · cases cells with
    | nil => simp at hback
    | cons first cells => exact ⟨first, by simp, (segment_cons_iff.mp hsegment).1⟩
  · intro cell hcell
    obtain ⟨next, hnext, hlink⟩ := hregion hsegment cell hcell
    rcases hnext with hnext | hnext
    · exact ⟨next, hnext, hlink⟩
    · exact ⟨back, hback, hnext ▸ hlink⟩

/-- A segment that leads to an endless pointer starts at one. -/
theorem Segment.endless_of_stop {start stop : Option Cell} {cells : List Cell}
    (hsegment : Segment link start cells stop) (hstop : Endless link stop) :
    Endless link start := by
  induction hsegment with
  | nil => exact hstop
  | @cons cell next cells stop hlink _ ih =>
      obtain ⟨region, ⟨first, hfirst, hnext⟩, hregion⟩ := ih hstop
      refine ⟨insert cell region, ⟨cell, Set.mem_insert _ _, rfl⟩, ?_⟩
      intro other hother
      rcases Set.mem_insert_iff.mp hother with hcell | hother
      · exact ⟨first, Set.mem_insert_of_mem _ hfirst, by rw [hcell, hlink, hnext]⟩
      · obtain ⟨next', hnext', hlink'⟩ := hregion other hother
        exact ⟨next', Set.mem_insert_of_mem _ hnext', hlink'⟩

/-- Of the segments that arrive at a cell, one does not pass it before. -/
theorem Segment.exists_first_visit {start : Option Cell} {cells : List Cell} {stop : Cell}
    (hsegment : Segment link start cells (some stop)) :
    ∃ before, before ⊆ cells ∧ stop ∉ before ∧ Segment link start before (some stop) := by
  induction cells generalizing start with
  | nil => exact ⟨[], by simp, by simp, hsegment⟩
  | cons cell cells ih =>
      obtain ⟨hstart, next, hlink, hcells⟩ := segment_cons_iff.mp hsegment
      by_cases hcell : cell = stop
      · rw [hstart, hcell]
        exact ⟨[], by simp, by simp, .nil⟩
      · obtain ⟨before, hsubset, hbefore, hbeforeSegment⟩ := ih hcells
        refine ⟨cell :: before, List.cons_subset_cons cell hsubset, ?_,
          segment_cons_iff.mpr ⟨hstart, next, hlink, hbeforeSegment⟩⟩
        simp [Ne.symm hcell, hbefore]

/-- An endless pointer has no chain. -/
theorem Endless.not_chain {start : Option Cell} (hendless : Endless link start)
    (cells : List Cell) : ¬ Chain link start cells := by
  obtain ⟨region, hstart, hregion⟩ := hendless
  intro hchain
  induction cells generalizing start with
  | nil =>
      obtain ⟨cell, _, rfl⟩ := hstart
      simp at hchain
  | cons cell cells ih =>
      obtain ⟨rfl, next, hlink, hcells⟩ := segment_cons_iff.mp hchain
      obtain ⟨_, hmem, hsame⟩ := hstart
      obtain rfl := Option.some.inj hsame
      obtain ⟨next', hnext', hlink'⟩ := hregion _ hmem
      obtain rfl := Option.some.inj (hlink.symm.trans hlink')
      exact ih ⟨next', hnext', rfl⟩ hcells

/-- A chain of cells numbered below `count` has at most `count` cells. -/
theorem Segment.chain_length_le {link : ℕ → Option (Option ℕ)} {count : ℕ}
    {start : Option ℕ} {cells : List ℕ} (hchain : Chain link start cells)
    (hcount : ∀ cell, (link cell).isSome → cell < count) :
    cells.length ≤ count := by
  have hsubset : cells ⊆ List.range count := by
    intro cell hcell
    exact List.mem_range.mpr (hcount cell (hchain.link_isSome cell hcell))
  have hle := (hchain.chain_nodup.subperm hsubset).length_le
  simpa using hle

end I2pLite.LinkedChain
