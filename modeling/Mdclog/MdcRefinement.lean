import Mdclog.MdcSpec

/-! Each call on the MDC list in the heap does what the same call does on the
abstract store. -/
namespace Mdclog.MdcRefinement
open Foundation.HeapProgram Foundation.LinkedList Foundation.OrderedMap
open CString Escape MdcList MdcHeap MdcStore MdcSpec

section calls
variable {s : Memory Block} {cells : List Cell} {frame : Heap Block}

theorem mdclogInternalPutMdc_spec (key value : CStr) (h : Holds s cells frame)
    (hdistinct : (keys (cells.map Cell.pair)).Nodup) :
    WP False Listed (fun r s' => r = 0 ∧
      s'.freed.Perm ((withKey key cells).map Cell.valueAddr ++ s.freed) ∧
      ∃ cells', Holds s' cells' frame ∧ (∀ cell ∈ cells, cell.addr ∈ cells'.map Cell.addr) ∧
        cells'.map Cell.pair = put key (CStr.escaped value) (cells.map Cell.pair))
      (mdclogInternalPutMdc key value) s := by
  unfold mdclogInternalPutMdc
  apply WP.bind
  refine (getList_spec h).post ?_
  rintro - s₁ - ⟨list, rfl, hslot, hown, hfreed⟩
  apply WP.bind
  refine (mdclogInternalSearchMdc_spec key hown hslot).post ?_
  rintro - s₁ - ⟨rfl, rfl⟩
  cases hfind : cells.find? fun cell => key = cell.key with
  | none =>
    obtain ⟨hnone, hmem⟩ := withKey_of_none hfind
    refine (putNew_spec key value hown hslot).post ?_
    rintro - s₂ - ⟨rfl, hslot₂, hfreed₂, cell, hown₂, hpair⟩
    refine ⟨rfl, by simp [hnone, hfreed₂, hfreed], cell :: cells, .of_owns hslot₂ hown₂,
      fun other hother => List.mem_cons_of_mem _ (List.mem_map_of_mem hother), ?_⟩
    rw [put_of_notMem hmem, List.map_cons, hpair]
  | some cell =>
    obtain ⟨rfl, front, back, rfl⟩ := find_middle hfind
    refine (putOld_spec value hown hslot).post ?_
    rintro - s₂ - ⟨rfl, hslot₂, hfreed₂, a, hown₂⟩
    refine ⟨rfl, ?_, _, .of_owns hslot₂ hown₂, ?_, ?_⟩
    · rw [withKey_middle hdistinct, hfreed₂, hfreed]
      exact .refl _
    · intro other hother
      have hmem : other.addr ∈ (front ++ cell :: back).map Cell.addr := List.mem_map_of_mem hother
      simpa using hmem
    · rw [List.map_append, List.map_cons] at hdistinct ⊢
      rw [List.map_append, List.map_cons]
      exact (put_middle hdistinct).symm

theorem mdclogInternalRmMdc_spec (key : CStr) (h : Holds s cells frame)
    (hdistinct : (keys (cells.map Cell.pair)).Nodup) :
    WP False Listed (fun _ s' =>
      s'.freed.Perm ((withKey key cells).flatMap Cell.blocks ++ s.freed) ∧
      Holds s' (cells.filter fun cell => key ≠ cell.key) frame) (mdclogInternalRmMdc key) s := by
  unfold mdclogInternalRmMdc
  apply WP.bind
  refine (searchMdc_spec key h).post ?_
  rintro - s₁ hlisted ⟨hfreed, rfl, list, hslot, hown⟩
  cases hfind : cells.find? fun cell => key = cell.key with
  | none =>
    have hnone := (withKey_of_none hfind).1
    apply WP.pure hlisted
    have hall : (cells.filter fun cell => key ≠ cell.key) = cells := by
      refine List.filter_eq_self.mpr fun cell hcell => ?_
      simpa using List.find?_eq_none.mp hfind cell hcell
    rw [hall]
    exact ⟨by simp [hnone, hfreed], .of_owns hslot hown⟩
  | some cell =>
    obtain ⟨rfl, front, back, rfl⟩ := find_middle hfind
    apply WP.bind
    refine (getList_of_slot hlisted hslot).post ?_
    rintro - s₂ - ⟨rfl, rfl⟩
    refine (rmFromList_spec hown fun p hp => by simpa [hslot] using hp.symm).post ?_
    rintro - s₃ - ⟨hslot₃, hown₃, hfreed₃⟩
    refine ⟨?_, ?_⟩
    · rw [withKey_middle hdistinct]
      simpa [hfreed] using hfreed₃
    · rw [withoutKey_middle hdistinct]
      exact .of_owns (hslot₃.trans hslot) hown₃

/-- The string `mdclog_mdc_get` returns is a block of its own, which the caller
has to free. -/
theorem mdclogMdcGet_spec (key : CStr) (h : Holds s cells frame) :
    WP False Listed (fun p s' => s'.freed = s.freed ∧
      match get? key (cells.map Cell.pair) with
      | none => p = none ∧ Holds s' cells frame
      | some value => ∃ a, p = some a ∧ s'.heap a = some (.text value) ∧ frame a = none ∧
          Holds s' cells (Function.update frame a (some (.text value))))
      (mdclogMdcGet (some key)) s := by
  unfold mdclogMdcGet
  apply WP.bind
  refine (searchMdc_spec key h).post ?_
  rintro - s₁ hlisted ⟨hfreed, rfl, list, hslot, hown⟩
  have hget : get? key (cells.map Cell.pair) =
      (cells.find? fun cell => key = cell.key).map Cell.value := by
    simp only [get?, List.find?_map, Option.map_map, Function.comp_def, Cell.pair,
      eq_comm (a := key)]
    rfl
  rw [hget]
  cases hfind : cells.find? fun cell => key = cell.key with
  | none => exact WP.pure hlisted ⟨hfreed, rfl, .of_owns hslot hown⟩
  | some cell =>
    have hmem := List.mem_of_find?_eq_some hfind
    have hvalue := (hown.spine.fields cell.node (List.mem_map_of_mem hmem)).2
    apply WP.bind
    apply wp_field hlisted hvalue
    apply WP.bind
    apply wp_str hlisted (hown.texts cell hmem).2
    refine WP.malloc_ok hlisted fun a hfresh => ?_
    have hown' := hown.set_frame (hown.fresh hfresh) (some (.text cell.value))
    exact ⟨hown'.slot_listed hslot, hfreed, a, rfl, by simp, hown.frame_dead hfresh,
      .of_owns hslot hown'⟩

theorem mdclogInternalCleanMdclist_spec (h : Holds s cells frame) :
    WP False Listed (fun _ s' => s'.freed.Perm (cells.flatMap Cell.blocks ++ s.freed) ∧
      Holds s' [] frame) mdclogInternalCleanMdclist s := by
  unfold mdclogInternalCleanMdclist
  apply WP.bind
  refine (getList_spec h).post ?_
  rintro - s₁ - ⟨list, rfl, hslot, hown, hfreed⟩
  refine (emptyList_spec hown fun p hp => by simpa [hslot] using hp.symm).post ?_
  rintro - s₂ - ⟨hslot₂, hown₂, hfreed₂⟩
  exact ⟨by rwa [hfreed] at hfreed₂, .of_owns (hslot₂.trans hslot) hown₂⟩

/-- The list is made first if the thread has none, only to be freed again. -/
theorem mdclogInternalDestroyMdclist_spec (h : Holds s cells frame) :
    WP False (fun _ => True) (fun _ s' => Holds s' [] frame ∧
      ∃ list, (∀ p, s.slot = some p → p = list) ∧ (footprint list cells).Nodup ∧
        s'.freed.Perm (footprint list cells ++ s.freed)) mdclogInternalDestroyMdclist s := by
  have hlist : WP False (fun _ => True) (fun p s' => ∃ list, p = some list ∧
      (∀ p, s.slot = some p → p = list) ∧ s'.slot = some list ∧
      Owns s'.heap list cells frame ∧ s'.freed = s.freed) getList s := by
    have hlisted := h.listed
    rcases h with ⟨hslot, rfl, rfl⟩ | ⟨list, hslot, hown⟩
    · refine (getList_spec (.inl ⟨hslot, rfl, rfl⟩)).mono (fun _ _ => trivial) ?_
      rintro - s₁ - ⟨list, rfl, hrest⟩
      exact ⟨list, rfl, by simp [hslot], hrest⟩
    · refine (getList_of_slot hlisted hslot).mono (fun _ _ => trivial) ?_
      rintro - s₁ - ⟨rfl, rfl⟩
      exact ⟨list, rfl, fun p hp => by simpa [hslot] using hp.symm, hslot, hown, rfl⟩
  unfold mdclogInternalDestroyMdclist
  apply WP.bind
  refine hlist.post ?_
  rintro - s₁ - ⟨list, rfl, honly, hslot, hown, hfreed⟩
  refine (destroyList_spec (fun _ _ => trivial) (fun _ _ => trivial) hown
    fun p hp => by simpa [hslot] using hp.symm).post ?_
  rintro - s₂ - ⟨hslot₂, hheap, hfreed₂⟩
  exact ⟨.inl ⟨hslot₂, rfl, hheap⟩, list, honly, hown.footprint_nodup,
    by rwa [hfreed] at hfreed₂⟩

/-- The walk reads the pairs from the first on. -/
theorem handOver_spec (fits : List (CStr × CStr) → Bool) (h : Holds s cells frame) :
    WP False Listed (fun pairs s' => pairs = handed fits [] (cells.map Cell.pair) ∧
      s'.freed = s.freed ∧ Holds s' cells frame) (handOver fits) s := by
  unfold handOver mdclogInternalGetFirstMdc
  apply WP.bind
  apply WP.bind
  refine (getList_spec h).post ?_
  rintro - s₁ hlisted ⟨list, rfl, hslot, hown, hfreed⟩
  apply wp_listHead hlisted hown.spine.linked.1
  rw [map_node_addr]
  -- `front` has been handed over, `back` is still to come
  suffices hloop : ∀ front back, cells = front ++ back → WP False Listed
      (fun pairs s' => pairs = handed fits (front.map Cell.pair) (back.map Cell.pair) ∧
        s'.freed = s.freed ∧ Holds s' cells frame)
      (loop _ ((back.map Cell.addr).head?, front.map Cell.pair)) s₁ from hloop [] cells rfl
  intro front back hsplit
  induction back generalizing front with
  | nil =>
    exact WP.loop hlisted (WP.pure hlisted ⟨rfl, hfreed, .of_owns hslot hown⟩)
  | cons cell back ih =>
    subst hsplit
    have hmem : cell ∈ front ++ cell :: back := by simp
    have hfields := hown.spine.fields cell.node (List.mem_map_of_mem hmem)
    have htexts := hown.texts cell hmem
    apply WP.loop hlisted
    apply WP.bind
    apply wp_field hlisted hfields.1
    apply WP.bind
    apply wp_str hlisted htexts.1
    apply WP.bind
    apply wp_field hlisted hfields.2
    apply WP.bind
    apply wp_str hlisted htexts.2
    by_cases hfits : fits (front.map Cell.pair ++ [(cell.key, cell.value)]) = true
    · rw [if_pos hfits]
      apply WP.bind
      apply wp_field hlisted hown.next_eq
      apply WP.pure hlisted
      have hrest := ih (front ++ [cell]) (by simp)
      rw [List.map_append, List.map_singleton] at hrest
      rw [List.map_cons, handed, if_pos (show fits (front.map Cell.pair ++ [cell.pair]) from hfits)]
      exact hrest
    · rw [if_neg hfits]
      apply WP.pure hlisted
      rw [List.map_cons, handed,
        if_neg (show ¬fits (front.map Cell.pair ++ [cell.pair]) from hfits)]
      exact ⟨rfl, hfreed, .of_owns hslot hown⟩

end calls

/-! The calls of one thread. -/

/-- A call as it runs on the heap. The string from `mdclog_mdc_get` stays with
the caller, who reads it here. -/
def prog : Call → Program Result
  | .add key value => do
      return .status (← mdclogMdcAdd key value)
  | .get key => do
      let value ← mdclogMdcGet key
      match value with
      | none => return .value none
      | some _ => return .value (some (← str value))
  | .remove key => do
      mdclogMdcRemove key
      return .done
  | .clean => do
      mdclogMdcClean
      return .done
  | .write fits => do
      return .pairs (← handOver fits)
  | .exit => do
      threadExit
      return .done
  | .destroy => do
      mdclogInternalDestroyMdclist
      return .done

/-- The blocks a call frees, given the slot and the entries before it. -/
def Released (call : Call) (slot : Pointer) (cells : List Cell) (freed : List Addr) : Prop :=
  match call with
  | .add (some key) (some _) => freed.Perm ((withKey key cells).map Cell.valueAddr)
  | .remove (some key) => freed.Perm ((withKey key cells).flatMap Cell.blocks)
  | .clean => freed.Perm (cells.flatMap Cell.blocks)
  | .exit => freed.Perm (slot.toList ++ cells.flatMap Cell.blocks)
  | .destroy => ∃ list, (∀ p, slot = some p → p = list) ∧ freed.Perm (footprint list cells)
  | _ => freed = []

/-- Outside the list there are only strings that were returned to the caller. -/
def OnlyTexts (frame : Heap Block) : Prop :=
  ∀ a block, frame a = some block → ∃ text, block = .text text

theorem OnlyTexts.update {frame : Heap Block} (h : OnlyTexts frame) (a : Addr) (text : CStr) :
    OnlyTexts (Function.update frame a (some (.text text))) := by
  intro c block hblock
  by_cases hc : c = a
  · subst hc
    rw [Function.update_self, Option.some.injEq] at hblock
    exact ⟨text, hblock.symm⟩
  · rw [Function.update_of_ne hc] at hblock
    exact h c block hblock

/-- The heap of a thread stands for a store. -/
structure Represents (s : Memory Block) (store : Store) (cells : List Cell) : Prop where
  holds : ∃ frame, Holds s cells frame ∧ OnlyTexts frame
  pairs : cells.map Cell.pair = store.pairs

theorem Represents.distinct {s : Memory Block} {store : Store} {cells : List Cell}
    (h : Represents s store cells) : (keys (cells.map Cell.pair)).Nodup := by
  rw [h.pairs]
  exact store.distinct

/-- An entry stays in the list and is not freed, or it is out of the list and
freed exactly once. -/
def Fate (cells cells' : List Cell) (freed : List Addr) : Prop :=
  ∀ cell ∈ cells, (cell.addr ∈ cells'.map Cell.addr ∧ cell.addr ∉ freed) ∨
    (cell.addr ∉ cells'.map Cell.addr ∧ freed.count cell.addr = 1)

/-- What a call does, from any store. -/
def Does (call : Call) (store : Store) (cells : List Cell) (s : Memory Block) (result : Result)
    (s' : Memory Block) : Prop :=
  result = (call.run store).2 ∧ Released call s.slot cells s'.freed ∧
    ∃ cells', Represents s' (call.run store).1 cells' ∧ Fate cells cells' s'.freed

section fate
variable {s : Memory Block} {cells : List Cell} {frame : Heap Block}

theorem fate_of_nil {freed : List Addr} (h : freed = []) : Fate cells cells freed := by
  intro cell hcell
  exact .inl ⟨List.mem_map_of_mem hcell, by simp [h]⟩

/-- Every entry goes. -/
theorem fate_all {freed blocks : List Addr} (hnodup : blocks.Nodup)
    (hmem : ∀ cell ∈ cells, cell.addr ∈ blocks) (hfreed : freed.Perm blocks) :
    Fate cells [] freed := by
  intro cell hcell
  refine .inr ⟨by simp, ?_⟩
  rw [hfreed.count_eq]
  exact List.count_eq_one_of_mem hnodup (hmem cell hcell)

theorem fate_put {cells' : List Cell} {key : CStr} {freed : List Addr} (h : Holds s cells frame)
    (haddrs : ∀ cell ∈ cells, cell.addr ∈ cells'.map Cell.addr)
    (hfreed : freed.Perm ((withKey key cells).map Cell.valueAddr)) :
    Fate cells cells' freed := by
  intro cell hcell
  refine .inl ⟨haddrs cell hcell, fun hmem => ?_⟩
  rw [hfreed.mem_iff, List.mem_map] at hmem
  obtain ⟨other, hother, heq⟩ := hmem
  have hperm : (cells.map Cell.addr ++ cells.flatMap Cell.texts).Perm
      (cells.flatMap Cell.blocks) := List.map_append_flatMap_perm _ _ _
  have hapart := (List.nodup_append.mp (hperm.symm.nodup h.blocks_nodup)).2.2
  refine hapart cell.addr (List.mem_map_of_mem hcell) cell.addr ?_ rfl
  exact List.mem_flatMap.mpr ⟨other, List.mem_of_mem_filter hother, by simp [Cell.texts, heq]⟩

theorem fate_remove {key : CStr} {freed : List Addr} (h : Holds s cells frame)
    (hfreed : freed.Perm ((withKey key cells).flatMap Cell.blocks)) :
    Fate cells (cells.filter fun cell => key ≠ cell.key) freed := by
  set others := cells.filter fun cell => key ≠ cell.key with hothers
  have hperm : ((withKey key cells).flatMap Cell.blocks ++ others.flatMap Cell.blocks).Perm
      (cells.flatMap Cell.blocks) := by
    rw [← List.flatMap_append]
    apply List.Perm.flatMap_right
    simpa [withKey, others] using List.filter_append_perm (fun cell => key = cell.key) cells
  obtain ⟨hnodup, -, hapart⟩ := List.nodup_append.mp (hperm.symm.nodup h.blocks_nodup)
  have hblock : ∀ (part : List Cell) (cell : Cell), cell ∈ part →
      cell.addr ∈ part.flatMap Cell.blocks := fun part cell hcell =>
    List.mem_flatMap.mpr ⟨cell, hcell, by simp [Cell.blocks]⟩
  intro cell hcell
  by_cases hkey : key = cell.key
  · have hgone : cell ∈ withKey key cells := List.mem_filter.mpr ⟨hcell, by simp [hkey]⟩
    refine .inr ⟨fun hmem => ?_, ?_⟩
    · obtain ⟨other, hother, heq⟩ := List.mem_map.mp hmem
      exact hapart _ (hblock _ cell hgone) _ (hblock _ other hother) heq.symm
    · rw [hfreed.count_eq]
      exact List.count_eq_one_of_mem hnodup (hblock _ cell hgone)
  · have hkept : cell ∈ others := List.mem_filter.mpr ⟨hcell, by simp [hkey]⟩
    refine .inl ⟨List.mem_map_of_mem hkept, fun hmem => ?_⟩
    rw [hfreed.mem_iff] at hmem
    exact hapart _ hmem _ (hblock _ cell hkept) rfl

theorem addr_mem_blocks (cells : List Cell) :
    ∀ cell ∈ cells, cell.addr ∈ cells.flatMap Cell.blocks := fun cell hcell =>
  List.mem_flatMap.mpr ⟨cell, hcell, by simp [Cell.blocks]⟩

end fate

theorem add_does {s : Memory Block} {store : Store} {cells : List Cell} (key value : Option CStr)
    (h : Represents s store cells) (hfreed : s.freed = []) :
    WP False Listed (Does (.add key value) store cells s) (prog (.add key value)) s := by
  obtain ⟨frame, hholds, htexts⟩ := h.holds
  have hlisted := hholds.listed
  have hreject : ∀ key : Option CStr, ∀ value : Option CStr, store.add key value = (store, -1) →
      Released (.add key value) s.slot cells s.freed →
      Does (.add key value) store cells s (.status (-1)) s := by
    intro key value hadd hreleased
    exact ⟨by simp [Call.run, hadd], hreleased, cells, by simpa [Call.run, hadd] using h,
      fate_of_nil hfreed⟩
  apply WP.bind
  cases key with
  | none => exact WP.pure hlisted (WP.pure hlisted (hreject _ _ rfl hfreed))
  | some key =>
    cases value with
    | none => exact WP.pure hlisted (WP.pure hlisted (hreject _ _ rfl hfreed))
    | some value =>
      unfold mdclogMdcAdd
      by_cases hclean : Clean key.bytes
      · have hspecial := (clean_iff key).mpr hclean
        simp only [hspecial, Bool.false_eq_true, if_false]
        refine (mdclogInternalPutMdc_spec key value hholds h.distinct).post ?_
        rintro - s' hlisted' ⟨rfl, hfreed', cells', hholds', haddrs, hpairs⟩
        rw [hfreed, List.append_nil] at hfreed'
        have hadd : store.add (some key) (some value) = (store.put key value hclean, 0) := by
          simp [Store.add, hclean]
        refine WP.pure hlisted' ⟨by simp [Call.run, hadd], hfreed', cells',
          ⟨⟨frame, hholds', htexts⟩, ?_⟩, fate_put hholds haddrs hfreed'⟩
        simp only [Call.run, hadd]
        rw [hpairs, h.pairs]
        rfl
      · have hspecial : mdclogInternalContainsSpecialCharacters key = true := by
          rw [← clean_iff] at hclean
          simpa using hclean
        simp only [hspecial, if_true]
        refine WP.pure hlisted (WP.pure hlisted (hreject _ _ (by simp [Store.add, hclean]) ?_))
        -- no entry has such a key
        have hnone : withKey key cells = [] := by
          refine List.filter_eq_nil_iff.mpr fun cell hcell => ?_
          rw [decide_eq_true_eq]
          rintro rfl
          exact hclean (store.clean cell.pair (h.pairs ▸ List.mem_map_of_mem hcell))
        simp [Released, hnone, hfreed]

section does
variable {s : Memory Block} {store : Store} {cells : List Cell}

theorem get_does (key : Option CStr) (h : Represents s store cells) (hfreed : s.freed = []) :
    WP False Listed (Does (.get key) store cells s) (prog (.get key)) s := by
  obtain ⟨frame, hholds, htexts⟩ := h.holds
  have hlisted := hholds.listed
  apply WP.bind
  cases key with
  | none => exact WP.pure hlisted (WP.pure hlisted ⟨rfl, hfreed, cells, h, fate_of_nil hfreed⟩)
  | some key =>
    refine (mdclogMdcGet_spec key hholds).post ?_
    rintro p s' hlisted' ⟨hfreed', hvalue⟩
    rw [hfreed] at hfreed'
    rw [h.pairs] at hvalue
    have hrun : Call.run (.get (some key)) store = (store, .value (get? key store.pairs)) := rfl
    cases hget : get? key store.pairs with
    | none =>
      simp only [hget] at hvalue
      obtain ⟨rfl, hholds'⟩ := hvalue
      exact WP.pure hlisted' ⟨by rw [hrun, hget], hfreed', cells,
        ⟨⟨frame, hholds', htexts⟩, h.pairs⟩, fate_of_nil hfreed'⟩
    | some value =>
      simp only [hget] at hvalue
      obtain ⟨a, rfl, hlive, -, hholds'⟩ := hvalue
      apply WP.bind
      apply wp_str hlisted' hlive
      exact WP.pure hlisted' ⟨by rw [hrun, hget], hfreed', cells,
        ⟨⟨_, hholds', htexts.update a value⟩, h.pairs⟩, fate_of_nil hfreed'⟩

theorem remove_does (key : Option CStr) (h : Represents s store cells) (hfreed : s.freed = []) :
    WP False Listed (Does (.remove key) store cells s) (prog (.remove key)) s := by
  obtain ⟨frame, hholds, htexts⟩ := h.holds
  have hlisted := hholds.listed
  apply WP.bind
  cases key with
  | none => exact WP.pure hlisted (WP.pure hlisted ⟨rfl, hfreed, cells, h, fate_of_nil hfreed⟩)
  | some key =>
    refine (mdclogInternalRmMdc_spec key hholds h.distinct).post ?_
    rintro - s' hlisted' ⟨hfreed', hholds'⟩
    rw [hfreed, List.append_nil] at hfreed'
    refine WP.pure hlisted' ⟨rfl, hfreed', _, ⟨⟨frame, hholds', htexts⟩, ?_⟩,
      fate_remove hholds hfreed'⟩
    change _ = erase key store.pairs
    rw [← h.pairs, erase, List.filter_map]
    simp only [Function.comp_def, Cell.pair, ne_comm]
    rfl

theorem clean_does (h : Represents s store cells) (hfreed : s.freed = []) :
    WP False Listed (Does .clean store cells s) (prog .clean) s := by
  obtain ⟨frame, hholds, htexts⟩ := h.holds
  apply WP.bind
  refine (mdclogInternalCleanMdclist_spec hholds).post ?_
  rintro - s' hlisted' ⟨hfreed', hholds'⟩
  rw [hfreed, List.append_nil] at hfreed'
  exact WP.pure hlisted' ⟨rfl, hfreed', [], ⟨⟨frame, hholds', htexts⟩, rfl⟩,
    fate_all hholds.blocks_nodup (addr_mem_blocks cells) hfreed'⟩

theorem write_does (fits : List (CStr × CStr) → Bool) (h : Represents s store cells)
    (hfreed : s.freed = []) :
    WP False Listed (Does (.write fits) store cells s) (prog (.write fits)) s := by
  obtain ⟨frame, hholds, htexts⟩ := h.holds
  apply WP.bind
  refine (handOver_spec fits hholds).post ?_
  rintro - s' hlisted' ⟨rfl, hfreed', hholds'⟩
  exact WP.pure hlisted' ⟨by rw [h.pairs]; rfl, hfreed'.trans hfreed, cells,
    ⟨⟨frame, hholds', htexts⟩, h.pairs⟩, fate_of_nil (hfreed'.trans hfreed)⟩

theorem exit_does (h : Represents s store cells) (hfreed : s.freed = []) :
    WP False Listed (Does .exit store cells s) (prog .exit) s := by
  obtain ⟨frame, hholds, htexts⟩ := h.holds
  apply WP.bind
  refine (threadExit_spec hholds).post ?_
  rintro - s' hlisted' ⟨hslot, hheap, hfreed'⟩
  rw [hfreed, List.append_nil] at hfreed'
  refine WP.pure hlisted' ⟨rfl, hfreed', [],
    ⟨⟨frame, .inl ⟨hslot, rfl, hheap⟩, htexts⟩, rfl⟩, 
    fate_all hholds.slot_nodup ?_ hfreed'⟩
  intro cell hcell
  exact List.mem_append_right _ (addr_mem_blocks cells cell hcell)

theorem destroy_does (h : Represents s store cells) (hfreed : s.freed = []) :
    WP False (fun _ => True) (Does .destroy store cells s) (prog .destroy) s := by
  obtain ⟨frame, hholds, htexts⟩ := h.holds
  apply WP.bind
  refine (mdclogInternalDestroyMdclist_spec hholds).post ?_
  rintro - s' - ⟨hholds', list, hslot, hnodup, hfreed'⟩
  rw [hfreed, List.append_nil] at hfreed'
  refine WP.pure trivial ⟨rfl, ⟨list, hslot, hfreed'⟩, [], ⟨⟨frame, hholds', htexts⟩, rfl⟩,
    fate_all hnodup ?_ hfreed'⟩
  intro cell hcell
  exact List.mem_cons_of_mem _ (addr_mem_blocks cells cell hcell)

/-- Every public call, and the end of a thread, keeps the list whole at every step. -/
theorem call_does (call : Call) (hcall : call ≠ .destroy) (h : Represents s store cells)
    (hfreed : s.freed = []) : WP False Listed (Does call store cells s) (prog call) s := by
  cases call with
  | add key value => exact add_does key value h hfreed
  | get key => exact get_does key h hfreed
  | remove key => exact remove_does key h hfreed
  | clean => exact clean_does h hfreed
  | write fits => exact write_does fits h hfreed
  | exit => exact exit_does h hfreed
  | destroy => contradiction

end does

end Mdclog.MdcRefinement
