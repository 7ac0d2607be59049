import Mdclog.MdcHeap
import Mdclog.MdcStore

/-! The MDC list with the texts it owns, and what each function of `mdc.c` does
to it when allocations succeed. -/
namespace Mdclog.MdcSpec
open Foundation.HeapProgram Foundation.LinkedList Foundation.OrderedMap
open CString Escape MdcList MdcHeap MdcStore

/-- One entry of the list with its two texts. -/
structure Cell where
  addr : Addr
  keyAddr : Addr
  valueAddr : Addr
  key : CStr
  value : CStr

def Cell.node (cell : Cell) : Node := ⟨cell.addr, some cell.keyAddr, some cell.valueAddr⟩

def Cell.texts (cell : Cell) : List Addr := [cell.keyAddr, cell.valueAddr]

def Cell.blocks (cell : Cell) : List Addr := cell.addr :: cell.texts

def Cell.pair (cell : Cell) : CStr × CStr := (cell.key, cell.value)

def footprint (list : Addr) (cells : List Cell) : List Addr := list :: cells.flatMap Cell.blocks

/-- The list at `list` with exactly the entries `cells`; the rest of the heap
is `frame`. -/
structure Owns (heap : Heap Block) (list : Addr) (cells : List Cell) (frame : Heap Block) :
    Prop where
  spine : Spine heap list (cells.map Cell.node)
  texts : ∀ cell ∈ cells, heap cell.keyAddr = some (.text cell.key) ∧
    heap cell.valueAddr = some (.text cell.value)
  distinct : (cells.flatMap Cell.texts).Nodup
  rest : ∀ a, frame a = if a ∈ footprint list cells then none else heap a

theorem map_node_addr (cells : List Cell) :
    (cells.map Cell.node).map Node.addr = cells.map Cell.addr := by
  simp [Cell.node]

theorem mem_footprint {list a : Addr} {cells : List Cell} : a ∈ footprint list cells ↔
    a = list ∨ a ∈ cells.map Cell.addr ∨ a ∈ cells.flatMap Cell.texts := by
  simp only [footprint, Cell.blocks, List.mem_cons, List.mem_flatMap, List.mem_map]
  constructor
  · rintro (h | ⟨cell, hcell, h | h⟩)
    · exact .inl h
    · exact .inr (.inl ⟨cell, hcell, h.symm⟩)
    · exact .inr (.inr ⟨cell, hcell, h⟩)
  · rintro (h | ⟨cell, hcell, h⟩ | ⟨cell, hcell, h⟩)
    · exact .inl h
    · exact .inr ⟨cell, hcell, .inl h.symm⟩
    · exact .inr ⟨cell, hcell, .inr h⟩

theorem mem_footprint_middle {list a : Addr} {front back : List Cell} {cell : Cell} :
    a ∈ footprint list (front ++ cell :: back) ↔
      a ∈ cell.blocks ∨ a ∈ footprint list (front ++ back) := by
  have hperm := (List.Perm.flatMap_right Cell.blocks
    (show (front ++ cell :: back).Perm (cell :: (front ++ back)) from List.perm_middle)).mem_iff
    (a := a)
  rw [List.flatMap_cons, List.mem_append] at hperm
  rw [footprint, footprint, List.mem_cons, List.mem_cons, hperm]
  exact or_left_comm

/-- A text or a dead address is neither the list nor an entry. -/
theorem spine_other {heap : Heap Block} {list a : Addr} {nodes : List Node}
    (h : Spine heap list nodes) (ha : heap a = none ∨ ∃ text, heap a = some (.text text)) :
    a ≠ list ∧ a ∉ nodes.map Node.addr := by
  constructor
  · rintro rfl
    rw [h.linked.1] at ha
    simp at ha
  · intro hmem
    obtain ⟨node, hnode, rfl⟩ := List.mem_map.mp hmem
    obtain ⟨mdc, hmdc, -⟩ := h.entry hnode
    rw [hmdc] at ha
    simp at ha

section owns
variable {heap frame : Heap Block} {list a : Addr} {cells : List Cell}

theorem Owns.text_live (h : Owns heap list cells frame) (ha : a ∈ cells.flatMap Cell.texts) :
    ∃ text, heap a = some (.text text) := by
  obtain ⟨cell, hcell, ha⟩ := List.mem_flatMap.mp ha
  have htexts := h.texts cell hcell
  simp only [Cell.texts, List.mem_cons, List.not_mem_nil, or_false] at ha
  rcases ha with rfl | rfl
  · exact ⟨_, htexts.1⟩
  · exact ⟨_, htexts.2⟩

theorem Owns.fresh (h : Owns heap list cells frame) (ha : heap a = none) :
    a ∉ footprint list cells := by
  have hspine := spine_other h.spine (.inl ha)
  rw [map_node_addr] at hspine
  rw [mem_footprint, not_or, not_or]
  refine ⟨hspine.1, hspine.2, fun hmem => ?_⟩
  obtain ⟨text, htext⟩ := h.text_live hmem
  rw [ha] at htext
  simp at htext

theorem Owns.frame_dead (h : Owns heap list cells frame) (ha : heap a = none) :
    frame a = none := by
  rw [h.rest, ha, ite_self]

theorem Owns.listed {s : Memory Block} (h : Owns s.heap list cells frame)
    (hslot : ∀ p, s.slot = some p → p = list) : Listed s :=
  h.spine.linked.listed hslot

/-- No block has two uses. -/
theorem Owns.footprint_nodup (h : Owns heap list cells frame) : (footprint list cells).Nodup := by
  have haddrs := h.spine.nodup
  rw [map_node_addr] at haddrs
  have htext : ∀ a ∈ cells.flatMap Cell.texts, a ≠ list ∧ a ∉ cells.map Cell.addr := by
    intro a ha
    rw [← map_node_addr]
    exact spine_other h.spine (.inr (h.text_live ha))
  have hlist : list ∉ cells.map Cell.addr := by
    intro hmem
    obtain ⟨cell, hcell, heq⟩ := List.mem_map.mp hmem
    obtain ⟨mdc, hmdc, -⟩ := h.spine.entry (List.mem_map_of_mem hcell)
    exact h.spine.linked.list_ne hmdc heq.symm
  have hperm : (cells.map Cell.addr ++ cells.flatMap Cell.texts).Perm
      (cells.flatMap Cell.blocks) := List.map_append_flatMap_perm _ _ _
  refine List.nodup_cons.mpr ⟨?_, hperm.nodup (List.nodup_append.mpr ⟨haddrs, h.distinct, ?_⟩)⟩
  · rw [← hperm.mem_iff, List.mem_append, not_or]
    exact ⟨hlist, fun hmem => (htext list hmem).1 rfl⟩
  · rintro a ha b hb rfl
    exact (htext a hb).2 ha

/-- A block of the frame changes. -/
theorem Owns.set_frame (h : Owns heap list cells frame) (ha : a ∉ footprint list cells)
    (new : Option Block) :
    Owns (Function.update heap a new) list cells (Function.update frame a new) := by
  have hne := ha
  rw [mem_footprint, not_or, not_or] at hne
  refine ⟨h.spine.update hne.1 (by rw [map_node_addr]; exact hne.2.1), ?_, h.distinct, ?_⟩
  · intro cell hcell
    have hkey : cell.keyAddr ≠ a := by
      rintro rfl
      exact hne.2.2 (List.mem_flatMap.mpr ⟨cell, hcell, by simp [Cell.texts]⟩)
    have hvalue : cell.valueAddr ≠ a := by
      rintro rfl
      exact hne.2.2 (List.mem_flatMap.mpr ⟨cell, hcell, by simp [Cell.texts]⟩)
    rw [Function.update_of_ne hkey, Function.update_of_ne hvalue]
    exact h.texts cell hcell
  · intro c
    by_cases hc : c = a
    · subst hc
      simp [ha]
    · rw [Function.update_of_ne hc, Function.update_of_ne hc, h.rest]

end owns

/-! Removing. -/

section remove
variable {fails : Prop} {s : Memory Block} {list : Addr} {cells front back : List Cell}
  {cell : Cell} {frame : Heap Block}

/-- `mdc_destroy` frees the entry and its two texts. -/
theorem mdcDestroy_spec {mdc : Mdc} {nodes : List Node} (hspine : Spine s.heap list nodes)
    (hslot : ∀ p, s.slot = some p → p = list)
    (hentry : s.heap cell.addr = some (.entry mdc)) (hkey : mdc.key = some cell.keyAddr)
    (hvalue : mdc.value = some cell.valueAddr) (hout : cell.addr ∉ nodes.map Node.addr)
    (htexts : s.heap cell.keyAddr = some (.text cell.key) ∧
      s.heap cell.valueAddr = some (.text cell.value))
    (hne : cell.keyAddr ≠ cell.valueAddr) :
    WP fails Listed (fun _ s' =>
        s' = ((s.release cell.keyAddr).release cell.valueAddr).release cell.addr ∧
        Spine s'.heap list nodes)
      (mdcDestroy (some cell.addr)) s := by
  have hkeyOut := spine_other hspine (.inr ⟨_, htexts.1⟩)
  have hvalueOut := spine_other hspine (.inr ⟨_, htexts.2⟩)
  have haddr := hspine.linked.list_ne hentry
  have hak : cell.addr ≠ cell.keyAddr := by
    intro heq
    simp [← heq, hentry] at htexts
  have hav : cell.addr ≠ cell.valueAddr := by
    intro heq
    simp [← heq, hentry] at htexts
  set s₁ := s.release cell.keyAddr with hs₁
  have hspine₁ : Spine s₁.heap list nodes := hspine.update hkeyOut.1 hkeyOut.2
  have hentry₁ : s₁.heap cell.addr = some (.entry mdc) :=
    (s.release_heap_of_ne hak).trans hentry
  have hvalue₁ : s₁.heap cell.valueAddr = some (.text cell.value) :=
    (s.release_heap_of_ne hne.symm).trans htexts.2
  set s₂ := s₁.release cell.valueAddr with hs₂
  have hspine₂ : Spine s₂.heap list nodes := hspine₁.update hvalueOut.1 hvalueOut.2
  have hentry₂ : s₂.heap cell.addr = some (.entry mdc) :=
    (s₁.release_heap_of_ne hav).trans hentry₁
  have hspine₃ : Spine (s₂.release cell.addr).heap list nodes :=
    hspine₂.update haddr.symm hout
  have hlisted := hspine.linked.listed hslot
  have hlisted₁ : Listed s₁ := hspine₁.linked.listed hslot
  have hlisted₂ : Listed s₂ := hspine₂.linked.listed hslot
  unfold mdcDestroy
  apply WP.bind
  apply wp_field hlisted ((fieldAt_entry _ hentry).trans (congrArg some hkey))
  apply WP.bind
  apply WP.free hlisted htexts.1 hlisted₁
  apply WP.bind
  apply wp_field hlisted₁ ((fieldAt_entry _ hentry₁).trans (congrArg some hvalue))
  apply WP.bind
  apply WP.free hlisted₁ hvalue₁ hlisted₂
  exact WP.free hlisted₂ hentry₂ (hspine₃.linked.listed hslot) ⟨rfl, hspine₃⟩

/-- The texts of two different entries are different. -/
theorem texts_ne {other : Cell} (hdistinct : ((front ++ cell :: back).flatMap Cell.texts).Nodup)
    (hother : other ∈ front ++ back) : ∀ a ∈ other.texts, a ∉ cell.texts := by
  intro a ha hcell
  have hperm : (front ++ cell :: back).flatMap Cell.texts |>.Perm
      (cell.texts ++ (front ++ back).flatMap Cell.texts) :=
    List.Perm.flatMap_right _ List.perm_middle
  have hnodup := hperm.nodup hdistinct
  rw [List.nodup_append] at hnodup
  exact hnodup.2.2 a hcell a (List.mem_flatMap.mpr ⟨other, hother, ha⟩) rfl

/-- What is left when one entry is taken out and its blocks are freed. -/
theorem Owns.remove {heap heap' : Heap Block} (h : Owns heap list (front ++ cell :: back) frame)
    (hspine : Spine heap' list ((front ++ back).map Cell.node))
    (hdead : ∀ a ∈ cell.blocks, heap' a = none)
    (hsame : ∀ a ∉ cell.blocks, a ≠ list → a ∉ (front ++ back).map Cell.addr →
      heap' a = heap a) : Owns heap' list (front ++ back) frame := by
  have hmem : ∀ other ∈ front ++ back, other ∈ front ++ cell :: back := by
    intro other hother
    rw [List.mem_append] at hother
    rw [List.mem_append, List.mem_cons]
    tauto
  refine ⟨hspine, ?_, ?_, ?_⟩
  · intro other hother
    have htext : ∀ a ∈ other.texts, heap' a = heap a := by
      intro a ha
      obtain ⟨text, hlive⟩ := h.text_live (List.mem_flatMap.mpr ⟨other, hmem other hother, ha⟩)
      have hout := spine_other h.spine (.inr ⟨text, hlive⟩)
      rw [map_node_addr] at hout
      apply hsame a ?_ hout.1 ?_
      · intro hblock
        rcases List.mem_cons.mp hblock with rfl | hblock
        · exact hout.2 (by simp)
        · exact texts_ne h.distinct hother a ha hblock
      · intro haddr
        obtain ⟨node, hnode, rfl⟩ := List.mem_map.mp haddr
        exact hout.2 (List.mem_map_of_mem (hmem node hnode))
    rw [htext _ (by simp [Cell.texts]), htext _ (by simp [Cell.texts])]
    exact h.texts other (hmem other hother)
  · exact h.distinct.sublist (List.Sublist.flatMap (by simp) _)
  · intro a
    rw [h.rest a]
    by_cases hfoot : a ∈ footprint list (front ++ back)
    · rw [if_pos hfoot, if_pos (mem_footprint_middle.mpr (.inr hfoot))]
    · rw [if_neg hfoot]
      by_cases hblock : a ∈ cell.blocks
      · rw [if_pos (mem_footprint_middle.mpr (.inl hblock)), hdead a hblock]
      · have hout := hfoot
        rw [mem_footprint, not_or, not_or] at hout
        rw [if_neg (by rw [mem_footprint_middle, not_or]; exact ⟨hblock, hfoot⟩),
          hsame a hblock hout.1 hout.2.1]

theorem rmFromList_spec (hown : Owns s.heap list (front ++ cell :: back) frame)
    (hslot : ∀ p, s.slot = some p → p = list) :
    WP fails Listed (fun _ s' => s'.slot = s.slot ∧ Owns s'.heap list (front ++ back) frame ∧
        s'.freed.Perm (cell.blocks ++ s.freed))
      (rmFromList (some cell.addr) (some list)) s := by
  have hmem : cell ∈ front ++ cell :: back := by simp
  have htexts := hown.texts cell hmem
  have hspine : Spine s.heap list (front.map Cell.node ++ cell.node :: back.map Cell.node) := by
    simpa using hown.spine
  have hout := hspine.nodup_middle.1
  rw [map_node_addr, map_node_addr] at hout
  obtain ⟨mdc, hmdc, hkey, hvalue⟩ := hspine.entry (show cell.node ∈ _ by simp)
  have hne : cell.keyAddr ≠ cell.valueAddr := by
    have hdistinct := hown.distinct
    rw [List.flatMap_append, List.flatMap_cons] at hdistinct
    simpa [Cell.texts] using ((List.nodup_append.mp hdistinct).2.1.of_append_left)
  unfold rmFromList
  apply WP.bind
  refine (unlink_spec hspine hslot).post ?_
  rintro - s₁ - ⟨htouches, hspine₁⟩
  rw [map_node_addr, map_node_addr, ← List.map_append] at htouches
  rw [← List.map_append] at hspine₁ hout
  have hslot₁ : ∀ p, s₁.slot = some p → p = list := by
    rw [htouches.slot]
    exact hslot
  have hentry₁ : s₁.heap cell.addr = some (.entry mdc) := by
    rw [htouches.heap]
    · exact hmdc
    · rw [List.mem_cons, not_or]
      exact ⟨(hspine.linked.list_ne hmdc).symm, hout⟩
  have hkeep : ∀ a text, s.heap a = some (.text text) → s₁.heap a = some (.text text) := by
    intro a text ha
    have hother := spine_other hspine (.inr ⟨_, ha⟩)
    rw [htouches.heap, ha]
    rw [List.mem_cons, not_or]
    refine ⟨hother.1, fun hmem => hother.2 ?_⟩
    rw [← map_node_addr] at hmem
    simp only [List.map_append, List.map_cons, List.mem_append, List.mem_cons] at hmem ⊢
    tauto
  refine (mdcDestroy_spec hspine₁ hslot₁ hentry₁ hkey hvalue (by rw [map_node_addr]; exact hout)
    ⟨hkeep _ _ htexts.1, hkeep _ _ htexts.2⟩ hne).post ?_
  rintro - s₂ - ⟨rfl, hspine₂⟩
  refine ⟨htouches.slot, hown.remove hspine₂ ?_ ?_, ?_⟩
  · intro a ha
    simp only [Cell.blocks, Cell.texts, List.mem_cons, List.not_mem_nil, or_false] at ha
    rcases ha with rfl | rfl | rfl
    · exact Memory.release_heap_self _ _
    · exact Memory.release_dead _ _ (Memory.release_dead _ _ (Memory.release_heap_self _ _))
    · exact Memory.release_dead _ _ (Memory.release_heap_self _ _)
  · intro a ha hlist haddrs
    simp only [Cell.blocks, Cell.texts, List.mem_cons, List.not_mem_nil, or_false, not_or] at ha
    rw [Memory.release_heap_of_ne _ ha.1, Memory.release_heap_of_ne _ ha.2.2,
      Memory.release_heap_of_ne _ ha.2.1, htouches.heap]
    rw [List.mem_cons, not_or]
    exact ⟨hlist, haddrs⟩
  · simp only [Memory.release_freed, htouches.freed]
    exact .cons _ (.swap _ _ _)

/-- The loop of `empty_list`: at each turn the first entry goes. -/
theorem emptyList_spec (hown : Owns s.heap list cells frame)
    (hslot : ∀ p, s.slot = some p → p = list) :
    WP fails Listed (fun _ s' => s'.slot = s.slot ∧ Owns s'.heap list [] frame ∧
        s'.freed.Perm (cells.flatMap Cell.blocks ++ s.freed)) (emptyList (some list)) s := by
  unfold emptyList
  apply WP.bind
  apply wp_listHead (hown.listed hslot) hown.spine.linked.1
  rw [map_node_addr]
  induction cells generalizing s with
  | nil =>
    exact WP.loop (hown.listed hslot) (WP.pure (hown.listed hslot) ⟨rfl, hown, .refl _⟩)
  | cons cell cells ih =>
    have hlisted := hown.listed hslot
    have hnext : nextAt s.heap cell.addr = some (cells.map Cell.addr).head? := by
      rw [← map_node_addr]
      exact Spine.next_eq (show Spine s.heap list ([] ++ cell.node :: cells.map Cell.node) from
        hown.spine)
    apply WP.loop hlisted
    apply WP.bind
    apply wp_field hlisted hnext
    apply WP.bind
    refine (rmFromList_spec (show Owns s.heap list ([] ++ cell :: cells) frame from hown)
      hslot).post ?_
    rintro - s₁ - ⟨hslot₁, hown₁, hfreed₁⟩
    have hslot' : ∀ p, s₁.slot = some p → p = list := by
      rw [hslot₁]
      exact hslot
    apply WP.pure (hown₁.listed hslot')
    refine (ih hown₁ hslot').post ?_
    rintro - s₂ - ⟨hslot₂, hown₂, hfreed₂⟩
    refine ⟨hslot₂.trans hslot₁, hown₂, hfreed₂.trans ?_⟩
    rw [List.flatMap_cons, List.append_assoc]
    exact (hfreed₁.append_left _).trans (List.perm_append_comm_assoc _ _ _)

theorem listed_of_slot (h : s.slot = none) : Listed s := by
  intro p hp
  simp [h] at hp

/-- `destroy_list` leaves nothing of the list. Between its last two steps the
slot may hold the freed list, so the step invariant has to allow that. -/
theorem destroyList_spec {inv : Memory Block → Prop} (hinv : ∀ s, Listed s → inv s)
    (hkeep : ∀ s', s'.slot = s.slot → inv s') (hown : Owns s.heap list cells frame)
    (hslot : ∀ p, s.slot = some p → p = list) :
    WP fails inv (fun _ s' => s'.slot = none ∧ s'.heap = frame ∧
        s'.freed.Perm (footprint list cells ++ s.freed)) (destroyList (some list)) s := by
  unfold destroyList
  apply WP.bind
  refine (emptyList_spec hown hslot).mono hinv ?_
  rintro - s₁ - ⟨hslot₁, hown₁, hfreed₁⟩
  apply WP.bind
  have hafter : inv (s₁.release list) := hkeep _ hslot₁
  apply WP.free (hkeep s₁ hslot₁) hown₁.spine.linked.1 hafter
  apply WP.setSlot hafter (hinv _ (listed_of_slot rfl))
  refine ⟨rfl, ?_, hfreed₁.cons list⟩
  funext a
  rw [hown₁.rest a]
  by_cases ha : a = list
  · subst ha
    rw [if_pos (by simp [footprint])]
    exact Memory.release_heap_self _ _
  · rw [if_neg (by simp [footprint, ha])]
    exact Memory.release_heap_of_ne _ ha

end remove

/-! Adding. -/

section add
variable {heap heap' frame : Heap Block} {list : Addr} {cells front back : List Cell} {cell : Cell}

/-- A new entry in front, in blocks that were free. -/
theorem Owns.push (h : Owns heap list cells frame)
    (hspine : Spine heap' list ((cell :: cells).map Cell.node))
    (hfree : ∀ a ∈ cell.blocks, heap a = none)
    (htexts : heap' cell.keyAddr = some (.text cell.key) ∧
      heap' cell.valueAddr = some (.text cell.value)) (hne : cell.keyAddr ≠ cell.valueAddr)
    (hsame : ∀ a ∉ list :: cells.map Cell.addr, a ∉ cell.blocks → heap' a = heap a) :
    Owns heap' list (cell :: cells) frame := by
  have hnew : ∀ a ∈ cells.flatMap Cell.texts, a ∉ cell.blocks := by
    intro a ha hblock
    obtain ⟨text, hlive⟩ := h.text_live ha
    rw [hfree a hblock] at hlive
    simp at hlive
  refine ⟨hspine, ?_, ?_, ?_⟩
  · intro other hother
    rcases List.mem_cons.mp hother with rfl | hother
    · exact htexts
    · have htext : ∀ a ∈ other.texts, heap' a = heap a := by
        intro a ha
        have hmem : a ∈ cells.flatMap Cell.texts := List.mem_flatMap.mpr ⟨other, hother, ha⟩
        have hout := spine_other h.spine (.inr (h.text_live hmem))
        rw [map_node_addr] at hout
        exact hsame a (by rw [List.mem_cons, not_or]; exact hout) (hnew a hmem)
      rw [htext _ (by simp [Cell.texts]), htext _ (by simp [Cell.texts])]
      exact h.texts other hother
  · rw [List.flatMap_cons, List.nodup_append]
    refine ⟨by simp [Cell.texts, hne], h.distinct, ?_⟩
    rintro a ha b hb rfl
    exact hnew a hb (List.mem_cons_of_mem _ ha)
  · intro a
    by_cases hblock : a ∈ cell.blocks
    · rw [h.frame_dead (hfree a hblock), if_pos (by simp [footprint, hblock])]
    · have hfoot : a ∈ footprint list (cell :: cells) ↔ a ∈ footprint list cells := by
        simp only [footprint, List.mem_cons, List.flatMap_cons, List.mem_append]
        tauto
      rw [h.rest a]
      by_cases hmem : a ∈ footprint list cells
      · rw [if_pos hmem, if_pos (hfoot.mpr hmem)]
      · have hout := hmem
        rw [mem_footprint, not_or, not_or] at hout
        rw [if_neg hmem, if_neg (by rw [hfoot]; exact hmem),
          hsame a (by rw [List.mem_cons, not_or]; exact ⟨hout.1, hout.2.1⟩) hblock]

/-- One entry gets a new value, in a block that was free or held the old one. -/
theorem Owns.replace {a : Addr} {value : CStr} (h : Owns heap list (front ++ cell :: back) frame)
    (hspine : Spine heap'
      list ((front ++ { cell with valueAddr := a, value := value } :: back).map Cell.node))
    (hvalue : heap' a = some (.text value)) (hfree : heap a = none ∨ a = cell.valueAddr)
    (hold : a ≠ cell.valueAddr → heap' cell.valueAddr = none)
    (hsame : ∀ x, x ≠ cell.addr → x ≠ cell.valueAddr → x ≠ a → heap' x = heap x) :
    Owns heap' list (front ++ { cell with valueAddr := a, value := value } :: back) frame := by
  have hperm : ((front ++ cell :: back).flatMap Cell.texts).Perm
      (cell.texts ++ (front ++ back).flatMap Cell.texts) :=
    List.Perm.flatMap_right _ List.perm_middle
  have hdistinct := hperm.nodup h.distinct
  rw [List.nodup_append] at hdistinct
  obtain ⟨hcell, hothers, hapart⟩ := hdistinct
  have hkeyvalue : cell.keyAddr ≠ cell.valueAddr := by simpa [Cell.texts] using hcell
  have htext : ∀ x ∈ (front ++ cell :: back).flatMap Cell.texts, x ≠ cell.valueAddr →
      x ≠ a ∧ heap' x = heap x := by
    intro x hx hne
    obtain ⟨text, hlive⟩ := h.text_live hx
    have hxa : x ≠ a := by
      rintro rfl
      rcases hfree with hfree | hfree
      · rw [hfree] at hlive
        simp at hlive
      · exact hne hfree
    have hout := spine_other h.spine (.inr ⟨text, hlive⟩)
    rw [map_node_addr] at hout
    refine ⟨hxa, hsame x ?_ hne hxa⟩
    rintro rfl
    exact hout.2 (by simp)
  have hother : ∀ other ∈ front ++ back, ∀ x ∈ other.texts, x ≠ a ∧ heap' x = heap x := by
    intro other hmem x hx
    have hflat : x ∈ (front ++ back).flatMap Cell.texts := List.mem_flatMap.mpr ⟨other, hmem, hx⟩
    refine htext x (hperm.mem_iff.mpr (List.mem_append_right _ hflat)) ?_
    exact (hapart cell.valueAddr (by simp [Cell.texts]) x hflat).symm
  have hkey := htext cell.keyAddr
    (hperm.mem_iff.mpr (List.mem_append_left _ (by simp [Cell.texts]))) hkeyvalue
  have hkept : ∀ other ∈ front ++ back, heap' other.keyAddr = some (.text other.key) ∧
      heap' other.valueAddr = some (.text other.value) := by
    intro other hmem
    rw [(hother other hmem _ (by simp [Cell.texts])).2,
      (hother other hmem _ (by simp [Cell.texts])).2]
    apply h.texts other
    rw [List.mem_append] at hmem
    rw [List.mem_append, List.mem_cons]
    tauto
  refine ⟨hspine, ?_, ?_, ?_⟩
  · intro other hmem
    rw [List.mem_append, List.mem_cons] at hmem
    rcases hmem with hmem | rfl | hmem
    · exact hkept other (by simp [hmem])
    · exact ⟨hkey.2.trans (h.texts cell (by simp)).1, hvalue⟩
    · exact hkept other (by simp [hmem])
  · have hperm' := List.Perm.flatMap_right Cell.texts
      (show (front ++ { cell with valueAddr := a, value := value } :: back).Perm
        ({ cell with valueAddr := a, value := value } :: (front ++ back)) from List.perm_middle)
    refine hperm'.symm.nodup ?_
    rw [List.flatMap_cons, List.nodup_append]
    refine ⟨by simp [Cell.texts, hkey.1], hothers, ?_⟩
    rintro x hx y hy rfl
    obtain ⟨other, hmem, hx'⟩ := List.mem_flatMap.mp hy
    simp only [Cell.texts, List.mem_cons, List.not_mem_nil, or_false] at hx
    rcases hx with rfl | rfl
    · exact hapart _ (by simp [Cell.texts]) _ hy rfl
    · exact (hother other hmem _ hx').1 rfl
  · intro x
    have hblocks : x ∈ cell.blocks ↔ x = cell.addr ∨ x = cell.keyAddr ∨ x = cell.valueAddr := by
      simp [Cell.blocks, Cell.texts]
    have hblocks' : x ∈ ({ cell with valueAddr := a, value := value } : Cell).blocks ↔
        x = cell.addr ∨ x = cell.keyAddr ∨ x = a := by
      simp [Cell.blocks, Cell.texts]
    have hrest := h.rest x
    simp only [mem_footprint_middle, hblocks] at hrest
    simp only [mem_footprint_middle, hblocks']
    by_cases hxa : x = a
    · subst hxa
      rw [if_pos (.inl (.inr (.inr rfl)))]
      rcases hfree with hfree | hfree
      · exact h.frame_dead hfree
      · rw [hrest, if_pos (.inl (.inr (.inr hfree)))]
    · by_cases hxv : x = cell.valueAddr
      · subst hxv
        rw [hrest, if_pos (.inl (.inr (.inr rfl))), hold (Ne.symm hxa), ite_self]
      · simp only [hxa, hxv, or_false] at hrest ⊢
        rw [hrest]
        by_cases hmem : (x = cell.addr ∨ x = cell.keyAddr) ∨ x ∈ footprint list (front ++ back)
        · rw [if_pos hmem, if_pos hmem]
        · rw [if_neg hmem, if_neg hmem]
          exact (hsame x (fun heq => hmem (.inl (.inl heq))) hxv hxa).symm

end add

/-! The store of a thread: no list yet, or a list in the slot. -/

/-- The thread's slot leads to exactly `cells`; the rest of the heap is `frame`. -/
def Holds (s : Memory Block) (cells : List Cell) (frame : Heap Block) : Prop :=
  (s.slot = none ∧ cells = [] ∧ s.heap = frame) ∨
    ∃ list, s.slot = some list ∧ Owns s.heap list cells frame

section calls
variable {s : Memory Block} {list : Addr} {cells : List Cell} {frame : Heap Block}

theorem Owns.slot_listed (hown : Owns s.heap list cells frame) (hslot : s.slot = some list) :
    Listed s :=
  hown.listed fun p hp => by simpa [hslot] using hp.symm

theorem Holds.of_owns (hslot : s.slot = some list)
    (hown : Owns s.heap list cells frame) : Holds s cells frame :=
  .inr ⟨list, hslot, hown⟩

theorem Holds.listed (h : Holds s cells frame) : Listed s := by
  rcases h with ⟨hslot, -, -⟩ | ⟨list, hslot, hown⟩
  · exact listed_of_slot hslot
  · exact hown.slot_listed hslot

theorem Holds.nil_of_slot (h : Holds s cells frame) (hslot : s.slot = none) : cells = [] := by
  rcases h with ⟨-, rfl, -⟩ | ⟨list, hsome, -⟩
  · rfl
  · rw [hslot] at hsome
    cases hsome

theorem Holds.slot_nodup (h : Holds s cells frame) :
    (s.slot.toList ++ cells.flatMap Cell.blocks).Nodup := by
  rcases h with ⟨hslot, rfl, -⟩ | ⟨list, hslot, hown⟩
  · simp [hslot]
  · rw [hslot]
    exact hown.footprint_nodup

theorem Holds.blocks_nodup (h : Holds s cells frame) : (cells.flatMap Cell.blocks).Nodup :=
  (List.nodup_append.mp h.slot_nodup).2.1

theorem threadExit_spec {fails : Prop} (h : Holds s cells frame) :
    WP fails Listed (fun _ s' => s'.slot = none ∧ s'.heap = frame ∧
      s'.freed.Perm ((s.slot.toList ++ cells.flatMap Cell.blocks) ++ s.freed)) threadExit s := by
  have hlisted := h.listed
  unfold threadExit
  apply WP.bind
  apply WP.getSlot hlisted
  rcases h with ⟨hslot, rfl, rfl⟩ | ⟨list, hslot, hown⟩
  · rw [hslot]
    exact WP.pure hlisted ⟨hslot, rfl, by simp⟩
  · rw [hslot]
    apply WP.bind
    apply WP.setSlot hlisted (listed_of_slot rfl)
    have hown' : Owns { s with slot := none : Memory Block }.heap list cells frame := hown
    exact destroyList_spec (fun _ h => h) (fun s' hs' => listed_of_slot hs') hown' (by simp)

/-- `get_list` creates the list on the first call of a thread. -/
theorem getList_spec (h : Holds s cells frame) :
    WP False Listed (fun p s' => ∃ list, p = some list ∧ s'.slot = some list ∧
      Owns s'.heap list cells frame ∧ s'.freed = s.freed) getList s := by
  have hlisted := h.listed
  unfold getList
  apply WP.bind
  apply WP.getSlot hlisted
  rcases h with ⟨hslot, rfl, rfl⟩ | ⟨list, hslot, hown⟩
  · rw [hslot]
    apply WP.bind
    refine WP.malloc_ok hlisted fun list hfresh => ⟨listed_of_slot hslot, ?_⟩
    set s₁ := s.set list (some .garbage) with hs₁
    set s₂ := s₁.set list (some (.list none)) with hs₂
    have hlisted₁ : Listed s₁ := listed_of_slot hslot
    have hlisted₂ : Listed s₂ := listed_of_slot hslot
    have hown : Owns s₂.heap list [] s.heap := by
      refine ⟨⟨⟨by simp [hs₂], rfl⟩, trivial, by simp⟩, by simp, by simp, fun a => ?_⟩
      by_cases ha : a = list
      · subst ha
        simp [footprint, hfresh]
      · rw [if_neg (by simp [footprint, ha]), Memory.set_heap_of_ne _ _ ha,
          Memory.set_heap_of_ne _ _ ha]
    have hown₃ : Owns { s₂ with slot := some list : Memory Block }.heap list [] s.heap := hown
    have hlisted₃ := hown₃.slot_listed rfl
    apply WP.bind
    apply wp_fill hlisted₁ (s.set_heap_self list _) (fun _ => rfl) hlisted₂
    apply WP.bind
    refine WP.trySlot hlisted₂ hlisted₃ ?_ False.elim
    exact WP.pure hlisted₃ ⟨list, rfl, rfl, hown, rfl⟩
  · rw [hslot]
    exact WP.pure hlisted ⟨list, rfl, hslot, hown, rfl⟩

theorem getList_of_slot {fails : Prop} (hlisted : Listed s) (hslot : s.slot = some list) :
    WP fails Listed (fun p s' => p = some list ∧ s' = s) getList s := by
  unfold getList
  apply WP.bind
  apply WP.getSlot hlisted
  rw [hslot]
  exact WP.pure hlisted ⟨rfl, rfl⟩

theorem Owns.next_eq {front back : List Cell} {cell : Cell}
    (hown : Owns s.heap list (front ++ cell :: back) frame) :
    nextAt s.heap cell.addr = some (back.map Cell.addr).head? := by
  have hspine := hown.spine
  rw [List.map_append, List.map_cons] at hspine
  rw [← map_node_addr]
  exact hspine.next_eq

/-- The loop of `mdclog_internal_search_mdc` stops at the first entry with the key. -/
theorem searchList_spec {fails : Prop} (key : CStr) (hown : Owns s.heap list cells frame)
    (hslot : s.slot = some list) :
    WP fails Listed (fun p s' => s' = s ∧
      p = (cells.find? fun cell => key = cell.key).map Cell.addr)
      (searchList key (some list)) s := by
  have hlisted := hown.slot_listed hslot
  unfold searchList
  apply WP.bind
  apply wp_listHead hlisted hown.spine.linked.1
  rw [map_node_addr]
  -- the entries passed so far are `front`
  suffices h : ∀ front back, cells = front ++ back → WP fails Listed
      (fun p s' => s' = s ∧ p = (back.find? fun cell => key = cell.key).map Cell.addr) (loop _
        (back.map Cell.addr).head?) s from h [] cells rfl
  intro front back hsplit
  induction back generalizing front with
  | nil => exact WP.loop hlisted (WP.pure hlisted ⟨rfl, rfl⟩)
  | cons cell back ih =>
    subst hsplit
    have hmem : cell ∈ front ++ cell :: back := by simp
    have hkey : fieldAt Mdc.key s.heap cell.addr = some (some cell.keyAddr) :=
      (hown.spine.fields cell.node (List.mem_map_of_mem hmem)).1
    apply WP.loop hlisted
    apply WP.bind
    apply wp_field hlisted hkey
    apply WP.bind
    apply wp_str hlisted (hown.texts cell hmem).1
    by_cases heq : key = cell.key
    · rw [if_pos heq]
      apply WP.pure hlisted
      simp [heq]
    · rw [if_neg heq]
      apply WP.bind
      apply wp_field hlisted hown.next_eq
      apply WP.pure hlisted
      simp only [heq, decide_false, List.find?_cons]
      exact ih (front ++ [cell]) (by simp)

theorem mdclogInternalSearchMdc_spec {fails : Prop} (key : CStr)
    (hown : Owns s.heap list cells frame) (hslot : s.slot = some list) :
    WP fails Listed (fun p s' => s' = s ∧
      p = (cells.find? fun cell => key = cell.key).map Cell.addr)
      (mdclogInternalSearchMdc key) s := by
  unfold mdclogInternalSearchMdc
  apply WP.bind
  refine (getList_of_slot (hown.slot_listed hslot) hslot).post ?_
  rintro - s₁ - ⟨rfl, rfl⟩
  exact searchList_spec key hown hslot

/-- The same from any store; the first call of a thread makes its list. -/
theorem searchMdc_spec (key : CStr) (h : Holds s cells frame) :
    WP False Listed (fun p s' => s'.freed = s.freed ∧
      p = (cells.find? fun cell => key = cell.key).map Cell.addr ∧
      ∃ list, s'.slot = some list ∧ Owns s'.heap list cells frame)
      (mdclogInternalSearchMdc key) s := by
  unfold mdclogInternalSearchMdc
  apply WP.bind
  refine (getList_spec h).post ?_
  rintro - s₁ - ⟨list, rfl, hslot, hown, hfreed⟩
  refine (searchList_spec key hown hslot).post ?_
  rintro - s₂ - ⟨rfl, rfl⟩
  exact ⟨hfreed, rfl, list, hslot, hown⟩

theorem escapeAndCopy_spec (text : CStr) {nodes : List Node} (hspine : Spine s.heap list nodes)
    (hslot : s.slot = some list) :
    WP False Listed (fun p s' => ∃ a, p = some a ∧ s.heap a = none ∧
      s' = s.set a (some (.text (CStr.escaped text)))) (escapeAndCopy text) s := by
  have hslot' : ∀ p, s.slot = some p → p = list := fun p hp => by simpa [hslot] using hp.symm
  unfold escapeAndCopy
  apply WP.bind
  refine WP.malloc_ok (hspine.linked.listed hslot') fun a hfresh => ?_
  have hout := spine_other hspine (.inl hfresh)
  have hset : ∀ block, Spine (s.set a (some block)).heap list nodes := fun block =>
    hspine.update hout.1 hout.2
  have hlisted : ∀ block, Listed (s.set a (some block)) := fun block =>
    (hset block).linked.listed hslot'
  have hcollapse : (s.set a (some .garbage)).set a (some (.text (CStr.escaped text))) =
      s.set a (some (.text (CStr.escaped text))) := by
    simp [Memory.set]
  refine ⟨hlisted _, WP.bind (wp_fill (hlisted _) (s.set_heap_self a _)
    (fun _ => by rw [escapedCopy_eq, Option.map_some]) ?_ ?_)⟩
  · rw [hcollapse]
    exact hlisted _
  · rw [hcollapse]
    exact WP.pure (hlisted _) ⟨a, rfl, hfresh, rfl⟩

/-- The common end of `mdclog_internal_put_mdc`. -/
theorem setValue_spec (value : CStr) {front back : List Node} {node : Node} {mdc : Mdc}
    {keyAddr : Addr} (hspine : Spine s.heap list (front ++ node :: back))
    (hslot : s.slot = some list) (hmdc : s.heap node.addr = some (.entry mdc))
    (hkey : mdc.key = some keyAddr) :
    WP False Listed (fun r s' => r = 0 ∧ ∃ a, s.heap a = none ∧
      Spine s'.heap list (front ++ { node with value := some a } :: back) ∧
      s' = (s.set a (some (.text (CStr.escaped value)))).set node.addr
        (some (.entry { mdc with value := some a }))) (setValue (some node.addr) value) s := by
  have hslot' : ∀ p, s.slot = some p → p = list := fun p hp => by simpa [hslot] using hp.symm
  unfold setValue
  apply WP.bind
  refine (escapeAndCopy_spec value hspine hslot).post ?_
  rintro - s₁ hlisted₁ ⟨a, rfl, hfresh, rfl⟩
  set s₁ := s.set a (some (.text (CStr.escaped value))) with hs₁
  have hout := spine_other hspine (.inl hfresh)
  have hspine₁ : Spine s₁.heap list (front ++ node :: back) := hspine.update hout.1 hout.2
  have hmdc₁ : s₁.heap node.addr = some (.entry mdc) := by
    rw [hs₁, s.set_heap_of_ne, hmdc]
    rintro rfl
    rw [hmdc] at hfresh
    simp at hfresh
  set s₂ := s₁.set node.addr (some (.entry { mdc with value := some a })) with hs₂
  have hspine₂ : Spine s₂.heap list (front ++ { node with value := some a } :: back) :=
    hspine₁.setValue (some a) hmdc₁
  have hmdc₂ : s₂.heap node.addr = some (.entry { mdc with value := some a }) :=
    s₁.set_heap_self _ _
  have hlisted₂ : Listed s₂ := hspine₂.linked.listed hslot'
  apply WP.bind
  apply wp_setField hlisted₁ hmdc₁ hlisted₂
  apply WP.bind
  apply wp_field hlisted₂ ((fieldAt_entry _ hmdc₂).trans (congrArg some hkey))
  apply WP.bind
  apply wp_field hlisted₂ (fieldAt_entry _ hmdc₂)
  exact WP.pure hlisted₂ ⟨rfl, a, hfresh, hspine₂, rfl⟩

/-- The addresses of the entries with a key; at most one, as keys are distinct. -/
def withKey (key : CStr) (cells : List Cell) : List Cell :=
  cells.filter fun cell => key = cell.key

theorem withKey_middle {front back : List Cell} {cell : Cell}
    (h : (keys ((front ++ cell :: back).map Cell.pair)).Nodup) :
    withKey cell.key (front ++ cell :: back) = [cell] := by
  rw [List.map_append, List.map_cons] at h
  obtain ⟨hfront, hback⟩ := notMem_middle h
  have hnone : ∀ part : List Cell, (∀ p ∈ part.map Cell.pair, p.1 ≠ cell.key) →
      part.filter (fun other => cell.key = other.key) = [] := by
    intro part hpart
    refine List.filter_eq_nil_iff.mpr fun other hother => ?_
    rw [decide_eq_true_eq]
    exact (hpart other.pair (List.mem_map_of_mem hother)).symm
  rw [withKey, List.filter_append, List.filter_cons_of_pos (by simp), hnone front hfront,
    hnone back hback, List.nil_append]

theorem withoutKey_middle {front back : List Cell} {cell : Cell}
    (h : (keys ((front ++ cell :: back).map Cell.pair)).Nodup) :
    ((front ++ cell :: back).filter fun other => cell.key ≠ other.key) = front ++ back := by
  rw [List.map_append, List.map_cons] at h
  obtain ⟨hfront, hback⟩ := notMem_middle h
  have hall : ∀ part : List Cell, (∀ p ∈ part.map Cell.pair, p.1 ≠ cell.key) →
      part.filter (fun other => cell.key ≠ other.key) = part := by
    intro part hpart
    refine List.filter_eq_self.mpr fun other hother => ?_
    rw [decide_eq_true_eq]
    exact (hpart other.pair (List.mem_map_of_mem hother)).symm
  rw [List.filter_append, List.filter_cons_of_neg (by simp), hall front hfront, hall back hback]

theorem withKey_of_none {key : CStr} (h : cells.find? (fun cell => key = cell.key) = none) :
    withKey key cells = [] ∧ key ∉ keys (cells.map Cell.pair) := by
  rw [List.find?_eq_none] at h
  refine ⟨List.filter_eq_nil_iff.mpr h, fun hmem => ?_⟩
  simp only [keys, List.map_map, List.mem_map, Function.comp_apply] at hmem
  obtain ⟨cell, hcell, rfl⟩ := hmem
  exact h cell hcell (by simp [Cell.pair])

theorem find_middle {key : CStr} {cell : Cell}
    (h : cells.find? (fun cell => key = cell.key) = some cell) :
    key = cell.key ∧ ∃ front back, cells = front ++ cell :: back := by
  obtain ⟨hkey, front, back, hsplit, -⟩ := List.find?_eq_some_iff_append.mp h
  exact ⟨by simpa using hkey, front, back, hsplit⟩

/-- A new key: the entry is built outside the list and then put in front. -/
theorem putNew_spec (key value : CStr) (hown : Owns s.heap list cells frame)
    (hslot : s.slot = some list) :
    WP False Listed (fun r s' => r = 0 ∧ s'.slot = some list ∧ s'.freed = s.freed ∧
      ∃ cell, Owns s'.heap list (cell :: cells) frame ∧ cell.pair = (key, CStr.escaped value))
      (do
        let mdc ← allocEntry
        match mdc with
        | none => return -1
        | some _ =>
            let name ← strdup key
            setField mdc fun mdc => { mdc with key := name }
            addToList mdc (some list)
            setValue mdc value) s := by
  have hlisted := hown.slot_listed hslot
  have hslot' : ∀ p, s.slot = some p → p = list := fun p hp => by simpa [hslot] using hp.symm
  unfold allocEntry
  apply WP.bind
  apply WP.bind
  -- the entry at `m`, zeroed
  refine WP.malloc_ok hlisted fun m hm => ?_
  have hm_out := hown.fresh hm
  have hown₁ : Owns (s.set m (some .garbage)).heap list cells _ := hown.set_frame hm_out _
  set s₁ := s.set m (some .garbage) with hs₁
  have hlisted₁ : Listed s₁ := hown₁.slot_listed hslot
  refine ⟨hlisted₁, ?_⟩
  have hown₂ : Owns (s₁.set m (some (.entry ⟨none, none, none, none⟩))).heap list cells _ :=
    hown₁.set_frame hm_out _
  set s₂ := s₁.set m (some (.entry ⟨none, none, none, none⟩)) with hs₂
  have hlisted₂ : Listed s₂ := hown₂.slot_listed hslot
  apply WP.bind
  apply wp_fill hlisted₁ (s.set_heap_self m _) (fun _ => rfl) hlisted₂
  apply WP.pure hlisted₂
  apply WP.bind
  -- the copy of the key at `ka`
  refine WP.malloc_ok hlisted₂ fun ka hka => ?_
  have hka_out := hown₂.fresh hka
  have hown₃ : Owns (s₂.set ka (some (.text key))).heap list cells _ := hown₂.set_frame hka_out _
  set s₃ := s₂.set ka (some (.text key)) with hs₃
  have hlisted₃ : Listed s₃ := hown₃.slot_listed hslot
  refine ⟨hlisted₃, ?_⟩
  have hm₂ : s₂.heap m = some (.entry ⟨none, none, none, none⟩) := s₁.set_heap_self m _
  have hkam : m ≠ ka := by
    rintro rfl
    rw [hka] at hm₂
    simp at hm₂
  have hm₃ : s₃.heap m = some (.entry ⟨none, none, none, none⟩) :=
    (s₂.set_heap_of_ne _ hkam).trans hm₂
  have hown₄ : Owns (s₃.set m (some (.entry ⟨none, none, some ka, none⟩))).heap list cells _ :=
    hown₃.set_frame hm_out _
  set s₄ := s₃.set m (some (.entry ⟨none, none, some ka, none⟩)) with hs₄
  have hlisted₄ : Listed s₄ := hown₄.slot_listed hslot
  apply WP.bind
  apply wp_setField hlisted₃ hm₃ hlisted₄
  apply WP.bind
  have hnew : m ∉ (cells.map Cell.node).map Node.addr := by
    rw [map_node_addr]
    rw [mem_footprint] at hm_out
    tauto
  refine (addToList_spec hown₄.spine hslot' hnew (s₃.set_heap_self m _)).post ?_
  rintro - s₅ - ⟨htouches, hspine₅⟩
  rw [map_node_addr] at htouches
  have hslot₅ : s₅.slot = some list := htouches.slot.trans hslot
  obtain ⟨mdc, hmdc, hkey, -⟩ := hspine₅.entry
    (show (⟨m, some ka, none⟩ : Node) ∈ _ :: cells.map Cell.node by simp)
  refine (setValue_spec value (show Spine s₅.heap list
    ([] ++ ⟨m, some ka, none⟩ :: cells.map Cell.node) from hspine₅) hslot₅ hmdc hkey).post ?_
  rintro - s₆ - ⟨rfl, va, hva, hspine₆, rfl⟩
  have hkeep : ∀ x, x ≠ m → x ∉ list :: cells.map Cell.addr → s₅.heap x = s₃.heap x := by
    intro x hxm hx
    rw [htouches.heap, s₃.set_heap_of_ne _ hxm]
    simp only [List.mem_cons, not_or] at hx ⊢
    exact ⟨hx.1, hxm, hx.2⟩
  have hbelow : ∀ x, x ≠ m → x ≠ ka → s₃.heap x = s.heap x := by
    intro x hxm hxk
    rw [s₂.set_heap_of_ne _ hxk, s₁.set_heap_of_ne _ hxm, s.set_heap_of_ne _ hxm]
  have hka₅ : s₅.heap ka = some (.text key) := by
    rw [hkeep ka hkam.symm, s₂.set_heap_self]
    rw [mem_footprint] at hka_out
    rw [List.mem_cons]
    tauto
  have hva_out := spine_other hspine₅ (.inl hva)
  simp only [List.map_cons, map_node_addr, List.mem_cons, not_or] at hva_out
  have hkava : ka ≠ va := by
    rintro rfl
    rw [hka₅] at hva
    simp at hva
  refine ⟨rfl, hslot₅, htouches.freed, ⟨m, ka, va, key, CStr.escaped value⟩,
    hown.push (by simpa [Cell.node] using hspine₆) ?_ ⟨?_, ?_⟩ hkava ?_, rfl⟩
  · intro a ha
    simp only [Cell.blocks, Cell.texts, List.mem_cons, List.not_mem_nil, or_false] at ha
    rcases ha with rfl | rfl | rfl
    · exact hm
    · rwa [s₁.set_heap_of_ne _ hkam.symm, s.set_heap_of_ne _ hkam.symm] at hka
    · rwa [hkeep a hva_out.2.1 (by rw [List.mem_cons, not_or]; exact ⟨hva_out.1, hva_out.2.2⟩),
        hbelow a hva_out.2.1 hkava.symm] at hva
  · rw [Memory.set_heap_of_ne _ _ hkam.symm, Memory.set_heap_of_ne _ _ hkava, hka₅]
  · rw [Memory.set_heap_of_ne _ _ hva_out.2.1, Memory.set_heap_self]
  · intro x hx hblocks
    simp only [Cell.blocks, Cell.texts, List.mem_cons, List.not_mem_nil, or_false,
      not_or] at hblocks
    rw [Memory.set_heap_of_ne _ _ hblocks.1, Memory.set_heap_of_ne _ _ hblocks.2.2,
      hkeep x hblocks.1 hx, hbelow x hblocks.1 hblocks.2.1]

/-- A known key: the old value is freed first. -/
theorem putOld_spec (value : CStr) {front back : List Cell} {cell : Cell}
    (hown : Owns s.heap list (front ++ cell :: back) frame) (hslot : s.slot = some list) :
    WP False Listed (fun r s' => r = 0 ∧ s'.slot = some list ∧
      s'.freed = cell.valueAddr :: s.freed ∧ ∃ a,
      Owns s'.heap list
        (front ++ { cell with valueAddr := a, value := CStr.escaped value } :: back) frame)
      (do
        free (← field (some cell.addr) Mdc.value)
        setValue (some cell.addr) value) s := by
  have hlisted := hown.slot_listed hslot
  have hslot' : ∀ p, s.slot = some p → p = list := fun p hp => by simpa [hslot] using hp.symm
  have hmem : cell ∈ front ++ cell :: back := by simp
  have htexts := hown.texts cell hmem
  have hspine : Spine s.heap list (front.map Cell.node ++ cell.node :: back.map Cell.node) := by
    simpa using hown.spine
  obtain ⟨mdc, hmdc, hkey, hvalue⟩ := hspine.entry (show cell.node ∈ _ by simp)
  have hout := spine_other hspine (.inr ⟨_, htexts.2⟩)
  set s₁ := s.release cell.valueAddr with hs₁
  have hspine₁ : Spine s₁.heap list (front.map Cell.node ++ cell.node :: back.map Cell.node) :=
    hspine.update hout.1 hout.2
  have hne : cell.node.addr ≠ cell.valueAddr := by
    intro heq
    exact hout.2 (by simp [← heq])
  have hmdc₁ : s₁.heap cell.node.addr = some (.entry mdc) :=
    (s.release_heap_of_ne hne).trans hmdc
  apply WP.bind
  apply wp_field hlisted (hspine.fields cell.node (by simp)).2
  apply WP.bind
  apply WP.free hlisted htexts.2 (hspine₁.linked.listed hslot')
  refine (setValue_spec value hspine₁ hslot hmdc₁ hkey).post ?_
  rintro - s₂ - ⟨rfl, a, hfresh, hspine₂, rfl⟩
  have haddr : a ≠ cell.node.addr := by
    rintro rfl
    rw [hmdc₁] at hfresh
    simp at hfresh
  refine ⟨rfl, hslot, rfl, a, hown.replace (by simpa [Cell.node] using hspine₂) ?_ ?_ ?_ ?_⟩
  · rw [Memory.set_heap_of_ne _ _ haddr, Memory.set_heap_self]
  · by_cases hva : a = cell.valueAddr
    · exact .inr hva
    · exact .inl ((s.release_heap_of_ne hva).symm.trans hfresh)
  · intro hva
    rw [Memory.set_heap_of_ne _ _ hne.symm, Memory.set_heap_of_ne _ _ hva.symm]
    exact s.release_heap_self _
  · intro x hx hxv hxa
    have hx' : x ≠ cell.node.addr := hx
    rw [Memory.set_heap_of_ne _ _ hx', Memory.set_heap_of_ne _ _ hxa]
    exact s.release_heap_of_ne hxv

end calls

end Mdclog.MdcSpec
